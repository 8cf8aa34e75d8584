import Mathlib.Algebra.Ring.Nat
import Bingewatch.Buffer.BlockRing

/-!
# Where the blocks of a ring have their data

`block_data_fastalloc` partitions one region of memory into blocks (`src/buf/block-list-buf.c`).
Here its counting is done in the widths of the source, an `int` times a `size_t`, and every block
has its data pointer. The counting loop ends at the null pointer of a list and at the first block of
a ring alike, so a ring may be closed before it gets its data, as `ring-buf.c` does, or after, as
`fixed-block-buf.c` does: `newBlocks_ring`.

The blocks themselves are those of the other modules about rings (`blockDataFastalloc_mem`).
-/

set_option autoImplicit false

namespace Bingewatch.Buffer

open Foundation

/-- A store of blocks, with the data pointer of each block. -/
structure Placed (α : Type) where
  mem : Mem α := {}
  place : Nat → Nat := fun _ => 0

namespace Placed

variable {α : Type}

/-! ## The functions -/

/-- `block_list_alloc`. `pcalloc` clears the data pointers as well. -/
def blockListAlloc (h : Placed α) (blockCount : Nat) : Placed α × Nat :=
  let (mem, blocks) := Buffer.blockListAlloc h.mem blockCount
  ({ mem := mem, place := fun x => if h.mem.brk ≤ x ∧ x < mem.brk then 0 else h.place x }, blocks)

/-- The conversion of an `int` to a `size_t`. -/
def toSize (n : Int32) : UInt64 := n.toInt64.toUInt64

/-- The counting loop of `block_data_fastalloc`, and the pointer at which the walk ended. The walk
visits a block only once, so the number of blocks allocated so far bounds its length. -/
def countBlocks (m : Mem α) (block : Nat) (bytesPerBlock freeram : UInt64) :
    Nat → Nat → Int32 → Int32 × Nat
  | 0, b, nBlocks => (nBlocks, b)
  | fuel + 1, b, nBlocks =>
      let n := nBlocks + 1
      let nBlocks := if toSize n * bytesPerBlock < freeram then nBlocks + 1 else nBlocks
      let b := m.next b
      if b ≠ 0 ∧ b ≠ block then countBlocks m block bytesPerBlock freeram fuel b nBlocks
      else (nBlocks, b)

/-- A block gets its data. -/
def give (h : Placed α) (b buf : Nat) (bytesPerBlock : UInt64) : Placed α where
  mem := h.mem.modify b fun block =>
    { block with data := [], bytes := 0, size := bytesPerBlock.toNat }
  place := fun x => if x = b then buf else h.place x

/-- The partition loop of `block_data_fastalloc`, with `n_blocks - n` passes remaining. -/
def partitionBlocks (bytesPerBlock : UInt64) (finalNext : Nat) :
    Nat → Placed α → Nat → Nat → Placed α
  | 0, h, _, _ => h
  | remaining + 1, h, b, buf =>
      let h := h.give b buf bytesPerBlock
      let buf := buf + bytesPerBlock.toNat
      if remaining = 0 then
        { h with mem := h.mem.modify b fun block => { block with next := finalNext } }
      else partitionBlocks bytesPerBlock finalNext remaining h (h.mem.next b) buf

/-- `block_data_fastalloc`. `sysinfo` gives the free memory unless it fails; `palloc` gives the
address of a region with as many bytes as it is asked for, or the null pointer. -/
def blockDataFastalloc (h : Placed α) (block : Nat) (bytesPerBlock : UInt64)
    (sysinfo : Option UInt64) (palloc : UInt64 → Nat) : Placed α × UInt64 :=
  if block = 0 then (h, 0)
  else
    match sysinfo with
    | none => (h, 0)
    | some freeram =>
        if bytesPerBlock > freeram then (h, 0)
        else
          let (nBlocks, finalNext) :=
            countBlocks h.mem block bytesPerBlock freeram h.mem.brk block 0
          let bytes := toSize nBlocks * bytesPerBlock
          let buf := palloc bytes
          if buf = 0 then (h, 0)
          else
            (partitionBlocks bytesPerBlock finalNext nBlocks.toNatClampNeg h block buf, bytes)

/-- `forge_ring`. -/
def forgeRing (h : Placed α) (blocks : Nat) : Placed α :=
  { h with mem := Buffer.forgeRing h.mem blocks }

/-- The blocks of a new buffer: the store, the first block, and what `block_data_fastalloc`
returned. The ring buffer forges first, the fixed block buffer partitions first. -/
def newBlocks (forgeFirst : Bool) (h : Placed α) (blockCount : Nat) (bytesPerBlock : UInt64)
    (sysinfo : Option UInt64) (palloc : UInt64 → Nat) : Placed α × Nat × UInt64 :=
  let (h, blocks) := h.blockListAlloc blockCount
  match forgeFirst with
  | true =>
      let h := h.forgeRing blocks
      let (h, bytes) := h.blockDataFastalloc blocks bytesPerBlock sysinfo palloc
      (h, blocks, bytes)
  | false =>
      let (h, bytes) := h.blockDataFastalloc blocks bytesPerBlock sysinfo palloc
      (h.forgeRing blocks, blocks, bytes)

/-! ## Counting in machine words -/

theorem toSize_ofNat {c : Nat} (small : c < 2 ^ 31) : toSize (Int32.ofNat c) = UInt64.ofNat c := by
  have bound : (c : Int) ≤ Int32.maxValue.toInt := by
    have largest : Int32.maxValue.toInt = 2 ^ 31 - 1 := by decide
    omega
  rw [toSize, Int32.toInt64_ofNat' bound, Int64.toUInt64_ofNat']

/-- The bytes of a count of blocks that fits a word. -/
theorem toNat_toSize_mul {c : Nat} {size : UInt64} (small : c < 2 ^ 31)
    (fits : c * size.toNat < 2 ^ 64) : (toSize (Int32.ofNat c) * size).toNat = c * size.toNat := by
  have word : c < 2 ^ 64 := by omega
  rw [toSize_ofNat small, UInt64.toNat_mul, UInt64.toNat_ofNat', Nat.mod_eq_of_lt word,
    Nat.mod_eq_of_lt fits]

/-- The test of one pass of the counting loop. What was counted before is free memory, and so is one
more block, so that their sum does not wrap. -/
theorem fits_iff {c : Nat} {size freeram : UInt64} (small : c + 1 < 2 ^ 31)
    (memory : freeram.toNat < 2 ^ 63) (room : size ≤ freeram)
    (counted : c * size.toNat ≤ freeram.toNat) :
    toSize (Int32.ofNat c + 1) * size < freeram ↔ (c + 1) * size.toNat < freeram.toNat := by
  have below : size.toNat ≤ freeram.toNat := UInt64.le_iff_toNat_le.mp room
  have more : (c + 1) * size.toNat = c * size.toNat + size.toNat := Nat.succ_mul ..
  have next : Int32.ofNat c + 1 = Int32.ofNat (c + 1) := (Int32.ofNat_add c 1).symm
  rw [UInt64.lt_iff_toNat_lt, next, toNat_toSize_mul small (by omega)]

/-- **The counting loop in machine words** counts what it counts in numbers. -/
theorem countBlocks_eq {m : Mem α} {block stop : Nat} {size freeram : UInt64}
    (memory : freeram.toNat < 2 ^ 63) (room : size ≤ freeram) (ends : stop = 0 ∨ stop = block)
    {l : List Nat} {b : Nat} (fuel c : Nat) (chain : Chain m.next b l stop) (nonempty : l ≠ [])
    (small : c + l.length < 2 ^ 31) (counted : c * size.toNat ≤ freeram.toNat) :
    countBlocks m block size freeram fuel b (Int32.ofNat c) =
      (fastallocCount m block size.toNat freeram.toNat fuel b c).map Int32.ofNat id := by
  induction fuel generalizing l b c with
  | zero => rfl
  | succ fuel ih =>
      obtain ⟨x, rest, rfl⟩ := List.exists_cons_of_ne_nil nonempty
      obtain ⟨rfl, rest'⟩ := chain
      simp only [List.length_cons] at small
      have test := fits_iff (by omega) memory room counted
      have counter : (if toSize (Int32.ofNat c + 1) * size < freeram then Int32.ofNat c + 1
          else Int32.ofNat c) =
          Int32.ofNat (if (c + 1) * size.toNat < freeram.toNat then c + 1 else c) := by
        by_cases fits : (c + 1) * size.toNat < freeram.toNat
        · rw [if_pos (test.mpr fits), if_pos fits, Int32.ofNat_add]
          rfl
        · rw [if_neg (fun less => fits (test.mp less)), if_neg fits]
      simp only [countBlocks, fastallocCount, counter]
      split
      · next inside =>
          have more : rest ≠ [] := by
            rintro rfl
            have last : m.next b = stop := rest'
            rw [last] at inside
            rcases ends with rfl | rfl
            · exact inside.1 rfl
            · exact inside.2 rfl
          have step : (if (c + 1) * size.toNat < freeram.toNat then c + 1 else c) ≤ c + 1 := by
            split <;> omega
          refine ih _ rest' more (by omega) ?_
          split
          · next fits => exact Nat.le_of_lt fits
          · exact counted
      · rfl

/-! ## Partitioning -/

theorem give_next (h : Placed α) (b buf : Nat) (size : UInt64) (x : Nat) :
    (h.give b buf size).mem.next x = h.mem.next x :=
  Mem.modify_field Block.next h.mem b
    (fun block => { block with data := [], bytes := 0, size := size.toNat }) rfl x

theorem partitionBlocks_mem (size : UInt64) (finalNext : Nat) {k : Nat} {h : Placed α}
    {b buf : Nat} :
    (partitionBlocks size finalNext k h b buf).mem =
      fastallocPartition size.toNat finalNext k h.mem b := by
  induction k generalizing h b buf with
  | zero => rfl
  | succ k ih =>
      simp only [partitionBlocks, fastallocPartition]
      split
      · rfl
      · exact ih

/-- **The partition loop places the data of the blocks in a row**, from where the region begins. -/
theorem partitionBlocks_place (size : UInt64) (finalNext : Nat) {stop k : Nat} {l : List Nat}
    {h : Placed α} {b : Nat} (buf : Nat) (chain : Chain h.mem.next b l stop) (nodup : l.Nodup)
    (short : k ≤ l.length) :
    (∀ x, x ∉ l.take k → (partitionBlocks size finalNext k h b buf).place x = h.place x) ∧
      ∀ i (within : i < l.length), i < k →
        (partitionBlocks size finalNext k h b buf).place l[i] = buf + i * size.toNat := by
  induction k generalizing h b buf l with
  | zero => exact ⟨fun _ _ => rfl, fun i _ none => absurd none (Nat.not_lt_zero i)⟩
  | succ k ih =>
      cases l with
      | nil => simp at short
      | cons x l =>
      obtain ⟨rfl, rest⟩ := chain
      obtain ⟨notMember, restNodup⟩ := List.nodup_cons.mp nodup
      have self : (h.give b buf size).place b = buf := if_pos rfl
      have other : ∀ x, x ≠ b → (h.give b buf size).place x = h.place x := fun x differ =>
        if_neg differ
      rcases Nat.eq_zero_or_pos k with rfl | more
      · refine ⟨fun x outside => other x (by simpa using outside), fun i within last => ?_⟩
        obtain rfl : i = 0 := by omega
        simpa [partitionBlocks] using self
      · have onward : Chain (h.give b buf size).mem.next ((h.give b buf size).mem.next b) l
            stop := by
          rw [give_next]
          exact rest.congr fun y _ => give_next h b buf size y
        have loop : partitionBlocks size finalNext (k + 1) h b buf =
            partitionBlocks size finalNext k (h.give b buf size)
              ((h.give b buf size).mem.next b) (buf + size.toNat) := by
          simp only [partitionBlocks, if_neg (Nat.pos_iff_ne_zero.mp more)]
        obtain ⟨outer, inner⟩ := ih (buf + size.toNat) onward restNodup
          (Nat.le_of_succ_le_succ short)
        rw [loop]
        refine ⟨fun x outside => ?_, fun i within placed => ?_⟩
        · simp only [List.take_succ_cons, List.mem_cons, not_or] at outside
          rw [outer x outside.2, other x outside.1]
        · cases i with
          | zero =>
              have untouched : b ∉ l.take k := fun member =>
                notMember (List.mem_of_mem_take member)
              simpa using (outer b untouched).trans self
          | succ i =>
              have later := inner i (Nat.lt_of_succ_lt_succ within) (Nat.lt_of_succ_lt_succ placed)
              rw [List.getElem_cons_succ, later, Nat.succ_mul]
              omega

/-! ## Giving data to a list or a ring -/

/-- What is counted is free memory. -/
theorem blocksFitting_mul_le {size freeram : Nat} (positive : 0 < size) (n : Nat) :
    blocksFitting size freeram n * size ≤ freeram := by
  rw [blocksFitting_eq _ _ positive]
  calc min n ((freeram - 1) / size) * size
      ≤ (freeram - 1) / size * size := Nat.mul_le_mul_right _ (Nat.min_le_right ..)
    _ ≤ freeram - 1 := Nat.div_mul_le_self ..
    _ ≤ freeram := Nat.sub_le ..

/-- A list or a ring of blocks with their data in a row, from where the region begins. -/
structure Filled (h : Placed α) (head stop : Nat) (filled : List Nat) (size region : Nat) :
    Prop where
  chain : Chain h.mem.next head filled stop
  nodup : filled.Nodup
  inside : ∀ x ∈ filled, 0 < x ∧ x < h.mem.brk
  sizes : ∀ x ∈ filled, h.mem.size x = size
  empty : ∀ x ∈ filled, h.mem.bytes x = 0
  places : ∀ i (within : i < filled.length), h.place filled[i] = region + i * size

section Data

variable {h : Placed α} {head stop : Nat} {rest : List Nat} {size freeram : UInt64}
  (memory : freeram.toNat < 2 ^ 63) (positive : 0 < size.toNat)
  (chain : Chain h.mem.next head (head :: rest) stop) (nodup : (head :: rest).Nodup)
  (inside : ∀ x ∈ head :: rest, 0 < x ∧ x < h.mem.brk) (ends : stop = 0 ∨ stop = head)
  (small : (head :: rest).length < 2 ^ 31) (palloc : UInt64 → Nat)

include memory positive chain nodup inside ends small

/-- The steps of `block_data_fastalloc` on a list or a ring that there is memory for. -/
theorem blockDataFastalloc_eq (room : size ≤ freeram) :
    let k := blocksFitting size.toNat freeram.toNat (head :: rest).length
    let bytes := UInt64.ofNat (k * size.toNat)
    bytes.toNat = k * size.toNat ∧
      h.blockDataFastalloc head size (some freeram) palloc =
        if palloc bytes = 0 then (h, 0)
        else (partitionBlocks size stop k h head (palloc bytes), bytes) := by
  intro k bytes
  have notNull : head ≠ 0 := Nat.pos_iff_ne_zero.mp (inside head (by simp)).1
  have within : k ≤ (head :: rest).length := blocksFitting_le ..
  have total : k * size.toNat ≤ freeram.toNat := blocksFitting_mul_le positive _
  have count : countBlocks h.mem head size freeram h.mem.brk head 0 = (Int32.ofNat k, stop) := by
    have words := countBlocks_eq memory room ends h.mem.brk 0 chain (by simp) (by omega) (by omega)
    rw [fastallocCount_all _ _ chain nodup inside ends] at words
    exact words
  have noWrap : bytes.toNat = k * size.toNat := by
    rw [UInt64.toNat_ofNat', Nat.mod_eq_of_lt (by omega)]
  have product : toSize (Int32.ofNat k) * size = bytes := by
    apply UInt64.toNat_inj.mp
    rw [toNat_toSize_mul (by omega) (by omega), noWrap]
  have passes : (Int32.ofNat k).toNatClampNeg = k := by
    rw [Int32.toNatClampNeg, Int32.toInt_ofNat_of_lt (by omega)]
    rfl
  have enough : ¬ size > freeram := UInt64.not_lt.mpr room
  refine ⟨noWrap, ?_⟩
  simp only [blockDataFastalloc, if_neg notNull, if_neg enough, count, product, passes]

/-- Where no block fits, none gets data. -/
theorem blockDataFastalloc_none
    (none : blocksFitting size.toNat freeram.toNat (head :: rest).length = 0) :
    h.blockDataFastalloc head size (some freeram) palloc = (h, 0) := by
  have notNull : head ≠ 0 := Nat.pos_iff_ne_zero.mp (inside head (by simp)).1
  by_cases large : size > freeram
  · simp only [blockDataFastalloc, if_neg notNull, if_pos large]
  · obtain ⟨-, steps⟩ := blockDataFastalloc_eq memory positive chain nodup inside ends small palloc
      (UInt64.not_lt.mp large)
    rw [steps, none]
    simp [partitionBlocks]

/-- The blocks that fit get their data, the first where the region begins. -/
theorem blockDataFastalloc_filled :
    let k := blocksFitting size.toNat freeram.toNat (head :: rest).length
    let region := palloc (UInt64.ofNat (k * size.toNat))
    let result := h.blockDataFastalloc head size (some freeram) palloc
    0 < k → region ≠ 0 →
      Filled result.1 head stop ((head :: rest).take k) size.toNat region ∧
        result.2.toNat = k * size.toNat := by
  intro k region result someFit allocated
  have within : k ≤ (head :: rest).length := blocksFitting_le ..
  have room : size ≤ freeram := by
    apply UInt64.not_lt.mp
    intro large
    have less : freeram.toNat < size.toNat := UInt64.lt_iff_toNat_lt.mp large
    have none : k = 0 := by
      show blocksFitting _ _ _ = 0
      rw [blocksFitting_eq _ _ positive, Nat.div_eq_of_lt (by omega), Nat.min_zero]
    omega
  obtain ⟨noWrap, steps⟩ := blockDataFastalloc_eq memory positive chain nodup inside ends small
    palloc room
  have shape : result = (partitionBlocks size stop k h head region,
      UInt64.ofNat (k * size.toNat)) := by
    rw [show result = _ from steps]
    exact if_neg allocated
  obtain ⟨j, more⟩ : ∃ j, k = j + 1 := ⟨k - 1, by omega⟩
  have mem : result.1.mem = fastallocPartition size.toNat stop (j + 1) h.mem head := by
    rw [shape, ← more]
    exact partitionBlocks_mem size stop
  obtain ⟨-, places⟩ := partitionBlocks_place size stop region chain nodup within
  obtain ⟨brk, -, linked, parts⟩ :=
    fastallocPartition_spec size.toNat stop j h.mem head (head :: rest) chain nodup (more ▸ within)
  rw [← more] at mem brk linked parts
  refine ⟨⟨?_, nodup.sublist (List.take_sublist ..), ?_, ?_, ?_, ?_⟩, ?_⟩
  · rw [mem]
    exact linked
  · intro x member
    rw [mem, brk]
    exact inside x (List.mem_of_mem_take member)
  · intro x member
    rw [mem]
    exact (parts x member).1
  · intro x member
    rw [mem]
    exact (parts x member).2.1
  · intro i placed
    rw [List.length_take_of_le within] at placed
    rw [List.getElem_take, shape]
    exact places i (Nat.lt_of_lt_of_le placed within) placed
  · rw [shape]
    exact noWrap

/-- **The blocks are those of the other modules**, and so is the number of bytes. -/
theorem blockDataFastalloc_mem
    (succeeds : let k := blocksFitting size.toNat freeram.toNat (head :: rest).length
      0 < k → palloc (UInt64.ofNat (k * size.toNat)) ≠ 0) :
    let result := h.blockDataFastalloc head size (some freeram) palloc
    let blocks := Buffer.blockDataFastalloc h.mem head size.toNat freeram.toNat
    result.1.mem = blocks.1 ∧ result.2.toNat = blocks.2 := by
  intro result blocks
  have notNull : head ≠ 0 := Nat.pos_iff_ne_zero.mp (inside head (by simp)).1
  by_cases large : size > freeram
  · have less : size.toNat > freeram.toNat := UInt64.lt_iff_toNat_lt.mp large
    simp only [result, blocks, blockDataFastalloc, Buffer.blockDataFastalloc, if_neg notNull,
      if_pos large, if_pos less]
    exact ⟨trivial, rfl⟩
  · have room : size ≤ freeram := UInt64.not_lt.mp large
    have enough : ¬ size.toNat > freeram.toNat := Nat.not_lt.mpr (UInt64.le_iff_toNat_le.mp room)
    have count := fastallocCount_all size.toNat freeram.toNat chain nodup inside ends
    have unfolded : blocks = (fastallocPartition size.toNat stop
        (blocksFitting size.toNat freeram.toNat (head :: rest).length) h.mem head,
        blocksFitting size.toNat freeram.toNat (head :: rest).length * size.toNat) := by
      simp only [blocks, Buffer.blockDataFastalloc, if_neg notNull, if_neg enough, count]
    obtain ⟨noWrap, steps⟩ := blockDataFastalloc_eq memory positive chain nodup inside ends small
      palloc room
    rw [unfolded, show result = _ from steps]
    rcases Nat.eq_zero_or_pos (blocksFitting size.toNat freeram.toNat (head :: rest).length) with
      none | someFit
    · rw [none]
      simp [partitionBlocks, fastallocPartition]
    · rw [if_neg (succeeds someFit)]
      exact ⟨partitionBlocks_mem size stop, noWrap⟩

end Data

/-- Closing a list to a ring leaves the data where it is. -/
theorem Filled.forge {h : Placed α} {head size region : Nat} {filled : List Nat}
    (list : Filled h head 0 filled size region) (some : filled ≠ []) :
    Filled (h.forgeRing head) head head filled size region := by
  obtain ⟨x, rest, rfl⟩ := List.exists_cons_of_ne_nil some
  obtain rfl : head = x := list.chain.start_eq_head
  obtain ⟨ring, brk, same⟩ := forgeRing_spec list.chain list.nodup list.inside
  refine ⟨ring, list.nodup, ?_, ?_, ?_, list.places⟩
  · intro y member
    exact ⟨(list.inside y member).1, brk.symm ▸ (list.inside y member).2⟩
  · intro y member
    exact (congrArg Block.size (same y)).trans (list.sizes y member)
  · intro y member
    exact (congrArg Block.bytes (same y)).trans (list.empty y member)

/-! ## Rings -/

/-- Following `next` from the head visits `k` blocks, all different, and comes back to the head;
they are empty, of one size, and have their data in a row. -/
structure Ring (h : Placed α) (head k size region : Nat) : Prop where
  visits : ((List.range k).map fun i => h.mem.next^[i] head).Nodup
  comesBack : h.mem.next^[k] head = head
  blocks : ∀ i < k, 0 < h.mem.next^[i] head ∧ h.mem.next^[i] head < h.mem.brk
  sizes : ∀ i < k, h.mem.size (h.mem.next^[i] head) = size
  empty : ∀ i < k, h.mem.bytes (h.mem.next^[i] head) = 0
  places : ∀ i < k, h.place (h.mem.next^[i] head) = region + i * size

theorem Filled.ring {h : Placed α} {head size region : Nat} {filled : List Nat}
    (ring : Filled h head head filled size region) {k : Nat} (length : filled.length = k) :
    Ring h head k size region := by
  subst length
  have visit : ∀ i (within : i < filled.length), h.mem.next^[i] head = filled[i] := fun i within =>
    ring.chain.iterate_getElem within
  have walk : (List.range filled.length).map (fun i => h.mem.next^[i] head) = filled := by
    apply List.ext_getElem
    · simp
    · intro i _ within
      simpa using visit i within
  refine ⟨?_, ring.chain.iterate_length, ?_, ?_, ?_, ?_⟩
  · rw [walk]
    exact ring.nodup
  all_goals
    intro i within
    rw [visit i within]
  · exact ring.inside _ (List.getElem_mem within)
  · exact ring.sizes _ (List.getElem_mem within)
  · exact ring.empty _ (List.getElem_mem within)
  · exact ring.places i within

/-- How many numbers of blocks, up to `n`, there is memory for. -/
def fitting (n : Nat) (size freeram : UInt64) : Nat :=
  (List.range' 1 n).countP fun j => j * size.toNat < freeram.toNat

/-- The loop counts the numbers of blocks there is memory for. -/
theorem blocksFitting_eq_fitting {size freeram : UInt64} (positive : 0 < size.toNat) (n : Nat) :
    blocksFitting size.toNat freeram.toNat n = fitting n size freeram := by
  rw [blocksFitting_eq _ _ positive]
  induction n with
  | zero => simp [fitting]
  | succ n ih =>
      have fits := mul_lt_iff_le_div freeram.toNat n positive
      have last : fitting (n + 1) size freeram =
          fitting n size freeram + if (n + 1) * size.toNat < freeram.toNat then 1 else 0 := by
        simp [fitting, List.range'_concat, List.countP_singleton, Nat.add_comm 1 n]
      rw [last, ← ih]
      split <;> omega

/-- A new list of blocks, from its head. -/
theorem blockListAlloc_list (h : Placed α) {n : Nat} (some : 0 < n) (allocated : 0 < h.mem.brk) :
    let list := h.blockListAlloc n
    ∃ rest, (list.2 :: rest).length = n ∧ Chain list.1.mem.next list.2 (list.2 :: rest) 0 ∧
      (list.2 :: rest).Nodup ∧ ∀ x ∈ list.2 :: rest, 0 < x ∧ x < list.1.mem.brk := by
  intro list
  obtain ⟨head, fresh⟩ := blockListAlloc_fresh h.mem some allocated
  obtain ⟨k, rfl⟩ : ∃ k, n = k + 1 := ⟨n - 1, by omega⟩
  have first : list.2 = h.mem.brk := head
  rw [first]
  refine ⟨List.range' (h.mem.brk + 1) k, by simp, fresh.chain, fresh.nodup, fun x member => ?_⟩
  have bound := fresh.fresh x member
  exact ⟨Nat.lt_of_lt_of_le allocated bound.1, bound.2⟩

section Orders

variable {list : Placed α} {head : Nat} {rest : List Nat} {size freeram : UInt64}
  (memory : freeram.toNat < 2 ^ 63) (positive : 0 < size.toNat)
  (chain : Chain list.mem.next head (head :: rest) 0) (nodup : (head :: rest).Nodup)
  (inside : ∀ x ∈ head :: rest, 0 < x ∧ x < list.mem.brk)
  (small : (head :: rest).length < 2 ^ 31) (palloc : UInt64 → Nat)

include memory positive chain nodup inside small

/-- A list closed to a ring and then given data. -/
theorem forge_partition :
    let k := blocksFitting size.toNat freeram.toNat (head :: rest).length
    let region := palloc (UInt64.ofNat (k * size.toNat))
    let result := (list.forgeRing head).blockDataFastalloc head size (some freeram) palloc
    (0 < k → region ≠ 0 →
      Ring result.1 head k size.toNat region ∧ result.2.toNat = k * size.toNat) ∧
      (k = 0 → result.2 = 0 ∧ result.1.place = list.place ∧ result.1.mem.brk = list.mem.brk) := by
  intro k region result
  obtain ⟨ring, brk, -⟩ := forgeRing_spec chain nodup inside
  have forgedInside : ∀ x ∈ head :: rest, 0 < x ∧ x < (list.forgeRing head).mem.brk := by
    intro x member
    exact ⟨(inside x member).1, brk.symm ▸ (inside x member).2⟩
  refine ⟨fun someFit allocated => ?_, fun noneFits => ?_⟩
  · obtain ⟨filled, returned⟩ := blockDataFastalloc_filled memory positive ring nodup forgedInside
      (Or.inr rfl) small palloc someFit allocated
    exact ⟨filled.ring (List.length_take_of_le (blocksFitting_le ..)), returned⟩
  · have none := blockDataFastalloc_none memory positive ring nodup forgedInside (Or.inr rfl) small
      palloc noneFits
    rw [show result = _ from none]
    exact ⟨rfl, rfl, brk⟩

/-- A list given data and then closed to a ring. -/
theorem partition_forge :
    let k := blocksFitting size.toNat freeram.toNat (head :: rest).length
    let region := palloc (UInt64.ofNat (k * size.toNat))
    let result := list.blockDataFastalloc head size (some freeram) palloc
    (0 < k → region ≠ 0 →
      Ring (result.1.forgeRing head) head k size.toNat region ∧
        result.2.toNat = k * size.toNat) ∧
      (k = 0 → result.2 = 0 ∧ (result.1.forgeRing head).place = list.place ∧
        (result.1.forgeRing head).mem.brk = list.mem.brk) := by
  intro k region result
  refine ⟨fun someFit allocated => ?_, fun noneFits => ?_⟩
  · obtain ⟨filled, returned⟩ := blockDataFastalloc_filled memory positive chain nodup inside
      (Or.inl rfl) small palloc someFit allocated
    have taken : ((head :: rest).take k).length = k :=
      List.length_take_of_le (blocksFitting_le ..)
    have nonempty : (head :: rest).take k ≠ [] := List.length_pos_iff.mp (taken.symm ▸ someFit)
    exact ⟨(filled.forge nonempty).ring taken, returned⟩
  · have none := blockDataFastalloc_none memory positive chain nodup inside (Or.inl rfl) small
      palloc noneFits
    obtain ⟨-, brk, -⟩ := forgeRing_spec chain nodup inside
    rw [show result = _ from none]
    exact ⟨rfl, rfl, brk⟩

end Orders

/-- **Blocks are partitioned into a ring**, closed before or after. As many blocks as there is
memory for make the ring, and their data follow each other in one region; without memory for a block
none has data. -/
theorem newBlocks_ring (forgeFirst : Bool) (h : Placed α) (allocated : 0 < h.mem.brk) {n : Nat}
    (some : 1 ≤ n) (small : n < 2 ^ 31) {size freeram : UInt64} (positive : 1 ≤ size.toNat)
    (memory : freeram.toNat < 2 ^ 63) {palloc : UInt64 → Nat}
    (succeeds : 1 ≤ fitting n size freeram →
      palloc (UInt64.ofNat (fitting n size freeram * size.toNat)) ≠ 0) :
    let k := fitting n size freeram
    let run := h.newBlocks forgeFirst n size (.some freeram) palloc
    (1 ≤ k →
      Ring run.1 run.2.1 k size.toNat (palloc (UInt64.ofNat (k * size.toNat))) ∧
        run.2.2.toNat = k * size.toNat) ∧
      (k = 0 → run.2.2 = 0 ∧
        ∀ x, run.1.place x = if h.mem.brk ≤ x ∧ x < run.1.mem.brk then 0 else h.place x) := by
  intro k run
  obtain ⟨rest, length, chain, nodup, inside⟩ := h.blockListAlloc_list some allocated
  have count : blocksFitting size.toNat freeram.toNat ((h.blockListAlloc n).2 :: rest).length =
      k := by
    rw [length]
    exact blocksFitting_eq_fitting positive n
  have short : ((h.blockListAlloc n).2 :: rest).length < 2 ^ 31 := length.symm ▸ small
  cases forgeFirst with
  | true =>
      obtain ⟨ring, nothing⟩ :=
        forge_partition memory positive chain nodup inside short palloc
      rw [count] at ring nothing
      refine ⟨fun someFit => ring someFit (succeeds someFit), fun noneFits => ?_⟩
      obtain ⟨returned, place, brk⟩ := nothing noneFits
      refine ⟨returned, fun x => ?_⟩
      rw [show run.1.place = _ from place, show run.1.mem.brk = _ from brk]
      rfl
  | false =>
      obtain ⟨ring, nothing⟩ :=
        partition_forge memory positive chain nodup inside short palloc
      rw [count] at ring nothing
      refine ⟨fun someFit => ring someFit (succeeds someFit), fun noneFits => ?_⟩
      obtain ⟨returned, place, brk⟩ := nothing noneFits
      refine ⟨returned, fun x => ?_⟩
      rw [show run.1.place = _ from place, show run.1.mem.brk = _ from brk]
      rfl

/-- Ten free bytes are enough for two of three blocks of four. -/
theorem newBlocks_ring_two :
    let run := ({} : Placed Nat).newBlocks true 3 4 (some 10) fun _ => 4096
    Ring run.1 run.2.1 2 4 4096 ∧ run.2.2.toNat = 8 :=
  (newBlocks_ring true ({} : Placed Nat) (by decide) (by decide) (by decide) (by decide)
    (by decide) (fun _ => by decide)).1 (by decide)

/-- The blocks of a new ring are those that the buffers are modelled with. -/
theorem newBlocks_newRing {n : Nat} (some : 1 ≤ n) (small : n < 2 ^ 31) {size freeram : UInt64}
    (positive : 1 ≤ size.toNat) (memory : freeram.toNat < 2 ^ 63) {palloc : UInt64 → Nat}
    (succeeds : 1 ≤ fitting n size freeram →
      palloc (UInt64.ofNat (fitting n size freeram * size.toNat)) ≠ 0) :
    let run := ({} : Placed α).newBlocks false n size (.some freeram) palloc
    (run.1.mem, run.2.1) = newRing size.toNat n freeram.toNat := by
  intro run
  obtain ⟨rest, length, chain, nodup, inside⟩ :=
    ({} : Placed α).blockListAlloc_list some Nat.one_pos
  obtain ⟨mem, -⟩ := blockDataFastalloc_mem memory positive chain nodup inside (Or.inl rfl)
    (length.symm ▸ small) palloc
    (by rw [length, blocksFitting_eq_fitting positive n]; exact succeeds)
  have blocks : run.1.mem = Buffer.forgeRing _ run.2.1 := congrArg (Buffer.forgeRing · _) mem
  rw [blocks]
  rfl

end Placed

end Bingewatch.Buffer
