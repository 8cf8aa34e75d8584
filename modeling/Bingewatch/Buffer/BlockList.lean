import Bingewatch.Foundation.Chain
import Bingewatch.Machine.Descriptor

/-!
# Lists and rings of blocks

The buffers of the library store their data in linked blocks (`struct __block_t`). A list of
blocks is allocated by `block_list_alloc`, given data by `block_data_fastalloc`, and closed to a
ring by `forge_ring`.

Blocks live in a store that hands out fresh addresses; address `0` is the null pointer.
Uninitialised block data is the empty list of items, so that nothing can be read before it was
stored. `block_data_fastalloc` looks at the free memory the system reports and gives data to as
many blocks as fit; it cuts the list (or the ring) behind the last of them.
-/

set_option autoImplicit false

namespace Bingewatch.Buffer

open Foundation Machine

/-- `struct __block_t`, with the items its data region holds. `size` and `bytes` are counted in
bytes, as in the source. -/
structure Block (α : Type) where
  next : Nat := 0
  data : List α := []
  size : Nat := 0
  bytes : Nat := 0
  dRet : IoStatus := .success

/-- The blocks allocated so far: those at addresses from `1` up to `brk`. -/
structure Mem (α : Type) where
  block : Nat → Block α := fun _ => {}
  brk : Nat := 1

namespace Mem

variable {α : Type}

/-- Store a block descriptor. -/
def set (m : Mem α) (a : Nat) (b : Block α) : Mem α :=
  { m with block := fun x => if x = a then b else m.block x }

/-- Change one block descriptor. -/
def modify (m : Mem α) (a : Nat) (f : Block α → Block α) : Mem α := m.set a (f (m.block a))

/-- The link of a block. -/
def next (m : Mem α) (a : Nat) : Nat := (m.block a).next

/-- The byte count of a block. -/
def bytes (m : Mem α) (a : Nat) : Nat := (m.block a).bytes

/-- The capacity of a block. -/
def size (m : Mem α) (a : Nat) : Nat := (m.block a).size

/-- The data region of a block. -/
def data (m : Mem α) (a : Nat) : List α := (m.block a).data

@[simp] theorem set_brk (m : Mem α) (a : Nat) (b : Block α) : (m.set a b).brk = m.brk := rfl

@[simp] theorem set_block_self (m : Mem α) (a : Nat) (b : Block α) : (m.set a b).block a = b := by
  simp [set]

theorem set_block_of_ne {a x : Nat} (m : Mem α) (b : Block α) (differ : x ≠ a) :
    (m.set a b).block x = m.block x := by
  simp [set, differ]

@[simp] theorem modify_brk (m : Mem α) (a : Nat) (f : Block α → Block α) :
    (m.modify a f).brk = m.brk := rfl

@[simp] theorem modify_block_self (m : Mem α) (a : Nat) (f : Block α → Block α) :
    (m.modify a f).block a = f (m.block a) := by
  simp [modify]

theorem modify_block_of_ne {a x : Nat} (m : Mem α) (f : Block α → Block α) (differ : x ≠ a) :
    (m.modify a f).block x = m.block x :=
  set_block_of_ne m _ differ

/-- A field that the change leaves alone keeps its value in every block. -/
theorem modify_field {β : Type} (field : Block α → β) (m : Mem α) (a : Nat)
    (f : Block α → Block α) (same : field (f (m.block a)) = field (m.block a)) (x : Nat) :
    field ((m.modify a f).block x) = field (m.block x) := by
  by_cases here : x = a
  · subst here
    rw [modify_block_self, same]
  · rw [modify_block_of_ne m f here]

end Mem

/-- Copy items to the front of the block's data region. -/
def storeData {α : Type} (data : List α) (b : Block α) : Block α :=
  { b with data := data ++ b.data.drop data.length }

/-- Set the byte count of a block. -/
def setBytes {α : Type} (n : Nat) (b : Block α) : Block α := { b with bytes := n }

/-! ## Allocation -/

section Alloc

variable {α : Type}

/-- The loop of `block_list_alloc`: `b` is the block allocated last, `0` before the first. -/
def blockListAllocLoop : Nat → Mem α → Nat → Mem α
  | 0, m, _ => m
  | remaining + 1, m, b =>
      let new := m.brk
      let m := { m.set new {} with brk := new + 1 }
      let m := if b = 0 then m else m.modify b fun block => { block with next := new }
      blockListAllocLoop remaining m new

/-- `block_list_alloc`: a linked list of empty block descriptors, and its head. -/
def blockListAlloc (m : Mem α) (blockCount : Nat) : Mem α × Nat :=
  if blockCount = 0 then (m, 0) else (blockListAllocLoop blockCount m 0, m.brk)

/-- The counting loop of `block_data_fastalloc`: how many blocks fit below `freeram`, and the
pointer at which the walk ended. The walk visits a block only once, so the number of blocks
allocated so far bounds its length. -/
def fastallocCount (m : Mem α) (block : Nat) (bytesPerBlock freeram : Nat) :
    Nat → Nat → Nat → Nat × Nat
  | 0, b, nBlocks => (nBlocks, b)
  | fuel + 1, b, nBlocks =>
      let nBlocks := if (nBlocks + 1) * bytesPerBlock < freeram then nBlocks + 1 else nBlocks
      let b := m.next b
      if b ≠ 0 ∧ b ≠ block then fastallocCount m block bytesPerBlock freeram fuel b nBlocks
      else (nBlocks, b)

/-- The partition loop of `block_data_fastalloc`: the next `remaining` blocks get their data, and
the last of them is linked to `finalNext`. -/
def fastallocPartition (bytesPerBlock : Nat) (finalNext : Nat) : Nat → Mem α → Nat → Mem α
  | 0, m, _ => m
  | remaining + 1, m, b =>
      let m := m.modify b fun block => { block with data := [], bytes := 0, size := bytesPerBlock }
      if remaining = 0 then m.modify b fun block => { block with next := finalNext }
      else fastallocPartition bytesPerBlock finalNext remaining m (m.next b)

/-- `block_data_fastalloc`, with the free memory `sysinfo` reports. A failing `sysinfo` or
`palloc` returns `0` without touching a block, as no free memory does. -/
def blockDataFastalloc (m : Mem α) (block : Nat) (bytesPerBlock freeram : Nat) : Mem α × Nat :=
  if block = 0 then (m, 0)
  else if bytesPerBlock > freeram then (m, 0)
  else
    let (nBlocks, finalNext) := fastallocCount m block bytesPerBlock freeram m.brk block 0
    (fastallocPartition bytesPerBlock finalNext nBlocks m block, nBlocks * bytesPerBlock)

/-- The last block of a list: the loop `while (tail->next) tail = tail->next`. -/
def listTail (m : Mem α) : Nat → Nat → Nat
  | 0, b => b
  | fuel + 1, b => if m.next b = 0 then b else listTail m fuel (m.next b)

/-- The loop of `forge_ring`. -/
def forgeRingLoop (m : Mem α) (first : Nat) : Nat → Nat → Mem α
  | 0, _ => m
  | fuel + 1, b =>
      if m.next b = 0 then m.modify b fun block => { block with next := first }
      else if m.next b = first then m
      else forgeRingLoop m first fuel (m.next b)

/-- `forge_ring`: link the last block of a list to its first. -/
def forgeRing (m : Mem α) (blocks : Nat) : Mem α := forgeRingLoop m blocks m.brk blocks

end Alloc

/-! ## What the allocators build -/

section Specs

variable {α : Type}

/-- The blocks after the allocation loop: fresh descriptors in a row, the block allocated before
them linked to the first, the last one pointing nowhere. -/
theorem blockListAllocLoop_block (n : Nat) :
    ∀ (m : Mem α) (b : Nat), b < m.brk → ∀ x,
      (blockListAllocLoop n m b).block x =
        if x = b ∧ b ≠ 0 ∧ 0 < n then { m.block b with next := m.brk }
        else if m.brk ≤ x ∧ x < m.brk + n then
          { next := if x + 1 < m.brk + n then x + 1 else 0 }
        else m.block x := by
  induction n with
  | zero =>
      intro m b below x
      have outside : m.brk ≤ x → ¬ x < m.brk := by omega
      simp +contextual [blockListAllocLoop, outside]
  | succ n ih =>
      intro m b below x
      have fresh : m.brk ≠ 0 := by omega
      simp only [blockListAllocLoop]
      split
      · next null =>
          rw [ih _ _ (by simp)]
          subst null
          by_cases first : x = m.brk
          · subst first
            rcases Nat.eq_zero_or_pos n with rfl | more
            · simp
            · simp [more, fresh]
          · have same : (m.set m.brk {}).block x = m.block x := Mem.set_block_of_ne m _ first
            have shift : m.brk + 1 ≤ x ↔ m.brk ≤ x := by omega
            simp [first, same, shift, Nat.add_assoc, Nat.add_comm 1 n]
      · next linked =>
          rw [ih _ _ (by simp)]
          have bNe : b ≠ m.brk := Nat.ne_of_lt below
          by_cases first : x = m.brk
          · subst first
            rcases Nat.eq_zero_or_pos n with rfl | more
            · simp [bNe.symm, Mem.modify_block_of_ne]
            · simp [more, fresh, bNe.symm, Mem.modify_block_of_ne]
          · by_cases last : x = b
            · subst last
              have before : ¬ m.brk + 1 ≤ x := by omega
              simp [first, linked, before, Mem.set_block_of_ne m {} first]
            · have same : (m.set m.brk {}).block x = m.block x := Mem.set_block_of_ne m _ first
              have shift : m.brk + 1 ≤ x ↔ m.brk ≤ x := by omega
              simp [first, last, same, shift, Mem.modify_block_of_ne, Nat.add_assoc,
                Nat.add_comm 1 n]

theorem blockListAllocLoop_brk (n : Nat) :
    ∀ (m : Mem α) (b : Nat), (blockListAllocLoop n m b).brk = m.brk + n := by
  induction n with
  | zero => intro m b; rfl
  | succ n ih =>
      intro m b
      simp only [blockListAllocLoop]
      rw [ih]
      split <;> simp [Nat.add_assoc, Nat.add_comm 1 n]

/-- Consecutive blocks that each point to the following one form a chain. -/
theorem chain_range' (next : Nat → Nat) (start n : Nat)
    (step : ∀ x, start ≤ x → x < start + n → next x = x + 1) :
    Chain next start (List.range' start n) (start + n) := by
  induction n with
  | zero => rfl
  | succ n ih =>
      rw [List.range'_concat, chain_concat]
      simp only [Nat.one_mul]
      refine ⟨ih fun x low high => step x low (by omega), ?_⟩
      exact step (start + n) (by omega) (by omega)

/-- A newly allocated list of blocks: `head` leads through `added` to the null pointer, all of
`added` is fresh, and no older block changed. -/
structure FreshList (m m' : Mem α) (bytesPerBlock : Nat) (head : Nat) (added : List Nat) :
    Prop where
  grows : m.brk ≤ m'.brk
  older : ∀ x, x < m.brk → m'.block x = m.block x
  chain : Chain m'.next head added 0
  nodup : added.Nodup
  fresh : ∀ x ∈ added, m.brk ≤ x ∧ x < m'.brk
  sizes : ∀ x ∈ added, m'.size x = bytesPerBlock
  empty : ∀ x ∈ added, m'.bytes x = 0
  states : ∀ x ∈ added, (m'.block x).dRet = .success

/-- `block_list_alloc` builds a fresh list of descriptors without data. -/
theorem blockListAlloc_fresh (m : Mem α) {n : Nat} (positive : 0 < n) (allocated : 0 < m.brk) :
    (blockListAlloc m n).2 = m.brk ∧
      FreshList m (blockListAlloc m n).1 0 m.brk (List.range' m.brk n) := by
  have shape : blockListAlloc m n = (blockListAllocLoop n m 0, m.brk) := by
    simp [blockListAlloc, Nat.pos_iff_ne_zero.mp positive]
  have block : ∀ x, (blockListAllocLoop n m 0).block x =
      if m.brk ≤ x ∧ x < m.brk + n then { next := if x + 1 < m.brk + n then x + 1 else 0 }
      else m.block x := by
    intro x
    rw [blockListAllocLoop_block n m 0 allocated]
    simp
  have inside : ∀ x ∈ List.range' m.brk n, (blockListAllocLoop n m 0).block x =
      { next := if x + 1 < m.brk + n then x + 1 else 0 } := by
    intro x member
    rw [block x, if_pos (by simpa [List.mem_range'_1] using member)]
  rw [shape]
  refine ⟨rfl, ⟨?_, ?_, ?_, List.nodup_range' .., ?_, ?_, ?_, ?_⟩⟩
  · show m.brk ≤ (blockListAllocLoop n m 0).brk
    rw [blockListAllocLoop_brk]
    exact Nat.le_add_right ..
  · intro x old
    have outside : ¬ (m.brk ≤ x ∧ x < m.brk + n) := by omega
    show (blockListAllocLoop n m 0).block x = m.block x
    rw [block x, if_neg outside]
  · obtain ⟨k, rfl⟩ : ∃ k, n = k + 1 := ⟨n - 1, by omega⟩
    rw [List.range'_concat, chain_concat]
    simp only [Nat.one_mul]
    refine ⟨chain_range' _ _ k fun x low high => ?_, ?_⟩
    · have within : x ∈ List.range' m.brk (k + 1) := by rw [List.mem_range'_1]; omega
      have more : x + 1 < m.brk + (k + 1) := by omega
      simp [Mem.next, inside x within, more]
    · have within : m.brk + k ∈ List.range' m.brk (k + 1) := by rw [List.mem_range'_1]; omega
      have last : ¬ m.brk + k + 1 < m.brk + (k + 1) := by omega
      simp [Mem.next, inside _ within, last]
  · intro x member
    rw [List.mem_range'_1] at member
    show m.brk ≤ x ∧ x < (blockListAllocLoop n m 0).brk
    rw [blockListAllocLoop_brk]
    exact member
  · intro x member
    simp [Mem.size, inside x member]
  · intro x member
    simp [Mem.bytes, inside x member]
  · intro x member
    simp [inside x member]

/-- One pass of the counting loop. -/
def countFitting (bytesPerBlock freeram nBlocks : Nat) : Nat :=
  if (nBlocks + 1) * bytesPerBlock < freeram then nBlocks + 1 else nBlocks

/-- How many of `n` blocks get data when `freeram` bytes are free. -/
def blocksFitting (bytesPerBlock freeram n : Nat) : Nat :=
  (countFitting bytesPerBlock freeram)^[n] 0

theorem blocksFitting_succ (bytesPerBlock freeram n : Nat) :
    blocksFitting bytesPerBlock freeram (n + 1) =
      countFitting bytesPerBlock freeram (blocksFitting bytesPerBlock freeram n) :=
  Function.iterate_succ_apply' ..

theorem blocksFitting_le (bytesPerBlock freeram n : Nat) :
    blocksFitting bytesPerBlock freeram n ≤ n := by
  induction n with
  | zero => exact Nat.le_refl _
  | succ n ih =>
      rw [blocksFitting_succ, countFitting]
      split <;> omega

/-- There is memory for as many blocks as leave a byte of it free. -/
theorem mul_lt_iff_le_div {bytesPerBlock : Nat} (freeram j : Nat) (positive : 0 < bytesPerBlock) :
    (j + 1) * bytesPerBlock < freeram ↔ j + 1 ≤ (freeram - 1) / bytesPerBlock := by
  rw [Nat.le_div_iff_mul_le positive]
  have grows : 0 < (j + 1) * bytesPerBlock := Nat.mul_pos (Nat.succ_pos j) positive
  omega

/-- As many blocks as there are, or as leave a byte of the memory free. -/
theorem blocksFitting_eq {bytesPerBlock : Nat} (freeram n : Nat) (positive : 0 < bytesPerBlock) :
    blocksFitting bytesPerBlock freeram n = min n ((freeram - 1) / bytesPerBlock) := by
  induction n with
  | zero => simp [blocksFitting]
  | succ n ih =>
      rw [blocksFitting_succ, ih, countFitting]
      simp only [mul_lt_iff_le_div freeram _ positive]
      split <;> omega

/-- The counting loop walks the whole list. -/
theorem fastallocCount_eq {m : Mem α} {block stop : Nat} (bytesPerBlock freeram : Nat)
    (ends : stop = 0 ∨ stop = block) {l : List Nat} {fuel b : Nat} (k : Nat)
    (chain : Chain m.next b l stop) (nonempty : l ≠ []) (short : l.length ≤ fuel)
    (inner : ∀ x ∈ l.tail, x ≠ 0 ∧ x ≠ block) :
    fastallocCount m block bytesPerBlock freeram fuel b (blocksFitting bytesPerBlock freeram k) =
      (blocksFitting bytesPerBlock freeram (k + l.length), stop) := by
  induction fuel generalizing l b k with
  | zero => exact absurd (List.length_eq_zero_iff.mp (Nat.le_zero.mp short)) nonempty
  | succ fuel ih =>
      obtain ⟨x, rest, rfl⟩ := List.exists_cons_of_ne_nil nonempty
      obtain ⟨rfl, rest'⟩ := chain
      cases rest with
      | nil =>
          have atEnd : ¬ (stop ≠ 0 ∧ stop ≠ block) := by
            rcases ends with rfl | rfl <;> simp
          have nextEq : m.next b = stop := rest'
          rw [List.length_singleton, blocksFitting_succ, countFitting]
          simp only [fastallocCount, nextEq, if_neg atEnd]
      | cons y l =>
          have nextEq : m.next b = y := rest'.start_eq_head
          obtain ⟨yNonnull, yNe⟩ := inner y (by simp)
          have pass : fastallocCount m block bytesPerBlock freeram (fuel + 1) b
              (blocksFitting bytesPerBlock freeram k) =
              fastallocCount m block bytesPerBlock freeram fuel y
                (blocksFitting bytesPerBlock freeram (k + 1)) := by
            rw [blocksFitting_succ, countFitting]
            simp only [fastallocCount, nextEq, if_pos (And.intro yNonnull yNe)]
          rw [nextEq] at rest'
          rw [pass, ih (k + 1) rest' (by simp) (by simpa using short) fun z member =>
            inner z (by simpa using Or.inr member)]
          simp [Nat.add_assoc, Nat.add_comm 1]

/-- The counting loop on the blocks of a list or a ring. -/
theorem fastallocCount_all {m : Mem α} {block stop : Nat} {l : List Nat}
    (bytesPerBlock freeram : Nat) (chain : Chain m.next block (block :: l) stop)
    (nodup : (block :: l).Nodup) (inside : ∀ x ∈ block :: l, 0 < x ∧ x < m.brk)
    (ends : stop = 0 ∨ stop = block) :
    fastallocCount m block bytesPerBlock freeram m.brk block 0 =
      (blocksFitting bytesPerBlock freeram (block :: l).length, stop) := by
  have short : (block :: l).length ≤ m.brk :=
    length_le_of_nodup nodup fun x member => (inside x member).2
  have walk := fastallocCount_eq bytesPerBlock freeram ends 0 chain (by simp) short
    fun x member =>
      ⟨Nat.pos_iff_ne_zero.mp (inside x (List.mem_of_mem_tail member)).1,
        fun same => (List.nodup_cons.mp nodup).1 (same ▸ member)⟩
  rw [Nat.zero_add] at walk
  exact walk

theorem fastallocPartition_succ (bytesPerBlock finalNext k : Nat) (m : Mem α) (b : Nat) :
    let m₁ := m.modify b fun block => { block with data := [], bytes := 0, size := bytesPerBlock }
    fastallocPartition bytesPerBlock finalNext (k + 2) m b =
      fastallocPartition bytesPerBlock finalNext (k + 1) m₁ (m₁.next b) := rfl

/-- The partition loop gives data to the first blocks of the list and cuts it behind them. -/
theorem fastallocPartition_spec (bytesPerBlock finalNext : Nat) {stop : Nat} :
    ∀ (k : Nat) (m : Mem α) (b : Nat) (l : List Nat), Chain m.next b l stop → l.Nodup →
      k + 1 ≤ l.length →
      let m' := fastallocPartition bytesPerBlock finalNext (k + 1) m b
      m'.brk = m.brk ∧ (∀ x, x ∉ l.take (k + 1) → m'.block x = m.block x) ∧
        Chain m'.next b (l.take (k + 1)) finalNext ∧
        ∀ x ∈ l.take (k + 1), m'.size x = bytesPerBlock ∧ m'.bytes x = 0 ∧
          (m'.block x).dRet = (m.block x).dRet
  | _, _, _, [], _, _, short => by simp at short
  | 0, m, b, x :: l, chain, _, _ => by
      obtain ⟨rfl, _⟩ := chain
      simp only [fastallocPartition, if_true, List.take_succ_cons, List.take_zero]
      refine ⟨rfl, ?_, ?_, ?_⟩
      · intro y outside
        have differ : y ≠ b := by simpa using outside
        rw [Mem.modify_block_of_ne _ _ differ, Mem.modify_block_of_ne _ _ differ]
      · simp [Mem.next]
      · intro y member
        obtain rfl : y = b := by simpa using member
        simp [Mem.size, Mem.bytes]
  | k + 1, m, b, x :: l, chain, nodup, short => by
      obtain ⟨rfl, rest⟩ := chain
      obtain ⟨notMember, restNodup⟩ := List.nodup_cons.mp nodup
      simp only [fastallocPartition_succ]
      generalize given : (m.modify b fun block =>
        { block with data := [], bytes := 0, size := bytesPerBlock }) = m₁
      have links : ∀ y, m₁.next y = m.next y := by
        intro y
        rw [← given]
        exact Mem.modify_field Block.next m b _ rfl y
      have tail : Chain m₁.next (m₁.next b) l stop := by
        rw [links b]
        exact rest.congr fun y _ => links y
      obtain ⟨brk, others, linked, filled⟩ :=
        fastallocPartition_spec bytesPerBlock finalNext k m₁ (m₁.next b) l tail restNodup
          (by simpa using short)
      have selfOutside : b ∉ l.take (k + 1) := fun member => notMember (List.mem_of_mem_take member)
      refine ⟨?_, ?_, ?_, ?_⟩
      · rw [brk, ← given]
        rfl
      · intro y outside
        simp only [List.take_succ_cons, List.mem_cons, not_or] at outside
        rw [others y outside.2, ← given, Mem.modify_block_of_ne _ _ outside.1]
      · refine ⟨rfl, ?_⟩
        have keeps : (fastallocPartition bytesPerBlock finalNext (k + 1) m₁ (m₁.next b)).next b =
            m₁.next b := by
          exact congrArg Block.next (others b selfOutside)
        rw [keeps]
        exact linked
      · intro y member
        rw [List.take_succ_cons] at member
        rcases List.mem_cons.mp member with rfl | later
        · simp only [Mem.size, Mem.bytes, others y selfOutside]
          simp [← given]
        · obtain ⟨size, bytes, state⟩ := filled y later
          refine ⟨size, bytes, state.trans ?_⟩
          rw [← given]
          exact Mem.modify_field Block.dRet m b _ rfl y

/-- **`block_data_fastalloc` on a list or a ring of blocks.** It returns the bytes of the blocks
that fit; these blocks are empty, have the size asked for, and, when there is one, lead from the
given block to where the list ended. -/
theorem blockDataFastalloc_spec {m : Mem α} {block stop : Nat} {l : List Nat}
    (bytesPerBlock freeram : Nat) (chain : Chain m.next block (block :: l) stop)
    (nodup : (block :: l).Nodup) (inside : ∀ x ∈ block :: l, 0 < x ∧ x < m.brk)
    (ends : stop = 0 ∨ stop = block) :
    let result := blockDataFastalloc m block bytesPerBlock freeram
    ∃ k, k ≤ (block :: l).length ∧
      (0 < bytesPerBlock → k = blocksFitting bytesPerBlock freeram (block :: l).length) ∧
      result.2 = k * bytesPerBlock ∧ result.1.brk = m.brk ∧
      (∀ x, x ∉ (block :: l).take k → result.1.block x = m.block x) ∧
      (0 < k → Chain result.1.next block ((block :: l).take k) stop) ∧
      ∀ x ∈ (block :: l).take k, result.1.size x = bytesPerBlock ∧ result.1.bytes x = 0 ∧
        (result.1.block x).dRet = (m.block x).dRet := by
  intro result
  have notNull : block ≠ 0 := Nat.pos_iff_ne_zero.mp (inside block (by simp)).1
  by_cases large : bytesPerBlock > freeram
  · have same : result = (m, 0) := by
      simp [result, blockDataFastalloc, notNull, large]
    refine ⟨0, Nat.zero_le _, fun positive => ?_, by simp [same], by simp [same], by simp [same],
      by simp, by simp⟩
    rw [blocksFitting_eq _ _ positive, Nat.div_eq_of_lt (by omega)]
    simp
  · have count := fastallocCount_all bytesPerBlock freeram chain nodup inside ends
    have within := blocksFitting_le bytesPerBlock freeram (block :: l).length
    generalize blocksFitting bytesPerBlock freeram (block :: l).length = k at count within
    have unfolded : result =
        (fastallocPartition bytesPerBlock stop k m block, k * bytesPerBlock) := by
      simp only [result, blockDataFastalloc, if_neg notNull, if_neg large, count]
    refine ⟨k, within, fun _ => rfl, by rw [unfolded], ?_⟩
    rw [unfolded]
    cases k with
    | zero => exact ⟨rfl, fun _ _ => rfl, by simp, by simp⟩
    | succ k =>
        obtain ⟨brk, others, linked, parts⟩ :=
          fastallocPartition_spec bytesPerBlock stop k m block (block :: l) chain nodup within
        exact ⟨brk, others, fun _ => linked, parts⟩

/-- At least one block fits when a byte is left beside it. -/
theorem blocksFitting_pos {bytesPerBlock freeram n : Nat} (some : 0 < n)
    (positive : 0 < bytesPerBlock) (fits : bytesPerBlock < freeram) :
    0 < blocksFitting bytesPerBlock freeram n := by
  have one : 1 ≤ (freeram - 1) / bytesPerBlock := by
    rw [Nat.le_div_iff_mul_le positive]
    omega
  rw [blocksFitting_eq _ _ positive]
  omega

/-- A list allocated and given data is fresh and its size is what was returned; where no block fits,
nothing is touched. -/
theorem blockDataFastalloc_added (m : Mem α) {n : Nat} (bytesPerBlock freeram : Nat) (some : 0 < n)
    (allocated : 0 < m.brk) :
    let list := blockListAlloc m n
    let filled := blockDataFastalloc list.1 list.2 bytesPerBlock freeram
    ∃ added, (0 < bytesPerBlock → added.length = blocksFitting bytesPerBlock freeram n) ∧
      (added ≠ [] → FreshList m filled.1 bytesPerBlock list.2 added) ∧
      (added = [] → filled.1 = list.1) ∧
      filled.2 = added.length * bytesPerBlock ∧
      m.brk ≤ filled.1.brk ∧ ∀ x, x < m.brk → filled.1.block x = m.block x := by
  intro list filled
  obtain ⟨headEq, fresh⟩ := blockListAlloc_fresh m some allocated
  obtain ⟨k, rfl⟩ : ∃ k, n = k + 1 := ⟨n - 1, by omega⟩
  have rangeEq : List.range' m.brk (k + 1) = list.2 :: List.range' (m.brk + 1) k := by
    rw [show list.2 = m.brk from headEq]
    rfl
  have chain : Chain list.1.next list.2 (list.2 :: List.range' (m.brk + 1) k) 0 := by
    rw [← rangeEq, show list.2 = m.brk from headEq]
    exact fresh.chain
  have members : ∀ x ∈ list.2 :: List.range' (m.brk + 1) k, m.brk ≤ x ∧ x < list.1.brk := by
    rw [← rangeEq]
    exact fresh.fresh
  have nodup : (list.2 :: List.range' (m.brk + 1) k).Nodup := by
    rw [← rangeEq]
    exact fresh.nodup
  obtain ⟨count, countLe, countEq, bytes, brk, others, linked, parts⟩ :=
    blockDataFastalloc_spec bytesPerBlock freeram chain nodup
      (fun x member => ⟨Nat.lt_of_lt_of_le allocated (members x member).1, (members x member).2⟩)
      (Or.inl rfl)
  have older : ∀ x, x < m.brk → filled.1.block x = m.block x := by
    intro x old
    refine (others x fun member => ?_).trans (fresh.older x old)
    have := members x (List.mem_of_mem_take member)
    omega
  refine ⟨(list.2 :: List.range' (m.brk + 1) k).take count, fun positive => ?_, fun nonempty => ?_,
    fun nothing => ?_, ?_, ?_, older⟩
  · rw [List.length_take_of_le countLe, countEq positive]
    simp
  · have positiveCount : 0 < count := by
      rw [← List.length_pos_iff, List.length_take_of_le countLe] at nonempty
      exact nonempty
    refine ⟨?_, older, linked positiveCount, nodup.sublist (List.take_sublist ..), ?_, ?_, ?_, ?_⟩
    · exact brk ▸ fresh.grows
    · intro x member
      rw [show filled.1.brk = list.1.brk from brk]
      exact members x (List.mem_of_mem_take member)
    · intro x member
      exact (parts x member).1
    · intro x member
      exact (parts x member).2.1
    · intro x member
      refine (parts x member).2.2.trans (fresh.states x ?_)
      rw [rangeEq]
      exact List.mem_of_mem_take member
  · rw [nothing] at others
    have blocks : filled.1.block = list.1.block := funext fun x => others x (by simp)
    show Mem.mk filled.1.block filled.1.brk = Mem.mk list.1.block list.1.brk
    rw [blocks, show filled.1.brk = list.1.brk from brk]
  · rw [List.length_take_of_le countLe]
    exact bytes
  · exact brk ▸ fresh.grows

/-- A list of blocks that have room holds the blocks that fit. -/
theorem blockDataFastalloc_fresh (m : Mem α) {n bytesPerBlock : Nat} (freeram : Nat) (some : 0 < n)
    (allocated : 0 < m.brk) (positive : 0 < bytesPerBlock) :
    let list := blockListAlloc m n
    let filled := blockDataFastalloc list.1 list.2 bytesPerBlock freeram
    ∃ added, added.length = blocksFitting bytesPerBlock freeram n ∧
      (added ≠ [] → FreshList m filled.1 bytesPerBlock list.2 added) ∧
      filled.2 = added.length * bytesPerBlock ∧
      m.brk ≤ filled.1.brk ∧ ∀ x, x < m.brk → filled.1.block x = m.block x := by
  intro list filled
  obtain ⟨added, length, fresh, -, rest⟩ :=
    blockDataFastalloc_added m bytesPerBlock freeram some allocated
  exact ⟨added, length positive, fresh, rest⟩

/-- A list allocated and given what memory there is: whatever was free, it has a block. -/
theorem blockDataFastalloc_list (m : Mem α) {n : Nat} (bytesPerBlock freeram : Nat) (some : 0 < n)
    (allocated : 0 < m.brk) :
    let list := blockListAlloc m n
    ∃ size added, added ≠ [] ∧
      FreshList m (blockDataFastalloc list.1 list.2 bytesPerBlock freeram).1 size list.2 added := by
  intro list
  obtain ⟨added, -, filled, untouched, -⟩ :=
    blockDataFastalloc_added m bytesPerBlock freeram some allocated
  by_cases nothing : added = []
  · obtain ⟨head, fresh⟩ := blockListAlloc_fresh m some allocated
    refine ⟨0, List.range' m.brk n, ?_, ?_⟩
    · simpa using Nat.pos_iff_ne_zero.mp some
    · rw [untouched nothing, show list.2 = m.brk from head]
      exact fresh
  · exact ⟨bytesPerBlock, added, nothing, filled nothing⟩

/-- The tail walk ends at the last block of the list. -/
theorem listTail_eq {m : Mem α} {l : List Nat} {fuel b x : Nat}
    (chain : Chain m.next b (l ++ [x]) 0) (nonnull : ∀ y ∈ l ++ [x], y ≠ 0)
    (short : (l ++ [x]).length ≤ fuel) : listTail m fuel b = x := by
  induction l generalizing fuel b with
  | nil =>
      obtain ⟨rfl, last⟩ := chain
      have ends : m.next b = 0 := last
      cases fuel with
      | zero => simp at short
      | succ fuel => simp [listTail, ends]
  | cons y l ih =>
      obtain ⟨rfl, rest⟩ := chain
      have later : m.next b ≠ 0 := by
        have start : m.next b ∈ l ++ [x] := rest.start_mem (by simp)
        exact nonnull _ (List.mem_cons_of_mem _ start)
      cases fuel with
      | zero => simp at short
      | succ fuel =>
          simp only [listTail, if_neg later]
          exact ih rest (fun z member => nonnull z (List.mem_cons_of_mem _ member))
            (by simpa using short)

/-- The last block of a new list, also when older blocks have changed since. -/
theorem FreshList.listTail_eq {m m' m'' : Mem α} {blockSize head : Nat} {init : List Nat}
    {tail : Nat} (fresh : FreshList m m' blockSize head (init ++ [tail])) (allocated : 0 < m.brk)
    (same : ∀ y, m.brk ≤ y → m''.next y = m'.next y) (brk : m''.brk = m'.brk) :
    listTail m'' m''.brk head = tail := by
  have bounds := fresh.fresh
  have chain : Chain m''.next head (init ++ [tail]) 0 :=
    fresh.chain.congr fun y member => same y (bounds y member).1
  refine Buffer.listTail_eq chain (fun y member => ?_) ?_
  · have bound := (bounds y member).1
    omega
  · rw [brk]
    exact length_le_of_nodup fresh.nodup fun y member => (bounds y member).2

/-- The loop of `forge_ring` links the last block of the list to its first. -/
theorem forgeRingLoop_eq {m : Mem α} {l : List Nat} {first fuel b x : Nat}
    (chain : Chain m.next b (l ++ [x]) 0) (nonnull : ∀ y ∈ l ++ [x], y ≠ 0)
    (inner : ∀ y ∈ (l ++ [x]).tail, y ≠ first) (short : (l ++ [x]).length ≤ fuel) :
    forgeRingLoop m first fuel b = m.modify x fun block => { block with next := first } := by
  induction l generalizing fuel b with
  | nil =>
      obtain ⟨rfl, last⟩ := chain
      have ends : m.next b = 0 := last
      cases fuel with
      | zero => simp at short
      | succ fuel => simp [forgeRingLoop, ends]
  | cons y l ih =>
      obtain ⟨rfl, rest⟩ := chain
      have start : m.next b ∈ l ++ [x] := rest.start_mem (by simp)
      have later : m.next b ≠ 0 := nonnull _ (List.mem_cons_of_mem _ start)
      have notFirst : m.next b ≠ first := inner _ start
      cases fuel with
      | zero => simp at short
      | succ fuel =>
          simp only [forgeRingLoop, if_neg later, if_neg notFirst]
          exact ih rest (fun z member => nonnull z (List.mem_cons_of_mem _ member))
            (fun z member => inner z (List.mem_of_mem_tail member)) (by simpa using short)

/-- **`forge_ring` closes a list to a ring** and changes nothing but the link of its last
block. -/
theorem forgeRing_spec {m : Mem α} {b : Nat} {l : List Nat} (chain : Chain m.next b (b :: l) 0)
    (nodup : (b :: l).Nodup) (inside : ∀ x ∈ b :: l, 0 < x ∧ x < m.brk) :
    Chain (forgeRing m b).next b (b :: l) b ∧ (forgeRing m b).brk = m.brk ∧
      ∀ x, { (forgeRing m b).block x with next := 0 } = { m.block x with next := 0 } := by
  obtain ⟨init, x, split⟩ : ∃ init x, b :: l = init ++ [x] :=
    ⟨(b :: l).dropLast, (b :: l).getLast (by simp), (List.dropLast_append_getLast _).symm⟩
  have inner : ∀ y ∈ (init ++ [x]).tail, y ≠ b := by
    rw [← split]
    exact fun y member same => (List.nodup_cons.mp nodup).1 (same ▸ member)
  have result : forgeRing m b = m.modify x fun block => { block with next := b } := by
    have nonnull : ∀ y ∈ b :: l, y ≠ 0 := fun y member =>
      Nat.pos_iff_ne_zero.mp (inside y member).1
    have short : (b :: l).length ≤ m.brk :=
      length_le_of_nodup nodup fun y member => (inside y member).2
    rw [split] at chain nonnull short
    exact forgeRingLoop_eq chain nonnull inner short
  rw [result]
  refine ⟨?_, rfl, ?_⟩
  · rw [split, chain_concat] at chain ⊢
    have notMember : x ∉ init := by
      rw [split] at nodup
      exact fun member => (List.nodup_append.mp nodup).2.2 x member x (by simp) rfl
    refine ⟨chain.1.congr fun y member => ?_, by simp [Mem.next]⟩
    have differ : y ≠ x := fun same => notMember (same ▸ member)
    simp [Mem.next, Mem.modify_block_of_ne _ _ differ]
  · intro y
    exact Mem.modify_field (fun block => { block with next := 0 }) m x
      (fun block => { block with next := b }) rfl y

end Specs

end Bingewatch.Buffer
