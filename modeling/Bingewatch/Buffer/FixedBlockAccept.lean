import Mathlib.Algebra.Ring.Nat
import Mathlib.Algebra.Order.BigOperators.Group.List
import Mathlib.Algebra.Order.Group.Nat
import Bingewatch.Buffer.FixedBlockQueue

/-!
# What the fixed block buffer accepts and what it delivers

`buf_write` answers `IO_SUCCESS` on each of its paths and leaves the caller's count alone, so every
byte of every write counts as accepted. Two of these answers are wrong. A write longer than the
block at the write position is dropped with a warning. And an empty write moves the write position
on, past a block that stays empty: a later write is stored behind that block, where no read comes,
since a read stops at the first empty block.

Neither damage is ever repaired. A dropped write leaves the blocks with fewer bytes than were
accepted. A block that holds data behind an empty one stays behind an empty one (`Gap`): when the
write position comes to the empty block, the block after it is empty too, or a new one is linked in
between. So the reads return what was accepted exactly when no write does damage
(`accepted_delivered_iff`), whatever memory the allocations find.
-/

set_option autoImplicit false

namespace Bingewatch.Buffer.FixedBlock

open Foundation Machine

/-! ## Writes, their answers, and the reads that follow -/

/-- A whole call of `buf_write` with the status and the count it returns: a write that is too long
is dropped with a warning, and the count stays as the caller set it. -/
def writeCall (s : Buf) : List UInt8 × Nat → Option (Buf × IoStatus × Nat)
  | (data, freeram) =>
      if data.length > s.mem.size s.wp then some (s, .success, data.length)
      else
        let m := s.mem.modify s.wp (storeData data)
        some (commitWrite { s with mem := m } data s.wp freeram, .success, data.length)

theorem writeCall_eq (s : Buf) (data : List UInt8) (freeram : Nat) :
    writeCall s (data, freeram) = some (bufWrite s data freeram, .success, data.length) := by
  simp only [writeCall, bufWrite]
  split <;> rfl

/-- The bytes that the answers call accepted: of each write that succeeded, as many as its count
says. -/
def accepted (log : List ((List UInt8 × Nat) × IoStatus × Nat)) : List UInt8 :=
  log.flatMap fun ((data, _), status, bytes) => if status = .success then data.take bytes else []

/-- Reads of sufficient size, until one reports no bytes, return the bytes. -/
inductive Drains : Buf → List UInt8 → Prop where
  | last {s : Buf} {request : Nat} (enough : s.mem.bytes s.rp ≤ request)
      (nothing : (bufRead s request).2 = []) : Drains s []
  | more {s : Buf} {request : Nat} {rest : List UInt8} (enough : s.mem.bytes s.rp ≤ request)
      (something : (bufRead s request).2 ≠ []) (later : Drains (bufRead s request).1 rest) :
      Drains s ((bufRead s request).2 ++ rest)

/-- After the writes the reads come to an end, and return what was accepted. -/
def DeliversAccepted (s : Buf) (writes : List (List UInt8 × Nat)) : Prop :=
  ∃ t log, runCalls writeCall s writes = some (t, log) ∧ (∃ out, Drains t out) ∧
    ∀ out, Drains t out → out = accepted log

/-- The write is empty, or it fits the block at the write position and no block from the read
position up to there is empty. -/
def InReach (s : Buf) (write : List UInt8 × Nat) : Prop :=
  write.1 = [] ∨ write.1.length ≤ s.mem.size s.wp ∧
    ∃ path, Chain s.mem.next s.rp path s.wp ∧ ∀ x ∈ path, s.mem.bytes x ≠ 0

/-! ## The ring, whatever its blocks hold -/

/-- The blocks of the ring from the read position on, none of them with more bytes than were
copied to it. -/
structure Cycle (m : Mem UInt8) (rp : Nat) (blocks : List Nat) : Prop where
  ring : Chain m.next rp blocks rp
  nodup : blocks.Nodup
  inside : ∀ x ∈ blocks, 0 < x ∧ x < m.brk
  stored : ∀ x ∈ blocks, m.bytes x ≤ (m.data x).length

namespace Cycle

variable {m : Mem UInt8} {rp : Nat} {blocks : List Nat}

theorem length_content (cycle : Cycle m rp blocks) {x : Nat} (member : x ∈ blocks) :
    (content m x).length = m.bytes x := by
  rw [content, List.length_take]
  exact Nat.min_eq_left (cycle.stored x member)

/-- A write into a block of the ring. -/
theorem fill (cycle : Cycle m rp blocks) (x : Nat) (data : List UInt8) :
    Cycle ((m.modify x (storeData data)).modify x (setBytes data.length)) rp blocks := by
  have next : ∀ y, ((m.modify x (storeData data)).modify x (setBytes data.length)).next y =
      m.next y := by
    intro y
    rw [Mem.next, Mem.modify_field Block.next _ x (setBytes data.length) rfl,
      Mem.modify_field Block.next m x (storeData data) rfl]
    rfl
  refine ⟨cycle.ring.congr fun y _ => next y, cycle.nodup, cycle.inside, fun y member => ?_⟩
  by_cases here : y = x
  · subst here
    simp [Mem.bytes, Mem.data, setBytes, storeData]
  · simpa [Mem.bytes, Mem.data, Mem.modify_block_of_ne _ _ here] using cycle.stored y member

/-- A read takes the block at the read position out and puts it, empty, at the end. -/
theorem rotate {x : Nat} {rest : List Nat} (cycle : Cycle m rp (x :: rest)) :
    Cycle (m.modify x (setBytes 0)) (m.next x) (rest ++ [x]) := by
  have next : ∀ y, (m.modify x (setBytes 0)).next y = m.next y :=
    Mem.modify_field Block.next m x (setBytes 0) rfl
  have perm : (rest ++ [x]).Perm (x :: rest) := List.perm_append_singleton ..
  obtain ⟨start, tail⟩ := cycle.ring
  refine ⟨?_, perm.nodup_iff.mpr cycle.nodup, ?_, ?_⟩
  · rw [chain_concat]
    exact ⟨(start ▸ tail).congr fun y _ => next y, next x⟩
  · exact fun y member => cycle.inside y (perm.mem_iff.mp member)
  · intro y member
    by_cases here : y = x
    · subst here
      simp [Mem.bytes, setBytes]
    · simpa [Mem.bytes, Mem.data, Mem.modify_block_of_ne _ _ here] using
        cycle.stored y (perm.mem_iff.mp member)

/-- **Expanding the ring, with or without memory.** At least one empty block comes behind `x`. -/
theorem expand {before after : List Nat} {x : Nat} (blockSize len freeram : Nat)
    (cycle : Cycle m rp (before ++ [x] ++ after)) :
    let m' := FixedBlock.expand m blockSize x (m.next x) len freeram
    ∃ added, added ≠ [] ∧ Cycle m' rp (before ++ [x] ++ (added ++ after)) ∧ m'.next x ∈ added ∧
      (∀ y ∈ added, m'.bytes y = 0) ∧
      ∀ y ∈ before ++ [x] ++ after, m'.data y = m.data y ∧ m'.bytes y = m.bytes y := by
  have older : x < m.brk := (cycle.inside x (by simp)).2
  have allocated : 0 < m.brk := Nat.lt_of_le_of_lt (Nat.zero_le x) older
  obtain ⟨size, added, some, fresh⟩ :=
    blockDataFastalloc_list m blockSize freeram (Nat.succ_pos (len / blockSize)) allocated
  obtain ⟨init, tail, rfl⟩ : ∃ init tail, added = init ++ [tail] :=
    ⟨added.dropLast, added.getLast some, (List.dropLast_append_getLast _).symm⟩
  have shape := expand_eq_spliced (m.next x) older some fresh
  rw [fresh.listTail_eq allocated (fun _ _ => rfl) rfl] at shape
  generalize (blockListAlloc m (len / blockSize + 1)).2 = head at shape fresh
  generalize (blockDataFastalloc _ head blockSize freeram).1 = filled at shape fresh
  have old : ∀ y ∈ before ++ [x] ++ after, filled.block y = m.block y := fun y member =>
    fresh.older y (cycle.inside y member).2
  have link : filled.next x = m.next x := congrArg Block.next (old x (by simp))
  rw [← link] at shape
  have apart : ∀ y ∈ init ++ [tail], y ∉ before ++ [x] ++ after := by
    intro y new member
    have bound := (fresh.fresh y new).1
    have below := (cycle.inside y member).2
    omega
  obtain ⟨wp, toWp, toRp⟩ := chain_append.mp
    (cycle.ring.congr fun y member => congrArg Block.next (old y member))
  obtain ⟨toHead, back⟩ :=
    Layout.spliced_chain toWp toRp cycle.nodup fresh.chain fresh.nodup apart
  rw [← link, shape]
  have data : ∀ y, (Layout.spliced filled x head tail (filled.next x)).data y = filled.data y :=
    Layout.spliced_field Block.data (fun _ _ => rfl) filled x head tail (filled.next x)
  have bytes : ∀ y, (Layout.spliced filled x head tail (filled.next x)).bytes y = filled.bytes y :=
    Layout.spliced_field Block.bytes (fun _ _ => rfl) filled x head tail (filled.next x)
  have perm : (before ++ [x] ++ (init ++ [tail] ++ after)).Perm
      (init ++ [tail] ++ (before ++ [x] ++ after)) :=
    List.perm_append_comm_assoc ..
  refine ⟨init ++ [tail], some, ⟨toHead.trans back, ?_, ?_, ?_⟩, ?_, ?_, ?_⟩
  · rw [perm.nodup_iff, List.nodup_append]
    exact ⟨fresh.nodup, cycle.nodup, fun y new z old same => apart y new (same ▸ old)⟩
  · intro y member
    show 0 < y ∧ y < filled.brk
    rcases List.mem_append.mp (perm.mem_iff.mp member) with new | old
    · have bound := fresh.fresh y new
      exact ⟨Nat.lt_of_lt_of_le allocated bound.1, bound.2⟩
    · have bound := cycle.inside y old
      exact ⟨bound.1, Nat.lt_of_lt_of_le bound.2 fresh.grows⟩
  · intro y member
    rw [data, bytes]
    rcases List.mem_append.mp (perm.mem_iff.mp member) with new | here
    · rw [fresh.empty y new]
      exact Nat.zero_le _
    · rw [Mem.bytes, Mem.data, old y here]
      exact cycle.stored y here
  · have first := (chain_concat.mp toHead).2
    rw [first]
    exact fresh.chain.start_mem (by simp)
  · intro y new
    rw [bytes]
    exact fresh.empty y new
  · intro y member
    rw [data, bytes, Mem.data, Mem.bytes, old y member]
    exact ⟨rfl, rfl⟩

end Cycle

/-- The ring of a buffer between two calls: the block at the write position is empty. -/
structure Buf.Ring (s : Buf) (blocks : List Nat) : Prop where
  cycle : Cycle s.mem s.rp blocks
  position : s.wp ∈ blocks
  spare : s.mem.bytes s.wp = 0
  sized : 0 < s.blockSize

/-- What a write that fits does to the ring: its data is in the block at the write position, the
other blocks keep theirs, and the blocks linked in behind it are empty. There is one when the block
behind holds data. -/
structure Wrote (s t : Buf) (data : List UInt8) (before added after : List Nat) : Prop where
  ring : t.Ring (before ++ [s.wp] ++ (added ++ after))
  written : content t.mem s.wp = data
  count : t.mem.bytes s.wp = data.length
  fresh : ∀ y ∈ added, t.mem.bytes y = 0
  kept : ∀ y ∈ before ++ [s.wp] ++ after, y ≠ s.wp →
    content t.mem y = content s.mem y ∧ t.mem.bytes y = s.mem.bytes y
  parted : ∀ y rest, after = y :: rest → s.mem.bytes y ≠ 0 → added ≠ []

/-- The memory with the data stored in the block at the write position. -/
def Buf.filled (s : Buf) (data : List UInt8) : Mem UInt8 :=
  (s.mem.modify s.wp (storeData data)).modify s.wp (setBytes data.length)

section Filled

variable {s : Buf} {data : List UInt8}

theorem filled_block_of_ne {y : Nat} (differ : y ≠ s.wp) :
    (s.filled data).block y = s.mem.block y := by
  rw [Buf.filled, Mem.modify_block_of_ne _ _ differ, Mem.modify_block_of_ne _ _ differ]

theorem filled_wp : (s.filled data).bytes s.wp = data.length ∧
    content (s.filled data) s.wp = data := by
  simp [Buf.filled, content, Mem.bytes, Mem.data, setBytes, storeData]

/-- What a write that fits leaves: the ring is expanded when the next block holds data. -/
theorem bufWrite_fits (freeram : Nat) (fits : data.length ≤ s.mem.size s.wp) :
    let m := s.filled data
    let t := bufWrite s data freeram
    t.rp = s.rp ∧ t.blockSize = s.blockSize ∧ t.wp = t.mem.next s.wp ∧
      t.mem = if m.bytes (m.next s.wp) ≠ 0 then
        expand m s.blockSize s.wp (m.next s.wp) data.length freeram
      else m := by
  rw [bufWrite, if_neg (Nat.not_lt.mpr fits)]
  exact ⟨rfl, rfl, rfl, rfl⟩

end Filled

/-- The block behind the write position holds data, and new blocks are linked in front of it. -/
theorem Buf.Ring.write_expands {s : Buf} {before after : List Nat} {data : List UInt8}
    (ring : s.Ring (before ++ [s.wp] ++ after)) (fits : data.length ≤ s.mem.size s.wp)
    (freeram : Nat) (more : (s.filled data).bytes ((s.filled data).next s.wp) ≠ 0) :
    ∃ added, Wrote s (bufWrite s data freeram) data before added after := by
  obtain ⟨rp, size, wp, mem⟩ := bufWrite_fits freeram fits
  rw [if_pos more] at mem
  obtain ⟨added, some, cycle, link, empty, same⟩ :=
    (ring.cycle.fill s.wp data).expand s.blockSize data.length freeram
  rw [← Buf.filled, ← mem] at cycle link empty same
  have contents : ∀ y ∈ before ++ [s.wp] ++ after,
      content (bufWrite s data freeram).mem y = content (s.filled data) y := by
    intro y member
    rw [content, content, (same y member).1, (same y member).2]
  refine ⟨added, ⟨?_, ?_, ?_, ?_⟩, ?_, ?_, empty, ?_, fun _ _ _ _ => some⟩
  · rw [rp]
    exact cycle
  · rw [wp]
    exact List.mem_append_right _ (List.mem_append_left _ link)
  · rw [wp]
    exact empty _ link
  · rw [size]
    exact ring.sized
  · exact (contents s.wp (by simp)).trans filled_wp.2
  · exact (same s.wp (by simp)).2.trans filled_wp.1
  · intro y member differ
    refine ⟨(contents y member).trans ?_, (same y member).2.trans ?_⟩
    · rw [content, Mem.bytes, Mem.data, filled_block_of_ne differ]
      rfl
    · exact congrArg Block.bytes (filled_block_of_ne differ)

/-- The block behind the write position is empty, and the ring stays as it is. -/
theorem Buf.Ring.write_fills {s : Buf} {before after : List Nat} {data : List UInt8}
    (ring : s.Ring (before ++ [s.wp] ++ after)) (fits : data.length ≤ s.mem.size s.wp)
    (freeram : Nat) (free : (s.filled data).bytes ((s.filled data).next s.wp) = 0) :
    Wrote s (bufWrite s data freeram) data before [] after := by
  obtain ⟨rp, size, wp, mem⟩ := bufWrite_fits freeram fits
  rw [if_neg (by simp [free])] at mem
  have cycle : Cycle (s.filled data) s.rp (before ++ [s.wp] ++ after) :=
    ring.cycle.fill s.wp data
  refine ⟨⟨?_, ?_, ?_, ?_⟩, ?_, ?_, List.forall_mem_nil _, ?_, ?_⟩
  · rw [rp, mem]
    exact cycle
  · rw [wp, mem]
    exact cycle.ring.next_mem (by simp)
  · rw [wp, mem]
    exact free
  · rw [size]
    exact ring.sized
  · rw [mem]
    exact filled_wp.2
  · rw [mem]
    exact filled_wp.1
  · intro y _ differ
    rw [mem, content, Mem.bytes, Mem.data, filled_block_of_ne differ]
    exact ⟨rfl, rfl⟩
  · rintro y rest rfl holds
    have next : (s.filled data).next s.wp = y := by
      obtain ⟨_, toWp, toY⟩ := chain_append.mp cycle.ring
      rw [(chain_concat.mp toWp).2]
      exact toY.start_eq_head
    have differ : y ≠ s.wp := by
      rintro rfl
      exact holds ring.spare
    rw [next, Mem.bytes, filled_block_of_ne differ] at free
    exact absurd free holds

/-- **A write that fits.** -/
theorem Buf.Ring.write {s : Buf} {before after : List Nat} {data : List UInt8}
    (ring : s.Ring (before ++ [s.wp] ++ after)) (fits : data.length ≤ s.mem.size s.wp)
    (freeram : Nat) : ∃ added, Wrote s (bufWrite s data freeram) data before added after := by
  by_cases free : (s.filled data).bytes ((s.filled data).next s.wp) = 0
  · exact ⟨[], ring.write_fills fits freeram free⟩
  · exact ring.write_expands fits freeram free

/-! ## What the reads return -/

/-- The number of bytes in the blocks. -/
def held (m : Mem UInt8) (blocks : List Nat) : Nat := (blocks.map m.bytes).sum

theorem held_append (m : Mem UInt8) (l l' : List Nat) :
    held m (l ++ l') = held m l + held m l' := by
  simp [held]

theorem held_congr {m m' : Mem UInt8} {blocks : List Nat}
    (same : ∀ x ∈ blocks, m'.bytes x = m.bytes x) : held m' blocks = held m blocks :=
  congrArg List.sum (List.map_congr_left same)

theorem held_eq_zero {m : Mem UInt8} {blocks : List Nat} (empty : ∀ x ∈ blocks, m.bytes x = 0) :
    held m blocks = 0 := by
  rw [held, List.sum_eq_zero]
  simpa using empty

theorem bytes_le_held {m : Mem UInt8} {blocks : List Nat} {x : Nat} (member : x ∈ blocks) :
    m.bytes x ≤ held m blocks :=
  List.le_sum_of_mem (List.mem_map_of_mem member)

/-- The bytes of the blocks in a row. -/
def contentsOf (m : Mem UInt8) (blocks : List Nat) : List UInt8 := blocks.flatMap (content m)

theorem Cycle.length_contentsOf {m : Mem UInt8} {rp : Nat} {full rest : List Nat}
    (cycle : Cycle m rp (full ++ rest)) : (contentsOf m full).length = held m full := by
  rw [contentsOf, List.length_flatMap, held]
  refine congrArg List.sum (List.map_congr_left fun x member => ?_)
  exact cycle.length_content (List.mem_append_left _ member)

/-- **The reads return the blocks up to the first empty one.** -/
theorem drains_iff {s : Buf} {full rest : List Nat} {e : Nat}
    (cycle : Cycle s.mem s.rp (full ++ e :: rest)) (filled : ∀ x ∈ full, s.mem.bytes x ≠ 0)
    (empty : s.mem.bytes e = 0) (out : List UInt8) :
    Drains s out ↔ out = contentsOf s.mem full := by
  induction full generalizing s rest out with
  | nil =>
      have start : s.rp = e := cycle.ring.start_eq_head
      have read : ∀ request, (bufRead s request).2 = [] := by
        intro request
        simp [bufRead, start, empty]
      constructor
      · intro drains
        cases drains with
        | last => rfl
        | more _ something => exact absurd (read _) something
      · rintro rfl
        exact .last (by rw [start, empty]) (read 0)
  | cons x full ih =>
      have start : s.rp = x := cycle.ring.start_eq_head
      have data := filled x (by simp)
      have read : ∀ request, s.mem.bytes s.rp ≤ request →
          (bufRead s request).2 = content s.mem x ∧
            (bufRead s request).1.mem = s.mem.modify x (setBytes 0) ∧
            (bufRead s request).1.rp = s.mem.next x := by
        intro request enough
        rw [start] at enough
        have next : (s.mem.modify x (setBytes 0)).next x = s.mem.next x :=
          Mem.modify_field Block.next s.mem x (setBytes 0) rfl x
        simp [bufRead, start, data, enough, content, next]
      have some : content s.mem x ≠ [] := by
        rw [← List.length_pos_iff, cycle.length_content (by simp)]
        exact Nat.pos_of_ne_zero data
      have others : ∀ y ∈ full ++ e :: rest,
          (s.mem.modify x (setBytes 0)).block y = s.mem.block y := by
        intro y member
        refine Mem.modify_block_of_ne _ _ ?_
        rintro rfl
        exact (List.nodup_cons.mp cycle.nodup).1 member
      have later : ∀ request, s.mem.bytes s.rp ≤ request → ∀ rest,
          Drains (bufRead s request).1 rest ↔ rest = contentsOf s.mem full := by
        intro request enough out
        obtain ⟨_, mem, rp⟩ := read request enough
        have rotated : Cycle _ _ (full ++ e :: rest ++ [x]) := cycle.rotate
        rw [List.append_assoc, List.cons_append, ← mem, ← rp] at rotated
        have same : contentsOf (bufRead s request).1.mem full = contentsOf s.mem full := by
          refine List.flatMap_congr fun y member => ?_
          rw [mem, content, content, Mem.data, Mem.bytes, others y (by simp [member])]
          rfl
        rw [← same]
        refine ih rotated (fun y member => ?_) ?_ out
        · rw [mem, Mem.bytes, others y (by simp [member])]
          exact filled y (by simp [member])
        · rw [mem, Mem.bytes, others e (by simp)]
          exact empty
      constructor
      · intro drains
        cases drains with
        | last enough nothing => exact absurd ((read _ enough).1.symm.trans nothing) some
        | more enough _ rest =>
            rw [(read _ enough).1, (later _ enough _).mp rest]
            rfl
      · rintro rfl
        have enough : s.mem.bytes s.rp ≤ s.mem.bytes s.rp := Nat.le_refl _
        have step := Drains.more enough ((read _ enough).1 ▸ some) ((later _ enough _).mpr rfl)
        rw [(read _ enough).1] at step
        exact step

/-- The ring up to its first empty block. -/
theorem Buf.Ring.split {s : Buf} {blocks : List Nat} (ring : s.Ring blocks) :
    ∃ full e rest, blocks = full ++ e :: rest ∧ (∀ x ∈ full, s.mem.bytes x ≠ 0) ∧
      s.mem.bytes e = 0 := by
  obtain ⟨e, found⟩ : ∃ e, blocks.find? (fun x => s.mem.bytes x == 0) = some e := by
    rw [← Option.isSome_iff_exists, List.find?_isSome]
    exact ⟨s.wp, ring.position, by simp [ring.spare]⟩
  obtain ⟨empty, full, rest, rfl, filled⟩ := List.find?_eq_some_iff_append.mp found
  exact ⟨full, e, rest, rfl, by simpa using filled, by simpa using empty⟩

/-! ## Whole runs -/

/-- No damage so far: the full blocks come first and hold what was accepted. -/
def Buf.Sound (s : Buf) (out : List UInt8) : Prop :=
  ∃ full free, s.Ring (full ++ free) ∧ (∀ x ∈ full, s.mem.bytes x ≠ 0) ∧
    (∀ x ∈ free, s.mem.bytes x = 0) ∧ contentsOf s.mem full = out

/-- A block that holds data comes behind an empty one. -/
def Gap (m : Mem UInt8) (blocks : List Nat) : Prop :=
  ∃ e x, [e, x].Sublist blocks ∧ m.bytes e = 0 ∧ m.bytes x ≠ 0

/-- Fewer bytes are in the blocks, or in reach of the reads, than were accepted. -/
def Buf.Damaged (s : Buf) (length : Nat) : Prop :=
  ∃ blocks, s.Ring blocks ∧
    (held s.mem blocks < length ∨ held s.mem blocks ≤ length ∧ Gap s.mem blocks)

theorem Buf.Sound.drains {s : Buf} {out : List UInt8} (sound : s.Sound out) (read : List UInt8) :
    Drains s read ↔ read = out := by
  obtain ⟨full, free, ring, filled, empty, rfl⟩ := sound
  obtain ⟨e, rest, rfl⟩ : ∃ e rest, free = e :: rest := by
    cases free with
    | nil =>
        refine absurd ring.spare (filled _ ?_)
        simpa using ring.position
    | cons e rest => exact ⟨e, rest, rfl⟩
  exact drains_iff ring.cycle filled (empty e (by simp)) read

/-- The reads of a damaged buffer return too little. -/
theorem Buf.Damaged.drains {s : Buf} {length : Nat} (damaged : s.Damaged length) :
    ∀ out, Drains s out → out.length < length := by
  obtain ⟨blocks, ring, lost⟩ := damaged
  obtain ⟨full, e, rest, rfl, filled, empty⟩ := ring.split
  intro out drains
  rw [(drains_iff ring.cycle filled empty out).mp drains, ring.cycle.length_contentsOf]
  have total : held s.mem (full ++ e :: rest) = held s.mem full + held s.mem rest := by
    rw [held_append]
    simp [held, empty]
  rcases lost with fewer | ⟨all, d, x, behind, dEmpty, xFilled⟩
  · omega
  · obtain ⟨l, l', same, inFull, inRest⟩ := List.sublist_append_iff.mp behind
    have last : x ∈ rest := by
      cases l with
      | nil =>
          rw [List.nil_append] at same
          subst same
          cases inRest with
          | cons _ later => exact later.subset (by simp)
          | cons_cons _ later => exact later.subset (by simp)
      | cons y l =>
          obtain ⟨rfl, _⟩ := List.cons.inj same
          exact absurd dEmpty (filled d (inFull.subset (by simp)))
    have some := bytes_le_held (m := s.mem) last
    omega

section Step

variable {s : Buf} {data : List UInt8} {freeram : Nat}

/-- The block at the write position is one block of the ring. -/
theorem Buf.Ring.wp_notMem {before after : List Nat} (ring : s.Ring (before ++ [s.wp] ++ after)) :
    s.wp ∉ before ++ after := by
  have apart := List.nodup_append.mp ring.cycle.nodup
  rw [List.mem_append]
  rintro (member | member)
  · exact (List.nodup_append.mp apart.1).2.2 s.wp member s.wp (by simp) rfl
  · exact apart.2.2 s.wp (by simp) s.wp member rfl

theorem Wrote.other {t : Buf} {before added after : List Nat}
    (wrote : Wrote s t data before added after) (ring : s.Ring (before ++ [s.wp] ++ after))
    {y : Nat} (member : y ∈ before ++ after) :
    content t.mem y = content s.mem y ∧ t.mem.bytes y = s.mem.bytes y := by
  refine wrote.kept y ?_ ?_
  · rw [List.append_assoc, List.mem_append, List.mem_append]
    exact (List.mem_append.mp member).imp_right .inr
  · rintro rfl
    exact ring.wp_notMem member

/-- A write that fits adds its bytes to the blocks. -/
theorem Wrote.held {t : Buf} {before added after : List Nat}
    (wrote : Wrote s t data before added after) (ring : s.Ring (before ++ [s.wp] ++ after)) :
    FixedBlock.held t.mem (before ++ [s.wp] ++ (added ++ after)) =
      FixedBlock.held s.mem (before ++ [s.wp] ++ after) + data.length := by
  have front : FixedBlock.held t.mem before = FixedBlock.held s.mem before :=
    held_congr fun y member => (wrote.other ring (List.mem_append_left _ member)).2
  have back : FixedBlock.held t.mem after = FixedBlock.held s.mem after :=
    held_congr fun y member => (wrote.other ring (List.mem_append_right _ member)).2
  have here : FixedBlock.held t.mem [s.wp] = data.length := by simp [FixedBlock.held, wrote.count]
  have spare : FixedBlock.held s.mem [s.wp] = 0 := by simp [FixedBlock.held, ring.spare]
  simp only [held_append, front, back, here, spare, held_eq_zero wrote.fresh]
  omega

/-- The blocks around the write position. -/
theorem Buf.Ring.around {blocks : List Nat} (ring : s.Ring blocks) :
    ∃ before after, blocks = before ++ [s.wp] ++ after := by
  obtain ⟨before, after, same⟩ := List.append_of_mem ring.position
  exact ⟨before, after, by simpa using same⟩

/-- What comes behind the first occurrence of an element. -/
theorem mem_of_pair_sublist {a x : Nat} {before after : List Nat} (absent : a ∉ before)
    (pair : [a, x].Sublist (before ++ a :: after)) : x ∈ after := by
  induction before with
  | nil =>
      cases pair with
      | cons _ later => exact later.subset (by simp)
      | cons_cons _ later => exact later.subset (by simp)
  | cons y before ih =>
      rw [List.mem_cons, not_or] at absent
      cases pair with
      | cons _ later => exact ih absent.2 later
      | cons_cons => exact absurd rfl absent.1

/-- A gap stays: the block behind the write position is empty, or the new block is. -/
theorem Wrote.gap {t : Buf} {before added after : List Nat}
    (wrote : Wrote s t data before added after) (ring : s.Ring (before ++ [s.wp] ++ after))
    (gap : Gap s.mem (before ++ [s.wp] ++ after)) :
    Gap t.mem (before ++ [s.wp] ++ (added ++ after)) := by
  obtain ⟨e, x, behind, empty, filled⟩ := gap
  have longer : (before ++ [s.wp] ++ after).Sublist (before ++ [s.wp] ++ (added ++ after)) :=
    (List.sublist_append_right added after).append_left _
  have differ : x ≠ s.wp := by
    rintro rfl
    exact filled ring.spare
  have kept := (wrote.kept x (behind.subset (by simp)) differ).2
  by_cases here : e = s.wp
  · -- The write fills the empty block itself; the one behind it takes its place.
    subst here
    have absent : s.wp ∉ before := fun member => ring.wp_notMem (List.mem_append_left _ member)
    have later : x ∈ after := mem_of_pair_sublist absent (by simpa using behind)
    cases after with
    | nil => cases later
    | cons y rest =>
        by_cases next : s.mem.bytes y = 0
        · have inRest : x ∈ rest := by
            rcases List.mem_cons.mp later with rfl | inRest
            · exact absurd next filled
            · exact inRest
          refine ⟨y, x, ?_, ?_, by rwa [kept]⟩
          · have pair : [y, x].Sublist (y :: rest) :=
              (List.singleton_sublist.mpr inRest).cons_cons y
            exact (pair.trans (List.sublist_append_right _ _)).trans longer
          · rw [(wrote.other ring (by simp)).2]
            exact next
        · obtain ⟨z, more, rfl⟩ := List.exists_cons_of_ne_nil (wrote.parted y rest rfl next)
          refine ⟨z, x, ?_, wrote.fresh z (by simp), by rwa [kept]⟩
          have pair : [z, x].Sublist (z :: more ++ y :: rest) :=
            (List.singleton_sublist.mpr (List.mem_append_right more later)).cons_cons z
          exact pair.trans (List.sublist_append_right _ _)
  · refine ⟨e, x, behind.trans longer, ?_, by rwa [kept]⟩
    rw [(wrote.kept e (behind.subset (by simp)) here).2]
    exact empty

/-- A write that is dropped changes nothing. -/
theorem bufWrite_dropped (long : ¬ data.length ≤ s.mem.size s.wp) : bufWrite s data freeram = s :=
  if_pos (Nat.lt_of_not_le long)

/-- **Damage stays.** -/
theorem Buf.Damaged.write {length : Nat} (damaged : s.Damaged length) :
    (bufWrite s data freeram).Damaged (length + data.length) := by
  obtain ⟨blocks, ring, lost⟩ := damaged
  by_cases fits : data.length ≤ s.mem.size s.wp
  · obtain ⟨before, after, rfl⟩ := ring.around
    obtain ⟨added, wrote⟩ := ring.write fits freeram
    refine ⟨_, wrote.ring, ?_⟩
    rw [wrote.held ring]
    rcases lost with fewer | ⟨all, gap⟩
    · exact .inl (by omega)
    · exact .inr ⟨by omega, wrote.gap ring gap⟩
  · rw [bufWrite_dropped fits]
    refine ⟨blocks, ring, ?_⟩
    rcases lost with fewer | ⟨all, gap⟩
    · exact .inl (by omega)
    · exact .inr ⟨by omega, gap⟩

/-- A dropped write is damage. -/
theorem Buf.Sound.write_dropped {out : List UInt8} (sound : s.Sound out)
    (long : ¬ data.length ≤ s.mem.size s.wp) :
    (bufWrite s data freeram).Damaged (out.length + data.length) := by
  obtain ⟨full, free, ring, _, empty, rfl⟩ := sound
  rw [bufWrite_dropped long]
  refine ⟨_, ring, .inl ?_⟩
  rw [held_append, held_eq_zero empty, ring.cycle.length_contentsOf]
  omega

/-- The free blocks of a sound buffer around the write position. -/
theorem Buf.Sound.around {out : List UInt8} (sound : s.Sound out) :
    ∃ full gone rest, s.Ring (full ++ gone ++ [s.wp] ++ rest) ∧ (∀ x ∈ full, s.mem.bytes x ≠ 0) ∧
      (∀ x ∈ gone ++ rest, s.mem.bytes x = 0) ∧ contentsOf s.mem full = out := by
  obtain ⟨full, free, ring, filled, empty, rfl⟩ := sound
  obtain ⟨gone, rest, rfl⟩ : ∃ gone rest, free = gone ++ s.wp :: rest := by
    refine List.append_of_mem ((List.mem_append.mp ring.position).resolve_left fun member => ?_)
    exact filled _ member ring.spare
  refine ⟨full, gone, rest, by simpa using ring, filled, fun x member => empty x ?_, rfl⟩
  rw [List.mem_append, List.mem_cons]
  exact (List.mem_append.mp member).imp_right .inr

/-- An empty write leaves the blocks as they are, and is harmless by itself. -/
theorem Buf.Sound.write_empty {out : List UInt8} (sound : s.Sound out) :
    (bufWrite s [] freeram).Sound out := by
  obtain ⟨full, gone, rest, ring, filled, empty, rfl⟩ := sound.around
  have fits : ([] : List UInt8).length ≤ s.mem.size s.wp := Nat.zero_le _
  obtain ⟨added, wrote⟩ := ring.write fits freeram
  have front : ∀ x ∈ full, x ∈ full ++ gone ++ rest := fun x member => by simp [member]
  refine ⟨full, gone ++ [s.wp] ++ (added ++ rest), by simpa using wrote.ring, ?_, ?_, ?_⟩
  · intro x member
    rw [(wrote.other ring (front x member)).2]
    exact filled x member
  · intro x member
    simp only [List.mem_append, List.mem_singleton] at member
    rcases member with (old | rfl) | new | old
    · rw [(wrote.other ring (by simp [old])).2]
      exact empty x (by simp [old])
    · exact wrote.count
    · exact wrote.fresh x new
    · rw [(wrote.other ring (by simp [old])).2]
      exact empty x (by simp [old])
  · exact List.flatMap_congr fun x member => (wrote.other ring (front x member)).1

/-- A path from the read position to the write position passes the blocks before it. -/
theorem Buf.Ring.passes {full gone rest path : List Nat} {e : Nat}
    (ring : s.Ring (full ++ e :: gone ++ [s.wp] ++ rest))
    (reach : Chain s.mem.next s.rp path s.wp) : e ∈ path := by
  have absent : s.wp ∉ full ++ [e] := by
    intro member
    refine ring.wp_notMem (List.mem_append_left _ ?_)
    simp only [List.mem_append, List.mem_cons] at member ⊢
    tauto
  obtain ⟨_, toE, _⟩ : ∃ b, Chain s.mem.next s.rp (full ++ [e]) b ∧
      Chain s.mem.next b (gone ++ [s.wp] ++ rest) s.rp := by
    rw [← chain_append]
    simpa using ring.cycle.ring
  rcases reach.compare toE with ⟨t, same, onward⟩ | ⟨t, rfl, _⟩
  · cases t with
    | nil =>
        rw [List.append_nil] at same
        rw [← same]
        simp
    | cons y t =>
        have start : s.wp = y := onward.start_eq_head
        refine absurd ?_ absent
        rw [same, start]
        simp
  · simp

/-- A write of data is in reach at the first empty block only; elsewhere it leaves a gap. -/
theorem Buf.Sound.write_data {out : List UInt8} (sound : s.Sound out) (some : data ≠ [])
    (fits : data.length ≤ s.mem.size s.wp) :
    (InReach s (data, freeram) → (bufWrite s data freeram).Sound (out ++ data)) ∧
      (¬ InReach s (data, freeram) →
        (bufWrite s data freeram).Damaged (out.length + data.length)) := by
  obtain ⟨full, gone, rest, ring, filled, empty, rfl⟩ := sound.around
  obtain ⟨added, wrote⟩ := ring.write fits freeram
  have full_length : (contentsOf s.mem full).length = FixedBlock.held s.mem full := by
    have cycle := ring.cycle
    rw [List.append_assoc, List.append_assoc] at cycle
    exact cycle.length_contentsOf
  have stored : (bufWrite s data freeram).mem.bytes s.wp ≠ 0 := by
    rw [wrote.count]
    exact Nat.pos_iff_ne_zero.mp (List.length_pos_iff.mpr some)
  cases gone with
  | nil =>
      rw [List.append_nil] at ring wrote
      have front : ∀ x ∈ full, x ∈ full ++ rest := fun x member => by simp [member]
      constructor
      · intro _
        refine ⟨full ++ [s.wp], added ++ rest, wrote.ring, ?_, ?_, ?_⟩
        · intro x member
          rcases List.mem_append.mp member with old | here
          · rw [(wrote.other ring (front x old)).2]
            exact filled x old
          · obtain rfl : x = s.wp := by simpa using here
            exact stored
        · intro x member
          rcases List.mem_append.mp member with new | old
          · exact wrote.fresh x new
          · rw [(wrote.other ring (by simp [old])).2]
            exact empty x (by simp [old])
        · rw [contentsOf, List.flatMap_append, List.flatMap_singleton, wrote.written]
          congr 1
          exact List.flatMap_congr fun x member => (wrote.other ring (front x member)).1
      · intro behind
        refine absurd (.inr ⟨fits, full, ?_, filled⟩) behind
        obtain ⟨_, toRest, _⟩ := chain_append.mp ring.cycle.ring
        exact (chain_concat.mp toRest).1
  | cons e gone =>
      have hole : s.mem.bytes e = 0 := empty e (by simp)
      constructor
      · rintro (none | ⟨_, path, reach, pathFilled⟩)
        · exact absurd none some
        · refine absurd hole (pathFilled e ?_)
          exact ring.passes reach
      · intro _
        refine ⟨_, wrote.ring, .inr ⟨?_, e, s.wp, ?_, ?_, stored⟩⟩
        · have emptyGone : ∀ x ∈ e :: gone, s.mem.bytes x = 0 := fun x member =>
            empty x (List.mem_append_left _ member)
          have emptyRest : ∀ x ∈ rest, s.mem.bytes x = 0 := fun x member =>
            empty x (List.mem_append_right _ member)
          have spare : FixedBlock.held s.mem [s.wp] = 0 := held_eq_zero (by simp [ring.spare])
          rw [wrote.held ring, held_append, held_append, held_append, spare,
            held_eq_zero emptyGone, held_eq_zero emptyRest, ← full_length]
          omega
        · have pair : [e, s.wp].Sublist (e :: (gone ++ [s.wp])) :=
            (List.singleton_sublist.mpr (by simp)).cons_cons e
          have inside : (e :: (gone ++ [s.wp])).Sublist (full ++ (e :: gone) ++ [s.wp]) := by
            rw [List.append_assoc]
            exact List.sublist_append_right _ _
          exact (pair.trans inside).trans (List.sublist_append_left _ _)
        · rw [(wrote.other ring (by simp)).2]
          exact hole

/-- **One write.** It does no damage exactly when it is in reach. -/
theorem Buf.Sound.write {out : List UInt8} (sound : s.Sound out) :
    (InReach s (data, freeram) → (bufWrite s data freeram).Sound (out ++ data)) ∧
      (¬ InReach s (data, freeram) →
        (bufWrite s data freeram).Damaged (out.length + data.length)) := by
  by_cases none : data = []
  · subst none
    refine ⟨fun _ => ?_, fun outside => absurd (.inl rfl) outside⟩
    rw [List.append_nil]
    exact sound.write_empty
  · by_cases fits : data.length ≤ s.mem.size s.wp
    · exact sound.write_data none fits
    · refine ⟨?_, fun _ => sound.write_dropped fits⟩
      rintro (empty | ⟨short, _⟩)
      · exact absurd empty none
      · exact absurd short fits

end Step

theorem accepted_append (log log' : List ((List UInt8 × Nat) × IoStatus × Nat)) :
    accepted (log ++ log') = accepted log ++ accepted log' :=
  List.flatMap_append

/-- Every byte of a write counts as accepted. -/
theorem accepted_write (data : List UInt8) (freeram : Nat) :
    accepted [((data, freeram), .success, data.length)] = data := by
  simp [accepted]

/-- **Damage stays over every sequence of writes.** -/
theorem Buf.Damaged.run {s t : Buf} {length : Nat} {writes : List (List UInt8 × Nat)}
    {log : List ((List UInt8 × Nat) × IoStatus × Nat)} (damaged : s.Damaged length)
    (run : runCalls writeCall s writes = some (t, log)) :
    t.Damaged (length + (accepted log).length) := by
  have initial : s.Damaged (length + (accepted []).length) := damaged
  refine runCalls_invariant (I := fun s log => s.Damaged (length + (accepted log).length)) ?_
    initial run
  rintro s log ⟨data, freeram⟩ t answer damaged called
  rw [writeCall_eq] at called
  cases called
  rw [accepted_append, accepted_write, List.length_append, ← Nat.add_assoc]
  exact damaged.write

theorem runCalls_write {s : Buf} {data : List UInt8} {freeram : Nat}
    {writes : List (List UInt8 × Nat)} :
    runCalls writeCall s ((data, freeram) :: writes) =
      (runCalls writeCall (bufWrite s data freeram) writes).map fun (t, log) =>
        (t, ((data, freeram), .success, data.length) :: log) := by
  rw [runCalls, writeCall_eq]
  rfl

theorem meetsAll_write {s : Buf} {data : List UInt8} {freeram : Nat}
    {writes : List (List UInt8 × Nat)} :
    MeetsAll writeCall InReach s ((data, freeram) :: writes) ↔
      InReach s (data, freeram) ∧ MeetsAll writeCall InReach (bufWrite s data freeram) writes := by
  have called := writeCall_eq s data freeram
  refine and_congr_right fun _ => ⟨fun later => later _ _ called, fun later t r called' => ?_⟩
  cases called.symm.trans called'
  exact later

/-- Every sequence of writes returns. -/
theorem runCalls_writes (s : Buf) (writes : List (List UInt8 × Nat)) :
    ∃ t log, runCalls writeCall s writes = some (t, log) := by
  induction writes generalizing s with
  | nil => exact ⟨s, [], rfl⟩
  | cons write writes ih =>
      obtain ⟨data, freeram⟩ := write
      obtain ⟨t, log, run⟩ := ih (bufWrite s data freeram)
      rw [runCalls_write, run]
      exact ⟨t, _, rfl⟩

/-- **A whole sequence of writes** does no damage exactly when each write is in reach at its
turn. -/
theorem Buf.Sound.run {s t : Buf} {out : List UInt8} {writes : List (List UInt8 × Nat)}
    {log : List ((List UInt8 × Nat) × IoStatus × Nat)} (sound : s.Sound out)
    (run : runCalls writeCall s writes = some (t, log)) :
    (MeetsAll writeCall InReach s writes → t.Sound (out ++ accepted log)) ∧
      (¬ MeetsAll writeCall InReach s writes → t.Damaged (out ++ accepted log).length) := by
  induction writes generalizing s out log with
  | nil =>
      cases run
      refine ⟨fun _ => ?_, fun fails => absurd trivial fails⟩
      simpa [accepted] using sound
  | cons write writes ih =>
      obtain ⟨data, freeram⟩ := write
      rw [runCalls_write] at run
      obtain ⟨⟨u, later⟩, rest, last⟩ := Option.map_eq_some_iff.mp run
      obtain ⟨rfl, rfl⟩ := Prod.mk.inj last
      have logged : out ++ accepted (((data, freeram), .success, data.length) :: later) =
          out ++ data ++ accepted later := by
        rw [← List.singleton_append, accepted_append, accepted_write, List.append_assoc]
      obtain ⟨reached, missed⟩ := sound.write 
      rw [meetsAll_write, logged]
      by_cases inReach : InReach s (data, freeram)
      · obtain ⟨keeps, damages⟩ := ih (reached inReach) rest
        exact ⟨fun all => keeps all.2, fun fails => damages fun all => fails ⟨inReach, all⟩⟩
      · refine ⟨fun all => absurd all.1 inReach, fun _ => ?_⟩
        rw [List.length_append, List.length_append]
        exact (missed inReach).run rest

/-- Nothing was accepted by a new buffer, and all its blocks are empty. -/
theorem newBuffer_sound (args : FbbArgs) (freeram : Nat) : (newBuffer args freeram).Sound [] := by
  obtain ⟨some, sized⟩ := sanitizeArgs_positive args
  obtain ⟨size, free, spare, layout⟩ := newRing_layout_any (α := UInt8)
    (sanitizeArgs args).blockBytes freeram (blockCount_pos (sanitizeArgs args).blockBytes some)
  refine ⟨[], free, ⟨⟨layout.toRp, layout.nodup, layout.inside, fun x member => ?_⟩, ?_, ?_, sized⟩,
    List.forall_mem_nil _, layout.empty, rfl⟩
  · show (newBuffer args freeram).mem.bytes x ≤ _
    rw [show (newBuffer args freeram).mem.bytes x = 0 from layout.empty x member]
    exact Nat.zero_le _
  · exact layout.toRp.start_mem spare
  · exact layout.empty _ (layout.toRp.start_mem spare)

/-- **What the fixed block buffer accepts it delivers, exactly when every write is in reach.** For
every buffer and block size, every sequence of writes of any length, and whatever memory the
allocations find: the reads that follow, of sufficient size and until one reports 0 bytes, return
what the writes reported as accepted if and only if each write that is not empty fits the block at
the write position and finds no empty block between the read and the write position. -/
theorem accepted_delivered_iff (args : FbbArgs) (freeram : Nat)
    (writes : List (List UInt8 × Nat)) :
    DeliversAccepted (newBuffer args freeram) writes ↔
      MeetsAll writeCall InReach (newBuffer args freeram) writes := by
  obtain ⟨t, log, run⟩ := runCalls_writes (newBuffer args freeram) writes
  obtain ⟨keeps, damages⟩ := (newBuffer_sound args freeram).run run
  simp only [List.nil_append] at keeps damages
  constructor
  · rintro ⟨t', log', run', ⟨out, drains⟩, delivers⟩
    cases run.symm.trans run'
    by_contra fails
    have short := (damages fails).drains out drains
    rw [delivers out drains] at short
    exact Nat.lt_irrefl _ short
  · intro meets
    have sound := keeps meets
    exact ⟨t, log, run, ⟨_, (sound.drains _).mpr rfl⟩, fun out => (sound.drains out).mp⟩

/-- Reads that report nothing at once deliver nothing. -/
theorem not_delivers_of_nothing {s t : Buf} {writes : List (List UInt8 × Nat)}
    {log : List ((List UInt8 × Nat) × IoStatus × Nat)}
    (run : runCalls writeCall s writes = some (t, log)) (nothing : (bufRead t 20).2 = [])
    (small : t.mem.bytes t.rp ≤ 20) (some : accepted log ≠ []) : ¬ DeliversAccepted s writes := by
  rintro ⟨t', log', run', _, delivers⟩
  cases run.symm.trans run'
  exact some (delivers [] (.last small nothing)).symm

/-- Twenty bytes are accepted by a buffer of one block of twelve, and the first read reports
nothing. So it is with the byte that is written behind an empty write. -/
theorem long_write_accepted :
    ¬ DeliversAccepted (newBuffer ⟨2, 10, 0⟩ 100) [(List.replicate 20 65, 100)] ∧
      ¬ DeliversAccepted (newBuffer ⟨24, 12, 0⟩ 100) [([], 100), ([1], 100)] := by
  constructor
  · exact not_delivers_of_nothing (t := bufWrite (newBuffer ⟨2, 10, 0⟩ 100)
      (List.replicate 20 65) 100) rfl (by decide) (by decide) (by decide)
  · exact not_delivers_of_nothing (t := bufWrite (bufWrite (newBuffer ⟨24, 12, 0⟩ 100) [] 100)
      [1] 100) rfl (by decide) (by decide) (by decide)

end Bingewatch.Buffer.FixedBlock
