import Bingewatch.Buffer.RingShape
import Bingewatch.Buffer.RingThreads

/-!
# A ring that grows under its reader

`get_next_block` finds the next block full, drops the lock, allocates, and then links the new blocks
behind the block it has just written. If the reader uses this window to empty the whole ring, that
block included, it steps from it to the old next block; the new blocks then lie behind the reader,
and what is written to them is out of its reach.

In every run in which the reader does not exhaust and leave the block behind which the writer is
about to link, the blocks between the two positions hold the bytes not yet read, in order
(`Shared.Inv`). This module shows that the writer keeps it so while the ring grows.
-/

set_option autoImplicit false

namespace Bingewatch.Buffer.Threads

open Foundation Machine

/-! ## The property -/

/-- The bytes a block holds. -/
def content (m : Mem UInt8) (x : Nat) : List UInt8 := (m.data x).take (m.bytes x)

/-- The bytes returned are the first bytes written, and between calls, if any block of the ring
holds bytes, the block at the read position holds the oldest bytes not yet returned. -/
structure Shared.InOrder (s : Shared) : Prop where
  delivered : s.delivered <+: s.written
  reachable : s.writer = .idle → s.reader = .idle →
    (∃ k, s.ring.mem.bytes (s.ring.mem.next^[k] s.ring.rp) ≠ 0) →
    s.ring.mem.bytes s.ring.rp ≠ 0 ∧ content s.ring.mem s.ring.rp ≠ [] ∧
      s.delivered ++ content s.ring.mem s.ring.rp <+: s.written

/-- The block behind which the writer is about to link new blocks: it has found the next block full
and has not linked yet. -/
def Shared.growing (s : Shared) : Option Nat :=
  match s.writer with
  | .realloc _ => some s.put.b
  | .alloc _ _ => some s.put.b
  | .link _ _ _ _ => some s.put.b
  | _ => none

/-- The block that the reader exhausts and leaves in its next step. -/
def Shared.leaving (s : Shared) : Option Nat :=
  match s.reader with
  | .take _ false => some s.get.b
  | _ => none

/-- The reader does not leave the block behind which the writer is about to link. -/
def Apart (s : Shared) : Act → Prop
  | .reader => s.growing = none ∨ s.growing ≠ s.leaving
  | _ => True

instance (s : Shared) : ∀ a, Decidable (Apart s a)
  | .write _ => inferInstanceAs (Decidable True)
  | .read _ => inferInstanceAs (Decidable True)
  | .writer => inferInstanceAs (Decidable True)
  | .reader => inferInstanceAs (Decidable (s.growing = none ∨ s.growing ≠ s.leaving))

/-! ## The invariant -/

/-- The writer's position is past the block it has just filled. -/
def WriterPc.ahead : WriterPc → Bool
  | .loadNext => true
  | .testNext _ => true
  | .realloc _ => true
  | .alloc _ _ => true
  | .link _ _ _ _ => true
  | _ => false

/-- The writer has taken its input and works with its own position. -/
def WriterPc.inside : WriterPc → Bool
  | .size => true
  | .copy _ => true
  | .setBytes _ => true
  | .addBytes => true
  | .testHigh => true
  | .storeWp => true
  | pc => pc.ahead

/-- The writer is past the test of the ring's state. -/
def WriterPc.started : WriterPc → Bool
  | .testLow => true
  | .lowHit => true
  | .clearLow => true
  | .loadWp => true
  | pc => pc.inside

/-- The block at which the writer goes on. -/
def Shared.writeAt (s : Shared) : Nat :=
  if s.writer.ahead then s.ring.mem.next s.put.b
  else if s.writer.inside then s.put.b
  else s.ring.wp

/-- The block at which the reader goes on. -/
def Shared.readAt (s : Shared) : Nat := if s.reader.outside then s.ring.rp else s.get.b

/-- A list of empty blocks, not yet part of the ring. -/
structure NewBlocks (m : Mem UInt8) (blockSize : Nat) (ring : List Nat) (head tail : Nat)
    (init : List Nat) : Prop where
  chain : Chain m.next head (init ++ [tail]) 0
  nodup : (init ++ [tail]).Nodup
  apart : ∀ y ∈ init ++ [tail], y ∉ ring
  inside : ∀ y ∈ init ++ [tail], 0 < y ∧ y < m.brk
  sizes : ∀ y ∈ init ++ [tail], m.size y = blockSize
  empty : ∀ y ∈ init ++ [tail], m.bytes y = 0

/-- What the writer knows: the block it has filled is the last full one, unless the reader has
emptied it since, which it may not do while the ring grows. -/
def writerOk (r : Ring) (c : WriteCall) (full free : List Nat) : WriterPc → Prop
  | .init => r.state = .noinit
  | .copy n => 0 < n ∧ n ≤ c.data.length
  | .setBytes n => 0 < n ∧ n ≤ (r.mem.data c.b).length
  | .loadNext => full ≠ [] → full.getLast? = some c.b
  | .testNext next => next = r.mem.next c.b ∧ (full ≠ [] → full.getLast? = some c.b)
  | .realloc next => next = r.mem.next c.b ∧ full.getLast? = some c.b
  | .alloc next n => next = r.mem.next c.b ∧ full.getLast? = some c.b ∧ 0 < n
  | .link next head tail _ => next = r.mem.next c.b ∧ full.getLast? = some c.b ∧
      ∃ init, NewBlocks r.mem r.blockSize (full ++ free) head tail init
  | .addBytes => c.data = []
  | .testHigh => c.data = []
  | .storeWp => c.data = []
  | _ => True

/-- It does not depend on the settings and counters of the ring. -/
theorem writerOk_congr {r r' : Ring} {c : WriteCall} {full free : List Nat} {pc : WriterPc}
    (mem : r'.mem = r.mem) (size : r'.blockSize = r.blockSize) (state : r'.state = r.state) :
    writerOk r' c full free pc = writerOk r c full free pc := by
  cases pc <;> simp only [writerOk, mem, size, state]

/-- What the reader knows: it works on the first full block. -/
def readerOk (m : Mem UInt8) (b : Nat) (full : List Nat) : ReaderPc → Prop
  | .copy n true => full.head? = some b ∧ n < m.bytes b
  | .copy n false => full.head? = some b ∧ n = m.bytes b
  | .move n => full.head? = some b ∧ n < m.bytes b
  | .take n true => full.head? = some b ∧ n < m.bytes b
  | .take n false => full.head? = some b ∧ n = m.bytes b
  | _ => True

/-- The bytes of the reader's block that it has not copied. -/
def headUnread (m : Mem UInt8) (b : Nat) : ReaderPc → List UInt8
  | .move n => (content m b).drop n
  | .take n true => (m.data b).take (m.bytes b - n)
  | .take _ false => []
  | _ => content m b

/-- The bytes in the full blocks that the reader has not copied. -/
def unread (m : Mem UInt8) (pc : ReaderPc) : List Nat → List UInt8
  | [] => []
  | x :: rest => headUnread m x pc ++ contents m rest

/-- The bytes the reader has copied and not returned. -/
def Shared.collected (s : Shared) : List UInt8 := if s.reader = .idle then [] else s.get.out

/-- The bytes the writer has taken and not stored. -/
def unstored (m : Mem UInt8) (c : WriteCall) : WriterPc → List UInt8
  | .setBytes n => (m.data c.b).take n ++ c.data
  | pc => if pc.inside then c.data else []

/-- The settings of the ring, and how far its first write has come. -/
structure Shared.Settled (s : Shared) (full : List Nat) : Prop where
  aligned : 0 < s.ring.blockAlign
  grows : 0 < s.ring.blockRealloc
  sized : s.ring.state = .ready ∨ s.writer = .setReady → 0 < s.ring.blockSize
  started : s.writer.started = true → s.ring.state = .ready
  fresh : s.ring.state = .noinit → full = [] ∧ (s.writer ≠ .setReady → s.ring.blockSize = 0)

/-- **The invariant of a ring with a writer and a reader.** -/
structure Shared.Inv (s : Shared) (full free : List Nat) : Prop where
  layout : Layout s.ring.mem s.ring.blockSize s.readAt s.writeAt full free
  ring : full ++ free ≠ []
  stored : ∀ x ∈ full, s.ring.mem.bytes x ≤ (s.ring.mem.data x).length
  spare : s.writer.ahead = false → free ≠ []
  settled : s.Settled full
  writerOk : writerOk s.ring s.put full free s.writer
  readerOk : readerOk s.ring.mem s.get.b full s.reader
  flow : s.written = s.delivered ++ s.collected ++ unread s.ring.mem s.reader full ++
    unstored s.ring.mem s.put s.writer

/-! ### Frames -/

section Frames

variable {m m' : Mem UInt8} {full : List Nat}

/-- What the reader knows stays true while the full blocks keep their bytes. -/
theorem readerOk_frame {b : Nat} {pc : ReaderPc} (more : List Nat)
    (same : ∀ x ∈ full, m'.data x = m.data x ∧ m'.bytes x = m.bytes x)
    (ok : readerOk m b full pc) : readerOk m' b (full ++ more) pc := by
  have front : full.head? = some b → (full ++ more).head? = some b ∧ m'.bytes b = m.bytes b := by
    intro head
    exact ⟨by rw [List.head?_append, head]; rfl, (same b (List.mem_of_mem_head? head)).2⟩
  cases pc with
  | copy n partialRead =>
      cases partialRead with
      | true => exact ⟨(front ok.1).1, (front ok.1).2.symm ▸ ok.2⟩
      | false => exact ⟨(front ok.1).1, (front ok.1).2.symm ▸ ok.2⟩
  | move n => exact ⟨(front ok.1).1, (front ok.1).2.symm ▸ ok.2⟩
  | take n partialRead =>
      cases partialRead with
      | true => exact ⟨(front ok.1).1, (front ok.1).2.symm ▸ ok.2⟩
      | false => exact ⟨(front ok.1).1, (front ok.1).2.symm ▸ ok.2⟩
  | _ => trivial

/-- A reader that has no full block has no bytes in its hands. -/
theorem headUnread_of_none {b x : Nat} {pc : ReaderPc} (ok : readerOk m b [] pc) :
    headUnread m' x pc = content m' x := by
  cases pc with
  | copy n partialRead => rfl
  | move n => cases ok.1
  | take n partialRead => cases partialRead <;> cases ok.1
  | _ => rfl

/-- A reader that has copied nothing of its block has all of the full blocks before it. -/
theorem unread_eq_contents {pc : ReaderPc} (same : ∀ x, headUnread m x pc = content m x) :
    unread m pc full = contents m full := by
  cases full with
  | nil => rfl
  | cons x rest =>
      rw [unread, same, contents_cons]
      rfl

/-- Blocks filled behind the full ones add their bytes to what is unread. -/
theorem unread_frame {b : Nat} {pc : ReaderPc} (more : List Nat)
    (same : ∀ x ∈ full, m'.data x = m.data x ∧ m'.bytes x = m.bytes x)
    (ok : readerOk m b full pc) :
    unread m' pc (full ++ more) = unread m pc full ++ contents m' more := by
  cases full with
  | nil =>
      cases more with
      | nil => rfl
      | cons x rest =>
          show headUnread m' x pc ++ contents m' rest = contents m' (x :: rest)
          rw [headUnread_of_none ok, contents_cons]
          rfl
  | cons x rest =>
      have here := same x (by simp)
      have head : headUnread m' x pc = headUnread m x pc := by
        unfold headUnread content
        rw [here.1, here.2]
      have tail : contents m' rest = contents m rest :=
        contents_congr (fun y member => (same y (List.mem_cons_of_mem _ member)).1)
          fun y member => (same y (List.mem_cons_of_mem _ member)).2
      show headUnread m' x pc ++ contents m' (rest ++ more) = _
      rw [head, contents_append, tail]
      simp [unread]

end Frames

/-! ### The writer -/

/-- Once the ring is ready nothing of its first write is left. -/
theorem settled_ready {s : Shared} {full : List Nat} (ready : s.ring.state = .ready)
    (sized : 0 < s.ring.blockSize) (aligned : 0 < s.ring.blockAlign)
    (grows : 0 < s.ring.blockRealloc) : s.Settled full :=
  ⟨aligned, grows, fun _ => sized, fun _ => ready,
    fun noinit => by cases ready.symm.trans noinit⟩

namespace Shared.Inv

variable {s : Shared} {full free : List Nat}

/-- A writer past the test of the state works on a ring that has its data. -/
theorem ready (inv : s.Inv full free) (started : s.writer.started = true) :
    s.ring.state = .ready ∧ 0 < s.ring.blockSize :=
  ⟨inv.settled.started started, inv.settled.sized (Or.inl (inv.settled.started started))⟩

/-- **A step of the writer.** The full blocks keep their bytes, some blocks may be filled behind
them, and the bytes taken are stored in these or still in the writer's hands. -/
theorem write (inv : s.Inv full free) {r : Ring} {c : WriteCall} {pc : WriterPc}
    {full' free' : List Nat} {written : List UInt8} (more : List Nat) (input : List UInt8)
    (appended : full' = full ++ more) (taken : written = s.written ++ input)
    (same : ∀ x ∈ full, r.mem.data x = s.ring.mem.data x ∧ r.mem.bytes x = s.ring.mem.bytes x)
    (rp : r.rp = s.ring.rp)
    (layout : Layout r.mem r.blockSize s.readAt
      (writeAt { s with ring := r, put := c, writer := pc }) full' free')
    (ring : full' ++ free' ≠ [])
    (stored : ∀ x ∈ more, r.mem.bytes x ≤ (r.mem.data x).length)
    (spare : pc.ahead = false → free' ≠ [])
    (settled : Settled { s with ring := r, writer := pc } full')
    (ok : Threads.writerOk r c full' free' pc)
    (kept : unstored s.ring.mem s.put s.writer ++ input =
      contents r.mem more ++ unstored r.mem c pc) :
    Inv { s with ring := r, put := c, writer := pc, written := written } full' free' := by
  subst appended taken
  have position : readAt { s with ring := r } = s.readAt := by
    unfold Shared.readAt
    rw [rp]
  refine ⟨?_, ring, ?_, spare, ⟨settled.aligned, settled.grows, settled.sized, settled.started,
    settled.fresh⟩, ok, readerOk_frame more same inv.readerOk, ?_⟩
  · exact position.symm ▸ layout
  · intro x member
    rcases List.mem_append.mp member with old | new
    · show r.mem.bytes x ≤ (r.mem.data x).length
      rw [(same x old).1, (same x old).2]
      exact inv.stored x old
    · exact stored x new
  · show s.written ++ input = s.delivered ++ s.collected ++
      unread r.mem s.reader (full ++ more) ++ unstored r.mem c pc
    rw [unread_frame more same inv.readerOk, inv.flow, List.append_assoc _ _ input, kept]
    simp only [List.append_assoc]

/-- A step of the writer that leaves the blocks alone. -/
theorem goto (inv : s.Inv full free) {r : Ring} {c : WriteCall} {pc : WriterPc}
    (mem : r.mem = s.ring.mem) (rp : r.rp = s.ring.rp) (size : r.blockSize = s.ring.blockSize)
    (position : writeAt { s with ring := r, put := c, writer := pc } = s.writeAt)
    (ahead : pc.ahead = false → free ≠ [])
    (settled : Settled { s with ring := r, writer := pc } full)
    (ok : Threads.writerOk r c full free pc)
    (kept : unstored r.mem c pc = unstored s.ring.mem s.put s.writer) :
    Inv { s with ring := r, put := c, writer := pc } full free := by
  refine inv.write [] [] (List.append_nil _).symm (List.append_nil _).symm ?_ rp ?_ inv.ring ?_
    ahead settled ok ?_
  · intro x _
    rw [mem]
    exact ⟨rfl, rfl⟩
  · rw [mem, size, position]
    exact inv.layout
  · intro x member
    cases member
  · rw [kept, List.append_nil]
    rfl

/-- **The first write gives the blocks their data**, while no read is under way. An empty write
gives them none and fails. -/
theorem init_blocks {host : Host} (fits : host.Fits) (inv : s.Inv full free)
    (pc : s.writer = .init) :
    ∃ free', Inv
      { s with
        ring := (rbDataInit host s.ring s.put.data.length).1
        writer :=
          if (rbDataInit host s.ring s.put.data.length).2.isError then .idle else .setReady }
      [] free' := by
  have noinit : s.ring.state = .noinit := by
    have ok := inv.writerOk
    rwa [pc] at ok
  obtain ⟨rfl, size⟩ := inv.settled.fresh noinit
  have zero : s.ring.blockSize = 0 := size (by simp [pc])
  have atWp : s.writeAt = s.ring.wp := by simp [writeAt, pc, WriterPc.ahead, WriterPc.inside]
  have start : s.readAt = s.ring.wp := inv.layout.rp_eq_wp.trans atWp
  have layout := inv.layout
  rw [start, atWp, zero] at layout
  have spare : free ≠ [] := inv.spare (by simp [pc, WriterPc.ahead])
  obtain ⟨m, free', some, given, result⟩ :=
    rbDataInit_layout fits s.put.data.length layout spare inv.settled.aligned
  rw [result]
  by_cases empty : s.put.data.length = 0
  · rw [if_pos empty]
    have none : alignedSize s.put.data.length s.ring.blockAlign = 0 := by
      simp [empty, alignedSize]
    refine ⟨free', inv.write [] [] rfl (List.append_nil _).symm (List.forall_mem_nil _) rfl
      (start ▸ given) (by simpa using some) (List.forall_mem_nil _) (fun _ => some) ?_ trivial ?_⟩
    · refine ⟨inv.settled.aligned, inv.settled.grows, ?_, by rintro ⟨⟩,
        fun _ => ⟨rfl, fun _ => none⟩⟩
      rintro (ready | setReady)
      · cases noinit.symm.trans ready
      · cases setReady
    · simp [unstored, pc, WriterPc.inside, WriterPc.ahead, IoStatus.isError]
  · rw [if_neg empty]
    have sized := alignedSize_pos (Nat.pos_of_ne_zero empty) inv.settled.aligned
    refine ⟨free', inv.write [] [] rfl (List.append_nil _).symm (List.forall_mem_nil _) rfl
      (start ▸ given) (by simpa using some) (List.forall_mem_nil _) (fun _ => some) ?_ trivial ?_⟩
    · exact ⟨inv.settled.aligned, inv.settled.grows, fun _ => sized, by rintro ⟨⟩,
        fun _ => ⟨rfl, fun other => absurd rfl other⟩⟩
    · simp [unstored, pc, WriterPc.inside, WriterPc.ahead, IoStatus.isError]

/-- The write position of a writer with a spare block is the first empty block. -/
theorem free_eq (inv : s.Inv full free) (settled : s.writer.ahead = false) :
    ∃ rest, free = s.writeAt :: rest := by
  cases free with
  | nil => exact absurd rfl (inv.spare settled)
  | cons x rest => exact ⟨rest, by rw [inv.layout.wp_eq]⟩

/-- A change to an empty block leaves the full ones alone. -/
theorem modify_free (inv : s.Inv full free) {b : Nat} (member : b ∈ free)
    (f : Block UInt8 → Block UInt8) :
    ∀ x ∈ full, (s.ring.mem.modify b f).data x = s.ring.mem.data x ∧
      (s.ring.mem.modify b f).bytes x = s.ring.mem.bytes x := by
  intro x inFull
  have other : x ≠ b := (List.nodup_append.mp inv.layout.nodup).2.2 x inFull b member
  have block := Mem.modify_block_of_ne s.ring.mem f other
  exact ⟨congrArg Block.data block, congrArg Block.bytes block⟩

/-- The writer copies bytes to its block. -/
theorem copied (inv : s.Inv full free) {n : Nat} (pc : s.writer = .copy n) :
    Inv { s with
      ring := { s.ring with mem := s.ring.mem.modify s.put.b (storeData (s.put.data.take n)) }
      put := { s.put with data := s.put.data.drop n, written := s.put.written + n }
      writer := .setBytes n } full free := by
  obtain ⟨some, within⟩ : Threads.writerOk s.ring s.put full free (.copy n) := pc ▸ inv.writerOk
  have ready := inv.ready (by simp [pc, WriterPc.started, WriterPc.inside])
  have atB : s.writeAt = s.put.b := by simp [writeAt, pc, WriterPc.ahead, WriterPc.inside]
  obtain ⟨rest, freeEq⟩ := inv.free_eq (by simp [pc, WriterPc.ahead])
  have inFree : s.put.b ∈ free := by simp [freeEq, atB]
  have notFull : s.put.b ∉ full := fun inFull =>
    (List.nodup_append.mp inv.layout.nodup).2.2 _ inFull _ inFree rfl
  have length : (s.put.data.take n).length = n := List.length_take_of_le within
  refine inv.write [] [] (List.append_nil _).symm (List.append_nil _).symm
    (inv.modify_free inFree _) rfl ?_ inv.ring (List.forall_mem_nil _)
    (fun _ => inv.spare (by simp [pc, WriterPc.ahead]))
    (settled_ready ready.1 ready.2 inv.settled.aligned inv.settled.grows) ⟨some, ?_⟩ ?_
  · show Layout _ _ s.readAt s.put.b full free
    rw [← atB]
    exact inv.layout.modify rfl rfl (fun inFull => absurd inFull (atB ▸ notFull))
      fun _ => inv.layout.empty _ (atB ▸ inFree)
  · simp [Mem.data, storeData, length]
  · simp [unstored, pc, WriterPc.inside, Mem.data, storeData, length]

/-- **The writer releases its block to the reader.** -/
theorem released (inv : s.Inv full free) {n : Nat} (pc : s.writer = .setBytes n) :
    ∃ free', Inv { s with ring := { s.ring with mem := s.ring.mem.modify s.put.b (setBytes n) },
                          writer := .loadNext } (full ++ [s.put.b]) free' := by
  obtain ⟨some, within⟩ : Threads.writerOk s.ring s.put full free (.setBytes n) :=
    pc ▸ inv.writerOk
  have ready := inv.ready (by simp [pc, WriterPc.started, WriterPc.inside])
  have atB : s.writeAt = s.put.b := by simp [writeAt, pc, WriterPc.ahead, WriterPc.inside]
  obtain ⟨rest, freeEq⟩ := inv.free_eq (by simp [pc, WriterPc.ahead])
  rw [atB] at freeEq
  subst freeEq
  have filled := inv.layout.fill (f := setBytes n) rfl rfl some
  have link : (s.ring.mem.modify s.put.b (setBytes n)).next s.put.b = s.ring.mem.next s.put.b :=
    Mem.modify_field Block.next s.ring.mem s.put.b (setBytes n) rfl s.put.b
  refine ⟨rest, inv.write [s.put.b] [] rfl (List.append_nil _).symm (inv.modify_free (by simp) _)
    rfl ?_ (by simp) ?_ (by rintro ⟨⟩)
    (settled_ready ready.1 ready.2 inv.settled.aligned inv.settled.grows) ?_ ?_⟩
  · rw [← link] at filled
    exact filled
  · intro x member
    obtain rfl : x = s.put.b := by simpa using member
    simpa [Mem.bytes, Mem.data, setBytes] using within
  · intro _
    simp
  · simp [unstored, pc, WriterPc.inside, WriterPc.ahead, Mem.data, Mem.bytes, setBytes]

/-- An empty block at the write position leaves the ring a spare block. -/
theorem spare_of_empty (inv : s.Inv full free) (empty : s.ring.mem.bytes s.writeAt = 0) :
    free ≠ [] := by
  rintro rfl
  have some : full ≠ [] := by simpa using inv.ring
  have start : s.writeAt ∈ full := by
    rw [inv.layout.wp_eq_rp]
    exact inv.layout.toWp.start_mem some
  exact absurd empty (Nat.pos_iff_ne_zero.mp (inv.layout.filled _ start))

/-- A full block at the write position is the first full one, so there is one. -/
theorem full_of_filled (inv : s.Inv full free) (filled : s.ring.mem.bytes s.writeAt ≠ 0) :
    full ≠ [] := by
  rintro rfl
  have some : free ≠ [] := by simpa using inv.ring
  exact filled (inv.layout.empty _ (inv.layout.toRp.start_mem some))

/-- Newly allocated blocks are apart from the ring. -/
theorem newBlocks {m : Mem UInt8} {head tail : Nat} {init : List Nat} (inv : s.Inv full free)
    (fresh : FreshList s.ring.mem m s.ring.blockSize head (init ++ [tail])) :
    NewBlocks m s.ring.blockSize (full ++ free) head tail init := by
  refine ⟨fresh.chain, fresh.nodup, ?_, ?_, fresh.sizes, fresh.empty⟩
  · intro y new old
    have above := (fresh.fresh y new).1
    have below := (inv.layout.inside y old).2
    omega
  · intro y new
    obtain ⟨x, member⟩ := List.exists_mem_of_ne_nil _ inv.ring
    have allocated := inv.layout.inside x member
    have bound := fresh.fresh y new
    exact ⟨by omega, bound.2⟩

/-- The writer allocates new blocks; the ring does not change. -/
theorem allocated {host : Host} (fits : host.Fits) (inv : s.Inv full free) {next n : Nat}
    (pc : s.writer = .alloc next n) :
    ∃ (m : Mem UInt8) (head tail added : Nat),
      writerStep host s =
        some { s with ring := { s.ring with mem := m, allocs := s.ring.allocs + 1 },
                      writer := .link next head tail added } ∧
      Inv { s with ring := { s.ring with mem := m, allocs := s.ring.allocs + 1 },
                   writer := .link next head tail added } full free := by
  obtain ⟨nextEq, last, some⟩ : Threads.writerOk s.ring s.put full free (.alloc next n) :=
    pc ▸ inv.writerOk
  have ready := inv.ready (by simp [pc, WriterPc.started, WriterPc.inside, WriterPc.ahead])
  have inFull : s.put.b ∈ full := List.mem_of_getLast? last
  have bound := inv.layout.inside s.put.b (List.mem_append_left _ inFull)
  obtain ⟨m, head, added, nonempty, fresh, alloc⟩ :=
    allocBlocks_fresh (r := s.ring) (fits _ _) some (by omega) ready.2
  obtain ⟨init, tail, rfl⟩ : ∃ init tail, added = init ++ [tail] :=
    ⟨added.dropLast, added.getLast nonempty, (List.dropLast_append_getLast _).symm⟩
  have old : ∀ x ∈ full ++ free, m.block x = s.ring.mem.block x := fun x member =>
    fresh.older x (inv.layout.inside x member).2
  have same : m.next s.put.b = s.ring.mem.next s.put.b :=
    congrArg Block.next (old s.put.b (List.mem_append_left _ inFull))
  have tailEq : listTail m m.brk head = tail :=
    fresh.listTail_eq (by omega) (fun _ _ => rfl) rfl
  have bytes : ¬ (init ++ [tail]).length * s.ring.blockSize = 0 :=
    Nat.pos_iff_ne_zero.mp (Nat.mul_pos (by simp) ready.2)
  refine ⟨m, head, tail, (init ++ [tail]).length * s.ring.blockSize, ?_, ?_⟩
  · simp only [writerStep, pc, alloc, if_neg bytes, tailEq]
  · refine inv.write [] [] (List.append_nil _).symm (List.append_nil _).symm ?_ rfl ?_ inv.ring
      (List.forall_mem_nil _) (by rintro ⟨⟩)
      (settled_ready ready.1 ready.2 inv.settled.aligned inv.settled.grows)
      ⟨nextEq.trans same.symm, last, init, inv.newBlocks fresh⟩ ?_
    · intro x member
      have block := old x (List.mem_append_left _ member)
      exact ⟨congrArg Block.data block, congrArg Block.bytes block⟩
    · have position : s.writeAt = s.ring.mem.next s.put.b := by
        simp [writeAt, pc, WriterPc.ahead]
      show Layout m s.ring.blockSize s.readAt (m.next s.put.b) full free
      rw [same, ← position]
      exact inv.layout.frame fresh.grows old
    · simp [unstored, pc, WriterPc.inside, WriterPc.ahead]

/-- **The writer links the new blocks behind the last full one.** -/
theorem linked (inv : s.Inv full free) {next head tail added : Nat}
    (pc : s.writer = .link next head tail added) :
    ∃ free', Inv { s with
      ring := s.ring.link s.put.b head tail next added
      put := { s.put with b := (s.ring.link s.put.b head tail next added).mem.next s.put.b }
      writer := .size } full free' := by
  obtain ⟨rfl, last, init, new⟩ : Threads.writerOk s.ring s.put full free
    (.link next head tail added) := pc ▸ inv.writerOk
  have ready := inv.ready (by simp [pc, WriterPc.started, WriterPc.inside, WriterPc.ahead])
  have position : s.writeAt = s.ring.mem.next s.put.b := by simp [writeAt, pc, WriterPc.ahead]
  obtain ⟨before, fullEq⟩ : ∃ before, full = before ++ [s.put.b] :=
    List.getLast?_eq_some_iff.mp last
  have layout := inv.layout
  rw [position, fullEq] at layout
  have apart := new.apart
  rw [fullEq] at apart
  have grown := layout.splice new.chain new.nodup apart new.inside new.sizes new.empty
  have differ : s.put.b ≠ tail := fun same => apart tail (by simp) (by simp [same])
  have link : (Layout.spliced s.ring.mem s.put.b head tail
      (s.ring.mem.next s.put.b)).next s.put.b = head := by
    simp [Layout.spliced, Mem.next, Mem.modify_block_of_ne _ _ differ]
  refine ⟨init ++ [tail] ++ free, inv.write [] [] (List.append_nil _).symm (List.append_nil _).symm
    ?_ rfl ?_ (by simp) (List.forall_mem_nil _) (by simp)
    (settled_ready ready.1 ready.2 inv.settled.aligned inv.settled.grows) trivial ?_⟩
  · intro x _
    exact ⟨Layout.spliced_field Block.data (fun _ _ => rfl) s.ring.mem s.put.b head tail _ x,
      Layout.spliced_field Block.bytes (fun _ _ => rfl) s.ring.mem s.put.b head tail _ x⟩
  · rw [fullEq]
    show Layout _ _ s.readAt ((Layout.spliced s.ring.mem s.put.b head tail _).next s.put.b) _ _
    rw [link]
    exact grown
  · simp [unstored, pc, WriterPc.inside, WriterPc.ahead]

end Shared.Inv

/-- The tests before the input is taken. -/
theorem inv_writer_first {host : Host} (fits : host.Fits) {s t : Shared} {full free : List Nat}
    (inv : s.Inv full free) (first : s.writer.started = false) (step : writerStep host s = some t) :
    ∃ full free, t.Inv full free := by
  have set := inv.settled
  have spare : s.writer.ahead = false → free ≠ [] := inv.spare
  cases pc : s.writer with
  | testState =>
      simp only [writerStep, pc, Option.some.injEq] at step
      subst step
      refine ⟨full, free, ?_⟩
      split
      · next noinit =>
          refine inv.goto rfl rfl rfl ?_ (fun _ => spare (by simp [pc, WriterPc.ahead])) ?_
            noinit ?_
          · simp [Shared.writeAt, pc, WriterPc.ahead, WriterPc.inside]
          · refine ⟨set.aligned, set.grows, ?_, by rintro ⟨⟩,
              fun _ => ⟨(set.fresh noinit).1, fun _ => ?_⟩⟩
            · rintro (ready | setReady)
              · cases noinit.symm.trans ready
              · cases setReady
            · exact (set.fresh noinit).2 (by simp [pc])
          · simp [unstored, pc, WriterPc.inside, WriterPc.ahead]
      · next inited =>
          have ready : s.ring.state = .ready := by
            cases state : s.ring.state with
            | noinit => exact absurd state inited
            | ready => rfl
          refine inv.goto rfl rfl rfl ?_ (fun _ => spare (by simp [pc, WriterPc.ahead]))
            (settled_ready ready (set.sized (Or.inl ready)) set.aligned set.grows) trivial ?_
          · simp [Shared.writeAt, pc, WriterPc.ahead, WriterPc.inside]
          · simp [unstored, pc, WriterPc.inside, WriterPc.ahead]
  | init =>
      simp only [writerStep, pc] at step
      split at step
      · cases step
        exact ⟨[], inv.init_blocks fits pc⟩
      · cases step
  | setReady =>
      simp only [writerStep, pc, Option.some.injEq] at step
      subst step
      refine ⟨full, free, inv.goto rfl rfl rfl ?_ (fun _ => spare (by simp [pc, WriterPc.ahead]))
        (settled_ready rfl (set.sized (Or.inr pc)) set.aligned set.grows) trivial ?_⟩
      · simp [Shared.writeAt, pc, WriterPc.ahead, WriterPc.inside]
      · simp [unstored, pc, WriterPc.inside, WriterPc.ahead]
  | idle => simp [writerStep, pc] at step
  | _ => simp [pc, WriterPc.started, WriterPc.inside, WriterPc.ahead] at first

/-- A step of a writer past the first tests that leaves the blocks alone. -/
theorem Shared.Inv.goto_started {s : Shared} {full free : List Nat} (inv : s.Inv full free)
    {r : Ring} {c : WriteCall} {pc : WriterPc} (started : s.writer.started = true)
    (mem : r.mem = s.ring.mem) (rp : r.rp = s.ring.rp) (size : r.blockSize = s.ring.blockSize)
    (state : r.state = s.ring.state) (align : r.blockAlign = s.ring.blockAlign)
    (grows : 0 < r.blockRealloc)
    (position : writeAt { s with ring := r, put := c, writer := pc } = s.writeAt)
    (ahead : pc.ahead = false → free ≠ []) (ok : Threads.writerOk r c full free pc)
    (kept : unstored r.mem c pc = unstored s.ring.mem s.put s.writer) :
    Inv { s with ring := r, put := c, writer := pc } full free :=
  inv.goto mem rp size position ahead
    (settled_ready (state.trans (inv.ready started).1) (size ▸ (inv.ready started).2)
      (align ▸ inv.settled.aligned) grows) ok kept

theorem inv_writer_started {host : Host} (fits : host.Fits) {s t : Shared} {full free : List Nat}
    (inv : s.Inv full free) (started : s.writer.started = true)
    (step : writerStep host s = some t) : ∃ full free, t.Inv full free := by
  have spare : s.writer.ahead = false → free ≠ [] := inv.spare
  have grows := inv.settled.grows
  have ok := inv.writerOk
  cases pc : s.writer with
  | idle => simp [writerStep, pc] at step
  | testState => simp [pc, WriterPc.started, WriterPc.inside, WriterPc.ahead] at started
  | init => simp [pc, WriterPc.started, WriterPc.inside, WriterPc.ahead] at started
  | setReady => simp [pc, WriterPc.started, WriterPc.inside, WriterPc.ahead] at started
  | testLow | lowHit =>
      simp only [writerStep, pc, Option.some.injEq] at step
      subst step
      refine ⟨full, free, ?_⟩
      split <;> refine inv.goto_started started rfl rfl rfl rfl rfl grows ?_
        (fun _ => spare (by simp [pc, WriterPc.ahead])) trivial ?_ <;>
        simp [Shared.writeAt, unstored, pc, WriterPc.ahead, WriterPc.inside]
  | clearLow =>
      simp only [writerStep, pc, Option.some.injEq] at step
      subst step
      refine ⟨full, free, inv.goto_started started rfl rfl rfl rfl rfl grows ?_
        (fun _ => spare (by simp [pc, WriterPc.ahead])) trivial ?_⟩ <;>
        simp [Shared.writeAt, unstored, pc, WriterPc.ahead, WriterPc.inside]
  | loadWp =>
      simp only [writerStep, pc, Option.some.injEq] at step
      subst step
      have ready := inv.ready started
      refine ⟨full, free, inv.write [] s.put.data (List.append_nil _).symm rfl
        (fun _ _ => ⟨rfl, rfl⟩) rfl ?_ inv.ring (List.forall_mem_nil _)
        (fun _ => spare (by simp [pc, WriterPc.ahead]))
        (settled_ready ready.1 ready.2 inv.settled.aligned grows) trivial ?_⟩
      · have position : s.writeAt = s.ring.wp := by
          simp [Shared.writeAt, pc, WriterPc.ahead, WriterPc.inside]
        exact position ▸ inv.layout
      · simp [unstored, pc, WriterPc.ahead, WriterPc.inside]
  | size =>
      have position : s.writeAt = s.put.b := by
        simp [Shared.writeAt, pc, WriterPc.ahead, WriterPc.inside]
      obtain ⟨rest, freeEq⟩ := inv.free_eq (by simp [pc, WriterPc.ahead])
      simp only [writerStep, pc] at step
      split at step
      · next done =>
          cases step
          refine ⟨full, free, inv.goto_started started rfl rfl rfl rfl rfl grows ?_
            (fun _ => spare (by simp [pc, WriterPc.ahead])) done ?_⟩ <;>
            simp [Shared.writeAt, unstored, pc, WriterPc.ahead, WriterPc.inside]
      · next more =>
          cases step
          have size : s.ring.mem.size s.put.b = s.ring.blockSize :=
            inv.layout.sizes s.put.b (by simp [freeEq, position])
          have some : 0 < s.put.data.length := List.length_pos_iff.mpr more
          have sized := (inv.ready started).2
          refine ⟨full, free, inv.goto_started started rfl rfl rfl rfl rfl grows ?_
            (fun _ => spare (by simp [pc, WriterPc.ahead])) ?_ ?_⟩
          · simp [Shared.writeAt, pc, WriterPc.ahead, WriterPc.inside]
          · rw [size]
            constructor <;> split <;> omega
          · simp [unstored, pc, WriterPc.inside]
  | copy n =>
      simp only [writerStep, pc, Option.some.injEq] at step
      subst step
      exact ⟨full, free, inv.copied pc⟩
  | setBytes n =>
      simp only [writerStep, pc, Option.some.injEq] at step
      subst step
      exact ⟨_, inv.released pc⟩
  | loadNext =>
      simp only [writerStep, pc, Option.some.injEq] at step
      subst step
      rw [pc] at ok
      refine ⟨full, free, inv.goto_started started rfl rfl rfl rfl rfl grows ?_ (by rintro ⟨⟩)
        ⟨rfl, ok⟩ ?_⟩ <;>
        simp [Shared.writeAt, unstored, pc, WriterPc.ahead, WriterPc.inside]
  | testNext next =>
      rw [pc] at ok
      obtain ⟨rfl, last⟩ := ok
      have position : s.writeAt = s.ring.mem.next s.put.b := by
        simp [Shared.writeAt, pc, WriterPc.ahead]
      simp only [writerStep, pc] at step
      split at step
      · next empty =>
          cases step
          refine ⟨full, free, inv.goto_started started rfl rfl rfl rfl rfl grows ?_
            (fun _ => inv.spare_of_empty (position.symm ▸ empty)) trivial ?_⟩
          · rw [position]
            rfl
          · simp [unstored, pc, WriterPc.ahead, WriterPc.inside]
      · next filled =>
          cases step
          refine ⟨full, free, inv.goto_started started rfl rfl rfl rfl rfl grows ?_ (by rintro ⟨⟩)
            ⟨rfl, last (inv.full_of_filled (position.symm ▸ filled))⟩ ?_⟩ <;>
            simp [Shared.writeAt, unstored, pc, WriterPc.ahead, WriterPc.inside]
  | realloc next =>
      simp only [writerStep, pc, Option.some.injEq] at step
      subst step
      rw [pc] at ok
      have more : 0 < s.ring.blockRealloc * 2 := Nat.mul_pos grows Nat.two_pos
      refine ⟨full, free, inv.goto_started started rfl rfl rfl rfl rfl more ?_ (by rintro ⟨⟩)
        ⟨ok.1, ok.2, more⟩ ?_⟩
      · simp [Shared.writeAt, pc, WriterPc.ahead, Ring.doubleRealloc]
      · simp [unstored, pc, WriterPc.ahead, WriterPc.inside]
  | alloc next n =>
      obtain ⟨m, head, tail, added, result, inv'⟩ := inv.allocated fits pc
      cases result.symm.trans step
      exact ⟨full, free, inv'⟩
  | link next head tail added =>
      simp only [writerStep, pc, Option.some.injEq] at step
      subst step
      exact ⟨full, inv.linked pc⟩
  | addBytes =>
      simp only [writerStep, pc, Option.some.injEq] at step
      subst step
      rw [pc] at ok
      refine ⟨full, free, inv.goto_started started rfl rfl rfl rfl rfl grows ?_
        (fun _ => spare (by simp [pc, WriterPc.ahead])) ok ?_⟩ <;>
        simp [Shared.writeAt, unstored, pc, WriterPc.ahead, WriterPc.inside]
  | testHigh =>
      rw [pc] at ok
      simp only [writerStep, pc] at step
      split at step <;> cases step <;>
        refine ⟨full, free, inv.goto_started started rfl rfl rfl rfl rfl grows ?_
          (fun _ => spare (by simp [pc, WriterPc.ahead])) ok ?_⟩ <;>
        simp [Shared.writeAt, unstored, pc, WriterPc.ahead, WriterPc.inside]
  | storeWp =>
      simp only [writerStep, pc, Option.some.injEq] at step
      subst step
      rw [pc] at ok
      have done : s.put.data = [] := ok
      refine ⟨full, free, inv.goto_started started rfl rfl rfl rfl rfl grows ?_
        (fun _ => spare (by simp [pc, WriterPc.ahead])) trivial ?_⟩
      · simp [Shared.writeAt, pc, WriterPc.ahead, WriterPc.inside]
      · simp [unstored, pc, WriterPc.ahead, WriterPc.inside, done]

theorem inv_writer {host : Host} (fits : host.Fits) {s t : Shared} {full free : List Nat}
    (inv : s.Inv full free) (step : writerStep host s = some t) : ∃ full free, t.Inv full free := by
  cases started : s.writer.started with
  | true => exact inv_writer_started fits inv started step
  | false => exact inv_writer_first fits inv started step

end Bingewatch.Buffer.Threads
