import Bingewatch.Buffer.RingGrowth

/-!
# Reads in order while the ring grows

The reader takes bytes from the front of the full blocks and leaves a block when it is exhausted. As
long as it does not leave the block behind which the writer is about to link, it keeps the invariant
of the shared ring, so reads return the bytes in the order in which they were written, and between
calls the oldest unread byte is in the block at the read position (`apart_in_order`).
-/

set_option autoImplicit false

namespace Bingewatch.Buffer.Threads

open Foundation Machine

/-! ## The reader -/

namespace Shared.Inv

variable {s : Shared} {full free : List Nat}

/-- A step of the reader that leaves the blocks alone. -/
theorem goto_reader (inv : s.Inv full free) {r : Ring} {c : ReadCall} {pc : ReaderPc}
    {reports : List (IoStatus × List UInt8)} (mem : r.mem = s.ring.mem) (wp : r.wp = s.ring.wp)
    (size : r.blockSize = s.ring.blockSize) (state : r.state = s.ring.state)
    (align : r.blockAlign = s.ring.blockAlign) (realloc : r.blockRealloc = s.ring.blockRealloc)
    (position : readAt { s with ring := r, get := c, reader := pc } = s.readAt)
    (ok : Threads.readerOk s.ring.mem c.b full pc)
    (kept : reports.flatMap Prod.snd ++ collected { s with get := c, reader := pc } ++
      unread s.ring.mem pc full =
        s.delivered ++ s.collected ++ unread s.ring.mem s.reader full) :
    Inv { s with ring := r, get := c, reader := pc, reports := reports } full free := by
  have writes : writeAt { s with ring := r } = s.writeAt := by
    simp only [Shared.writeAt, mem, wp]
  refine ⟨?_, inv.ring, ?_, inv.spare, ⟨?_, ?_, ?_, ?_, ?_⟩, ?_, ?_, ?_⟩
  · show Layout r.mem r.blockSize (readAt { s with ring := r, get := c, reader := pc })
      (writeAt { s with ring := r }) full free
    rw [mem, size, position, writes]
    exact inv.layout
  · show ∀ x ∈ full, r.mem.bytes x ≤ (r.mem.data x).length
    rw [mem]
    exact inv.stored
  · exact align ▸ inv.settled.aligned
  · exact realloc ▸ inv.settled.grows
  · exact size ▸ state ▸ inv.settled.sized
  · exact state ▸ inv.settled.started
  · exact size ▸ state ▸ inv.settled.fresh
  · show Threads.writerOk r s.put full free s.writer
    rw [writerOk_congr mem size state]
    exact inv.writerOk
  · show Threads.readerOk r.mem c.b full pc
    rw [mem]
    exact ok
  · show s.written = reports.flatMap Prod.snd ++ collected { s with get := c, reader := pc } ++
      unread r.mem pc full ++ unstored r.mem s.put s.writer
    rw [mem, kept]
    exact inv.flow

/-- A reader at a block with bytes works on the first full block. -/
theorem head_full (inv : s.Inv full free) (bytes : s.ring.mem.bytes s.readAt ≠ 0) :
    full.head? = some s.readAt := by
  cases full with
  | nil =>
      have some : free ≠ [] := by simpa using inv.ring
      have start : s.readAt ∈ free := by
        rw [inv.layout.rp_eq_wp]
        exact inv.layout.toRp.start_mem some
      exact absurd (inv.layout.empty _ start) bytes
  | cons x rest => rw [inv.layout.rp_eq, List.head?_cons]

/-- A writer that has copied bytes to its block holds an empty block. -/
theorem holds_free (inv : s.Inv full free) {n : Nat} (pc : s.writer = .setBytes n) :
    s.put.b ∈ free := by
  obtain ⟨rest, freeEq⟩ := inv.free_eq (by simp [pc, WriterPc.ahead])
  have atB : s.writeAt = s.put.b := by simp [writeAt, pc, WriterPc.ahead, WriterPc.inside]
  simp [freeEq, atB]

/-- A change to a full block does not reach the bytes in the writer's hands. -/
theorem unstored_modify (inv : s.Inv full free) {b : Nat} (inFull : b ∈ full)
    (f : Block UInt8 → Block UInt8) :
    unstored (s.ring.mem.modify b f) s.put s.writer = unstored s.ring.mem s.put s.writer ∧
      ∀ n, s.writer = .setBytes n →
        (s.ring.mem.modify b f).data s.put.b = s.ring.mem.data s.put.b := by
  have same : ∀ n, s.writer = .setBytes n →
      (s.ring.mem.modify b f).data s.put.b = s.ring.mem.data s.put.b := by
    intro n pc
    have other : s.put.b ≠ b := fun same => (List.nodup_append.mp inv.layout.nodup).2.2 b inFull _
      (inv.holds_free pc) same.symm
    exact congrArg Block.data (Mem.modify_block_of_ne s.ring.mem f other)
  refine ⟨?_, same⟩
  cases pc : s.writer with
  | setBytes n =>
      show ((s.ring.mem.modify b f).data s.put.b).take n ++ s.put.data = _
      rw [same n pc]
      rfl
  | _ => rfl

/-- The writer does not notice a change to the bytes of a full block, or that one less is full,
unless it is about to link behind that block. -/
theorem writerOk_modify (inv : s.Inv full free) {b : Nat} {f : Block UInt8 → Block UInt8}
    {full' free' : List Nat} (inFull : b ∈ full)
    (next : (f (s.ring.mem.block b)).next = s.ring.mem.next b)
    (size : (f (s.ring.mem.block b)).size = s.ring.mem.size b)
    (members : ∀ x, x ∈ full' ++ free' ↔ x ∈ full ++ free)
    (last : full' ≠ [] → full'.getLast? = full.getLast?)
    (growing : ∀ x, s.growing = some x → full' ≠ []) :
    Threads.writerOk { s.ring with mem := s.ring.mem.modify b f } s.put full' free' s.writer := by
  have links : ∀ x, (s.ring.mem.modify b f).next x = s.ring.mem.next x :=
    Mem.modify_field Block.next s.ring.mem b f next
  have sizes : ∀ x, (s.ring.mem.modify b f).size x = s.ring.mem.size x :=
    Mem.modify_field Block.size s.ring.mem b f size
  have some : full ≠ [] := List.ne_nil_of_mem inFull
  have ok := inv.writerOk
  cases pc : s.writer with
  | setBytes n =>
      rw [pc] at ok
      refine ⟨ok.1, ?_⟩
      show n ≤ ((s.ring.mem.modify b f).data s.put.b).length
      rw [(inv.unstored_modify inFull f).2 n pc]
      exact ok.2
  | loadNext =>
      rw [pc] at ok
      exact fun left => (last left).trans (ok some)
  | testNext next =>
      rw [pc] at ok
      exact ⟨ok.1.trans (links s.put.b).symm, fun left => (last left).trans (ok.2 some)⟩
  | realloc next =>
      rw [pc] at ok
      have left := growing s.put.b (by simp [Shared.growing, pc])
      exact ⟨ok.1.trans (links s.put.b).symm, (last left).trans ok.2⟩
  | alloc next n =>
      rw [pc] at ok
      have left := growing s.put.b (by simp [Shared.growing, pc])
      exact ⟨ok.1.trans (links s.put.b).symm, (last left).trans ok.2.1, ok.2.2⟩
  | link next head tail added =>
      rw [pc] at ok
      have left := growing s.put.b (by simp [Shared.growing, pc])
      obtain ⟨nextEq, lastEq, init, new⟩ := ok
      refine ⟨nextEq.trans (links s.put.b).symm, (last left).trans lastEq, init, ?_⟩
      refine ⟨new.chain.congr fun y _ => links y, new.nodup, ?_, new.inside, ?_, ?_⟩
      · exact fun y member inRing => new.apart y member ((members y).mp inRing)
      · exact fun y member => (sizes y).trans (new.sizes y member)
      · intro y member
        have other : y ≠ b := fun same =>
          new.apart y member (List.mem_append_left _ (same ▸ inFull))
        have block := Mem.modify_block_of_ne s.ring.mem f other
        exact (congrArg Block.bytes block).trans (new.empty y member)
  | copy n =>
      rw [pc] at ok
      exact ok
  | init =>
      rw [pc] at ok
      exact ok
  | addBytes =>
      rw [pc] at ok
      exact ok
  | testHigh =>
      rw [pc] at ok
      exact ok
  | storeWp =>
      rw [pc] at ok
      exact ok
  | _ => trivial

/-- **A step of the reader on its block.** -/
theorem read (inv : s.Inv full free) {f : Block UInt8 → Block UInt8} {c : ReadCall}
    {pc : ReaderPc} {full' free' : List Nat} (inFull : s.get.b ∈ full)
    (next : (f (s.ring.mem.block s.get.b)).next = s.ring.mem.next s.get.b)
    (size : (f (s.ring.mem.block s.get.b)).size = s.ring.mem.size s.get.b)
    (layout : Layout (s.ring.mem.modify s.get.b f) s.ring.blockSize
      (readAt { s with get := c, reader := pc }) s.writeAt full' free')
    (members : ∀ x, x ∈ full' ++ free' ↔ x ∈ full ++ free)
    (stored : ∀ x ∈ full', (s.ring.mem.modify s.get.b f).bytes x ≤
      ((s.ring.mem.modify s.get.b f).data x).length)
    (spare : free ≠ [] → free' ≠ [])
    (last : full' ≠ [] → full'.getLast? = full.getLast?)
    (growing : ∀ x, s.growing = some x → full' ≠ [])
    (ok : Threads.readerOk (s.ring.mem.modify s.get.b f) c.b full' pc)
    (kept : collected { s with get := c, reader := pc } ++
      unread (s.ring.mem.modify s.get.b f) pc full' =
        s.collected ++ unread s.ring.mem s.reader full) :
    Inv { s with ring := { s.ring with mem := s.ring.mem.modify s.get.b f }, get := c,
                 reader := pc } full' free' := by
  have links : ∀ x, (s.ring.mem.modify s.get.b f).next x = s.ring.mem.next x :=
    Mem.modify_field Block.next s.ring.mem s.get.b f next
  have writes : writeAt { s with ring := { s.ring with mem := s.ring.mem.modify s.get.b f } } =
      s.writeAt := by
    simp only [Shared.writeAt, links]
  have notFresh : s.ring.state ≠ .noinit := by
    intro noinit
    rw [(inv.settled.fresh noinit).1] at inFull
    cases inFull
  refine ⟨?_, ?_, stored, fun ahead => spare (inv.spare ahead),
    ⟨inv.settled.aligned, inv.settled.grows, inv.settled.sized, inv.settled.started,
      fun noinit => absurd noinit notFresh⟩,
    inv.writerOk_modify inFull next size members last growing, ok, ?_⟩
  · show Layout _ _ _ (writeAt { s with ring := { s.ring with mem := _ } }) full' free'
    rw [writes]
    exact layout
  · exact List.ne_nil_of_mem ((members s.get.b).mpr (List.mem_append_left _ inFull))
  · show s.written = s.delivered ++ collected { s with get := c, reader := pc } ++
      unread (s.ring.mem.modify s.get.b f) pc full' ++
      unstored (s.ring.mem.modify s.get.b f) s.put s.writer
    rw [(inv.unstored_modify inFull f).1, List.append_assoc s.delivered, kept,
      ← List.append_assoc s.delivered]
    exact inv.flow

/-- The reader's block is the first full one. -/
theorem full_eq {b : Nat} (head : full.head? = some b) : ∃ rest, full = b :: rest :=
  List.head?_eq_some_iff.mp head

/-- What a change to the reader's block does to the other full blocks: nothing. -/
theorem contents_rest {b : Nat} {rest : List Nat} (inv : s.Inv (b :: rest) free)
    (f : Block UInt8 → Block UInt8) :
    contents (s.ring.mem.modify b f) rest = contents s.ring.mem rest :=
  contents_modify (List.nodup_cons.mp (List.nodup_append.mp inv.layout.nodup).1).1

/-- The full blocks after a change to the first that keeps it full. -/
theorem stored_modify {b : Nat} {rest : List Nat} (inv : s.Inv (b :: rest) free)
    {f : Block UInt8 → Block UInt8}
    (here : (f (s.ring.mem.block b)).bytes ≤ (f (s.ring.mem.block b)).data.length) :
    ∀ x ∈ b :: rest, (s.ring.mem.modify b f).bytes x ≤ ((s.ring.mem.modify b f).data x).length := by
  intro x member
  by_cases same : x = b
  · subst same
    simpa [Mem.bytes, Mem.data] using here
  · rw [Mem.bytes, Mem.data, Mem.modify_block_of_ne _ _ same]
    exact inv.stored x member

/-- A change to the reader's block that keeps it full keeps the layout. -/
theorem layout_modify {b : Nat} {rest : List Nat} (inv : s.Inv (b :: rest) free)
    {f : Block UInt8 → Block UInt8} (position : s.readAt = b)
    (next : (f (s.ring.mem.block b)).next = s.ring.mem.next b)
    (size : (f (s.ring.mem.block b)).size = s.ring.mem.size b)
    (filled : 0 < (f (s.ring.mem.block b)).bytes) :
    Layout (s.ring.mem.modify b f) s.ring.blockSize b s.writeAt (b :: rest) free := by
  have layout := inv.layout
  rw [position] at layout
  refine layout.modify next size (fun _ => filled) fun inFree => ?_
  exact absurd rfl ((List.nodup_append.mp layout.nodup).2.2 b (by simp) b inFree)

/-- The reader copies the first bytes of its block. -/
theorem collects (inv : s.Inv full free) {n : Nat} {partialRead : Bool}
    (pc : s.reader = .copy n partialRead) :
    Inv { s with
      get :=
        { s.get with
          out := s.get.out ++ (s.ring.mem.data s.get.b).take n
          remaining := s.get.remaining - n }
      reader := if partialRead then .move n else .take n false } full free := by
  have ok : Threads.readerOk s.ring.mem s.get.b full (.copy n partialRead) := pc ▸ inv.readerOk
  have position : s.readAt = s.get.b := by simp [readAt, pc, ReaderPc.outside]
  cases partialRead with
  | true =>
      obtain ⟨head, less⟩ := ok
      obtain ⟨rest, rfl⟩ := full_eq head
      have split : (s.ring.mem.data s.get.b).take n ++ (content s.ring.mem s.get.b).drop n =
          content s.ring.mem s.get.b := by
        have front : (s.ring.mem.data s.get.b).take n = (content s.ring.mem s.get.b).take n := by
          rw [content, List.take_take, Nat.min_eq_left (Nat.le_of_lt less)]
        rw [front, List.take_append_drop]
      refine inv.goto_reader rfl rfl rfl rfl rfl rfl position.symm ⟨head, less⟩ ?_
      have moves : (s.ring.mem.data s.get.b).take n ++ ((content s.ring.mem s.get.b).drop n ++
          contents s.ring.mem rest) = content s.ring.mem s.get.b ++ contents s.ring.mem rest := by
        rw [← List.append_assoc, split]
      simpa [unread, headUnread, pc, collected, delivered] using moves
  | false =>
      obtain ⟨head, rfl⟩ := ok
      obtain ⟨rest, rfl⟩ := full_eq head
      refine inv.goto_reader rfl rfl rfl rfl rfl rfl position.symm ⟨head, rfl⟩ ?_
      simp [unread, headUnread, pc, collected, delivered, content]

/-- The reader moves the rest of a block it does not exhaust to the front. -/
theorem moved (inv : s.Inv full free) {n : Nat} (pc : s.reader = .move n) :
    Inv { s with ring := { s.ring with mem := s.ring.mem.modify s.get.b (shiftData n) },
                 reader := .take n true } full free := by
  obtain ⟨head, more⟩ : Threads.readerOk s.ring.mem s.get.b full (.move n) := pc ▸ inv.readerOk
  obtain ⟨rest, rfl⟩ := full_eq head
  have stored := inv.stored s.get.b (by simp)
  have filled := inv.layout.filled s.get.b (by simp)
  have position : s.readAt = s.get.b := by simp [readAt, pc, ReaderPc.outside]
  refine inv.read (c := s.get) (by simp) rfl rfl (inv.layout_modify position rfl rfl filled)
    (fun _ => Iff.rfl) (inv.stored_modify ?_) (fun some => some) (fun _ => rfl) (fun _ _ => by simp)
    ⟨rfl, ?_⟩ ?_
  · simp only [Mem.bytes, Mem.data] at stored more
    simp only [shiftData, List.length_append, List.length_take, List.length_drop]
    omega
  · simpa [Mem.bytes, shiftData] using more
  · have shifted : ((s.ring.mem.modify s.get.b (shiftData n)).data s.get.b).take
        ((s.ring.mem.modify s.get.b (shiftData n)).bytes s.get.b - n) =
        (content s.ring.mem s.get.b).drop n := by
      simp only [Mem.data, Mem.bytes, Mem.modify_block_self, shiftData, content]
      exact shift_take (Nat.le_of_lt more) stored
    simp only [unread, headUnread, pc, collected, inv.contents_rest, shifted]
    simp

/-- The reader takes bytes from a block it does not exhaust. -/
theorem taken (inv : s.Inv full free) {n : Nat} (pc : s.reader = .take n true) :
    Inv { s with ring := { s.ring with mem := s.ring.mem.modify s.get.b (takeBytes n) },
                 reader := .loop } full free := by
  obtain ⟨head, more⟩ : Threads.readerOk s.ring.mem s.get.b full (.take n true) :=
    pc ▸ inv.readerOk
  obtain ⟨rest, rfl⟩ := full_eq head
  have stored := inv.stored s.get.b (by simp)
  have position : s.readAt = s.get.b := by simp [readAt, pc, ReaderPc.outside]
  have left : 0 < (s.ring.mem.block s.get.b).bytes - n := Nat.sub_pos_of_lt more
  refine inv.read (c := s.get) (by simp) rfl rfl (inv.layout_modify position rfl rfl left)
    (fun _ => Iff.rfl) (inv.stored_modify (Nat.le_trans (Nat.sub_le _ _) stored))
    (fun some => some) (fun _ => rfl) (fun _ _ => by simp) trivial ?_
  have rest : content (s.ring.mem.modify s.get.b (takeBytes n)) s.get.b =
      (s.ring.mem.data s.get.b).take (s.ring.mem.bytes s.get.b - n) := by
    simp [content, Mem.data, Mem.bytes, takeBytes]
  simp only [unread, headUnread, pc, collected, inv.contents_rest, rest]
  simp

/-- **The reader exhausts its block and leaves it.** The writer is not about to link behind it. -/
theorem exhausted (inv : s.Inv full free) {n : Nat} (pc : s.reader = .take n false)
    (apart : ∀ x, s.growing = some x → x ≠ s.get.b) :
    ∃ rest, Inv { s with
        ring := { s.ring with mem := s.ring.mem.modify s.get.b (takeBytes n) }
        get := { s.get with b := (s.ring.mem.modify s.get.b (takeBytes n)).next s.get.b }
        reader := .loop } rest (free ++ [s.get.b]) := by
  obtain ⟨head, rfl⟩ : Threads.readerOk s.ring.mem s.get.b full (.take n false) :=
    pc ▸ inv.readerOk
  obtain ⟨rest, rfl⟩ := full_eq head
  have position : s.readAt = s.get.b := by simp [readAt, pc, ReaderPc.outside]
  have link : (s.ring.mem.modify s.get.b (takeBytes (s.ring.mem.bytes s.get.b))).next s.get.b =
      s.ring.mem.next s.get.b := Mem.modify_field Block.next s.ring.mem s.get.b _ rfl s.get.b
  have nodup := List.nodup_cons.mp (List.nodup_append.mp inv.layout.nodup).1
  refine ⟨rest, inv.read (by simp) rfl rfl ?_ ?_ ?_ (fun _ => by simp) ?_ ?_ trivial ?_⟩
  · have drained := inv.layout.drain (f := takeBytes (s.ring.mem.bytes s.get.b)) rfl rfl
      (Nat.sub_self _)
    rw [← link] at drained
    exact drained
  · intro x
    simp only [List.mem_append, List.mem_cons, List.not_mem_nil, or_false]
    constructor
    · rintro (inRest | inFree | rfl)
      · exact Or.inl (Or.inr inRest)
      · exact Or.inr inFree
      · exact Or.inl (Or.inl rfl)
    · rintro ((rfl | inRest) | inFree)
      · exact Or.inr (Or.inr rfl)
      · exact Or.inl inRest
      · exact Or.inr (Or.inl inFree)
  · intro x member
    have other : x ≠ s.get.b := fun same => nodup.1 (same ▸ member)
    rw [Mem.bytes, Mem.data, Mem.modify_block_of_ne _ _ other]
    exact inv.stored x (List.mem_cons_of_mem _ member)
  · intro left
    obtain ⟨y, ys, rfl⟩ := List.exists_cons_of_ne_nil left
    rw [List.getLast?_cons_cons]
  · -- A growing writer stands at the last full block, which is not this one.
    rintro x grows rfl
    have ok := inv.writerOk
    have last : [s.get.b].getLast? = some s.put.b := by
      cases here : s.writer with
      | realloc next => rw [here] at ok; exact ok.2
      | alloc next k => rw [here] at ok; exact ok.2.1
      | link next head tail added => rw [here] at ok; exact ok.2.1
      | _ => simp [growing, here] at grows
    have same : x = s.put.b := by
      cases here : s.writer <;> simp_all [growing]
    exact apart x grows (by simpa [same] using last.symm)
  · have rest' : unread (s.ring.mem.modify s.get.b (takeBytes (s.ring.mem.bytes s.get.b))) .loop
        rest = contents s.ring.mem rest := by
      rw [← inv.contents_rest (takeBytes (s.ring.mem.bytes s.get.b))]
      cases rest with
      | nil => rfl
      | cons y ys => rfl
    rw [rest']
    simp only [pc, collected, unread, headUnread]
    simp

end Shared.Inv

theorem inv_reader {s t : Shared} {full free : List Nat} (inv : s.Inv full free)
    (apart : Apart s .reader) (step : readerStep s = some t) : ∃ full free, t.Inv full free := by
  have ok := inv.readerOk
  cases pc : s.reader with
  | idle => simp [readerStep, pc] at step
  | loadRp | loadFlush | testMin | subBytes =>
      simp only [readerStep, pc, Option.some.injEq] at step
      subst step
      refine ⟨full, free, inv.goto_reader rfl rfl rfl rfl rfl rfl ?_ trivial ?_⟩
      · simp [Shared.readAt, pc, ReaderPc.outside]
      · simp [Shared.collected, Shared.delivered, unread, headUnread, pc]
  | loop =>
      have position : s.readAt = s.get.b := by simp [Shared.readAt, pc, ReaderPc.outside]
      have next : ∀ pc', ReaderPc.outside pc' = false → pc' ≠ .idle →
          readerOk s.ring.mem s.get.b full pc' →
          (∀ x, headUnread s.ring.mem x pc' = content s.ring.mem x) →
          Shared.Inv { s with reader := pc' } full free := by
        intro pc' inside busy knows same
        refine inv.goto_reader rfl rfl rfl rfl rfl rfl ?_ knows ?_
        · rw [position]
          simp [Shared.readAt, inside]
        · rw [unread_eq_contents same, pc, unread_eq_contents fun _ => rfl]
          simp [Shared.collected, Shared.delivered, pc, busy]
      simp only [readerStep, pc] at step
      split at step
      · cases step
        exact ⟨full, free, next .subBytes rfl (by rintro ⟨⟩) trivial fun _ => rfl⟩
      · split at step
        · cases step
          exact ⟨full, free, next .subBytes rfl (by rintro ⟨⟩) trivial fun _ => rfl⟩
        · next filled =>
            have head := inv.head_full (position.symm ▸ filled)
            rw [position] at head
            split at step
            · next less =>
                cases step
                exact ⟨full, free, next _ rfl (by rintro ⟨⟩) ⟨head, less⟩ fun _ => rfl⟩
            · cases step
              exact ⟨full, free, next _ rfl (by rintro ⟨⟩) ⟨head, rfl⟩ fun _ => rfl⟩
  | copy n partialRead =>
      simp only [readerStep, pc, Option.some.injEq] at step
      subst step
      exact ⟨full, free, inv.collects pc⟩
  | move n =>
      simp only [readerStep, pc, Option.some.injEq] at step
      subst step
      exact ⟨full, free, inv.moved pc⟩
  | take n partialRead =>
      simp only [readerStep, pc, Option.some.injEq] at step
      subst step
      cases partialRead with
      | true => exact ⟨full, free, inv.taken pc⟩
      | false =>
          have other : ∀ x, s.growing = some x → x ≠ s.get.b := by
            rintro x grows rfl
            rcases apart with none | differ
            · rw [none] at grows
              cases grows
            · exact differ (by simp [grows, Shared.leaving, pc])
          obtain ⟨rest, inv'⟩ := inv.exhausted pc other
          exact ⟨rest, _, inv'⟩
  | storeRp =>
      have position : s.readAt = s.get.b := by simp [Shared.readAt, pc, ReaderPc.outside]
      simp only [readerStep, pc] at step
      split at step <;> cases step <;>
        refine ⟨full, free, inv.goto_reader rfl rfl rfl rfl rfl rfl ?_ trivial ?_⟩
      · rw [position]
        rfl
      · simp [Shared.collected, Shared.delivered, unread, headUnread, pc]
      · rw [position]
        rfl
      · simp [Shared.collected, Shared.delivered, unread, headUnread, pc]

/-! ## Runs -/

/-- A new ring holds nothing. -/
theorem inv_start {host : Host} {s : Shared} (start : (ringSystem host).start s) :
    ∃ full free, s.Inv full free := by
  obtain ⟨align, high, minimum, flush, aligned, rfl⟩ := start
  obtain ⟨free, ⟨body, spare, count, ready, fresh⟩⟩ := createBuffer_shape
  have noinit : createBuffer.state = .noinit := rfl
  refine ⟨[], free, body.layout, by simpa using spare, List.forall_mem_nil _, fun _ => spare,
    ⟨aligned, body.grows, ?_, by rintro ⟨⟩, fun _ => ⟨rfl, fun _ => (fresh noinit).2⟩⟩,
    trivial, trivial, rfl⟩
  rintro (ready | setReady)
  · cases noinit.symm.trans ready
  · cases setReady

/-- The invariant holds wherever a run goes in which the reader does not leave the block behind
which the writer is about to link. -/
theorem inv_reach {host : Host} (fits : host.Fits) {s : Shared}
    (reached : (ringSystem host).ReachUnder Apart s) : ∃ full free, s.Inv full free := by
  refine reached.invariant (fun _ => inv_start) fun s a t inv apart step => ?_
  obtain ⟨full, free, inv⟩ := inv
  cases a with
  | write data =>
      simp only [ringSystem, sharedStep] at step
      split at step
      · next idle =>
          cases step
          refine ⟨full, free, inv.goto rfl rfl rfl ?_
            (fun _ => inv.spare (by simp [idle, WriterPc.ahead]))
            ⟨inv.settled.aligned, inv.settled.grows, ?_, by rintro ⟨⟩, ?_⟩ trivial ?_⟩
          · simp [Shared.writeAt, idle, WriterPc.ahead, WriterPc.inside]
          · rintro (ready | setReady)
            · exact inv.settled.sized (Or.inl ready)
            · cases setReady
          · exact fun noinit => ⟨(inv.settled.fresh noinit).1,
              fun _ => (inv.settled.fresh noinit).2 (by simp [idle])⟩
          · simp [unstored, idle, WriterPc.ahead, WriterPc.inside]
      · cases step
  | read request =>
      simp only [ringSystem, sharedStep] at step
      split at step
      · next idle =>
          cases step
          refine ⟨full, free, inv.goto_reader rfl rfl rfl rfl rfl rfl ?_ trivial ?_⟩
          · simp [Shared.readAt, idle, ReaderPc.outside]
          · rw [idle, unread_eq_contents fun _ => rfl, unread_eq_contents fun _ => rfl]
            simp [Shared.collected, Shared.delivered, idle]
      · cases step
  | writer => exact inv_writer fits inv step
  | reader => exact inv_reader inv apart step

/-- With the invariant the reads are in order and the oldest byte is at the read position. -/
theorem Shared.Inv.inOrder {s : Shared} {full free : List Nat} (inv : s.Inv full free) :
    s.InOrder := by
  constructor
  · rw [inv.flow]
    simp only [List.append_assoc]
    exact List.prefix_append _ _
  · rintro writes reads ⟨k, holds⟩
    have here : s.readAt = s.ring.rp := by simp [readAt, reads, ReaderPc.outside]
    have member := (inv.layout.mem_iff_reachable inv.ring).mpr ⟨k, rfl⟩
    rw [here] at member
    have inFull := (List.mem_append.mp member).resolve_right fun inFree =>
      holds (inv.layout.empty _ inFree)
    obtain ⟨x, rest, rfl⟩ := List.exists_cons_of_ne_nil (List.ne_nil_of_mem inFull)
    obtain rfl : s.ring.rp = x := here.symm.trans inv.layout.rp_eq
    have filled := inv.layout.filled s.ring.rp (by simp)
    have stored := inv.stored s.ring.rp (by simp)
    refine ⟨Nat.pos_iff_ne_zero.mp filled, ?_, ?_⟩
    · intro none
      have length := congrArg List.length none
      rw [content, List.length_take, List.length_nil] at length
      omega
    · have flow := inv.flow
      rw [reads] at flow
      simp only [collected, reads, if_true, List.append_nil, unread, headUnread] at flow
      rw [flow]
      simp only [List.append_assoc]
      rw [← List.append_assoc]
      exact List.prefix_append _ _

/-- **No stranded data while the ring grows.** With allocations that succeed, in every run in which
the reader never exhausts and leaves a block behind which the writer is about to link new blocks,
the bytes come out in the order in which they were written, and between calls the oldest unread byte
is in the block at the read position. -/
theorem apart_in_order (host : Host) (fits : host.Fits) (s : Shared)
    (reached : (ringSystem host).ReachUnder Apart s) : s.InOrder := by
  obtain ⟨full, free, inv⟩ := inv_reach fits reached
  exact inv.inOrder

/-- A host with memory for one block at a time. -/
def tightHost : Host where
  freeram := fun _ size => size + 1
  lowWater := fun _ _ => 0

theorem tightHost_fits : tightHost.Fits := fun _ size => Nat.lt_succ_self size

/-- A new ring whose blocks hold as many bytes as its first write. -/
def newShared : Shared := { ring := { createBuffer with blockAlign := 1 } }

theorem newShared_start : (ringSystem tightHost).start newShared :=
  ⟨1, 0, 0, false, Nat.one_pos, rfl⟩

/-- A write that grows the ring, and then a read. -/
theorem apart_in_order_grown : ∃ s, (ringSystem tightHost).ReachUnder Apart s ∧ s.InOrder ∧
    s.delivered = [7] := by
  let acts := [Act.write [7]] ++ List.replicate 17 Act.writer ++ [Act.read 1] ++
    List.replicate 9 Act.reader
  have run : ((ringSystem tightHost).execUnder Apart newShared acts).map
      (fun s => (s.writer, s.reader, s.delivered)) = some (.idle, .idle, [7]) := by decide +kernel
  obtain ⟨s, run, ends⟩ := Option.map_eq_some_iff.mp run
  have reached := (System.ReachUnder.start newShared_start).execUnder run
  refine ⟨s, reached, apart_in_order tightHost tightHost_fits s reached, ?_⟩
  simp only [Prod.mk.injEq] at ends
  exact ends.2.2

/-- **The reader laps the writer.** A ring of one block: the writer fills it and finds the next
block, the same one, full; the reader empties the block and stays at it; the writer links a new
block behind it and writes there, and the reader waits at the empty block before it. -/
theorem lapped_while_growing :
    ∃ s, (ringSystem tightHost).Reach s ∧ ¬ s.InOrder := by
  let acts := [Act.write [7]] ++ List.replicate 10 Act.writer ++ [Act.read 1] ++
    List.replicate 9 Act.reader ++ List.replicate 7 Act.writer ++ [Act.write [8]] ++
    List.replicate 12 Act.writer
  have run : ((ringSystem tightHost).exec newShared acts).map
      (fun s => (s.writer, s.reader, s.ring.mem.bytes s.ring.rp,
        s.ring.mem.bytes (s.ring.mem.next s.ring.rp))) = some (.idle, .idle, 0, 1) := by
    decide +kernel
  obtain ⟨s, run, ends⟩ := Option.map_eq_some_iff.mp run
  have reached : (ringSystem tightHost).Reach s := .exec (.start newShared_start) run
  refine ⟨s, reached, fun order => ?_⟩
  simp only [Prod.mk.injEq] at ends
  obtain ⟨writer, reader, empty, holds⟩ := ends
  exact (order.reachable writer reader ⟨1, by simp [holds]⟩).1 empty

end Bingewatch.Buffer.Threads
