import Bingewatch.Buffer.RingOrder
import Bingewatch.Buffer.RingQueue

/-!
# Calls on a shared ring, one access at a time

The atomic calls of `Ring.call` are what a caller of the library sees. Here a call takes many turns:
`machine_desc_read` and `machine_desc_write` test the state of their side, and then every access of
`buf_read` and `buf_write` to the ring is a turn of its own, so that the two threads of a ring
interleave freely. `stop_buffer` makes two stores, each a turn.

Seen from outside, the ring is a byte queue all the while (`Sharing`). Only two turns change the
queue: the writer's store of a block's byte count adds the bytes of that block, and the return of a
read takes the bytes it delivers. All others leave it alone.
-/

set_option autoImplicit false

namespace Bingewatch.Buffer.Threads

open Foundation Machine

/-! ## Turns -/

/-- A turn of `machine_desc_read`: the test of the read side, or a step of `buf_read`. The call goes
on until it has an answer. -/
def Shared.readTurn (s : Shared) (request : Nat) :
    Option (Shared × Option (IoStatus × List UInt8)) :=
  match s.reader with
  | .idle =>
      (machineDescIo (fun s => some s.ring.ioRead)
        (fun s side => { s with ring := { s.ring with ioRead := side } }) (some []) (some [])
        (fun s => some ({ s with get := { remaining := request }, reader := .loadRp },
          .success, none)) s).map
        fun (s, status, bytes) => (s, bytes.map fun bytes => (status, bytes))
  | _ => (readerStep s).map fun t => (t, if t.reader = .idle then t.reports.getLast? else none)

/-- What a write reports that returns from the place where the writer stands. A write that fails
leaves the byte count it was given. -/
def Shared.wrote (s : Shared) : IoStatus × Nat :=
  match s.writer with
  | .init => (.error, s.put.data.length)
  | .lowHit => (.nodata, 0)
  | .clearLow => (.nodata, 0)
  | _ => (.success, s.put.written)

/-- A turn of `machine_desc_write`: the test of the write side, or a step of `buf_write`. -/
def Shared.writeTurn (host : Host) (s : Shared) (data : List UInt8) :
    Option (Shared × Option (IoStatus × Nat)) :=
  match s.writer with
  | .idle =>
      (machineDescIo (fun s => some s.ring.ioWrite)
        (fun s side => { s with ring := { s.ring with ioWrite := side } }) (some 0)
        (some data.length)
        (fun s => some ({ s with put := { data := data }, writer := .testState },
          .success, none)) s).map
        fun (s, status, count) => (s, count.map fun count => (status, count))
  | _ => (writerStep host s).map fun t => (t, if t.writer = .idle then some s.wrote else none)

/-- The first store of `stop_buffer`. -/
def Shared.disableWriting (s : Shared) : Shared :=
  { s with ring := { s.ring with ioWrite := .disabling } }

/-- The second store of `stop_buffer`. -/
def Shared.setFlush (s : Shared) : Shared := { s with ring := { s.ring with flush := true } }

/-- The write side takes no more calls. -/
def Shared.Silenced (s : Shared) : Prop :=
  s.ring.ioWrite = .disabling ∨ s.ring.ioWrite = .disabled

/-! ## What the threads know -/

/-- The bytes of a write's input that the reader cannot see yet. -/
def Shared.held (s : Shared) (input : List UInt8) : List UInt8 :=
  if s.writer.inside then unstored s.ring.mem s.put s.writer else input

/-- A read that has found the ring in flush and copied nothing has found it empty. -/
def readOk (c : ReadCall) (content : List UInt8) : ReaderPc → Prop
  | .idle => True
  | .copy n _ => 0 < n
  | .move _ => c.out ≠ []
  | .take _ _ => c.out ≠ []
  | .subBytes => c.flush = true → c.out = [] → content = []
  | .storeRp => c.flush = true → c.out = [] → content = []
  | _ => c.out = [] → 0 < c.remaining

/-- The reader has looked at the flush flag. -/
def ReaderPc.looked : ReaderPc → Bool
  | .idle => false
  | .loadRp => false
  | .loadFlush => false
  | _ => true

/-- A write has copied what is no longer among its data, and a write without marks neither fails nor
is refused. -/
def writeOk (c : WriteCall) (input : List UInt8) : WriterPc → Prop
  | .idle => True
  | .testState => c.data = input ∧ c.written = 0 ∧ input ≠ []
  | .init => c.data = input ∧ c.written = 0 ∧ input ≠ []
  | .setReady => c.data = input ∧ c.written = 0
  | .testLow => c.data = input ∧ c.written = 0
  | .lowHit => False
  | .clearLow => False
  | .loadWp => c.data = input ∧ c.written = 0
  | _ => c.written + c.data.length = input.length

/-- **A shared ring is a byte queue.** The queue holds the bytes written and not yet returned that
are no longer in the writer's hands; once it is stopped no write is under way. -/
structure Sharing (s : Shared) (input : List UInt8) (b : ByteQueue) : Prop where
  shape : ∃ full free, s.Inv full free
  flow : s.written = s.delivered ++ b.content ++ unstored s.ring.mem s.put s.writer
  noHigh : s.ring.highWaterMark = 0
  noLow : s.ring.lowWaterMark = 0
  unlimited : s.ring.minReturnSize = 0
  flush : s.ring.flush = b.stopped
  silent : b.stopped = true → s.writer = .idle ∧ s.Silenced
  sides : s.ring.ioRead ≠ .stopped ∧ s.ring.ioWrite ≠ .stopped
  seen : s.reader.looked = true → s.get.flush = true → b.stopped = true
  reading : readOk s.get b.content s.reader
  writing : writeOk s.put input s.writer

/-! ## The writer -/

section Writer

variable {host : Host} {s t : Shared}

/-- On a ring without marks a step of the writer leaves the settings, the sides and the reader
alone. -/
theorem writerStep_keeps (noHigh : s.ring.highWaterMark = 0) (noLow : s.ring.lowWaterMark = 0)
    (step : writerStep host s = some t) :
    s.ring.Keeps t.ring ∧ t.reader = s.reader ∧ t.get = s.get ∧ t.reports = s.reports := by
  cases pc : s.writer with
  | idle => simp [writerStep, pc] at step
  | init =>
      simp only [writerStep, pc] at step
      split at step
      · cases step
        refine ⟨?_, rfl, rfl, rfl⟩
        simp only [rbDataInit]
        split <;> exact ⟨rfl, rfl, rfl, rfl, rfl, rfl, rfl⟩
      · cases step
  | clearLow =>
      simp only [writerStep, pc] at step
      cases step
      exact ⟨⟨rfl, rfl, rfl, rfl, rfl, noLow.symm, rfl⟩, rfl, rfl, rfl⟩
  | testHigh =>
      simp only [writerStep, pc] at step
      rw [if_neg fun both => both.1 noHigh] at step
      cases step
      exact ⟨⟨rfl, rfl, rfl, rfl, rfl, rfl, rfl⟩, rfl, rfl, rfl⟩
  | lowHit | size | testNext =>
      simp only [writerStep, pc] at step
      split at step <;> cases step <;> exact ⟨⟨rfl, rfl, rfl, rfl, rfl, rfl, rfl⟩, rfl, rfl, rfl⟩
  | _ =>
      simp only [writerStep, pc] at step
      cases step
      exact ⟨⟨rfl, rfl, rfl, rfl, rfl, rfl, rfl⟩, rfl, rfl, rfl⟩

/-- A step of the writer stores a piece of what it holds where the reader sees it; when the write
returns nothing is left in its hands. -/
structure Stores (s t : Shared) (input piece : List UInt8) : Prop where
  flow : ∀ front, s.written = front ++ unstored s.ring.mem s.put s.writer →
    t.written = front ++ piece ++ unstored t.ring.mem t.put t.writer
  held : t.writer ≠ .idle → s.held input = piece ++ t.held input
  writing : writeOk t.put input t.writer
  returns : t.writer = .idle → piece = [] ∧ s.wrote = (.success, input.length) ∧ s.held input = []

/-- A writer that has not taken its input has nothing to store. -/
theorem unstored_outside {m : Mem UInt8} {c : WriteCall} {pc : WriterPc}
    (outside : pc.inside = false) : unstored m c pc = [] := by
  cases pc <;> simp_all [unstored, WriterPc.inside, WriterPc.ahead]

/-- Steps before the input is taken store nothing. -/
theorem stores_before {input : List UInt8} (written : t.written = s.written)
    (before : s.writer.inside = false) (after : t.writer.inside = false)
    (busy : t.writer ≠ .idle) (ok : writeOk t.put input t.writer) : Stores s t input [] := by
  refine ⟨fun front flow => ?_, fun _ => ?_, ok, fun idle => absurd idle busy⟩
  · rw [written, flow, unstored_outside before, unstored_outside after]
    simp
  · rw [Shared.held, Shared.held, before, after]
    rfl

/-- Steps that leave what the writer holds alone store nothing. -/
theorem stores_same {input : List UInt8} (written : t.written = s.written)
    (same : unstored t.ring.mem t.put t.writer = unstored s.ring.mem s.put s.writer)
    (before : s.writer.inside = true) (after : t.writer.inside = true)
    (ok : writeOk t.put input t.writer) : Stores s t input [] := by
  refine ⟨fun front flow => ?_, fun _ => ?_, ok, fun idle => ?_⟩
  · rw [written, flow, same, List.append_nil]
  · rw [Shared.held, Shared.held, before, after, if_pos rfl, if_pos rfl, same]
    rfl
  · rw [idle] at after
    cases after

/-- The first write gives its blocks their data. -/
theorem init_succeeds {full free : List Nat} (fits : host.Fits) (inv : s.Inv full free)
    (pc : s.writer = .init) (carries : s.put.data ≠ []) :
    (rbDataInit host s.ring s.put.data.length).2 = .success := by
  have noinit : s.ring.state = .noinit := by
    have knows := inv.writerOk
    rwa [pc] at knows
  obtain ⟨rfl, size⟩ := inv.settled.fresh noinit
  have zero : s.ring.blockSize = 0 := size (by simp [pc])
  have atWp : s.writeAt = s.ring.wp := by
    simp [Shared.writeAt, pc, WriterPc.ahead, WriterPc.inside]
  have layout := inv.layout
  rw [inv.layout.rp_eq_wp.trans atWp, atWp, zero] at layout
  have spare : free ≠ [] := inv.spare (by simp [pc, WriterPc.ahead])
  obtain ⟨m, free', _, _, result⟩ :=
    rbDataInit_layout fits s.put.data.length layout spare inv.settled.aligned
  rw [result]
  exact if_neg fun none => carries (List.length_eq_zero_iff.mp none)

/-- **What a step of the writer stores.** -/
theorem writerStep_stores {full free : List Nat} {input : List UInt8} (fits : host.Fits)
    (inv : s.Inv full free) (ok : writeOk s.put input s.writer) (noLow : s.ring.lowWaterMark = 0)
    (step : writerStep host s = some t) : ∃ piece, Stores s t input piece := by
  have knows := inv.writerOk
  cases pc : s.writer with
  | idle => simp [writerStep, pc] at step
  | lowHit | clearLow =>
      rw [pc] at ok
      exact ok.elim
  | testState =>
      simp only [writerStep, pc, Option.some.injEq] at step
      subst step
      rw [pc] at ok
      refine ⟨[], ?_⟩
      by_cases noinit : s.ring.state = .noinit
      · simp only [if_pos noinit]
        exact stores_before rfl (by rw [pc]; rfl) rfl (by simp) ok
      · simp only [if_neg noinit]
        exact stores_before rfl (by rw [pc]; rfl) rfl (by simp) ⟨ok.1, ok.2.1⟩
  | init =>
      rw [pc] at ok
      have made := init_succeeds fits inv pc (ok.1 ▸ ok.2.2)
      have goes : (if (rbDataInit host s.ring s.put.data.length).2.isError then WriterPc.idle
          else .setReady) = .setReady := by
        rw [made]
        rfl
      simp only [writerStep, pc] at step
      split at step
      · cases step
        refine ⟨[], ?_⟩
        simp only [goes]
        exact stores_before rfl (by rw [pc]; rfl) rfl (by simp) ⟨ok.1, ok.2.1⟩
      · cases step
  | setReady =>
      simp only [writerStep, pc, Option.some.injEq] at step
      subst step
      rw [pc] at ok
      exact ⟨[], stores_before rfl (by rw [pc]; rfl) rfl (by simp) ok⟩
  | testLow =>
      simp only [writerStep, pc, noLow, ne_eq, not_true_eq_false, if_false,
        Option.some.injEq] at step
      subst step
      rw [pc] at ok
      exact ⟨[], stores_before rfl (by rw [pc]; rfl) rfl (by simp) ok⟩
  | loadWp =>
      simp only [writerStep, pc, Option.some.injEq] at step
      subst step
      rw [pc] at ok
      obtain ⟨rfl, none⟩ := ok
      refine ⟨[], ⟨fun front flow => ?_, fun _ => ?_, ?_, by simp⟩⟩
      · rw [unstored_outside (by rw [pc]; rfl), List.append_nil] at flow
        simp [flow, unstored, WriterPc.inside]
      · rw [Shared.held, pc]
        rfl
      · show s.put.written + s.put.data.length = s.put.data.length
        omega
  | size =>
      rw [pc] at ok
      simp only [writerStep, pc] at step
      split at step <;> cases step <;>
        exact ⟨[], stores_same rfl (by simp [unstored, pc, WriterPc.inside]) (by rw [pc]; rfl) rfl
          ok⟩
  | copy n =>
      simp only [writerStep, pc, Option.some.injEq] at step
      subst step
      rw [pc] at ok knows
      have length : (s.put.data.take n).length = n := List.length_take_of_le knows.2
      refine ⟨[], stores_same rfl ?_ (by rw [pc]; rfl) rfl ?_⟩
      · simp [unstored, pc, WriterPc.inside, Mem.data, storeData, length]
      · have total : s.put.written + s.put.data.length = input.length := ok
        have within : n ≤ s.put.data.length := knows.2
        show s.put.written + n + (s.put.data.drop n).length = input.length
        rw [List.length_drop]
        omega
  | setBytes n =>
      simp only [writerStep, pc, Option.some.injEq] at step
      subst step
      rw [pc] at ok
      refine ⟨(s.ring.mem.data s.put.b).take n, ⟨fun front flow => ?_, fun _ => ?_, ok, by simp⟩⟩
      · rw [flow, pc]
        simp [unstored, WriterPc.inside, WriterPc.ahead]
      · rw [Shared.held, Shared.held, pc]
        rfl
  | alloc next k =>
      obtain ⟨m, head, tail, added, result, _⟩ := inv.allocated fits pc
      cases result.symm.trans step
      rw [pc] at ok
      exact ⟨[], stores_same rfl (by simp [unstored, pc, WriterPc.inside, WriterPc.ahead])
        (by rw [pc]; rfl) rfl ok⟩
  | testNext next =>
      rw [pc] at ok
      simp only [writerStep, pc] at step
      split at step <;> cases step <;>
        exact ⟨[], stores_same rfl (by simp [unstored, pc, WriterPc.inside, WriterPc.ahead])
          (by rw [pc]; rfl) rfl ok⟩
  | testHigh =>
      rw [pc] at ok
      simp only [writerStep, pc] at step
      split at step <;> cases step <;>
        exact ⟨[], stores_same rfl (by simp [unstored, pc, WriterPc.inside])
          (by rw [pc]; rfl) rfl ok⟩
  | storeWp =>
      simp only [writerStep, pc, Option.some.injEq] at step
      subst step
      rw [pc] at ok knows
      have done : s.put.data = [] := knows
      have total : s.put.written + s.put.data.length = input.length := ok
      refine ⟨[], ⟨fun front flow => ?_, fun busy => absurd rfl busy, trivial,
        fun _ => ⟨rfl, ?_, ?_⟩⟩⟩
      · rw [flow, pc]
        simp [unstored, WriterPc.inside, WriterPc.ahead, done]
      · rw [done] at total
        rw [Shared.wrote, pc]
        exact congrArg _ total
      · rw [Shared.held, pc]
        exact done
  | _ =>
      simp only [writerStep, pc, Option.some.injEq] at step
      subst step
      rw [pc] at ok
      exact ⟨[], stores_same rfl (by simp [unstored, pc, WriterPc.inside, WriterPc.ahead])
        (by rw [pc]; rfl) rfl ok⟩

end Writer

/-! ## The reader -/

section Reader

variable {s t : Shared} {full free : List Nat} {content : List UInt8}

/-- What is neither delivered nor in the writer's hands is what the reader has copied and what it
has not. -/
theorem content_eq (inv : s.Inv full free)
    (flow : s.written = s.delivered ++ content ++ unstored s.ring.mem s.put s.writer) :
    content = s.collected ++ unread s.ring.mem s.reader full := by
  have both := inv.flow.symm.trans flow
  simp only [List.append_assoc] at both
  have rest := List.append_cancel_left both
  rw [← List.append_assoc] at rest
  exact (List.append_cancel_right rest).symm

/-- A step of the reader leaves the writer and what it holds alone, and most of the settings. -/
structure LeavesWriter (s t : Shared) : Prop where
  writer : t.writer = s.writer
  put : t.put = s.put
  written : t.written = s.written
  unstored : unstored t.ring.mem t.put t.writer = unstored s.ring.mem s.put s.writer
  flush : t.ring.flush = s.ring.flush
  highWaterMark : t.ring.highWaterMark = s.ring.highWaterMark
  lowWaterMark : t.ring.lowWaterMark = s.ring.lowWaterMark
  minReturnSize : t.ring.minReturnSize = s.ring.minReturnSize
  ioWrite : t.ring.ioWrite = s.ring.ioWrite
  ioRead : t.ring.ioRead = s.ring.ioRead ∨ t.ring.ioRead = .disabling

/-- The block from which the reader has copied is the first full one. -/
theorem reader_inFull (inv : s.Inv full free) (copied : ∃ n, s.reader = .move n ∨
    (∃ partialRead, s.reader = .take n partialRead) ∨
    ∃ partialRead, s.reader = .copy n partialRead) : s.get.b ∈ full := by
  have knows := inv.readerOk
  obtain ⟨n, pc | ⟨partialRead, pc⟩ | ⟨partialRead, pc⟩⟩ := copied
  · rw [pc] at knows
    exact List.mem_of_mem_head? knows.1
  · rw [pc] at knows
    cases partialRead <;> exact List.mem_of_mem_head? knows.1
  · rw [pc] at knows
    cases partialRead <;> exact List.mem_of_mem_head? knows.1

theorem readerStep_leaves (inv : s.Inv full free) (step : readerStep s = some t) :
    LeavesWriter s t := by
  cases pc : s.reader with
  | idle => simp [readerStep, pc] at step
  | move n =>
      have inFull := reader_inFull inv ⟨n, .inl pc⟩
      simp only [readerStep, pc, Option.some.injEq] at step
      subst step
      exact ⟨rfl, rfl, rfl, (inv.unstored_modify inFull _).1, rfl, rfl, rfl, rfl, rfl, .inl rfl⟩
  | take n partialRead =>
      have inFull := reader_inFull inv ⟨n, .inr (.inl ⟨_, pc⟩)⟩
      simp only [readerStep, pc, Option.some.injEq] at step
      subst step
      exact ⟨rfl, rfl, rfl, (inv.unstored_modify inFull _).1, rfl, rfl, rfl, rfl, rfl, .inl rfl⟩
  | storeRp =>
      simp only [readerStep, pc] at step
      split at step <;> cases step
      · exact ⟨rfl, rfl, rfl, rfl, rfl, rfl, rfl, rfl, rfl, .inr rfl⟩
      · exact ⟨rfl, rfl, rfl, rfl, rfl, rfl, rfl, rfl, rfl, .inl rfl⟩
  | loop =>
      simp only [readerStep, pc] at step
      split at step
      · cases step
        exact ⟨rfl, rfl, rfl, rfl, rfl, rfl, rfl, rfl, rfl, .inl rfl⟩
      · split at step
        · cases step
          exact ⟨rfl, rfl, rfl, rfl, rfl, rfl, rfl, rfl, rfl, .inl rfl⟩
        · split at step <;> cases step <;>
            exact ⟨rfl, rfl, rfl, rfl, rfl, rfl, rfl, rfl, rfl, .inl rfl⟩
  | _ =>
      simp only [readerStep, pc, Option.some.injEq] at step
      subst step
      exact ⟨rfl, rfl, rfl, rfl, rfl, rfl, rfl, rfl, rfl, .inl rfl⟩

/-- A reader that finds its block empty has nothing left to read. -/
theorem unread_nil (inv : s.Inv full free) (pc : s.reader = .loop)
    (empty : s.ring.mem.bytes s.get.b = 0) : unread s.ring.mem s.reader full = [] := by
  have position : s.readAt = s.get.b := by simp [Shared.readAt, pc, ReaderPc.outside]
  cases full with
  | nil => rfl
  | cons x rest =>
      obtain rfl : s.get.b = x := position.symm.trans inv.layout.rp_eq
      have filled := inv.layout.filled s.get.b (by simp)
      omega

/-- **A step within a read.** -/
theorem readerStep_goesOn (inv : s.Inv full free) (ok : readOk s.get content s.reader)
    (flow : s.written = s.delivered ++ content ++ unstored s.ring.mem s.put s.writer)
    (unlimited : s.ring.minReturnSize = 0) (step : readerStep s = some t)
    (busy : t.reader ≠ .idle) :
    t.reports = s.reports ∧ readOk t.get content t.reader ∧
      (t.reader.looked = true → t.get.flush = true →
        s.ring.flush = true ∨ s.reader.looked = true ∧ s.get.flush = true) := by
  cases pc : s.reader with
  | idle => simp [readerStep, pc] at step
  | loadRp =>
      simp only [readerStep, pc, Option.some.injEq] at step
      subst step
      rw [pc] at ok
      exact ⟨rfl, ok, by simp [ReaderPc.looked]⟩
  | loadFlush =>
      simp only [readerStep, pc, Option.some.injEq] at step
      subst step
      rw [pc] at ok
      exact ⟨rfl, ok, fun _ flush => .inl flush⟩
  | testMin =>
      simp only [readerStep, pc, Option.some.injEq, unlimited] at step
      subst step
      rw [pc] at ok
      exact ⟨rfl, ok, fun _ flush => .inr ⟨rfl, flush⟩⟩
  | loop =>
      rw [pc] at ok
      have wants : s.get.out = [] → 0 < s.get.remaining := ok
      simp only [readerStep, pc] at step
      split at step
      · next done =>
          cases step
          refine ⟨rfl, fun _ none => ?_, fun _ flush => .inr ⟨rfl, flush⟩⟩
          have := wants none
          omega
      · next more =>
          split at step
          · next empty =>
              cases step
              refine ⟨rfl, fun _ none => ?_, fun _ flush => .inr ⟨rfl, flush⟩⟩
              rw [content_eq inv flow, unread_nil inv pc empty, Shared.collected]
              simp only [List.append_nil]
              split
              · rfl
              · exact none
          · next filled =>
              split at step
              · cases step
                exact ⟨rfl, Nat.pos_of_ne_zero more, fun _ flush => .inr ⟨rfl, flush⟩⟩
              · cases step
                exact ⟨rfl, Nat.pos_of_ne_zero filled, fun _ flush => .inr ⟨rfl, flush⟩⟩
  | copy n partialRead =>
      have inFull := reader_inFull inv ⟨n, .inr (.inr ⟨_, pc⟩)⟩
      have stored := inv.stored s.get.b inFull
      have filled := inv.layout.filled s.get.b inFull
      rw [pc] at ok
      have some : 0 < n := ok
      have copies : s.get.out ++ (s.ring.mem.data s.get.b).take n ≠ [] := by
        intro none
        have length := congrArg List.length (List.append_eq_nil_iff.mp none).2
        rw [List.length_take, List.length_nil] at length
        omega
      simp only [readerStep, pc, Option.some.injEq] at step
      subst step
      refine ⟨rfl, ?_, fun _ flush => .inr ⟨rfl, flush⟩⟩
      cases partialRead <;> exact copies
  | move n =>
      simp only [readerStep, pc, Option.some.injEq] at step
      subst step
      rw [pc] at ok
      exact ⟨rfl, ok, fun _ flush => .inr ⟨rfl, flush⟩⟩
  | take n partialRead =>
      simp only [readerStep, pc, Option.some.injEq] at step
      subst step
      rw [pc] at ok
      exact ⟨rfl, fun none => absurd none ok, fun _ flush => .inr ⟨rfl, flush⟩⟩
  | subBytes =>
      simp only [readerStep, pc, Option.some.injEq] at step
      subst step
      rw [pc] at ok
      exact ⟨rfl, ok, fun _ flush => .inr ⟨rfl, flush⟩⟩
  | storeRp =>
      simp only [readerStep, pc] at step
      split at step <;> cases step <;> exact absurd rfl busy

/-- **The return of a read.** -/
theorem readerStep_returns (step : readerStep s = some t) (idle : t.reader = .idle) :
    s.reader = .storeRp ∧ ∃ status, t.reports = s.reports ++ [(status, s.get.out)] ∧
      status.isError = false ∧
      (status = .complete → s.get.flush = true ∧ s.get.out = []) := by
  cases pc : s.reader with
  | storeRp =>
      refine ⟨rfl, ?_⟩
      simp only [readerStep, pc] at step
      split at step
      · next ends =>
          cases step
          exact ⟨.complete, rfl, rfl, fun _ => ends⟩
      · cases step
        exact ⟨.success, rfl, rfl, by simp⟩
  | idle => simp [readerStep, pc] at step
  | loop =>
      simp only [readerStep, pc] at step
      split at step
      · cases step
        cases idle
      · split at step
        · cases step
          cases idle
        · split at step <;> cases step <;> cases idle
  | copy n partialRead =>
      simp only [readerStep, pc, Option.some.injEq] at step
      subst step
      cases partialRead <;> cases idle
  | _ =>
      simp only [readerStep, pc, Option.some.injEq] at step
      subst step
      cases idle

end Reader

/-! ## Whole turns -/

namespace Shared.Inv

variable {s : Shared} {full free : List Nat}

/-- A new read. -/
theorem beginRead (inv : s.Inv full free) (idle : s.reader = .idle) (request : Nat) :
    Inv { s with get := { remaining := request }, reader := .loadRp } full free := by
  refine inv.goto_reader rfl rfl rfl rfl rfl rfl ?_ trivial ?_
  · simp [Shared.readAt, idle, ReaderPc.outside]
  · rw [idle, unread_eq_contents fun _ => rfl, unread_eq_contents fun _ => rfl]
    simp [Shared.collected, Shared.delivered, idle]

/-- A new write. -/
theorem beginWrite (inv : s.Inv full free) (idle : s.writer = .idle) (data : List UInt8) :
    Inv { s with put := { data := data }, writer := .testState } full free := by
  refine inv.goto rfl rfl rfl ?_ (fun _ => inv.spare (by simp [idle, WriterPc.ahead]))
    ⟨inv.settled.aligned, inv.settled.grows, ?_, by rintro ⟨⟩, ?_⟩ trivial ?_
  · simp [Shared.writeAt, idle, WriterPc.ahead, WriterPc.inside]
  · rintro (ready | setReady)
    · exact inv.settled.sized (.inl ready)
    · cases setReady
  · exact fun noinit => ⟨(inv.settled.fresh noinit).1,
      fun _ => (inv.settled.fresh noinit).2 (by simp [idle])⟩
  · simp [unstored, idle, WriterPc.ahead, WriterPc.inside]

/-- Neither thread's blocks depend on the sides of the descriptor or the flush flag. -/
theorem sides (inv : s.Inv full free) (ioRead ioWrite : IoDescState) (flush : Bool) :
    Inv { s with ring := { s.ring with ioRead := ioRead, ioWrite := ioWrite, flush := flush } }
      full free :=
  inv.goto_reader rfl rfl rfl rfl rfl rfl rfl inv.readerOk rfl

end Shared.Inv

namespace Sharing

variable {host : Host} {s t : Shared} {input : List UInt8} {b : ByteQueue}

/-- A ring whose write is over takes another one. -/
theorem next_input (sharing : Sharing s input b) (idle : s.writer = .idle) (other : List UInt8) :
    Sharing s other b :=
  ⟨sharing.shape, sharing.flow, sharing.noHigh, sharing.noLow, sharing.unlimited, sharing.flush,
    sharing.silent, sharing.sides, sharing.seen, sharing.reading, by rw [idle]; trivial⟩

/-- Setting a side of the descriptor. -/
theorem set_side (sharing : Sharing s input b) {ioRead ioWrite : IoDescState}
    (sides : ioRead ≠ .stopped ∧ ioWrite ≠ .stopped)
    (silent : b.stopped = true → ioWrite = .disabling ∨ ioWrite = .disabled) :
    Sharing { s with ring := { s.ring with ioRead := ioRead, ioWrite := ioWrite } } input b := by
  obtain ⟨full, free, inv⟩ := sharing.shape
  exact ⟨⟨full, free, inv.sides ioRead ioWrite s.ring.flush⟩, sharing.flow, sharing.noHigh,
    sharing.noLow, sharing.unlimited, sharing.flush,
    fun stopped => ⟨(sharing.silent stopped).1, silent stopped⟩, sides, sharing.seen,
    sharing.reading, sharing.writing⟩

/-- The first store of `stop_buffer` does not stop the queue yet. -/
theorem disableWriting (sharing : Sharing s input b) : Sharing s.disableWriting input b :=
  sharing.set_side ⟨sharing.sides.1, by simp⟩ fun _ => .inl rfl

/-- The second one does, when no write is under way. -/
theorem setFlush (sharing : Sharing s input b) (idle : s.writer = .idle)
    (silenced : s.Silenced) :
    Sharing s.setFlush input { b with stopped := true } := by
  obtain ⟨full, free, inv⟩ := sharing.shape
  exact ⟨⟨full, free, inv.sides s.ring.ioRead s.ring.ioWrite true⟩, sharing.flow, sharing.noHigh,
    sharing.noLow, sharing.unlimited, rfl, fun _ => ⟨idle, silenced⟩, sharing.sides,
    fun _ _ => rfl, sharing.reading, sharing.writing⟩

/-- A step of the reader: of the queue only the bytes it delivers can change. -/
theorem reader_moves (sharing : Sharing s input b) (leaves : LeavesWriter s t)
    (shape : ∃ full free, t.Inv full free) {rest : List UInt8}
    (delivers : s.delivered ++ b.content = t.delivered ++ rest)
    (seen : t.reader.looked = true → t.get.flush = true → b.stopped = true)
    (reading : readOk t.get rest t.reader) : Sharing t input { b with content := rest } := by
  refine ⟨shape, ?_, leaves.highWaterMark.trans sharing.noHigh,
    leaves.lowWaterMark.trans sharing.noLow, leaves.minReturnSize.trans sharing.unlimited,
    leaves.flush.trans sharing.flush, ?_, ⟨?_, leaves.ioWrite ▸ sharing.sides.2⟩, seen, reading, ?_⟩
  · rw [leaves.written, leaves.unstored, ← delivers]
    exact sharing.flow
  · rw [leaves.writer, Shared.Silenced, leaves.ioWrite]
    exact sharing.silent
  · rcases leaves.ioRead with same | disabling
    · exact same ▸ sharing.sides.1
    · simp [disabling]
  · rw [leaves.put, leaves.writer]
    exact sharing.writing

/-- A step of the reader within a read. -/
theorem reader_goesOn (sharing : Sharing s input b) (apart : Apart s .reader)
    (step : readerStep s = some t) (busy : t.reader ≠ .idle) : Sharing t input b := by
  obtain ⟨full, free, inv⟩ := sharing.shape
  obtain ⟨reports, reads, flushes⟩ :=
    readerStep_goesOn inv sharing.reading sharing.flow sharing.unlimited step busy
  refine sharing.reader_moves (readerStep_leaves inv step) (inv_reader inv apart step) ?_ ?_ reads
  · rw [Shared.delivered, Shared.delivered, reports]
  · intro looked flush
    rcases flushes looked flush with now | ⟨before, flag⟩
    · exact sharing.flush ▸ now
    · exact sharing.seen before flag

/-- The return of a read takes the bytes it delivers off the queue, and it reports completion only
when the queue is stopped and empty. -/
theorem reader_returns (sharing : Sharing s input b) (apart : Apart s .reader)
    (step : readerStep s = some t) (idle : t.reader = .idle) :
    ∃ status out rest, t.reports.getLast? = some (status, out) ∧ status.isError = false ∧
      b.content = out ++ rest ∧ Sharing t input { b with content := rest } ∧
      (status = .complete → b.stopped = true ∧ rest = []) := by
  obtain ⟨full, free, inv⟩ := sharing.shape
  obtain ⟨pc, status, reports, noError, ends⟩ := readerStep_returns step idle
  have content := content_eq inv sharing.flow
  rw [Shared.collected, pc, if_neg (by simp)] at content
  have reading := sharing.reading
  rw [pc] at reading
  refine ⟨status, s.get.out, unread s.ring.mem .storeRp full, ?_, noError, content,
    sharing.reader_moves (readerStep_leaves inv step) (inv_reader inv apart step) ?_ ?_ ?_,
    fun complete => ?_⟩
  · rw [reports, List.getLast?_concat]
  · rw [content, Shared.delivered, Shared.delivered, reports]
    simp
  · rw [idle]
    rintro ⟨⟩
  · rw [idle]
    trivial
  · obtain ⟨flush, none⟩ := ends complete
    have nothing : b.content = [] := reading flush none
    rw [content] at nothing
    exact ⟨sharing.seen (by rw [pc]; rfl) flush, (List.append_eq_nil_iff.mp nothing).2⟩

/-- What the writer holds does not depend on the reader. -/
theorem reader_held (sharing : Sharing s input b) (step : readerStep s = some t)
    (data : List UInt8) : t.held data = s.held data := by
  obtain ⟨full, free, inv⟩ := sharing.shape
  have leaves := readerStep_leaves inv step
  rw [Shared.held, Shared.held, leaves.writer, ← leaves.unstored, leaves.writer]

end Sharing

/-- What a turn of a read does to the queue: nothing, or it takes off what the read returns. -/
inductive ReadTurn (t : Shared) (input : List UInt8) (b : ByteQueue) :
    Option (IoStatus × List UInt8) → Prop where
  | goesOn (sharing : Sharing t input b) : ReadTurn t input b none
  | returns {status : IoStatus} {out rest : List UInt8} (noError : status.isError = false)
      (front : b.content = out ++ rest) (sharing : Sharing t input { b with content := rest })
      (ends : status = .complete → b.stopped = true ∧ rest = []) :
      ReadTurn t input b (some (status, out))

/-- What a turn of a write does to the queue: it adds a piece of what the write held, and a write
that returns has counted what it does not hold any more. -/
inductive WriteTurn (s t : Shared) (input : List UInt8) (b : ByteQueue) :
    Option (IoStatus × Nat) → Prop where
  | goesOn {piece : List UInt8} (held : s.held input = piece ++ t.held input)
      (sharing : Sharing t input { b with content := b.content ++ piece })
      (silent : b.stopped = true → piece = []) : WriteTurn s t input b none
  | returns {count : Nat} (idle : t.writer = .idle) (left : input.drop count = s.held input)
      (sharing : Sharing t input b) : WriteTurn s t input b (some (.success, count))

namespace Sharing

variable {host : Host} {s t : Shared} {input : List UInt8} {b : ByteQueue}

/-- **A turn of a read.** -/
theorem readTurn (sharing : Sharing s input b) (apart : Apart s .reader) {request : Nat}
    (asks : 0 < request) {answer : Option (IoStatus × List UInt8)}
    (turn : s.readTurn request = some (t, answer)) :
    t.writer = s.writer ∧ (∀ data, t.held data = s.held data) ∧ (s.Silenced → t.Silenced) ∧
      ReadTurn t input b answer := by
  by_cases idle : s.reader = .idle
  · have begins :
        Sharing { s with get := { remaining := request }, reader := .loadRp } input b := by
      obtain ⟨full, free, inv⟩ := sharing.shape
      exact ⟨⟨full, free, inv.beginRead idle request⟩, sharing.flow, sharing.noHigh, sharing.noLow,
        sharing.unlimited, sharing.flush, sharing.silent, sharing.sides, by rintro ⟨⟩,
        fun _ => asks, sharing.writing⟩
    simp only [Shared.readTurn, idle] at turn
    cases side : s.ring.ioRead with
    | stopped => exact absurd side sharing.sides.1
    | enabled | error =>
        simp only [machineDescIo, side, Option.map_some, Option.map_none, Option.some.injEq,
          Prod.mk.injEq] at turn
        obtain ⟨rfl, rfl⟩ := turn
        exact ⟨rfl, fun _ => rfl, id, .goesOn begins⟩
    | disabling =>
        simp only [machineDescIo, side, Option.map_some, Option.some.injEq, Prod.mk.injEq] at turn
        obtain ⟨rfl, rfl⟩ := turn
        refine ⟨rfl, fun _ => rfl, id, .returns rfl rfl ?_ (by simp)⟩
        exact sharing.set_side ⟨by simp, sharing.sides.2⟩ fun stopped => (sharing.silent stopped).2
    | disabled =>
        simp only [machineDescIo, side, Option.map_some, Option.some.injEq, Prod.mk.injEq] at turn
        obtain ⟨rfl, rfl⟩ := turn
        exact ⟨rfl, fun _ => rfl, id, .returns rfl rfl sharing (by simp)⟩
  · have taken : (readerStep s).map
        (fun t => (t, if t.reader = .idle then t.reports.getLast? else none)) =
          some (t, answer) := by
      unfold Shared.readTurn at turn
      split at turn
      · next now => exact absurd now idle
      · exact turn
    obtain ⟨u, step, both⟩ := Option.map_eq_some_iff.mp taken
    obtain ⟨rfl, rfl⟩ : u = t ∧ _ = answer := Prod.mk.inj both
    obtain ⟨full, free, inv⟩ := sharing.shape
    have leaves := readerStep_leaves inv step
    refine ⟨leaves.writer, fun data => sharing.reader_held step data, fun silenced => ?_, ?_⟩
    · rw [Shared.Silenced, leaves.ioWrite]
      exact silenced
    by_cases returned : u.reader = .idle
    · obtain ⟨status, out, rest, last, noError, front, after, ends⟩ :=
        sharing.reader_returns apart step returned
      rw [if_pos returned, last]
      exact .returns noError front after ends
    · rw [if_neg returned]
      exact .goesOn (sharing.reader_goesOn apart step returned)

/-- A step of the writer adds what it stores to the queue. -/
theorem writer_step (fits : host.Fits) (sharing : Sharing s input b)
    (step : writerStep host s = some t) : ∃ piece, Stores s t input piece ∧
      Sharing t input { b with content := b.content ++ piece } ∧ b.stopped = false := by
  obtain ⟨full, free, inv⟩ := sharing.shape
  obtain ⟨keeps, reader, get, reports⟩ := writerStep_keeps sharing.noHigh sharing.noLow step
  obtain ⟨piece, stores⟩ := writerStep_stores fits inv sharing.writing sharing.noLow step
  have running : b.stopped = false := by
    cases stopped : b.stopped with
    | false => rfl
    | true =>
        rw [writerStep, (sharing.silent stopped).1] at step
        cases step
  refine ⟨piece, stores, ⟨inv_writer fits inv step, ?_, keeps.highWaterMark.trans sharing.noHigh,
    keeps.lowWaterMark.trans sharing.noLow, keeps.minReturnSize.trans sharing.unlimited,
    keeps.flush.trans sharing.flush, ?_, ?_, ?_, ?_, stores.writing⟩, running⟩
  · rw [stores.flow _ sharing.flow, Shared.delivered, Shared.delivered, reports]
    simp only [List.append_assoc]
  · intro stopped
    cases running.symm.trans stopped
  · exact ⟨keeps.ioRead ▸ sharing.sides.1, keeps.ioWrite ▸ sharing.sides.2⟩
  · rw [reader, get]
    exact sharing.seen
  · -- A reader that has found the ring in flush would have found it stopped.
    rw [reader, get]
    have reading := sharing.reading
    have seen := sharing.seen
    have unseen : s.reader.looked = true → s.get.flush = true → False := fun looked flush => by
      cases running.symm.trans (seen looked flush)
    cases pc : s.reader with
    | subBytes | storeRp =>
        rw [pc] at unseen
        exact fun flush _ => (unseen rfl flush).elim
    | _ =>
        rw [pc] at reading
        exact reading

/-- **A turn of a write.** -/
theorem writeTurn (fits : host.Fits) (sharing : Sharing s input b) (carries : input ≠ [])
    {answer : Option (IoStatus × Nat)} (turn : s.writeTurn host input = some (t, answer)) :
    (s.Silenced → t.Silenced) ∧ WriteTurn s t input b answer := by
  by_cases idle : s.writer = .idle
  · have holds : s.held input = input := by
      rw [Shared.held, idle]
      rfl
    have begins : b.stopped = false → WriteTurn s
        { s with put := { data := input }, writer := .testState } input b none := by
      intro running
      obtain ⟨full, free, inv⟩ := sharing.shape
      have kept : s.held input =
          [] ++ Shared.held { s with put := { data := input }, writer := .testState } input := holds
      refine .goesOn kept ⟨⟨full, free, inv.beginWrite idle input⟩, ?_,
        sharing.noHigh, sharing.noLow, sharing.unlimited, sharing.flush,
        fun stopped => ?_, sharing.sides, sharing.seen, ?_, rfl, rfl, carries⟩ fun _ => rfl
      · rw [List.append_nil, sharing.flow, idle]
        rfl
      · cases running.symm.trans stopped
      · rw [List.append_nil]
        exact sharing.reading
    have running : s.ring.ioWrite = .enabled ∨ s.ring.ioWrite = .error → b.stopped = false := by
      intro side
      cases stopped : b.stopped with
      | false => rfl
      | true => rcases (sharing.silent stopped).2 with now | now <;> simp [now] at side
    simp only [Shared.writeTurn, idle] at turn
    cases side : s.ring.ioWrite with
    | stopped => exact absurd side sharing.sides.2
    | enabled | error =>
        simp only [machineDescIo, side, Option.map_some, Option.map_none, Option.some.injEq,
          Prod.mk.injEq] at turn
        obtain ⟨rfl, rfl⟩ := turn
        exact ⟨id, begins (running (by simp [side]))⟩
    | disabling =>
        simp only [machineDescIo, side, Option.map_some, Option.some.injEq, Prod.mk.injEq] at turn
        obtain ⟨rfl, rfl⟩ := turn
        refine ⟨fun _ => .inr rfl, .returns idle holds.symm ?_⟩
        exact sharing.set_side ⟨sharing.sides.1, by simp⟩ fun _ => .inr rfl
    | disabled =>
        simp only [machineDescIo, side, Option.map_some, Option.some.injEq, Prod.mk.injEq] at turn
        obtain ⟨rfl, rfl⟩ := turn
        exact ⟨id, .returns idle holds.symm sharing⟩
  · have taken : (writerStep host s).map
        (fun t => (t, if t.writer = .idle then some s.wrote else none)) = some (t, answer) := by
      unfold Shared.writeTurn at turn
      split at turn
      · next now => exact absurd now idle
      · exact turn
    obtain ⟨u, step, both⟩ := Option.map_eq_some_iff.mp taken
    obtain ⟨rfl, rfl⟩ : u = t ∧ _ = answer := Prod.mk.inj both
    obtain ⟨piece, stores, after, running⟩ := sharing.writer_step fits step
    have keeps := (writerStep_keeps sharing.noHigh sharing.noLow step).1
    refine ⟨fun silenced => ?_, ?_⟩
    · rw [Shared.Silenced, keeps.ioWrite]
      exact silenced
    by_cases returned : u.writer = .idle
    · obtain ⟨rfl, answer, none⟩ := stores.returns returned
      rw [if_pos returned, answer]
      refine .returns returned ?_ (by simpa using after)
      rw [none, List.drop_length]
    · rw [if_neg returned]
      exact .goesOn (stores.held returned) after fun stopped => by cases running.symm.trans stopped

end Sharing

/-- A new ring without marks is an empty queue. -/
theorem sharing_start {align : Nat} (aligned : 0 < align) (input : List UInt8) :
    Sharing { ring := { createBuffer with blockAlign := align } } input {} := by
  have start : (ringSystem tightHost).start
      { ring := { createBuffer with blockAlign := align } } := ⟨align, 0, 0, false, aligned, rfl⟩
  exact ⟨inv_start start, rfl, rfl, rfl, rfl, rfl, by rintro ⟨⟩,
    ⟨by rintro ⟨⟩, by rintro ⟨⟩⟩, by rintro ⟨⟩, trivial, trivial⟩

end Bingewatch.Buffer.Threads
