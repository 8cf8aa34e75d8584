import Bingewatch.Buffer.RingShape

/-!
# A ring buffer is a byte queue

The purpose of a ring buffer is a queue of bytes that can be stopped: a stopped queue takes no more
bytes, gives out those it has, reports completion once when it is found empty, and is silent from
then on (`ByteQueue`).

`ring_refines_queue` compares the two over whole runs. For every sequence of calls on one ring the
machine answers as the queue does, and after every call the ring's count is the length of the queue
and its size the sum of the sizes of its blocks.
-/

set_option autoImplicit false

namespace Bingewatch.Buffer

open Machine

/-! ## The queue -/

/-- A call on a buffer machine. -/
inductive Call where
  | write (data : List UInt8)
  | read (request : Nat)
  | stop
  deriving DecidableEq, Repr

/-- What a call reports: a status with the byte count of a write or the bytes of a read. -/
inductive Answer where
  | wrote (status : IoStatus) (count : Nat)
  | got (status : IoStatus) (bytes : List UInt8)
  | stopped
  deriving DecidableEq, Repr

/-- A queue of bytes that can be stopped. -/
structure ByteQueue where
  content : List UInt8 := []
  stopped : Bool := false
  completed : Bool := false
  deriving DecidableEq, Repr

/-- What a call does to the queue. -/
def ByteQueue.call (q : ByteQueue) : Call → ByteQueue × Answer
  | .write data =>
      if q.stopped then (q, .wrote .success 0)
      else ({ q with content := q.content ++ data }, .wrote .success data.length)
  | .read request =>
      if q.completed then (q, .got .success [])
      else if q.stopped ∧ q.content = [] then ({ q with completed := true }, .got .complete [])
      else ({ q with content := q.content.drop request }, .got .success (q.content.take request))
  | .stop => ({ q with stopped := true }, .stopped)

/-- The states and answers of a run of calls. -/
def ByteQueue.run : ByteQueue → List Call → List (ByteQueue × Answer)
  | _, [] => []
  | q, c :: calls => q.call c :: ByteQueue.run (q.call c).1 calls

/-! ## The ring -/

/-- What a call does to a ring buffer machine. -/
def Ring.call (host : Host) (r : Ring) : Call → Option (Ring × Answer)
  | .write data => (machineDescWrite host r data).map fun (r, status, n) => (r, .wrote status n)
  | .read request => (machineDescRead r request).map fun (r, status, out) => (r, .got status out)
  | .stop => some (stopBuffer r, .stopped)

/-- The states and answers of a run of calls, when all of them return. -/
def Ring.run (host : Host) : Ring → List Call → Option (List (Ring × Answer))
  | _, [] => some []
  | r, c :: calls =>
      (r.call host c).bind fun (r', answer) =>
        (Ring.run host r' calls).map fun rest => (r', answer) :: rest

/-- The first write of the run, if there is one, is not empty. -/
def FirstWriteNonempty : List Call → Prop
  | [] => True
  | .write data :: _ => data ≠ []
  | _ :: calls => FirstWriteNonempty calls

/-- The size of a ring is the sum of the sizes of the blocks reachable in it. -/
def Ring.SizeIsSum (r : Ring) : Prop :=
  ∃ blocks : List Nat, blocks.Nodup ∧ (∀ x, x ∈ blocks ↔ ∃ k, r.mem.next^[k] r.rp = x) ∧
    r.size = (blocks.map r.mem.size).sum

/-! ## The simulation -/

/-- A ring without marks stores the content of the queue, and its descriptor sides stand as the
queue's two flags say. -/
structure Simulates (r : Ring) (q : ByteQueue) : Prop where
  holds : r.Holds q.content
  aligned : 0 < r.blockAlign
  noHigh : r.highWaterMark = 0
  noLow : r.lowWaterMark = 0
  unlimited : r.minReturnSize = 0
  flush : r.flush = q.stopped
  writing : q.stopped = false → r.ioWrite = .enabled
  silenced : q.stopped = true → r.ioWrite = .disabling ∨ r.ioWrite = .disabled
  reading : q.completed = false → r.ioRead = .enabled
  finished : q.completed = true →
    (r.ioRead = .disabling ∨ r.ioRead = .disabled) ∧ q.stopped = true ∧ q.content = []

variable {host : Host}

/-- The simulation reads only the fields that `Ring.Keeps` names. -/
theorem Simulates.of_keeps {r r' : Ring} {q q' : ByteQueue} (sim : Simulates r q)
    (keeps : r.Keeps r') (holds : r'.Holds q'.content) (stopped : q'.stopped = q.stopped)
    (completed : q'.completed = q.completed)
    (drained : q.completed = true → q'.content = []) : Simulates r' q' where
  holds := holds
  aligned := keeps.blockAlign ▸ sim.aligned
  noHigh := keeps.highWaterMark.trans sim.noHigh
  noLow := keeps.lowWaterMark.trans sim.noLow
  unlimited := keeps.minReturnSize.trans sim.unlimited
  flush := keeps.flush.trans (sim.flush.trans stopped.symm)
  writing := fun running => keeps.ioWrite.trans (sim.writing (stopped ▸ running))
  silenced := fun stop => by
    rw [keeps.ioWrite]
    exact sim.silenced (stopped ▸ stop)
  reading := fun running => keeps.ioRead.trans (sim.reading (completed ▸ running))
  finished := fun done => by
    obtain ⟨side, stop, _⟩ := sim.finished (completed ▸ done)
    rw [keeps.ioRead, stopped]
    exact ⟨side, stop, drained (completed ▸ done)⟩

/-- Changing the descriptor sides and the flush flag along with the queue's flags. -/
theorem Simulates.sides {r : Ring} {q q' : ByteQueue} {ioRead ioWrite : IoDescState} {flush : Bool}
    (sim : Simulates r q) (content : q'.content = q.content) (flushes : flush = q'.stopped)
    (writing : q'.stopped = false → ioWrite = .enabled)
    (silenced : q'.stopped = true → ioWrite = .disabling ∨ ioWrite = .disabled)
    (reading : q'.completed = false → ioRead = .enabled)
    (finished : q'.completed = true →
      (ioRead = .disabling ∨ ioRead = .disabled) ∧ q'.stopped = true ∧ q'.content = []) :
    Simulates { r with ioRead := ioRead, ioWrite := ioWrite, flush := flush } q' where
  holds := content ▸ sim.holds.sides ioRead ioWrite flush
  aligned := sim.aligned
  noHigh := sim.noHigh
  noLow := sim.noLow
  unlimited := sim.unlimited
  flush := flushes
  writing := writing
  silenced := silenced
  reading := reading
  finished := finished

theorem Simulates.write (fits : host.Fits) {r : Ring} {q : ByteQueue} (data : List UInt8)
    (sim : Simulates r q) (first : r.state = .noinit → q.stopped = false → data ≠ []) :
    ∃ r', r.call host (.write data) = some (r', (q.call (.write data)).2) ∧
      Simulates r' (q.call (.write data)).1 ∧ (r'.state = .noinit → q.stopped = true) := by
  cases stopped : q.stopped with
  | false =>
      obtain ⟨r', write, holds, ready, keeps⟩ := bufWrite_spec fits sim.holds
        (fun fresh => first fresh stopped) sim.aligned sim.noLow sim.noHigh
      have answer : q.call (.write data) =
          ({ q with content := q.content ++ data }, .wrote .success data.length) := by
        simp [ByteQueue.call, stopped]
      have notDone : q.completed = true → q.content ++ data = [] := fun done => by
        cases (sim.finished done).2.1.symm.trans stopped
      rw [answer]
      refine ⟨r', ?_, sim.of_keeps keeps holds rfl rfl notDone, fun fresh => ?_⟩
      · simp [Ring.call, machineDescWrite, machineDescIo, sim.writing stopped, write]
      · cases ready.symm.trans fresh
  | true =>
      have answer : q.call (.write data) = (q, .wrote .success 0) := by
        simp [ByteQueue.call, stopped]
      rw [answer]
      refine ⟨{ r with ioWrite := .disabled }, ?_, ?_, fun _ => rfl⟩
      · rcases sim.silenced stopped with side | side
        · simp [Ring.call, machineDescWrite, machineDescIo, side]
        · have same : { r with ioWrite := .disabled } = r := by rw [← side]
          rw [same]
          simp [Ring.call, machineDescWrite, machineDescIo, side]
      · exact sim.sides rfl sim.flush (fun running => by cases stopped.symm.trans running)
          (fun _ => Or.inr rfl) sim.reading sim.finished

theorem Simulates.read (host : Host) {r : Ring} {q : ByteQueue} {request : Nat}
    (sim : Simulates r q) (asks : 0 < request) :
    ∃ r', r.call host (.read request) = some (r', (q.call (.read request)).2) ∧
      Simulates r' (q.call (.read request)).1 ∧ r'.state = r.state := by
  cases completed : q.completed with
  | true =>
      have answer : q.call (.read request) = (q, .got .success []) := by
        simp [ByteQueue.call, completed]
      rw [answer]
      refine ⟨{ r with ioRead := .disabled }, ?_, ?_, rfl⟩
      · rcases (sim.finished completed).1 with side | side
        · simp [Ring.call, machineDescRead, machineDescIo, side]
        · have same : { r with ioRead := .disabled } = r := by rw [← side]
          rw [same]
          simp [Ring.call, machineDescRead, machineDescIo, side]
      · exact sim.sides rfl sim.flush sim.writing sim.silenced
          (fun running => by cases completed.symm.trans running)
          fun _ => ⟨Or.inr rfl, (sim.finished completed).2⟩
  | false =>
      obtain ⟨r', holds, state, keeps, read⟩ := bufRead_spec sim.holds request sim.unlimited
      have nothing : q.content.take request = [] ↔ q.content = [] := by
        rw [List.take_eq_nil_iff]
        exact ⟨fun h => h.resolve_left (by omega), Or.inr⟩
      have sideCall : ∀ result, bufRead r request false 1 = some result →
          r.call host (.read request) = some (result.1, .got result.2.1 result.2.2) := by
        intro result eq
        simp [Ring.call, machineDescRead, machineDescIo, sim.reading completed, eq]
      by_cases drained : q.stopped = true ∧ q.content = []
      · have answer : q.call (.read request) =
            ({ q with completed := true }, .got .complete []) := by
          simp [ByteQueue.call, completed, drained]
        have holds' : r'.Holds ({ q with completed := true } : ByteQueue).content := by
          simpa [drained.2] using holds
        rw [answer]
        refine ⟨{ r' with ioRead := .disabling }, ?_, ?_, state⟩
        · rw [sideCall _ (read.trans (if_pos ⟨sim.flush.trans drained.1, nothing.mpr drained.2⟩)),
            nothing.mpr drained.2]
        · have kept : Simulates r' q :=
            sim.of_keeps keeps (by simpa [drained.2] using holds) rfl rfl fun _ => drained.2
          exact kept.sides rfl kept.flush kept.writing kept.silenced
            (fun running => by cases running) fun _ => ⟨Or.inl rfl, drained⟩
      · have answer : q.call (.read request) =
            ({ q with content := q.content.drop request },
              .got .success (q.content.take request)) := by
          simp only [ByteQueue.call, completed, Bool.false_eq_true, if_false, if_neg drained]
        rw [answer]
        refine ⟨r', ?_, ?_, state⟩
        · rw [sideCall _ (read.trans (if_neg fun both =>
            drained ⟨sim.flush.symm.trans both.1, nothing.mp both.2⟩))]
        · exact sim.of_keeps keeps holds rfl rfl fun done => by cases completed.symm.trans done

theorem Simulates.stop {r : Ring} {q : ByteQueue} (sim : Simulates r q) :
    Simulates (stopBuffer r) (q.call .stop).1 :=
  sim.sides rfl rfl (fun running => by cases running) (fun _ => Or.inl rfl) sim.reading
    fun done => ⟨(sim.finished done).1, rfl, (sim.finished done).2.2⟩

/-- A new ring, with any alignment its blocks may be given, simulates the empty queue. -/
theorem simulates_start {align : Nat} (aligned : 0 < align) :
    Simulates { createBuffer with blockAlign := align } {} := by
  obtain ⟨free, ⟨body, spare, count, ready, fresh⟩⟩ := createBuffer_shape
  exact ⟨⟨[], free, ⟨⟨body.layout, body.stored, body.capacity, body.grows⟩, spare, count, ready,
    fresh⟩, rfl⟩, aligned, rfl, rfl, rfl, rfl, fun _ => rfl, (fun stop => nomatch stop),
    fun _ => rfl, (fun done => nomatch done)⟩

/-- The simulation carried along a run of calls. -/
theorem Simulates.run (fits : host.Fits) :
    ∀ (calls : List Call) (r : Ring) (q : ByteQueue), Simulates r q →
      (∀ request, Call.read request ∈ calls → 0 < request) →
      (r.state = .noinit → q.stopped = false → FirstWriteNonempty calls) →
      ∃ trace, r.run host calls = some trace ∧
        List.Forall₂ (fun ring queue => ring.2 = queue.2 ∧ Simulates ring.1 queue.1)
          trace (q.run calls) := by
  intro calls
  induction calls with
  | nil => exact fun _ _ _ _ _ => ⟨[], rfl, .nil⟩
  | cons c calls ih =>
      intro r q sim asks first
      have step : ∃ r', r.call host c = some (r', (q.call c).2) ∧ Simulates r' (q.call c).1 ∧
          (r'.state = .noinit → (q.call c).1.stopped = false → FirstWriteNonempty calls) := by
        cases c with
        | write data =>
            obtain ⟨r', call, sim', fresh⟩ := sim.write fits data first
            refine ⟨r', call, sim', fun state running => ?_⟩
            have stays : (q.call (.write data)).1.stopped = true := by
              simp [ByteQueue.call, fresh state]
            cases stays.symm.trans running
        | read request =>
            obtain ⟨r', call, sim', state⟩ := sim.read host (asks request (by simp))
            refine ⟨r', call, sim', fun fresh running => ?_⟩
            have same : (q.call (.read request)).1.stopped = q.stopped := by
              simp only [ByteQueue.call]
              split
              · rfl
              · split <;> rfl
            exact first (state.symm.trans fresh) (same.symm.trans running)
        | stop => exact ⟨stopBuffer r, rfl, sim.stop, fun _ running => by cases running⟩
      obtain ⟨r', call, sim', first'⟩ := step
      obtain ⟨trace, run, related⟩ := ih r' (q.call c).1 sim'
        (fun request member => asks request (List.mem_cons_of_mem _ member)) first'
      refine ⟨(r', (q.call c).2) :: trace, ?_, .cons ⟨rfl, sim'⟩ related⟩
      simp [Ring.run, call, run]

/-- **The ring buffer refines a byte queue over its whole life cycle.** On a ring without marks
whose allocations succeed, every sequence of calls whose reads ask for something and whose first
write is not empty returns, answers as the queue answers, and after every call leaves the count at
the length of the queue and the size at the sum of the sizes of the blocks in the ring. -/
theorem ring_refines_queue (host : Host) (fits : host.Fits) (align : Nat) (aligned : 0 < align)
    (calls : List Call) (asks : ∀ request, Call.read request ∈ calls → 0 < request)
    (first : FirstWriteNonempty calls) :
    ∃ trace, Ring.run host { createBuffer with blockAlign := align } calls = some trace ∧
      List.Forall₂
        (fun ring queue => ring.2 = queue.2 ∧ ring.1.bytes = queue.1.content.length ∧
          ring.1.SizeIsSum)
        trace (ByteQueue.run {} calls) := by
  obtain ⟨trace, run, related⟩ := (simulates_start aligned).run fits calls _ _ asks
    fun _ _ => first
  refine ⟨trace, run, related.imp fun ring queue both => ?_⟩
  exact ⟨both.1, both.2.holds.bytes_eq, both.2.holds.size_eq⟩

/-- A host that always has memory for some blocks. -/
def roomyHost : Host where
  freeram := fun _ size => 4 * size + 1
  lowWater := fun _ mark => mark

theorem roomyHost_fits : roomyHost.Fits := fun _ size => by
  show size < 4 * size + 1
  omega

/-- A run that fills, drains, stops and asks again. -/
theorem ring_refines_queue_run :
    ∃ trace, Ring.run roomyHost { createBuffer with blockAlign := 1 }
        [.write [1, 2], .read 1, .stop, .write [3], .read 5, .read 5, .read 1] = some trace ∧
      List.Forall₂
        (fun ring queue => ring.2 = queue.2 ∧ ring.1.bytes = queue.1.content.length ∧
          ring.1.SizeIsSum)
        trace (ByteQueue.run {}
          [.write [1, 2], .read 1, .stop, .write [3], .read 5, .read 5, .read 1]) :=
  ring_refines_queue roomyHost roomyHost_fits 1 (by decide) _ (by simp)
    (by simp [FirstWriteNonempty])

end Bingewatch.Buffer
