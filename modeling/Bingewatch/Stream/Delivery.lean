import Bingewatch.Foundation.Conveyor
import Bingewatch.Stream.Pipeline

/-!
# A linear stream delivers its source

In a chain that nobody stops and in which no call fails, completion travels from segment to segment:
the source ends, its segment stops the first buffer, the next segment drains that buffer and is told
of its end, and so on to the sink. All the while the state of the stream stays `RUNNING` or
`FINISHING`, so no segment leaves early.

The proof is about the chain of byte queues. Seen from the sink back to the source, what the
machines and the segments hold is a conveyor (`Pipeline.cell`): a read and a write move bytes to the
next cell and nothing else touches them. A segment that has seen the end of its input has an input
that stays empty, so when all of them have left only the sink holds anything. `pipeline_delivers`
carries this over to the ring buffers.
-/

set_option autoImplicit false

namespace Bingewatch.Stream

open Foundation Machine Buffer

/-! ## An orderly stream -/

/-- The stream was set running. -/
def Begun (s : IoStream) : Prop :=
  s.state ≠ .init ∧ s.state ≠ .ready

/-- The steps of a stream that nobody stops, whose segments meet no errors and complete only after
the stream was set running. -/
def Orderly (s : IoStream) : Act → Prop
  | .main => True
  | .segment _ .complete => Begun s
  | .segment _ .error => False
  | .segment _ _ => True
  | .stop _ => False

/-- The places of an orderly segment: in `callback_complete` it finds a running stream. -/
def OrderlyPc (s : IoStream) : SegmentPc → Prop
  | .completeRead => Begun s
  | .completeWrite state => state = .finishing
  | .errorRead => False
  | .errorWrite _ => False
  | .errorStatus => False
  | _ => True

/-- An orderly stream is neither done nor in error before it stops. -/
structure Calm (s : IoStream) : Prop where
  inv : s.Inv
  notDone : s.state ≠ .done
  notError : s.state ≠ .error
  places : ∀ (i : Nat) (seg : SegmentThread), s.segments[i]? = some seg → OrderlyPc s seg.pc

theorem calm_start (s : IoStream) (start : streamSystem.start s) : Calm s := by
  have inv := inv_start s start
  obtain ⟨n, k, rfl⟩ := start
  refine ⟨inv, by simp, by simp, fun i seg thread => ?_⟩
  obtain rfl : seg = {} := by grind
  trivial

/-- A calm stream is `READY` until its own thread has set it running. -/
theorem Calm.ready {s : IoStream} (calm : Calm s)
    (main : (∃ k, s.main = .starting k) ∨ s.main = .setRunning) : s.state = .ready := by
  have state := calm.inv.state
  have cases : s.state = .ready ∨ s.state = .done ∨ s.state = .error := by
    rcases main with ⟨k, pc⟩ | pc
    · rw [pc] at state
      exact state
    · rw [pc] at state
      exact state
  rcases cases with ready | done | error
  · exact ready
  · exact absurd done calm.notDone
  · exact absurd error calm.notError

/-- A calm stream meets the states its writes expect. -/
theorem Calm.expected {s : IoStream} (calm : Calm s) {act : Act} (orderly : Orderly s act) :
    Expected s act := by
  cases act with
  | main => exact fun pc => calm.ready (.inr pc)
  | segment i move =>
      intro seg thread pc
      have decided := (calm.inv.segment i seg thread).decided
      rw [pc] at decided
      rcases decided with ⟨_, _, running | done⟩ | ⟨new, _⟩
      · exact running
      · exact absurd done calm.notDone
      · cases new
  | stop k => exact orderly.elim

/-- The state a thread leaves behind is one of an orderly stream. -/
theorem Calm.begun_main {s t : IoStream} (calm : Calm s) (step : mainStep s = some t) :
    t.state ≠ .done ∧ t.state ≠ .error ∧ (Begun s → Begun t) := by
  have state := calm.inv.state
  have done := calm.notDone
  have error := calm.notError
  unfold mainStep at step
  cases pc : s.main with
  | setReady =>
      rw [pc] at step state
      cases step
      exact ⟨by simp, by simp, fun begun => absurd state begun.1⟩
  | setRunning =>
      rw [pc] at step
      cases step
      exact ⟨by simp, by simp, fun _ => ⟨by simp, by simp⟩⟩
  | setStopped =>
      rw [pc] at step
      cases step
      exact ⟨by simp, by simp, fun _ => ⟨by simp, by simp⟩⟩
  | _ =>
      have same : t.state = s.state := by grind
      exact ⟨same ▸ done, same ▸ error, fun begun => ⟨same ▸ begun.1, same ▸ begun.2⟩⟩

theorem Calm.begun_segment {s t : IoStream} (calm : Calm s) {i : Nat} {seg : SegmentThread}
    {move : SegmentMove} (thread : s.segments[i]? = some seg)
    (step : segmentStep s i seg move = some t) :
    t.state ≠ .done ∧ t.state ≠ .error ∧ (Begun s → Begun t) := by
  have place := calm.places i seg thread
  have written : t.state = s.state ∨ t.state = .finishing := by
    unfold segmentStep at step
    grind [OrderlyPc]
  rcases written with same | finishing
  · exact ⟨same ▸ calm.notDone, same ▸ calm.notError,
      fun begun => ⟨same ▸ begun.1, same ▸ begun.2⟩⟩
  · simp [finishing, Begun]

/-- The other threads stay where they are, and one that is started is in its loop. -/
theorem mainStep_segment {s t : IoStream} (step : mainStep s = some t) {i : Nat}
    {seg : SegmentThread} (thread : t.segments[i]? = some seg) :
    s.segments[i]? = some seg ∨ seg.pc = .active := by
  unfold mainStep at step
  grind

theorem OrderlyPc.mono {s t : IoStream} {pc : SegmentPc} (place : OrderlyPc s pc)
    (begun : Begun s → Begun t) : OrderlyPc t pc := by
  cases pc <;> first | exact begun place | exact place

/-- A running stream that is told of completion finishes. -/
theorem callbackComplete_begun {s : IoStream} {new : StreamState} (begun : Begun s)
    (sets : callbackComplete s.state = some new) : new = .finishing := by
  obtain ⟨notInit, notReady⟩ := begun
  cases state : s.state <;> simp_all [callbackComplete]

theorem segmentStep_segment {s t : IoStream} {i : Nat} {seg : SegmentThread} {move : SegmentMove}
    (calm : Calm s) (orderly : Orderly s (.segment i move)) (thread : s.segments[i]? = some seg)
    (step : segmentStep s i seg move = some t) {new : SegmentThread}
    (moved : t.segments[i]? = some new) : OrderlyPc t new.pc := by
  have place := calm.places i seg thread
  have begun := (calm.begun_segment thread step).2.2
  have goes : new.pc = seg.pc ∨ new.pc = .completeRead ∧ move = .complete ∨
      (∃ state, new.pc = .completeWrite state ∧ seg.pc = .completeRead ∧
        callbackComplete s.state = some state) ∨
      move = .error ∨ seg.pc.locked = true ∧ ¬ OrderlyPc s seg.pc ∨
      new.pc = .unlock ∨ new.pc = .active ∨ new.pc = .exited := by
    unfold segmentStep at step
    grind [OrderlyPc, SegmentPc.locked]
  rcases goes with same | ⟨pc, rfl⟩ | ⟨state, pc, reads, sets⟩ | rfl | ⟨_, wrong⟩ | pc | pc | pc
  · rw [same]
    exact place.mono begun
  · rw [pc]
    exact begun orderly
  · rw [reads] at place
    rw [pc]
    exact callbackComplete_begun place sets
  · exact orderly.elim
  · exact absurd place wrong
  all_goals
    rw [pc]
    trivial

theorem Calm.step {s t : IoStream} {act : Act} (calm : Calm s) (orderly : Orderly s act)
    (step : streamSystem.step s act = some t) : Calm t := by
  have expected := calm.expected orderly
  cases act with
  | main =>
      obtain ⟨done, error, begun⟩ := calm.begun_main step
      refine ⟨inv_main calm.inv expected step, done, error, fun i seg thread => ?_⟩
      rcases mainStep_segment step thread with before | active
      · exact (calm.places i seg before).mono begun
      · rw [active]
        trivial
  | segment i move =>
      obtain ⟨seg, thread, step⟩ := Option.bind_eq_some_iff.mp step
      obtain ⟨done, error, begun⟩ := calm.begun_segment thread step
      refine ⟨inv_segment calm.inv thread expected step, done, error, fun j new moved => ?_⟩
      by_cases here : j = i
      · subst here
        exact segmentStep_segment calm orderly thread step moved
      · have before : s.segments[j]? = some new := by
          unfold segmentStep at step
          grind
        exact (calm.places j new before).mono begun
  | stop k => exact orderly.elim

/-- **An orderly stream stays calm.** -/
theorem calm_reach {s : IoStream} (reached : streamSystem.ReachUnder Orderly s) : Calm s :=
  reached.invariant calm_start fun _ _ _ calm orderly step => calm.step orderly step

theorem Calm.begun {s t : IoStream} {act : Act} (calm : Calm s) (orderly : Orderly s act)
    (step : streamSystem.step s act = some t) (begun : Begun s) : Begun t := by
  cases act with
  | main => exact (calm.begun_main step).2.2 begun
  | segment i move =>
      obtain ⟨seg, thread, step⟩ := Option.bind_eq_some_iff.mp step
      exact (calm.begun_segment thread step).2.2 begun
  | stop k => exact orderly.elim

/-- In an orderly stream a segment in its loop that finds the state other than `READY` finds the
stream running. -/
theorem Calm.isRunning {s : IoStream} (calm : Calm s) {i : Nat} {seg : SegmentThread}
    (thread : s.segments[i]? = some seg) (active : seg.pc = .active) (notReady : s.state ≠ .ready) :
    s.state.isRunning = true ∧ Begun s := by
  have done := calm.notDone
  have error := calm.notError
  have state := calm.inv.state
  have phase := (calm.inv.running thread (by simp [active])).1
  have running : s.state = .running ∨ s.state = .finishing := by
    rcases phase with phase | phase
    · rw [phase] at state
      rcases state with ready | now | now
      · exact absurd ready notReady
      · exact absurd now done
      · exact absurd now error
    · rw [phase] at state
      rcases state with now | now | now | now
      · exact Or.inl now
      · exact Or.inr now
      · exact absurd now done
      · exact absurd now error
  rcases running with now | now <;> simp [now, StreamState.isRunning, StreamState.rank, Begun]

/-- A step keeps the number of segments. -/
theorem streamStep_length {s t : IoStream} {act : Act} (step : streamSystem.step s act = some t) :
    t.segments.length = s.segments.length := by
  cases act with
  | main =>
      have step : mainStep s = some t := step
      unfold mainStep at step
      grind
  | segment i move =>
      obtain ⟨seg, thread, step⟩ := Option.bind_eq_some_iff.mp step
      unfold segmentStep at step
      grind
  | stop k =>
      obtain ⟨pc, caller, step⟩ := Option.bind_eq_some_iff.mp step
      unfold stopStep at step
      grind

/-- Only leaving its loop ends a segment's thread. -/
theorem streamStep_exited {s t : IoStream} {act : Act} (step : streamSystem.step s act = some t)
    {i : Nat} {seg : SegmentThread} (thread : t.segments[i]? = some seg)
    (exited : seg.pc = .exited) : s.segments[i]? = some seg ∨ act = .segment i .leave := by
  cases act with
  | main =>
      rcases mainStep_segment step thread with before | active
      · exact Or.inl before
      · cases exited.symm.trans active
  | segment j move =>
      obtain ⟨old, before, step⟩ := Option.bind_eq_some_iff.mp step
      unfold segmentStep at step
      grind
  | stop k =>
      obtain ⟨pc, caller, step⟩ := Option.bind_eq_some_iff.mp step
      unfold stopStep at step
      grind

/-! ## The conveyor -/

namespace Pipeline

/-- The bytes a segment still has to hand on. -/
def chunkAt {β : Type} (p : Pipeline β) (i : Nat) : List UInt8 :=
  (p.loops[i]?.map SegmentLoop.chunk).getD []

/-- What the `i`-th segment writes to: a buffer or, after the last of them, the sink. -/
def storeAt (p : Pipeline ByteQueue) (i : Nat) : List UInt8 :=
  match p.buffers[i]? with
  | some b => b.content
  | none => if i = p.buffers.length then p.sink else []

/-- What is under way, from the source on: the source, then in turn the chunk of a segment and what
it writes to. -/
def cell (p : Pipeline ByteQueue) (k : Nat) : List UInt8 :=
  if k = 0 then p.source
  else if k % 2 = 1 then p.chunkAt (k / 2)
  else p.storeAt (k / 2 - 1)

variable {p p' : Pipeline ByteQueue} {i : Nat}

@[simp] theorem cell_source : p.cell 0 = p.source := rfl

@[simp] theorem cell_chunk : p.cell (2 * i + 1) = p.chunkAt i := by
  have odd : (2 * i + 1) % 2 = 1 := by omega
  have half : (2 * i + 1) / 2 = i := by omega
  simp [cell, odd, half]

@[simp] theorem cell_store : p.cell (2 * (i + 1)) = p.storeAt i := by
  have even : 2 * (i + 1) % 2 = 0 := by omega
  simp [cell, even]

/-- Every cell is the source, a chunk or a store. -/
theorem cell_kind (k : Nat) : k = 0 ∨ (∃ i, k = 2 * i + 1) ∨ ∃ i, k = 2 * (i + 1) := by
  by_cases first : k = 0
  · exact Or.inl first
  · by_cases odd : k % 2 = 1
    · exact Or.inr (Or.inl ⟨k / 2, by omega⟩)
    · exact Or.inr (Or.inr ⟨k / 2 - 1, by omega⟩)

/-- The `i`-th segment reads from something that is empty and stays so. -/
def Dry (p : Pipeline ByteQueue) : Nat → Prop
  | 0 => p.source = []
  | i + 1 => ∀ b, p.buffers[i]? = some b → b.stopped = true ∧ b.content = []

/-- Dry inputs are empty cells. -/
theorem Dry.cell_eq (dry : p.Dry i) (within : i ≤ p.buffers.length) : p.cell (2 * i) = [] := by
  cases i with
  | zero => exact dry
  | succ i =>
      obtain ⟨b, here⟩ : ∃ b, p.buffers[i]? = some b := ⟨_, List.getElem?_eq_getElem (by omega)⟩
      rw [cell_store, storeAt, here]
      exact (dry b here).2

/-- A call on a machine: it touches one cell, leaves the threads alone, and no dry input gets
anything. -/
structure Touches (p p' : Pipeline ByteQueue) (k : Nat) : Prop where
  stream : p'.stream = p.stream
  loops : p'.loops = p.loops
  places : p'.buffers.length = p.buffers.length
  elsewhere : ∀ j, j ≠ k → p'.cell j = p.cell j
  dry : ∀ j, p.Dry j → p'.Dry j

theorem chunkAt_congr (loops : p'.loops = p.loops) : p'.chunkAt i = p.chunkAt i := by
  rw [chunkAt, chunkAt, loops]

/-- A call on a buffer. -/
theorem touches_buffer {b : ByteQueue} (new : ByteQueue) (here : p.buffers[i]? = some b)
    (dry : b.stopped = true → b.content = [] → new.stopped = true ∧ new.content = []) :
    let p' : Pipeline ByteQueue := { p with buffers := p.buffers.set i new }
    Touches p p' (2 * (i + 1)) ∧ p.cell (2 * (i + 1)) = b.content ∧
      p'.cell (2 * (i + 1)) = new.content ∧ p'.buffers[i]? = some new := by
  intro p'
  have within : i < p.buffers.length := (List.getElem?_eq_some_iff.mp here).1
  have there : p'.buffers[i]? = some new := List.getElem?_set_self within
  have others : ∀ j, j ≠ i → p'.buffers[j]? = p.buffers[j]? := fun j other =>
    List.getElem?_set_ne (Ne.symm other)
  have length : p'.buffers.length = p.buffers.length := List.length_set
  refine ⟨⟨rfl, rfl, length, fun k other => ?_, fun j empty => ?_⟩, ?_, ?_, there⟩
  · rcases cell_kind k with rfl | ⟨j, rfl⟩ | ⟨j, rfl⟩
    · rfl
    · rw [cell_chunk, cell_chunk]
      exact chunkAt_congr rfl
    · rw [cell_store, cell_store, storeAt, storeAt, others j (by omega), length]
  · cases j with
    | zero => exact empty
    | succ j =>
        intro c found
        by_cases same : j = i
        · subst same
          obtain rfl : new = c := Option.some.inj (there.symm.trans found)
          exact dry (empty b here).1 (empty b here).2
        · exact empty c (by rw [← others j same, found])
  · rw [cell_store, storeAt, here]
  · rw [cell_store, storeAt, there]

/-- What a read does: the bytes it returns come from the front of the input, and completion is
reported only by an input that is dry from then on. -/
structure ReadSpec (p p' : Pipeline ByteQueue) (i : Nat) (status : IoStatus) (out : List UInt8) :
    Prop where
  touches : Touches p p' (2 * i)
  front : p.cell (2 * i) = out ++ p'.cell (2 * i)
  noError : status.isError = false
  ends : status = .complete → p'.Dry i

/-- A read of a queue. -/
theorem byteQueue_read (b : ByteQueue) (request : Nat) :
    ∃ status out, (b.call (.read request)).2 = .got status out ∧
      b.content = out ++ (b.call (.read request)).1.content ∧
      (b.call (.read request)).1.stopped = b.stopped ∧ status.isError = false ∧
      (status = .complete → b.stopped = true ∧ b.content = []) := by
  simp only [ByteQueue.call]
  split
  · exact ⟨.success, [], rfl, rfl, rfl, rfl, by simp⟩
  · split
    · next drained => exact ⟨.complete, [], rfl, rfl, rfl, rfl, fun _ => drained⟩
    · exact ⟨.success, _, rfl, (List.take_append_drop request b.content).symm, rfl, rfl, by simp⟩

theorem callBuffer_queue {buflen : Nat → Nat} {b : ByteQueue} {request : Call} {answer : Answer}
    (call : p.callBuffer (queueChain buflen) i b request = some (p', answer)) :
    p' = { p with buffers := p.buffers.set i (b.call request).1 } ∧
      answer = (b.call request).2 := by
  simp only [callBuffer, queueChain, Option.map_some, Option.some.injEq, Prod.mk.injEq] at call
  exact ⟨call.1.symm, call.2.symm⟩

theorem readInput_spec {buflen : Nat → Nat} {choice : Choice} {status : IoStatus}
    {out : List UInt8}
    (read : p.readInput (queueChain buflen) i choice = some (p', status, out)) :
    ReadSpec p p' i status out := by
  cases i with
  | zero =>
      simp only [readInput] at read
      split at read
      · next given =>
          simp only [Option.some.injEq, Prod.mk.injEq] at read
          obtain ⟨rfl, rfl, rfl⟩ := read
          refine ⟨⟨rfl, rfl, rfl, fun k other => ?_, fun j empty => ?_⟩, ?_, ?_, fun ends => ?_⟩
          · rcases cell_kind k with rfl | ⟨j, rfl⟩ | ⟨j, rfl⟩
            · exact absurd rfl other
            · rw [cell_chunk, cell_chunk]
              exact chunkAt_congr rfl
            · rw [cell_store, cell_store]
              rfl
          · cases j with
            | zero =>
                have nothing : p.source = [] := empty
                exact (congrArg (List.drop choice.size) nothing).trans List.drop_nil
            | succ j => exact empty
          · exact (List.take_append_drop choice.size p.source).symm
          · cases choice.complete <;> rfl
          · have complete : choice.complete = true := by
              by_contra running
              simp [running] at ends
            exact List.drop_eq_nil_of_le (Nat.le_of_eq (given.2.2 complete).symm)
      · cases read
  | succ i =>
      obtain ⟨b, here, read⟩ := Option.bind_eq_some_iff.mp read
      obtain ⟨⟨p₁, answer⟩, call, read⟩ := Option.bind_eq_some_iff.mp read
      obtain ⟨rfl, rfl⟩ := callBuffer_queue call
      obtain ⟨status', out', answers, front, stopped, noError, ends⟩ :=
        byteQueue_read b ((queueChain buflen).buflen (i + 1))
      simp only [answers, Option.some.injEq, Prod.mk.injEq] at read
      obtain ⟨rfl, rfl, rfl⟩ := read
      have drains : b.content = [] →
          (b.call (.read ((queueChain buflen).buflen (i + 1)))).1.content = [] := fun empty =>
        (List.append_eq_nil_iff.mp (front.symm.trans empty)).2
      obtain ⟨touches, before, after, there⟩ :=
        touches_buffer _ here fun stop empty => ⟨stopped.trans stop, drains empty⟩
      refine ⟨touches, ?_, noError, fun complete c found => ?_⟩
      · rw [before, after]
        exact front
      · obtain rfl := Option.some.inj (there.symm.trans found)
        exact ⟨stopped.trans (ends complete).1, drains (ends complete).2⟩

/-- What a write does: the sink or the buffer gets the bytes it counts, and the loop of
`write_to_dest` goes on. -/
structure WriteSpec (p p' : Pipeline ByteQueue) (i : Nat) (data : List UInt8) (status : IoStatus)
    (count : Nat) : Prop where
  touches : Touches p p' (2 * (i + 1))
  back : p'.cell (2 * (i + 1)) = p.cell (2 * (i + 1)) ++ data.take count
  goesOn : writePass status = .goOn

theorem writeOutput_spec {buflen : Nat → Nat} {data : List UInt8} {choice : Choice}
    {status : IoStatus} {count : Nat} (within : i ≤ p.buffers.length)
    (write : p.writeOutput (queueChain buflen) i data choice = some (p', status, count)) :
    WriteSpec p p' i data status count := by
  simp only [writeOutput] at write
  split at write
  · next b here =>
      obtain ⟨⟨p₁, answer⟩, call, write⟩ := Option.bind_eq_some_iff.mp write
      obtain ⟨rfl, rfl⟩ := callBuffer_queue call
      cases stopped : b.stopped with
      | true =>
          have answers : b.call (.write data) = (b, .wrote .success 0) := by
            simp [ByteQueue.call, stopped]
          simp only [answers, Option.some.injEq, Prod.mk.injEq] at write
          obtain ⟨rfl, rfl, rfl⟩ := write
          obtain ⟨touches, before, after, _⟩ :=
            touches_buffer b here fun stop empty => ⟨stop, empty⟩
          refine ⟨touches, ?_, rfl⟩
          rw [before, after, List.take_zero, List.append_nil]
      | false =>
          have answers : b.call (.write data) =
              ({ b with content := b.content ++ data }, .wrote .success data.length) := by
            simp [ByteQueue.call, stopped]
          simp only [answers, Option.some.injEq, Prod.mk.injEq] at write
          obtain ⟨rfl, rfl, rfl⟩ := write
          obtain ⟨touches, before, after, _⟩ :=
            touches_buffer { b with content := b.content ++ data } here
              fun stop _ => by cases stopped.symm.trans stop
          refine ⟨touches, ?_, rfl⟩
          rw [before, after, List.take_length]
  · next here =>
      have last : i = p.buffers.length :=
        Nat.le_antisymm within (List.getElem?_eq_none_iff.mp here)
      split at write
      · simp only [Option.some.injEq, Prod.mk.injEq] at write
        obtain ⟨rfl, rfl, rfl⟩ := write
        refine ⟨⟨rfl, rfl, rfl, fun k other => ?_, fun j empty => ?_⟩, ?_, rfl⟩
        · rcases cell_kind k with rfl | ⟨j, rfl⟩ | ⟨j, rfl⟩
          · rfl
          · rw [cell_chunk, cell_chunk]
            exact chunkAt_congr rfl
          · have notLast : j ≠ p.buffers.length := by omega
            rw [cell_store, cell_store, storeAt, storeAt]
            simp only [if_neg notLast]
        · cases j with
          | zero => exact empty
          | succ j => exact empty
        · rw [cell_store, cell_store, storeAt, storeAt]
          simp only [here, if_pos last]
      · cases write

theorem stopMachine_spec {buflen : Nat → Nat}
    (stop : p.stopMachine (queueChain buflen) i = some p') :
    Touches p p' (2 * (i + 1)) ∧ p'.cell = p.cell := by
  simp only [stopMachine] at stop
  split at stop
  · next b here =>
      obtain ⟨⟨p₁, answer⟩, call, rfl⟩ := Option.map_eq_some_iff.mp stop
      obtain ⟨rfl, rfl⟩ := callBuffer_queue call
      obtain ⟨touches, before, after, _⟩ :=
        touches_buffer { b with stopped := true } here fun _ empty => ⟨rfl, empty⟩
      refine ⟨touches, funext fun k => ?_⟩
      by_cases found : k = 2 * (i + 1)
      · subst found
        exact after.trans before.symm
      · exact touches.elsewhere k found
  · cases stop
    exact ⟨⟨rfl, rfl, rfl, fun _ _ => rfl, fun _ dry => dry⟩, rfl⟩

theorem dry_setLoop (loop : SegmentLoop) {j : Nat} : (p.setLoop i loop).Dry j ↔ p.Dry j := by
  cases j <;> rfl

theorem cell_setLoop_chunk {loop : SegmentLoop} (within : i < p.loops.length) :
    (p.setLoop i loop).cell (2 * i + 1) = loop.chunk := by
  have here : (p.setLoop i loop).loops[i]? = some loop := List.getElem?_set_self within
  rw [cell_chunk, chunkAt, here]
  rfl

theorem cell_setLoop {loop : SegmentLoop} {k : Nat} (other : k ≠ 2 * i + 1) :
    (p.setLoop i loop).cell k = p.cell k := by
  rcases cell_kind k with rfl | ⟨j, rfl⟩ | ⟨j, rfl⟩
  · rfl
  · have same : (p.setLoop i loop).loops[j]? = p.loops[j]? := List.getElem?_set_ne (by omega)
    rw [cell_chunk, cell_chunk, chunkAt, chunkAt, same]
  · rw [cell_store, cell_store]
    rfl

end Pipeline

/-! ## The invariant -/

/-- The segment has seen the end of its input. -/
def SegmentLoop.ended (loop : SegmentLoop) : Bool :=
  loop.doComplete ||
    match loop.pc with
    | .complete => true
    | .stopIn => true
    | .stopOut => true
    | .clear => true
    | .leave => true
    | _ => false

/-- A segment at work: it reports completion to a running stream, meets no error, holds bytes only
while it writes, and has seen the end of an input that is dry. -/
structure LoopOk (p : Pipeline ByteQueue) (i : Nat) (loop : SegmentLoop) : Prop where
  begun : loop.pc = .complete → Begun p.stream
  noFail : loop.pc ≠ .fail
  holds : loop.chunk ≠ [] → loop.pc = .write
  dry : loop.ended = true → p.Dry i

/-- A segment that is not writing holds nothing, wherever it goes next. -/
theorem LoopOk.goto {p p₁ : Pipeline ByteQueue} {i : Nat} {loop : SegmentLoop}
    (ok : LoopOk p i loop) (idle : loop.pc ≠ .write) {pc : LoopPc} {doComplete : Bool}
    (noFail : pc ≠ .fail) (begun : pc = .complete → Begun p₁.stream)
    (dry : SegmentLoop.ended { loop with pc := pc, doComplete := doComplete } = true → p₁.Dry i) :
    LoopOk p₁ i { loop with pc := pc, doComplete := doComplete } :=
  ⟨begun, noFail, fun holds => absurd (ok.holds holds) idle, dry⟩

/-- What holds along every run of a chain of queues. -/
structure Delivering (bytes : List UInt8) (p : Pipeline ByteQueue) : Prop where
  orderly : streamSystem.ReachUnder Orderly p.stream
  threads : p.loops.length = p.stream.segments.length
  places : p.buffers.length + 1 = p.loops.length
  loop : ∀ (i : Nat) (loop : SegmentLoop), p.loops[i]? = some loop → LoopOk p i loop
  left : ∀ (i : Nat) (thread : SegmentThread) (loop : SegmentLoop),
    p.stream.segments[i]? = some thread → p.loops[i]? = some loop → thread.pc = .exited →
      loop.pc = .leave
  whole : flow p.cell (2 * p.loops.length) = bytes

theorem delivering_start {buflen : Nat → Nat} {bytes : List UInt8} {queues : Nat}
    (p : Pipeline ByteQueue)
    (start : (pipelineSystem (queueChain buflen) bytes (List.replicate queues {})).start p) :
    Delivering bytes p := by
  obtain rfl := start
  refine ⟨.start ⟨_, 0, rfl⟩, by simp, by simp, fun i loop here => ?_,
    fun i thread loop here _ exited => ?_, ?_⟩
  · obtain rfl : loop = {} := by grind
    exact ⟨(fun pc => nomatch pc), by simp, by simp, by simp [SegmentLoop.ended]⟩
  · obtain rfl : thread = {} := by grind
    cases exited
  · apply flow_eq_first
    intro k positive _
    rcases Pipeline.cell_kind k with rfl | ⟨j, rfl⟩ | ⟨j, rfl⟩
    · omega
    · rw [Pipeline.cell_chunk, Pipeline.chunkAt]
      grind
    · rw [Pipeline.cell_store, Pipeline.storeAt]
      grind

namespace Delivering

variable {bytes : List UInt8} {p p' : Pipeline ByteQueue} {i : Nat} {loop : SegmentLoop}

/-- A step of the threads of the stream. -/
theorem control (inv : Delivering bytes p) {act : Act} (step : p.control act = some p')
    (orderly : Orderly p.stream act)
    (leaves : ∀ (i : Nat) (loop : SegmentLoop), act = .segment i .leave →
      p.loops[i]? = some loop → loop.pc = .leave) :
    Delivering bytes p' := by
  obtain ⟨stream, moved, rfl⟩ := Option.map_eq_some_iff.mp step
  have calm := calm_reach inv.orderly
  refine ⟨.step inv.orderly orderly moved, ?_, inv.places, fun i loop here => ?_,
    fun i thread loop there here exited => ?_, ?_⟩
  · exact inv.threads.trans (streamStep_length moved).symm
  · have old := inv.loop i loop here
    refine ⟨fun pc => calm.begun orderly moved (old.begun pc), old.noFail, old.holds,
      fun ended => ?_⟩
    have dry := old.dry ended
    cases i <;> exact dry
  · rcases streamStep_exited moved there exited with before | leave
    · exact inv.left i thread loop before here exited
    · exact leaves i loop leave here
  · exact inv.whole

/-- A call on a machine, after which the segment goes on with other variables. -/
theorem advance (inv : Delivering bytes p) (here : p.loops[i]? = some loop) {k : Nat}
    {p₁ : Pipeline ByteQueue} (touches : p.Touches p₁ k)
    (running : ∀ thread, p.stream.segments[i]? = some thread → thread.pc ≠ .exited)
    {new : SegmentLoop} (ok : LoopOk p₁ i new)
    (whole : flow (p₁.setLoop i new).cell (2 * p.loops.length) =
      flow p.cell (2 * p.loops.length)) :
    Delivering bytes (p₁.setLoop i new) := by
  have within : i < p.loops.length := (List.getElem?_eq_some_iff.mp here).1
  have loops : (p₁.setLoop i new).loops = p.loops.set i new := by
    rw [Pipeline.setLoop, touches.loops]
  have stream : (p₁.setLoop i new).stream = p.stream := touches.stream
  have length : (p₁.setLoop i new).loops.length = p.loops.length := by rw [loops, List.length_set]
  refine ⟨stream ▸ inv.orderly, ?_, ?_, fun j other found => ?_,
    fun j thread other there found exited => ?_, ?_⟩
  · rw [length, stream]
    exact inv.threads
  · rw [length]
    exact (congrArg (· + 1) touches.places).trans inv.places
  · rw [loops] at found
    by_cases same : j = i
    · subst same
      obtain rfl : new = other := by
        rw [List.getElem?_set_self within] at found
        exact Option.some.inj found
      exact ⟨ok.begun, ok.noFail, ok.holds,
        fun ended => (Pipeline.dry_setLoop new).mpr (ok.dry ended)⟩
    · rw [List.getElem?_set_ne (Ne.symm same)] at found
      have old := inv.loop j other found
      exact ⟨fun pc => stream ▸ old.begun pc, old.noFail, old.holds,
        fun ended => (Pipeline.dry_setLoop new).mpr (touches.dry j (old.dry ended))⟩
  · rw [stream] at there
    rw [loops] at found
    by_cases same : j = i
    · subst same
      exact absurd exited (running thread there)
    · rw [List.getElem?_set_ne (Ne.symm same)] at found
      exact inv.left j thread other there found exited
  · rw [length, whole]
    exact inv.whole

/-- The segment stops a machine. -/
theorem stop (inv : Delivering bytes p) (here : p.loops[i]? = some loop)
    (running : ∀ thread, p.stream.segments[i]? = some thread → thread.pc ≠ .exited)
    {k : Nat} {p₁ : Pipeline ByteQueue} (spec : p.Touches p₁ k ∧ p₁.cell = p.cell)
    {new : SegmentLoop} (ok : LoopOk p₁ i new) (chunk : new.chunk = loop.chunk) :
    Delivering bytes (p₁.setLoop i new) := by
  have within : i < p.loops.length := (List.getElem?_eq_some_iff.mp here).1
  refine inv.advance here spec.1 running ok (flow_congr fun k _ => ?_)
  by_cases found : k = 2 * i + 1
  · subst found
    rw [Pipeline.cell_setLoop_chunk (spec.1.loops.symm ▸ within), Pipeline.cell_chunk,
      Pipeline.chunkAt, here, chunk]
    rfl
  · rw [Pipeline.cell_setLoop found, spec.2]

/-- The segment goes on with other variables and the same chunk. -/
theorem setLoop (inv : Delivering bytes p) (here : p.loops[i]? = some loop)
    (running : ∀ thread, p.stream.segments[i]? = some thread → thread.pc ≠ .exited)
    {new : SegmentLoop} (ok : LoopOk p i new) (chunk : new.chunk = loop.chunk) :
    Delivering bytes (p.setLoop i new) :=
  inv.stop here running (k := 0)
    ⟨⟨rfl, rfl, rfl, fun _ _ => rfl, fun _ dry => dry⟩, rfl⟩ ok chunk

/-- A read. -/
theorem read (inv : Delivering bytes p) (here : p.loops[i]? = some loop)
    (running : ∀ thread, p.stream.segments[i]? = some thread → thread.pc ≠ .exited)
    (pc : loop.pc = .read) {p₁ : Pipeline ByteQueue} {status : IoStatus} {out : List UInt8}
    (spec : p.ReadSpec p₁ i status out) :
    Delivering bytes (p₁.setLoop i (loop.afterRead status out)) := by
  have within : i < p.loops.length := (List.getElem?_eq_some_iff.mp here).1
  have old := inv.loop i loop here
  have nothing : loop.chunk = [] := by
    by_contra holds
    cases pc.symm.trans (old.holds holds)
  have after : loop.afterRead status out =
      { pc := if out = [] then .top else .write
        doComplete := loop.doComplete || status == .complete
        chunk := out } := by
    simp [SegmentLoop.afterRead, spec.noError]
  rw [after]
  refine inv.advance here spec.touches running ⟨?_, ?_, ?_, ?_⟩ ?_
  · split <;> simp
  · split <;> simp
  · intro holds
    exact if_neg holds
  · intro ended
    have complete : loop.doComplete = true ∨ status = .complete := by
      by_cases empty : out = [] <;> simpa [SegmentLoop.ended, empty] using ended
    rcases complete with flag | complete
    · exact spec.touches.dry i (old.dry (by simp [SegmentLoop.ended, flag]))
    · exact spec.ends complete
  · -- The bytes move from the input to the segment's empty chunk.
    refine Moves.flow_eq (j := 2 * i) ⟨⟨out, ?_, ?_⟩, fun k notIn notChunk => ?_⟩ (by omega)
    · rw [Pipeline.cell_setLoop (by omega)]
      exact spec.front
    · have length : i < p₁.loops.length := spec.touches.loops.symm ▸ within
      rw [Pipeline.cell_setLoop_chunk length, Pipeline.cell_chunk, Pipeline.chunkAt, here]
      simp [nothing]
    · rw [Pipeline.cell_setLoop notChunk]
      exact spec.touches.elsewhere k notIn

/-- A write. -/
theorem write (inv : Delivering bytes p) (here : p.loops[i]? = some loop)
    (running : ∀ thread, p.stream.segments[i]? = some thread → thread.pc ≠ .exited)
    (pc : loop.pc = .write) {p₁ : Pipeline ByteQueue} {status : IoStatus} {count : Nat}
    (spec : p.WriteSpec p₁ i loop.chunk status count) :
    Delivering bytes (p₁.setLoop i (loop.afterWrite status count)) := by
  have within : i < p.loops.length := (List.getElem?_eq_some_iff.mp here).1
  have old := inv.loop i loop here
  have after : loop.afterWrite status count = { loop with chunk := loop.chunk.drop count } := by
    simp only [SegmentLoop.afterWrite, spec.goesOn]
  rw [after]
  refine inv.advance here spec.touches running ⟨?_, ?_, ?_, ?_⟩ ?_
  · intro complete
    cases pc.symm.trans complete
  · exact old.noFail
  · exact fun _ => pc
  · exact fun ended => spec.touches.dry i (old.dry ended)
  · -- The bytes move from the chunk to what the segment writes to.
    refine Moves.flow_eq (j := 2 * i + 1)
      ⟨⟨loop.chunk.take count, ?_, ?_⟩, fun k notChunk notOut => ?_⟩ (by omega)
    · have length : i < p₁.loops.length := spec.touches.loops.symm ▸ within
      rw [Pipeline.cell_setLoop_chunk length, Pipeline.cell_chunk, Pipeline.chunkAt, here]
      exact (List.take_append_drop count loop.chunk).symm
    · rw [Pipeline.cell_setLoop (by omega)]
      exact spec.back
    · rw [Pipeline.cell_setLoop notChunk]
      exact spec.touches.elsewhere k notOut

/-- A step of the threads after which the segment goes on with other variables. -/
theorem control_setLoop (inv : Delivering bytes p) (here : p.loops[i]? = some loop)
    (running : ∀ thread, p.stream.segments[i]? = some thread → thread.pc ≠ .exited)
    {move : SegmentMove} {new : SegmentLoop}
    (step : (p.control (.segment i move)).map (fun p => p.setLoop i new) = some p')
    (stays : move ≠ .leave) (orderly : Orderly p.stream (.segment i move))
    (chunk : new.chunk = loop.chunk)
    (ok : ∀ p₁ : Pipeline ByteQueue, (p.Dry i → p₁.Dry i) → LoopOk p₁ i new) :
    Delivering bytes p' := by
  obtain ⟨p₁, moved, rfl⟩ := Option.map_eq_some_iff.mp step
  have inv₁ : Delivering bytes p₁ := inv.control moved orderly fun j other leave _ => by
    cases leave
    exact absurd rfl stays
  obtain ⟨stream, streamStep, rfl⟩ := Option.map_eq_some_iff.mp moved
  refine inv₁.setLoop here (fun thread there exited => ?_) (ok _ fun dry => ?_) chunk
  · rcases streamStep_exited streamStep there exited with before | leave
    · exact running thread before exited
    · cases leave
      exact absurd rfl stays
  · cases i <;> exact dry

/-- A step of a segment in its loop. -/
theorem segmentRun {buflen : Nat → Nat} {choice : Choice} (inv : Delivering bytes p)
    {thread : SegmentThread} (there : p.stream.segments[i]? = some thread)
    (active : thread.pc = .active) (here : p.loops[i]? = some loop)
    (step : p.segmentRun (queueChain buflen) i loop choice = some p') : Delivering bytes p' := by
  have calm := calm_reach inv.orderly
  have old := inv.loop i loop here
  have within : i ≤ p.buffers.length := by
    have := (List.getElem?_eq_some_iff.mp here).1
    have := inv.places
    omega
  have running : ∀ other, p.stream.segments[i]? = some other → other.pc ≠ .exited := by
    intro other found exited
    obtain rfl : thread = other := Option.some.inj (there.symm.trans found)
    cases active.symm.trans exited
  have ends : loop.ended = true → p.Dry i := old.dry
  unfold Pipeline.segmentRun at step
  cases pc : loop.pc with
  | start =>
      rw [pc] at step
      refine inv.control_setLoop here running step (by simp) trivial rfl fun p₁ dry => ?_
      exact old.goto (by simp [pc]) (by simp) (by simp) fun ended =>
        dry (ends (by simpa [SegmentLoop.ended, pc] using ended))
  | top =>
      simp only [pc] at step
      split at step
      · cases step
        exact inv
      · next notReady =>
          obtain ⟨isRunning, begun⟩ := calm.isRunning there active notReady
          split at step
          · next complete =>
              cases step
              refine inv.setLoop here running ?_ rfl
              exact old.goto (by simp [pc]) (by simp) (fun _ => begun) fun _ =>
                ends (by simp [SegmentLoop.ended, complete])
          · next incomplete =>
              cases step
              refine inv.setLoop here running ?_ rfl
              exact old.goto (by simp [pc]) (by simp) (by simp) fun ended =>
                absurd (by simpa [SegmentLoop.ended] using ended) incomplete
  | read =>
      rw [pc] at step
      obtain ⟨⟨p₁, status, out⟩, read, rfl⟩ := Option.map_eq_some_iff.mp step
      exact inv.read here running pc (Pipeline.readInput_spec read)
  | write =>
      simp only [pc] at step
      cases chunk : loop.chunk with
      | nil =>
          rw [chunk] at step
          cases step
          refine inv.setLoop here running ⟨by simp, by simp, by simp, fun ended => ?_⟩ chunk.symm
          exact ends (by simpa [SegmentLoop.ended, pc] using ended)
      | cons x rest =>
          rw [chunk] at step
          obtain ⟨⟨p₁, status, count⟩, write, rfl⟩ := Option.map_eq_some_iff.mp step
          apply inv.write here running pc
          rw [chunk]
          exact Pipeline.writeOutput_spec within write
  | fail => exact absurd pc old.noFail
  | complete =>
      rw [pc] at step
      have begun := old.begun pc
      refine inv.control_setLoop here running step (by simp) begun rfl fun p₁ dry => ?_
      exact old.goto (by simp [pc]) (by simp) (by simp) fun _ =>
        dry (ends (by simp [SegmentLoop.ended, pc]))
  | stopIn =>
      simp only [pc] at step
      have dry := ends (by simp [SegmentLoop.ended, pc])
      cases i with
      | zero =>
          cases step
          refine inv.setLoop here running ?_ rfl
          exact old.goto (by simp [pc]) (by simp) (by simp) fun _ => dry
      | succ i =>
          obtain ⟨p₁, stop, rfl⟩ := Option.map_eq_some_iff.mp step
          have spec := Pipeline.stopMachine_spec stop
          refine inv.stop here running spec ?_ rfl
          exact old.goto (by simp [pc]) (by simp) (by simp) fun _ => spec.1.dry _ dry
  | stopOut =>
      rw [pc] at step
      have dry := ends (by simp [SegmentLoop.ended, pc])
      obtain ⟨p₁, stop, rfl⟩ := Option.map_eq_some_iff.mp step
      have spec := Pipeline.stopMachine_spec stop
      refine inv.stop here running spec ?_ rfl
      exact old.goto (by simp [pc]) (by simp) (by simp) fun _ => spec.1.dry _ dry
  | clear =>
      rw [pc] at step
      refine inv.control_setLoop here running step (by simp) trivial rfl fun p₁ dry => ?_
      exact old.goto (by simp [pc]) (by simp) (by simp) fun _ =>
        dry (ends (by simp [SegmentLoop.ended, pc]))
  | leave =>
      rw [pc] at step
      apply inv.control step trivial
      intro j other leave found
      cases leave
      obtain rfl : loop = other := Option.some.inj (here.symm.trans found)
      exact pc

theorem step {buflen : Nat → Nat} {queues : List ByteQueue} {act : PipelineAct}
    (inv : Delivering bytes p)
    (step : (pipelineSystem (queueChain buflen) bytes queues).step p act = some p') :
    Delivering bytes p' := by
  cases act with
  | main => exact inv.control step trivial fun _ _ leave _ => nomatch leave
  | segment i choice =>
      obtain ⟨thread, there, step⟩ := Option.bind_eq_some_iff.mp step
      cases pc : thread.pc with
      | active =>
          rw [pc] at step
          obtain ⟨loop, here, step⟩ := Option.bind_eq_some_iff.mp step
          exact inv.segmentRun there pc here step
      | _ =>
          rw [pc] at step
          exact inv.control step trivial fun _ _ leave _ => nomatch leave

/-- The sink is the far end of the conveyor. -/
theorem cell_last (inv : Delivering bytes p) : p.cell (2 * p.loops.length) = p.sink := by
  have here : p.buffers[p.buffers.length]? = none := List.getElem?_eq_none (Nat.le_refl _)
  rw [← inv.places, Pipeline.cell_store, Pipeline.storeAt, here]
  exact if_pos rfl

/-- What the sink has taken is a prefix of the source. -/
theorem sink_prefix (inv : Delivering bytes p) : p.sink <+: bytes := by
  rw [← inv.whole, ← inv.cell_last]
  exact prefix_flow p.cell _

/-- Once all segments have left, no other cell holds anything. -/
theorem drained (inv : Delivering bytes p) (left : p.AllLeft) {k : Nat}
    (before : k < 2 * p.loops.length) : p.cell k = [] := by
  have places := inv.places
  have gone : ∀ i, i < p.loops.length → ∃ loop, p.loops[i]? = some loop ∧ loop.pc = .leave := by
    intro i within
    have here := List.getElem?_eq_getElem within
    exact ⟨_, here, left _ (List.mem_of_getElem? here)⟩
  have dry : ∀ i, i < p.loops.length → p.cell (2 * i) = [] := by
    intro i within
    obtain ⟨loop, here, pc⟩ := gone i within
    have input := (inv.loop i loop here).dry (by simp [SegmentLoop.ended, pc])
    exact input.cell_eq (by omega)
  rcases Pipeline.cell_kind k with rfl | ⟨i, rfl⟩ | ⟨i, rfl⟩
  · exact dry 0 (by omega)
  · obtain ⟨loop, here, pc⟩ := gone i (by omega)
    have nothing : loop.chunk = [] := by
      by_contra holds
      cases pc.symm.trans ((inv.loop i loop here).holds holds)
    rw [Pipeline.cell_chunk, Pipeline.chunkAt, here]
    exact nothing
  · exact dry (i + 1) (by omega)

/-- Then the sink has taken everything. -/
theorem sink_eq (inv : Delivering bytes p) (left : p.AllLeft) : p.sink = bytes := by
  rw [← inv.whole, flow_eq_last fun k before => inv.drained left before]
  exact inv.cell_last.symm

/-- The stream's own thread is about to set `STOPPED` only after all segments have left. -/
theorem allLeft (inv : Delivering bytes p) (last : p.stream.main = .setStopped) : p.AllLeft := by
  intro loop member
  obtain ⟨i, here⟩ := List.getElem?_of_mem member
  have within : i < p.stream.segments.length := by
    rw [← inv.threads]
    exact (List.getElem?_eq_some_iff.mp here).1
  have there := List.getElem?_eq_getElem within
  have joined := ((calm_reach inv.orderly).inv.segment i _ there).joined (by rw [last]; trivial)
  exact inv.left i _ loop there here joined

end Delivering

/-- **A linear stream delivers its source.** In a chain of segments with new ring buffers between
them, whose allocations succeed, whatever pieces the source gives and the sink takes and in whatever
order the threads move: the sink holds a prefix of the bytes of the source, all of them once every
segment has left its loop, and every segment has left when the stream is about to be set to
`STOPPED`. -/
theorem pipeline_delivers (hosts : Nat → Host) (fits : ∀ i, (hosts i).Fits) (aligns : List Nat)
    (aligned : ∀ align ∈ aligns, 0 < align) (buflen : Nat → Nat) (positive : ∀ i, 0 < buflen i)
    (bytes : List UInt8) (p : Pipeline Ring)
    (reached : (pipelineSystem (ringChain hosts buflen) bytes (newRings aligns)).Reach p) :
    p.sink <+: bytes ∧ (p.AllLeft → p.sink = bytes) ∧
      (p.stream.main = .setStopped → p.AllLeft) := by
  obtain ⟨q, reachedQueue, alike⟩ := ring_chain_simulated fits aligned positive reached
  have inv : Delivering bytes q :=
    reachedQueue.invariant delivering_start fun _ _ _ inv _ step => inv.step step
  refine ⟨?_, fun left => ?_, fun last => ?_⟩
  · rw [alike.sink]
    exact inv.sink_prefix
  · rw [alike.sink]
    refine inv.sink_eq fun loop member => left loop ?_
    rw [alike.loops]
    exact member
  · intro loop member
    rw [alike.loops] at member
    rw [alike.stream] at last
    exact inv.allLeft last loop member

/-- A chain of two segments: the first hands two bytes on and completes, the second drains the ring
between them, and the stream is about to stop. -/
theorem pipeline_delivers_pair :
    ∃ p, (pipelineSystem (ringChain (fun _ => roomyHost) fun _ => 4) [7, 8]
        (newRings [1])).Reach p ∧
      p.stream.main = .setStopped ∧ p.AllLeft ∧ p.sink = [7, 8] := by
  let chain := pipelineSystem (ringChain (fun _ => roomyHost) fun _ => 4) [7, 8] (newRings [1])
  let start : Pipeline Ring :=
    { stream := { segments := [{}, {}], stops := [] }
      loops := [{}, {}]
      source := [7, 8]
      buffers := newRings [1] }
  let all : Choice := { size := 2, complete := true }
  let acts := List.replicate 5 PipelineAct.main ++ List.replicate 14 (PipelineAct.segment 0 all) ++
    List.replicate 15 (PipelineAct.segment 1 all) ++ List.replicate 8 PipelineAct.main
  have ends : (chain.exec start acts).map (·.stream.main) = some .setStopped := by
    decide +kernel
  obtain ⟨p, run, last⟩ := Option.map_eq_some_iff.mp ends
  have reached : chain.Reach p := .exec (.start rfl) run
  obtain ⟨_, whole, left⟩ := pipeline_delivers (fun _ => roomyHost) (fun _ => roomyHost_fits) [1]
    (by simp) (fun _ => 4) (by simp) [7, 8] p reached
  exact ⟨p, reached, last, left last, whole (left last)⟩

end Bingewatch.Stream
