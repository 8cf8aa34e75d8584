import Bingewatch.Stream.Places

/-!
# How far a segment is from its end

A turn of a segment in a linear stream that was set running. No segment is sure to get on by itself:
it waits for the stream to be started, spins on an empty buffer, and waits for the lock of the
stream in `callback_complete`. The segments end in the order of the chain. Once those before a
segment have left, what it reads was stopped and gets no more bytes, so `Hop.lowers` has each of its
steps lower the measure `toDo`; and nobody else holds the lock, because a segment completes only
after all those before it, so `segment_enabled` has it able to go on.
-/

set_option autoImplicit false

namespace Bingewatch.Stream

open Foundation Machine Buffer

/-! ## A segment gets on -/

/-- What holds in every state of a chain of queues. -/
structure Going (bytes : List UInt8) (p : Pipeline ByteQueue) : Prop where
  delivering : Delivering bytes p
  advancing : Advancing p

/-- The `i`-th segment has left its loop. -/
def Pipeline.Left {β : Type} (p : Pipeline β) (i : Nat) : Prop :=
  ∃ loop, p.loops[i]? = some loop ∧ loop.pc = .leave

/-- The answer that a segment's call meets: the source gives at least one byte, no more than were
asked for, or reports completion, and the sink takes at least one byte. -/
def Answered {β : Type} (buflen : Nat → Nat) (p : Pipeline β) : PipelineAct → Prop
  | .main => True
  | .segment i choice => ∀ loop, p.loops[i]? = some loop →
      (i = 0 → loop.pc = .read → choice.size ≤ buflen 0 ∧ choice.size ≤ p.source.length ∧
        (choice.complete = true → choice.size = p.source.length) ∧
        (0 < choice.size ∨ choice.complete = true)) ∧
      (p.buffers[i]? = none → loop.pc = .write → loop.chunk ≠ [] →
        0 < choice.size ∧ choice.size ≤ loop.chunk.length)

instance {β : Type} (buflen : Nat → Nat) (p : Pipeline β) (act : PipelineAct) :
    Decidable (Answered buflen p act) :=
  match act with
  | .main => isTrue trivial
  | .segment i choice => inferInstanceAs (Decidable (∀ loop ∈ p.loops[i]?,
      (i = 0 → loop.pc = .read → choice.size ≤ buflen 0 ∧ choice.size ≤ p.source.length ∧
        (choice.complete = true → choice.size = p.source.length) ∧
        (0 < choice.size ∨ choice.complete = true)) ∧
      (p.buffers[i]? = none → loop.pc = .write → loop.chunk ≠ [] →
        0 < choice.size ∧ choice.size ≤ loop.chunk.length)))

/-- How far a place is from the end of `segment_run`. -/
def LoopPc.distance : LoopPc → Nat
  | .start => 20
  | .write => 13
  | .top => 12
  | .read => 11
  | .complete => 10
  | .stopIn => 6
  | .stopOut => 5
  | .clear => 4
  | .leave => 0
  | .fail => 0

/-- How far a thread is from the end of `callback_complete`. -/
def SegmentPc.distance : SegmentPc → Nat
  | .completeRead => 3
  | .completeWrite _ => 2
  | .unlock => 1
  | _ => 0

/-- What is left to do for a segment: the bytes in its input and its chunk, and the way to the end.
A byte in the input takes more steps than one in the chunk. -/
def Pipeline.toDo (p : Pipeline ByteQueue) (i : Nat) : Nat :=
  5 * (p.cell (2 * i)).length +
    (p.loops[i]?.elim 0 fun loop =>
      2 * loop.chunk.length + loop.pc.distance + if loop.doComplete then 0 else 2) +
    p.stream.segments[i]?.elim 0 fun thread => thread.pc.distance

section GetsOn

variable {buflen : Nat → Nat} {choice : Choice} {bytes : List UInt8} {p p' : Pipeline ByteQueue}
  {i : Nat} {thread : SegmentThread} {loop : SegmentLoop}

theorem going_start {queues : Nat} (p : Pipeline ByteQueue)
    (start : (pipelineSystem (queueChain buflen) bytes (List.replicate queues {})).start p) :
    Going bytes p := by
  refine ⟨delivering_start p start, ?_⟩
  obtain rfl := start
  refine ⟨fun i thread loop there here => ?_, fun i flag loop there here => ?_,
    fun i loop tells here => ?_, fun k held => by cases held⟩
  · obtain rfl : thread = {} := by grind
    obtain rfl : loop = {} := by grind
    exact ⟨by simp, fun _ => .inl rfl, by simp [SegmentPc.locked], by simp, by simp,
      fun _ => .inl rfl⟩
  · obtain rfl : loop = {} := by grind
    obtain ⟨b, found, rfl⟩ := Option.map_eq_some_iff.mp there
    obtain rfl : b = {} := by grind
    simp
  · obtain ⟨b, found, told⟩ := Option.map_eq_some_iff.mp tells
    obtain rfl : b = {} := by grind
    cases told

/-- The loop of a segment that has a thread, and the thread of one that has a loop. -/
theorem Going.exists_loop (going : Going bytes p) (there : p.stream.segments[i]? = some thread) :
    ∃ loop, p.loops[i]? = some loop := by
  have within := (List.getElem?_eq_some_iff.mp there).1
  rw [← going.delivering.threads] at within
  exact ⟨_, List.getElem?_eq_getElem within⟩

theorem Going.exists_thread (going : Going bytes p) (here : p.loops[i]? = some loop) :
    ∃ thread, p.stream.segments[i]? = some thread := by
  have within := (List.getElem?_eq_some_iff.mp here).1
  rw [going.delivering.threads] at within
  exact ⟨_, List.getElem?_eq_getElem within⟩

/-- What a step of the chain is. -/
theorem step_cases {queues : List ByteQueue} {act : PipelineAct} (going : Going bytes p)
    (step : (pipelineSystem (queueChain buflen) bytes queues).step p act = some p') :
    act = .main ∧ p.control .main = some p' ∨
      ∃ i choice thread loop, act = .segment i choice ∧ p.stream.segments[i]? = some thread ∧
        p.loops[i]? = some loop ∧
        (thread.pc = .active ∧ p.segmentRun (queueChain buflen) i loop choice = some p' ∧
            Hop buflen choice p i thread loop p' ∨
          thread.pc ≠ .active ∧ p.control (.segment i .go) = some p') := by
  cases act with
  | main => exact .inl ⟨rfl, step⟩
  | segment i choice =>
      obtain ⟨thread, there, step⟩ := Option.bind_eq_some_iff.mp step
      obtain ⟨loop, here⟩ := going.exists_loop there
      refine .inr ⟨i, choice, thread, loop, rfl, there, here, ?_⟩
      by_cases active : thread.pc = .active
      · simp only [active, here, Option.bind_some] at step
        exact .inl ⟨active, step, hop_of_step going.delivering there active here step⟩
      · refine .inr ⟨active, ?_⟩
        cases pc : thread.pc with
        | active => exact absurd pc active
        | _ => simpa only [pc] using step

/-- **One step** of the chain. -/
theorem Going.step {queues : List ByteQueue} {act : PipelineAct} (going : Going bytes p)
    (step : (pipelineSystem (queueChain buflen) bytes queues).step p act = some p') :
    Going bytes p' := by
  refine ⟨going.delivering.step step, ?_⟩
  rcases step_cases going step with ⟨-, moved⟩ | ⟨i, choice, thread, loop, -, there, here,
    ⟨active, -, hop⟩ | ⟨-, moved⟩⟩
  · exact going.advancing.main going.delivering moved
  · exact going.advancing.hop going.delivering there active here hop
  · exact going.advancing.callback going.delivering there here moved

/-- A segment that has seen the end of its input has all others before it at their ends. -/
theorem Going.upstream (going : Going bytes p) (here : p.loops[i]? = some loop)
    (ended : loop.ended = true) {j : Nat} (before : j < i) :
    ∃ other, p.loops[j]? = some other ∧ (other.pc = .clear ∨ other.pc = .leave) := by
  induction i generalizing loop with
  | zero => exact absurd before (Nat.not_lt_zero j)
  | succ i ih =>
      have places := going.delivering.places
      have within := (List.getElem?_eq_some_iff.mp here).1
      obtain ⟨b, found⟩ : ∃ b, p.buffers[i]? = some b :=
        ⟨_, List.getElem?_eq_getElem (by omega)⟩
      obtain ⟨other, there⟩ : ∃ other, p.loops[i]? = some other :=
        ⟨_, List.getElem?_eq_getElem (by omega)⟩
      have stopped := ((going.delivering.loop (i + 1) loop here).dry ended b found).1
      have place := (going.advancing.closed i b.stopped other
        (Pipeline.stops_of_some found) there).mp stopped
      rcases Nat.lt_succ_iff_lt_or_eq.mp before with earlier | rfl
      · exact ih there (by rcases place with pc | pc <;> simp [SegmentLoop.ended, pc]) earlier
      · exact ⟨other, there, place⟩

/-- The lock is free for the first segment that has not left. -/
theorem Going.lock_free (going : Going bytes p) (there : p.stream.segments[i]? = some thread)
    (active : thread.pc = .active) (here : p.loops[i]? = some loop) (pc : loop.pc = .complete)
    (first : ∀ j, j < i → p.Left j) : p.stream.lock = none := by
  cases held : p.stream.lock with
  | none => rfl
  | some k =>
      obtain ⟨holder, found, locked⟩ := going.advancing.holder k held
      obtain ⟨other, at_k⟩ := going.exists_loop found
      have calls := (going.advancing.place k holder other found at_k).calls locked
      rcases Nat.lt_trichotomy k i with before | rfl | after
      · obtain ⟨gone, at_k', left⟩ := first k before
        obtain rfl : other = gone := Option.some.inj (at_k.symm.trans at_k')
        cases calls.symm.trans left
      · exact absurd rfl (going.advancing.holder_ne there active held)
      · obtain ⟨mine, here', ends⟩ :=
          going.upstream at_k (by simp [SegmentLoop.ended, calls]) after
        obtain rfl : loop = mine := Option.some.inj (here.symm.trans here')
        rcases ends with wrong | wrong <;> cases pc.symm.trans wrong

/-- What the segment behind one that has left reads from. -/
theorem Going.input (going : Going bytes p) (here : p.loops[i + 1]? = some loop)
    (left : p.Left i) (running : loop.ended = false) :
    ∃ b, p.buffers[i]? = some b ∧ b.stopped = true ∧ b.completed = false := by
  have places := going.delivering.places
  have within := (List.getElem?_eq_some_iff.mp here).1
  obtain ⟨b, found⟩ : ∃ b, p.buffers[i]? = some b := ⟨_, List.getElem?_eq_getElem (by omega)⟩
  obtain ⟨gone, at_i, pc⟩ := left
  refine ⟨b, found, ?_, ?_⟩
  · exact (going.advancing.closed i _ gone (Pipeline.stops_of_some found) at_i).mpr (.inr pc)
  · cases told : b.completed with
    | false => rfl
    | true =>
        have tells : p.told i = some true := by rw [Pipeline.told_of_some found, told]
        cases running.symm.trans (going.advancing.told i loop tells here)

/-- What a hop leaves alone: other cells than the segment's own, its input and its output, and the
other segments. One that has left touches no cell. -/
structure Apart (p p' : Pipeline ByteQueue) (i : Nat) (loop : SegmentLoop) : Prop where
  cell : ∀ k, k ≠ 2 * i → k ≠ 2 * i + 1 → k ≠ 2 * (i + 1) → p'.cell k = p.cell k
  places : p'.loops.length = p.loops.length
  loops : ∀ j, j ≠ i → p'.loops[j]? = p.loops[j]?
  segments : ∀ j, j ≠ i → p'.stream.segments[j]? = p.stream.segments[j]?
  main : p'.stream.main = p.stream.main
  state : p'.stream.state = p.stream.state
  left : loop.pc = .leave → p'.cell = p.cell ∧ p'.loops = p.loops

/-- A call, after which the segment goes on. -/
theorem apart_call {p₁ : Pipeline ByteQueue} {k : Nat} (touches : p.Touches p₁ k)
    (near : k = 2 * i ∨ k = 2 * (i + 1) ∨ p₁.cell = p.cell) (running : loop.pc ≠ .leave)
    (new : SegmentLoop) : Apart p (p₁.setLoop i new) i loop where
  cell := fun m notIn notChunk notOut => by
    rw [Pipeline.cell_setLoop notChunk]
    rcases near with rfl | rfl | same
    · exact touches.elsewhere m notIn
    · exact touches.elsewhere m notOut
    · rw [same]
  places := by rw [Pipeline.setLoop, List.length_set, touches.loops]
  loops := fun j other => by
    rw [Pipeline.setLoop, List.getElem?_set_ne (Ne.symm other), touches.loops]
  segments := fun j _ => by rw [Pipeline.setLoop, touches.stream]
  main := by rw [Pipeline.setLoop, touches.stream]
  state := by rw [Pipeline.setLoop, touches.stream]
  left := fun pc => absurd pc running

theorem touches_refl (p : Pipeline ByteQueue) (k : Nat) : p.Touches p k :=
  ⟨rfl, rfl, rfl, fun _ _ => rfl, fun _ dry => dry⟩

/-- A change of the segment's thread, after which it goes on. -/
theorem apart_thread (stream : IoStream) (main : stream.main = p.stream.main)
    (state : stream.state = p.stream.state)
    (segments : stream.segments = p.stream.segments) (thread' : SegmentThread)
    (running : loop.pc ≠ .leave) (new : SegmentLoop) :
    Apart p (({ p with stream := stream }.withThread i thread').setLoop i new) i loop where
  cell := fun _ _ notChunk _ => Pipeline.cell_setLoop notChunk
  places := List.length_set
  loops := fun _ other => List.getElem?_set_ne (Ne.symm other)
  segments := fun j other =>
    (List.getElem?_set_ne (Ne.symm other)).trans (congrArg (fun l => l[j]?) segments)
  main := main
  state := state
  left := fun pc => absurd pc running

/-- **A hop** stays near its segment. -/
theorem Hop.apart (hop : Hop buflen choice p i thread loop p') (inv : Delivering bytes p)
    (here : p.loops[i]? = some loop) : Apart p p' i loop := by
  cases hop with
  | start pc => exact apart_thread p.stream rfl rfl rfl _ (by simp [pc]) _
  | ready pc =>
      exact ⟨fun _ _ _ _ => rfl, rfl, fun _ _ => rfl, fun _ _ => rfl, rfl, rfl, fun _ => ⟨rfl, rfl⟩⟩
  | ends pc => exact apart_call (touches_refl p 0) (.inr (.inr rfl)) (by simp [pc]) _
  | asks pc => exact apart_call (touches_refl p 0) (.inr (.inr rfl)) (by simp [pc]) _
  | read pc read =>
      exact apart_call (Pipeline.readInput_spec read).touches (.inl rfl) (by simp [pc]) _
  | handed pc => exact apart_call (touches_refl p 0) (.inr (.inr rfl)) (by simp [pc]) _
  | write pc _ write =>
      have within : i ≤ p.buffers.length := by
        have := (List.getElem?_eq_some_iff.mp here).1
        have := inv.places
        omega
      exact apart_call (Pipeline.writeOutput_spec within write).touches (.inr (.inl rfl))
        (by simp [pc]) _
  | callback pc =>
      have running : loop.pc ≠ .leave := by simp [pc]
      exact apart_thread { p.stream with lock := some i } rfl rfl rfl _ running _
  | stopIn pc stop =>
      have running : loop.pc ≠ .leave := by simp [pc]
      rcases stop with ⟨-, same⟩ | ⟨j, rfl, stop⟩
      · exact same ▸ apart_call (touches_refl p 0) (.inr (.inr rfl)) running _
      · have spec := Pipeline.stopMachine_spec stop
        exact apart_call spec.1 (.inr (.inr spec.2)) running _
  | stopOut pc stop =>
      have spec := Pipeline.stopMachine_spec stop
      exact apart_call spec.1 (.inr (.inr spec.2)) (by simp [pc]) _
  | clear pc => exact apart_thread p.stream rfl rfl rfl _ (by simp [pc]) _
  | leave pc =>
      exact ⟨fun _ _ _ _ => rfl, rfl, fun _ _ => rfl,
        fun j other => List.getElem?_set_ne (Ne.symm other), rfl, rfl, fun _ => ⟨rfl, rfl⟩⟩

theorem toDo_eq (there : p.stream.segments[i]? = some thread) (here : p.loops[i]? = some loop) :
    p.toDo i = 5 * (p.cell (2 * i)).length +
      (2 * loop.chunk.length + loop.pc.distance + if loop.doComplete then 0 else 2) +
        thread.pc.distance := by
  rw [Pipeline.toDo, here, there, Option.elim_some, Option.elim_some]

/-- The measure after the segment went on. -/
theorem toDo_setLoop {p₁ : Pipeline ByteQueue} (there : p₁.stream.segments[i]? = some thread)
    (within : i < p₁.loops.length) (new : SegmentLoop) :
    (p₁.setLoop i new).toDo i = 5 * (p₁.cell (2 * i)).length +
      (2 * new.chunk.length + new.pc.distance + if new.doComplete then 0 else 2) +
        thread.pc.distance := by
  have here : (p₁.setLoop i new).loops[i]? = some new := List.getElem?_set_self within
  rw [toDo_eq (p := p₁.setLoop i new) there here, Pipeline.cell_setLoop (by omega)]

/-- The measure after the segment's thread became another. -/
theorem toDo_turn (stream : IoStream) (segments : stream.segments = p.stream.segments)
    (there : p.stream.segments[i]? = some thread) (here : p.loops[i]? = some loop)
    (thread' : SegmentThread) (new : SegmentLoop) :
    (({ p with stream := stream }.withThread i thread').setLoop i new).toDo i =
      5 * (p.cell (2 * i)).length +
        (2 * new.chunk.length + new.pc.distance + if new.doComplete then 0 else 2) +
          thread'.pc.distance := by
  have set : ({ p with stream := stream }.withThread i thread').stream.segments[i]? =
      some thread' :=
    List.getElem?_set_self (segments ▸ (List.getElem?_eq_some_iff.mp there).1)
  exact toDo_setLoop set (List.getElem?_eq_some_iff.mp here).1 new

/-- A read of the first segment that has not left returns something, or reports completion. -/
theorem Going.read_progress (going : Going bytes p) (here : p.loops[i]? = some loop)
    (pc : loop.pc = .read) (open_ : loop.ended = false) (first : ∀ j, j < i → p.Left j)
    (positive : ∀ j, 0 < buflen j) (answered : Answered buflen p (.segment i choice))
    {p₁ : Pipeline ByteQueue} {status : IoStatus} {out : List UInt8}
    (read : p.readInput (queueChain buflen) i choice = some (p₁, status, out)) :
    out ≠ [] ∨ status = .complete := by
  cases i with
  | zero =>
      obtain ⟨-, -, -, gives⟩ := (answered loop here).1 rfl pc
      simp only [Pipeline.readInput] at read
      split at read
      · next given =>
          cases read
          rcases gives with some_bytes | complete
          · refine .inl fun nothing => ?_
            have length := congrArg List.length nothing
            rw [List.length_take, List.length_nil] at length
            omega
          · exact .inr (if_pos complete)
      · cases read
  | succ i =>
      obtain ⟨b, found, stopped, untold⟩ := going.input here (first i (Nat.lt_succ_self i)) open_
      obtain ⟨c, found', read⟩ := Option.bind_eq_some_iff.mp read
      obtain rfl : b = c := Option.some.inj (found.symm.trans found')
      obtain ⟨⟨p₂, answer⟩, call, read⟩ := Option.bind_eq_some_iff.mp read
      obtain ⟨rfl, rfl⟩ := Pipeline.callBuffer_queue call
      by_cases empty : b.content = []
      · simp only [ByteQueue.call, untold, stopped, empty] at read
        cases read
        exact .inr rfl
      · have more : ¬(b.stopped = true ∧ b.content = []) := fun drained => empty drained.2
        simp only [ByteQueue.call, untold, if_neg more] at read
        cases read
        refine .inl fun nothing => ?_
        have length := congrArg List.length nothing
        have some_bytes := List.length_pos_iff.mpr empty
        have asked := positive (i + 1)
        simp only [queueChain, List.length_take, List.length_nil] at length
        omega

/-- A write of a segment hands something on. -/
theorem Going.write_progress (going : Going bytes p) (here : p.loops[i]? = some loop)
    (pc : loop.pc = .write) (holds : loop.chunk ≠ []) {p₁ : Pipeline ByteQueue}
    {status : IoStatus} {count : Nat}
    (write : p.writeOutput (queueChain buflen) i loop.chunk choice = some (p₁, status, count)) :
    0 < count ∧ count ≤ loop.chunk.length := by
  simp only [Pipeline.writeOutput] at write
  split at write
  · next b found =>
      have running : b.stopped = false := by
        cases stopped : b.stopped with
        | false => rfl
        | true =>
            have place := (going.advancing.closed i _ loop (Pipeline.stops_of_some found) here).mp
              stopped
            rcases place with wrong | wrong <;> cases pc.symm.trans wrong
      obtain ⟨⟨p₂, answer⟩, call, write⟩ := Option.bind_eq_some_iff.mp write
      obtain ⟨rfl, rfl⟩ := Pipeline.callBuffer_queue call
      simp only [ByteQueue.call, running] at write
      cases write
      exact ⟨List.length_pos_iff.mpr holds, Nat.le_refl _⟩
  · split at write
    · next taken =>
        cases write
        exact taken
    · cases write

/-- **A hop of the first segment that has not left** brings it closer to its end. -/
theorem Hop.lowers (hop : Hop buflen choice p i thread loop p') (going : Going bytes p)
    (there : p.stream.segments[i]? = some thread) (active : thread.pc = .active)
    (here : p.loops[i]? = some loop) (begun : Begun p.stream)
    (first : ∀ j, j < i → p.Left j) (positive : ∀ j, 0 < buflen j)
    (answered : Answered buflen p (.segment i choice)) : p'.Left i ∨ p'.toDo i < p.toDo i := by
  have withinL := (List.getElem?_eq_some_iff.mp here).1
  have ok := going.delivering.loop i loop here
  have old := going.advancing.place i thread loop there here
  rw [toDo_eq there here]
  cases hop with
  | start pc =>
      refine .inr ?_
      have after := toDo_turn p.stream rfl there here { thread with running := true }
        { loop with pc := .top }
      refine Nat.lt_of_le_of_lt (Nat.le_of_eq after) ?_
      simp only [pc, LoopPc.distance]
      omega
  | ready pc state => exact absurd state begun.2
  | ends pc =>
      refine .inr ?_
      rw [toDo_setLoop there withinL]
      simp only [pc, LoopPc.distance]
      omega
  | asks pc =>
      refine .inr ?_
      rw [toDo_setLoop there withinL]
      simp only [pc, LoopPc.distance]
      omega
  | @read pc p₁ status out read =>
      refine .inr ?_
      have spec := Pipeline.readInput_spec read
      have incomplete := old.asks pc
      have open_ : loop.ended = false := by simp [SegmentLoop.ended, pc, incomplete]
      have nothing : loop.chunk = [] := by
        by_contra holds
        cases pc.symm.trans (ok.holds holds)
      have progress := going.read_progress here pc open_ first positive answered read
      have front := congrArg List.length spec.front
      rw [List.length_append] at front
      rw [toDo_setLoop (spec.touches.stream ▸ there) (spec.touches.loops ▸ withinL)]
      simp only [SegmentLoop.afterRead, spec.noError, pc, LoopPc.distance, incomplete, nothing,
        Bool.false_or, List.length_nil]
      by_cases empty : out = []
      · have complete := progress.resolve_left (fun some_bytes => some_bytes empty)
        simp [empty, complete] at front ⊢
        omega
      · have some_bytes := List.length_pos_iff.mpr empty
        simp only [empty, Bool.false_eq_true, if_false]
        split <;> omega
  | handed pc nothing =>
      refine .inr ?_
      rw [toDo_setLoop there withinL]
      simp only [pc, LoopPc.distance]
      omega
  | @write pc holds p₁ status count write =>
      refine .inr ?_
      have within : i ≤ p.buffers.length := by
        have := going.delivering.places
        omega
      have spec := Pipeline.writeOutput_spec within write
      obtain ⟨some_bytes, fits⟩ := going.write_progress here pc holds write
      rw [toDo_setLoop (spec.touches.stream ▸ there) (spec.touches.loops ▸ withinL),
        spec.touches.elsewhere (2 * i) (by omega)]
      simp only [SegmentLoop.afterWrite, spec.goesOn, List.length_drop]
      omega
  | callback pc free =>
      refine .inr ?_
      have after := toDo_turn { p.stream with lock := some i } rfl there here
        { thread with pc := .completeRead } { loop with pc := .stopIn }
      refine Nat.lt_of_le_of_lt (Nat.le_of_eq after) ?_
      simp only [pc, active, LoopPc.distance, SegmentPc.distance]
      omega
  | @stopIn pc p₁ stop =>
      refine .inr ?_
      have same : p₁.stream = p.stream ∧ p₁.loops = p.loops ∧ p₁.cell = p.cell := by
        rcases stop with ⟨-, rfl⟩ | ⟨j, rfl, stop⟩
        · exact ⟨rfl, rfl, rfl⟩
        · have spec := Pipeline.stopMachine_spec stop
          exact ⟨spec.1.stream, spec.1.loops, spec.2⟩
      rw [toDo_setLoop (same.1 ▸ there) (same.2.1 ▸ withinL), same.2.2]
      simp only [pc, LoopPc.distance]
      omega
  | stopOut pc stop =>
      refine .inr ?_
      have spec := Pipeline.stopMachine_spec stop
      rw [toDo_setLoop (spec.1.stream ▸ there) (spec.1.loops ▸ withinL), spec.2]
      simp only [pc, LoopPc.distance]
      omega
  | clear pc => exact .inl ⟨_, List.getElem?_set_self withinL, rfl⟩
  | leave pc => exact .inl ⟨loop, here, pc⟩

/-! ## What the others do meanwhile -/

/-- A step of another thread leaves the measure of a segment alone once those before it have left,
and the segments that have left stay there. -/
theorem Apart.toDo {j : Nat} {other : SegmentLoop} (apart : Apart p p' j other)
    (there : p.loops[j]? = some other) (different : j ≠ i) (first : ∀ k, k < i → p.Left k) :
    p'.toDo i = p.toDo i := by
  have cells : p'.cell (2 * i) = p.cell (2 * i) := by
    by_cases before : i = j + 1
    · -- The segment that writes to the input has left.
      obtain ⟨gone, there', pc⟩ := first j (by omega)
      obtain rfl : other = gone := Option.some.inj (there.symm.trans there')
      rw [(apart.left pc).1]
    · exact apart.cell _ (by omega) (by omega) (by omega)
  rw [Pipeline.toDo, Pipeline.toDo, cells, apart.loops i different.symm,
    apart.segments i different.symm]

theorem Apart.left_stays {j : Nat} (apart : Apart p p' i loop) (here : p.loops[i]? = some loop)
    (left : p.Left j) : p'.Left j := by
  obtain ⟨gone, there, pc⟩ := left
  by_cases same : j = i
  · subst same
    obtain rfl : loop = gone := Option.some.inj (here.symm.trans there)
    exact ⟨loop, by rw [(apart.left pc).2, here], pc⟩
  · exact ⟨gone, by rw [apart.loops j same, there], pc⟩

/-- A step of a callback: it changes the segment's thread, which comes closer to its end. -/
theorem callback_lowers (going : Going bytes p) (there : p.stream.segments[i]? = some thread)
    (step : p.control (.segment i .go) = some p') :
    p'.loops = p.loops ∧ p'.cell = p.cell ∧ p'.stream.main = p.stream.main ∧
      (∀ j, j ≠ i → p'.stream.segments[j]? = p.stream.segments[j]?) ∧ p'.toDo i < p.toDo i := by
  have calm := calm_reach going.delivering.orderly
  have orderly := calm.places i thread there
  have within := (List.getElem?_eq_some_iff.mp there).1
  have goes : ∀ (new : SegmentThread) (stream : IoStream), stream.main = p.stream.main →
      stream.segments = p.stream.segments.set i new → new.pc.distance < thread.pc.distance →
      ({ p with stream := stream } : Pipeline ByteQueue).loops = p.loops ∧
        ({ p with stream := stream } : Pipeline ByteQueue).cell = p.cell ∧
        stream.main = p.stream.main ∧
        (∀ j, j ≠ i → stream.segments[j]? = p.stream.segments[j]?) ∧
        ({ p with stream := stream } : Pipeline ByteQueue).toDo i < p.toDo i := by
    intro new stream main segments closer
    refine ⟨rfl, rfl, main, fun j other => ?_, ?_⟩
    · rw [segments, List.getElem?_set_ne (Ne.symm other)]
    · have set : stream.segments[i]? = some new := by rw [segments, List.getElem?_set_self within]
      rw [Pipeline.toDo, Pipeline.toDo, set, there]
      exact Nat.add_lt_add_left closer _
  simp only [Pipeline.control, streamSystem, there, Option.bind_some] at step
  obtain ⟨stream, moved, rfl⟩ := Option.map_eq_some_iff.mp step
  cases pc : thread.pc with
  | completeRead =>
      simp only [segmentStep, pc] at moved
      split at moved
      · cases moved
        exact goes _ _ rfl rfl (by simp [pc, SegmentPc.distance])
      · cases moved
        exact goes _ _ rfl rfl (by simp [pc, SegmentPc.distance])
  | completeWrite new =>
      simp only [segmentStep, pc, Option.some.injEq] at moved
      subst moved
      exact goes _ _ rfl rfl (by simp [pc, SegmentPc.distance])
  | unlock =>
      simp only [segmentStep, pc, Option.some.injEq] at moved
      subst moved
      exact goes _ _ rfl rfl (by simp [pc, SegmentPc.distance])
  | errorRead =>
      rw [pc] at orderly
      exact orderly.elim
  | errorWrite state =>
      rw [pc] at orderly
      exact orderly.elim
  | errorStatus =>
      rw [pc] at orderly
      exact orderly.elim
  | _ => simp [segmentStep, pc] at moved

/-- A stream that was set running has started all its segments. -/
theorem Going.started (going : Going bytes p) (begun : Begun p.stream)
    (there : p.stream.segments[i]? = some thread) (here : p.loops[i]? = some loop) :
    thread.pc ≠ .idle := by
  have calm := calm_reach going.delivering.orderly
  have state := calm.inv.state
  intro idle
  rcases (going.advancing.place i thread loop there here).idle idle with pc | ⟨k, -, pc⟩
  · rw [pc] at state
    exact begun.1 state
  · rw [pc] at state
    rcases state with now | now | now
    · exact begun.2 now
    · exact calm.notDone now
    · exact calm.notError now

/-- A thread in a callback can go on. -/
theorem callback_enabled (going : Going bytes p) (there : p.stream.segments[i]? = some thread)
    (notIdle : thread.pc ≠ .idle) (notActive : thread.pc ≠ .active)
    (notExited : thread.pc ≠ .exited) : ∃ p', p.control (.segment i .go) = some p' := by
  have orderly := (calm_reach going.delivering.orderly).places i thread there
  simp only [Pipeline.control, streamSystem, there, Option.bind_some]
  cases pc : thread.pc with
  | idle => exact absurd pc notIdle
  | active => exact absurd pc notActive
  | exited => exact absurd pc notExited
  | completeRead =>
      simp only [segmentStep, pc]
      split <;> exact ⟨_, rfl⟩
  | completeWrite state => exact ⟨_, by simp only [segmentStep, pc]; rfl⟩
  | unlock => exact ⟨_, by simp only [segmentStep, pc]; rfl⟩
  | errorRead =>
      rw [pc] at orderly
      exact orderly.elim
  | errorWrite state =>
      rw [pc] at orderly
      exact orderly.elim
  | errorStatus =>
      rw [pc] at orderly
      exact orderly.elim

/-- The calls of a chain of queues return, when the source and the sink answer. -/
theorem stopMachine_enabled (buflen : Nat → Nat) (p : Pipeline ByteQueue) (i : Nat) :
    ∃ p₁, p.stopMachine (queueChain buflen) i = some p₁ := by
  simp only [Pipeline.stopMachine]
  split <;> exact ⟨_, rfl⟩

theorem readInput_enabled (going : Going bytes p) (here : p.loops[i]? = some loop)
    (pc : loop.pc = .read) (answered : Answered buflen p (.segment i choice)) :
    ∃ result, p.readInput (queueChain buflen) i choice = some result := by
  cases i with
  | zero =>
      obtain ⟨asked, given, complete, -⟩ := (answered loop here).1 rfl pc
      exact ⟨_, if_pos ⟨asked, given, complete⟩⟩
  | succ i =>
      have places := going.delivering.places
      have within := (List.getElem?_eq_some_iff.mp here).1
      obtain ⟨b, found⟩ : ∃ b, p.buffers[i]? = some b :=
        ⟨_, List.getElem?_eq_getElem (by omega)⟩
      obtain ⟨status, out, answers, -⟩ := Pipeline.call_read_flags b (buflen (i + 1))
      let after := (b.call (.read (buflen (i + 1)))).1
      refine ⟨({ p with buffers := p.buffers.set i after }, status, out), ?_⟩
      simp only [Pipeline.readInput, found, Option.bind_some, Pipeline.callBuffer, queueChain,
        Option.map_some, answers, after]

theorem writeOutput_enabled (here : p.loops[i]? = some loop) (pc : loop.pc = .write)
    (holds : loop.chunk ≠ []) (answered : Answered buflen p (.segment i choice)) :
    ∃ result, p.writeOutput (queueChain buflen) i loop.chunk choice = some result := by
  cases found : p.buffers[i]? with
  | none =>
      have taken := (answered loop here).2 found pc holds
      exact ⟨_, by simp only [Pipeline.writeOutput, found]; exact if_pos taken⟩
  | some b =>
      obtain ⟨status, count, answers, -⟩ := Pipeline.call_write_flags b loop.chunk
      let after := (b.call (.write loop.chunk)).1
      refine ⟨({ p with buffers := p.buffers.set i after }, status, count), ?_⟩
      simp only [Pipeline.writeOutput, found, Option.bind_some, Pipeline.callBuffer, queueChain,
        Option.map_some, answers, after]

/-- **The first segment that has not left** can go on. -/
theorem segment_enabled {queues : List ByteQueue} (going : Going bytes p)
    (there : p.stream.segments[i]? = some thread) (here : p.loops[i]? = some loop)
    (begun : Begun p.stream) (first : ∀ j, j < i → p.Left j) (notLeft : ¬p.Left i)
    (answered : Answered buflen p (.segment i choice)) :
    ∃ p', (pipelineSystem (queueChain buflen) bytes queues).step p (.segment i choice) =
      some p' := by
  have calm := calm_reach going.delivering.orderly
  have notExited : thread.pc ≠ .exited := fun exited =>
    notLeft ⟨loop, here, going.delivering.left i thread loop there here exited⟩
  by_cases active : thread.pc = .active
  · simp only [pipelineSystem, there, Option.bind_some, active, here]
    unfold Pipeline.segmentRun
    cases pc : loop.pc with
    | start => exact ⟨_, by simp only [control_flag there active]; rfl⟩
    | top =>
        have running := (calm.isRunning there active begun.2).1
        simp only [begun.2, if_false, running, if_true]
        split <;> exact ⟨_, rfl⟩
    | read =>
        obtain ⟨result, read⟩ := readInput_enabled going here pc answered
        exact ⟨_, by simp only [read]; rfl⟩
    | write =>
        cases chunk : loop.chunk with
        | nil => exact ⟨_, rfl⟩
        | cons x rest =>
            obtain ⟨result, write⟩ := writeOutput_enabled here pc (by simp [chunk]) answered
            rw [chunk] at write
            exact ⟨_, by simp only [write]; rfl⟩
    | fail => exact absurd pc (going.delivering.loop i loop here).noFail
    | complete =>
        have free := going.lock_free there active here pc first
        exact ⟨_, by simp only [control_complete there active, free, if_true]; rfl⟩
    | stopIn =>
        cases i with
        | zero => exact ⟨_, rfl⟩
        | succ i =>
            obtain ⟨p₁, stop⟩ := stopMachine_enabled buflen p i
            exact ⟨_, by simp only [stop]; rfl⟩
    | stopOut =>
        obtain ⟨p₁, stop⟩ := stopMachine_enabled buflen p i
        exact ⟨_, by simp only [stop]; rfl⟩
    | clear => exact ⟨_, by simp only [control_flag there active]; rfl⟩
    | leave => exact absurd ⟨loop, here, pc⟩ notLeft
  · obtain ⟨p', step⟩ := callback_enabled going there (going.started begun there here) active
      notExited
    refine ⟨p', ?_⟩
    simp only [pipelineSystem, there, Option.bind_some]
    cases pc : thread.pc with
    | active => exact absurd pc active
    | _ => exact step

/-- A stream that was set running goes on with threads that the stream's own thread does not
touch. -/
theorem main_aside (going : Going bytes p) (begun : Begun p.stream)
    (step : p.control .main = some p') :
    p'.loops = p.loops ∧ p'.cell = p.cell ∧ p'.stream.segments = p.stream.segments := by
  obtain ⟨stream, moved, rfl⟩ := Option.map_eq_some_iff.mp step
  refine ⟨rfl, rfl, ?_⟩
  have calm := calm_reach going.delivering.orderly
  have notDone := calm.notDone
  have notError := calm.notError
  have state := calm.inv.state
  have moved : mainStep p.stream = some stream := moved
  unfold mainStep at moved
  cases pc : p.stream.main with
  | starting k =>
      rw [pc] at state
      rcases state with now | now | now
      · exact absurd now begun.2
      · exact absurd now notDone
      · exact absurd now notError
  | _ =>
      simp only [pc] at moved
      grind

end GetsOn

end Bingewatch.Stream
