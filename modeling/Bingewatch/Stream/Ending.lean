import Bingewatch.Foundation.Progress
import Bingewatch.Stream.Beside
import Bingewatch.Stream.Measure

/-!
# A linear stream ends

`pipeline_delivers` says what the sink holds once all segments have left their loops. Here is that
they do leave. When every thread has its turn again and again, the source gives at least one byte or
reports completion whenever it is asked, and the sink takes at least one byte, the stream comes to
`STOPPED`, and the sink holds all bytes of the source.

The stages come one after the other: the stream is set running, the segments leave in the order of
the chain, their threads end, and the stream's own thread joins them. Each of them is one use of the
progress rule, and `play_stages` chains those of the segments. They are shown for the chain of byte
queues; `Alike.step_beside` leads the chain of the source beside it, step by step.
-/

set_option autoImplicit false

namespace Bingewatch.Stream

open Foundation Machine Buffer

/-! ## The stages -/

/-- The `i`-th segment's thread has ended. -/
def Pipeline.Exited {β : Type} (p : Pipeline β) (i : Nat) : Prop :=
  ∃ thread, p.stream.segments[i]? = some thread ∧ thread.pc = .exited

/-- How far the stream's own thread is from setting the stream running, and from its end. -/
def MainPc.toRunning (count : Nat) : MainPc → Nat
  | .setReady => count + 3
  | .starting k => count - k + 2
  | .setRunning => 1
  | _ => 0

def MainPc.toEnd (count : Nat) : MainPc → Nat
  | .poll => 2 * count + 5
  | .check => 2 * count + 4
  | .waiting k => (count - k) + count + 3
  | .joining k => (count - k) + 2
  | .setStopped => 1
  | _ => 0

section Stages

variable {buflen : Nat → Nat} {bytes : List UInt8} {queues : List ByteQueue}
  {p p' : Pipeline ByteQueue} {i : Nat} {act : PipelineAct}

/-- The chain of queues. -/
abbrev queueSystem (buflen : Nat → Nat) (bytes : List UInt8) (queues : List ByteQueue) :
    System (Pipeline ByteQueue) PipelineAct :=
  pipelineSystem (queueChain buflen) bytes queues

theorem Going.begun (going : Going bytes p) (begun : Begun p.stream)
    (step : (queueSystem buflen bytes queues).step p act = some p') : Begun p'.stream := by
  have calm := calm_reach going.delivering.orderly
  rcases step_cases going step with ⟨-, moved⟩ | ⟨i, choice, thread, loop, -, there, here,
    ⟨active, -, hop⟩ | ⟨-, moved⟩⟩
  · obtain ⟨stream, stepped, rfl⟩ := Option.map_eq_some_iff.mp moved
    exact calm.begun (show Orderly p.stream .main from trivial) stepped begun
  · rw [Begun, (hop.apart going.delivering here).state]
    exact begun
  · obtain ⟨stream, stepped, rfl⟩ := Option.map_eq_some_iff.mp moved
    exact calm.begun (show Orderly p.stream (.segment i .go) from trivial) stepped begun

theorem Going.left_stays (going : Going bytes p) (left : p.Left i)
    (step : (queueSystem buflen bytes queues).step p act = some p') : p'.Left i := by
  rcases step_cases going step with ⟨-, moved⟩ | ⟨j, choice, thread, loop, -, there, here,
    ⟨active, -, hop⟩ | ⟨-, moved⟩⟩
  · obtain ⟨stream, -, rfl⟩ := Option.map_eq_some_iff.mp moved
    exact left
  · exact (hop.apart going.delivering here).left_stays here left
  · obtain ⟨stream, -, rfl⟩ := Option.map_eq_some_iff.mp moved
    exact left

theorem Going.exited_stays (going : Going bytes p) (begun : Begun p.stream) (ended : p.Exited i)
    (step : (queueSystem buflen bytes queues).step p act = some p') : p'.Exited i := by
  obtain ⟨gone, there', exited⟩ := ended
  rcases step_cases going step with ⟨-, moved⟩ | ⟨j, choice, thread, loop, -, there, here,
    ⟨active, -, hop⟩ | ⟨-, moved⟩⟩
  · exact ⟨gone, by rw [(main_aside going begun moved).2.2, there'], exited⟩
  · have other : i ≠ j := by
      rintro rfl
      obtain rfl : thread = gone := Option.some.inj (there.symm.trans there')
      cases active.symm.trans exited
    exact ⟨gone, by rw [(hop.apart going.delivering here).segments i other, there'], exited⟩
  · have other : i ≠ j := by
      rintro rfl
      obtain rfl : thread = gone := Option.some.inj (there.symm.trans there')
      simp [Pipeline.control, streamSystem, there, segmentStep, exited] at moved
    exact ⟨gone, by rw [(callback_lowers going there moved).2.2.2.1 i other, there'], exited⟩

/-- The number of segments stays. -/
theorem Going.places (going : Going bytes p)
    (step : (queueSystem buflen bytes queues).step p act = some p') :
    p'.loops.length = p.loops.length := by
  rcases step_cases going step with ⟨-, moved⟩ | ⟨j, choice, thread, loop, -, there, here,
    ⟨active, -, hop⟩ | ⟨-, moved⟩⟩
  · obtain ⟨stream, -, rfl⟩ := Option.map_eq_some_iff.mp moved
    rfl
  · exact (hop.apart going.delivering here).places
  · obtain ⟨stream, -, rfl⟩ := Option.map_eq_some_iff.mp moved
    rfl

/-- The steps of the segments leave the stream's own thread alone. -/
theorem Going.main_stays (going : Going bytes p) {choice : Choice}
    (step : (queueSystem buflen bytes queues).step p (.segment i choice) = some p') :
    p'.stream.main = p.stream.main := by
  rcases step_cases going step with ⟨wrong, -⟩ | ⟨j, choice, thread, loop, same, there, here,
    ⟨active, -, hop⟩ | ⟨-, moved⟩⟩
  · cases wrong
  · exact (hop.apart going.delivering here).main
  · exact (callback_lowers going there moved).2.2.1

variable {schedule : Nat → PipelineAct} {start : Pipeline ByteQueue}

/-- What stays along a play. -/
theorem play_going (going : Going bytes start) (n : Nat) :
    Going bytes ((queueSystem buflen bytes queues).play start schedule n) :=
  System.play_kept (fun _ _ _ going step => Going.step going step) (n := 0) going (Nat.zero_le n)

/-- The stream's own thread comes to setting the stream running. -/
theorem main_begins (going : Going bytes p) (fresh : ¬Begun p.stream) : ∃ p',
    p.control .main = some p' ∧
      (Begun p'.stream ∨ p'.stream.main.toRunning p'.loops.length <
        p.stream.main.toRunning p.loops.length) := by
  have state := (calm_reach going.delivering.orderly).inv.state
  have threads := going.delivering.threads
  have later : ∀ {state : StreamState}, p.stream.state = state → state ≠ .init → state ≠ .ready →
      False := by
    rintro state rfl notInit notReady
    exact fresh ⟨notInit, notReady⟩
  have goes : ∀ {stream : IoStream}, mainStep p.stream = some stream →
      (Begun stream ∨ stream.main.toRunning p.loops.length <
        p.stream.main.toRunning p.loops.length) →
      ∃ p', p.control .main = some p' ∧
        (Begun p'.stream ∨ p'.stream.main.toRunning p'.loops.length <
          p.stream.main.toRunning p.loops.length) := fun moved closer =>
    ⟨{ p with stream := _ }, Option.map_eq_some_iff.mpr ⟨_, moved, rfl⟩, closer⟩
  obtain ⟨main, pc⟩ : ∃ main, p.stream.main = main := ⟨_, rfl⟩
  cases main with
  | setReady =>
      refine goes (by simp only [mainStep, pc]; rfl) (.inr ?_)
      simp only [pc, MainPc.toRunning]
      omega
  | starting k =>
      by_cases more : k < p.stream.segments.length
      · have found := List.getElem?_eq_getElem more
        refine goes (by simp only [mainStep, pc, found]; rfl) (.inr ?_)
        simp only [pc, MainPc.toRunning]
        omega
      · have none_left : p.stream.segments[k]? = none := List.getElem?_eq_none (by omega)
        refine goes (by simp only [mainStep, pc, none_left]; rfl) (.inr ?_)
        simp only [pc, MainPc.toRunning]
        omega
  | setRunning => exact goes (by simp only [mainStep, pc]; rfl) (.inl ⟨by simp, by simp⟩)
  | exited =>
      rw [pc] at state
      exact (later state (by simp) (by simp)).elim
  | _ =>
      rw [pc] at state
      rcases state with now | now | now | now <;> exact (later now (by simp) (by simp)).elim

/-- **The stream is set running.** -/
theorem eventually_begun (going : Going bytes start)
    (main : System.RecursIn schedule fun act => act = .main) :
    ∃ m, Begun ((queueSystem buflen bytes queues).play start schedule m).stream := by
  have kept : ∀ (p : Pipeline ByteQueue) act p', Going bytes p → ¬Begun p.stream → True →
      (queueSystem buflen bytes queues).step p act = some p' →
      Begun p'.stream ∨ Going bytes p' ∧
        p'.stream.main.toRunning p'.loops.length ≤ p.stream.main.toRunning p.loops.length := by
    intro p act p' going fresh _ step
    cases act with
    | main =>
        obtain ⟨p'', moved, closer⟩ := main_begins going fresh
        obtain rfl : p'' = p' := Option.some.inj (moved.symm.trans step)
        exact closer.imp_right fun less => ⟨going.step step, Nat.le_of_lt less⟩
    | segment i choice =>
        refine .inr ⟨going.step step, ?_⟩
        rw [going.main_stays step, going.places step]
  have helpful : ∀ (p : Pipeline ByteQueue) act, Going bytes p → ¬Begun p.stream →
      act = PipelineAct.main → True → ∃ p', (queueSystem buflen bytes queues).step p act = some p' ∧
        (Begun p'.stream ∨ Going bytes p' ∧
          p'.stream.main.toRunning p'.loops.length < p.stream.main.toRunning p.loops.length) := by
    rintro p act going fresh rfl _
    obtain ⟨p', moved, closer⟩ := main_begins going fresh
    have step : (queueSystem buflen bytes queues).step p .main = some p' := moved
    exact ⟨p', step, closer.imp_right fun less => ⟨going.step step, less⟩⟩
  obtain ⟨m, -, begun⟩ := System.play_progress kept helpful (fun _ => trivial) main (n := 0) going
  exact ⟨m, begun⟩

/-- The stage in which the segments leave: the stream was set running. -/
structure Leaving (bytes : List UInt8) (p : Pipeline ByteQueue) : Prop where
  going : Going bytes p
  begun : Begun p.stream

theorem Leaving.step (leaving : Leaving bytes p)
    (step : (queueSystem buflen bytes queues).step p act = some p') : Leaving bytes p' :=
  ⟨leaving.going.step step, leaving.going.begun leaving.begun step⟩

/-- A step of another thread does not bring a segment further from its end, once all segments before
it have left. -/
theorem Leaving.toDo_le (leaving : Leaving bytes p) (first : ∀ j, j < i → p.Left j)
    (positive : ∀ j, 0 < buflen j) (answered : Answered buflen p act)
    (step : (queueSystem buflen bytes queues).step p act = some p') :
    p'.Left i ∨ p'.toDo i ≤ p.toDo i := by
  have going := leaving.going
  rcases step_cases going step with ⟨-, moved⟩ | ⟨j, choice, thread, loop, rfl, there, here,
    ⟨active, -, hop⟩ | ⟨-, moved⟩⟩
  · obtain ⟨loops, cell, segments⟩ := main_aside going leaving.begun moved
    refine .inr (Nat.le_of_eq ?_)
    rw [Pipeline.toDo, Pipeline.toDo, loops, cell, segments]
  · by_cases same : j = i
    · subst same
      exact (hop.lowers going there active here leaving.begun first positive answered).imp_right
        Nat.le_of_lt
    · exact .inr (Nat.le_of_eq ((hop.apart going.delivering here).toDo here same first))
  · obtain ⟨loops, cell, -, segments, less⟩ := callback_lowers going there moved
    by_cases same : j = i
    · subst same
      exact .inr (Nat.le_of_lt less)
    · refine .inr (Nat.le_of_eq ?_)
      rw [Pipeline.toDo, Pipeline.toDo, loops, cell, segments i (Ne.symm same)]

/-- **A segment leaves** once those before it have left. -/
theorem eventually_left {n : Nat}
    (leaving : Leaving bytes ((queueSystem buflen bytes queues).play start schedule n))
    (first : ∀ j, j < i → ((queueSystem buflen bytes queues).play start schedule n).Left j)
    (exists_loop : ∃ loop,
      ((queueSystem buflen bytes queues).play start schedule n).loops[i]? = some loop)
    (positive : ∀ j, 0 < buflen j)
    (answered : (queueSystem buflen bytes queues).Permits (Answered buflen) start schedule)
    (turns : System.RecursIn schedule fun act => ∃ choice, act = .segment i choice) :
    ∃ m, n ≤ m ∧ ((queueSystem buflen bytes queues).play start schedule m).Left i := by
  let I : Pipeline ByteQueue → Prop := fun p =>
    Leaving bytes p ∧ (∀ j, j < i → p.Left j) ∧ i < p.loops.length
  have keeps : ∀ (p : Pipeline ByteQueue) act p', I p →
      (queueSystem buflen bytes queues).step p act = some p' → I p' := by
    rintro p act p' ⟨leaving, first, within⟩ step
    exact ⟨leaving.step step, fun j before => leaving.going.left_stays (first j before) step,
      (leaving.going.places step).symm ▸ within⟩
  have kept : ∀ (p : Pipeline ByteQueue) act p', I p → ¬p.Left i → Answered buflen p act →
      (queueSystem buflen bytes queues).step p act = some p' →
      p'.Left i ∨ I p' ∧ p'.toDo i ≤ p.toDo i := by
    intro p act p' inv _ answered step
    exact (inv.1.toDo_le inv.2.1 positive answered step).imp_right
      fun less => ⟨keeps p act p' inv step, less⟩
  have helpful : ∀ (p : Pipeline ByteQueue) act, I p → ¬p.Left i →
      (∃ choice, act = PipelineAct.segment i choice) → Answered buflen p act →
      ∃ p', (queueSystem buflen bytes queues).step p act = some p' ∧
        (p'.Left i ∨ I p' ∧ p'.toDo i < p.toDo i) := by
    rintro p _ inv notLeft ⟨choice, rfl⟩ answered
    obtain ⟨leaving, first, within⟩ := inv
    have here := List.getElem?_eq_getElem within
    obtain ⟨thread, there⟩ := leaving.going.exists_thread here
    obtain ⟨p', step⟩ : ∃ p', (queueSystem buflen bytes queues).step p (.segment i choice) =
        some p' := segment_enabled leaving.going there here leaving.begun first notLeft answered
    refine ⟨p', step, ?_⟩
    have lower : p'.Left i ∨ p'.toDo i < p.toDo i := by
      rcases step_cases leaving.going step with ⟨wrong, -⟩ | ⟨j, choice', other, loop, same, there',
        here', ⟨active, -, hop⟩ | ⟨-, moved⟩⟩
      · cases wrong
      · cases same
        exact hop.lowers leaving.going there' active here' leaving.begun first positive answered
      · cases same
        exact .inr (callback_lowers leaving.going there' moved).2.2.2.2
    exact lower.imp_right fun less => ⟨keeps p _ p' ⟨leaving, first, within⟩ step, less⟩
  obtain ⟨loop, here⟩ := exists_loop
  exact System.play_progress kept helpful answered turns
    ⟨leaving, first, (List.getElem?_eq_some_iff.mp here).1⟩

/-- The thread of a segment that has left its loop ends at its next turn. -/
theorem Leaving.exits (leaving : Leaving bytes p) (left : p.Left i) (notExited : ¬p.Exited i)
    (choice : Choice) :
    ∃ p', (queueSystem buflen bytes queues).step p (.segment i choice) = some p' ∧ p'.Exited i := by
  obtain ⟨loop, here, pc⟩ := left
  obtain ⟨thread, there⟩ := leaving.going.exists_thread here
  have place := leaving.going.advancing.place i thread loop there here
  have notIdle := leaving.going.started leaving.begun there here
  have outside : thread.pc.locked ≠ true := by
    intro locked
    cases pc.symm.trans (place.calls locked)
  have active : thread.pc = .active := by
    cases at_ : thread.pc with
    | active => rfl
    | idle => exact absurd at_ notIdle
    | exited => exact absurd ⟨thread, there, at_⟩ notExited
    | _ => exact absurd (by rw [at_]; rfl) outside
  refine ⟨p.withThread i { thread with pc := .exited }, ?_, ?_⟩
  · simp only [pipelineSystem, there, Option.bind_some, active, here]
    unfold Pipeline.segmentRun
    simp only [pc]
    exact control_leave there active
  · exact ⟨_, List.getElem?_set_self (List.getElem?_eq_some_iff.mp there).1, rfl⟩

/-- **The thread of a segment ends** once the segment has left its loop. -/
theorem eventually_exited {n : Nat}
    (leaving : Leaving bytes ((queueSystem buflen bytes queues).play start schedule n))
    (left : ((queueSystem buflen bytes queues).play start schedule n).Left i)
    (turns : System.RecursIn schedule fun act => ∃ choice, act = .segment i choice) :
    ∃ m, n ≤ m ∧ ((queueSystem buflen bytes queues).play start schedule m).Exited i := by
  let I : Pipeline ByteQueue → Prop := fun p => Leaving bytes p ∧ p.Left i
  have kept : ∀ (p : Pipeline ByteQueue) act p', I p → ¬p.Exited i → True →
      (queueSystem buflen bytes queues).step p act = some p' →
      p'.Exited i ∨ I p' ∧ (0 : Nat) ≤ 0 := fun p act p' inv _ _ step =>
    .inr ⟨⟨inv.1.step step, inv.1.going.left_stays inv.2 step⟩, Nat.le_refl 0⟩
  have helpful : ∀ (p : Pipeline ByteQueue) act, I p → ¬p.Exited i →
      (∃ choice, act = PipelineAct.segment i choice) → True →
      ∃ p', (queueSystem buflen bytes queues).step p act = some p' ∧
        (p'.Exited i ∨ I p' ∧ (0 : Nat) < 0) := by
    rintro p _ inv notExited ⟨choice, rfl⟩ _
    obtain ⟨p', step, exited⟩ := inv.1.exits inv.2 notExited choice
    exact ⟨p', step, .inl exited⟩
  exact System.play_progress kept helpful (fun _ => trivial) turns ⟨leaving, left⟩

/-- The last stage: all segments have left and their threads have ended. -/
structure Ended (bytes : List UInt8) (p : Pipeline ByteQueue) : Prop where
  leaving : Leaving bytes p
  segments : 0 < p.loops.length
  left : ∀ i < p.loops.length, p.Left i
  exited : ∀ i < p.loops.length, p.Exited i

theorem Ended.step (ended : Ended bytes p)
    (step : (queueSystem buflen bytes queues).step p act = some p') : Ended bytes p' := by
  have places := ended.leaving.going.places step
  refine ⟨ended.leaving.step step, places.symm ▸ ended.segments, fun i within => ?_,
    fun i within => ?_⟩
  · exact ended.leaving.going.left_stays (ended.left i (places ▸ within)) step
  · exact ended.leaving.going.exited_stays ended.leaving.begun (ended.exited i (places ▸ within))
      step

/-- The stream is not `RUNNING` any more, and no segment's flag is set. -/
theorem Ended.quiet (ended : Ended bytes p) : p.stream.state ≠ .running ∧
    ∀ (i : Nat) (thread : SegmentThread), p.stream.segments[i]? = some thread →
      thread.running = false ∧ thread.pc = .exited := by
  have going := ended.leaving.going
  refine ⟨fun running => ?_, fun i thread there => ?_⟩
  · obtain ⟨loop, here, pc⟩ := ended.left 0 ended.segments
    obtain ⟨thread, there⟩ := going.exists_thread here
    exact ((going.advancing.place 0 thread loop there here).running running).2.2.1 pc
  · have within : i < p.loops.length :=
      going.delivering.threads ▸ (List.getElem?_eq_some_iff.mp there).1
    obtain ⟨loop, here, pc⟩ := ended.left i within
    obtain ⟨gone, there', exited⟩ := ended.exited i within
    obtain rfl : thread = gone := Option.some.inj (there.symm.trans there')
    exact ⟨(going.advancing.place i thread loop there here).flag pc, exited⟩

/-- The stream's own thread gets on with its joins. -/
theorem Ended.main_ends (ended : Ended bytes p) (goesOn : p.stream.main ≠ .exited) : ∃ p',
    p.control .main = some p' ∧
      p'.stream.main.toEnd p'.loops.length < p.stream.main.toEnd p.loops.length := by
  have going := ended.leaving.going
  have calm := calm_reach going.delivering.orderly
  have state := calm.inv.state
  have threads := going.delivering.threads
  obtain ⟨notRunning, quiet⟩ := ended.quiet
  have goes : ∀ {stream : IoStream}, mainStep p.stream = some stream →
      stream.main.toEnd p.loops.length < p.stream.main.toEnd p.loops.length →
      ∃ p', p.control .main = some p' ∧
        p'.stream.main.toEnd p'.loops.length < p.stream.main.toEnd p.loops.length :=
    fun moved closer => ⟨{ p with stream := _ }, Option.map_eq_some_iff.mpr ⟨_, moved, rfl⟩, closer⟩
  obtain ⟨main, pc⟩ : ∃ main, p.stream.main = main := ⟨_, rfl⟩
  cases main with
  | setReady =>
      rw [pc] at state
      exact absurd state ended.leaving.begun.1
  | poll =>
      refine goes (by simp only [mainStep, pc, notRunning, if_false]; rfl) ?_
      simp only [pc, MainPc.toEnd]
      omega
  | check =>
      refine goes (by simp only [mainStep, pc]; rfl) ?_
      simp only [pc]
      split <;> simp only [MainPc.toEnd] <;> omega
  | waiting k =>
      by_cases more : k < p.stream.segments.length
      · have found := List.getElem?_eq_getElem more
        have idle := (quiet k _ found).1
        refine goes (by simp only [mainStep, pc, found, idle, Bool.false_eq_true, if_false]; rfl) ?_
        simp only [pc, MainPc.toEnd]
        omega
      · have none_left : p.stream.segments[k]? = none := List.getElem?_eq_none (by omega)
        refine goes (by simp only [mainStep, pc, none_left]; rfl) ?_
        simp only [pc, MainPc.toEnd]
        omega
  | joining k =>
      by_cases more : k < p.stream.segments.length
      · have found := List.getElem?_eq_getElem more
        have exited := (quiet k _ found).2
        refine goes (by simp only [mainStep, pc, found, exited, if_true]; rfl) ?_
        simp only [pc, MainPc.toEnd]
        omega
      · have none_left : p.stream.segments[k]? = none := List.getElem?_eq_none (by omega)
        refine goes (by simp only [mainStep, pc, none_left]; rfl) ?_
        simp only [pc, MainPc.toEnd]
        omega
  | setStopped =>
      refine goes (by simp only [mainStep, pc]; rfl) ?_
      simp only [pc, MainPc.toEnd]
      omega
  | exited => exact absurd pc goesOn
  | _ =>
      rw [pc] at state
      rcases state with now | now | now
      · exact absurd now ended.leaving.begun.2
      · exact absurd now calm.notDone
      · exact absurd now calm.notError

/-- No thread of a stream that has come to its end moves. -/
theorem still_of_exited {β : Type} {chain : Chain β} {buffers : List β} {p : Pipeline β}
    (last : p.stream.main = .exited)
    (exited : ∀ (i : Nat) (thread : SegmentThread), p.stream.segments[i]? = some thread →
      thread.pc = .exited) : (pipelineSystem chain bytes buffers).step p act = none := by
  cases act with
  | main => simp [pipelineSystem, Pipeline.control, streamSystem, mainStep, last]
  | segment i choice =>
      cases there : p.stream.segments[i]? with
      | none => simp [pipelineSystem, there]
      | some thread =>
          have exited := exited i thread there
          simp [pipelineSystem, there, exited, Pipeline.control, streamSystem, segmentStep]

theorem Ended.still (ended : Ended bytes p) (last : p.stream.main = .exited) :
    (queueSystem buflen bytes queues).step p act = none :=
  still_of_exited last fun i thread there => (ended.quiet.2 i thread there).2

/-- Segments that have left ask nothing any more. -/
theorem answered_of_left {β : Type} {p : Pipeline β} (left : p.AllLeft) (act : PipelineAct) :
    Answered buflen p act := by
  cases act with
  | main => trivial
  | segment i choice =>
      intro loop here
      have pc := left loop (List.mem_of_getElem? here)
      refine ⟨fun _ reads => ?_, fun _ writes => ?_⟩
      · cases pc.symm.trans reads
      · cases pc.symm.trans writes

/-! ### All stages -/

theorem play_places (going : Going bytes start) (n : Nat) :
    ((queueSystem buflen bytes queues).play start schedule n).loops.length =
      start.loops.length := by
  induction n with
  | zero => rfl
  | succ n ih =>
      have before : Going bytes ((queueSystem buflen bytes queues).play start schedule n) :=
        play_going going n
      simp only [System.play, System.attempt]
      cases step : (queueSystem buflen bytes queues).step
          ((queueSystem buflen bytes queues).play start schedule n) (schedule n) with
      | none => exact ih
      | some p' => exact (before.places step).trans ih

theorem play_left (going : Going bytes start) {n m : Nat}
    (left : ((queueSystem buflen bytes queues).play start schedule n).Left i) (later : n ≤ m) :
    ((queueSystem buflen bytes queues).play start schedule m).Left i := by
  have kept := System.play_kept (M := queueSystem buflen bytes queues)
    (P := fun p => Going bytes p ∧ p.Left i)
    (fun p act p' holds step => ⟨holds.1.step step, holds.1.left_stays holds.2 step⟩)
    ⟨play_going going n, left⟩ later
  exact kept.2

theorem play_leaving {n m : Nat}
    (leaving : Leaving bytes ((queueSystem buflen bytes queues).play start schedule n))
    (later : n ≤ m) : Leaving bytes ((queueSystem buflen bytes queues).play start schedule m) :=
  System.play_kept (fun _ _ _ leaving step => Leaving.step leaving step) leaving later

/-- The segments leave, in the order of the chain. -/
theorem all_left (going : Going bytes start) (positive : ∀ j, 0 < buflen j) {n : Nat}
    (leaving : Leaving bytes ((queueSystem buflen bytes queues).play start schedule n))
    (answered : (queueSystem buflen bytes queues).Permits (Answered buflen) start schedule)
    (turns : ∀ i < start.loops.length,
      System.RecursIn schedule fun act => ∃ choice, act = .segment i choice) :
    ∃ m, n ≤ m ∧ ∀ i < start.loops.length,
      ((queueSystem buflen bytes queues).play start schedule m).Left i := by
  refine System.play_stages (G := fun i (p : Pipeline ByteQueue) => p.Left i)
    (fun j n m left later => play_left going left later) fun j within k later before => ?_
  have places : ((queueSystem buflen bytes queues).play start schedule k).loops.length =
      start.loops.length := play_places going k
  have here := List.getElem?_eq_getElem (places.symm ▸ within)
  exact eventually_left (play_leaving leaving later) before ⟨_, here⟩ positive answered
    (turns j within)

/-- Then their threads end. -/
theorem all_exited (going : Going bytes start) (segments : 0 < start.loops.length) {n : Nat}
    (leaving : Leaving bytes ((queueSystem buflen bytes queues).play start schedule n))
    (left : ∀ i < start.loops.length,
      ((queueSystem buflen bytes queues).play start schedule n).Left i)
    (turns : ∀ i < start.loops.length,
      System.RecursIn schedule fun act => ∃ choice, act = .segment i choice) :
    ∃ m, n ≤ m ∧ Ended bytes ((queueSystem buflen bytes queues).play start schedule m) := by
  obtain ⟨m, later, exited⟩ := System.play_stages (M := queueSystem buflen bytes queues)
    (G := fun i p => Leaving bytes p ∧ p.Exited i)
    (fun j n m holds later => System.play_kept
      (P := fun (p : Pipeline ByteQueue) => Leaving bytes p ∧ p.Exited j)
      (fun p act p' holds step =>
        ⟨holds.1.step step, holds.1.going.exited_stays holds.1.begun holds.2 step⟩) holds later)
    fun j within k later _ => by
      have leaving := play_leaving leaving later
      obtain ⟨m, after, exited⟩ :=
        eventually_exited leaving (play_left going (left j within) later) (turns j within)
      exact ⟨m, after, play_leaving leaving after, exited⟩
  have places : ((queueSystem buflen bytes queues).play start schedule m).loops.length =
      start.loops.length := play_places going m
  refine ⟨m, later, play_leaving leaving later, places.symm ▸ segments, fun i within => ?_,
    fun i within => (exited i (places ▸ within)).2⟩
  exact play_left going (left i (places ▸ within)) later

/-- Then the stream's own thread joins them and sets `STOPPED`. -/
theorem main_exits {n : Nat}
    (ended : Ended bytes ((queueSystem buflen bytes queues).play start schedule n))
    (main : System.RecursIn schedule fun act => act = .main) :
    ∃ m, n ≤ m ∧ ((queueSystem buflen bytes queues).play start schedule m).stream.main =
      .exited := by
  have kept : ∀ (p : Pipeline ByteQueue) act p', Ended bytes p → ¬p.stream.main = .exited → True →
      (queueSystem buflen bytes queues).step p act = some p' →
      p'.stream.main = .exited ∨ Ended bytes p' ∧ p'.stream.main.toEnd p'.loops.length ≤
        p.stream.main.toEnd p.loops.length := by
    intro p act p' ended goesOn _ step
    refine .inr ⟨ended.step step, ?_⟩
    cases act with
    | main =>
        obtain ⟨p'', moved, closer⟩ := ended.main_ends goesOn
        obtain rfl : p'' = p' := Option.some.inj (moved.symm.trans step)
        exact Nat.le_of_lt closer
    | segment i choice =>
        rw [ended.leaving.going.main_stays step, ended.leaving.going.places step]
  have helpful : ∀ (p : Pipeline ByteQueue) act, Ended bytes p → ¬p.stream.main = .exited →
      act = PipelineAct.main → True → ∃ p', (queueSystem buflen bytes queues).step p act = some p' ∧
        (p'.stream.main = .exited ∨ Ended bytes p' ∧ p'.stream.main.toEnd p'.loops.length <
          p.stream.main.toEnd p.loops.length) := by
    rintro p act ended goesOn rfl _
    obtain ⟨p', moved, closer⟩ := ended.main_ends goesOn
    have step : (queueSystem buflen bytes queues).step p .main = some p' := moved
    exact ⟨p', step, .inr ⟨ended.step step, closer⟩⟩
  exact System.play_progress kept helpful (fun _ => trivial) main ended

/-- **A chain of queues ends**, and stays as it is then. -/
theorem queue_chain_ends (going : Going bytes start) (segments : 0 < start.loops.length)
    (positive : ∀ j, 0 < buflen j)
    (answered : (queueSystem buflen bytes queues).Permits (Answered buflen) start schedule)
    (main : System.RecursIn schedule fun act => act = .main)
    (turns : ∀ i < start.loops.length,
      System.RecursIn schedule fun act => ∃ choice, act = .segment i choice) :
    ∃ m, ∀ n, m ≤ n → Ended bytes ((queueSystem buflen bytes queues).play start schedule n) ∧
      ((queueSystem buflen bytes queues).play start schedule n).stream.main = .exited := by
  obtain ⟨n₀, begun⟩ := eventually_begun going main
  have leaving : Leaving bytes ((queueSystem buflen bytes queues).play start schedule n₀) :=
    ⟨play_going going n₀, begun⟩
  obtain ⟨n₁, later, left⟩ := all_left going positive leaving answered turns
  obtain ⟨n₂, -, ended⟩ := all_exited going segments (play_leaving leaving later) left turns
  obtain ⟨n₃, after, last⟩ := main_exits ended main
  have ended := System.play_kept (fun _ _ _ ended step => Ended.step ended step) ended after
  refine ⟨n₃, fun n later => System.play_kept
    (P := fun (p : Pipeline ByteQueue) => Ended bytes p ∧ p.stream.main = .exited)
    (fun p act p' holds step => ?_) ⟨ended, last⟩ later⟩
  rw [holds.1.still holds.2] at step
  cases step

end Stages

/-! ## The chain of the source -/

namespace Alike

variable {buflen : Nat → Nat} {p : Pipeline Ring} {q : Pipeline ByteQueue}

/-- The source and the sink answer in both alike. -/
theorem answered (alike : Alike p q) {act : PipelineAct} (answered : Answered buflen p act) :
    Answered buflen q act := by
  cases act with
  | main => trivial
  | segment i choice =>
      intro loop here
      have given := answered loop (by rw [alike.loops]; exact here)
      rw [alike.source] at given
      refine ⟨given.1, fun none_left => given.2 ?_⟩
      rw [List.getElem?_eq_none_iff] at none_left ⊢
      rw [alike.places]
      exact none_left

end Alike

/-- **A linear stream ends.** Take a chain of segments with new ring buffers between them, whose
allocations succeed, in any state it can reach, and any schedule in which every thread has its turn
again and again. When the source gives at least one byte or reports completion whenever it is asked,
and the sink takes at least one byte of what it is handed, the stream comes to `STOPPED` and stays
there: all segments have left their loops, and the sink holds all bytes of the source. -/
theorem pipeline_ends (hosts : Nat → Host) (fits : ∀ i, (hosts i).Fits) (aligns : List Nat)
    (aligned : ∀ align ∈ aligns, 0 < align) (buflen : Nat → Nat) (positive : ∀ i, 0 < buflen i)
    (bytes : List UInt8) (p : Pipeline Ring)
    (reached : (pipelineSystem (ringChain hosts buflen) bytes (newRings aligns)).Reach p)
    (schedule : Nat → PipelineAct) (main : System.RecursIn schedule fun act => act = .main)
    (turns : ∀ i ≤ aligns.length,
      System.RecursIn schedule fun act => ∃ choice, act = .segment i choice)
    (answered : (pipelineSystem (ringChain hosts buflen) bytes (newRings aligns)).Permits
      (Answered buflen) p schedule) :
    ∃ m, ∀ n, m ≤ n →
      let last :=
        (pipelineSystem (ringChain hosts buflen) bytes (newRings aligns)).play p schedule n
      last.stream.main = .exited ∧ last.stream.state = .stopped ∧ last.AllLeft ∧
        last.sink = bytes := by
  obtain ⟨q, reachedQueue, alike⟩ := ring_chain_simulated fits aligned positive reached
  have inv : Going bytes q ∧ q.loops.length = aligns.length + 1 := by
    refine reachedQueue.invariant (I := fun q => Going bytes q ∧ q.loops.length = aligns.length + 1)
      (fun q start => ⟨going_start q start, ?_⟩) fun q act q' inv _ step =>
        ⟨inv.1.step step, (inv.1.places step).trans inv.2⟩
    obtain rfl := start
    simp
  have beside : ∀ n, Alike
      ((pipelineSystem (ringChain hosts buflen) bytes (newRings aligns)).play p schedule n)
      ((queueSystem buflen bytes (List.replicate aligns.length {})).play q schedule n) :=
    System.play_beside (fun _ _ act alike => alike.step_beside fits positive act) alike
  have answeredQueue : (queueSystem buflen bytes (List.replicate aligns.length {})).Permits
      (Answered buflen) q schedule := fun n => (beside n).answered (answered n)
  obtain ⟨m, ends⟩ := queue_chain_ends inv.1 (by omega) positive answeredQueue main
    fun i within => turns i (by omega)
  refine ⟨m, fun n later => ?_⟩
  obtain ⟨ended, last⟩ := ends n later
  have going := ended.leaving.going.delivering
  have state := (calm_reach going.orderly).inv.state
  rw [last] at state
  have left : Pipeline.AllLeft
      ((queueSystem buflen bytes (List.replicate aligns.length {})).play q schedule n) := by
    intro loop member
    obtain ⟨i, here⟩ := List.getElem?_of_mem member
    obtain ⟨gone, there, pc⟩ := ended.left i (List.getElem?_eq_some_iff.mp here).1
    obtain rfl : loop = gone := Option.some.inj (here.symm.trans there)
    exact pc
  refine ⟨(beside n).stream ▸ last, (beside n).stream ▸ state, ?_, ?_⟩
  · intro loop member
    rw [(beside n).loops] at member
    exact left loop member
  · rw [(beside n).sink]
    exact going.sink_eq left

/-- A chain of two segments: the first runs to its end, the second drains the ring between them, the
stream's own thread joins them, and from then on they take turns. -/
theorem pipeline_ends_pair : ∃ (schedule : Nat → PipelineAct) (m : Nat), ∀ n, m ≤ n →
    let last := (pipelineSystem (ringChain (fun _ => roomyHost) fun _ => 4) [7, 8]
      (newRings [1])).play
      { stream := { segments := [{}, {}], stops := [] }
        loops := [{}, {}]
        source := [7, 8]
        buffers := newRings [1] } schedule n
    last.stream.main = .exited ∧ last.stream.state = .stopped ∧ last.AllLeft ∧
      last.sink = [7, 8] := by
  let chain := pipelineSystem (ringChain (fun _ => roomyHost) fun _ => 4) [7, 8] (newRings [1])
  let start : Pipeline Ring :=
    { stream := { segments := [{}, {}], stops := [] }
      loops := [{}, {}]
      source := [7, 8]
      buffers := newRings [1] }
  let all : Choice := { size := 2, complete := true }
  let acts := List.replicate 5 PipelineAct.main ++ List.replicate 14 (PipelineAct.segment 0 all) ++
    List.replicate 15 (PipelineAct.segment 1 all) ++ List.replicate 9 PipelineAct.main
  let turn (n : Nat) : PipelineAct :=
    if n % 3 = 0 then .main else if n % 3 = 1 then .segment 0 all else .segment 1 all
  let schedule : Nat → PipelineAct := fun n => acts[n]?.getD (turn n)
  have ends : (chain.execUnder (Answered fun _ => 4) start acts).map (fun p =>
      decide (p.stream.main = .exited ∧ (∀ thread ∈ p.stream.segments, thread.pc = .exited) ∧
        p.AllLeft)) = some true := by
    decide +kernel
  obtain ⟨t, run, last⟩ := Option.map_eq_some_iff.mp ends
  obtain ⟨main, exited, left⟩ := of_decide_eq_true last
  have later : ∀ n, acts.length ≤ n → schedule n = turn n := fun n after => by
    show acts[n]?.getD (turn n) = turn n
    rw [List.getElem?_eq_none after, Option.getD_none]
  have recurs : ∀ k < 3, System.RecursIn schedule fun act => act = turn k := fun k below n => by
    refine ⟨3 * (n + acts.length) + k, by omega, ?_⟩
    rw [later _ (by omega)]
    have same : (3 * (n + acts.length) + k) % 3 = k % 3 := by omega
    simp only [turn, same]
  have permits : chain.Permits (Answered fun _ => 4) start schedule := by
    have begins : ∀ n < acts.length, acts[n]? = some (schedule n) := by
      intro n below
      simp only [schedule, List.getElem?_eq_getElem below, Option.getD_some]
    exact System.permits_of_run begins run
      (fun act => still_of_exited main fun i thread there =>
        exited thread (List.mem_of_getElem? there)) fun n _ => answered_of_left left _
  obtain ⟨m, ended⟩ := pipeline_ends (fun _ => roomyHost) (fun _ => roomyHost_fits) [1] (by simp)
    (fun _ => 4) (by simp) [7, 8] start (.start rfl) schedule (recurs 0 (by decide))
    (fun i within n => by
      have within : i ≤ 1 := within
      obtain ⟨m, after, tried⟩ := recurs (i + 1) (by omega) n
      refine ⟨m, after, all, tried.trans ?_⟩
      have cases_ : i = 0 ∨ i = 1 := by omega
      rcases cases_ with rfl | rfl <;> rfl) permits
  exact ⟨schedule, m, ended⟩

end Bingewatch.Stream
