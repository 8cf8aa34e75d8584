import Bingewatch.Foundation.Transition

/-!
# The state of a stream

Three kinds of threads write the state of a stream (`src/stream.c`): the stream's own thread in
`main_state_machine`, the segments through `callback_complete` and `callback_error`, and every
caller of `stop_stream_internal`. Each of them decides on a value it read earlier, and the lock of
the stream keeps only the callbacks of two segments apart.

The model takes one step for each access to the state. Three writes can meet a state their thread
did not expect: `RUNNING` after the segments were started, `FINISHING` at the end of
`callback_complete`, and `DONE` at the end of a stop request. `forward_iff_expected` says that these
are the only ones: along a run in which they meet the expected state every step moves the state
forward, and the first that does not moves it backward.
-/

set_option autoImplicit false

namespace Bingewatch.Stream

open Foundation

/-- `enum stream_state_e`. -/
inductive StreamState where
  | init
  | ready
  | running
  | finishing
  | done
  | stopped
  | error
  deriving DecidableEq, Repr

/-- `enum stream_status_e`, without the values the state machine never stores. -/
inductive StreamStatus where
  | success
  | error
  | stopFailure
  deriving DecidableEq, Repr

/-- The numeric value of a state. -/
def StreamState.rank : StreamState → Nat
  | .init => 0
  | .ready => 1
  | .running => 2
  | .finishing => 3
  | .done => 4
  | .stopped => 5
  | .error => 6

/-- `STREAM_IS_RUNNING`. -/
def StreamState.isRunning (s : StreamState) : Bool :=
  StreamState.init.rank < s.rank ∧ s.rank < StreamState.done.rank

/-- The state `callback_complete` sets after it read a state, if it sets one. -/
def callbackComplete : StreamState → Option StreamState
  | .init => some .done
  | .ready => some .done
  | .running => some .finishing
  | _ => none

/-- The state `callback_error` sets after it read a state, if it sets one. -/
def callbackError : StreamState → Option StreamState
  | .error => none
  | .finishing => none
  | .done => none
  | _ => some .error

theorem callbackError_eq {state new : StreamState} (sets : callbackError state = some new) :
    new = .error := by
  cases state <;> simp_all [callbackError]

/-- What `stop_stream_internal` does after it read a state. -/
inductive StopChoice where
  | again
  | setDone
  | fail
  | leave
  deriving DecidableEq, Repr

def stopStreamInternal : StreamState → StopChoice
  | .init => .again
  | .ready => .again
  | .running => .setDone
  | .finishing => .setDone
  | .done => .leave
  | .error => .fail
  | .stopped => .leave

/-! ## The threads -/

/-- Where the stream's own thread stands in `main_state_machine`. -/
inductive MainPc where
  | setReady
  | starting (next : Nat)
  | setRunning
  | poll
  | check
  | waiting (next : Nat)
  | joining (next : Nat)
  | setStopped
  | exited
  deriving DecidableEq, Repr

/-- Where a segment's thread stands: in its own loop (`active`), or in one of the callbacks with
the lock of the stream held. -/
inductive SegmentPc where
  | idle
  | active
  | completeRead
  | completeWrite (state : StreamState)
  | errorRead
  | errorWrite (state : StreamState)
  | errorStatus
  | unlock
  | exited
  deriving DecidableEq, Repr

/-- The thread holds the lock of the stream. -/
def SegmentPc.locked : SegmentPc → Bool
  | .idle => false
  | .active => false
  | .exited => false
  | _ => true

/-- A segment's thread and its running flag. -/
structure SegmentThread where
  pc : SegmentPc := .idle
  running : Bool := false
  deriving DecidableEq, Repr

/-- Where a caller stands in `stop_stream_internal`. -/
inductive StopPc where
  | read
  | setDone
  | setStatus
  | returned
  deriving DecidableEq, Repr

/-- A stream with its threads. The lock names the segment that holds it. -/
structure IoStream where
  state : StreamState := .init
  status : StreamStatus := .success
  lock : Option Nat := none
  main : MainPc := .setReady
  segments : List SegmentThread
  stops : List StopPc
  deriving DecidableEq, Repr

/-- What a segment does outside its callbacks, which its own loop decides: report completion or an
error, set or clear its running flag, leave. -/
inductive SegmentMove where
  | complete
  | error
  | flag (running : Bool)
  | leave
  | go
  deriving DecidableEq, Repr

/-- One step of one thread. -/
inductive Act where
  | main
  | segment (i : Nat) (move : SegmentMove)
  | stop (k : Nat)
  deriving DecidableEq, Repr

/-- A step of `main_state_machine`. `pthread_join` waits for the segment's thread. -/
def mainStep (s : IoStream) : Option IoStream :=
  match s.main with
  | .setReady => some { s with state := .ready, main := .starting 0 }
  | .starting k =>
      match s.segments[k]? with
      | some seg =>
          some { s with segments := s.segments.set k { seg with pc := .active },
                        main := .starting (k + 1) }
      | none => some { s with main := .setRunning }
  | .setRunning => some { s with state := .running, main := .poll }
  | .poll => if s.state = .running then some s else some { s with main := .check }
  | .check => some { s with main := if s.state = .finishing then .waiting 0 else .joining 0 }
  | .waiting k =>
      match s.segments[k]? with
      | some seg => if seg.running then some s else some { s with main := .waiting (k + 1) }
      | none => some { s with main := .joining 0 }
  | .joining k =>
      match s.segments[k]? with
      | some seg => if seg.pc = .exited then some { s with main := .joining (k + 1) } else none
      | none => some { s with main := .setStopped }
  | .setStopped => some { s with state := .stopped, main := .exited }
  | .exited => none

/-- A step of the `i`-th segment. -/
def segmentStep (s : IoStream) (i : Nat) (seg : SegmentThread) (move : SegmentMove) :
    Option IoStream :=
  let goto (pc : SegmentPc) (s : IoStream) : IoStream :=
    { s with segments := s.segments.set i { seg with pc := pc } }
  match seg.pc, move with
  | .active, .complete =>
      if s.lock = none then some (goto .completeRead { s with lock := some i }) else none
  | .active, .error =>
      if s.lock = none then some (goto .errorRead { s with lock := some i }) else none
  | .active, .flag running =>
      some { s with segments := s.segments.set i { seg with running := running } }
  | .active, .leave => some (goto .exited s)
  | .completeRead, .go =>
      match callbackComplete s.state with
      | some state => some (goto (.completeWrite state) s)
      | none => some (goto .unlock s)
  | .completeWrite state, .go => some (goto .unlock { s with state := state })
  | .errorRead, .go =>
      match callbackError s.state with
      | some state => some (goto (.errorWrite state) s)
      | none => some (goto .errorStatus s)
  | .errorWrite state, .go => some (goto .errorStatus { s with state := state })
  | .errorStatus, .go => some (goto .unlock { s with status := .error })
  | .unlock, .go => some (goto .active { s with lock := none })
  | _, _ => none

/-- A step of the `k`-th caller of `stop_stream_internal`. -/
def stopStep (s : IoStream) (k : Nat) (pc : StopPc) : Option IoStream :=
  let goto (pc : StopPc) (s : IoStream) : IoStream := { s with stops := s.stops.set k pc }
  match pc with
  | .read =>
      match stopStreamInternal s.state with
      | .again => some s
      | .setDone => some (goto .setDone s)
      | .fail => some (goto .setStatus s)
      | .leave => some (goto .returned s)
  | .setDone => some (goto .returned { s with state := .done })
  | .setStatus => some (goto .returned { s with status := .stopFailure })
  | .returned => none

/-- A stream with any number of segments and of stop requests, each of which may come at any
time. -/
def streamSystem : System IoStream Act where
  start := fun s => ∃ segments stops,
    s = { segments := List.replicate segments {}, stops := List.replicate stops .read }
  step := fun s act =>
    match act with
    | .main => mainStep s
    | .segment i move => s.segments[i]?.bind fun seg => segmentStep s i seg move
    | .stop k => s.stops[k]?.bind fun pc => stopStep s k pc

/-! ## Forward -/

/-- The state moves forward: up in its order or to the error state, from the error state only to
`STOPPED`, and from there nowhere. -/
def Forward : StreamState → StreamState → Prop
  | .error, t => t = .error ∨ t = .stopped
  | .stopped, t => t = .stopped
  | s, t => t = .error ∨ s.rank ≤ t.rank

/-- The three writes that follow a decision the state may have left behind meet the state their
thread expects: `RUNNING` is written over `READY`, `callback_complete` writes `FINISHING` over
`RUNNING`, and a stop request does not write `DONE` over `ERROR` or `STOPPED`. -/
def Expected (s : IoStream) : Act → Prop
  | .main => s.main = .setRunning → s.state = .ready
  | .segment i _ => ∀ seg ∈ s.segments[i]?, seg.pc = .completeWrite .finishing → s.state = .running
  | .stop k => s.stops[k]? = some .setDone → s.state ≠ .error ∧ s.state ≠ .stopped

/-- How far the stream's own thread has come. -/
inductive Phase where
  | fresh
  | starting
  | started
  | ended
  deriving DecidableEq, Repr

def MainPc.phase : MainPc → Phase
  | .setReady => .fresh
  | .starting _ => .starting
  | .setRunning => .starting
  | .exited => .ended
  | _ => .started

/-- The states a phase can see. -/
def Phase.allows : Phase → StreamState → Prop
  | .fresh, state => state = .init
  | .starting, state => state = .ready ∨ state = .done ∨ state = .error
  | .started, state => state = .running ∨ state = .finishing ∨ state = .done ∨ state = .error
  | .ended, state => state = .stopped

/-- The segments `main_state_machine` has joined. -/
def MainPc.joins : MainPc → Nat → Prop
  | .joining k, i => i < k
  | .setStopped, _ => True
  | .exited, _ => True
  | _, _ => False

/-- What a callback has decided on fits the state: between its read and its write only stop
requests and the write of `RUNNING` move the state. -/
def Decision (phase : Phase) (state : StreamState) : SegmentPc → Prop
  | .completeWrite new =>
      new = .finishing ∧ phase = .started ∧ (state = .running ∨ state = .done) ∨
      new = .done ∧ (state = .ready ∨ state = .running ∨ state = .done)
  | .errorWrite new => new = .error
  | _ => True

/-- Writing `RUNNING` over `READY` upsets no decision. -/
theorem Decision.running {phase : Phase} {pc : SegmentPc} (decision : Decision phase .ready pc) :
    Decision .started .running pc := by
  cases pc <;> simp_all [Decision]

/-- Neither does a stop request. -/
theorem Decision.done {phase : Phase} {state : StreamState} {pc : SegmentPc}
    (decision : Decision phase state pc) : Decision phase .done pc := by
  cases pc with
  | completeWrite new =>
      rcases decision with ⟨target, started, _⟩ | ⟨target, _⟩
      · exact Or.inl ⟨target, started, Or.inr rfl⟩
      · exact Or.inr ⟨target, Or.inr (Or.inr rfl)⟩
  | errorWrite new => exact decision
  | _ => trivial

theorem Decision.unlocked {phase : Phase} {state : StreamState} {pc : SegmentPc}
    (outside : pc.locked = false) : Decision phase state pc := by
  cases pc <;> simp_all [Decision, SegmentPc.locked]

/-- A segment among the other threads: it does not run before `READY`, has left once it was
joined, and holds the lock while it is in a callback. -/
structure SegmentOk (s : IoStream) (i : Nat) (seg : SegmentThread) : Prop where
  quiet : s.main.phase = .fresh → seg.pc = .idle
  joined : s.main.joins i → seg.pc = .exited
  holder : seg.pc.locked = true → s.lock = some i
  decided : Decision s.main.phase s.state seg.pc

/-- What holds along a run whose writes meet the states they expect. A stop request that is about
to write has seen the stream running. -/
structure IoStream.Inv (s : IoStream) : Prop where
  state : s.main.phase.allows s.state
  segment : ∀ (i : Nat) (seg : SegmentThread), s.segments[i]? = some seg → SegmentOk s i seg
  stopping : ∀ k : Nat, s.stops[k]? = some .setDone →
    s.main.phase = .started ∨ s.main.phase = .ended

theorem inv_start (s : IoStream) (start : streamSystem.start s) : s.Inv := by
  obtain ⟨n, k, rfl⟩ := start
  refine ⟨rfl, fun i seg thread => ?_, fun k caller => ?_⟩
  · obtain rfl : seg = {} := by grind
    exact ⟨fun _ => rfl, fun joins => joins.elim, (fun locked => nomatch locked), trivial⟩
  · grind

/-! ### The stream's own thread -/

/-- A step of the stream's own thread that stays in its phase. -/
theorem IoStream.Inv.goto {s : IoStream} (inv : s.Inv) {pc : MainPc}
    (phase : pc.phase = s.main.phase)
    (joined : ∀ (i : Nat) (seg : SegmentThread), s.segments[i]? = some seg → pc.joins i →
      seg.pc = .exited) :
    IoStream.Inv { s with main := pc } where
  state := phase.symm ▸ inv.state
  segment := fun i seg thread => by
    have old := inv.segment i seg thread
    exact ⟨fun fresh => old.quiet (phase ▸ fresh), joined i seg thread, old.holder,
      phase.symm ▸ old.decided⟩
  stopping := fun k caller => phase.symm ▸ inv.stopping k caller

theorem inv_main {s t : IoStream} (inv : s.Inv) (expected : Expected s .main)
    (step : mainStep s = some t) : t.Inv := by
  unfold mainStep at step
  cases pc : s.main with
  | setReady =>
      have fresh : s.main.phase = .fresh := by rw [pc]; rfl
      simp only [pc, Option.some.injEq] at step
      subst step
      refine ⟨Or.inl rfl, fun i seg thread => ?_, fun k caller => ?_⟩
      · have idle := (inv.segment i seg thread).quiet fresh
        refine ⟨(fun phase => nomatch phase), fun joins => joins.elim, fun locked => ?_, ?_⟩
        · simp [idle, SegmentPc.locked] at locked
        · simp [idle, Decision]
      · rcases inv.stopping k caller with phase | phase <;> cases fresh.symm.trans phase
  | starting k =>
      simp only [pc] at step
      split at step
      · next seg thread =>
          cases step
          refine ⟨?_, fun i other member => ?_, fun k caller => ?_⟩
          · have state := inv.state
            rw [pc] at state
            exact state
          · by_cases here : i = k
            · obtain rfl : other = { seg with pc := .active } := by grind
              exact ⟨(fun phase => nomatch phase), fun joins => joins.elim,
                (fun locked => nomatch locked), trivial⟩
            · have old := inv.segment i other (by grind)
              have decided := old.decided
              rw [pc] at decided
              exact ⟨(fun phase => nomatch phase), fun joins => joins.elim, old.holder, decided⟩
          · have stopping := inv.stopping k caller
            rw [pc] at stopping
            exact stopping
      · cases step
        exact inv.goto (by rw [pc]; rfl) fun _ _ _ joins => joins.elim
  | setRunning =>
      -- The state is still `READY`, so a callback has decided on nothing but `DONE`.
      have before : s.state = .ready := expected pc
      simp only [pc, Option.some.injEq] at step
      subst step
      refine ⟨Or.inl rfl, fun i seg thread => ?_, fun _ _ => Or.inl rfl⟩
      have old := inv.segment i seg thread
      have decided := old.decided
      rw [before] at decided
      exact ⟨(fun phase => nomatch phase), fun joins => joins.elim, old.holder, decided.running⟩
  | poll =>
      simp only [pc] at step
      split at step
      · cases step
        exact inv
      · cases step
        exact inv.goto (by rw [pc]; rfl) fun _ _ _ joins => joins.elim
  | check =>
      simp only [pc, Option.some.injEq] at step
      subst step
      refine inv.goto ?_ fun i seg _ joins => ?_
      · rw [pc]
        split <;> rfl
      · split at joins
        · exact joins.elim
        · exact absurd joins (Nat.not_lt_zero i)
  | waiting k =>
      simp only [pc] at step
      split at step
      · split at step
        · cases step
          exact inv
        · cases step
          exact inv.goto (by rw [pc]; rfl) fun _ _ _ joins => joins.elim
      · cases step
        exact inv.goto (by rw [pc]; rfl) fun i _ _ joins => absurd joins (Nat.not_lt_zero i)
  | joining k =>
      have earlier : ∀ (i : Nat) (seg : SegmentThread), s.segments[i]? = some seg → i < k →
          seg.pc = .exited := fun i seg thread before =>
        (inv.segment i seg thread).joined (by rw [pc]; exact before)
      simp only [pc] at step
      split at step
      · next seg thread =>
          split at step
          · next left =>
              cases step
              refine inv.goto (by rw [pc]; rfl) fun i other member joins => ?_
              rcases Nat.lt_succ_iff_lt_or_eq.mp joins with before | rfl
              · exact earlier i other member before
              · cases thread.symm.trans member
                exact left
          · cases step
      · next beyond =>
          cases step
          refine inv.goto (by rw [pc]; rfl) fun i other member _ => earlier i other member ?_
          have bound := List.getElem?_eq_none_iff.mp beyond
          have within := (List.getElem?_eq_some_iff.mp member).1
          omega
  | setStopped =>
      simp only [pc, Option.some.injEq] at step
      subst step
      refine ⟨rfl, fun i seg thread => ?_, fun _ _ => Or.inr rfl⟩
      have left : seg.pc = .exited :=
        (inv.segment i seg thread).joined (by rw [pc]; exact trivial)
      refine ⟨(fun phase => nomatch phase), fun _ => left, fun locked => ?_, ?_⟩
      · simp [left, SegmentPc.locked] at locked
      · simp [left, Decision]
  | exited => simp [pc] at step

/-! ### Stop requests -/

theorem inv_stop {s t : IoStream} {k : Nat} {pc : StopPc} (inv : s.Inv)
    (caller : s.stops[k]? = some pc) (expected : Expected s (.stop k))
    (step : stopStep s k pc = some t) : t.Inv := by
  have unchanged : ∀ (new : StopPc) (status : StreamStatus),
      (new = .setDone → s.main.phase = .started ∨ s.main.phase = .ended) →
      IoStream.Inv { s with status := status, stops := s.stops.set k new } := by
    intro new status phase
    refine ⟨inv.state, fun i seg thread => ?_, fun j other => ?_⟩
    · have old := inv.segment i seg thread
      exact ⟨old.quiet, old.joined, old.holder, old.decided⟩
    · by_cases here : j = k
      · exact phase (by grind)
      · exact inv.stopping j (by grind)
  cases pc with
  | read =>
      simp only [stopStep] at step
      split at step
      · cases step
        exact inv
      · next seen =>
          have started : s.main.phase = .started := by
            have state := inv.state
            cases phase : s.main.phase <;> grind [Phase.allows, stopStreamInternal]
          cases step
          exact unchanged .setDone s.status fun _ => Or.inl started
      · cases step
        exact unchanged .setStatus s.status (by simp)
      · cases step
        exact unchanged .returned s.status (by simp)
  | setDone =>
      -- Only a running stream is stopped, so the callbacks may find `DONE`.
      have before := expected caller
      have phase := inv.stopping k caller
      have state := inv.state
      simp only [stopStep, Option.some.injEq] at step
      subst step
      refine ⟨?_, fun i seg thread => ?_, fun j other => inv.stopping j (by grind)⟩
      · grind [Phase.allows]
      · have old := inv.segment i seg thread
        exact ⟨old.quiet, old.joined, old.holder, old.decided.done⟩
  | setStatus =>
      simp only [stopStep, Option.some.injEq] at step
      subst step
      exact unchanged .returned .stopFailure (by simp)
  | returned => simp [stopStep] at step

/-! ### Segments -/

/-- A running segment: the stream's own thread is past `READY` and has not joined it. -/
theorem IoStream.Inv.running {s : IoStream} (inv : s.Inv) {i : Nat} {seg : SegmentThread}
    (thread : s.segments[i]? = some seg) (awake : seg.pc ≠ .idle ∧ seg.pc ≠ .exited) :
    (s.main.phase = .starting ∨ s.main.phase = .started) ∧ ¬ s.main.joins i := by
  have old := inv.segment i seg thread
  have notJoined : ¬ s.main.joins i := fun joins => awake.2 (old.joined joins)
  refine ⟨?_, notJoined⟩
  cases phase : s.main.phase with
  | fresh => exact absurd (old.quiet phase) awake.1
  | starting => exact Or.inl rfl
  | started => exact Or.inr rfl
  | ended =>
      refine absurd ?_ notJoined
      cases pc : s.main <;> simp_all [MainPc.phase, MainPc.joins]

/-- A step of a running segment. It changes the state only with the lock held. -/
theorem IoStream.Inv.setSegment {s : IoStream} (inv : s.Inv) {i : Nat} {seg new : SegmentThread}
    {state : StreamState} {status : StreamStatus} {lock : Option Nat}
    (thread : s.segments[i]? = some seg) (awake : seg.pc ≠ .idle ∧ seg.pc ≠ .exited)
    (allowed : s.main.phase.allows state) (mine : s.lock = none ∨ s.lock = some i ∨ lock = s.lock)
    (held : new.pc.locked = true → lock = some i)
    (stable : state = s.state ∨ s.lock = some i) (decision : Decision s.main.phase state new.pc) :
    IoStream.Inv
      { s with
        state := state
        status := status
        lock := lock
        segments := s.segments.set i new } := by
  obtain ⟨phase, notJoined⟩ := inv.running thread awake
  refine ⟨allowed, fun j other member => ?_, inv.stopping⟩
  by_cases here : j = i
  · obtain rfl : other = new := by grind
    subst here
    refine ⟨fun fresh => ?_, fun joins => absurd joins notJoined, held, decision⟩
    rcases phase with phase | phase <;> cases phase.symm.trans fresh
  · have old := inv.segment j other (by grind)
    have outside : other.pc.locked = true → s.lock = some j := old.holder
    refine ⟨old.quiet, old.joined, fun locked => ?_, ?_⟩
    · grind
    · -- Another segment in a callback holds the lock, so the state did not change.
      cases locked : other.pc.locked with
      | false => exact Decision.unlocked locked
      | true =>
          have same : state = s.state := by grind
          exact same ▸ old.decided

theorem inv_segment {s t : IoStream} {i : Nat} {seg : SegmentThread} {move : SegmentMove}
    (inv : s.Inv) (thread : s.segments[i]? = some seg) (expected : Expected s (.segment i move))
    (step : segmentStep s i seg move = some t) : t.Inv := by
  have old := inv.segment i seg thread
  have state := inv.state
  unfold segmentStep at step
  split at step
  · next pc =>
      split at step
      · next free =>
          cases step
          exact inv.setSegment thread (by simp [pc]) state (Or.inl free)
            (fun _ => rfl) (Or.inl rfl) trivial
      · cases step
  · next pc =>
      split at step
      · next free =>
          cases step
          exact inv.setSegment thread (by simp [pc]) state (Or.inl free)
            (fun _ => rfl) (Or.inl rfl) trivial
      · cases step
  · next pc =>
      cases step
      exact inv.setSegment thread (by simp [pc]) state (Or.inr (Or.inr rfl))
        old.holder (Or.inl rfl) old.decided
  · next pc =>
      cases step
      exact inv.setSegment thread (by simp [pc]) state (Or.inr (Or.inr rfl))
        (fun locked => nomatch locked) (Or.inl rfl) trivial
  · next pc =>
      -- The decision is taken on the state just read.
      have mine : s.lock = some i := old.holder (by rw [pc]; rfl)
      have phase := (inv.running thread (by simp [pc])).1
      split at step
      · next new seen =>
          cases step
          refine inv.setSegment thread (by simp [pc]) state (Or.inr (Or.inr rfl))
            (fun _ => mine) (Or.inl rfl) ?_
          rcases phase with phase | phase <;>
            grind [Decision, Phase.allows, callbackComplete]
      · cases step
        exact inv.setSegment thread (by simp [pc]) state (Or.inr (Or.inr rfl))
          (fun _ => mine) (Or.inl rfl) trivial
  · next new pc =>
      have mine : s.lock = some i := old.holder (by rw [pc]; rfl)
      have phase := (inv.running thread (by simp [pc])).1
      have decided := old.decided
      cases step
      refine inv.setSegment thread (by simp [pc]) ?_ (Or.inr (Or.inr rfl))
        (fun _ => mine) (Or.inr mine) trivial
      rcases phase with phase | phase <;> grind [Decision, Phase.allows]
  · next pc =>
      have mine : s.lock = some i := old.holder (by rw [pc]; rfl)
      split at step
      · next new seen =>
          cases step
          refine inv.setSegment thread (by simp [pc]) state (Or.inr (Or.inr rfl))
            (fun _ => mine) (Or.inl rfl) ?_
          exact callbackError_eq seen
      · cases step
        exact inv.setSegment thread (by simp [pc]) state (Or.inr (Or.inr rfl))
          (fun _ => mine) (Or.inl rfl) trivial
  · next new pc =>
      have mine : s.lock = some i := old.holder (by rw [pc]; rfl)
      have phase := (inv.running thread (by simp [pc])).1
      have decided := old.decided
      cases step
      refine inv.setSegment thread (by simp [pc]) ?_ (Or.inr (Or.inr rfl))
        (fun _ => mine) (Or.inr mine) trivial
      rcases phase with phase | phase <;> grind [Decision, Phase.allows]
  · next pc =>
      have mine : s.lock = some i := old.holder (by rw [pc]; rfl)
      cases step
      exact inv.setSegment thread (by simp [pc]) state (Or.inr (Or.inr rfl))
        (fun _ => mine) (Or.inl rfl) trivial
  · next pc =>
      have mine : s.lock = some i := old.holder (by rw [pc]; rfl)
      cases step
      exact inv.setSegment thread (by simp [pc]) state (Or.inr (Or.inl mine))
        (fun locked => nomatch locked) (Or.inl rfl) trivial
  · cases step

/-- The invariant holds along every run whose writes meet the states they expect. -/
theorem inv_reach {s : IoStream} (reached : streamSystem.ReachUnder Expected s) : s.Inv := by
  apply reached.invariant inv_start
  intro s act t inv expected step
  cases act with
  | main => exact inv_main inv expected step
  | segment i move =>
      obtain ⟨seg, thread, step⟩ := Option.bind_eq_some_iff.mp step
      exact inv_segment inv thread expected step
  | stop k =>
      obtain ⟨pc, caller, step⟩ := Option.bind_eq_some_iff.mp step
      exact inv_stop inv caller expected step

/-! ## The order of the states -/

theorem forward_refl (state : StreamState) : Forward state state := by
  cases state <;> simp [Forward]

theorem forward_stopped (state : StreamState) : Forward state .stopped := by
  cases state <;> simp [Forward, StreamState.rank]

theorem forward_main {s t : IoStream} (inv : s.Inv) (step : mainStep s = some t) :
    Forward s.state t.state ↔ Expected s .main := by
  by_cases pc : s.main = .setRunning
  · have state := inv.state
    simp only [mainStep, pc, Option.some.injEq] at step
    subst step
    simp only [pc, MainPc.phase, Phase.allows] at state
    rcases state with state | state | state <;>
      simp [Expected, pc, state, Forward, StreamState.rank]
  · have vacuous : Expected s .main := fun here => absurd here pc
    refine iff_of_true ?_ vacuous
    cases here : s.main with
    | setReady =>
        have state := inv.state
        simp only [mainStep, here, Option.some.injEq] at step
        subst step
        simp only [here, MainPc.phase, Phase.allows] at state
        simp [state, Forward, StreamState.rank]
    | setStopped =>
        simp only [mainStep, here, Option.some.injEq] at step
        subst step
        exact forward_stopped s.state
    | setRunning => exact absurd here pc
    | exited => simp [mainStep, here] at step
    | _ =>
        have same : t.state = s.state := by
          unfold mainStep at step
          grind
        exact same ▸ forward_refl s.state

theorem forward_segment {s t : IoStream} {i : Nat} {seg : SegmentThread} {move : SegmentMove}
    (inv : s.Inv) (thread : s.segments[i]? = some seg)
    (step : segmentStep s i seg move = some t) :
    Forward s.state t.state ↔ Expected s (.segment i move) := by
  have decided := (inv.segment i seg thread).decided
  have written : ∀ new, seg.pc = .completeWrite new ∨ seg.pc = .errorWrite new → t.state = new := by
    unfold segmentStep at step
    grind
  have unwritten : (∀ new, seg.pc ≠ .completeWrite new ∧ seg.pc ≠ .errorWrite new) →
      t.state = s.state := by
    unfold segmentStep at step
    grind
  have expects : Expected s (.segment i move) ↔
      (seg.pc = .completeWrite .finishing → s.state = .running) := by
    simp [Expected, thread]
  rw [expects]
  cases pc : seg.pc with
  | completeWrite new =>
      rw [written new (Or.inl pc)]
      rw [pc] at decided
      rcases decided with ⟨rfl, _, state⟩ | ⟨rfl, state⟩
      · rcases state with state | state <;> simp [state, Forward, StreamState.rank]
      · rcases state with state | state | state <;> simp [state, Forward, StreamState.rank]
  | errorWrite new =>
      -- A segment in a callback was not joined, so the stream has not stopped.
      rw [written new (Or.inr pc)]
      rw [pc] at decided
      obtain rfl : new = .error := decided
      have phase := (inv.running thread (by simp [pc])).1
      have state := inv.state
      refine iff_of_true ?_ (fun here => nomatch here)
      rcases phase with phase | phase <;> grind [Phase.allows, Forward]
  | _ =>
      rw [unwritten (by simp [pc])]
      exact iff_of_true (forward_refl s.state) (fun here => nomatch here)

theorem forward_stop {s t : IoStream} {k : Nat} {pc : StopPc} (caller : s.stops[k]? = some pc)
    (step : stopStep s k pc = some t) :
    Forward s.state t.state ↔ Expected s (.stop k) := by
  cases pc with
  | setDone =>
      simp only [stopStep, Option.some.injEq] at step
      subst step
      simp only [Expected, caller]
      cases s.state <;> simp [Forward, StreamState.rank]
  | _ =>
      have same : t.state = s.state := by
        unfold stopStep at step
        grind
      rw [same]
      exact iff_of_true (forward_refl s.state) fun here => by simp [caller] at here

/-- **The state of a stream moves forward exactly when the late writes meet the state they
expect.** Along every run in which they did so far, a step moves the state forward if and only if
it does so too. -/
theorem forward_iff_expected (s t : IoStream) (act : Act)
    (reached : streamSystem.ReachUnder Expected s) (step : streamSystem.step s act = some t) :
    Forward s.state t.state ↔ Expected s act := by
  have inv := inv_reach reached
  cases act with
  | main => exact forward_main inv step
  | segment i move =>
      obtain ⟨seg, thread, step⟩ := Option.bind_eq_some_iff.mp step
      exact forward_segment inv thread step
  | stop k =>
      obtain ⟨pc, caller, step⟩ := Option.bind_eq_some_iff.mp step
      exact forward_stop caller step

/-- A stream with one segment and one stop request. -/
def smallStream : IoStream := { segments := [{}], stops := [.read] }

theorem smallStream_start : streamSystem.start smallStream := ⟨1, 1, rfl⟩

/-- The write of `RUNNING` over `READY`, after the segment was started. -/
theorem forward_iff_expected_running :
    let s : IoStream :=
      { smallStream with state := .ready, main := .setRunning, segments := [{ pc := .active }] }
    Forward s.state .running ↔ Expected s .main := by
  intro s
  have reached : streamSystem.ReachUnder Expected s := by
    refine .step (a := .main) (.step (a := .main) (.step (a := .main) (.start smallStream_start)
      ?_ rfl) ?_ rfl) ?_ rfl
    all_goals
      intro here
      cases here
  exact forward_iff_expected s _ .main reached rfl

/-- A stop request between the read and the write of `callback_complete` is overwritten: the state
goes back from `DONE` to `FINISHING`. -/
theorem stop_request_overwritten :
    ¬ ∀ (s t : IoStream) (act : Act), streamSystem.Reach s → streamSystem.step s act = some t →
      Forward s.state t.state := by
  intro always
  let s : IoStream :=
    { state := .done
      lock := some 0
      main := .poll
      segments := [{ pc := .completeWrite .finishing }]
      stops := [.returned] }
  have run : streamSystem.exec smallStream [.main, .main, .main, .main, .segment 0 .complete,
      .segment 0 .go, .stop 0, .stop 0] = some s := rfl
  have reached : streamSystem.Reach s := .exec (.start smallStream_start) run
  have backward := always s _ (.segment 0 .go) reached rfl
  simp [s, Forward, StreamState.rank] at backward

end Bingewatch.Stream
