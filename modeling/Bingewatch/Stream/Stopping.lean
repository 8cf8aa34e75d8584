import Bingewatch.Stream.State
import Bingewatch.Foundation.Fairness

/-!
# Stopping all streams

`stop_streams` walks the list of streams with the lock of the list held and stops one after the
other (`src/stream.c`). For a stream in `INIT` or `READY` it sleeps and looks again, so it waits for
the stream's own thread to come to `RUNNING`. Everything that first looks a stream up by its handle
needs the lock of the list: while `stop_streams` walks, only callers that have already found their
stream go on.

A stream's own thread waits for nobody on its way to `RUNNING` and never comes back, so the walk
ends if every stream has one. A stream that nobody has started keeps the walk at its place for ever,
and no start can come to its help (`stop_streams_returns_iff_started`).
-/

set_option autoImplicit false

namespace Bingewatch.Stream

open Foundation

/-! ## The list of streams -/

/-- How far `start_stream` has come with a stream: it has not been called, it has found the stream,
it has created the stream's own thread. A stream is started once. -/
inductive StartPc where
  | never
  | found
  | created
  deriving DecidableEq, Repr

/-- A stream of the list, and the segments still to be added by callers that have found it. -/
structure Entry where
  stream : IoStream := { segments := [], stops := [] }
  start : StartPc := .never
  adding : Nat := 0
  deriving DecidableEq, Repr

/-- A step with one stream: of `start_stream`, of a call that adds segments
(`io_stream_add_src_segment` adds two), of `stop_stream`, or of one of the stream's threads and the
callers of `stop_stream` that have found it. -/
inductive EntryAct where
  | startFind
  | startCreate
  | addFind (src : Bool)
  | addSegment
  | stopFind
  | thread (act : Act)
  deriving DecidableEq, Repr

/-- The step is a `get_stream`, which needs the lock of the list. -/
def EntryAct.looksUp : EntryAct → Bool
  | .startFind => true
  | .addFind _ => true
  | .stopFind => true
  | _ => false

def Entry.step (e : Entry) : EntryAct → Option Entry
  | .startFind => if e.start = .never then some { e with start := .found } else none
  | .startCreate => if e.start = .found then some { e with start := .created } else none
  | .addFind src => some { e with adding := e.adding + if src then 2 else 1 }
  | .addSegment =>
      if 0 < e.adding ∧ e.stream.lock = none then
        some { e with
          stream := { e.stream with segments := e.stream.segments ++ [{}] }
          adding := e.adding - 1 }
      else none
  | .stopFind => some { e with stream := { e.stream with stops := e.stream.stops ++ [.read] } }
  | .thread .main =>
      if e.start = .created then (mainStep e.stream).map fun s => { e with stream := s } else none
  | .thread act => (streamSystem.step e.stream act).map fun s => { e with stream := s }

/-- Where `stop_streams` stands: before the lock of the list, in `stop_stream_internal` for a
stream, or behind the unlock. -/
inductive WalkPc where
  | lock
  | visiting (j : Nat) (pc : StopPc)
  | returned
  deriving DecidableEq, Repr

/-- The list of streams and a caller of `stop_streams`. The lock of the list is held from step to
step only by this caller; `get_stream` and `new_stream` take it for one step. -/
structure Streams where
  streams : List Entry := []
  walk : WalkPc := .lock
  deriving DecidableEq, Repr

/-- The lock of the list is held. -/
def WalkPc.locked : WalkPc → Bool
  | .visiting _ _ => true
  | _ => false

inductive StreamsAct where
  | newStream
  | entry (j : Nat) (act : EntryAct)
  | stopStreams
  deriving DecidableEq, Repr

/-- A step of `stop_stream_internal` for the `j`-th stream. -/
def Streams.visit (l : Streams) (j : Nat) (e : Entry) (pc : StopPc) : Streams :=
  match pc with
  | .read =>
      match stopStreamInternal e.stream.state with
      | .again => l
      | .setDone => { l with walk := .visiting j .setDone }
      | .fail => { l with walk := .visiting j .setStatus }
      | .leave => { l with walk := .visiting j .returned }
  | .setDone =>
      { streams := l.streams.set j { e with stream := { e.stream with state := .done } }
        walk := .visiting j .returned }
  | .setStatus =>
      { streams := l.streams.set j { e with stream := { e.stream with status := .stopFailure } }
        walk := .visiting j .returned }
  | .returned => { l with walk := .visiting (j + 1) .read }

/-- A step of `stop_streams`. -/
def Streams.stopStreams (l : Streams) : Option Streams :=
  match l.walk with
  | .lock => some { l with walk := .visiting 0 .read }
  | .visiting j pc =>
      match l.streams[j]? with
      | some e => some (l.visit j e pc)
      | none => some { l with walk := .returned }
  | .returned => none

/-- Streams are made, started, given segments, stopped and run in any order. -/
def streamsSystem : System Streams StreamsAct where
  start := fun l => l = {}
  step := fun l act =>
    match act with
    | .newStream =>
        if l.walk.locked then none else some { l with streams := l.streams ++ [{}] }
    | .entry j act =>
        if act.looksUp ∧ l.walk.locked then none
        else l.streams[j]?.bind fun e =>
          (e.step act).map fun e' => { l with streams := l.streams.set j e' }
    | .stopStreams => l.stopStreams

/-- The threads on which the end depends are not forgotten: the caller of `stop_streams`, a caller
of `start_stream` that has found its stream, and the own threads of so many streams. -/
structure Fair (count : Nat) (schedule : Nat → StreamsAct) : Prop where
  walk : System.Recurs schedule .stopStreams
  create : ∀ j < count, System.Recurs schedule (.entry j .startCreate)
  main : ∀ j < count, System.Recurs schedule (.entry j (.thread .main))

/-! ## One stream -/

/-- Neither `INIT` nor `READY`. -/
def StreamState.past (state : StreamState) : Prop := state ≠ .init ∧ state ≠ .ready

/-- The stream's own thread has written `RUNNING`. -/
def MainPc.past (pc : MainPc) : Prop := pc.phase = .started ∨ pc.phase = .ended

/-- The stream does not come back to `INIT` or `READY`: its own thread is past them, and no callback
writes them. -/
structure IoStream.Passing (s : IoStream) : Prop where
  state : s.main.past → s.state.past
  complete : ∀ seg ∈ s.segments, ∀ new, seg.pc = .completeWrite new → new.past
  error : ∀ seg ∈ s.segments, ∀ new, seg.pc = .errorWrite new → new.past

/-- Nothing has happened to the stream. -/
structure IoStream.Dormant (s : IoStream) : Prop where
  main : s.main = .setReady
  state : s.state = .init
  segments : ∀ seg ∈ s.segments, seg = {}
  stops : ∀ pc ∈ s.stops, pc = .read

structure Entry.Inv (e : Entry) : Prop where
  passing : e.stream.Passing
  dormant : e.start ≠ .created → e.stream.Dormant

theorem IoStream.Dormant.passing {s : IoStream} (dormant : s.Dormant) : s.Passing where
  state := by
    rw [dormant.main]
    intro past
    rcases past with past | past <;> cases past
  complete := by
    intro seg member new decided
    rw [dormant.segments seg member] at decided
    cases decided
  error := by
    intro seg member new decided
    rw [dormant.segments seg member] at decided
    cases decided

theorem callbackComplete_past {state new : StreamState}
    (sets : callbackComplete state = some new) : new.past := by
  cases state <;> simp_all [callbackComplete, StreamState.past] <;> simp [← sets]

theorem callbackError_past {state new : StreamState} (sets : callbackError state = some new) :
    new.past := by
  rw [callbackError_eq sets]
  exact ⟨by simp, by simp⟩

/-! ### Segments -/

/-- A segment moves and leaves behind a state that its stream may have. -/
theorem IoStream.Passing.setSegment {s : IoStream} (passing : s.Passing) {i : Nat}
    {new : SegmentThread} {state : StreamState} {status : StreamStatus} {lock : Option Nat}
    (calm : s.main.past → state.past)
    (complete : ∀ target, new.pc = .completeWrite target → target.past)
    (error : ∀ target, new.pc = .errorWrite target → target.past) :
    IoStream.Passing
      { s with
        state := state
        status := status
        lock := lock
        segments := s.segments.set i new } where
  state := calm
  complete := by
    intro seg member
    rcases List.mem_or_eq_of_mem_set member with old | rfl
    · exact passing.complete seg old
    · exact complete
  error := by
    intro seg member
    rcases List.mem_or_eq_of_mem_set member with old | rfl
    · exact passing.error seg old
    · exact error

theorem IoStream.Passing.segment {s t : IoStream} (passing : s.Passing) {i : Nat}
    {seg : SegmentThread} {move : SegmentMove} (thread : s.segments[i]? = some seg)
    (step : segmentStep s i seg move = some t) : t.Passing := by
  have member : seg ∈ s.segments := List.mem_of_getElem? thread
  unfold segmentStep at step
  split at step
  · split at step
    · cases step
      exact passing.setSegment passing.state (by simp) (by simp)
    · cases step
  · split at step
    · cases step
      exact passing.setSegment passing.state (by simp) (by simp)
    · cases step
  · next pc =>
      cases step
      exact passing.setSegment passing.state (by simp [pc]) (by simp [pc])
  · cases step
    exact passing.setSegment passing.state (by simp) (by simp)
  · split at step
    · next target sets =>
        cases step
        refine passing.setSegment passing.state ?_ (by simp)
        rintro _ ⟨⟩
        exact callbackComplete_past sets
    · cases step
      exact passing.setSegment passing.state (by simp) (by simp)
  · next target pc =>
      cases step
      exact passing.setSegment (fun _ => passing.complete seg member target pc) (by simp) (by simp)
  · split at step
    · next target sets =>
        cases step
        refine passing.setSegment passing.state (by simp) ?_
        rintro _ ⟨⟩
        exact callbackError_past sets
    · cases step
      exact passing.setSegment passing.state (by simp) (by simp)
  · next target pc =>
      cases step
      exact passing.setSegment (fun _ => passing.error seg member target pc) (by simp) (by simp)
  · cases step
    exact passing.setSegment passing.state (by simp) (by simp)
  · cases step
    exact passing.setSegment passing.state (by simp) (by simp)
  · cases step

/-- A segment leaves the stream's own thread and the number of segments alone. -/
theorem segmentStep_frame {s t : IoStream} {i : Nat} {seg : SegmentThread} {move : SegmentMove}
    (step : segmentStep s i seg move = some t) :
    t.main = s.main ∧ t.segments.length = s.segments.length := by
  unfold segmentStep at step
  grind

/-! ### The stream's own thread -/

/-- The stream's own thread moves on without a new state. -/
theorem IoStream.Passing.goto {s : IoStream} (passing : s.Passing) {pc : MainPc}
    (past : pc.past → s.main.past) : IoStream.Passing { s with main := pc } where
  state := fun reached => passing.state (past reached)
  complete := passing.complete
  error := passing.error

theorem IoStream.Passing.main {s t : IoStream} (passing : s.Passing)
    (step : mainStep s = some t) : t.Passing := by
  unfold mainStep at step
  cases pc : s.main with
  | setReady =>
      simp only [pc, Option.some.injEq] at step
      subst step
      refine ⟨fun past => ?_, passing.complete, passing.error⟩
      rcases past with past | past <;> cases past
  | starting k =>
      simp only [pc] at step
      have early : ¬MainPc.past (.starting (k + 1)) := by
        rintro (past | past) <;> cases past
      split at step
      · cases step
        have moved : IoStream.Passing { s with main := .starting (k + 1) } :=
          passing.goto fun past => absurd past early
        exact moved.setSegment (fun past => absurd past early) (by simp) (by simp)
      · cases step
        refine passing.goto fun past => ?_
        rcases past with past | past <;> cases past
  | setRunning =>
      simp only [pc, Option.some.injEq] at step
      subst step
      exact ⟨fun _ => ⟨by simp, by simp⟩, passing.complete, passing.error⟩
  | poll =>
      simp only [pc] at step
      split at step
      · cases step
        exact passing
      · cases step
        exact passing.goto fun _ => .inl (by rw [pc]; rfl)
  | check =>
      simp only [pc, Option.some.injEq] at step
      subst step
      exact passing.goto fun _ => .inl (by rw [pc]; rfl)
  | waiting k =>
      simp only [pc] at step
      split at step
      · split at step
        · cases step
          exact passing
        · cases step
          exact passing.goto fun _ => .inl (by rw [pc]; rfl)
      · cases step
        exact passing.goto fun _ => .inl (by rw [pc]; rfl)
  | joining k =>
      simp only [pc] at step
      split at step
      · split at step
        · cases step
          exact passing.goto fun _ => .inl (by rw [pc]; rfl)
        · cases step
      · cases step
        exact passing.goto fun _ => .inl (by rw [pc]; rfl)
  | setStopped =>
      simp only [pc, Option.some.injEq] at step
      subst step
      exact ⟨fun _ => ⟨by simp, by simp⟩, passing.complete, passing.error⟩
  | exited => simp [pc] at step

/-- The steps of the stream's own thread up to `RUNNING`, if it has to start so many segments. -/
def MainPc.left (segments : Nat) : MainPc → Nat
  | .setReady => segments + 3
  | .starting k => segments - k + 2
  | .setRunning => 1
  | _ => 0

/-- Up to `RUNNING` the stream's own thread waits for nobody. -/
theorem mainStep_ahead {s : IoStream} (ahead : ¬s.main.past) (more : Nat) :
    ∃ t, mainStep s = some t ∧ t.segments.length = s.segments.length ∧
      t.main.left (s.segments.length + more) < s.main.left (s.segments.length + more) := by
  unfold mainStep
  cases pc : s.main with
  | setReady => exact ⟨_, rfl, rfl, by simp [MainPc.left]⟩
  | starting k =>
      cases thread : s.segments[k]? with
      | some seg =>
          have within := (List.getElem?_eq_some_iff.mp thread).1
          simp only [thread]
          refine ⟨_, rfl, by simp, ?_⟩
          simp only [MainPc.left]
          omega
      | none =>
          simp only [thread]
          exact ⟨_, rfl, rfl, by simp [MainPc.left]⟩
  | setRunning => exact ⟨_, rfl, rfl, by simp [MainPc.left]⟩
  | exited => exact absurd (.inr (by rw [pc]; rfl)) ahead
  | _ => exact absurd (.inl (by rw [pc]; rfl)) ahead

/-- Past `RUNNING` it never comes back. -/
theorem mainStep_past {s t : IoStream} (past : s.main.past) (step : mainStep s = some t) :
    t.main.past := by
  unfold mainStep at step
  unfold MainPc.past at past ⊢
  cases pc : s.main <;> simp only [pc, MainPc.phase] at step past <;> grind [MainPc.phase]

/-! ### Stop requests -/

theorem stopStep_frame {s t : IoStream} {k : Nat} {pc : StopPc}
    (step : stopStep s k pc = some t) :
    t.main = s.main ∧ t.segments = s.segments ∧ (t.state = s.state ∨ t.state = .done) := by
  unfold stopStep at step
  cases pc with
  | read =>
      simp only at step
      split at step <;> cases step <;> simp
  | setDone =>
      cases step
      simp
  | setStatus =>
      cases step
      simp
  | returned => cases step

theorem IoStream.Passing.stop {s t : IoStream} (passing : s.Passing) {k : Nat} {pc : StopPc}
    (step : stopStep s k pc = some t) : t.Passing := by
  obtain ⟨main, segments, state⟩ := stopStep_frame step
  refine ⟨fun past => ?_, segments ▸ passing.complete, segments ▸ passing.error⟩
  rcases state with same | done
  · rw [same]
    exact passing.state (main ▸ past)
  · rw [done]
    exact ⟨by simp, by simp⟩

/-! ### A stream that was not started -/

theorem IoStream.Dormant.segment {s : IoStream} (dormant : s.Dormant) {i : Nat}
    {seg : SegmentThread} (thread : s.segments[i]? = some seg) (move : SegmentMove) :
    segmentStep s i seg move = none := by
  obtain rfl := dormant.segments seg (List.mem_of_getElem? thread)
  cases move <;> rfl

theorem IoStream.Dormant.stop {s : IoStream} (dormant : s.Dormant) {k : Nat} {pc : StopPc}
    (caller : s.stops[k]? = some pc) : stopStep s k pc = some s := by
  obtain rfl := dormant.stops pc (List.mem_of_getElem? caller)
  simp [stopStep, dormant.state, stopStreamInternal]

/-- The other threads of a dormant stream do nothing. -/
theorem IoStream.Dormant.thread {s t : IoStream} (dormant : s.Dormant) {act : Act}
    (other : act ≠ .main) (step : streamSystem.step s act = some t) : t = s := by
  cases act with
  | main => exact absurd rfl other
  | segment i move =>
      obtain ⟨seg, thread, step⟩ := Option.bind_eq_some_iff.mp step
      rw [dormant.segment thread move] at step
      cases step
  | stop k =>
      obtain ⟨pc, caller, step⟩ := Option.bind_eq_some_iff.mp step
      rw [dormant.stop caller] at step
      exact (Option.some.inj step).symm

/-! ### Steps with one stream -/

/-- What a step of one of the stream's threads can be. -/
theorem Entry.step_thread {e e' : Entry} {act : Act} (step : e.step (.thread act) = some e') :
    ∃ s, streamSystem.step e.stream act = some s ∧ e' = { e with stream := s } ∧
      (act = .main → e.start = .created) := by
  cases act with
  | main =>
      simp only [Entry.step] at step
      split at step
      · next created =>
          obtain ⟨s, moved, rfl⟩ := Option.map_eq_some_iff.mp step
          exact ⟨s, moved, rfl, fun _ => created⟩
      · cases step
  | segment i move =>
      obtain ⟨s, moved, rfl⟩ := Option.map_eq_some_iff.mp step
      exact ⟨s, moved, rfl, by simp⟩
  | stop k =>
      obtain ⟨s, moved, rfl⟩ := Option.map_eq_some_iff.mp step
      exact ⟨s, moved, rfl, by simp⟩

theorem IoStream.Passing.thread {s t : IoStream} (passing : s.Passing) {act : Act}
    (step : streamSystem.step s act = some t) : t.Passing := by
  cases act with
  | main => exact passing.main step
  | segment i move =>
      obtain ⟨seg, thread, step⟩ := Option.bind_eq_some_iff.mp step
      exact passing.segment thread step
  | stop k =>
      obtain ⟨pc, -, step⟩ := Option.bind_eq_some_iff.mp step
      exact passing.stop step

/-- Other threads than the stream's own leave it where it is. -/
theorem thread_frame {s t : IoStream} {act : Act} (other : act ≠ .main)
    (step : streamSystem.step s act = some t) :
    t.main = s.main ∧ t.segments.length = s.segments.length := by
  cases act with
  | main => exact absurd rfl other
  | segment i move =>
      obtain ⟨seg, -, step⟩ := Option.bind_eq_some_iff.mp step
      exact segmentStep_frame step
  | stop k =>
      obtain ⟨pc, -, step⟩ := Option.bind_eq_some_iff.mp step
      obtain ⟨main, segments, -⟩ := stopStep_frame step
      exact ⟨main, by rw [segments]⟩

theorem Entry.Inv.step {e e' : Entry} (inv : e.Inv) {act : EntryAct}
    (step : e.step act = some e') : e'.Inv := by
  cases act with
  | startFind =>
      simp only [Entry.step] at step
      split at step
      · next never =>
          cases step
          exact ⟨inv.passing, fun _ => inv.dormant (by simp [never])⟩
      · cases step
  | startCreate =>
      simp only [Entry.step] at step
      split at step
      · cases step
        exact ⟨inv.passing, fun other => absurd rfl other⟩
      · cases step
  | addFind src =>
      cases step
      exact ⟨inv.passing, inv.dormant⟩
  | addSegment =>
      simp only [Entry.step] at step
      split at step
      · cases step
        refine ⟨⟨inv.passing.state, ?_, ?_⟩, fun other => ?_⟩
        · intro seg member
          rcases List.mem_append.mp member with old | fresh
          · exact inv.passing.complete seg old
          · simp [List.mem_singleton.mp fresh]
        · intro seg member
          rcases List.mem_append.mp member with old | fresh
          · exact inv.passing.error seg old
          · simp [List.mem_singleton.mp fresh]
        · have dormant := inv.dormant other
          refine ⟨dormant.main, dormant.state, fun seg member => ?_, dormant.stops⟩
          rcases List.mem_append.mp member with old | fresh
          · exact dormant.segments seg old
          · exact List.mem_singleton.mp fresh
      · cases step
  | stopFind =>
      cases step
      refine ⟨⟨inv.passing.state, inv.passing.complete, inv.passing.error⟩, fun other => ?_⟩
      have dormant := inv.dormant other
      refine ⟨dormant.main, dormant.state, dormant.segments, fun pc member => ?_⟩
      rcases List.mem_append.mp member with old | fresh
      · exact dormant.stops pc old
      · exact List.mem_singleton.mp fresh
  | thread act =>
      obtain ⟨s, moved, rfl, own⟩ := Entry.step_thread step
      refine ⟨inv.passing.thread moved, fun other => ?_⟩
      have dormant := inv.dormant other
      have same := dormant.thread (fun main => other (own main)) moved
      exact same ▸ dormant

/-- The steps of the stream's own thread up to `RUNNING`, the segments on their way included. -/
def Entry.left (e : Entry) : Nat := e.stream.main.left (e.stream.segments.length + e.adding)

/-- The stream's own thread has written `RUNNING`. -/
def Entry.past (e : Entry) : Prop := e.stream.main.past

/-- A start is not taken back, and the stream's own thread only goes forward. -/
theorem Entry.step_forward {e e' : Entry} {act : EntryAct} (step : e.step act = some e') :
    (e.start ≠ .never → e'.start ≠ .never) ∧ (e.start = .created → e'.start = .created) ∧
      (e.past → e'.past) := by
  cases act with
  | thread act =>
      obtain ⟨s, moved, rfl, -⟩ := Entry.step_thread step
      refine ⟨id, id, fun past => ?_⟩
      by_cases own : act = .main
      · subst own
        exact mainStep_past past moved
      · have same := (thread_frame own moved).1
        simpa only [Entry.past, same] using past
  | _ =>
      unfold Entry.step at step
      grind [Entry.past]

theorem MainPc.left_past {pc : MainPc} (past : pc.past) (segments : Nat) :
    pc.left segments = 0 := by
  cases pc <;> first | rfl | (rcases past with past | past <;> cases past)

/-- With the lock of the list held nobody adds to what is left to do. -/
theorem Entry.step_left {e e' : Entry} {act : EntryAct} (found : act.looksUp = false)
    (step : e.step act = some e') : e'.left ≤ e.left := by
  cases act with
  | thread act =>
      obtain ⟨s, moved, rfl, -⟩ := Entry.step_thread step
      unfold Entry.left
      by_cases own : act = .main
      · subst own
        by_cases past : e.stream.main.past
        · rw [MainPc.left_past (mainStep_past past moved)]
          exact Nat.zero_le _
        · obtain ⟨t, moved', segments, less⟩ := mainStep_ahead past e.adding
          obtain rfl : t = s := Option.some.inj (moved'.symm.trans moved)
          rw [segments]
          exact Nat.le_of_lt less
      · obtain ⟨main, segments⟩ := thread_frame own moved
        exact Nat.le_of_eq (by rw [main, segments])
  | startCreate =>
      simp only [Entry.step] at step
      split at step
      · cases step
        exact Nat.le_refl _
      · cases step
  | addSegment =>
      simp only [Entry.step] at step
      split at step
      · next waiting =>
          cases step
          have total : e.stream.segments.length + 1 + (e.adding - 1) =
              e.stream.segments.length + e.adding := by omega
          simp only [Entry.left, List.length_append, List.length_singleton, total]
          exact Nat.le_refl _
      · cases step
  | _ => cases found

/-! ## The walk -/

/-- What a step of the list can do to one of its streams: nothing, a step with this stream, or the
write of `stop_streams`, which visits it. -/
inductive Entry.Moved (locked : Bool) (e : Entry) : Entry → Prop where
  | same : Entry.Moved locked e e
  | step {act : EntryAct} {e' : Entry} (found : locked = true → act.looksUp = false)
      (step : e.step act = some e') : Entry.Moved locked e e'
  | visited {state : StreamState} {status : StreamStatus} (created : e.start = .created)
      (past : state = e.stream.state ∨ state = .done) :
      Entry.Moved locked e { e with stream := { e.stream with state := state, status := status } }

section Moved

variable {locked : Bool} {e e' : Entry}

theorem Entry.Moved.inv (moved : Entry.Moved locked e e') (inv : e.Inv) : e'.Inv := by
  cases moved with
  | same => exact inv
  | step _ step => exact inv.step step
  | visited created past =>
      refine ⟨⟨fun reached => ?_, inv.passing.complete, inv.passing.error⟩,
        fun other => absurd created other⟩
      rcases past with rfl | rfl
      · exact inv.passing.state reached
      · exact ⟨by simp, by simp⟩

theorem Entry.Moved.forward (moved : Entry.Moved locked e e') :
    (e.start ≠ .never → e'.start ≠ .never) ∧ (e.start = .created → e'.start = .created) ∧
      (e.past → e'.past) := by
  cases moved with
  | same => exact ⟨id, id, id⟩
  | step _ step => exact Entry.step_forward step
  | visited _ _ => exact ⟨id, id, id⟩

theorem Entry.Moved.left (moved : Entry.Moved true e e') : e'.left ≤ e.left := by
  cases moved with
  | same => exact Nat.le_refl _
  | step found step => exact Entry.step_left (found rfl) step
  | visited _ _ => exact Nat.le_refl _

end Moved

/-- What holds along every run: a stop request that is past its first look has seen a stream that
was started. -/
structure Streams.Inv (l : Streams) : Prop where
  entries : ∀ e ∈ l.streams, e.Inv
  visited : ∀ j pc, l.walk = .visiting j pc → pc ≠ .read →
    ∃ e, l.streams[j]? = some e ∧ e.start = .created

/-- A state that a stop request does not wait for belongs to a stream that was started. -/
theorem Entry.Inv.created {e : Entry} (inv : e.Inv)
    (leaves : stopStreamInternal e.stream.state ≠ .again) : e.start = .created := by
  refine Decidable.byContradiction fun other => leaves ?_
  rw [(inv.dormant other).state]
  rfl

/-- What a visit does to the visited stream, and where it leads. -/
theorem visit_cases {l : Streams} (inv : l.Inv) {j : Nat} {e : Entry} {pc : StopPc}
    (walk : l.walk = .visiting j pc) (there : l.streams[j]? = some e) :
    l.visit j e pc = l ∧ stopStreamInternal e.stream.state = .again ∧ pc = .read ∨
      e.start = .created ∧ ∃ e' pc', Entry.Moved true e e' ∧
        (l.visit j e pc).streams = l.streams.set j e' ∧
        ((l.visit j e pc).walk = .visiting j pc' ∧ pc' ≠ .read ∧ (pc = .read ∨ pc' = .returned ∧
            pc ≠ .returned) ∨
          (l.visit j e pc).walk = .visiting (j + 1) .read ∧ pc = .returned) := by
  have unchanged : l.streams = l.streams.set j e := by
    obtain ⟨within, rfl⟩ := List.getElem?_eq_some_iff.mp there
    exact (List.set_getElem_self within).symm
  have started : pc ≠ .read → e.start = .created := fun other => by
    obtain ⟨e', there', created⟩ := inv.visited j pc walk other
    cases there.symm.trans there'
    exact created
  have member := inv.entries e (List.mem_of_getElem? there)
  cases pc with
  | read =>
      cases choice : stopStreamInternal e.stream.state with
      | again => exact .inl ⟨by simp [Streams.visit, choice], rfl, rfl⟩
      | setDone =>
          refine .inr ⟨member.created (by simp [choice]), e, .setDone, .same, ?_, .inl ?_⟩
          · simpa [Streams.visit, choice] using unchanged
          · simp [Streams.visit, choice]
      | fail =>
          refine .inr ⟨member.created (by simp [choice]), e, .setStatus, .same, ?_, .inl ?_⟩
          · simpa [Streams.visit, choice] using unchanged
          · simp [Streams.visit, choice]
      | leave =>
          refine .inr ⟨member.created (by simp [choice]), e, .returned, .same, ?_, .inl ?_⟩
          · simpa [Streams.visit, choice] using unchanged
          · simp [Streams.visit, choice]
  | setDone =>
      have created := started (by simp)
      refine .inr ⟨created, _, .returned, .visited created (.inr rfl), rfl, .inl ?_⟩
      simp [Streams.visit]
  | setStatus =>
      have created := started (by simp)
      refine .inr ⟨created, _, .returned, .visited created (.inl rfl), rfl, .inl ?_⟩
      simp [Streams.visit]
  | returned =>
      exact .inr ⟨started (by simp), e, .read, .same, unchanged, .inr ⟨rfl, rfl⟩⟩

section Step

variable {l l' : Streams} {act : StreamsAct}

/-- Everything a step of the list can do. -/
theorem streams_step_cases (step : streamsSystem.step l act = some l') :
    (l.walk.locked = false ∧ l' = { l with streams := l.streams ++ [{}] }) ∨
      (∃ j a e e', (l.walk.locked = true → a.looksUp = false) ∧ l.streams[j]? = some e ∧
        e.step a = some e' ∧ l' = { l with streams := l.streams.set j e' }) ∨
      act = .stopStreams ∧ l.stopStreams = some l' := by
  cases act with
  | newStream =>
      simp only [streamsSystem] at step
      split at step
      · cases step
      · next free =>
          cases step
          exact .inl ⟨by simpa using free, rfl⟩
  | entry j a =>
      simp only [streamsSystem] at step
      split at step
      · cases step
      · next free =>
          obtain ⟨e, there, step⟩ := Option.bind_eq_some_iff.mp step
          obtain ⟨e', moved, rfl⟩ := Option.map_eq_some_iff.mp step
          refine .inr (.inl ⟨j, a, e, e', fun locked => ?_, there, moved, rfl⟩)
          simpa [locked] using free
  | stopStreams => exact .inr (.inr ⟨rfl, step⟩)

theorem stopStreams_cases (step : l.stopStreams = some l') :
    (l.walk = .lock ∧ l' = { l with walk := .visiting 0 .read }) ∨
      ∃ j pc, l.walk = .visiting j pc ∧
        (l.streams[j]? = none ∧ l' = { l with walk := .returned } ∨
          ∃ e, l.streams[j]? = some e ∧ l' = l.visit j e pc) := by
  unfold Streams.stopStreams at step
  split at step
  · next walk =>
      cases step
      exact .inl ⟨walk, rfl⟩
  · next j pc walk =>
      refine .inr ⟨j, pc, walk, ?_⟩
      split at step
      · next e there =>
          cases step
          exact .inr ⟨e, there, rfl⟩
      · next beyond =>
          cases step
          exact .inl ⟨beyond, rfl⟩
  · cases step

/-- A stream of the list after a change of one of its streams. -/
theorem getElem?_set_moved {locked : Bool} {streams : List Entry} {i j : Nat} {e e' other : Entry}
    (there : streams[i]? = some e) (moved : Entry.Moved locked e e')
    (here : streams[j]? = some other) :
    ∃ new, (streams.set i e')[j]? = some new ∧ Entry.Moved locked other new := by
  by_cases same : i = j
  · subst same
    obtain rfl : e = other := Option.some.inj (there.symm.trans here)
    have within := (List.getElem?_eq_some_iff.mp there).1
    exact ⟨e', by rw [List.getElem?_set_self within], moved⟩
  · exact ⟨other, by rw [List.getElem?_set_ne same, here], .same⟩

/-- A step of the list seen from one of its streams. -/
theorem streams_step_moved (inv : l.Inv) (step : streamsSystem.step l act = some l') {j : Nat}
    {e : Entry} (there : l.streams[j]? = some e) :
    ∃ e', l'.streams[j]? = some e' ∧ Entry.Moved l.walk.locked e e' := by
  rcases streams_step_cases step with
    ⟨-, rfl⟩ | ⟨i, a, other, other', found, place, moved, rfl⟩ | ⟨-, step⟩
  · have within := (List.getElem?_eq_some_iff.mp there).1
    exact ⟨e, by simpa [List.getElem?_append_left within] using there, .same⟩
  · exact getElem?_set_moved place (.step found moved) there
  · rcases stopStreams_cases step with ⟨-, rfl⟩ | ⟨i, pc, walk, ⟨-, rfl⟩ | ⟨other, place, rfl⟩⟩
    · exact ⟨e, there, .same⟩
    · exact ⟨e, there, .same⟩
    · rcases visit_cases inv walk place with ⟨same, -⟩ | ⟨-, other', pc', moved, streams, -⟩
      · exact ⟨e, by rw [same, there], .same⟩
      · have locked : l.walk.locked = true := by
          rw [walk]
          rfl
        rw [streams, locked]
        exact getElem?_set_moved place moved there

/-- The list only grows, and not while its lock is held. -/
theorem streams_step_length (inv : l.Inv) (step : streamsSystem.step l act = some l') :
    l.streams.length ≤ l'.streams.length ∧
      (l.walk.locked = true → l'.streams.length = l.streams.length) := by
  rcases streams_step_cases step with
    ⟨free, rfl⟩ | ⟨i, a, other, other', found, place, moved, rfl⟩ | ⟨-, step⟩
  · refine ⟨by simp, fun locked => ?_⟩
    rw [free] at locked
    cases locked
  · simp
  · rcases stopStreams_cases step with ⟨-, rfl⟩ | ⟨i, pc, walk, ⟨-, rfl⟩ | ⟨other, place, rfl⟩⟩
    · exact ⟨Nat.le_refl _, fun _ => rfl⟩
    · exact ⟨Nat.le_refl _, fun _ => rfl⟩
    · rcases visit_cases inv walk place with ⟨same, -⟩ | ⟨-, other', pc', moved, streams, -⟩
      · rw [same]
        exact ⟨Nat.le_refl _, fun _ => rfl⟩
      · rw [streams]
        simp

/-- A stream of the list after a step was there before, or is new. -/
theorem streams_step_origin (inv : l.Inv) (step : streamsSystem.step l act = some l') {e' : Entry}
    (member : e' ∈ l'.streams) :
    e' = {} ∨ ∃ e ∈ l.streams, Entry.Moved l.walk.locked e e' := by
  obtain ⟨j, there⟩ := List.mem_iff_getElem?.mp member
  by_cases within : j < l.streams.length
  · obtain ⟨new, here, moved⟩ := streams_step_moved inv step (List.getElem?_eq_getElem within)
    cases there.symm.trans here
    exact .inr ⟨_, List.getElem_mem within, moved⟩
  · have bound := (List.getElem?_eq_some_iff.mp there).1
    rcases streams_step_cases step with ⟨-, rfl⟩ | ⟨_, _, _, _, -, -, -, rfl⟩ | ⟨-, moved⟩
    · left
      simp only [List.length_append, List.length_singleton] at bound
      have last : j = l.streams.length := by omega
      simpa [last] using there.symm
    · simp only [List.length_set] at bound
      exact absurd bound within
    · exfalso
      rcases stopStreams_cases moved with ⟨-, rfl⟩ | ⟨i, pc, walk, -⟩
      · exact within bound
      · have locked : l.walk.locked = true := by
          rw [walk]
          rfl
        rw [(streams_step_length inv step).2 locked] at bound
        exact within bound

theorem Entry.inv_new : Entry.Inv {} := by
  have dormant : IoStream.Dormant (Entry.stream {}) := ⟨rfl, rfl, by simp, by simp⟩
  exact ⟨dormant.passing, fun _ => dormant⟩

theorem Streams.Inv.step (inv : l.Inv) (step : streamsSystem.step l act = some l') : l'.Inv := by
  refine ⟨fun e' member => ?_, fun j pc walk' other => ?_⟩
  · rcases streams_step_origin inv step member with rfl | ⟨e, old, moved⟩
    · exact Entry.inv_new
    · exact moved.inv (inv.entries e old)
  · -- Where the walk was there before, the stream has been started and stays so.
    have stays : l.walk = .visiting j pc → ∃ e, l'.streams[j]? = some e ∧ e.start = .created := by
      intro walk
      obtain ⟨e, there, created⟩ := inv.visited j pc walk other
      obtain ⟨e', there', moved⟩ := streams_step_moved inv step there
      exact ⟨e', there', moved.forward.2.1 created⟩
    rcases streams_step_cases step with ⟨-, rfl⟩ | ⟨_, _, _, _, -, -, -, rfl⟩ | ⟨-, moved⟩
    · exact stays walk'
    · exact stays walk'
    · rcases stopStreams_cases moved with ⟨-, rfl⟩ | ⟨i, pc', walk, ⟨-, rfl⟩ | ⟨e, there, rfl⟩⟩
      · cases walk'
        exact absurd rfl other
      · cases walk'
      · rcases visit_cases inv walk there with
          ⟨same, -⟩ | ⟨created, e', pc'', change, streams, next⟩
        · exact stays (same ▸ walk')
        · rcases next with ⟨at_i, -⟩ | ⟨at_next, -⟩
          · obtain ⟨rfl, rfl⟩ : i = j ∧ pc'' = pc := by simpa [walk'] using at_i.symm
            have within := (List.getElem?_eq_some_iff.mp there).1
            refine ⟨e', ?_, change.forward.2.1 created⟩
            rw [streams, List.getElem?_set_self within]
          · rw [walk'] at at_next
            cases at_next
            exact absurd rfl other

theorem streams_inv_reach (reached : streamsSystem.Reach l) : l.Inv := by
  refine reached.invariant ?_ ?_
  · rintro _ rfl
    exact ⟨by simp, by simp⟩
  · intro s a t inv _ step
    exact inv.step step

end Step

/-! ## Streams that were all started -/

/-- The walk goes on over a list of so many streams. -/
structure Streams.Walking (count : Nat) (l : Streams) : Prop where
  inv : l.Inv
  locked : l.walk.locked = true
  length : l.streams.length = count

section Walking

variable {l l' : Streams} {act : StreamsAct} {count : Nat}

theorem streams_step_returned (ended : l.walk = .returned)
    (step : streamsSystem.step l act = some l') : l'.walk = .returned := by
  rcases streams_step_cases step with ⟨-, rfl⟩ | ⟨_, _, _, _, -, -, -, rfl⟩ | ⟨-, moved⟩
  · exact ended
  · exact ended
  · simp [Streams.stopStreams, ended] at moved

theorem Streams.Walking.step (walking : l.Walking count)
    (step : streamsSystem.step l act = some l') : l'.walk = .returned ∨ l'.Walking count := by
  have length := ((streams_step_length walking.inv step).2 walking.locked).trans walking.length
  have inv := walking.inv.step step
  rcases streams_step_cases step with ⟨-, rfl⟩ | ⟨_, _, _, _, -, -, -, rfl⟩ | ⟨-, moved⟩
  · exact .inr ⟨inv, walking.locked, length⟩
  · exact .inr ⟨inv, walking.locked, length⟩
  · rcases stopStreams_cases moved with ⟨-, rfl⟩ | ⟨j, pc, walk, ⟨-, rfl⟩ | ⟨e, there, rfl⟩⟩
    · exact .inr ⟨inv, rfl, length⟩
    · exact .inl rfl
    · refine .inr ⟨inv, ?_, length⟩
      rcases visit_cases walking.inv walk there with
        ⟨same, -⟩ | ⟨-, _, _, -, -, ⟨next, -⟩ | ⟨next, -⟩⟩
      · rw [same]
        exact walking.locked
      · rw [next]
        rfl
      · rw [next]
        rfl

/-- The walk is over, or the stream is past `READY`. -/
def Streams.EndedOrPast (l : Streams) (j : Nat) : Prop :=
  l.walk = .returned ∨ ∃ e, l.streams[j]? = some e ∧ e.past

/-- A stream of the walk with a property that its steps keep. -/
theorem Streams.Walking.kept {P : Entry → Prop}
    (keeps : ∀ e e', Entry.Moved true e e' → P e → P e') (walking : l.Walking count) {j : Nat}
    {e : Entry} (there : l.streams[j]? = some e) (holds : P e)
    (step : streamsSystem.step l act = some l') :
    l'.walk = .returned ∨ l'.Walking count ∧ ∃ e', l'.streams[j]? = some e' ∧ P e' := by
  obtain ⟨e', there', moved⟩ := streams_step_moved walking.inv step there
  rw [walking.locked] at moved
  rcases walking.step step with ended | walking'
  · exact .inl ended
  · exact .inr ⟨walking', e', there', keeps e e' moved holds⟩

theorem streams_step_entry {j : Nat} {a : EntryAct} {e e' : Entry} (found : a.looksUp = false)
    (there : l.streams[j]? = some e) (step : e.step a = some e') :
    streamsSystem.step l (.entry j a) = some { l with streams := l.streams.set j e' } := by
  simp [streamsSystem, found, there, step]

variable {schedule : Nat → StreamsAct} {j : Nat}

/-- A stream that `start_stream` has found gets its thread. -/
theorem eventually_created (fair : Fair count schedule) (below : j < count) {n : Nat}
    (walking : (streamsSystem.play l schedule n).Walking count) {e : Entry}
    (there : (streamsSystem.play l schedule n).streams[j]? = some e) (started : e.start ≠ .never) :
    ∃ m, n ≤ m ∧ ((streamsSystem.play l schedule m).walk = .returned ∨
      (streamsSystem.play l schedule m).Walking count ∧
        ∃ e, (streamsSystem.play l schedule m).streams[j]? = some e ∧ e.start = .created) := by
  refine System.play_eventually (r := fun _ => 0)
    (I := fun l : Streams => l.Walking count ∧ ∃ e, l.streams[j]? = some e ∧ e.start ≠ .never)
    (G := fun l : Streams => l.walk = .returned ∨
      l.Walking count ∧ ∃ e, l.streams[j]? = some e ∧ e.start = .created)
    ?_ ?_ (fair.create j below) ⟨walking, e, there, started⟩
  · rintro l b l' ⟨walking, e, there, started⟩ _ step
    rcases walking.kept (fun e e' moved => moved.forward.1) there started step with ended | next
    · exact .inl (.inl ended)
    · exact .inr ⟨next, Nat.le_refl _⟩
  · rintro l ⟨walking, e, there, started⟩ behind
    have found : e.start = .found := by
      cases start : e.start with
      | never => exact absurd start started
      | found => rfl
      | created => exact absurd (.inr ⟨walking, e, there, start⟩) behind
    have created : e.step .startCreate = some { e with start := .created } := by
      simp [Entry.step, found]
    have step := streams_step_entry (l := l) rfl there created
    have within := (List.getElem?_eq_some_iff.mp there).1
    refine ⟨_, step, .inl ?_⟩
    rcases walking.step step with ended | walking'
    · exact .inl ended
    · exact .inr ⟨walking', _, List.getElem?_set_self within, rfl⟩

/-- A stream with a thread gets past `READY`. -/
theorem eventually_past (fair : Fair count schedule) (below : j < count) {n : Nat}
    (walking : (streamsSystem.play l schedule n).Walking count) {e : Entry}
    (there : (streamsSystem.play l schedule n).streams[j]? = some e)
    (created : e.start = .created) :
    ∃ m, n ≤ m ∧ (streamsSystem.play l schedule m).EndedOrPast j := by
  refine System.play_eventually (G := fun l : Streams => l.EndedOrPast j)
    (I := fun l : Streams => l.Walking count ∧ ∃ e, l.streams[j]? = some e ∧ e.start = .created)
    (r := fun l : Streams => (l.streams[j]?.map Entry.left).getD 0) ?_ ?_ (fair.main j below)
    ⟨walking, e, there, created⟩
  · rintro l b l' ⟨walking, e, there, created⟩ _ step
    obtain ⟨e', there', moved⟩ := streams_step_moved walking.inv step there
    rw [walking.locked] at moved
    rcases walking.step step with ended | walking'
    · exact .inl (.inl ended)
    · refine .inr ⟨⟨walking', e', there', moved.forward.2.1 created⟩, ?_⟩
      simpa [there, there'] using moved.left
  · rintro l ⟨walking, e, there, created⟩ behind
    have ahead : ¬e.stream.main.past := fun past => behind (.inr ⟨e, there, past⟩)
    obtain ⟨t, moved, segments, less⟩ := mainStep_ahead ahead e.adding
    have own : e.step (.thread .main) = some { e with stream := t } := by
      simp [Entry.step, created, moved]
    have step := streams_step_entry (l := l) rfl there own
    have within := (List.getElem?_eq_some_iff.mp there).1
    refine ⟨_, step, ?_⟩
    rcases walking.step step with ended | walking'
    · exact .inl (.inl ended)
    · refine .inr ⟨⟨walking', _, List.getElem?_set_self within, created⟩, ?_⟩
      simp only [List.getElem?_set_self within, there, Option.map_some, Option.getD_some,
        Entry.left, segments]
      exact less

theorem Streams.EndedOrPast.step (held : l.EndedOrPast j) (inv : l.Inv)
    (step : streamsSystem.step l act = some l') : l'.EndedOrPast j := by
  rcases held with ended | ⟨e, there, past⟩
  · exact .inl (streams_step_returned ended step)
  · obtain ⟨e', there', moved⟩ := streams_step_moved inv step there
    exact .inr ⟨e', there', moved.forward.2.2 past⟩

/-- The steps of `stop_streams` up to its return if it waits for no stream. -/
def Streams.walkLeft (l : Streams) : Nat :=
  match l.walk with
  | .visiting j .read => 3 * (l.streams.length - j) + 3
  | .visiting j .returned => 3 * (l.streams.length - j) + 1
  | .visiting j _ => 3 * (l.streams.length - j) + 2
  | _ => 0

/-- Streams that are past `READY` stay so. -/
theorem Streams.Walking.step_past (walking : l.Walking count) (past : ∀ e ∈ l.streams, e.past)
    (step : streamsSystem.step l act = some l') :
    l'.walk = .returned ∨ l'.Walking count ∧ ∀ e ∈ l'.streams, e.past := by
  rcases walking.step step with ended | walking'
  · exact .inl ended
  · refine .inr ⟨walking', fun e' member => ?_⟩
    obtain ⟨j, there'⟩ := List.mem_iff_getElem?.mp member
    have within := (List.getElem?_eq_some_iff.mp there').1
    rw [walking'.length, ← walking.length] at within
    obtain ⟨new, here, moved⟩ :=
      streams_step_moved walking.inv step (List.getElem?_eq_getElem within)
    cases there'.symm.trans here
    exact moved.forward.2.2 (past _ (List.getElem_mem within))

/-- A stop request waits for no stream that is past `READY`. -/
theorem Entry.Inv.not_again {e : Entry} (inv : e.Inv) (past : e.past) :
    stopStreamInternal e.stream.state ≠ .again := by
  have state := inv.passing.state past
  unfold StreamState.past at state
  cases seen : e.stream.state <;> simp_all [stopStreamInternal]

/-- So each step of the walk takes it nearer to its end. -/
theorem stopStreams_left (walking : l.Walking count) (past : ∀ e ∈ l.streams, e.past)
    (step : l.stopStreams = some l') : l'.walk = .returned ∨ l'.walkLeft < l.walkLeft := by
  rcases stopStreams_cases step with ⟨walk, -⟩ | ⟨j, pc, walk, ⟨-, rfl⟩ | ⟨e, there, rfl⟩⟩
  · have locked := walking.locked
    rw [walk] at locked
    cases locked
  · exact .inl rfl
  · right
    have member := List.mem_of_getElem? there
    have within := (List.getElem?_eq_some_iff.mp there).1
    have moved : streamsSystem.step l .stopStreams = some (l.visit j e pc) := step
    have length := (streams_step_length walking.inv moved).2 walking.locked
    rcases visit_cases walking.inv walk there with ⟨-, again, -⟩ | ⟨-, e', pc', -, -, next⟩
    · exact absurd again ((walking.inv.entries e member).not_again (past e member))
    · rcases next with ⟨next, other, order⟩ | ⟨next, rfl⟩
      · unfold Streams.walkLeft
        rw [next, walk, length]
        cases pc <;> cases pc' <;> simp_all
      · unfold Streams.walkLeft
        rw [next, walk, length]
        simp only
        omega

/-- Where every stream is past `READY` the walk ends. -/
theorem eventually_returned (fair : Fair count schedule) {n : Nat}
    (walking : (streamsSystem.play l schedule n).Walking count)
    (past : ∀ e ∈ (streamsSystem.play l schedule n).streams, e.past) :
    ∃ m, n ≤ m ∧ (streamsSystem.play l schedule m).walk = .returned := by
  refine System.play_eventually (I := fun l : Streams => l.Walking count ∧ ∀ e ∈ l.streams, e.past)
    (G := fun l : Streams => l.walk = .returned) (r := Streams.walkLeft) ?_ ?_ fair.walk
    ⟨walking, past⟩
  · rintro l b l' ⟨walking, past⟩ _ step
    rcases walking.step_past past step with ended | next
    · exact .inl ended
    · rcases streams_step_cases step with ⟨free, -⟩ | ⟨_, _, _, _, -, -, -, rfl⟩ | ⟨-, moved⟩
      · rw [walking.locked] at free
        cases free
      · refine .inr ⟨next, ?_⟩
        simp only [Streams.walkLeft, List.length_set]
        exact Nat.le_refl _
      · rcases stopStreams_left walking past moved with ended | less
        · exact .inl ended
        · exact .inr ⟨next, Nat.le_of_lt less⟩
  · rintro l ⟨walking, past⟩ behind
    obtain ⟨l', step⟩ : ∃ l', streamsSystem.step l .stopStreams = some l' := by
      simp only [streamsSystem, Streams.stopStreams]
      split
      · exact ⟨_, rfl⟩
      · split <;> exact ⟨_, rfl⟩
      · next ended => exact absurd ended behind
    refine ⟨l', step, ?_⟩
    rcases walking.step_past past step with ended | next
    · exact .inl ended
    · exact (stopStreams_left walking past step).imp_right fun less => ⟨next, less⟩

/-- **Streams that were all started.** -/
theorem returns_of_started (fair : Fair count schedule) (walking : l.Walking count)
    (started : ∀ e ∈ l.streams, e.start ≠ .never) :
    ∃ n, (streamsSystem.play l schedule n).walk = .returned := by
  -- Being past `READY` stays, so there is a moment at which all streams are.
  have each : ∀ j < count, ∃ m, (streamsSystem.play l schedule m).Inv ∧
      (streamsSystem.play l schedule m).EndedOrPast j := by
    intro j below
    have keeps : ∀ m, (streamsSystem.play l schedule m).Inv := fun m =>
      System.play_kept (fun s a t inv step => inv.step step) walking.inv (Nat.zero_le m)
    have within : j < l.streams.length := walking.length.symm ▸ below
    obtain ⟨m, -, ended | ⟨walking', e, there, created⟩⟩ :=
      eventually_created (n := 0) fair below walking (List.getElem?_eq_getElem within)
        (started _ (List.getElem_mem within))
    · exact ⟨m, keeps m, .inl ended⟩
    · obtain ⟨m', -, past⟩ := eventually_past fair below walking' there created
      exact ⟨m', keeps m', past⟩
  obtain ⟨m, all⟩ := System.play_eventually_all
    (G := fun j (l : Streams) => l.Inv ∧ l.EndedOrPast j)
    (fun j s a t holds step => ⟨holds.1.step step, holds.2.step holds.1 step⟩) each
  have ongoing : (streamsSystem.play l schedule m).walk = .returned ∨
      (streamsSystem.play l schedule m).Walking count := by
    refine System.play_kept (P := fun l : Streams => l.walk = .returned ∨ l.Walking count) ?_
      (.inr walking : (streamsSystem.play l schedule 0).walk = .returned ∨ _) (Nat.zero_le m)
    rintro s a t (ended | walking) step
    · exact .inl (streams_step_returned ended step)
    · exact walking.step step
  rcases ongoing with ended | walking'
  · exact ⟨m, ended⟩
  · have past : ∀ e ∈ (streamsSystem.play l schedule m).streams, e.past := by
      intro e member
      obtain ⟨j, there⟩ := List.mem_iff_getElem?.mp member
      have within := (List.getElem?_eq_some_iff.mp there).1
      rcases (all j (walking'.length ▸ within)).2 with ended | ⟨e', there', past⟩
      · have locked := walking'.locked
        rw [ended] at locked
        cases locked
      · cases there.symm.trans there'
        exact past
    obtain ⟨n, -, ended⟩ := eventually_returned fair walking' past
    exact ⟨n, ended⟩

end Walking

/-! ## A stream that was not started -/

/-- The walk has not come past a stream that nobody has started. -/
structure Streams.Stuck (j : Nat) (l : Streams) : Prop where
  inv : l.Inv
  never : ∃ e, l.streams[j]? = some e ∧ e.start = .never
  walk : ∃ i pc, l.walk = .visiting i pc ∧ (i < j ∨ i = j ∧ pc = .read)

/-- With the lock of the list held, no start begins. -/
theorem Entry.Moved.never {e e' : Entry} (moved : Entry.Moved true e e')
    (never : e.start = .never) : e'.start = .never := by
  cases moved with
  | same => exact never
  | @step act _ found step =>
      have found := found rfl
      cases act with
      | thread act =>
          obtain ⟨s, -, rfl, -⟩ := Entry.step_thread step
          exact never
      | startCreate => simp [Entry.step, never] at step
      | addSegment =>
          simp only [Entry.step] at step
          split at step
          · cases step
            exact never
          · cases step
      | _ => cases found
  | visited created _ => exact never

theorem Streams.Stuck.step {l l' : Streams} {act : StreamsAct} {j : Nat} (stuck : l.Stuck j)
    (step : streamsSystem.step l act = some l') : l'.Stuck j := by
  obtain ⟨i, pc, walk, behind⟩ := stuck.walk
  obtain ⟨e, there, never⟩ := stuck.never
  have locked : l.walk.locked = true := by
    rw [walk]
    rfl
  obtain ⟨e', there', moved⟩ := streams_step_moved stuck.inv step there
  rw [locked] at moved
  refine ⟨stuck.inv.step step, ⟨e', there', moved.never never⟩, ?_⟩
  rcases streams_step_cases step with ⟨-, rfl⟩ | ⟨_, _, _, _, -, -, -, rfl⟩ | ⟨-, moved⟩
  · exact ⟨i, pc, walk, behind⟩
  · exact ⟨i, pc, walk, behind⟩
  · rcases stopStreams_cases moved with ⟨at_lock, -⟩ | ⟨i', pc', walk', visit⟩
    · rw [walk] at at_lock
      cases at_lock
    · obtain ⟨rfl, rfl⟩ : i = i' ∧ pc = pc' := by simpa [walk] using walk'
      rcases visit with ⟨beyond, -⟩ | ⟨seen, place, rfl⟩
      · -- The list does not end before the stream that was not started.
        have within := (List.getElem?_eq_some_iff.mp there).1
        have bound := List.getElem?_eq_none_iff.mp beyond
        omega
      · rcases visit_cases stuck.inv walk place with
          ⟨same, -⟩ | ⟨created, _, pc', -, -, ⟨next, -⟩ | ⟨next, rfl⟩⟩
        · exact ⟨i, pc, by rw [same, walk], behind⟩
        · refine ⟨i, pc', next, ?_⟩
          rcases behind with before | ⟨rfl, -⟩
          · exact .inl before
          · cases there.symm.trans place
            rw [never] at created
            cases created
        · refine ⟨i + 1, .read, next, ?_⟩
          rcases behind with before | ⟨-, first⟩
          · exact (Nat.lt_or_eq_of_le before).imp_right fun here => ⟨here, rfl⟩
          · cases first

/-- **A stream that was not started** keeps the walk from its end, whatever the schedule. -/
theorem never_returns_of_not_started {l : Streams} (schedule : Nat → StreamsAct) {j : Nat}
    (stuck : l.Stuck j) (n : Nat) : (streamsSystem.play l schedule n).walk ≠ .returned := by
  have still : (streamsSystem.play l schedule n).Stuck j :=
    System.play_kept (fun s a t stuck step => stuck.step step)
      (stuck : (streamsSystem.play l schedule 0).Stuck j) (Nat.zero_le n)
  obtain ⟨i, pc, walk, -⟩ := still.walk
  rw [walk]
  simp

/-- **Stopping all streams** ends exactly when every stream of the list had been started when its
lock was taken. `stream_cleanup` begins with it and comes to its joins after it. -/
theorem stop_streams_returns_iff_started {l : Streams} {schedule : Nat → StreamsAct}
    (reached : streamsSystem.Reach l) (begun : l.walk = .visiting 0 .read)
    (fair : Fair l.streams.length schedule) :
    (∃ n, (streamsSystem.play l schedule n).walk = .returned) ↔
      ∀ e ∈ l.streams, e.start ≠ .never := by
  have inv := streams_inv_reach reached
  constructor
  · rintro ⟨n, ended⟩ e member never
    obtain ⟨j, there⟩ := List.mem_iff_getElem?.mp member
    have behind : 0 < j ∨ 0 = j ∧ StopPc.read = .read := by
      rcases Nat.eq_zero_or_pos j with rfl | later
      · exact .inr ⟨rfl, rfl⟩
      · exact .inl later
    have stuck : l.Stuck j := ⟨inv, ⟨e, there, never⟩, 0, .read, begun, behind⟩
    exact never_returns_of_not_started schedule stuck n ended
  · intro started
    exact returns_of_started fair ⟨inv, by rw [begun]; rfl, rfl⟩ started

/-- One stream, and its own thread, its start and `stop_streams` in turn. -/
def oneInTurn (n : Nat) : StreamsAct :=
  match n % 3 with
  | 0 => .stopStreams
  | 1 => .entry 0 .startCreate
  | _ => .entry 0 (.thread .main)

theorem oneInTurn_fair : Fair 1 oneInTurn := by
  refine ⟨fun n => ⟨3 * n, by omega, ?_⟩, fun j below n => ⟨3 * n + 1, by omega, ?_⟩,
    fun j below n => ⟨3 * n + 2, by omega, ?_⟩⟩
  · have turn : 3 * n % 3 = 0 := by omega
    simp only [oneInTurn, turn]
  · have turn : (3 * n + 1) % 3 = 1 := by omega
    obtain rfl : j = 0 := by omega
    simp only [oneInTurn, turn]
  · have turn : (3 * n + 2) % 3 = 2 := by omega
    obtain rfl : j = 0 := by omega
    simp only [oneInTurn, turn]

/-- A walk over a stream that `start_stream` has found. -/
def foundList : Streams where
  streams := [{ start := .found }]
  walk := .visiting 0 .read

theorem foundList_reach : streamsSystem.Reach foundList :=
  (System.ReachUnder.start rfl).exec
    (show streamsSystem.exec {} [.newStream, .entry 0 .startFind, .stopStreams] = some foundList
      by decide)

/-- A walk over a stream that nobody has started. -/
def neverList : Streams where
  streams := [{}]
  walk := .visiting 0 .read

theorem neverList_reach : streamsSystem.Reach neverList :=
  (System.ReachUnder.start rfl).exec
    (show streamsSystem.exec {} [.newStream, .stopStreams] = some neverList by decide)

theorem stop_streams_returns_found :
    ∃ n, (streamsSystem.play foundList oneInTurn n).walk = .returned :=
  (stop_streams_returns_iff_started foundList_reach rfl oneInTurn_fair).mpr (by decide)

theorem stop_streams_waits_for_ever :
    ¬∀ (l : Streams) (schedule : Nat → StreamsAct), streamsSystem.Reach l →
      l.walk = .visiting 0 .read → Fair l.streams.length schedule →
        ∃ n, (streamsSystem.play l schedule n).walk = .returned := by
  intro returns
  obtain ⟨n, ended⟩ := returns neverList oneInTurn neverList_reach rfl oneInTurn_fair
  have stuck : neverList.Stuck 0 :=
    ⟨streams_inv_reach neverList_reach, ⟨{}, rfl, rfl⟩, 0, .read, rfl, .inr ⟨rfl, rfl⟩⟩
  exact never_returns_of_not_started oneInTurn stuck n ended

end Bingewatch.Stream
