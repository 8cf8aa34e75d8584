import Bingewatch.Stream.State

/-!
# The status of a stream

`join_stream` waits for the stream's own thread and returns the status that the stream has then. The
status is written by `callback_error`, with the lock of the stream held, and without it by a stop
request that has found the state `ERROR`; nobody ever writes success again.

A segment that is in `callback_error` has not left, so the stream's own thread is still waiting for
it; and a stop request finds `ERROR` only where `callback_error` put it. So the status that is
returned is not success exactly when some segment has called `callback_error`
(`join_status_iff_error`).
-/

set_option autoImplicit false

namespace Bingewatch.Stream

open Foundation

/-- The segment is in `callback_error` and has not yet written the status. -/
def SegmentPc.reporting : SegmentPc → Bool
  | .errorRead => true
  | .errorWrite _ => true
  | .errorStatus => true
  | _ => false

/-- The segments `main_state_machine` has not started yet. -/
def MainPc.awaits : MainPc → Nat → Prop
  | .setReady, _ => True
  | .starting k, i => k ≤ i
  | _, _ => False

/-- Some segment has called `callback_error`. -/
def Reported (trace : List Act) : Prop := ∃ i, Act.segment i .error ∈ trace

theorem Reported.snoc {trace : List Act} (reported : Reported trace) (a : Act) :
    Reported (trace ++ [a]) := by
  obtain ⟨i, member⟩ := reported
  exact ⟨i, List.mem_append_left _ member⟩

/-- What holds along every run. Everything that speaks of an error goes back to a call of
`callback_error`, such a call is on its way or has left its mark in the status; a segment that was
not started is idle, and one that was joined has left. -/
structure StatusInv (trace : List Act) (s : IoStream) : Prop where
  status : s.status ≠ .success → Reported trace
  state : s.state = .error → Reported trace
  callback : ∀ seg ∈ s.segments, seg.pc.reporting → Reported trace
  decision : ∀ seg ∈ s.segments, ∀ new, seg.pc = .completeWrite new → new ≠ .error
  stop : StopPc.setStatus ∈ s.stops → Reported trace
  reported : Reported trace → s.status ≠ .success ∨ ∃ seg ∈ s.segments, seg.pc.reporting
  joined : ∀ i seg, s.segments[i]? = some seg → s.main.joins i → seg.pc = .exited
  idle : ∀ i seg, s.segments[i]? = some seg → s.main.awaits i → seg.pc = .idle

theorem statusInv_start (s : IoStream) (start : streamSystem.start s) : StatusInv [] s := by
  obtain ⟨n, k, rfl⟩ := start
  have fresh : ∀ seg ∈ List.replicate n ({} : SegmentThread), seg = {} := fun seg member =>
    List.eq_of_mem_replicate member
  refine ⟨by simp, by simp, ?_, ?_, ?_, ?_, ?_, ?_⟩
  · intro seg member reporting
    rw [fresh seg member] at reporting
    cases reporting
  · intro seg member new decided
    rw [fresh seg member] at decided
    cases decided
  · intro member
    cases List.eq_of_mem_replicate member
  · rintro ⟨i, member⟩
    cases member
  · intro i seg thread joins
    exact joins.elim
  · intro i seg thread _
    rw [fresh seg (List.mem_of_getElem? thread)]

/-! ## Segments -/

/-- A segment moves. When it leaves `callback_error` the status says so. -/
theorem StatusInv.setSegment {trace trace' : List Act} {s : IoStream} (inv : StatusInv trace s)
    {i : Nat} {seg new : SegmentThread} {state : StreamState} {status : StreamStatus}
    {lock : Option Nat} (thread : s.segments[i]? = some seg)
    (apart : ¬s.main.joins i ∧ ¬s.main.awaits i) (grows : Reported trace → Reported trace')
    (failed : status ≠ .success → Reported trace') (calm : state = .error → Reported trace')
    (called : new.pc.reporting → Reported trace')
    (decided : ∀ target, new.pc = .completeWrite target → target ≠ .error)
    (marked : Reported trace' → status ≠ .success ∨ new.pc.reporting ∨
      Reported trace ∧ status = s.status ∧ seg.pc.reporting = false) :
    StatusInv trace'
      { s with
        state := state
        status := status
        lock := lock
        segments := s.segments.set i new } where
  status := failed
  state := calm
  callback := by
    intro other member reporting
    rcases List.mem_or_eq_of_mem_set member with old | rfl
    · exact grows (inv.callback other old reporting)
    · exact called reporting
  decision := by
    intro other member
    rcases List.mem_or_eq_of_mem_set member with old | rfl
    · exact inv.decision other old
    · exact decided
  stop := fun member => grows (inv.stop member)
  reported := by
    intro reported
    have within := (List.getElem?_eq_some_iff.mp thread).1
    rcases marked reported with marked | mine | ⟨before, same, outside⟩
    · exact .inl marked
    · exact .inr ⟨new, List.mem_set within new, mine⟩
    · rcases inv.reported before with marked | ⟨other, member, reporting⟩
      · exact .inl (same ▸ marked)
      · obtain ⟨j, there⟩ := List.mem_iff_getElem?.mp member
        have elsewhere : i ≠ j := by
          rintro rfl
          obtain rfl : seg = other := Option.some.inj (thread.symm.trans there)
          rw [outside] at reporting
          cases reporting
        refine .inr ⟨other, List.mem_of_getElem? (i := j) ?_, reporting⟩
        rw [List.getElem?_set_ne elsewhere, there]
  joined := by
    intro j other there joins
    by_cases here : i = j
    · exact absurd (here ▸ joins) apart.1
    · rw [List.getElem?_set_ne here] at there
      exact inv.joined j other there joins
  idle := by
    intro j other there waits
    by_cases here : i = j
    · exact absurd (here ▸ waits) apart.2
    · rw [List.getElem?_set_ne here] at there
      exact inv.idle j other there waits

theorem not_reported_snoc {trace : List Act} {i : Nat} {move : SegmentMove} (other : move ≠ .error)
    (reported : Reported (trace ++ [.segment i move])) : Reported trace := by
  obtain ⟨j, member⟩ := reported
  refine ⟨j, ?_⟩
  rcases List.mem_append.mp member with before | now
  · exact before
  · obtain ⟨-, same⟩ : j = i ∧ SegmentMove.error = move := by simpa using now
    exact absurd same.symm other

/-- A segment outside `callback_error` moves on without an error. -/
theorem StatusInv.quiet {trace : List Act} {s : IoStream} (inv : StatusInv trace s) {i : Nat}
    {seg new : SegmentThread} {move : SegmentMove} {state : StreamState} {lock : Option Nat}
    (thread : s.segments[i]? = some seg) (apart : ¬s.main.joins i ∧ ¬s.main.awaits i)
    (other : move ≠ .error) (outside : seg.pc.reporting = false)
    (still : new.pc.reporting = false) (calm : state = .error → Reported trace)
    (decided : ∀ target, new.pc = .completeWrite target → target ≠ .error) :
    StatusInv (trace ++ [.segment i move])
      { s with state := state, lock := lock, segments := s.segments.set i new } := by
  have grows : Reported trace → Reported (trace ++ [.segment i move]) := fun reported =>
    reported.snoc _
  refine inv.setSegment thread apart grows (fun failed => grows (inv.status failed))
    (fun failed => grows (calm failed)) ?_ decided ?_
  · intro reporting
    rw [still] at reporting
    cases reporting
  · intro reported
    exact .inr (.inr ⟨not_reported_snoc other reported, rfl, outside⟩)

/-- A segment enters `callback_error` or moves on in it, with the error in the trace. -/
theorem StatusInv.reporting {trace : List Act} {s : IoStream} (inv : StatusInv trace s) {i : Nat}
    {seg new : SegmentThread} {move : SegmentMove} {state : StreamState} {status : StreamStatus}
    {lock : Option Nat} (thread : s.segments[i]? = some seg)
    (apart : ¬s.main.joins i ∧ ¬s.main.awaits i)
    (reported : Reported (trace ++ [.segment i move]))
    (marked : status ≠ .success ∨ new.pc.reporting)
    (decided : ∀ target, new.pc = .completeWrite target → target ≠ .error) :
    StatusInv (trace ++ [.segment i move])
      { s with
        state := state
        status := status
        lock := lock
        segments := s.segments.set i new } := by
  refine inv.setSegment thread apart (fun before => before.snoc _) (fun _ => reported)
    (fun _ => reported) (fun _ => reported) decided ?_
  intro _
  exact marked.imp_right .inl

theorem statusInv_segment {trace : List Act} {s t : IoStream} {i : Nat} {seg : SegmentThread}
    {move : SegmentMove} (inv : StatusInv trace s) (thread : s.segments[i]? = some seg)
    (step : segmentStep s i seg move = some t) :
    StatusInv (trace ++ [.segment i move]) t := by
  have member : seg ∈ s.segments := List.mem_of_getElem? thread
  have apart : seg.pc ≠ .idle → seg.pc ≠ .exited → ¬s.main.joins i ∧ ¬s.main.awaits i :=
    fun started present => ⟨fun joins => present (inv.joined i seg thread joins),
      fun waits => started (inv.idle i seg thread waits)⟩
  have known : seg.pc.reporting → Reported (trace ++ [.segment i move]) := fun reporting =>
    (inv.callback seg member reporting).snoc _
  unfold segmentStep at step
  split at step
  · next pc =>
      split at step
      · cases step
        exact inv.quiet thread (apart (by simp [pc]) (by simp [pc])) (by simp) (by rw [pc]; rfl) rfl
          inv.state (by simp)
      · cases step
  · next pc =>
      split at step
      · cases step
        exact inv.reporting thread (apart (by simp [pc]) (by simp [pc])) ⟨i, by simp⟩ (.inr rfl)
          (by simp)
      · cases step
  · next pc =>
      cases step
      exact inv.quiet thread (apart (by simp [pc]) (by simp [pc])) (by simp) (by rw [pc]; rfl)
        (by rw [pc]; rfl) inv.state (by simp [pc])
  · next pc =>
      cases step
      exact inv.quiet thread (apart (by simp [pc]) (by simp [pc])) (by simp) (by rw [pc]; rfl) rfl
        inv.state (by simp)
  · next pc =>
      split at step
      · next target seen =>
          cases step
          refine inv.quiet thread (apart (by simp [pc]) (by simp [pc])) (by simp) (by rw [pc]; rfl)
            rfl inv.state ?_
          rintro target' same rfl
          obtain rfl : target = .error := by simpa using same
          cases state : s.state <;> simp [state, callbackComplete] at seen
      · cases step
        exact inv.quiet thread (apart (by simp [pc]) (by simp [pc])) (by simp) (by rw [pc]; rfl) rfl
          inv.state (by simp)
  · next target pc =>
      cases step
      exact inv.quiet thread (apart (by simp [pc]) (by simp [pc])) (by simp) (by rw [pc]; rfl) rfl
        (fun failed => absurd failed (inv.decision seg member target pc)) (by simp)
  · next pc =>
      have reported := known (by rw [pc]; rfl)
      split at step
      · cases step
        exact inv.reporting thread (apart (by simp [pc]) (by simp [pc])) reported (.inr rfl)
          (by simp)
      · cases step
        exact inv.reporting thread (apart (by simp [pc]) (by simp [pc])) reported (.inr rfl)
          (by simp)
  · next target pc =>
      cases step
      exact inv.reporting thread (apart (by simp [pc]) (by simp [pc])) (known (by rw [pc]; rfl))
        (.inr rfl) (by simp)
  · next pc =>
      cases step
      exact inv.reporting thread (apart (by simp [pc]) (by simp [pc])) (known (by rw [pc]; rfl))
        (.inl (by simp)) (by simp)
  · next pc =>
      cases step
      exact inv.quiet thread (apart (by simp [pc]) (by simp [pc])) (by simp) (by rw [pc]; rfl) rfl
        inv.state (by simp)
  · cases step

/-! ## The stream's own thread -/

/-- The stream's own thread moves on, with a state that is not `ERROR` if it is new. -/
theorem StatusInv.goto {trace : List Act} {s : IoStream} (inv : StatusInv trace s) {pc : MainPc}
    {state : StreamState} (calm : state = .error → s.state = .error)
    (joined : ∀ i seg, s.segments[i]? = some seg → pc.joins i → seg.pc = .exited)
    (idle : ∀ i, pc.awaits i → s.main.awaits i) :
    StatusInv (trace ++ [.main]) { s with state := state, main := pc } where
  status := fun failed => (inv.status failed).snoc _
  state := fun failed => (inv.state (calm failed)).snoc _
  callback := fun seg member reporting => (inv.callback seg member reporting).snoc _
  decision := inv.decision
  stop := fun member => (inv.stop member).snoc _
  reported := by
    rintro ⟨i, member⟩
    refine inv.reported ⟨i, ?_⟩
    simpa using member
  joined := joined
  idle := fun i seg thread waits => inv.idle i seg thread (idle i waits)

theorem statusInv_main {trace : List Act} {s t : IoStream} (inv : StatusInv trace s)
    (step : mainStep s = some t) : StatusInv (trace ++ [.main]) t := by
  unfold mainStep at step
  cases pc : s.main with
  | setReady =>
      simp only [pc, Option.some.injEq] at step
      subst step
      refine inv.goto (by simp) (fun _ _ _ joins => joins.elim) (fun i _ => ?_)
      rw [pc]
      trivial
  | starting k =>
      simp only [pc] at step
      split at step
      · next seg thread =>
          cases step
          have wasIdle : seg.pc = .idle :=
            inv.idle k seg thread (by rw [pc]; exact Nat.le_refl k)
          have moved : StatusInv (trace ++ [.main]) { s with main := .starting (k + 1) } := by
            refine inv.goto id (fun _ _ _ joins => joins.elim) (fun i waits => ?_)
            rw [pc]
            exact Nat.le_of_succ_le waits
          refine moved.setSegment thread ⟨fun joins => joins.elim, fun waits => ?_⟩ id moved.status
            moved.state (fun impossible => by cases impossible) (by simp) (fun reported => ?_)
          · exact absurd waits (Nat.not_succ_le_self k)
          · exact .inr (.inr ⟨reported, rfl, by rw [wasIdle]; rfl⟩)
      · cases step
        exact inv.goto id (fun _ _ _ joins => joins.elim) (fun _ waits => waits.elim)
  | setRunning =>
      simp only [pc, Option.some.injEq] at step
      subst step
      exact inv.goto (by simp) (fun _ _ _ joins => joins.elim) (fun _ waits => waits.elim)
  | poll =>
      simp only [pc] at step
      split at step
      · cases step
        exact inv.goto id inv.joined (fun _ => id)
      · cases step
        exact inv.goto id (fun _ _ _ joins => joins.elim) (fun _ waits => waits.elim)
  | check =>
      simp only [pc, Option.some.injEq] at step
      subst step
      refine inv.goto id (fun i seg _ joins => ?_) (fun i waits => ?_)
      · split at joins
        · exact joins.elim
        · exact absurd joins (Nat.not_lt_zero i)
      · split at waits <;> exact waits.elim
  | waiting k =>
      simp only [pc] at step
      split at step
      · split at step
        · cases step
          exact inv.goto id inv.joined (fun _ => id)
        · cases step
          exact inv.goto id (fun _ _ _ joins => joins.elim) (fun _ waits => waits.elim)
      · cases step
        exact inv.goto id (fun i _ _ joins => absurd joins (Nat.not_lt_zero i))
          (fun _ waits => waits.elim)
  | joining k =>
      have earlier : ∀ (i : Nat) (seg : SegmentThread), s.segments[i]? = some seg → i < k →
          seg.pc = .exited := fun i seg thread before =>
        inv.joined i seg thread (by rw [pc]; exact before)
      simp only [pc] at step
      split at step
      · next seg thread =>
          split at step
          · next left =>
              cases step
              refine inv.goto id (fun i other member joins => ?_) (fun _ waits => waits.elim)
              rcases Nat.lt_succ_iff_lt_or_eq.mp joins with before | rfl
              · exact earlier i other member before
              · cases thread.symm.trans member
                exact left
          · cases step
      · next beyond =>
          cases step
          refine inv.goto id (fun i other member _ => earlier i other member ?_)
            (fun _ waits => waits.elim)
          have bound := List.getElem?_eq_none_iff.mp beyond
          have within := (List.getElem?_eq_some_iff.mp member).1
          omega
  | setStopped =>
      simp only [pc, Option.some.injEq] at step
      subst step
      refine inv.goto (by simp) (fun i seg thread _ => ?_) (fun _ waits => waits.elim)
      exact inv.joined i seg thread (by rw [pc]; exact trivial)
  | exited => simp [pc] at step

/-! ## Stop requests -/

theorem statusInv_stop {trace : List Act} {s t : IoStream} {k : Nat} {pc : StopPc}
    (inv : StatusInv trace s) (caller : s.stops[k]? = some pc) (step : stopStep s k pc = some t) :
    StatusInv (trace ++ [.stop k]) t := by
  have member : pc ∈ s.stops := List.mem_of_getElem? caller
  -- only the status and the state can change, and a request learns of an error from the state
  have moved : ∀ (new : StopPc) (state : StreamState) (status : StreamStatus),
      (status ≠ .success → Reported trace) → (s.status ≠ .success → status ≠ .success) →
      (state = .error → Reported trace) → (new = .setStatus → Reported trace) →
      StatusInv (trace ++ [.stop k])
        { s with state := state, status := status, stops := s.stops.set k new } := by
    intro new state status failed sticks calm learned
    refine ⟨fun h => (failed h).snoc _, fun h => (calm h).snoc _, ?_, inv.decision, ?_, ?_,
      inv.joined, inv.idle⟩
    · intro seg inside reporting
      exact (inv.callback seg inside reporting).snoc _
    · intro inside
      rcases List.mem_or_eq_of_mem_set inside with old | same
      · exact (inv.stop old).snoc _
      · exact (learned same.symm).snoc _
    · rintro ⟨i, inside⟩
      have reported : Reported trace := ⟨i, by simpa using inside⟩
      exact (inv.reported reported).imp_left sticks
  cases pc with
  | read =>
      simp only [stopStep] at step
      split at step
      · cases step
        obtain ⟨within, here⟩ := List.getElem?_eq_some_iff.mp caller
        have same := moved s.stops[k] s.state s.status inv.status id inv.state (by simp [here])
        rwa [List.set_getElem_self] at same
      · cases step
        exact moved .setDone s.state s.status inv.status id inv.state (by simp)
      · next seen =>
          cases step
          refine moved .setStatus s.state s.status inv.status id inv.state (fun _ => inv.state ?_)
          cases state : s.state <;> simp [state, stopStreamInternal] at seen
          rfl
      · cases step
        exact moved .returned s.state s.status inv.status id inv.state (by simp)
  | setDone =>
      cases step
      exact moved .returned .done s.status inv.status id (by simp) (by simp)
  | setStatus =>
      cases step
      exact moved .returned s.state .stopFailure (fun _ => inv.stop member) (by simp) inv.state
        (by simp)
  | returned => cases step

/-! ## The status that is returned -/

/-- The invariant holds along every run. -/
theorem statusInv_exec {s t : IoStream} {actions : List Act} (start : streamSystem.start s)
    (run : streamSystem.exec s actions = some t) : StatusInv actions t := by
  refine System.exec_invariant (statusInv_start s start) ?_ run
  intro trace s act t inv step
  cases act with
  | main => exact statusInv_main inv step
  | segment i move =>
      obtain ⟨seg, thread, step⟩ := Option.bind_eq_some_iff.mp step
      exact statusInv_segment inv thread step
  | stop k =>
      obtain ⟨pc, caller, step⟩ := Option.bind_eq_some_iff.mp step
      exact statusInv_stop inv caller step

/-- A segment calls `callback_error` only while the stream's own thread has not finished. -/
theorem main_ne_exited_of_error {trace : List Act} {s t : IoStream} {i : Nat}
    (inv : StatusInv trace s) (step : streamSystem.step s (.segment i .error) = some t) :
    s.main ≠ .exited := by
  intro exited
  obtain ⟨seg, thread, step⟩ := Option.bind_eq_some_iff.mp step
  have left := inv.joined i seg thread (by rw [exited]; trivial)
  simp [segmentStep, left] at step

/-- **Segment errors are reported, and only they are.** In every run of a stream with any number of
segments and stop requests, the status that `join_stream` finds when the stream's own thread has
finished differs from success if and only if some segment called `callback_error` before that
thread had finished. -/
theorem join_status_iff_error {s t : IoStream} {actions : List Act} (start : streamSystem.start s)
    (run : streamSystem.exec s actions = some t) (finished : t.main = .exited) :
    t.status ≠ .success ↔ ∃ before i after u, actions = before ++ .segment i .error :: after ∧
      streamSystem.exec s before = some u ∧ u.main ≠ .exited := by
  have inv := statusInv_exec start run
  constructor
  · intro failed
    obtain ⟨i, member⟩ := inv.status failed
    obtain ⟨before, after, rfl⟩ := List.append_of_mem member
    rw [System.exec_append] at run
    obtain ⟨u, reached, rest⟩ := Option.bind_eq_some_iff.mp run
    obtain ⟨v, step, -⟩ := Option.bind_eq_some_iff.mp rest
    exact ⟨before, i, after, u, rfl, reached,
      main_ne_exited_of_error (statusInv_exec start reached) step⟩
  · rintro ⟨before, i, after, u, rfl, -, -⟩
    rcases inv.reported ⟨i, by simp⟩ with marked | ⟨seg, member, reporting⟩
    · exact marked
    · -- a segment that is still in the callback was not joined
      obtain ⟨j, thread⟩ := List.mem_iff_getElem?.mp member
      have left := inv.joined j seg thread (by rw [finished]; trivial)
      rw [left] at reporting
      cases reporting

/-- A segment fails, and a stop request overwrites the status that its callback wrote. -/
theorem join_status_iff_error_stop :
    let t : IoStream :=
      { state := .stopped
        status := .stopFailure
        main := .exited
        segments := [{ pc := .exited }]
        stops := [.returned] }
    streamSystem.exec smallStream [.main, .main, .main, .main, .segment 0 .error, .segment 0 .go,
        .segment 0 .go, .stop 0, .segment 0 .go, .stop 0, .segment 0 .go, .segment 0 .leave, .main,
        .main, .main, .main, .main] = some t ∧ t.status ≠ .success := by
  intro t
  have run : streamSystem.exec smallStream [.main, .main, .main, .main, .segment 0 .error,
      .segment 0 .go, .segment 0 .go, .stop 0, .segment 0 .go, .stop 0, .segment 0 .go,
      .segment 0 .leave, .main, .main, .main, .main, .main] = some t := rfl
  refine ⟨run, (join_status_iff_error smallStream_start run rfl).mpr ?_⟩
  exact ⟨[.main, .main, .main, .main], 0, _, _, rfl, rfl, by decide⟩

end Bingewatch.Stream
