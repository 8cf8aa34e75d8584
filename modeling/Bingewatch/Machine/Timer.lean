import Bingewatch.Foundation.Transition

/-!
# Metric timers

`start_timer` starts a thread that waits a millisecond in each iteration and is to invoke a callback
every `ms` of them; `stop_timer` is to stop it (`src/machine-metrics.c`). A call and the thread
share the period and the state of the timer.

After a callback the counter of the thread is set to the period where it should begin again, so from
the first callback on every iteration invokes one. And the guard of `stop_timer` is that of
`start_timer`: it does nothing to a timer that runs. `timers_right_iff` says which runs do what they
should all the same.
-/

set_option autoImplicit false

namespace Bingewatch.Machine

open Foundation

/-- `enum timer_state_e`. -/
inductive TimerState where
  | stopped
  | running
  deriving DecidableEq, Repr

/-- Where `run_timer` is. -/
inductive TimerPc where
  | load
  | test
  | count
  | callback
  | wait
  deriving DecidableEq, Repr

/-- The thread of a timer, with the local variables of `run_timer`. -/
structure TimerThread where
  pc : TimerPc := .load
  msReset : Nat := 0
  ms : Nat := 0
  deriving DecidableEq, Repr

/-- What has happened to a timer: a start, the end of an iteration, a callback, and a call of
`stop_timer` on a running timer with the state it left behind. -/
inductive TimerEvent where
  | started (ms : Nat)
  | iterated
  | callback
  | stop (left : TimerState)
  deriving DecidableEq, Repr

/-- `struct timer_t` with its thread, and what has happened, the latest first. -/
structure Timer where
  ms : Nat
  state : TimerState := .stopped
  thread : Option TimerThread := none
  log : List TimerEvent := []
  deriving DecidableEq, Repr

/-! ## The steps -/

/-- `start_timer`. The thread never changes the state it has found, so the two locked sections of
the call are one step. -/
def startTimer (t : Timer) (ms : Nat) : Timer :=
  if t.state = .stopped then
    { ms := ms, state := .running, thread := some {}, log := .started ms :: t.log }
  else t

/-- `stop_timer`: where it sets the state it joins the thread, and waits as long as there is one. -/
def stopTimer (t : Timer) : Option Timer :=
  if t.state = .stopped then
    match t.thread with
    | none => some { t with state := .stopped }
    | some _ => none
  else some { t with log := .stop t.state :: t.log }

/-- A step of `run_timer`. The `free` of a timer, which is not allocated, is undefined. The counter
of the source may wrap around, but only on the way to the line that sets it. -/
def runTimer (t : Timer) : Option Timer :=
  match t.thread with
  | none => none
  | some thread =>
      match thread.pc with
      | .load => some { t with thread := some { pc := .test, msReset := t.ms, ms := 0 } }
      | .test =>
          if t.state = .running then some { t with thread := some { thread with pc := .count } }
          else none
      | .count =>
          let pc := if thread.ms < thread.msReset then .wait else .callback
          some { t with thread := some { thread with pc := pc, ms := thread.ms + 1 } }
      | .callback =>
          some
            { t with
              thread := some { thread with pc := .wait, ms := thread.msReset }
              log := .callback :: t.log }
      | .wait =>
          some { t with thread := some { thread with pc := .test }, log := .iterated :: t.log }

/-- A call on the timer, or a step of its thread. -/
inductive TimerAct where
  | start (ms : Nat)
  | stop
  | thread
  deriving DecidableEq, Repr

def Timer.act (t : Timer) : TimerAct → Option (Timer × Unit)
  | .start ms => some (startTimer t ms, ())
  | .stop => (stopTimer t).map fun t => (t, ())
  | .thread => (runTimer t).map fun t => (t, ())

/-! ## What a timer should do -/

/-- The period a timer was last started with. -/
def period : List TimerEvent → Nat
  | [] => 0
  | .started ms :: _ => ms
  | _ :: before => period before

/-- The iterations since the last callback, if there was one since the start. -/
def sinceCallback : List TimerEvent → Option Nat
  | [] => none
  | .started _ :: _ => none
  | .callback :: _ => some 0
  | .iterated :: before => (sinceCallback before).map (· + 1)
  | .stop _ :: before => sinceCallback before

/-- The timer was stopped while it was running, and not started since. -/
def stopped : List TimerEvent → Bool
  | [] => false
  | .started _ :: _ => false
  | .stop _ :: _ => true
  | _ :: before => stopped before

/-- Between two callbacks a whole period passes, a running timer that is stopped is left in the
state `MM_TIMER_STOPPED`, and no callback is invoked from then to the next start. -/
def TimerRight : List TimerEvent → Prop
  | [] => True
  | .callback :: before =>
      (∀ n, sinceCallback before = some n → period before ≤ n) ∧ stopped before = false ∧
        TimerRight before
  | .stop left :: before => left = .stopped ∧ TimerRight before
  | _ :: before => TimerRight before

/-- No running timer is stopped, and a timer with a period of more than one millisecond comes to its
callback once. -/
def Orderly (t : Timer) : TimerAct → Prop
  | .start _ => True
  | .stop => t.state = .stopped
  | .thread =>
      ∀ thread ∈ t.thread, thread.pc = .callback → sinceCallback t.log ≠ none →
        thread.msReset ≤ 1

instance (t : Timer) (act : TimerAct) : Decidable (Orderly t act) :=
  match act with
  | .start _ => inferInstanceAs (Decidable True)
  | .stop => inferInstanceAs (Decidable (t.state = .stopped))
  | .thread => inferInstanceAs (Decidable (∀ thread ∈ t.thread, _))

/-! ## The invariant -/

/-- Since the first callback, one iteration ends between a callback and the next. -/
def ThreadAt (log : List TimerEvent) (thread : TimerThread) : Prop :=
  match thread.pc with
  | .load => sinceCallback log = none
  | .test => thread.msReset = period log ∧
      (sinceCallback log = none ∨ sinceCallback log = some 1 ∧ thread.ms = thread.msReset)
  | .count => thread.msReset = period log ∧
      (sinceCallback log = none ∨ sinceCallback log = some 1 ∧ thread.ms = thread.msReset)
  | .callback => thread.msReset = period log ∧
      (sinceCallback log = none ∨ sinceCallback log = some 1)
  | .wait => thread.msReset = period log ∧
      (sinceCallback log = none ∨ sinceCallback log = some 0 ∧ thread.ms = thread.msReset)

/-- A timer runs exactly when it has a thread; a `stop_timer` has left every running timer as it
was. -/
structure Timer.Running (t : Timer) : Prop where
  state : t.state = .running ↔ t.thread ≠ none
  ms : t.thread ≠ none → t.ms = period t.log
  thread : ∀ thread, t.thread = some thread → ThreadAt t.log thread
  stops : ∀ left, .stop left ∈ t.log → left = .running

theorem Timer.running_new (ms : Nat) : Timer.Running { ms := ms } where
  state := by simp
  ms := by simp
  thread := by simp
  stops := by simp

variable {t u : Timer} {log : List TimerEvent}

/-- A log with a `stop` that left the timer running is not right. -/
theorem not_right_of_stop (member : .stop .running ∈ log) : ¬ TimerRight log := by
  induction log with
  | nil => cases member
  | cons event before ih =>
      intro right
      rcases List.mem_cons.mp member with rfl | earlier
      · cases right.1
      · cases event with
        | started ms => exact ih earlier right
        | iterated => exact ih earlier right
        | callback => exact ih earlier right.2.2
        | stop left => exact ih earlier right.2

theorem stop_mem_of_stopped (past : stopped log = true) : ∃ left, .stop left ∈ log := by
  induction log with
  | nil => cases past
  | cons event before ih =>
      cases event with
      | started ms => cases past
      | stop left => exact ⟨left, List.mem_cons_self⟩
      | iterated | callback =>
          obtain ⟨left, member⟩ := ih past
          exact ⟨left, List.mem_cons_of_mem _ member⟩

/-- As long as a log is right, no running timer was stopped. -/
theorem Timer.Running.not_stopped (running : t.Running) (right : TimerRight t.log) :
    stopped t.log = false := by
  cases past : stopped t.log with
  | false => rfl
  | true =>
      obtain ⟨left, member⟩ := stop_mem_of_stopped past
      obtain rfl := running.stops left member
      exact absurd right (not_right_of_stop member)

theorem Timer.Running.start (running : t.Running) (ms : Nat) :
    (startTimer t ms).Running ∧ (TimerRight (startTimer t ms).log ↔ TimerRight t.log) := by
  unfold startTimer
  split
  · refine ⟨⟨by simp, fun _ => rfl, ?_, ?_⟩, Iff.rfl⟩
    · rintro thread ⟨⟩
      rfl
    · intro left member
      exact running.stops left (by simpa using member)
  · exact ⟨running, Iff.rfl⟩

theorem Timer.Running.stop (running : t.Running) (stopping : stopTimer t = some u) :
    u.Running ∧ (TimerRight u.log ↔ TimerRight t.log ∧ t.state = .stopped) := by
  unfold stopTimer at stopping
  split at stopping
  · next rest =>
      split at stopping
      · have same : ({ t with state := .stopped } : Timer) = t := by rw [← rest]
        rw [same] at stopping
        cases stopping
        exact ⟨running, (and_iff_left rest).symm⟩
      · cases stopping
  · next runs =>
      cases stopping
      have state : t.state = .running := by
        cases here : t.state with
        | stopped => exact absurd here runs
        | running => rfl
      refine ⟨⟨running.state, running.ms, running.thread, ?_⟩, ?_⟩
      · intro left member
        rcases List.mem_cons.mp member with same | earlier
        · cases same
          exact state
        · exact running.stops left earlier
      · exact iff_of_false (fun right => runs right.1) fun both => runs both.2

/-- The thread moves on. -/
theorem Timer.Running.turn (running : t.Running) {thread thread' : TimerThread}
    (here : t.thread = some thread) (at' : ThreadAt t.log thread') :
    Timer.Running { t with thread := some thread' } where
  state := by
    have before := running.state
    simp only [here] at before
    simpa using before
  ms := fun _ => running.ms (by simp [here])
  thread := by
    rintro _ ⟨⟩
    exact at'
  stops := running.stops

/-- The thread moves on, with an event. -/
theorem Timer.Running.event (running : t.Running) {thread thread' : TimerThread}
    {event : TimerEvent} (here : t.thread = some thread)
    (same : period (event :: t.log) = period t.log) (other : ∀ left, event ≠ .stop left)
    (at' : ThreadAt (event :: t.log) thread') :
    Timer.Running { t with thread := some thread', log := event :: t.log } where
  state := by
    have before := running.state
    simp only [here] at before
    simpa using before
  ms := fun _ => (running.ms (by simp [here])).trans same.symm
  thread := by
    rintro _ ⟨⟩
    exact at'
  stops := by
    intro left member
    rcases List.mem_cons.mp member with now | earlier
    · exact absurd now.symm (other left)
    · exact running.stops left earlier

theorem Timer.Running.run (running : t.Running) (step : runTimer t = some u) :
    u.Running ∧ (TimerRight u.log ↔ TimerRight t.log ∧ Orderly t .thread) := by
  unfold runTimer at step
  cases here : t.thread with
  | none => simp [here] at step
  | some thread =>
      have stage := running.thread thread here
      have calm : thread.pc ≠ .callback → Orderly t .thread := by
        intro other thread' here' pc
        rw [here] at here'
        cases here'
        exact absurd pc other
      unfold ThreadAt at stage
      cases pc : thread.pc with
      | load =>
          simp only [pc] at stage
          simp only [here, pc] at step
          cases step
          refine ⟨running.turn here ⟨running.ms (by simp [here]), .inl stage⟩, ?_⟩
          exact (and_iff_left (calm (by simp [pc]))).symm
      | test =>
          simp only [pc] at stage
          simp only [here, pc] at step
          split at step
          · cases step
            exact ⟨running.turn here stage, (and_iff_left (calm (by simp [pc]))).symm⟩
          · cases step
      | count =>
          simp only [pc] at stage
          simp only [here, pc] at step
          cases step
          refine ⟨running.turn here ?_, (and_iff_left (calm (by simp [pc]))).symm⟩
          obtain ⟨same, none | ⟨one, full⟩⟩ := stage
          · by_cases less : thread.ms < thread.msReset
            · simp only [less, if_true]
              exact ⟨same, .inl none⟩
            · simp only [less, if_false]
              exact ⟨same, .inl none⟩
          · -- The counter stands at the period, so the next callback comes at once.
            have reached : ¬ thread.ms < thread.msReset := by omega
            simp only [reached, if_false]
            exact ⟨same, .inr one⟩
      | callback =>
          simp only [pc] at stage
          simp only [here, pc] at step
          cases step
          obtain ⟨same, since⟩ := stage
          refine ⟨running.event here rfl (by simp) ⟨same, .inr ⟨rfl, rfl⟩⟩, ?_⟩
          constructor
          · rintro ⟨passed, -, right⟩
            refine ⟨right, fun thread' here' _ some => ?_⟩
            rw [here] at here'
            cases here'
            rw [same]
            exact passed 1 (since.resolve_left some)
          · rintro ⟨right, orderly⟩
            refine ⟨fun n callback => ?_, running.not_stopped right, right⟩
            have short := orderly thread here pc (by simp [callback])
            rcases since with none | one
            · rw [none] at callback
              cases callback
            · rw [one] at callback
              cases callback
              omega
      | wait =>
          simp only [pc] at stage
          simp only [here, pc] at step
          cases step
          refine ⟨running.event here rfl (by simp) ?_, (and_iff_left (calm (by simp [pc]))).symm⟩
          obtain ⟨same, none | ⟨zero, full⟩⟩ := stage
          · exact ⟨same, .inl (by simp [sinceCallback, none])⟩
          · exact ⟨same, .inr ⟨by simp [sinceCallback, zero], full⟩⟩

/-! ## Runs -/

/-- **A timer does what it should** in a run of any number of starts, stops and steps of its thread,
in any order and with any periods, exactly when no `stop_timer` finds it running and, unless its
period is at most one millisecond, its callback is invoked once. -/
theorem timers_right_iff {ms : Nat} {acts : List TimerAct} {log : List (TimerAct × Unit)}
    (run : runCalls Timer.act { ms := ms } acts = some (t, log)) :
    TimerRight t.log ↔ MeetsAll Timer.act Orderly { ms := ms } acts := by
  have one : ∀ (t : Timer) (c : TimerAct) (u : Timer) (r : Unit), t.Running →
      t.act c = some (u, r) → u.Running ∧ (TimerRight u.log ↔ TimerRight t.log ∧ Orderly t c) := by
    intro t c u r running done
    cases c with
    | start ms =>
        cases done
        obtain ⟨after, same⟩ := running.start ms
        exact ⟨after, same.trans (and_iff_left trivial).symm⟩
    | stop =>
        obtain ⟨v, stopping, same⟩ := Option.map_eq_some_iff.mp done
        cases same
        exact running.stop stopping
    | thread =>
        obtain ⟨v, step, same⟩ := Option.map_eq_some_iff.mp done
        cases same
        exact running.run step
  have exact_run := runCalls_iff_meetsAll (P := fun t => TimerRight t.log) one
    (Timer.running_new ms) run
  exact exact_run.trans (and_iff_right trivial)

/-- A timer with a period of two milliseconds, up to its first callback. -/
def firstCallback : List TimerAct := .start 2 :: List.replicate 10 .thread

theorem timers_right_once :
    ∃ t log, runCalls Timer.act { ms := 0 } firstCallback = some (t, log) ∧
      t.log = [.callback, .iterated, .iterated, .started 2] ∧ TimerRight t.log := by
  have ran : (runCalls Timer.act { ms := 0 } firstCallback).map (fun r => r.1.log) =
      some [.callback, .iterated, .iterated, .started 2] := by decide
  obtain ⟨⟨t, log⟩, run, ends⟩ := Option.map_eq_some_iff.mp ran
  exact ⟨t, log, run, ends, (timers_right_iff run).mpr (by decide)⟩

/-- With a period of two milliseconds one iteration passes between two callbacks, and a `stop_timer`
leaves the timer running. -/
theorem timer_goes_on :
    ∃ t log, runCalls Timer.act { ms := 0 } (firstCallback ++ List.replicate 4 .thread ++ [.stop]) =
        some (t, log) ∧
      t.log = [.stop .running, .callback, .iterated, .callback, .iterated, .iterated, .started 2] ∧
      t.state = .running ∧ ¬ TimerRight t.log := by
  have ran : (runCalls Timer.act { ms := 0 }
      (firstCallback ++ List.replicate 4 .thread ++ [.stop])).map (fun r => (r.1.log, r.1.state)) =
        some ([.stop .running, .callback, .iterated, .callback, .iterated, .iterated, .started 2],
          .running) := by decide
  obtain ⟨⟨t, log⟩, run, ends⟩ := Option.map_eq_some_iff.mp ran
  simp only [Prod.mk.injEq] at ends
  refine ⟨t, log, run, ends.1, ends.2, ?_⟩
  rw [ends.1]
  exact not_right_of_stop List.mem_cons_self

end Bingewatch.Machine
