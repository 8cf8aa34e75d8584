import Bingewatch.Foundation.Transition
import Bingewatch.Machine.Descriptor

/-!
# Disabling a direction

`machine_disable_read` and `machine_disable_write` set the state of a side of a descriptor to
`IO_DESC_DISABLING`, after which `machine_desc_read` and `machine_desc_write` no longer come to its
filters (`src/machine.c`). A descriptor may have only one side: an SDR channel has no write side.

`machine_disable_read` looks for the write side where it should look for the read side, so it leaves
a descriptor without a write side as it is. `disabled_stays_silent_iff` says exactly when a
direction that was disabled stays silent.
-/

set_option autoImplicit false

namespace Bingewatch.Machine

open Foundation

/-- The two directions of a descriptor. -/
inductive IoSide where
  | read
  | write
  deriving DecidableEq, Repr

/-- The states of the sides that a registered descriptor has. Each side has its filters:
`machine_register_desc` has stored the handle in the first of them. -/
structure IoDescriptor where
  ioRead : Option IoDescState
  ioWrite : Option IoDescState
  deriving DecidableEq, Repr

/-- What a call of the filters ends with: the status, the bytes, and the sides that a filter has
disabled meanwhile; filters set no other state. -/
structure FilterAnswer where
  status : IoStatus
  bytes : Nat
  disables : List IoSide := []
  deriving DecidableEq, Repr

namespace IoDescriptor

def state (d : IoDescriptor) : IoSide → Option IoDescState
  | .read => d.ioRead
  | .write => d.ioWrite

/-- `io_desc_set_state` of a side that is there. -/
def setState (d : IoDescriptor) (side : IoSide) (new : IoDescState) : IoDescriptor :=
  match side with
  | .read => { d with ioRead := d.ioRead.map fun _ => new }
  | .write => { d with ioWrite := d.ioWrite.map fun _ => new }

/-- A call of the filters of a side: their answer, and that they were called. -/
def callFilters (d : IoDescriptor) (answer : FilterAnswer) :
    Option (IoDescriptor × IoStatus × Nat × Bool) :=
  some (answer.disables.foldl (fun d side => d.setState side .disabling) d, answer.status,
    answer.bytes, true)

/-- `machine_desc_read`, with the bytes it reports and whether it has called the filters. -/
def machineDescRead (d : IoDescriptor) (bytes : Nat) (answer : FilterAnswer) :
    Option (IoDescriptor × IoStatus × Nat × Bool) :=
  machineDescIo ioRead (fun d new => d.setState .read new) (0, false) (bytes, false)
    (fun d => d.callFilters answer) d

/-- `machine_desc_write`. -/
def machineDescWrite (d : IoDescriptor) (bytes : Nat) (answer : FilterAnswer) :
    Option (IoDescriptor × IoStatus × Nat × Bool) :=
  machineDescIo ioWrite (fun d new => d.setState .write new) (0, false) (bytes, false)
    (fun d => d.callFilters answer) d

/-- `machine_disable_read`, which looks for the write side. Without a read side it goes on with a
null pointer. -/
def machineDisableRead (d : IoDescriptor) : Option IoDescriptor :=
  match d.ioWrite with
  | none => some d
  | some _ =>
      match d.ioRead with
      | none => none
      | some _ => some (d.setState .read .disabling)

/-- `machine_disable_write`. -/
def machineDisableWrite (d : IoDescriptor) : Option IoDescriptor :=
  match d.ioWrite with
  | none => some d
  | some _ => some (d.setState .write .disabling)

/-- `machine_stop`. -/
def machineStop (d : IoDescriptor) : IoDescriptor :=
  (d.setState .write .disabling).setState .read .disabling

/-- The function that disables a direction. -/
def disable (d : IoDescriptor) : IoSide → Option IoDescriptor
  | .read => d.machineDisableRead
  | .write => d.machineDisableWrite

end IoDescriptor

/-- A call on a descriptor; a read or a write comes with the answer that its filters give if they
are called. -/
inductive DescCall where
  | io (side : IoSide) (bytes : Nat) (answer : FilterAnswer)
  | disable (side : IoSide)
  | stop
  deriving DecidableEq, Repr

/-- What a read or a write has returned; the other calls return nothing. -/
abbrev DescResult := Option (IoStatus × Nat × Bool)

namespace IoDescriptor

def call (d : IoDescriptor) : DescCall → Option (IoDescriptor × DescResult)
  | .io .read bytes answer => (d.machineDescRead bytes answer).map fun (d, r) => (d, some r)
  | .io .write bytes answer => (d.machineDescWrite bytes answer).map fun (d, r) => (d, some r)
  | .disable side => (d.disable side).map fun d => (d, none)
  | .stop => some (d.machineStop, none)

end IoDescriptor

/-! ## Silence -/

/-- A state in which a side does not come to its filters. -/
def IoDescState.silent : IoDescState → Bool
  | .disabling => true
  | .disabled => true
  | .stopped => true
  | .enabled => false
  | .error => false

/-- A call of this direction has not come to the filters, and reports no bytes. -/
def Quiet (side : IoSide) : DescCall × DescResult → Prop
  | (.io side' _ _, some (_, bytes, called)) => side' = side → bytes = 0 ∧ called = false
  | _ => True

/-- A side in a silent state swallows the call. -/
theorem machineDescIo_silent {σ ρ : Type} {side : σ → Option IoDescState}
    {setSide : σ → IoDescState → σ} {zero unchanged : ρ} {call : σ → Option (σ × IoStatus × ρ)}
    {s s' : σ} {status : IoStatus} {report : ρ} {state : IoDescState}
    (answered : machineDescIo side setSide zero unchanged call s = some (s', status, report))
    (here : side s = some state) (silent : state.silent = true) :
    (s' = s ∨ s' = setSide s .disabled) ∧ report = zero := by
  unfold machineDescIo at answered
  cases state with
  | disabling =>
      simp only [here] at answered
      cases answered
      exact ⟨.inr rfl, rfl⟩
  | disabled | stopped =>
      simp only [here] at answered
      cases answered
      exact ⟨.inl rfl, rfl⟩
  | enabled | error => cases silent

namespace IoDescriptor

variable {d t : IoDescriptor} {side : IoSide}

def Silent (d : IoDescriptor) (side : IoSide) : Prop :=
  ∃ state, d.state side = some state ∧ state.silent = true

instance (d : IoDescriptor) (side : IoSide) : Decidable (d.Silent side) :=
  match here : d.state side with
  | none => isFalse fun silent => by
      obtain ⟨state, other, -⟩ := silent
      rw [here] at other
      cases other
  | some state =>
      decidable_of_iff (state.silent = true) <| by
        rw [Silent, here]
        simp

theorem state_setState (d : IoDescriptor) (side side' : IoSide) (new : IoDescState) :
    (d.setState side' new).state side =
      if side = side' then (d.state side).map fun _ => new else d.state side := by
  cases side <;> cases side' <;> rfl

theorem Silent.setState (silent : d.Silent side) (side' : IoSide) {new : IoDescState}
    (quiet : new.silent = true) : (d.setState side' new).Silent side := by
  obtain ⟨state, here, already⟩ := silent
  unfold Silent
  rw [state_setState, here]
  split
  · exact ⟨new, rfl, quiet⟩
  · exact ⟨state, rfl, already⟩

/-- Filters of the other side may disable this one, but not enable it. -/
theorem Silent.callFilters (silent : d.Silent side) {answer : FilterAnswer}
    {r : IoStatus × Nat × Bool} (answered : d.callFilters answer = some (t, r)) :
    t.Silent side := by
  cases answered
  generalize answer.disables = sides
  induction sides generalizing d with
  | nil => exact silent
  | cons side' sides ih => exact ih (silent.setState side' rfl)

/-- A read or write of either side. -/
theorem Silent.io (silent : d.Silent side) (side' : IoSide) {bytes : Nat} {answer : FilterAnswer}
    {status : IoStatus} {report : Nat × Bool}
    (answered : machineDescIo (fun d => d.state side') (fun d new => d.setState side' new)
      (0, false) (bytes, false) (fun d => d.callFilters answer) d = some (t, status, report)) :
    t.Silent side ∧ (side' = side → report = (0, false)) := by
  by_cases same : side' = side
  · subst same
    obtain ⟨state, here, quiet⟩ := silent
    obtain ⟨rfl | rfl, nothing⟩ := machineDescIo_silent answered here quiet
    · exact ⟨⟨state, here, quiet⟩, fun _ => nothing⟩
    · exact ⟨Silent.setState ⟨state, here, quiet⟩ _ rfl, fun _ => nothing⟩
  · refine ⟨?_, fun here => absurd here same⟩
    unfold machineDescIo at answered
    split at answered
    · cases answered
      exact silent
    · cases answered
      exact silent.setState _ rfl
    · cases answered
      exact silent
    · cases answered
      exact silent
    · exact silent.callFilters answered
    · exact silent.callFilters answered

theorem Silent.disable (silent : d.Silent side) (side' : IoSide)
    (disabled : d.disable side' = some t) : t.Silent side := by
  cases side' with
  | read =>
      simp only [IoDescriptor.disable, machineDisableRead] at disabled
      split at disabled
      · cases disabled
        exact silent
      · split at disabled
        · cases disabled
        · cases disabled
          exact silent.setState _ rfl
  | write =>
      simp only [IoDescriptor.disable, machineDisableWrite] at disabled
      split at disabled
      · cases disabled
        exact silent
      · cases disabled
        exact silent.setState _ rfl

/-- **One call** keeps a side silent. -/
theorem Silent.call {c : DescCall} {r : DescResult} (silent : d.Silent side)
    (called : d.call c = some (t, r)) : t.Silent side ∧ Quiet side (c, r) := by
  cases c with
  | io side' bytes answer =>
      have answered : ∃ status report, r = some (status, report) ∧
          machineDescIo (fun d => d.state side') (fun d new => d.setState side' new) (0, false)
            (bytes, false) (fun d => d.callFilters answer) d = some (t, status, report) := by
        cases side' with
        | read | write =>
            obtain ⟨⟨u, status, report⟩, answered, same⟩ := Option.map_eq_some_iff.mp called
            cases same
            exact ⟨status, report, rfl, answered⟩
      obtain ⟨status, report, rfl, answered⟩ := answered
      obtain ⟨still, nothing⟩ := silent.io side' answered
      refine ⟨still, fun same => ?_⟩
      have zero := nothing same
      exact ⟨congrArg Prod.fst zero, congrArg Prod.snd zero⟩
  | disable side' =>
      obtain ⟨u, disabled, same⟩ := Option.map_eq_some_iff.mp called
      cases same
      exact ⟨silent.disable side' disabled, trivial⟩
  | stop =>
      cases called
      exact ⟨(silent.setState .write rfl).setState .read rfl, trivial⟩

/-- **A run** keeps a side silent. -/
theorem Silent.run {calls : List DescCall} {log : List (DescCall × DescResult)}
    (silent : d.Silent side) (run : runCalls IoDescriptor.call d calls = some (t, log)) :
    ∀ entry ∈ log, Quiet side entry := by
  have one : ∀ (d : IoDescriptor) log c t r,
      (d.Silent side ∧ ∀ entry ∈ log, Quiet side entry) → d.call c = some (t, r) →
        t.Silent side ∧ ∀ entry ∈ log ++ [(c, r)], Quiet side entry := by
    rintro d log c t r ⟨silent, quiet⟩ called
    obtain ⟨still, now⟩ := silent.call called
    refine ⟨still, fun entry member => ?_⟩
    rcases List.mem_append.mp member with old | new
    · exact quiet entry old
    · rw [List.mem_singleton.mp new]
      exact now
  have nothing : ∀ entry ∈ ([] : List (DescCall × DescResult)), Quiet side entry := by simp
  have kept := runCalls_invariant one ⟨silent, nothing⟩ run
  simpa using kept.2

/-- A side that is not silent comes to its filters at the first call. -/
theorem loud_call (present : (d.state side).isSome) (loud : ¬ d.Silent side) (bytes : Nat)
    (answer : FilterAnswer) :
    ∃ t, d.call (.io side bytes answer) = some (t, some (answer.status, answer.bytes, true)) := by
  obtain ⟨state, here⟩ := Option.isSome_iff_exists.mp present
  have awake : state = .enabled ∨ state = .error := by
    cases state with
    | enabled => exact .inl rfl
    | error => exact .inr rfl
    | disabling | disabled | stopped => exact absurd ⟨_, here, rfl⟩ loud
  cases side with
  | read =>
      have read : d.ioRead = some state := here
      rcases awake with rfl | rfl <;>
        simp [IoDescriptor.call, machineDescRead, machineDescIo, read, IoDescriptor.callFilters]
  | write =>
      have write : d.ioWrite = some state := here
      rcases awake with rfl | rfl <;>
        simp [IoDescriptor.call, machineDescWrite, machineDescIo, write, IoDescriptor.callFilters]

/-- Disabling a direction that the descriptor has leaves it silent when there is a write side or it
was silent before. -/
theorem disable_silent_iff (present : (d.state side).isSome) :
    ∃ t, d.disable side = some t ∧ (t.state side).isSome ∧
      (t.Silent side ↔ d.ioWrite.isSome ∨ d.Silent side) := by
  obtain ⟨state, here⟩ := Option.isSome_iff_exists.mp present
  have silenced : (d.setState side .disabling).Silent side :=
    ⟨.disabling, by rw [state_setState, if_pos rfl, here]; rfl, rfl⟩
  have still : ((d.setState side .disabling).state side).isSome := by
    rw [state_setState, if_pos rfl, here]
    rfl
  cases write : d.ioWrite with
  | none =>
      cases side with
      | read => exact ⟨d, by simp [disable, machineDisableRead, write], present, by simp⟩
      | write => exact ⟨d, by simp [disable, machineDisableWrite, write], present, by simp⟩
  | some _ =>
      cases side with
      | read =>
          have read : d.ioRead = some state := here
          exact ⟨_, by simp [disable, machineDisableRead, write, read], still,
            by simp [silenced]⟩
      | write =>
          exact ⟨_, by simp [disable, machineDisableWrite, write], still, by simp [silenced]⟩

end IoDescriptor

/-! ## A disabled direction -/

/-- **A disabled direction is silent.** For every descriptor that has the side, in every state:
after the call that disables it, no sequence of reads, writes, disabling calls and stops comes to
the filters of the side again or reports bytes for it, exactly when the descriptor has a write side
or the side was silent already. -/
theorem disabled_stays_silent_iff (d : IoDescriptor) (side : IoSide)
    (present : (d.state side).isSome) :
    ∃ t, d.disable side = some t ∧
      ((∀ calls u log, runCalls IoDescriptor.call t calls = some (u, log) →
          ∀ entry ∈ log, Quiet side entry) ↔
        d.ioWrite.isSome ∨ d.Silent side) := by
  obtain ⟨t, disabled, still, silent⟩ := d.disable_silent_iff present
  refine ⟨t, disabled, ?_⟩
  rw [← silent]
  constructor
  · intro quiet
    by_contra loud
    obtain ⟨u, called⟩ := t.loud_call still loud 0 { status := .success, bytes := 0 }
    have run : runCalls IoDescriptor.call t [.io side 0 { status := .success, bytes := 0 }] =
        some (u, [(.io side 0 { status := .success, bytes := 0 }, some (.success, 0, true))]) := by
      simp [runCalls, called]
    have now := quiet _ _ _ run _ (List.mem_singleton_self _) rfl
    exact absurd now.2 (by decide)
  · exact fun silent calls u log run => silent.run run

/-- A descriptor with both sides, whose read side is disabled. -/
theorem disabled_stays_silent_both :
    ∃ t, IoDescriptor.disable { ioRead := some .enabled, ioWrite := some .enabled } .read = some t ∧
      ∀ calls u log, runCalls IoDescriptor.call t calls = some (u, log) →
        ∀ entry ∈ log, Quiet .read entry := by
  obtain ⟨t, disabled, exact⟩ :=
    disabled_stays_silent_iff { ioRead := some .enabled, ioWrite := some .enabled } .read rfl
  exact ⟨t, disabled, exact.mpr (by decide)⟩

/-- An SDR channel: its read side is disabled, and the next read still comes to the filters and
reports ten bytes. -/
theorem disabled_sdr_reads :
    ∃ t u r, IoDescriptor.disable { ioRead := some .enabled, ioWrite := none } .read = some t ∧
      t.call (.io .read 10 { status := .success, bytes := 10 }) = some (u, r) ∧
      ¬ Quiet .read (.io .read 10 { status := .success, bytes := 10 }, r) :=
  ⟨_, _, _, rfl, rfl, fun quiet => absurd (quiet rfl).2 (by decide)⟩

end Bingewatch.Machine
