import Mathlib.Logic.Relation

/-!
# Interleaved systems and their runs

A system has start states and a partial step function: the action names the thread that moves and
the choices of its environment, and a thread that cannot take the named step leaves it undefined.
A run is a sequence of actions, so every interleaving of the threads is one run.

`ReachUnder M ok s` says that `s` is reached by a run each of whose steps meets the condition `ok`
in the state before it; `Reach` puts no condition. `ReachUnder.invariant` is the induction rule:
what holds at the start and is preserved by every permitted step holds wherever a permitted run
goes; `ReachUnder.simulate` carries a relation between two systems along their runs. `exec` runs a
concrete list of actions, `execUnder` one whose steps all meet a condition.

Calls that never overlap need no threads: `runCalls` runs a list of them one after the other and
keeps a log of the calls and what they returned, and `runCalls_invariant` is the induction rule for
a property of the state and the log. `AfterEvery` says that every call of a list returns and has a
property, `MeetsAll` that every call finds its condition; `afterEvery_iff_meetsAll` is the rule for
a condition that is exactly what one call needs, and `runCalls_iff_meetsAll` the one for a property
of the state that no later call restores. `runCalls_alike` is the rule for two runs of the same
calls beside each other.
-/

set_option autoImplicit false

namespace Bingewatch.Foundation

/-- A system of threads: start states, and the effect of one action when it is enabled. -/
structure System (σ α : Type) where
  start : σ → Prop
  step : σ → α → Option σ

namespace System

variable {σ α : Type} {M : System σ α} {ok : σ → α → Prop}

/-- Reached from a start state by steps that all meet the condition. -/
inductive ReachUnder (M : System σ α) (ok : σ → α → Prop) : σ → Prop where
  | start {s : σ} (initial : M.start s) : ReachUnder M ok s
  | step {s t : σ} {a : α} (before : ReachUnder M ok s) (permitted : ok s a)
      (step : M.step s a = some t) : ReachUnder M ok t

/-- Reached by any run. -/
abbrev Reach (M : System σ α) : σ → Prop := M.ReachUnder fun _ _ => True

/-- **The invariant rule.** -/
theorem ReachUnder.invariant {I : σ → Prop} (initial : ∀ s, M.start s → I s)
    (preserved : ∀ s a t, I s → ok s a → M.step s a = some t → I t) {s : σ}
    (reached : M.ReachUnder ok s) : I s := by
  induction reached with
  | start start => exact initial _ start
  | step _ permitted step ih => exact preserved _ _ _ ih permitted step

/-- A weaker condition permits the same runs. -/
theorem ReachUnder.mono {ok' : σ → α → Prop} (weaker : ∀ s a, ok s a → ok' s a) {s : σ}
    (reached : M.ReachUnder ok s) : M.ReachUnder ok' s := by
  induction reached with
  | start initial => exact .start initial
  | step _ permitted step ih => exact .step ih (weaker _ _ permitted) step

/-- **The simulation rule.** A relation that holds at the start and can be kept at every step of
the first system by a step of the second one leads every run of the first beside one of the
second. -/
theorem ReachUnder.simulate {τ : Type} {N : System τ α} {R : σ → τ → Prop}
    (initial : ∀ s, M.start s → ∃ t, N.start t ∧ R s t)
    (follows : ∀ s a s' t, R s t → M.step s a = some s' → ∃ t', N.step t a = some t' ∧ R s' t')
    {s : σ} (reached : M.ReachUnder ok s) : ∃ t, N.Reach t ∧ R s t := by
  induction reached with
  | start start =>
      obtain ⟨t, first, related⟩ := initial _ start
      exact ⟨t, .start first, related⟩
  | step _ _ step ih =>
      obtain ⟨t, reach, related⟩ := ih
      obtain ⟨t', moved, related'⟩ := follows _ _ _ _ related step
      exact ⟨t', .step reach trivial moved, related'⟩

/-- Run a list of actions, stopping at one that is not enabled. -/
def exec (M : System σ α) : σ → List α → Option σ
  | s, [] => some s
  | s, a :: rest => (M.step s a).bind fun t => M.exec t rest

theorem exec_append {s : σ} (first second : List α) :
    M.exec s (first ++ second) = (M.exec s first).bind fun t => M.exec t second := by
  induction first generalizing s with
  | nil => rfl
  | cons a first ih =>
      simp only [List.cons_append, System.exec, Option.bind_assoc]
      congr 1
      funext t
      exact ih

theorem ReachUnder.exec {s t : σ} {actions : List α} (reached : M.Reach s)
    (run : M.exec s actions = some t) : M.Reach t := by
  induction actions generalizing s with
  | nil =>
      obtain rfl : s = t := by simpa [System.exec] using run
      exact reached
  | cons a rest ih =>
      obtain ⟨u, step, run⟩ := Option.bind_eq_some_iff.mp run
      exact ih (.step reached trivial step) run

/-- **The invariant rule for a run and what was done in it.** -/
theorem exec_invariant {I : List α → σ → Prop} {s t : σ} {actions : List α} (initial : I [] s)
    (preserved : ∀ trace s a t, I trace s → M.step s a = some t → I (trace ++ [a]) t)
    (run : M.exec s actions = some t) : I actions t := by
  suffices general : ∀ trace s, I trace s → M.exec s actions = some t → I (trace ++ actions) t by
    simpa using general [] s initial run
  clear initial run
  induction actions with
  | nil =>
      intro trace s holds run
      obtain rfl : s = t := by simpa [System.exec] using run
      simpa using holds
  | cons a rest ih =>
      intro trace s holds run
      obtain ⟨u, step, run⟩ := Option.bind_eq_some_iff.mp run
      have continued := ih (trace ++ [a]) u (preserved trace s a u holds step) run
      simpa using continued

/-- Run a list of actions, stopping at one that is not enabled or does not meet the condition. -/
def execUnder (M : System σ α) (ok : σ → α → Prop) [∀ s a, Decidable (ok s a)] :
    σ → List α → Option σ
  | s, [] => some s
  | s, a :: rest => if ok s a then (M.step s a).bind fun t => M.execUnder ok t rest else none

theorem ReachUnder.execUnder [∀ s a, Decidable (ok s a)] {s t : σ} {actions : List α}
    (reached : M.ReachUnder ok s) (run : M.execUnder ok s actions = some t) :
    M.ReachUnder ok t := by
  induction actions generalizing s with
  | nil =>
      obtain rfl : s = t := by simpa [System.execUnder] using run
      exact reached
  | cons a rest ih =>
      simp only [System.execUnder] at run
      split at run
      · next permitted =>
          obtain ⟨u, step, run⟩ := Option.bind_eq_some_iff.mp run
          exact ih (.step reached permitted step) run
      · cases run

end System

/-! ## Sequences of calls -/

section Calls

variable {σ γ ρ : Type} {call : σ → γ → Option (σ × ρ)}

/-- Run calls one after the other, with a log of the calls and their results. -/
def runCalls (call : σ → γ → Option (σ × ρ)) : σ → List γ → Option (σ × List (γ × ρ))
  | s, [] => some (s, [])
  | s, c :: calls =>
      (call s c).bind fun (t, r) => (runCalls call t calls).map fun (u, log) => (u, (c, r) :: log)

/-- **The invariant rule for calls.** -/
theorem runCalls_invariant {I : σ → List (γ × ρ) → Prop}
    (preserved : ∀ s log c t r, I s log → call s c = some (t, r) → I t (log ++ [(c, r)]))
    {s t : σ} {before log : List (γ × ρ)} {calls : List γ} (initial : I s before)
    (run : runCalls call s calls = some (t, log)) : I t (before ++ log) := by
  induction calls generalizing s before log with
  | nil =>
      obtain ⟨rfl, rfl⟩ : s = t ∧ [] = log := by simpa [runCalls] using run
      simpa using initial
  | cons c calls ih =>
      simp only [runCalls, Option.bind_eq_some_iff, Option.map_eq_some_iff] at run
      obtain ⟨⟨u, r⟩, step, ⟨v, rest⟩, run, last⟩ := run
      obtain ⟨rfl, rfl⟩ : v = t ∧ (c, r) :: rest = log := by simpa using last
      have continued := ih (preserved s before c u r initial step) run
      simpa using continued

/-- Every call returns and has the property. -/
def AfterEvery (call : σ → γ → Option (σ × ρ)) (P : σ → γ → σ → ρ → Prop) : σ → List γ → Prop
  | _, [] => True
  | s, c :: calls => ∃ t r, call s c = some (t, r) ∧ P s c t r ∧ AfterEvery call P t calls

/-- Every call finds its condition in the state before it. -/
def MeetsAll (call : σ → γ → Option (σ × ρ)) (C : σ → γ → Prop) : σ → List γ → Prop
  | _, [] => True
  | s, c :: calls => C s c ∧ ∀ t r, call s c = some (t, r) → MeetsAll call C t calls

instance decidableMeetsAll {C : σ → γ → Prop} [∀ s c, Decidable (C s c)] (s : σ) :
    (calls : List γ) → Decidable (MeetsAll call C s calls)
  | [] => isTrue trivial
  | c :: calls =>
      match called : call s c with
      | none => decidable_of_iff (C s c) (by simp [MeetsAll, called])
      | some (t, r) =>
          have := decidableMeetsAll (C := C) t calls
          decidable_of_iff (C s c ∧ MeetsAll call C t calls) (by simp [MeetsAll, called])

/-- **The rule for exact conditions.** Where a call returns, and has the property exactly under the
condition, and the condition keeps the invariant, whole sequences of calls have the property exactly
when every call finds its condition. -/
theorem afterEvery_iff_meetsAll {P : σ → γ → σ → ρ → Prop} {C : σ → γ → Prop} {I : σ → Prop}
    (exact_at : ∀ s c, I s → ∃ t r, call s c = some (t, r) ∧ (P s c t r ↔ C s c) ∧ (C s c → I t))
    {s : σ} (initial : I s) (calls : List γ) :
    AfterEvery call P s calls ↔ MeetsAll call C s calls := by
  induction calls generalizing s with
  | nil => exact Iff.rfl
  | cons c calls ih =>
      obtain ⟨t, r, called, property, keeps⟩ := exact_at s c initial
      constructor
      · rintro ⟨t', r', called', holds, later⟩
        cases called.symm.trans called'
        have condition := property.mp holds
        refine ⟨condition, fun t' r' called' => ?_⟩
        cases called.symm.trans called'
        exact (ih (keeps condition)).mp later
      · rintro ⟨condition, later⟩
        exact ⟨t, r, called, property.mpr condition,
          (ih (keeps condition)).mpr (later t r called)⟩

/-- **The rule for sufficient conditions.** Where a call that finds its condition returns, has the
property and keeps the invariant, so do whole sequences of calls that all find theirs. -/
theorem afterEvery_of_meetsAll {P : σ → γ → σ → ρ → Prop} {C : σ → γ → Prop} {I : σ → Prop}
    (enough : ∀ s c, I s → C s c → ∃ t r, call s c = some (t, r) ∧ P s c t r ∧ I t) {s : σ}
    {calls : List γ} (initial : I s) (meets : MeetsAll call C s calls) :
    AfterEvery call P s calls := by
  induction calls generalizing s with
  | nil => trivial
  | cons c calls ih =>
      obtain ⟨t, r, called, property, keeps⟩ := enough s c initial meets.1
      exact ⟨t, r, called, property, ih keeps (meets.2 t r called)⟩

/-- Calls that all return make a run, and what their property adds up to holds at its end. -/
theorem AfterEvery.run {P : σ → γ → σ → ρ → Prop} {I : σ → List γ → Prop}
    (preserved : ∀ s before c t r, I s before → P s c t r → I t (before ++ [c])) {s : σ}
    {before calls : List γ} (initial : I s before) (every : AfterEvery call P s calls) :
    ∃ t log, runCalls call s calls = some (t, log) ∧ I t (before ++ calls) := by
  induction calls generalizing s before with
  | nil => exact ⟨s, [], rfl, by simpa using initial⟩
  | cons c calls ih =>
      obtain ⟨t, r, called, property, later⟩ := every
      obtain ⟨u, log, run, final⟩ := ih (preserved s before c t r initial property) later
      refine ⟨u, (c, r) :: log, ?_, by simpa using final⟩
      simp only [runCalls, called, Option.bind_some, run, Option.map_some]

/-- **The rule for what is kept exactly under a condition.** Where every call keeps the invariant,
and the property holds after it exactly when it held before and the call found its condition, a run
keeps the property exactly when every call finds its condition. -/
theorem runCalls_iff_meetsAll {P I : σ → Prop} {C : σ → γ → Prop}
    (exact_at : ∀ s c t r, I s → call s c = some (t, r) → I t ∧ (P t ↔ P s ∧ C s c))
    {s t : σ} {log : List (γ × ρ)} {calls : List γ} (initial : I s)
    (run : runCalls call s calls = some (t, log)) : P t ↔ P s ∧ MeetsAll call C s calls := by
  induction calls generalizing s log with
  | nil =>
      obtain ⟨rfl, -⟩ : s = t ∧ [] = log := by simpa [runCalls] using run
      exact (and_iff_left trivial).symm
  | cons c calls ih =>
      simp only [runCalls, Option.bind_eq_some_iff, Option.map_eq_some_iff] at run
      obtain ⟨⟨u, r⟩, step, ⟨v, rest⟩, run, last⟩ := run
      obtain ⟨rfl, -⟩ : v = t ∧ (c, r) :: rest = log := by simpa using last
      obtain ⟨kept, property⟩ := exact_at s c u r initial step
      have meets : MeetsAll call C s (c :: calls) ↔ C s c ∧ MeetsAll call C u calls := by
        refine and_congr_right fun _ => ⟨fun later => later u r step, fun later u' r' step' => ?_⟩
        cases step.symm.trans step'
        exact later
      rw [ih kept run, property, meets, and_assoc]

/-- Along a run, a condition on the calls alone is met by every one of them. -/
theorem meetsAll_iff_forall {C : γ → Prop} {s t : σ} {log : List (γ × ρ)} {calls : List γ}
    (run : runCalls call s calls = some (t, log)) :
    MeetsAll call (fun _ => C) s calls ↔ ∀ c ∈ calls, C c := by
  induction calls generalizing s log with
  | nil => simp [MeetsAll]
  | cons c calls ih =>
      simp only [runCalls, Option.bind_eq_some_iff, Option.map_eq_some_iff] at run
      obtain ⟨⟨u, r⟩, step, ⟨v, rest⟩, run, last⟩ := run
      obtain ⟨rfl, -⟩ : v = t ∧ (c, r) :: rest = log := by simpa using last
      rw [List.forall_mem_cons, ← ih run]
      refine and_congr_right fun _ => ⟨fun later => later u r step, fun later u' r' step' => ?_⟩
      cases step.symm.trans step'
      exact later

end Calls

/-! ## Two runs beside each other -/

section Alike

variable {α β γ δ : Type} {r : α → β → Prop} {q : γ → δ → Prop} {x : Option α} {y : Option β}

theorem rel_bind {f : α → Option γ} {g : β → Option δ} (first : Option.Rel r x y)
    (second : ∀ a b, r a b → Option.Rel q (f a) (g b)) : Option.Rel q (x.bind f) (y.bind g) := by
  cases first with
  | some related => exact second _ _ related
  | none => exact .none

theorem rel_map {f : α → γ} {g : β → δ} (first : Option.Rel r x y)
    (second : ∀ a b, r a b → q (f a) (g b)) : Option.Rel q (x.map f) (y.map g) := by
  cases first with
  | some related => exact .some (second _ _ related)
  | none => exact .none

/-- Two calls both fail, or both return the same in related states. -/
def Alike {ρ : Type} (R : α → β → Prop) : Option (α × ρ) → Option (β × ρ) → Prop :=
  Option.Rel fun x y => R x.1 y.1 ∧ x.2 = y.2

/-- **The rule for two runs.** Calls that end alike from related states make runs that do. -/
theorem runCalls_alike {ρ : Type} {R : α → β → Prop} {call : α → γ → Option (α × ρ)}
    {call' : β → γ → Option (β × ρ)} (one : ∀ s t c, R s t → Alike R (call s c) (call' t c))
    {s : α} {t : β} (related : R s t) (calls : List γ) :
    Alike R (runCalls call s calls) (runCalls call' t calls) := by
  induction calls generalizing s t with
  | nil => exact .some ⟨related, rfl⟩
  | cons c calls ih =>
      refine rel_bind (one s t c related) ?_
      rintro ⟨s, result⟩ ⟨t, _⟩ ⟨related, rfl⟩
      refine rel_map (ih related) ?_
      rintro ⟨s, log⟩ ⟨t, _⟩ ⟨related, rfl⟩
      exact ⟨related, rfl⟩

end Alike

end Bingewatch.Foundation
