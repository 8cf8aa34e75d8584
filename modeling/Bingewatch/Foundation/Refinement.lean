import Bingewatch.Foundation.Transition

/-!
# Refinement with steps that do not match one to one

`ReachUnder.simulate` leads two systems side by side when each step of the first is one step of the
second. Here a step of the first is matched by any number of steps of the second, none included:
the second does not see what the first does in between, or the first does in one step what takes
the second several. The matching may use that the state of the second is reached, so an invariant
proved of the abstract system alone is at hand in the proof of the refinement.
-/

set_option autoImplicit false

namespace Bingewatch.Foundation.System

variable {σ τ α β : Type} {M : System σ α} {N : System τ β} {ok : σ → α → Prop}

/-- The second system goes, in any number of steps, from `t` to a state that `P` allows. -/
def Follows (N : System τ β) (t : τ) (P : τ → Prop) : Prop :=
  ∃ actions t', N.exec t actions = some t' ∧ P t'

variable {t : τ} {P : τ → Prop}

/-- The second system stays where it is. -/
theorem Follows.stay (holds : P t) : N.Follows t P := ⟨[], t, rfl, holds⟩

/-- The second system takes a step and goes on. -/
theorem Follows.step {b : β} {t' : τ} (moved : N.step t b = some t') (rest : N.Follows t' P) :
    N.Follows t P := by
  obtain ⟨actions, u, run, holds⟩ := rest
  refine ⟨b :: actions, u, ?_, holds⟩
  rw [exec, moved, Option.bind_some, run]

/-- One step is enough. -/
theorem Follows.one {b : β} {t' : τ} (moved : N.step t b = some t') (holds : P t') :
    N.Follows t P :=
  .step moved (.stay holds)

theorem Follows.imp {Q : τ → Prop} (follows : N.Follows t P) (weaker : ∀ t, P t → Q t) :
    N.Follows t Q := by
  obtain ⟨actions, u, run, holds⟩ := follows
  exact ⟨actions, u, run, weaker u holds⟩

/-- **The refinement rule.** A relation that holds at the start and is restored, after every
permitted step of the first system, by some steps of the second leads every run of the first
beside one of the second. -/
theorem ReachUnder.refines {R : σ → τ → Prop}
    (initial : ∀ s, M.start s → ∃ t, N.start t ∧ R s t)
    (follows : ∀ s a s' t, N.Reach t → R s t → ok s a → M.step s a = some s' →
      N.Follows t (R s'))
    {s : σ} (reached : M.ReachUnder ok s) : ∃ t, N.Reach t ∧ R s t := by
  induction reached with
  | start start =>
      obtain ⟨t, first, related⟩ := initial _ start
      exact ⟨t, .start first, related⟩
  | step _ permitted step ih =>
      obtain ⟨t, reach, related⟩ := ih
      obtain ⟨actions, t', run, related'⟩ := follows _ _ _ _ reach related permitted step
      exact ⟨t', reach.exec run, related'⟩

end Bingewatch.Foundation.System
