import Bingewatch.Foundation.Transition
import Mathlib.Data.Nat.Init

/-!
# Fair schedules

A schedule names at every moment the action that is tried next; one that is not enabled then leaves
the state alone. An action that a schedule tries again and again (`Recurs`) is taken at last once it
stays enabled, which is all that fairness gives to a thread that does not wait for others.

`play_eventually` is the progress rule: where every step keeps an invariant and never raises a
measure, and one recurring action is always enabled and lowers it, the goal is reached.
`play_eventually_all` joins finitely many goals that stay reached.
-/

set_option autoImplicit false

namespace Bingewatch.Foundation.System

variable {σ α : Type} {M : System σ α} {schedule : Nat → α} {s : σ}

/-- Try an action. -/
def attempt (M : System σ α) (s : σ) (a : α) : σ := (M.step s a).getD s

/-- The state after the first actions of a schedule. -/
def play (M : System σ α) (s : σ) (schedule : Nat → α) : Nat → σ
  | 0 => s
  | n + 1 => M.attempt (M.play s schedule n) (schedule n)

/-- The action is tried again and again. -/
def Recurs (schedule : Nat → α) (a : α) : Prop := ∀ n, ∃ m, n ≤ m ∧ schedule m = a

theorem attempt_kept {P : σ → Prop} (kept : ∀ s a t, P s → M.step s a = some t → P t) (a : α)
    (holds : P s) : P (M.attempt s a) := by
  unfold attempt
  cases step : M.step s a with
  | none => exact holds
  | some t => exact kept s a t holds step

/-- What every step keeps stays. -/
theorem play_kept {P : σ → Prop} (kept : ∀ s a t, P s → M.step s a = some t → P t) {n : Nat}
    (holds : P (M.play s schedule n)) {m : Nat} (later : n ≤ m) : P (M.play s schedule m) := by
  induction m, later using Nat.le_induction with
  | base => exact holds
  | succ m _ ih => exact attempt_kept kept _ ih

section Progress

variable {I G : σ → Prop} {r : σ → Nat} {a : α}

/-- Until the goal is reached the invariant holds and the measure has not grown. -/
theorem play_reached_or_kept
    (kept : ∀ s b t, I s → ¬G s → M.step s b = some t → G t ∨ I t ∧ r t ≤ r s) {n : Nat}
    (holds : I (M.play s schedule n)) {m : Nat} (later : n ≤ m) :
    (∃ k, n ≤ k ∧ G (M.play s schedule k)) ∨
      I (M.play s schedule m) ∧ r (M.play s schedule m) ≤ r (M.play s schedule n) := by
  induction m, later using Nat.le_induction with
  | base => exact .inr ⟨holds, Nat.le_refl _⟩
  | succ m within ih =>
      rcases ih with reached | ⟨inv, bound⟩
      · exact .inl reached
      · by_cases goal : G (M.play s schedule m)
        · exact .inl ⟨m, within, goal⟩
        · simp only [play, attempt]
          cases step : M.step (M.play s schedule m) (schedule m) with
          | none => exact .inr ⟨inv, bound⟩
          | some t =>
              rcases kept _ _ _ inv goal step with reached | ⟨inv', less⟩
              · refine .inl ⟨m + 1, Nat.le_succ_of_le within, ?_⟩
                simpa only [play, attempt, step, Option.getD_some] using reached
              · exact .inr ⟨inv', Nat.le_trans less bound⟩

/-- **The progress rule.** -/
theorem play_eventually
    (kept : ∀ s b t, I s → ¬G s → M.step s b = some t → G t ∨ I t ∧ r t ≤ r s)
    (helpful : ∀ s, I s → ¬G s → ∃ t, M.step s a = some t ∧ (G t ∨ I t ∧ r t < r s))
    (recurs : Recurs schedule a) {n : Nat} (holds : I (M.play s schedule n)) :
    ∃ m, n ≤ m ∧ G (M.play s schedule m) := by
  -- Induction on the measure: the next try of the helpful action lowers it or reaches the goal.
  induction same : r (M.play s schedule n) using Nat.strong_induction_on generalizing n with
  | _ bound ih =>
      obtain ⟨m, later, tried⟩ := recurs n
      rcases play_reached_or_kept kept holds later with reached | ⟨inv, grown⟩
      · exact reached
      · by_cases goal : G (M.play s schedule m)
        · exact ⟨m, later, goal⟩
        · obtain ⟨t, step, lowered⟩ := helpful _ inv goal
          have moved : M.play s schedule (m + 1) = t := by
            simp only [play, attempt, tried, step, Option.getD_some]
          rcases lowered with reached | ⟨inv', less⟩
          · exact ⟨m + 1, Nat.le_succ_of_le later, moved ▸ reached⟩
          · obtain ⟨k, after, reached⟩ :=
              ih (r t) (by omega) (moved.symm ▸ inv') (by rw [moved])
            exact ⟨k, by omega, reached⟩

end Progress

/-- Goals that stay reached, each reached at last, are all reached at last. -/
theorem play_eventually_all {G : Nat → σ → Prop} {count : Nat}
    (stays : ∀ j s a t, G j s → M.step s a = some t → G j t)
    (each : ∀ j < count, ∃ m, G j (M.play s schedule m)) :
    ∃ m, ∀ j < count, G j (M.play s schedule m) := by
  induction count with
  | zero => exact ⟨0, fun j below => absurd below (Nat.not_lt_zero j)⟩
  | succ count ih =>
      obtain ⟨m, all⟩ := ih fun j below => each j (Nat.lt_succ_of_lt below)
      obtain ⟨m', last⟩ := each count (Nat.lt_succ_self count)
      refine ⟨max m m', fun j below => ?_⟩
      rcases Nat.lt_succ_iff_lt_or_eq.mp below with before | rfl
      · exact play_kept (stays j) (all j before) (Nat.le_max_left m m')
      · exact play_kept (stays j) last (Nat.le_max_right m m')

end Bingewatch.Foundation.System
