import Bingewatch.Foundation.Fairness

/-!
# Progress of a thread

The actions of one thread differ in what its environment answers, so a fair schedule tries an action
of the thread again and again, not one and the same, and what it tries has to be permitted in the
state in which its turn comes. `play_progress` is the progress rule for such a thread.

`play_stages` chains goals that stay reached: where each is reached at last once those before it
are, the last one is. `play_beside` leads the plays of two systems side by side, step by step, when
related states can take the same actions.
-/

set_option autoImplicit false

namespace Bingewatch.Foundation.System

variable {σ α : Type} {M : System σ α} {schedule : Nat → α} {s : σ}

/-- An action of a kind is tried again and again. -/
def RecursIn (schedule : Nat → α) (A : α → Prop) : Prop := ∀ n, ∃ m, n ≤ m ∧ A (schedule m)

/-- What a schedule tries is permitted when its turn comes. -/
def Permits (M : System σ α) (ok : σ → α → Prop) (s : σ) (schedule : Nat → α) : Prop :=
  ∀ n, ok (M.play s schedule n) (schedule n)

section Progress

variable {ok : σ → α → Prop} {I G : σ → Prop} {r : σ → Nat} {A : α → Prop}

/-- One permitted try reaches the goal, or keeps the invariant and does not raise the measure. -/
theorem attempt_reached_or_kept
    (kept : ∀ s b t, I s → ¬G s → ok s b → M.step s b = some t → G t ∨ I t ∧ r t ≤ r s) {a : α}
    (holds : I s) (goal : ¬G s) (permitted : ok s a) :
    G (M.attempt s a) ∨ I (M.attempt s a) ∧ r (M.attempt s a) ≤ r s := by
  unfold attempt
  cases step : M.step s a with
  | none => exact .inr ⟨holds, Nat.le_refl _⟩
  | some t => exact kept s a t holds goal permitted step

/-- **The progress rule for a thread.** Where every permitted step keeps an invariant and never
raises a measure, and every permitted action of one thread can be taken and lowers it, the goal is
reached when the thread has its turn again and again. -/
theorem play_progress
    (kept : ∀ s b t, I s → ¬G s → ok s b → M.step s b = some t → G t ∨ I t ∧ r t ≤ r s)
    (helpful : ∀ s b, I s → ¬G s → A b → ok s b →
      ∃ t, M.step s b = some t ∧ (G t ∨ I t ∧ r t < r s))
    (permits : M.Permits ok s schedule) (recurs : RecursIn schedule A) {n : Nat}
    (holds : I (M.play s schedule n)) : ∃ m, n ≤ m ∧ G (M.play s schedule m) := by
  -- Induction on the measure, and inside it on the time until the thread has its turn.
  induction same : r (M.play s schedule n) using Nat.strong_induction_on generalizing n with
  | _ bound ih =>
      obtain ⟨turn, later, kind⟩ := recurs n
      have until_turn : ∀ k, n ≤ k → k ≤ turn → (∃ m, n ≤ m ∧ G (M.play s schedule m)) ∨
          I (M.play s schedule k) ∧ r (M.play s schedule k) ≤ bound := by
        intro k from_n
        induction k, from_n using Nat.le_induction with
        | base => exact fun _ => .inr ⟨holds, Nat.le_of_eq same⟩
        | succ k from_n ihk =>
            intro within
            rcases ihk (Nat.le_of_succ_le within) with reached | ⟨inv, less⟩
            · exact .inl reached
            · by_cases goal : G (M.play s schedule k)
              · exact .inl ⟨k, from_n, goal⟩
              · rcases attempt_reached_or_kept kept inv goal (permits k) with
                  reached | ⟨inv', less'⟩
                · exact .inl ⟨k + 1, Nat.le_succ_of_le from_n, reached⟩
                · exact .inr ⟨inv', Nat.le_trans less' less⟩
      rcases until_turn turn later (Nat.le_refl turn) with reached | ⟨inv, less⟩
      · exact reached
      · by_cases goal : G (M.play s schedule turn)
        · exact ⟨turn, later, goal⟩
        · obtain ⟨t, step, lowered⟩ := helpful _ _ inv goal kind (permits turn)
          have moved : M.play s schedule (turn + 1) = t := by
            simp only [play, attempt, step, Option.getD_some]
          rcases lowered with reached | ⟨inv', lower⟩
          · exact ⟨turn + 1, Nat.le_succ_of_le later, moved ▸ reached⟩
          · obtain ⟨m, after, reached⟩ :=
              ih (r t) (Nat.lt_of_lt_of_le lower less) (moved.symm ▸ inv') (by rw [moved])
            exact ⟨m, Nat.le_trans (Nat.le_succ_of_le later) after, reached⟩

end Progress

/-- **Stages.** Each goal stays reached, and is reached at last once all goals before it are. -/
theorem play_stages {G : Nat → σ → Prop} {first count : Nat}
    (stays : ∀ j n m, G j (M.play s schedule n) → n ≤ m → G j (M.play s schedule m))
    (next : ∀ j < count, ∀ n, first ≤ n → (∀ k < j, G k (M.play s schedule n)) →
      ∃ m, n ≤ m ∧ G j (M.play s schedule m)) :
    ∃ m, first ≤ m ∧ ∀ j < count, G j (M.play s schedule m) := by
  induction count with
  | zero => exact ⟨first, Nat.le_refl first, fun j below => absurd below (Nat.not_lt_zero j)⟩
  | succ count ih =>
      obtain ⟨n, from_first, before⟩ := ih fun j below => next j (Nat.lt_succ_of_lt below)
      obtain ⟨m, later, last⟩ := next count (Nat.lt_succ_self count) n from_first before
      refine ⟨m, Nat.le_trans from_first later, fun j below => ?_⟩
      rcases Nat.lt_succ_iff_lt_or_eq.mp below with earlier | rfl
      · exact stays j n m (before j earlier) later
      · exact last

/-- Two systems whose related states can take the same actions, and stay related, play side by
side. -/
theorem play_beside {τ : Type} {N : System τ α} {R : σ → τ → Prop} {t : τ}
    (one : ∀ s t a, R s t → Option.Rel R (M.step s a) (N.step t a)) (related : R s t) (n : Nat) :
    R (M.play s schedule n) (N.play t schedule n) := by
  induction n with
  | zero => exact related
  | succ n ih =>
      have stepped := one _ _ (schedule n) ih
      simp only [play, attempt]
      cases left : M.step (M.play s schedule n) (schedule n) with
      | none =>
          rw [left] at stepped
          cases right : N.step (N.play t schedule n) (schedule n) with
          | none => exact ih
          | some t' =>
              rw [right] at stepped
              cases stepped
      | some s' =>
          rw [left] at stepped
          cases right : N.step (N.play t schedule n) (schedule n) with
          | none =>
              rw [right] at stepped
              cases stepped
          | some t' =>
              rw [right] at stepped
              cases stepped with
              | some related => exact related

/-- A schedule that starts with a permitted run, after which nothing moves, tries what is
permitted. -/
theorem permits_of_run {ok : σ → α → Prop} [∀ s a, Decidable (ok s a)] {run : List α} {t : σ}
    (begins : ∀ n < run.length, run[n]? = some (schedule n))
    (runs : M.execUnder ok s run = some t) (still : ∀ a, M.step t a = none)
    (rest : ∀ n, run.length ≤ n → ok t (schedule n)) : M.Permits ok s schedule := by
  have along : ∀ n, n ≤ run.length →
      M.execUnder ok (M.play s schedule n) (run.drop n) = some t := by
    intro n within
    induction n with
    | zero => exact runs
    | succ n ih =>
        have here := ih (Nat.le_of_succ_le within)
        obtain ⟨below, next⟩ := List.getElem?_eq_some_iff.mp (begins n within)
        rw [List.drop_eq_getElem_cons below, next] at here
        simp only [execUnder] at here
        split at here
        · obtain ⟨u, step, here⟩ := Option.bind_eq_some_iff.mp here
          simpa only [play, attempt, step, Option.getD_some] using here
        · cases here
  have ended : ∀ n, run.length ≤ n → M.play s schedule n = t := by
    intro n later
    induction n, later using Nat.le_induction with
    | base =>
        have here := along run.length (Nat.le_refl _)
        rw [List.drop_length] at here
        exact Option.some.inj here
    | succ n _ ih => simp only [play, attempt, ih, still, Option.getD_none]
  intro n
  rcases Nat.lt_or_ge n run.length with below | later
  · have here := along n (Nat.le_of_lt below)
    obtain ⟨below, next⟩ := List.getElem?_eq_some_iff.mp (begins n below)
    rw [List.drop_eq_getElem_cons below, next] at here
    simp only [execUnder] at here
    split at here
    · next permitted => exact permitted
    · cases here
  · rw [ended n later]
    exact rest n later

end Bingewatch.Foundation.System
