import Bingewatch.Foundation.Refinement
import Mathlib.Logic.Function.Basic
import Mathlib.Tactic.ByContra

/-!
# Sections under one lock

Any number of threads share a state, part of which a lock guards. A thread is at a point of its
program, and what it does next is a plain step, a section under the lock, or the release of a lock
that it does not hold, which no program should do.

In the fine system a section takes two steps: the thread enters, when nobody is inside, and sees the
guarded part; it leaves, and writes what it has made of what it saw. In the coarse system a section
is one step. `fine_refines_coarse` is the reduction: in every run in which nobody releases a lock
that somebody holds, the threads of the fine system go beside those of the coarse one. An invariant
of the coarse system is one of the fine system, and its proof has no thread in the middle of a
section.
-/

set_option autoImplicit false

namespace Bingewatch.Foundation

/-- What a thread does next, with the point of its program behind it. A section makes the shared
state from the guarded part as it was on entry. -/
inductive Move (σ δ π : Type) where
  | plain (act : σ → Option (σ × π))
  | critical (act : δ → σ → σ × π)
  | release (next : π)

/-- The program of the threads: the guarded part of the shared state, and what thread `t` does at a
point, with a choice of its environment. Plain steps leave the guarded part alone. -/
structure Guarded (σ δ π ε : Type) where
  initial : σ
  point : Nat → π
  guarded : σ → δ
  code : Nat → π → ε → Move σ δ π
  plain_guarded : ∀ {t p e act s s' p'}, code t p e = .plain act → act s = some (s', p') →
    guarded s' = guarded s

/-- The threads when sections take two steps: the lock, the points, and for a thread inside a
section what it saw on entry. -/
structure Fine (σ δ π : Type) where
  shared : σ
  locked : Bool
  points : Nat → π
  inside : Nat → Option δ

/-- The threads when a section is one step. -/
structure Coarse (σ π : Type) where
  shared : σ
  points : Nat → π

namespace Guarded

variable {σ δ π ε : Type} (P : Guarded σ δ π ε)

/-- The step of thread `t`. A thread enters a section when the lock is free. -/
def fineStep (s : Fine σ δ π) (t : Nat) (e : ε) : Option (Fine σ δ π) :=
  match s.inside t, P.code t (s.points t) e with
  | none, .plain act =>
      (act s.shared).map fun (shared, p) =>
        { s with shared := shared, points := Function.update s.points t p }
  | none, .critical _ =>
      if s.locked then none
      else some
        { s with
          locked := true
          inside := Function.update s.inside t (some (P.guarded s.shared)) }
  | none, .release next =>
      some { s with locked := false, points := Function.update s.points t next }
  | some seen, .critical act =>
      some
        { shared := (act seen s.shared).1
          locked := false
          points := Function.update s.points t (act seen s.shared).2
          inside := Function.update s.inside t none }
  | some _, _ => none

/-- The fine system. -/
def fine : System (Fine σ δ π) (Nat × ε) where
  start s := s = ⟨P.initial, false, P.point, fun _ => none⟩
  step s := fun (t, e) => P.fineStep s t e

/-- The step of thread `t` when sections are not interrupted. -/
def coarseStep (s : Coarse σ π) (t : Nat) (e : ε) : Option (Coarse σ π) :=
  match P.code t (s.points t) e with
  | .plain act => (act s.shared).map fun (shared, p) => ⟨shared, Function.update s.points t p⟩
  | .critical act =>
      some
        ⟨(act (P.guarded s.shared) s.shared).1,
          Function.update s.points t (act (P.guarded s.shared) s.shared).2⟩
  | .release next => some ⟨s.shared, Function.update s.points t next⟩

/-- The coarse system. -/
def coarse : System (Coarse σ π) (Nat × ε) where
  start s := s = ⟨P.initial, P.point⟩
  step s := fun (t, e) => P.coarseStep s t e

/-- Nobody releases the lock from outside while somebody holds it. -/
def Sound (s : Fine σ δ π) (a : Nat × ε) : Prop :=
  ∀ next, P.code a.1 (s.points a.1) a.2 = .release next → s.inside a.1 = none → s.locked = false

instance (s : Fine σ δ π) (a : Nat × ε) : Decidable (P.Sound s a) :=
  match found : P.code a.1 (s.points a.1) a.2 with
  | .plain _ => isTrue fun next same => by rw [found] at same; cases same
  | .critical _ => isTrue fun next same => by rw [found] at same; cases same
  | .release next =>
      decidable_of_iff (s.inside a.1 = none → s.locked = false)
        ⟨fun sound next same => sound, fun sound => sound next found⟩

/-- A thread inside holds the lock alone and has seen the guarded part as it still is. -/
def Exclusive (s : Fine σ δ π) : Prop :=
  ∀ t seen, s.inside t = some seen →
    s.locked = true ∧ seen = P.guarded s.shared ∧ ∀ other, s.inside other ≠ none → other = t

/-- The fine threads are where the coarse ones are. -/
structure Beside (s : Fine σ δ π) (c : Coarse σ π) : Prop where
  exclusive : P.Exclusive s
  shared : c.shared = s.shared
  points : c.points = s.points

variable {P} {s s' : Fine σ δ π} {t : Nat} {e : ε}

/-- A thread outside leaves the others inside alone as long as the guarded part stays. -/
theorem Exclusive.outside (exclusive : P.Exclusive s) (inside : s'.inside = s.inside)
    (locked : s.locked = true → s'.locked = true)
    (guarded : P.guarded s'.shared = P.guarded s.shared) : P.Exclusive s' := by
  intro t seen has
  rw [inside] at has
  obtain ⟨held, same, alone⟩ := exclusive t seen has
  refine ⟨locked held, same.trans guarded.symm, fun other has => alone other ?_⟩
  rwa [inside] at has

/-- A thread that enters finds nobody inside. -/
theorem Exclusive.enter (exclusive : P.Exclusive s) (free : s.locked = false) :
    P.Exclusive
      { s with
        locked := true
        inside := Function.update s.inside t (some (P.guarded s.shared)) } := by
  have nobody : ∀ other, s.inside other = none := by
    intro other
    cases has : s.inside other with
    | none => rfl
    | some seen => exact absurd ((exclusive other seen has).1.symm.trans free) (by simp)
  have only : ∀ other, Function.update s.inside t (some (P.guarded s.shared)) other ≠ none →
      other = t := by
    intro other has
    by_contra different
    exact has (by rw [Function.update_of_ne different, nobody])
  intro other seen has
  obtain rfl : other = t := only other (fun outside => by cases has.symm.trans outside)
  obtain rfl : P.guarded s.shared = seen := by simpa using has
  exact ⟨rfl, rfl, only⟩

/-- A thread that leaves was alone. -/
theorem Exclusive.leave (exclusive : P.Exclusive s) {seen : δ} (has : s.inside t = some seen)
    {shared : σ} {points : Nat → π} :
    P.Exclusive
      { shared := shared
        locked := false
        points := points
        inside := Function.update s.inside t none } := by
  intro other seen' has'
  by_cases here : other = t
  · simp [here] at has'
  · have inside : s.inside other = some seen' := by simpa [Function.update_of_ne here] using has'
    exact absurd ((exclusive t seen has).2.2 other (by simp [inside])) here

/-- **One step of the fine system** is one step of the coarse system, or none when a thread
enters. -/
theorem Beside.step {c : Coarse σ π} (beside : P.Beside s c) (sound : P.Sound s (t, e))
    (moved : P.fineStep s t e = some s') : P.coarse.Follows c (P.Beside s') := by
  obtain ⟨shared, points⟩ := c
  obtain ⟨exclusive, rfl, rfl⟩ := beside
  unfold fineStep at moved
  split at moved
  · next act outside plain =>
      obtain ⟨⟨shared, p⟩, done, rfl⟩ := Option.map_eq_some_iff.mp moved
      have same : P.coarseStep ⟨s.shared, s.points⟩ t e =
          some ⟨shared, Function.update s.points t p⟩ := by
        simp [coarseStep, plain, done]
      refine .one (b := (t, e)) same ⟨?_, rfl, rfl⟩
      exact exclusive.outside rfl id (P.plain_guarded plain done)
  · next act outside critical =>
      split at moved
      · cases moved
      · next free =>
          cases moved
          exact .stay ⟨exclusive.enter (by simpa using free), rfl, rfl⟩
  · next next outside released =>
      cases moved
      have free := sound next released outside
      have same : P.coarseStep ⟨s.shared, s.points⟩ t e =
          some ⟨s.shared, Function.update s.points t next⟩ := by
        simp [coarseStep, released]
      refine .one (b := (t, e)) same ⟨?_, rfl, rfl⟩
      exact exclusive.outside rfl (fun held => absurd (held.symm.trans free) (by simp)) rfl
  · next seen act has critical =>
      cases moved
      obtain ⟨-, rfl, -⟩ := exclusive t seen has
      have same : P.coarseStep ⟨s.shared, s.points⟩ t e =
          some ⟨(act (P.guarded s.shared) s.shared).1,
            Function.update s.points t (act (P.guarded s.shared) s.shared).2⟩ := by
        simp [coarseStep, critical]
      exact .one (b := (t, e)) same ⟨exclusive.leave has, rfl, rfl⟩
  · cases moved

/-- **The reduction.** In every run in which nobody releases a lock that somebody holds, the
threads are where a run of the coarse system leads them. -/
theorem fine_refines_coarse (reached : P.fine.ReachUnder P.Sound s) :
    ∃ c, P.coarse.Reach c ∧ P.Beside s c := by
  refine reached.refines ?_ ?_
  · rintro s rfl
    have nobody : P.Exclusive ⟨P.initial, false, P.point, fun _ => none⟩ := by
      intro t seen has
      cases has
    exact ⟨⟨P.initial, P.point⟩, rfl, nobody, rfl, rfl⟩
  · rintro s ⟨t, e⟩ s' c - beside sound moved
    exact beside.step sound moved

/-- An invariant of the coarse system holds of the fine one. -/
theorem fine_invariant {I : Coarse σ π → Prop} (initial : I ⟨P.initial, P.point⟩)
    (preserved : ∀ c t e c', I c → P.coarseStep c t e = some c' → I c')
    (reached : P.fine.ReachUnder P.Sound s) : I ⟨s.shared, s.points⟩ := by
  obtain ⟨c, reach, beside⟩ := fine_refines_coarse reached
  have holds : I c := by
    refine reach.invariant ?_ ?_
    · rintro c rfl
      exact initial
    · rintro c ⟨t, e⟩ c' holds - moved
      exact preserved c t e c' holds moved
  obtain ⟨shared, points⟩ := c
  obtain ⟨-, rfl, rfl⟩ := beside
  exact holds

end Guarded

end Bingewatch.Foundation
