import Mathlib.Data.List.Basic

/-!
# Routes through branching conveyors

Hops carry items between machines: a hop reads one machine, or a source, and writes another one, and
several hops may read the same machine together, each getting all of its items. A route is a row of
hops from the source on, each of which reads what the one before it writes. What is under way along
a route (`ahead`), read from its far end back, is kept by every read and every write, so that the
far end holds a prefix of what the source held, and all of it once nothing else is under way.
-/

set_option autoImplicit false

namespace Bingewatch.Foundation

variable {η μ α : Type} {reads : η → Option μ → Prop} {writes : η → μ → Prop}

/-- A row of hops from the source to a machine, each with the machine it writes, the last first. -/
inductive Route (reads : η → Option μ → Prop) (writes : η → μ → Prop) :
    List (η × μ) → μ → Prop where
  | first {h : η} {m : μ} (source : reads h none) (out : writes h m) :
      Route reads writes [(h, m)] m
  | next {hops : List (η × μ)} {m n : μ} {h : η} (route : Route reads writes hops m)
      (input : reads h (some m)) (out : writes h n) : Route reads writes ((h, n) :: hops) n

/-- What the machines and the hops of a route hold, in the order in which it leaves at the far
end. -/
def ahead (content : μ → List α) (holds : η → List α) (hops : List (η × μ)) : List α :=
  hops.flatMap fun hop => content hop.2 ++ holds hop.1

@[simp] theorem ahead_cons (content : μ → List α) (holds : η → List α) (h : η) (m : μ)
    (hops : List (η × μ)) :
    ahead content holds ((h, m) :: hops) = content m ++ holds h ++ ahead content holds hops := rfl

@[simp] theorem ahead_nil (content : μ → List α) (holds : η → List α) :
    ahead content holds ([] : List (η × μ)) = [] := rfl

variable {content content' : μ → List α} {holds holds' : η → List α} {items : List α}

theorem ahead_nothing (empty : ∀ m, content m = []) (nothing : ∀ h, holds h = [])
    (hops : List (η × μ)) : ahead content holds hops = [] := by
  simp [ahead, empty, nothing]

/-- A route begins with a hop that reads the source. -/
theorem Route.source {hops : List (η × μ)} {o : μ} (route : Route reads writes hops o) :
    ∃ h, reads h none := by
  induction route with
  | first source out => exact ⟨_, source⟩
  | next route input out ih => exact ih

/-- What the hops and machines of a route hold is all that counts. -/
theorem Route.ahead_congr
    (same : ∀ h m, writes h m → content' m = content m ∧ holds' h = holds h)
    {hops : List (η × μ)} {o : μ} (route : Route reads writes hops o) :
    ahead content' holds' hops = ahead content holds hops := by
  induction route with
  | first source out => rw [ahead_cons, ahead_cons, (same _ _ out).1, (same _ _ out).2]; rfl
  | next route input out ih => rw [ahead_cons, ahead_cons, (same _ _ out).1, (same _ _ out).2, ih]

/-- **A write** of the hop `h` to its machine. -/
theorem Route.ahead_write {h : η} {m : μ} (back : content' m = content m ++ items)
    (front : holds h = items ++ holds' h) (contents : ∀ n, n ≠ m → content' n = content n)
    (others : ∀ g, g ≠ h → holds' g = holds g) (only : ∀ g n, writes g n → (g = h ↔ n = m))
    {hops : List (η × μ)} {o : μ} (route : Route reads writes hops o) :
    ahead content' holds' hops = ahead content holds hops := by
  have hop : ∀ g n, writes g n → content' n ++ holds' g = content n ++ holds g := by
    intro g n out
    by_cases same : g = h
    · obtain rfl := same
      obtain rfl := (only g n out).mp rfl
      rw [back, front, List.append_assoc]
    · rw [others g same, contents n fun at_ => same ((only g n out).mpr at_)]
  induction route with
  | first source out => rw [ahead_cons, ahead_cons, hop _ _ out]; rfl
  | next route input out ih => rw [ahead_cons, ahead_cons, hop _ _ out, ih]

/-- **A read of the source** by all hops that read it. -/
theorem Route.ahead_source {source source' : List α} (front : source = items ++ source')
    (begins : ∀ h, reads h none → holds h = [] ∧ holds' h = items)
    (others : ∀ h m, reads h (some m) → holds' h = holds h) {hops : List (η × μ)} {o : μ}
    (route : Route reads writes hops o) :
    ahead content holds' hops ++ source' = ahead content holds hops ++ source := by
  induction route with
  | first reading out =>
      rw [ahead_cons, ahead_cons, (begins _ reading).1, (begins _ reading).2, front]
      simp
  | next route input out ih =>
      rw [ahead_cons, ahead_cons, others _ _ input, List.append_assoc, ih, ← List.append_assoc]

/-- **A read of a machine** by all hops that read it. The items leave a route that ends there. -/
theorem Route.ahead_read {r : μ} (front : content r = items ++ content' r)
    (contents : ∀ m, m ≠ r → content' m = content m)
    (begins : ∀ h, reads h (some r) → holds h = [] ∧ holds' h = items)
    (others : ∀ h m, reads h m → m ≠ some r → holds' h = holds h) {hops : List (η × μ)} {o : μ}
    (route : Route reads writes hops o) :
    (o = r → ahead content holds hops = items ++ ahead content' holds' hops) ∧
      (o ≠ r → ahead content' holds' hops = ahead content holds hops) := by
  induction route with
  | first reading out =>
      rw [ahead_cons, ahead_cons, others _ _ reading (by simp)]
      refine ⟨?_, fun other => by rw [contents _ other]; rfl⟩
      rintro rfl
      rw [front]
      simp
  | @next hops m n h route input out ih =>
      -- What the hop and the route before it hold is kept, whether or not it reads at `r`.
      have before : holds h ++ ahead content holds hops =
          holds' h ++ ahead content' holds' hops := by
        by_cases here : m = r
        · obtain rfl := here
          rw [(begins h input).1, (begins h input).2, ih.1 rfl, List.nil_append]
        · rw [others h _ input (by simpa using here), ih.2 here]
      rw [ahead_cons, ahead_cons, List.append_assoc, List.append_assoc, before]
      refine ⟨?_, fun other => by rw [contents _ other]⟩
      rintro rfl
      rw [front, List.append_assoc]

/-- What the far end holds leaves first. -/
theorem Route.prefix_ahead {hops : List (η × μ)} {o : μ} (route : Route reads writes hops o) :
    content o <+: ahead content holds hops := by
  cases route with
  | first source out => exact ⟨_, (List.append_assoc _ _ _).symm⟩
  | next route input out => exact ⟨_, (List.append_assoc _ _ _).symm⟩

/-- Once the hops and the machines that are read hold nothing, the far end has everything. -/
theorem Route.ahead_drained (nothing : ∀ h m, writes h m → holds h = [])
    (empty : ∀ h m, reads h (some m) → content m = []) {hops : List (η × μ)} {o : μ}
    (route : Route reads writes hops o) : ahead content holds hops = content o := by
  induction route with
  | first source out => simp [nothing _ _ out]
  | next route input out ih => simp [nothing _ _ out, ih, empty _ _ input]

end Bingewatch.Foundation
