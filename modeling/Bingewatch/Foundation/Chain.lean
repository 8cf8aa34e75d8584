import Mathlib.Data.List.Basic
import Mathlib.Data.List.Nodup
import Mathlib.Data.List.Perm.Subperm
import Mathlib.Logic.Function.Iterate

/-!
# Pointer chains

A successor function on nodes, as a linked list or a ring of descriptors stores it, is read
here along finite paths. `Chain next a l b` says that following `next` from `a` visits exactly
the nodes of `l`, in this order, and then stands at `b`.

Chains compose and split at any point (`chain_append`), depend only on the successors of the
nodes they visit (`Chain.congr`), and lead from a node to itself exactly when the node lies on a
ring; the nodes of such a ring are the nodes reachable from any of them (`Chain.mem_iff_iterate`).

Two changes of the successors make longer chains: giving the last node of one chain a successor
joins it to another (`Chain.join`), and a node can be put behind any node of a chain
(`Chain.splice`).
-/

set_option autoImplicit false

namespace Bingewatch.Foundation

variable {α : Type} {next next' : α → α}

/-- Following `next` from the first node visits the listed nodes and arrives at the last. -/
def Chain (next : α → α) : α → List α → α → Prop
  | a, [], b => a = b
  | a, x :: l, b => a = x ∧ Chain next (next x) l b

@[simp] theorem chain_nil {a b : α} : Chain next a [] b ↔ a = b := Iff.rfl

@[simp] theorem chain_cons {a x b : α} {l : List α} :
    Chain next a (x :: l) b ↔ a = x ∧ Chain next (next x) l b := Iff.rfl

/-- A chain splits at every point of its list. -/
theorem chain_append {a c : α} {l l' : List α} :
    Chain next a (l ++ l') c ↔ ∃ b, Chain next a l b ∧ Chain next b l' c := by
  induction l generalizing a with
  | nil => simp
  | cons x l ih =>
      simp only [List.cons_append, chain_cons, ih]
      constructor
      · rintro ⟨rfl, b, first, second⟩
        exact ⟨b, ⟨rfl, first⟩, second⟩
      · rintro ⟨b, ⟨rfl, first⟩, second⟩
        exact ⟨rfl, b, first, second⟩

/-- The last node of a chain points to its end. -/
theorem chain_concat {a x c : α} {l : List α} :
    Chain next a (l ++ [x]) c ↔ Chain next a l x ∧ next x = c := by
  rw [chain_append]
  constructor
  · rintro ⟨b, first, rfl, rfl⟩
    exact ⟨first, rfl⟩
  · rintro ⟨first, rfl⟩
    exact ⟨x, first, rfl, rfl⟩

/-- A chain depends only on the successors of the nodes it visits. -/
theorem Chain.congr {a b : α} {l : List α} (chain : Chain next a l b)
    (agree : ∀ x ∈ l, next' x = next x) : Chain next' a l b := by
  induction l generalizing a with
  | nil => exact chain
  | cons x l ih =>
      obtain ⟨rfl, rest⟩ := chain
      refine ⟨rfl, ?_⟩
      rw [agree a (List.mem_cons_self ..)]
      exact ih rest fun y member => agree y (List.mem_cons_of_mem _ member)

/-- Appending one visited node to a chain. -/
theorem Chain.snoc {a x : α} {l : List α} (chain : Chain next a l x) :
    Chain next a (l ++ [x]) (next x) :=
  chain_concat.mpr ⟨chain, rfl⟩

theorem Chain.trans {a b c : α} {l l' : List α} (first : Chain next a l b)
    (second : Chain next b l' c) : Chain next a (l ++ l') c :=
  chain_append.mpr ⟨b, first, second⟩

/-- Of two chains from one node, one continues the other. -/
theorem Chain.compare {a b c : α} {l l' : List α} (first : Chain next a l b)
    (second : Chain next a l' c) :
    (∃ t, l' = l ++ t ∧ Chain next b t c) ∨ ∃ t, l = l' ++ t ∧ Chain next c t b := by
  induction l generalizing a l' with
  | nil =>
      obtain rfl : a = b := first
      exact .inl ⟨l', rfl, second⟩
  | cons x l ih =>
      obtain ⟨rfl, first⟩ := first
      cases l' with
      | nil =>
          obtain rfl : a = c := second
          exact .inr ⟨a :: l, rfl, rfl, first⟩
      | cons y l' =>
          obtain ⟨rfl, second⟩ := second
          rcases ih first second with ⟨t, rfl, rest⟩ | ⟨t, rfl, rest⟩
          · exact .inl ⟨t, rfl, rest⟩
          · exact .inr ⟨t, rfl, rest⟩

/-- A non-empty chain starts at its first node. -/
theorem Chain.start_eq_head {a b x : α} {l : List α} (chain : Chain next a (x :: l) b) :
    a = x := chain.1

theorem Chain.start_mem {a b : α} {l : List α} (chain : Chain next a l b) (nonempty : l ≠ []) :
    a ∈ l := by
  cases l with
  | nil => exact absurd rfl nonempty
  | cons x l => exact chain.1 ▸ List.mem_cons_self ..

/-- A chain lists the iterates of the successor. -/
theorem Chain.iterate_getElem {a b : α} {l : List α} (chain : Chain next a l b) {i : Nat}
    (within : i < l.length) : next^[i] a = l[i] := by
  induction l generalizing a i with
  | nil => exact absurd within (Nat.not_lt_zero i)
  | cons x l ih =>
      obtain ⟨rfl, rest⟩ := chain
      cases i with
      | zero => rfl
      | succ i => exact ih rest (Nat.lt_of_succ_lt_succ within)

/-- As many steps as a chain has nodes lead to its end. -/
theorem Chain.iterate_length {a b : α} {l : List α} (chain : Chain next a l b) :
    next^[l.length] a = b := by
  induction l generalizing a with
  | nil => exact chain
  | cons x l ih =>
      obtain ⟨rfl, rest⟩ := chain
      exact ih rest

/-- Every visited node is reached by iterating the successor. -/
theorem Chain.exists_iterate_of_mem {a b x : α} {l : List α} (chain : Chain next a l b)
    (member : x ∈ l) : ∃ k, next^[k] a = x := by
  obtain ⟨i, within, rfl⟩ := List.getElem_of_mem member
  exact ⟨i, chain.iterate_getElem within⟩

/-- The successor of a node of a chain is a node of it, or its end. -/
theorem Chain.next_mem_or {a b x : α} {l : List α} (chain : Chain next a l b) (member : x ∈ l) :
    next x ∈ l ∨ next x = b := by
  obtain ⟨before, after, rfl⟩ := List.append_of_mem member
  obtain ⟨_, _, rfl, rest⟩ := chain_append.mp chain
  cases after with
  | nil => exact .inr rest
  | cons y after =>
      left
      rw [rest.start_eq_head]
      simp

/-- The nodes of a chain from a node to itself are closed under the successor. -/
theorem Chain.next_mem {a x : α} {l : List α} (ring : Chain next a l a) (member : x ∈ l) :
    next x ∈ l := by
  rcases ring.next_mem_or member with inside | last
  · exact inside
  · rw [last]
    exact ring.start_mem (List.ne_nil_of_mem member)

/-- **The nodes of a ring are the nodes reachable from its start.** -/
theorem Chain.mem_iff_iterate {a x : α} {l : List α} (ring : Chain next a l a)
    (nonempty : l ≠ []) : x ∈ l ↔ ∃ k, next^[k] a = x := by
  refine ⟨ring.exists_iterate_of_mem, ?_⟩
  rintro ⟨k, rfl⟩
  induction k with
  | zero => exact ring.start_mem nonempty
  | succ k ih =>
      rw [Function.iterate_succ_apply']
      exact ring.next_mem ih

/-- A ring goes through the same nodes from each of them. -/
theorem Chain.rotate {a x : α} {l : List α} (ring : Chain next a l a) (member : x ∈ l) :
    ∃ rest, Chain next x (x :: rest) x ∧ (x :: rest).Perm l := by
  obtain ⟨before, after, rfl⟩ := List.append_of_mem member
  obtain ⟨y, toY, fromY⟩ := chain_append.mp ring
  obtain rfl : y = x := fromY.start_eq_head
  have turned : (before ++ y :: after).Perm (y :: after ++ before) := List.perm_append_comm
  exact ⟨after ++ before, fromY.trans toY, turned.symm⟩

/-! ## Longer chains -/

section Splice

variable [DecidableEq α]

/-- Giving the last node of a chain a successor joins the chain to the one that starts there. -/
theorem Chain.join {a b c z : α} {l l' : List α} (first : Chain next a l z) (nonempty : l ≠ [])
    (nodup : l.Nodup) (second : Chain next b l' c) (apart : List.Disjoint l l') :
    Chain (Function.update next (l.getLast nonempty) b) a (l ++ l') c := by
  obtain ⟨front, last, rfl⟩ : ∃ front last, l = front ++ [last] :=
    ⟨_, _, (List.dropLast_append_getLast nonempty).symm⟩
  rw [List.getLast_concat]
  have unvisited : last ∉ front := by
    intro member
    exact (List.disjoint_of_nodup_append nodup) member (List.mem_singleton_self _)
  refine Chain.trans ?_ (second.congr ?_)
  · rw [chain_concat] at first ⊢
    refine ⟨first.1.congr ?_, Function.update_self ..⟩
    intro x member
    have other : x ≠ last := fun same => unvisited (same ▸ member)
    exact Function.update_of_ne other ..
  · intro x member
    refine Function.update_of_ne (fun same => ?_) ..
    exact apart (List.mem_append_right _ (List.mem_singleton_self _)) (same ▸ member)

/-- Put an element behind the first occurrence of another one. -/
def insertBehind (f w : α) : List α → List α
  | [] => []
  | x :: l => if x = f then x :: w :: l else x :: insertBehind f w l

theorem insertBehind_append_of_notMem {f w : α} {l l' : List α} (absent : f ∉ l) :
    insertBehind f w (l ++ l') = l ++ insertBehind f w l' := by
  induction l with
  | nil => rfl
  | cons x l ih =>
      rw [List.mem_cons, not_or] at absent
      rw [List.cons_append, insertBehind, if_neg (Ne.symm absent.1), ih absent.2, List.cons_append]

theorem insertBehind_append {f w : α} {before after : List α} (first : f ∉ before) :
    insertBehind f w (before ++ f :: after) = before ++ f :: w :: after := by
  rw [insertBehind_append_of_notMem first, insertBehind, if_pos rfl]

theorem sublist_insertBehind {f w : α} (l : List α) : l.Sublist (insertBehind f w l) := by
  induction l with
  | nil => exact List.Sublist.refl _
  | cons x l ih =>
      rw [insertBehind]
      split
      · exact (List.sublist_cons_self w l).cons_cons x
      · exact ih.cons_cons x

theorem insertBehind_perm {f w : α} {l : List α} (member : f ∈ l) :
    (insertBehind f w l).Perm (w :: l) := by
  obtain ⟨before, after, rfl, first⟩ := List.eq_append_cons_of_mem member
  rw [insertBehind_append first]
  have moved : (before ++ [f] ++ w :: after).Perm (w :: (before ++ [f] ++ after)) :=
    List.perm_middle
  simpa using moved

/-- **A node can be put behind any node of a chain**: it gets that node's successor, and becomes
the successor of that node. -/
theorem Chain.splice {a c f w : α} {l : List α} (chain : Chain next a l c) (nodup : l.Nodup)
    (member : f ∈ l) (fresh : w ∉ l) :
    Chain (Function.update (Function.update next w (next f)) f w) a (insertBehind f w l) c := by
  obtain ⟨before, after, rfl, first⟩ := List.eq_append_cons_of_mem member
  rw [insertBehind_append first]
  obtain ⟨g, reach, here, rest⟩ := chain_append.mp chain
  rw [here] at reach
  have later : f ∉ after := (List.nodup_cons.mp nodup.of_append_right).1
  have other : w ≠ f := fun same => fresh (same ▸ member)
  have unchanged : ∀ x, x ≠ f → x ≠ w →
      Function.update (Function.update next w (next f)) f w x = next x := by
    intro x notFeedback notNew
    rw [Function.update_of_ne notFeedback, Function.update_of_ne notNew]
  refine Chain.trans (reach.congr ?_) ⟨rfl, ?_, ?_⟩
  · intro x visited
    refine unchanged x (fun same => first (same ▸ visited)) (fun same => fresh ?_)
    exact same ▸ List.mem_append_left _ visited
  · exact Function.update_self ..
  · rw [Function.update_of_ne other, Function.update_self]
    refine rest.congr ?_
    intro x visited
    refine unchanged x (fun same => later (same ▸ visited)) (fun same => fresh ?_)
    exact same ▸ List.mem_append_right _ (List.mem_cons_of_mem _ visited)

end Splice

/-- Distinct nodes below a bound are at most as many as the bound. -/
theorem length_le_of_nodup {l : List Nat} {bound : Nat} (nodup : l.Nodup)
    (below : ∀ x ∈ l, x < bound) : l.length ≤ bound := by
  have inside : l ⊆ List.range bound := fun x member => List.mem_range.mpr (below x member)
  simpa using (List.subperm_of_subset nodup inside).length_le

end Bingewatch.Foundation
