import Mathlib.Logic.Function.Basic
import Bingewatch.Foundation.Chain

/-!
# Linked lists of keyed nodes

A singly linked list in a heap of nodes that carry keys: a node is appended behind the last one,
looked up by its key, and unlinked by its key, with the pointer walks that such lists are kept
with. Address zero is the null pointer, and every walk is bounded by the addresses in use.

A well-linked list (`Links.WellLinked`) has distinct non-null nodes with distinct keys. It stays
well linked, and a look-up after an operation is the look-up before it, except for the key the
operation is about (`find_append`, `find_unlink`).
-/

set_option autoImplicit false

namespace Bingewatch.Foundation

/-- A heap of list nodes and the head of the list; `limit` is above the addresses in use. -/
structure Links (κ : Type) where
  key : Nat → κ
  next : Nat → Nat := fun _ => 0
  head : Nat := 0
  limit : Nat := 0

namespace Links

variable {κ : Type}

/-- The nodes met from `d` on. -/
def walk (L : Links κ) : Nat → Nat → List Nat
  | 0, _ => []
  | fuel + 1, d => if d = 0 then [] else d :: L.walk fuel (L.next d)

/-- The nodes of the list. -/
def nodes (L : Links κ) : List Nat := L.walk L.limit L.head

/-- The last node from `d` on: the loop `while (d->next) d = d->next`. -/
def last (L : Links κ) : Nat → Nat → Nat
  | 0, d => d
  | fuel + 1, d => if L.next d = 0 then d else L.last fuel (L.next d)

/-- Append the node `a`, new in this list, with the key `k`. -/
def append (L : Links κ) (a : Nat) (k : κ) : Links κ :=
  let L' : Links κ :=
    { L with
      key := Function.update L.key a k
      next := Function.update L.next a 0
      limit := max L.limit (a + 1) }
  if L'.head = 0 then { L' with head := a }
  else { L' with next := Function.update L'.next (L'.last L'.limit L'.head) a }

variable [DecidableEq κ]

/-- The node with the key `k` from `d` on, null if there is none, and the node before it. -/
def search (L : Links κ) (k : κ) : Nat → Nat → Nat → Nat × Nat
  | 0, dp, d => (dp, d)
  | fuel + 1, dp, d =>
      if d = 0 then (dp, d) else if L.key d = k then (dp, d) else L.search k fuel d (L.next d)

/-- The node with the key `k`, null if there is none. -/
def find (L : Links κ) (k : κ) : Nat := (L.search k L.limit 0 L.head).2

/-- Unlink the node with the key `k`: the first one from the head, every other one from the node
before it. -/
def unlink (L : Links κ) (k : κ) : Links κ :=
  let found := L.search k L.limit 0 L.head
  if found.2 = 0 then L
  else if found.1 = 0 then { L with head := L.next found.2 }
  else { L with next := Function.update L.next found.1 (L.next found.2) }

/-! ## Well-linked lists -/

omit [DecidableEq κ] in
theorem walk_eq {L : Links κ} {l : List Nat} {fuel d : Nat} (chain : Chain L.next d l 0)
    (nonnull : ∀ x ∈ l, x ≠ 0) (short : l.length ≤ fuel) : L.walk fuel d = l := by
  induction l generalizing fuel d with
  | nil =>
      obtain rfl : d = 0 := chain
      cases fuel <;> simp [walk]
  | cons x l ih =>
      obtain ⟨rfl, rest⟩ := chain
      cases fuel with
      | zero => simp at short
      | succ fuel =>
          simp only [walk, if_neg (nonnull d (by simp))]
          rw [ih rest (fun y member => nonnull y (by simp [member])) (by simpa using short)]

/-- The list `l` is the list of nodes: they are linked in this order, none is null, none occurs
twice, all are below the limit, and their keys differ. -/
structure Proper (L : Links κ) (l : List Nat) : Prop where
  chain : Chain L.next L.head l 0
  nonnull : ∀ x ∈ l, x ≠ 0
  nodup : l.Nodup
  below : ∀ x ∈ l, x < L.limit
  keys : (l.map L.key).Nodup

/-- The list is properly linked. -/
def WellLinked (L : Links κ) : Prop := L.Proper L.nodes

omit [DecidableEq κ] in
theorem Proper.length_le {L : Links κ} {l : List Nat} (proper : L.Proper l) :
    l.length ≤ L.limit := length_le_of_nodup proper.nodup proper.below

omit [DecidableEq κ] in
theorem Proper.nodes_eq {L : Links κ} {l : List Nat} (proper : L.Proper l) : L.nodes = l :=
  walk_eq proper.chain proper.nonnull proper.length_le

omit [DecidableEq κ] in
theorem Proper.wellLinked {L : Links κ} {l : List Nat} (proper : L.Proper l) : L.WellLinked := by
  rw [WellLinked, proper.nodes_eq]
  exact proper

omit [DecidableEq κ] in
theorem wellLinked_empty (key : Nat → κ) : WellLinked { key := key } where
  chain := rfl
  nonnull := by simp [nodes, walk]
  nodup := by simp [nodes, walk]
  below := by simp [nodes, walk]
  keys := by simp [nodes, walk]

/-! ## Look-ups -/

theorem search_absent {L : Links κ} {k : κ} {l : List Nat} {fuel dp d : Nat}
    (chain : Chain L.next d l 0) (nonnull : ∀ x ∈ l, x ≠ 0) (short : l.length ≤ fuel)
    (absent : ∀ x ∈ l, L.key x ≠ k) : (L.search k fuel dp d).2 = 0 := by
  induction l generalizing fuel dp d with
  | nil =>
      obtain rfl : d = 0 := chain
      cases fuel <;> simp [search]
  | cons x l ih =>
      obtain ⟨rfl, rest⟩ := chain
      cases fuel with
      | zero => simp at short
      | succ fuel =>
          simp only [search, if_neg (nonnull d (by simp)), if_neg (absent d (by simp))]
          exact ih rest (fun y member => nonnull y (by simp [member])) (by simpa using short)
            fun y member => absent y (by simp [member])

theorem search_found {L : Links κ} {k : κ} {before after : List Nat} {fuel dp d a : Nat}
    (chain : Chain L.next d (before ++ a :: after) 0) (nonnull : ∀ x ∈ before ++ [a], x ≠ 0)
    (short : before.length < fuel) (absent : ∀ x ∈ before, L.key x ≠ k) (key : L.key a = k) :
    L.search k fuel dp d = ((dp :: before).getLast (by simp), a) := by
  induction before generalizing fuel dp d with
  | nil =>
      obtain ⟨rfl, _⟩ := chain
      cases fuel with
      | zero => simp at short
      | succ fuel => simp [search, nonnull d (by simp), key]
  | cons x before ih =>
      obtain ⟨rfl, rest⟩ := chain
      cases fuel with
      | zero => simp at short
      | succ fuel =>
          simp only [search, if_neg (nonnull d (by simp)), if_neg (absent d (by simp))]
          rw [ih rest (fun y member => nonnull y (by simp at member ⊢; tauto))
            (by simpa using short) fun y member => absent y (by simp [member])]
          simp

theorem Proper.find_of_mem {L : Links κ} {l : List Nat} {a : Nat} (proper : L.Proper l)
    (member : a ∈ l) : L.find (L.key a) = a := by
  obtain ⟨before, after, rfl⟩ := List.append_of_mem member
  have short := proper.length_le
  have apart : ∀ x ∈ before, L.key x ≠ L.key a := by
    intro x early same
    have keys := proper.keys
    rw [List.map_append, List.nodup_append] at keys
    exact keys.2.2 (L.key x) (List.mem_map_of_mem early) (L.key a) (by simp) same
  have nonnull : ∀ x ∈ before ++ [a], x ≠ 0 := by
    intro x early
    refine proper.nonnull x ?_
    rcases List.mem_append.mp early with inside | here
    · exact List.mem_append_left _ inside
    · exact List.mem_append_right _ (List.mem_singleton.mp here ▸ List.mem_cons_self)
  rw [find, search_found proper.chain nonnull (by simp at short; omega) apart rfl]

theorem Proper.find_absent {L : Links κ} {l : List Nat} {k : κ} (proper : L.Proper l)
    (absent : ∀ x ∈ l, L.key x ≠ k) : L.find k = 0 :=
  search_absent proper.chain proper.nonnull proper.length_le absent

/-- A look-up returns the node of the list that has the key. -/
theorem Proper.find_eq_iff {L : Links κ} {l : List Nat} {k : κ} {a : Nat} (proper : L.Proper l)
    (nonnull : a ≠ 0) : L.find k = a ↔ a ∈ l ∧ L.key a = k := by
  constructor
  · intro found
    by_cases present : ∃ x ∈ l, L.key x = k
    · obtain ⟨x, member, rfl⟩ := present
      obtain rfl : x = a := (proper.find_of_mem member).symm.trans found
      exact ⟨member, rfl⟩
    · have absent := proper.find_absent fun x member same => present ⟨x, member, same⟩
      exact absurd (found.symm.trans absent) nonnull
  · rintro ⟨member, rfl⟩
    exact proper.find_of_mem member

/-- Two lists with the same nodes of a key agree on the look-up of that key. -/
theorem Proper.find_congr {L L' : Links κ} {l l' : List Nat} {k : κ} (proper : L.Proper l)
    (proper' : L'.Proper l') (same : ∀ a, (a ∈ l ∧ L.key a = k) ↔ (a ∈ l' ∧ L'.key a = k)) :
    L'.find k = L.find k := by
  by_cases null : L.find k = 0
  · have absent : ∀ x ∈ l', L'.key x ≠ k := by
      intro x member key
      have present := (same x).mpr ⟨member, key⟩
      have found := proper.find_of_mem present.1
      rw [present.2, null] at found
      exact proper.nonnull x present.1 found.symm
    rw [null, proper'.find_absent absent]
  · rw [proper'.find_eq_iff null]
    exact (same _).mp ((proper.find_eq_iff null).mp rfl)

/-! ## Appending -/

omit [DecidableEq κ] in
theorem last_eq {L : Links κ} (init : List Nat) (x : Nat) {fuel d : Nat}
    (chain : Chain L.next d (init ++ [x]) 0) (nonnull : ∀ y ∈ init ++ [x], y ≠ 0)
    (short : init.length < fuel) : L.last fuel d = x := by
  induction init generalizing fuel d with
  | nil =>
      obtain ⟨rfl, ends⟩ := chain
      have ends : L.next d = 0 := ends
      cases fuel <;> simp [last, ends]
  | cons y init ih =>
      obtain ⟨rfl, rest⟩ := chain
      have later : L.next d ≠ 0 := by
        have start : L.next d ∈ init ++ [x] := rest.start_mem (by simp)
        exact nonnull _ (List.mem_cons_of_mem _ start)
      cases fuel with
      | zero => simp at short
      | succ fuel =>
          simp only [last, if_neg later]
          exact ih rest (fun z member => nonnull z (by simp at member ⊢; tauto))
            (by simpa using short)

omit [DecidableEq κ] in
theorem append_key (L : Links κ) (a : Nat) (k : κ) :
    (L.append a k).key = Function.update L.key a k := by
  unfold append
  simp only
  split <;> rfl

omit [DecidableEq κ] in
theorem append_limit (L : Links κ) (a : Nat) (k : κ) :
    (L.append a k).limit = max L.limit (a + 1) := by
  unfold append
  simp only
  split <;> rfl

omit [DecidableEq κ] in
/-- The new node is linked behind the others. -/
theorem Proper.append_chain {L : Links κ} {l : List Nat} {a : Nat} {k : κ} (proper : L.Proper l)
    (nonnull : a ≠ 0) (fresh : a ∉ l) :
    Chain (L.append a k).next (L.append a k).head (l ++ [a]) 0 := by
  have chain : Chain (Function.update L.next a 0) L.head l 0 :=
    proper.chain.congr fun x member => Function.update_of_ne (by rintro rfl; exact fresh member) _ _
  rcases List.eq_nil_or_concat l with rfl | ⟨init, x, rfl⟩
  · have empty : L.head = 0 := proper.chain
    simp [append, empty]
  · have headed : L.head ≠ 0 := proper.nonnull _ (proper.chain.start_mem (by simp))
    have short := proper.length_le
    simp only [List.concat_eq_append, List.mem_append, List.mem_singleton, not_or] at *
    simp only [append, if_neg headed]
    rw [last_eq init x chain (by simpa using proper.nonnull)
      (by simp at short ⊢; omega)]
    have nodup := proper.nodup
    rw [List.nodup_append] at nodup
    rw [chain_concat, chain_concat]
    refine ⟨⟨(chain_concat.mp chain).1.congr fun y member => ?_, ?_⟩, ?_⟩
    · exact Function.update_of_ne (nodup.2.2 y member x (by simp)) _ _
    · simp
    · rw [Function.update_of_ne fresh.2]
      simp

omit [DecidableEq κ] in
/-- **Appending a new node with a new key.** -/
theorem Proper.append {L : Links κ} {l : List Nat} {a : Nat} {k : κ} (proper : L.Proper l)
    (nonnull : a ≠ 0) (fresh : a ∉ l) (new_key : ∀ x ∈ l, L.key x ≠ k) :
    (L.append a k).Proper (l ++ [a]) := by
  have same : ∀ x ∈ l, (L.append a k).key x = L.key x := by
    intro x member
    rw [append_key, Function.update_of_ne (by rintro rfl; exact fresh member)]
  refine ⟨proper.append_chain nonnull fresh, ?_, ?_, ?_, ?_⟩
  · intro x member
    rcases List.mem_append.mp member with old | new
    · exact proper.nonnull x old
    · exact List.mem_singleton.mp new ▸ nonnull
  · rw [List.nodup_append]
    refine ⟨proper.nodup, by simp, ?_⟩
    rintro x member y new rfl
    exact fresh (List.mem_singleton.mp new ▸ member)
  · intro x member
    rw [append_limit]
    rcases List.mem_append.mp member with old | new
    · have below := proper.below x old
      omega
    · have same := List.mem_singleton.mp new
      omega
  · rw [List.map_append, List.map_congr_left same, List.nodup_append]
    refine ⟨proper.keys, by simp, ?_⟩
    rintro x member y new rfl
    obtain ⟨z, old, rfl⟩ := List.mem_map.mp member
    simp only [List.map_cons, List.map_nil, List.mem_singleton, append_key,
      Function.update_self] at new
    exact new_key z old new

theorem Proper.find_append {L : Links κ} {l : List Nat} {a : Nat} {k : κ} (proper : L.Proper l)
    (nonnull : a ≠ 0) (fresh : a ∉ l) (new_key : ∀ x ∈ l, L.key x ≠ k) (k' : κ) :
    (L.append a k).find k' = if k' = k then a else L.find k' := by
  have appended := proper.append nonnull fresh new_key
  split
  · next same =>
      subst same
      rw [appended.find_eq_iff nonnull, append_key]
      simp
  · next other =>
      apply proper.find_congr appended
      intro x
      rw [append_key]
      by_cases new : x = a
      · subst new
        simp [fresh, Ne.symm other]
      · simp [new]

/-! ## Unlinking -/

theorem unlink_key (L : Links κ) (k : κ) : (L.unlink k).key = L.key := by
  unfold unlink
  simp only
  split_ifs <;> rfl

theorem unlink_limit (L : Links κ) (k : κ) : (L.unlink k).limit = L.limit := by
  unfold unlink
  simp only
  split_ifs <;> rfl

/-- The node is taken out of the chain, wherever it stands. -/
theorem Proper.unlink_chain {L : Links κ} {before after : List Nat} {a : Nat}
    (proper : L.Proper (before ++ a :: after)) :
    Chain (L.unlink (L.key a)).next (L.unlink (L.key a)).head (before ++ after) 0 := by
  have found : L.search (L.key a) L.limit 0 L.head = ((0 :: before).getLast (by simp), a) := by
    have short := proper.length_le
    apply search_found proper.chain
    · intro x member
      exact proper.nonnull x (by simp at member ⊢; tauto)
    · simp at short
      omega
    · intro x early same
      have keys := proper.keys
      rw [List.map_append, List.nodup_append] at keys
      exact keys.2.2 (L.key x) (List.mem_map_of_mem early) (L.key a) (by simp) same
    · rfl
  have nonnull : a ≠ 0 := proper.nonnull a (by simp)
  obtain ⟨b, first, start, rest⟩ := chain_append.mp proper.chain
  subst start
  rcases List.eq_nil_or_concat before with rfl | ⟨init, x, rfl⟩
  · simp only [unlink, found, if_neg nonnull]
    simpa using rest
  · simp only [List.concat_eq_append] at *
    have prior : x ≠ 0 := proper.nonnull x (by simp)
    have last : (0 :: (init ++ [x])).getLast (by simp) = x := by simp
    simp only [unlink, found, if_neg nonnull, last, if_neg prior]
    have nodup := proper.nodup
    rw [List.nodup_append] at nodup
    obtain ⟨nodup_before, nodup_after, apart⟩ := nodup
    rw [List.nodup_append] at nodup_before
    rw [chain_append]
    refine ⟨L.next b, chain_concat.mpr ⟨?_, ?_⟩, ?_⟩
    · exact (chain_concat.mp first).1.congr fun y member =>
        Function.update_of_ne (nodup_before.2.2 y member x (by simp)) _ _
    · simp
    · refine rest.congr fun y member => Function.update_of_ne ?_ _ _
      rintro rfl
      exact apart y (by simp) y (by simp [member]) rfl

/-- **Unlinking a key.** -/
theorem Proper.unlink {L : Links κ} {l : List Nat} (proper : L.Proper l) (k : κ) :
    (L.unlink k).Proper (l.filter fun x => L.key x ≠ k) := by
  by_cases present : ∃ a ∈ l, L.key a = k
  · obtain ⟨a, member, rfl⟩ := present
    obtain ⟨before, after, rfl⟩ := List.append_of_mem member
    have keys := proper.keys
    rw [List.map_append, List.map_cons, List.nodup_append, List.nodup_cons] at keys
    obtain ⟨keys_before, ⟨later, keys_after⟩, apart⟩ := keys
    have rest : (before ++ a :: after).filter (fun x => L.key x ≠ L.key a) = before ++ after := by
      rw [List.filter_append, List.filter_cons_of_neg (by simp)]
      rw [List.filter_eq_self.mpr, List.filter_eq_self.mpr]
      · intro x member
        simp only [ne_eq, decide_not, Bool.not_eq_eq_eq_not, Bool.not_true, decide_eq_false_iff_not]
        exact fun same => later (same ▸ List.mem_map_of_mem member)
      · intro x member
        simp only [ne_eq, decide_not, Bool.not_eq_eq_eq_not, Bool.not_true, decide_eq_false_iff_not]
        exact fun same => apart _ (List.mem_map_of_mem member) (L.key a) (by simp) same
    rw [rest]
    have sub : (before ++ after).Sublist (before ++ a :: after) :=
      (List.sublist_cons_self a after).append_left before
    refine ⟨proper.unlink_chain, fun x member => proper.nonnull x (sub.subset member),
      proper.nodup.sublist sub, fun x member => ?_, ?_⟩
    · rw [unlink_limit]
      exact proper.below x (sub.subset member)
    · rw [unlink_key]
      exact proper.keys.sublist (sub.map _)
  · have absent : ∀ x ∈ l, L.key x ≠ k := fun x member same => present ⟨x, member, same⟩
    have unfound : (L.search k L.limit 0 L.head).2 = 0 := proper.find_absent absent
    rw [List.filter_eq_self.mpr (by simpa using absent)]
    simpa only [Links.unlink, unfound, if_true] using proper

theorem Proper.find_unlink {L : Links κ} {l : List Nat} (proper : L.Proper l) (k k' : κ) :
    (L.unlink k).find k' = if k' = k then 0 else L.find k' := by
  have unlinked := proper.unlink k
  split
  · next same =>
      apply unlinked.find_absent
      intro x member
      rw [unlink_key, same]
      simpa using (List.mem_filter.mp member).2
  · next other =>
      apply proper.find_congr unlinked
      intro x
      rw [unlink_key, List.mem_filter]
      constructor
      · rintro ⟨member, rfl⟩
        exact ⟨⟨member, by simpa using other⟩, rfl⟩
      · rintro ⟨⟨member, _⟩, key⟩
        exact ⟨member, key⟩

/-! ## The rules for well-linked lists -/

theorem WellLinked.absent {L : Links κ} {k : κ} (linked : L.WellLinked) (absent : L.find k = 0) :
    ∀ x ∈ L.nodes, L.key x ≠ k := by
  rintro x member rfl
  rw [Proper.find_of_mem linked member] at absent
  exact linked.nonnull x member absent

theorem WellLinked.append {L : Links κ} {a : Nat} {k : κ} (linked : L.WellLinked)
    (nonnull : a ≠ 0) (fresh : a ∉ L.nodes) (absent : L.find k = 0) :
    (L.append a k).WellLinked :=
  (Proper.append linked nonnull fresh (linked.absent absent)).wellLinked

theorem WellLinked.nodes_append {L : Links κ} {a : Nat} {k : κ} (linked : L.WellLinked)
    (nonnull : a ≠ 0) (fresh : a ∉ L.nodes) (absent : L.find k = 0) :
    (L.append a k).nodes = L.nodes ++ [a] :=
  (Proper.append linked nonnull fresh (linked.absent absent)).nodes_eq

theorem WellLinked.find_append {L : Links κ} {a : Nat} {k : κ} (linked : L.WellLinked)
    (nonnull : a ≠ 0) (fresh : a ∉ L.nodes) (absent : L.find k = 0) (k' : κ) :
    (L.append a k).find k' = if k' = k then a else L.find k' :=
  Proper.find_append linked nonnull fresh (linked.absent absent) k'

theorem WellLinked.unlink {L : Links κ} (linked : L.WellLinked) (k : κ) :
    (L.unlink k).WellLinked := (Proper.unlink linked k).wellLinked

theorem WellLinked.nodes_unlink {L : Links κ} (linked : L.WellLinked) (k : κ) :
    (L.unlink k).nodes = L.nodes.filter fun x => L.key x ≠ k := (Proper.unlink linked k).nodes_eq

theorem WellLinked.find_unlink {L : Links κ} (linked : L.WellLinked) (k k' : κ) :
    (L.unlink k).find k' = if k' = k then 0 else L.find k' := Proper.find_unlink linked k k'

end Links

end Bingewatch.Foundation
