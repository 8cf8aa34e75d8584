import Bingewatch.Filter.Chains
import Bingewatch.Filter.Conversion

/-!
# The directions of an added chain

The functions that add a chain of filters write the direction into each filter on their way to the
end of the chain, as long as there is a next one, and then once more into the first. The last filter
of a chain of several is the one they leave out: it keeps the direction that it had.

A filter that was made by `create_filter` has `IOF_BIDIRECTIONAL`, and with that neither a byte
count limiter nor a conversion calls the next filter (`passesOn_iff`).
-/

set_option autoImplicit false

namespace Bingewatch.Filter

open Foundation Machine

/-! ## What the direction is for -/

/-- The filters whose functions look at their direction call the next filter when they have this
one: when that does not return, they do not return either. -/
structure PassesOn (d : Direction) : Prop where
  limiter : ∀ {σ : Type} (l : ByteLimit) (s : σ) (a : FilterArgs),
    byteCountLimiterCall d l (fun _ _ => none) s a = none
  conversion : ∀ {σ D : Type} [Inhabited D] (k : Samples D) (g : Gcb D) (s : σ) (a : FilterArgs),
    iqTypeConversion k true d g (fun _ _ => none) s a = none

theorem passesOn_iff (d : Direction) : PassesOn d ↔ d ≠ .bidirectional := by
  constructor
  · rintro passes rfl
    have answered := passes.limiter { limit := 0, within := UInt64.le_refl _ } () ⟨[], 0, false, 1⟩
    cases answered
  · intro directed
    refine ⟨fun l s a => ?_, fun k g s a => ?_⟩
    · cases d with
      | bidirectional => exact absurd rfl directed
      | read => rfl
      | write => rfl
    · cases d with
      | bidirectional => exact absurd rfl directed
      | read => rfl
      | write =>
          simp only [iqTypeConversion, conversionWrite, Bool.true_eq_false, if_false]
          cases (g.resize a.bytes).transfer k a.bytes a.buf (g.resize a.bytes).buf <;> rfl

/-! ## Calls that add a chain -/

/-- The chain that a call adds, and the direction it is for. -/
def ChainCall.adds : ChainCall → Option (Nat × Direction)
  | .add side _ addme => some (addme, side.direction)
  | .addFeedback _ addme _ _ => some (addme, .write)
  | _ => none

/-- The feedback filter of a loop is found. -/
def ChainCall.Succeeds (m : Filters) : ChainCall → Prop
  | .addFeedback h _ feedback _ =>
      ∃ f, m.obj h .write = some f ∧ m.findFilter feedback m.top f = some true
  | _ => True

/-- Every filter of the chain has the direction, and passes its data on with it. -/
def Directed (m : Filters) (l : List Nat) (d : Direction) : Prop :=
  ∀ x ∈ l, (m.cell x).direction = d ∧ PassesOn (m.cell x).direction

namespace Filters

variable {m m' : Filters} {d : Direction}

@[simp] theorem direction_setNext (f g x : Nat) :
    ((m.setNext f g).cell x).direction = (m.cell x).direction := by rw [cell_setNext]

theorem direction_setDirection (f x : Nat) :
    ((m.setDirection f d).cell x).direction = if x = f then d else (m.cell x).direction := by
  split
  · next same =>
      subst same
      simp [setDirection, store]
  · next other => rw [setDirection, cell_store_of_ne _ other]

@[simp] theorem direction_setFilterObj (f x : Nat) (o : FilterObj) :
    ((m.setFilterObj f o).cell x).direction = (m.cell x).direction := by
  by_cases same : x = f
  · subst same
    simp [setFilterObj, store]
  · rw [cell_setFilterObj_of_ne o same]

/-- The loop to the end of a chain leaves out the last filter. -/
theorem chainEnd_directions {fuel f last : Nat} {l : List Nat} (ends : Chain m.next f l 0)
    (nonempty : l ≠ []) (valid : 0 ∉ l) (found : chainEnd d fuel m f = some (m', last)) :
    m'.top = m.top ∧ ∀ x, (m'.cell x).direction =
      if x ∈ l.dropLast then d else (m.cell x).direction := by
  induction l generalizing fuel f m with
  | nil => exact absurd rfl nonempty
  | cons y l ih =>
      obtain ⟨rfl, rest⟩ := ends
      cases fuel with
      | zero => cases found
      | succ fuel =>
          rw [chainEnd] at found
          cases l with
          | nil =>
              have isLast : m.next f = 0 := rest
              rw [if_pos isLast] at found
              cases found
              exact ⟨rfl, fun x => by simp⟩
          | cons z l =>
              have more : m.next f ≠ 0 := by
                rw [rest.start_eq_head]
                intro null
                exact valid (null ▸ List.mem_cons_of_mem _ (List.mem_cons_self ..))
              rw [if_neg more] at found
              have rest' : Chain (m.setDirection f d).next (m.next f) (z :: l) 0 := by
                rw [next_setDirection]
                exact rest
              obtain ⟨top, directions⟩ := ih rest' (List.cons_ne_nil _ _)
                (fun member => valid (List.mem_cons_of_mem _ member)) found
              refine ⟨top, fun x => ?_⟩
              rw [directions x, direction_setDirection, List.dropLast_cons_cons]
              by_cases later : x ∈ (z :: l).dropLast
              · simp [later]
              · by_cases here : x = f <;> simp [later, here]

/-- `add_feedback_controller` leaves the directions of the old filters alone. -/
theorem addFeedbackController_direction (head feedback metric : Nat) {x : Nat} (old : x < m.top) :
    ((m.addFeedbackController head feedback metric).1.cell x).direction =
      (m.cell x).direction := by
  simp only [addFeedbackController, direction_setNext, direction_setFilterObj]
  rw [cell_createFilter_of_ne _ _ (by show x ≠ m.top + 1; omega), direction_setFilterObj,
    cell_createFilter_of_ne _ _ (by omega)]

/-- A lock that is held does not matter to the search. -/
theorem findFilter_hold (h feedback fuel f : Nat) :
    (m.hold h).findFilter feedback fuel f = m.findFilter feedback fuel f := by
  induction fuel generalizing f with
  | zero => rfl
  | succ fuel ih =>
      rw [findFilter, findFilter, ih]
      rfl

section Adding

variable {h addme : Nat} {l : List Nat} (ends : Chain m.next addme l 0) (nonempty : l ≠ [])
  (valid : 0 ∉ l)

include ends nonempty valid

theorem addFilter_directions {side : Side} (executed : m.addFilter side h addme = some m')
    (x : Nat) :
    (m'.cell x).direction =
      if x = addme ∨ x ∈ l.dropLast then side.direction else (m.cell x).direction := by
  unfold addFilter at executed
  split at executed
  · cases executed
  · simp only [Option.bind_eq_bind, Option.bind_eq_some_iff] at executed
    obtain ⟨⟨m₁, last⟩, found, m₂, locked, f, -, result⟩ := executed
    obtain ⟨-, directions⟩ := chainEnd_directions ends nonempty valid found
    obtain ⟨-, rfl⟩ : _ ∧ (m₁.setDirection addme side.direction).hold h = m₂ := by
      simpa [lock] using locked
    cases result
    show (((m₁.setDirection addme side.direction).setNext last f).cell x).direction = _
    rw [direction_setNext, direction_setDirection, directions x]
    by_cases first : x = addme <;> simp [first]

theorem addFeedbackWriteFilter_directions {feedback metric : Nat} (old : ∀ x ∈ l, x < m.top)
    (succeeds : (ChainCall.addFeedback h addme feedback metric).Succeeds m)
    (executed : m.addFeedbackWriteFilter h addme feedback metric = some m') {x : Nat}
    (member : x ∈ l) :
    (m'.cell x).direction =
      if x = addme ∨ x ∈ l.dropLast then .write else (m.cell x).direction := by
  obtain ⟨f, head, found⟩ := succeeds
  simp only [addFeedbackWriteFilter, Option.bind_eq_bind, Option.bind_eq_some_iff] at executed
  obtain ⟨m₀, locked, f', head', found', searched, result⟩ := executed
  obtain ⟨-, rfl⟩ : _ ∧ m.hold h = m₀ := by simpa [lock] using locked
  obtain rfl : f = f' := Option.some.inj (head.symm.trans head')
  rw [findFilter_hold] at searched
  obtain rfl : true = found' := Option.some.inj (found.symm.trans searched)
  simp only [Bool.true_eq_false, if_false] at result
  split at result
  · cases result
  · obtain ⟨⟨m₁, last⟩, ended, added⟩ := Option.bind_eq_some_iff.mp result
    obtain ⟨top, directions⟩ := chainEnd_directions (m := m.hold h) ends nonempty valid ended
    cases added
    have old' : x < ((m₁.setDirection addme .write).setNext last f).top := by
      show x < m₁.top
      rw [top]
      exact old x member
    refine (addFeedbackController_direction addme feedback metric old').trans ?_
    rw [direction_setNext, direction_setDirection, directions x]
    by_cases first : x = addme <;> simp [first, hold]

end Adding

/-- **The directions after a call that adds a chain.** -/
theorem exec_directions {c : ChainCall} {addme : Nat} {l : List Nat}
    (adds : c.adds = some (addme, d)) (succeeds : c.Succeeds m) (ends : Chain m.next addme l 0)
    (nonempty : l ≠ []) (valid : 0 ∉ l) (old : ∀ x ∈ l, x < m.top) (executed : m.exec c = some m')
    {x : Nat} (member : x ∈ l) :
    (m'.cell x).direction =
      if x = addme ∨ x ∈ l.dropLast then d else (m.cell x).direction := by
  cases c with
  | add side h addme' =>
      cases adds
      have executed' : m.addFilter side h addme = some m' := by
        cases side <;> exact executed
      exact addFilter_directions ends nonempty valid executed' x
  | addFeedback h addme' feedback metric =>
      cases adds
      exact addFeedbackWriteFilter_directions ends nonempty valid old succeeds executed member
  | register side h fn name => cases adds
  | create name fn => cases adds
  | write f filter => cases adds

end Filters

/-- **Every filter of an added chain gets its direction** exactly when it is the only one, or when
the last one already has it. -/
theorem chain_directed_iff {m m' : Filters} {c : ChainCall} {addme : Nat} {d : Direction}
    {l : List Nat} (adds : c.adds = some (addme, d)) (succeeds : c.Succeeds m)
    (ends : Chain m.next addme l 0) (nonempty : l ≠ []) (nodup : l.Nodup)
    (old : ∀ x ∈ l, 0 < x ∧ x < m.top) (executed : m.exec c = some m') :
    Directed m' l d ↔ l.length = 1 ∨ (m.cell (l.getLast nonempty)).direction = d := by
  have valid : 0 ∉ l := fun null => Nat.lt_irrefl 0 (old 0 null).1
  have directions : ∀ x ∈ l, (m'.cell x).direction =
      if x = addme ∨ x ∈ l.dropLast then d else (m.cell x).direction := fun x member =>
    m.exec_directions adds succeeds ends nonempty valid (fun x member => (old x member).2) executed
      member
  have passes : PassesOn d := by
    rw [passesOn_iff]
    rintro rfl
    cases c with
    | add side h addme' => cases side <;> cases adds
    | addFeedback h addme' feedback metric => cases adds
    | register side h fn name => cases adds
    | create name fn => cases adds
    | write f filter => cases adds
  have first : l.head nonempty = addme := by
    cases l with
    | nil => exact absurd rfl nonempty
    | cons x l => exact ends.start_eq_head.symm
  have last := directions _ (List.getLast_mem nonempty)
  have left : l.getLast nonempty ∉ l.dropLast := by
    rw [← List.dropLast_append_getLast nonempty] at nodup
    exact fun member => (List.nodup_append.mp nodup).2.2 _ member _ (List.mem_singleton_self _) rfl
  constructor
  · intro directed
    by_contra other
    push Not at other
    have several : l.getLast nonempty ≠ addme := by
      intro same
      rw [← first] at same
      cases l with
      | nil => exact nonempty rfl
      | cons x l =>
          cases l with
          | nil => exact other.1 rfl
          | cons y l =>
              refine left ?_
              rw [same, List.head_cons, List.dropLast_cons_cons]
              exact List.mem_cons_self ..
    rw [if_neg (not_or.mpr ⟨several, left⟩)] at last
    exact other.2 (last.symm.trans (directed _ (List.getLast_mem nonempty)).1)
  · intro condition x member
    suffices direction : (m'.cell x).direction = d by
      rw [direction]
      exact ⟨rfl, passes⟩
    rw [directions x member]
    split
    · rfl
    · next outside =>
        push Not at outside
        have isLast : x = l.getLast nonempty := by
          rw [← List.dropLast_append_getLast nonempty] at member
          rcases List.mem_append.mp member with inner | isLast
          · exact absurd inner outside.2
          · exact List.mem_singleton.mp isLast
        rcases condition with one | already
        · obtain ⟨y, rfl⟩ := List.length_eq_one_iff.mp one
          exact absurd (isLast.trans first) outside.1
        · rw [isLast, already]

/-- The filters of a caller who has given the second one of the chain its direction. -/
def preparedFilters : Filters := sampleFilters.setDirection 4 .read

/-- A chain of one filter gets its direction, and so does a chain of two whose last filter has it
already. -/
theorem added_chain_directed :
    (∃ m', sampleFilters.exec (.add .write 1 6) = some m' ∧ Directed m' [6] .write) ∧
      ∃ m', preparedFilters.exec (.add .read 1 3) = some m' ∧ Directed m' [3, 4] .read := by
  constructor
  · have ends : Chain sampleFilters.next 6 [6] 0 := ⟨rfl, rfl⟩
    exact ⟨(sampleFilters.exec (.add .write 1 6)).get rfl, rfl,
      (chain_directed_iff (m := sampleFilters) (c := .add .write 1 6) rfl trivial ends
        (List.cons_ne_nil _ _) (by decide) (by decide) rfl).mpr (.inl rfl)⟩
  · have ends : Chain preparedFilters.next 3 [3, 4] 0 := ⟨rfl, rfl, rfl⟩
    exact ⟨(preparedFilters.exec (.add .read 1 3)).get rfl, rfl,
      (chain_directed_iff (m := preparedFilters) (c := .add .read 1 3) rfl trivial ends
        (List.cons_ne_nil _ _) (by decide) (by decide) rfl).mpr (.inr rfl)⟩

/-- A chain of two filters, as `create_filter` made them, is added to the read side: the second one
keeps `IOF_BIDIRECTIONAL`, and would pass no data on as a limiter or a conversion. -/
theorem second_filter_undirected :
    ∃ m', sampleFilters.exec (.add .read 1 3) = some m' ∧ Chain sampleFilters.next 3 [3, 4] 0 ∧
      (m'.cell 4).direction = .bidirectional ∧ ¬PassesOn (m'.cell 4).direction ∧
      ¬Directed m' [3, 4] .read := by
  let m' := (sampleFilters.exec (.add .read 1 3)).get rfl
  have undirected : (m'.cell 4).direction = .bidirectional := rfl
  refine ⟨m', rfl, ⟨rfl, rfl, rfl⟩, undirected, ?_, fun directed => ?_⟩
  · rw [passesOn_iff, undirected]
    exact fun other => other rfl
  · have direction := (directed 4 (by decide)).1
    cases undirected.symm.trans direction

end Bingewatch.Filter
