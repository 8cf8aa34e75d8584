import Mathlib.Data.List.Forall2
import Bingewatch.Foundation.Transition

/-!
# Reading a stream that arrives in pieces

A device answers each request with a failure or with a piece: some items, which may come after a
break, a place where items were lost. A call for a number of items asks the device until it has
them (`Device.collect`). A break before the first item is noted; one behind an item ends the call,
and the piece behind it is dropped; a call that tolerates no break ends at the first.

`Device.record` is everything a list of answers brings, with a mark for each break. The calls of a
run cut the record into stretches (`Device.runCalls_record`), and `Takes` says what a call reports
of its stretch: the items it returns stand there side by side, so a break is never inside of what
one call returns, and a call that reports nothing took no break.
-/

set_option autoImplicit false

namespace Bingewatch.Foundation

/-- A device with a state: what becomes of the state, and either a failure or a piece. The flag of a
piece says that it comes after a break. -/
structure Device (σ ρ α : Type) where
  answer : σ → ρ → σ × Option (Bool × List α)

namespace Device

variable {σ ρ α : Type}

/-- How a call ends: it has what it asked for, a break came behind its items, a break came that it
does not tolerate, or the device failed. -/
inductive Ending where
  | full
  | cut
  | refused
  | failed
  deriving DecidableEq, Repr

/-- What a call returns: its items, whether there was a break before them, and how it ended. -/
structure Reading (α : Type) where
  items : List α
  late : Bool
  ending : Ending
  deriving DecidableEq, Repr

/-- A call that still wants some items, on the answers to come: the state and the answers it leaves,
and what it returns. A device that gives more than it is asked for is outside of the model, and so
is a call whose answers are not all there. -/
def collect (D : Device σ ρ α) (tolerant : Bool) :
    List ρ → σ → Nat → Bool → List α → Option (σ × List ρ × Reading α)
  | [], s, wanted, late, items =>
      if wanted = 0 then some (s, [], ⟨items, late, .full⟩) else none
  | result :: results, s, wanted, late, items =>
      if wanted = 0 then some (s, result :: results, ⟨items, late, .full⟩)
      else
        match D.answer s result with
        | (s, none) => some (s, results, ⟨items, late, .failed⟩)
        | (s, some (broken, more)) =>
            if wanted < more.length then none
            else if broken = true ∧ tolerant = false then
              some (s, results, ⟨items, late, .refused⟩)
            else if broken = true ∧ items ≠ [] then some (s, results, ⟨items, late, .cut⟩)
            else
              collect D tolerant results s (wanted - more.length) (late || broken) (items ++ more)

/-- One call, in a state of the device with the answers to come. -/
def call (D : Device σ ρ α) (tolerant : Bool) (s : σ × List ρ) (wanted : Nat) :
    Option ((σ × List ρ) × Reading α) :=
  (D.collect tolerant s.2 s.1 wanted false []).map fun (s, rest, reading) => ((s, rest), reading)

/-! ## The record -/

/-- The state after some answers. -/
def after (D : Device σ ρ α) (s : σ) (results : List ρ) : σ :=
  results.foldl (fun s result => (D.answer s result).1) s

/-- The record of one answer: a mark for the break, if there is one, and the items. -/
def marks : Option (Bool × List α) → List (Option α)
  | none => []
  | some (broken, items) => (if broken then [none] else []) ++ items.map some

/-- The record of a list of answers. -/
def record (D : Device σ ρ α) : σ → List ρ → List (Option α)
  | _, [] => []
  | s, result :: results =>
      marks (D.answer s result).2 ++ D.record (D.answer s result).1 results

theorem record_append (D : Device σ ρ α) (s : σ) (first second : List ρ) :
    D.record s (first ++ second) = D.record s first ++ D.record (D.after s first) second := by
  induction first generalizing s with
  | nil => rfl
  | cons result first ih =>
      simp only [List.cons_append, record, ih, List.append_assoc]
      rfl

/-- What stands behind the items of a call in its stretch of the record. -/
def Tail (tolerant : Bool) (wanted : Nat) (items : List α) : Ending → List (Option α) → Prop
  | .full, tail => tail = [] ∧ items.length = wanted
  | .cut, tail =>
      tolerant = true ∧ items ≠ [] ∧ ∃ dropped : List α, tail = none :: dropped.map some
  | .refused, tail => tolerant = false ∧ ∃ dropped : List α, tail = none :: dropped.map some
  | .failed, tail => tail = [] ∧ items.length < wanted

/-- **What a call reports of its stretch of the record.** Its items stand side by side; the breaks
before them are those it reports, and behind them comes what its ending says. -/
def Takes (tolerant : Bool) (wanted : Nat) (reading : Reading α) (stretch : List (Option α)) :
    Prop :=
  ∃ breaks tail, stretch = List.replicate breaks none ++ reading.items.map some ++ tail ∧
    (reading.late = true ↔ 0 < breaks) ∧ (tolerant = false → breaks = 0) ∧
    Tail tolerant wanted reading.items reading.ending tail

/-- Breaks come before the first item only, so the record of one more piece in front is again of
this kind. -/
theorem marks_append {broken tolerant : Bool} {items more new : List α} {breaks : Nat}
    (leading : 0 < breaks → items ++ more = [] ∧ tolerant = true) (tail : List (Option α)) :
    marks (some (broken, more)) ++ (List.replicate breaks none ++ new.map some ++ tail) =
      List.replicate ((if broken then 1 else 0) + breaks) none ++ (more ++ new).map some ++
        tail := by
  by_cases none : breaks = 0
  · subst none
    cases broken <;> simp [marks]
  · obtain rfl : more = [] :=
      (List.append_eq_nil_iff.mp (leading (Nat.pos_of_ne_zero none)).1).2
    cases broken <;> simp [marks, Nat.add_comm 1, List.replicate_succ]

/-- The loop of a call, from any point on. -/
theorem collect_record (D : Device σ ρ α) {tolerant : Bool} :
    ∀ {results : List ρ} {s : σ} {wanted : Nat} {late : Bool} {items : List α} {s' : σ}
      {rest : List ρ} {reading : Reading α},
      D.collect tolerant results s wanted late items = some (s', rest, reading) →
      ∃ used breaks new tail, results = used ++ rest ∧ s' = D.after s used ∧
        reading.items = items ++ new ∧
        D.record s used = List.replicate breaks none ++ new.map some ++ tail ∧
        (0 < breaks → items = [] ∧ tolerant = true) ∧
        (reading.late = true ↔ late = true ∨ 0 < breaks) ∧
        Tail tolerant (items.length + wanted) reading.items reading.ending tail := by
  intro results
  induction results with
  | nil =>
      intro s wanted late items s' rest reading collected
      simp only [collect] at collected
      split at collected
      · next nothing =>
          cases collected
          exact ⟨[], 0, [], [], rfl, rfl, by simp, rfl, by simp, by simp, rfl, by simp [nothing]⟩
      · cases collected
  | cons result results ih =>
      intro s wanted late items s' rest reading collected
      simp only [collect] at collected
      split at collected
      · next nothing =>
          cases collected
          exact ⟨[], 0, [], [], rfl, rfl, by simp, rfl, by simp, by simp, rfl, by simp [nothing]⟩
      · next wants =>
          split at collected
          · next s₁ answered =>
              cases collected
              refine ⟨[result], 0, [], [], rfl, by simp [after, answered], by simp, ?_, by simp,
                by simp, rfl, ?_⟩
              · simp [record, answered, marks]
              · show items.length < items.length + wanted
                omega
          · next s₁ broken more answered =>
              have first : D.record s [result] = marks (some (broken, more)) := by
                simp [record, answered]
              have moved : D.after s [result] = s₁ := by simp [after, answered]
              split at collected
              · cases collected
              · next fits =>
                  split at collected
                  · next refused =>
                      cases collected
                      exact ⟨[result], 0, [], _, rfl, moved.symm, by simp, by simpa using first,
                        by simp, by simp, refused.2, more, by simp [marks, refused.1]⟩
                  · next accepted =>
                      split at collected
                      · next cut =>
                          cases collected
                          exact ⟨[result], 0, [], _, rfl, moved.symm, by simp, by simpa using first,
                            by simp, by simp, by simpa [cut.1] using accepted, cut.2, more,
                            by simp [marks, cut.1]⟩
                      · next goesOn =>
                          obtain ⟨used, breaks, new, tail, rfl, rfl, whole, taken, leading, late',
                            ending⟩ := ih collected
                          refine ⟨result :: used, (if broken then 1 else 0) + breaks, more ++ new,
                            tail, rfl, by simp [after, answered], ?_, ?_, ?_, ?_, ?_⟩
                          · rw [whole, List.append_assoc]
                          · have here : D.record s (result :: used) =
                                marks (some (broken, more)) ++ D.record s₁ used := by
                              rw [record, answered]
                            rw [here, taken]
                            exact marks_append leading tail
                          · intro some
                            cases broken with
                            | false =>
                                have before := leading (by simpa using some)
                                exact ⟨(List.append_eq_nil_iff.mp before.1).1, before.2⟩
                            | true => exact ⟨by simpa using goesOn, by simpa using accepted⟩
                          · rw [late']
                            cases broken with
                            | false => simp
                            | true =>
                                exact ⟨fun _ => Or.inr (by rw [if_pos rfl]; omega),
                                  fun _ => by simp⟩
                          · have length : (items ++ more).length + (wanted - more.length) =
                                items.length + wanted := by
                              rw [List.length_append]
                              omega
                            rwa [length] at ending

/-- **What one call reports.** -/
theorem call_takes (D : Device σ ρ α) {tolerant : Bool} {s s' : σ} {results rest : List ρ}
    {wanted : Nat} {reading : Reading α}
    (called : D.call tolerant (s, results) wanted = some ((s', rest), reading)) :
    ∃ used, results = used ++ rest ∧ s' = D.after s used ∧
      Takes tolerant wanted reading (D.record s used) := by
  obtain ⟨⟨s₁, rest₁, reading₁⟩, collected, made⟩ := Option.map_eq_some_iff.mp called
  cases made
  obtain ⟨used, breaks, new, tail, split, moved, whole, taken, leading, late, ending⟩ :=
    D.collect_record collected
  rw [List.nil_append] at whole
  subst whole
  refine ⟨used, split, moved, breaks, tail, taken, by simpa using late, fun strict => ?_,
    by simpa using ending⟩
  exact Nat.eq_zero_of_not_pos fun some => by cases strict.symm.trans (leading some).2

/-- **The calls of a run cut the record into stretches**, one for each call and in their order. -/
theorem runCalls_record (D : Device σ ρ α) {tolerant : Bool} {s s' : σ} {results rest : List ρ}
    {requests : List Nat} {log : List (Nat × Reading α)}
    (run : runCalls (D.call tolerant) (s, results) requests = some ((s', rest), log)) :
    ∃ used stretches, results = used ++ rest ∧ s' = D.after s used ∧
      D.record s used = stretches.flatten ∧
      List.Forall₂ (fun entry stretch => Takes tolerant entry.1 entry.2 stretch) log stretches := by
  let Cut (now : σ × List ρ) (log : List (Nat × Reading α)) : Prop :=
    ∃ used stretches, results = used ++ now.2 ∧ now.1 = D.after s used ∧
      D.record s used = stretches.flatten ∧
      List.Forall₂ (fun entry stretch => Takes tolerant entry.1 entry.2 stretch) log stretches
  have initial : Cut (s, results) [] := ⟨[], [], rfl, rfl, rfl, .nil⟩
  have inv := runCalls_invariant (I := Cut)
    (fun now log wanted then' reading inv called => ?_) initial run
  · simpa [Cut] using inv
  · obtain ⟨used, stretches, split, moved, record, takes⟩ := inv
    obtain ⟨more, split', moved', takes'⟩ := D.call_takes called
    refine ⟨used ++ more, stretches ++ [D.record now.1 more], ?_, ?_, ?_, ?_⟩
    · rw [split, split', List.append_assoc]
    · rw [moved', moved]
      exact (List.foldl_append ..).symm
    · rw [record_append, record, moved]
      simp
    · exact List.rel_append takes (.cons takes' .nil)

/-- Calls whose results are read through a function. -/
theorem runCalls_map {τ γ κ δ : Type} (call : τ → γ → Option (τ × κ)) (report : γ → κ → δ) {s t : τ}
    {calls : List γ} {log : List (γ × δ)}
    (run : runCalls (fun s c => (call s c).map fun (t, r) => (t, report c r)) s calls =
      some (t, log)) :
    ∃ raw, runCalls call s calls = some (t, raw) ∧
      log = raw.map fun (c, r) => (c, report c r) := by
  induction calls generalizing s log with
  | nil =>
      obtain ⟨rfl, rfl⟩ : s = t ∧ [] = log := by simpa [runCalls] using run
      exact ⟨[], rfl, rfl⟩
  | cons c calls ih =>
      obtain ⟨⟨u, d⟩, called, continued⟩ := Option.bind_eq_some_iff.mp run
      obtain ⟨⟨v, later⟩, more, made⟩ := Option.map_eq_some_iff.mp continued
      obtain ⟨rfl, rfl⟩ := Prod.mk.inj made
      obtain ⟨⟨w, r⟩, step, same⟩ := Option.map_eq_some_iff.mp called
      obtain ⟨rfl, rfl⟩ := Prod.mk.inj same
      obtain ⟨raw, run', rfl⟩ := ih more
      refine ⟨(c, r) :: raw, ?_, rfl⟩
      simp only [runCalls, step, Option.bind_some, run', Option.map_some]

/-! ## Calls that report nothing -/

/-- A call that has all it asked for and reports no break. -/
def Clean (reading : Reading α) : Prop := reading.ending = .full ∧ reading.late = false

/-- The answers are pieces without a break, and these are their items. -/
def Unbroken (D : Device σ ρ α) : σ → List ρ → List α → Prop
  | _, [], items => items = []
  | s, result :: results, items =>
      ∃ more later, (D.answer s result).2 = some (false, more) ∧ items = more ++ later ∧
        D.Unbroken (D.answer s result).1 results later

theorem Unbroken.append {D : Device σ ρ α} {s : σ} {first second : List ρ} {items later : List α}
    (unbroken : D.Unbroken s first items) (goesOn : D.Unbroken (D.after s first) second later) :
    D.Unbroken s (first ++ second) (items ++ later) := by
  induction first generalizing s items with
  | nil =>
      obtain rfl : items = [] := unbroken
      exact goesOn
  | cons result first ih =>
      obtain ⟨more, rest, answered, rfl, unbroken⟩ := unbroken
      exact ⟨more, rest ++ later, answered, List.append_assoc .., ih unbroken goesOn⟩

/-- The loop of a call that turns out to be clean. -/
theorem collect_clean (D : Device σ ρ α) {tolerant : Bool} {results rest : List ρ} {s s' : σ}
    {wanted : Nat} {late : Bool} {items : List α} {reading : Reading α}
    (collected : D.collect tolerant results s wanted late items = some (s', rest, reading))
    (clean : Clean reading) :
    late = false ∧ ∃ used new, results = used ++ rest ∧ s' = D.after s used ∧
      reading.items = items ++ new ∧ new.length = wanted ∧ D.Unbroken s used new := by
  induction results generalizing s wanted late items with
  | nil =>
      simp only [collect] at collected
      split at collected
      · next nothing =>
          cases collected
          exact ⟨clean.2, [], [], rfl, rfl, by simp, nothing.symm, rfl⟩
      · cases collected
  | cons result results ih =>
      simp only [collect] at collected
      split at collected
      · next nothing =>
          cases collected
          exact ⟨clean.2, [], [], rfl, rfl, by simp, nothing.symm, rfl⟩
      · split at collected
        · cases collected
          cases clean.1
        · next s₁ broken more answered =>
            split at collected
            · cases collected
            · next fits =>
                split at collected
                · cases collected
                  cases clean.1
                · split at collected
                  · cases collected
                    cases clean.1
                  · obtain ⟨early, used, new, rfl, rfl, whole, length, unbroken⟩ := ih collected
                    rw [Bool.or_eq_false_iff] at early
                    obtain ⟨early, rfl⟩ := early
                    refine ⟨early, result :: used, more ++ new, rfl, by simp [after, answered],
                      by rw [whole, List.append_assoc], by rw [List.length_append]; omega, ?_⟩
                    exact ⟨more, new, by rw [answered], rfl, by rw [answered]; exact unbroken⟩

/-- **A run of clean calls** returns everything the device gave, in order and once, and there was
neither a break nor a failure in it. -/
theorem runCalls_clean (D : Device σ ρ α) {tolerant : Bool} {s s' : σ} {results rest : List ρ}
    {requests : List Nat} {log : List (Nat × Reading α)}
    (run : runCalls (D.call tolerant) (s, results) requests = some ((s', rest), log))
    (clean : ∀ entry ∈ log, Clean entry.2) :
    (∀ entry ∈ log, entry.2.items.length = entry.1) ∧ ∃ used, results = used ++ rest ∧
      s' = D.after s used ∧ D.Unbroken s used (log.flatMap fun entry => entry.2.items) := by
  induction requests generalizing s results log with
  | nil =>
      obtain ⟨⟨rfl, rfl⟩, rfl⟩ : (s = s' ∧ results = rest) ∧ [] = log := by
        simpa [runCalls] using run
      exact ⟨by simp, [], rfl, rfl, rfl⟩
  | cons wanted requests ih =>
      obtain ⟨⟨⟨s₁, rest₁⟩, reading⟩, called, continued⟩ := Option.bind_eq_some_iff.mp run
      obtain ⟨⟨end', later⟩, more, made⟩ := Option.map_eq_some_iff.mp continued
      obtain ⟨rfl, rfl⟩ := Prod.mk.inj made
      obtain ⟨⟨s₂, rest₂, reading₂⟩, collected, same⟩ := Option.map_eq_some_iff.mp called
      cases same
      obtain ⟨_, used, new, rfl, rfl, whole, length, unbroken⟩ :=
        D.collect_clean collected (clean (wanted, reading) (by simp))
      obtain ⟨lengths, used', rfl, rfl, goesOn⟩ :=
        ih more fun entry member => clean entry (List.mem_cons_of_mem _ member)
      rw [List.nil_append] at whole
      refine ⟨List.forall_mem_cons.mpr ⟨whole ▸ length, lengths⟩, used ++ used',
        (List.append_assoc ..).symm, (List.foldl_append ..).symm, ?_⟩
      rw [List.flatMap_cons, whole]
      exact unbroken.append goesOn

/-- A call on a device that gives nothing but pieces without a break is clean, if it returns. -/
theorem collect_of_unbroken (D : Device σ ρ α) {tolerant : Bool} {results rest : List ρ} {s s' : σ}
    {wanted : Nat} {items all : List α} {reading : Reading α} (unbroken : D.Unbroken s results all)
    (collected : D.collect tolerant results s wanted false items = some (s', rest, reading)) :
    Clean reading ∧ ∃ later, D.Unbroken s' rest later := by
  induction results generalizing s wanted items all with
  | nil =>
      simp only [collect] at collected
      split at collected
      · cases collected
        exact ⟨⟨rfl, rfl⟩, all, unbroken⟩
      · cases collected
  | cons result results ih =>
      simp only [collect] at collected
      split at collected
      · cases collected
        exact ⟨⟨rfl, rfl⟩, all, unbroken⟩
      · obtain ⟨more, later, answered, rfl, goesOn⟩ := unbroken
        rcases answer : D.answer s result with ⟨s₁, piece⟩
        rw [answer] at answered goesOn collected
        obtain rfl : piece = some (false, more) := answered
        simp only [Bool.false_eq_true, false_and, if_false, Bool.or_false] at collected
        split at collected
        · cases collected
        · exact ih goesOn collected

/-- **A device that gives nothing but pieces without a break makes every call clean.** -/
theorem runCalls_of_unbroken (D : Device σ ρ α) {tolerant : Bool} {s s' : σ}
    {results rest : List ρ} {all : List α} {requests : List Nat} {log : List (Nat × Reading α)}
    (unbroken : D.Unbroken s results all)
    (run : runCalls (D.call tolerant) (s, results) requests = some ((s', rest), log)) :
    ∀ entry ∈ log, Clean entry.2 := by
  let Ahead (now : σ × List ρ) (log : List (Nat × Reading α)) : Prop :=
    (∃ later, D.Unbroken now.1 now.2 later) ∧ ∀ entry ∈ log, Clean entry.2
  have initial : Ahead (s, results) [] := ⟨⟨all, unbroken⟩, by simp⟩
  have inv := runCalls_invariant (I := Ahead) (fun now log wanted next reading inv called => ?_)
    initial run
  · simpa using inv.2
  · obtain ⟨⟨s₂, rest₂, reading₂⟩, collected, same⟩ := Option.map_eq_some_iff.mp called
    cases same
    obtain ⟨later, ahead⟩ := inv.1
    obtain ⟨clean, more⟩ := D.collect_of_unbroken ahead collected
    refine ⟨more, fun entry member => ?_⟩
    rcases List.mem_append.mp member with old | new
    · exact inv.2 entry old
    · obtain rfl := List.mem_singleton.mp new
      exact clean

end Device

end Bingewatch.Foundation
