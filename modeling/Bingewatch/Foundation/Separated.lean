import Mathlib.Data.List.DropRight
import Mathlib.Data.List.Infix

/-!
# Lists with separators

A list with separators, such as a path with its slashes, has parts: what stands between two
separators, where empty parts do not count. So separators that are repeated, or that stand at either
end, do not change the parts. `parts_append_sep` cuts a list at any separator, `split_last` and
`cutLast` at the last one.
-/

set_option autoImplicit false

namespace Bingewatch.Foundation

variable {α : Type} [DecidableEq α] {sep : α}

/-- The parts of a list between its separators, without the empty ones. -/
def parts (sep : α) (l : List α) : List (List α) := (l.splitOn sep).filter (· ≠ [])

@[simp] theorem parts_nil : parts sep [] = [] := by
  simp [parts]

theorem parts_append_sep (before after : List α) :
    parts sep (before ++ sep :: after) = parts sep before ++ parts sep after := by
  rw [parts, List.splitOn_append_cons_self, List.filter_append]
  rfl

@[simp] theorem parts_snoc_sep (l : List α) : parts sep (l ++ [sep]) = parts sep l := by
  rw [parts_append_sep, parts_nil, List.append_nil]

@[simp] theorem parts_sep_cons (l : List α) : parts sep (sep :: l) = parts sep l := by
  rw [← List.nil_append (sep :: l), parts_append_sep, parts_nil, List.nil_append]

theorem parts_of_notMem {l : List α} (notMem : sep ∉ l) (filled : l ≠ []) : parts sep l = [l] := by
  simp [parts, List.splitOn_eq_singleton notMem, filled]

omit [DecidableEq α] in
/-- A list is cut at its last separator. -/
theorem split_last {l : List α} (member : sep ∈ l) :
    ∃ before after, l = before ++ sep :: after ∧ sep ∉ after := by
  obtain ⟨after, before, split, notMem⟩ :=
    List.eq_append_cons_of_mem (List.mem_reverse.mpr member)
  refine ⟨before.reverse, after.reverse, ?_, by simpa using notMem⟩
  rw [← List.reverse_reverse l, split]
  simp

/-- What stands before the last separator and after it. -/
def cutLast (sep : α) (l : List α) : Option (List α × List α) :=
  if sep ∈ l then some ((l.rdropWhile (· ≠ sep)).dropLast, l.rtakeWhile (· ≠ sep)) else none

theorem cutLast_append {after : List α} (before : List α) (notMem : sep ∉ after) :
    cutLast sep (before ++ sep :: after) = some (before, after) := by
  have others : ∀ x ∈ after.reverse, decide (x ≠ sep) = true := by
    intro x member
    have other : x ≠ sep := by
      rintro rfl
      exact notMem (List.mem_reverse.mp member)
    simpa using other
  have reversed : (before ++ sep :: after).reverse = after.reverse ++ sep :: before.reverse := by
    simp
  rw [cutLast, if_pos (by simp), List.rdropWhile, List.rtakeWhile, reversed,
    List.dropWhile_append_of_pos others, List.takeWhile_append_of_pos others]
  simp

theorem cutLast_of_notMem {l : List α} (notMem : sep ∉ l) : cutLast sep l = none :=
  if_neg notMem

/-- Separators at the end do not matter. -/
theorem parts_rdropWhile (l : List α) : parts sep (l.rdropWhile (· = sep)) = parts sep l := by
  induction l using List.reverseRecOn with
  | nil => rfl
  | append_singleton l x ih =>
      by_cases same : x = sep
      · subst same
        rw [List.rdropWhile_concat_pos _ _ _ (by simp), parts_snoc_sep, ih]
      · rw [List.rdropWhile_concat_neg _ _ _ (by simpa using same)]

end Bingewatch.Foundation
