import Mathlib.Data.List.Basic

/-!
# Conveyors

A row of cells, each of which holds a list, is read from its far end back to its near end: the
`flow` of the first cells is the content of the last of them, followed by what stands before it. A
move takes items from the front of one cell to the back of the next one. Moves keep the flow, so
what the far end holds is always a prefix of it, and all of it once the cells before are empty.
-/

set_option autoImplicit false

namespace Bingewatch.Foundation

variable {α : Type}

/-- What the cells up to the `m`-th hold, in the order in which it leaves at the far end. -/
def flow (cell : Nat → List α) : Nat → List α
  | 0 => cell 0
  | m + 1 => cell (m + 1) ++ flow cell m

/-- Items went from the front of cell `j` to the back of the next cell. -/
structure Moves (cell cell' : Nat → List α) (j : Nat) : Prop where
  carried : ∃ items, cell j = items ++ cell' j ∧ cell' (j + 1) = cell (j + 1) ++ items
  elsewhere : ∀ k, k ≠ j → k ≠ j + 1 → cell' k = cell k

theorem flow_congr {cell cell' : Nat → List α} {m : Nat} (same : ∀ k, k ≤ m → cell' k = cell k) :
    flow cell' m = flow cell m := by
  induction m with
  | zero => exact same 0 (Nat.le_refl 0)
  | succ m ih =>
      rw [flow, flow, same (m + 1) (Nat.le_refl _), ih fun k within => same k (by omega)]

/-- **A move keeps the flow.** -/
theorem Moves.flow_eq {cell cell' : Nat → List α} {j m : Nat} (moves : Moves cell cell' j)
    (within : j < m) : flow cell' m = flow cell m := by
  obtain ⟨items, front, back⟩ := moves.carried
  induction m with
  | zero => omega
  | succ m ih =>
      by_cases last : j = m
      · subst last
        -- The items pass the border between the two last cells.
        have pair : cell' (j + 1) ++ cell' j = cell (j + 1) ++ cell j := by
          rw [front, back, List.append_assoc]
        cases j with
        | zero => exact pair
        | succ j =>
            have before : flow cell' j = flow cell j :=
              flow_congr fun k below => moves.elsewhere k (by omega) (by omega)
            rw [flow, flow, flow, flow, before, ← List.append_assoc, pair, List.append_assoc]
      · rw [flow, flow, moves.elsewhere (m + 1) (by omega) (by omega), ih (by omega)]

theorem prefix_flow (cell : Nat → List α) (m : Nat) : cell m <+: flow cell m := by
  cases m with
  | zero => exact List.prefix_rfl
  | succ m => exact List.prefix_append _ _

theorem suffix_flow (cell : Nat → List α) (m : Nat) : cell 0 <:+ flow cell m := by
  induction m with
  | zero => exact List.suffix_rfl
  | succ m ih => exact ih.trans (List.suffix_append _ _)

/-- The cells from the `k`-th on are a conveyor of their own. What they hold leaves first. -/
theorem beyond_prefix (cell : Nat → List α) (k n : Nat) :
    flow (fun j => cell (k + j)) n <+: flow cell (k + n) := by
  induction n with
  | zero => exact prefix_flow cell k
  | succ n ih => exact List.prefix_append_right_inj _ |>.mpr ih

/-- A move that does not come from before the `k`-th cell keeps what is beyond it. -/
theorem Moves.beyond {cell cell' : Nat → List α} {j k n : Nat} (moves : Moves cell cell' j)
    (inside : j + 1 ≠ k) (within : j < k + n) :
    flow (fun j => cell' (k + j)) n = flow (fun j => cell (k + j)) n := by
  by_cases before : j + 1 < k
  · exact flow_congr fun l _ => moves.elsewhere (k + l) (by omega) (by omega)
  · obtain ⟨d, rfl⟩ : ∃ d, j = k + d := ⟨j - k, by omega⟩
    refine Moves.flow_eq (j := d) ⟨moves.carried, fun l notIn notOut => ?_⟩ (by omega)
    exact moves.elsewhere (k + l) (by omega) (by omega)

/-- As long as the other cells are empty, the near end holds the whole flow. -/
theorem flow_eq_first {cell : Nat → List α} {m : Nat}
    (empty : ∀ k, 0 < k → k ≤ m → cell k = []) : flow cell m = cell 0 := by
  induction m with
  | zero => rfl
  | succ m ih =>
      rw [flow, empty (m + 1) (by omega) (Nat.le_refl _), List.nil_append,
        ih fun k positive within => empty k positive (by omega)]

/-- Once the cells before it are empty, the far end holds the whole flow. -/
theorem flow_eq_last {cell : Nat → List α} {m : Nat} (drained : ∀ k, k < m → cell k = []) :
    flow cell m = cell m := by
  induction m with
  | zero => rfl
  | succ m ih =>
      rw [flow, ih fun k below => drained k (by omega), drained m (by omega), List.append_nil]

end Bingewatch.Foundation
