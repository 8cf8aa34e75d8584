import Mathlib.Data.List.Basic

/-!
# Copies inside one area

A `memcpy` that moves the elements of an area from the `n`-th on to its front reads from one part of
the area and writes to another. Where the two do not overlap it leaves in its destination what it
read. Where they do, its result depends on the order in which it copies: it copies elements of the
area, and it is not known which.

`Memcpy` is an implementation as far as such copies go. `Memcpy.memmove` leaves what was read in any
case; `Memcpy.backward` copies the last element first and does not.
-/

set_option autoImplicit false

namespace Bingewatch.Foundation

variable {α : Type}

/-- What a `memcpy` leaves in the front of an area, which gets the elements from the `n`-th on. -/
structure Memcpy (α : Type) where
  moved : (area : List α) → (n : Nat) → List α
  length_moved : ∀ area n, (moved area n).length = area.length - n
  mem_of_mem_moved : ∀ {area n x}, x ∈ moved area n → x ∈ area
  moved_apart : ∀ {area n}, area.length - n ≤ n → moved area n = area.drop n

namespace Memcpy

/-- What was read, whether the two parts overlap or not. -/
def memmove : Memcpy α where
  moved := fun area n => area.drop n
  length_moved := fun _ _ => List.length_drop
  mem_of_mem_moved := List.mem_of_mem_drop
  moved_apart := fun _ => rfl

/-- Copy the `i` elements from the `n`-th on, the last one first. -/
def copyBackward (n : Nat) : (i : Nat) → (area : List α) → List α
  | 0, area => area
  | i + 1, area =>
      match area[i + n]? with
      | none => copyBackward n i area
      | some x => copyBackward n i (area.set i x)

theorem length_copyBackward (n i : Nat) (area : List α) :
    (copyBackward n i area).length = area.length := by
  induction i generalizing area with
  | zero => rfl
  | succ i ih =>
      rw [copyBackward]
      split
      · exact ih area
      · exact (ih _).trans List.length_set

theorem mem_of_mem_copyBackward {n i : Nat} {area : List α} {x : α}
    (member : x ∈ copyBackward n i area) : x ∈ area := by
  induction i generalizing area with
  | zero => exact member
  | succ i ih =>
      rw [copyBackward] at member
      split at member
      · exact ih member
      · next y read =>
          rcases List.mem_or_eq_of_mem_set (ih member) with stays | rfl
          · exact stays
          · exact List.mem_of_getElem? read

/-- As long as no element is read that was written before. -/
theorem copyBackward_apart {n i : Nat} {area : List α} (apart : i ≤ n)
    (room : i + n ≤ area.length) :
    copyBackward n i area = (area.drop n).take i ++ area.drop i := by
  induction i generalizing area with
  | zero => simp [copyBackward]
  | succ i ih =>
      obtain ⟨x, read⟩ : ∃ x, area[i + n]? = some x :=
        ⟨_, List.getElem?_eq_getElem (by omega)⟩
      have next : (area.drop n)[i]? = some x := by
        rw [List.getElem?_drop, Nat.add_comm]
        exact read
      have written : (area.set i x).drop i = x :: area.drop (i + 1) := by
        rw [List.drop_set, if_neg (Nat.lt_irrefl i), Nat.sub_self,
          List.drop_eq_getElem_cons (by omega), List.set_cons_zero]
      rw [copyBackward, read]
      simp only
      rw [ih (by omega) (by rw [List.length_set]; omega), List.drop_set_of_lt (by omega), written,
        List.take_add_one, next, Option.toList_some, List.append_assoc, List.singleton_append]

/-- The last element first. -/
def backward : Memcpy α where
  moved := fun area n => (copyBackward n (area.length - n) area).take (area.length - n)
  length_moved := fun area n => by
    rw [List.length_take, length_copyBackward]
    omega
  mem_of_mem_moved := fun member => mem_of_mem_copyBackward (List.mem_of_mem_take member)
  moved_apart := fun {area n} apart => by
    rcases Nat.le_total n area.length with within | beyond
    · rw [copyBackward_apart apart (by omega), ← List.length_drop, List.take_length,
        List.take_left]
    · rw [Nat.sub_eq_zero_of_le beyond, List.take_zero, List.drop_of_length_le beyond]

/-- Of three elements, the last of which is read twice. -/
example : backward.moved [1, 2, 3] 1 = [3, 3] := by decide

end Memcpy

end Bingewatch.Foundation
