import Mathlib.Data.List.Basic

/-!
# Copying loops

A loop that goes through two areas of memory with one pointer each: in a round it reads some
elements from the first area, computes others from them and stores these in the second, until what
is left of a count is too small for another round. An area is the list of its elements from the
pointer on, so its length is the room that is left; a round that does not find its elements or does
not have the room ends in a fault.

`Copy` is what one round does, `Copy.run` the loop. `Copy.run_eq` says what a loop without a fault
leaves: the pieces of the first area, computed one by one, and the rest of the second area.
-/

set_option autoImplicit false

namespace Bingewatch.Foundation

variable {α β : Type}

/-- The first `n` pieces of `w` elements each. -/
def pieces (w : Nat) : Nat → List α → List (List α)
  | 0, _ => []
  | n + 1, l => l.take w :: pieces w n (l.drop w)

@[simp] theorem length_pieces (w n : Nat) (l : List α) : (pieces w n l).length = n := by
  induction n generalizing l with
  | zero => rfl
  | succ n ih => rw [pieces, List.length_cons, ih]

theorem pieces_append (w n m : Nat) (l : List α) :
    pieces w (n + m) l = pieces w n l ++ pieces w m (l.drop (n * w)) := by
  induction n generalizing l with
  | zero => simp [pieces]
  | succ n ih =>
      rw [Nat.add_right_comm, pieces, pieces, ih, List.drop_drop, List.cons_append, Nat.succ_mul,
        Nat.add_comm w]

/-- Pieces of one element each. -/
theorem flatMap_pieces_one (g : α → List β) (n : Nat) (l : List α) :
    ((pieces 1 n l).flatMap fun x => x.flatMap g) = (l.take n).flatMap g := by
  induction n generalizing l with
  | zero => rfl
  | succ n ih =>
      cases l with
      | nil =>
          have rest := ih []
          simp only [List.take_nil, List.flatMap_nil] at rest ⊢
          simpa [pieces] using rest
      | cons x l => simp [pieces, ih]

/-- What a round of a copying loop does: it reads `width` elements and stores `fill`, takes `cost`
from the count and adds `gain` to the total. -/
structure Copy (α β : Type) where
  width : Nat
  fill : Nat
  cost : Nat
  gain : Nat
  conv : List α → List β
  conv_length : ∀ x, x.length = width → (conv x).length = fill
  cost_pos : 0 < cost

namespace Copy

variable (c : Copy α β)

/-- The loop. A round needs `width` elements of the first area and room for `fill` in the second; a
loop that does not end in as many rounds as the fuel has is a fault too. -/
def run : (fuel remaining : Nat) → (src : List α) → (dst : List β) → Option (List β × Nat)
  | 0, _, _, _ => none
  | fuel + 1, remaining, src, dst =>
      if c.cost ≤ remaining then
        if c.width ≤ src.length ∧ c.fill ≤ dst.length then
          (run fuel (remaining - c.cost) (src.drop c.width) (dst.drop c.fill)).map
            fun (rest, total) => (c.conv (src.take c.width) ++ rest, total + c.gain)
        else none
      else some (dst, 0)

/-- **What the loop leaves**, when both areas are large enough. -/
theorem run_eq {n fuel remaining : Nat} {src : List α} {dst : List β}
    (rounds : remaining / c.cost = n) (enough : n < fuel) (source : n * c.width ≤ src.length)
    (room : n * c.fill ≤ dst.length) :
    c.run fuel remaining src dst =
      some ((pieces c.width n src).flatMap c.conv ++ dst.drop (n * c.fill), n * c.gain) := by
  induction n generalizing fuel remaining src dst with
  | zero =>
      obtain ⟨fuel, rfl⟩ : ∃ k, fuel = k + 1 := ⟨fuel - 1, by omega⟩
      have small : ¬c.cost ≤ remaining := by
        rw [Nat.div_eq_zero_iff] at rounds
        have positive := c.cost_pos
        omega
      simp [run, small, pieces]
  | succ n ih =>
      obtain ⟨fuel, rfl⟩ : ∃ k, fuel = k + 1 := ⟨fuel - 1, by omega⟩
      have large : c.cost ≤ remaining := by
        by_contra small
        rw [Nat.div_eq_of_lt (by omega)] at rounds
        cases rounds
      rw [Nat.succ_mul] at source room
      have later : (remaining - c.cost) / c.cost = n := by
        rw [Nat.div_eq_sub_div c.cost_pos large] at rounds
        exact Nat.succ.inj rounds
      have rest : c.run fuel (remaining - c.cost) (src.drop c.width) (dst.drop c.fill) = _ :=
        ih later (Nat.lt_of_succ_lt_succ enough) (by rw [List.length_drop]; omega)
          (by rw [List.length_drop]; omega)
      rw [run, if_pos large, if_pos ⟨by omega, by omega⟩, rest]
      simp only [Option.map_some, pieces, List.flatMap_cons, List.append_assoc, List.drop_drop,
        Nat.succ_mul, Nat.add_comm c.fill]

/-- A loop that goes through the first area element by element. -/
def each (g : α → List β) (fill cost gain : Nat) (length : ∀ x, (g x).length = fill)
    (positive : 0 < cost) : Copy α β where
  width := 1
  fill := fill
  cost := cost
  gain := gain
  conv := fun x => x.flatMap g
  conv_length := fun x one => by
    obtain ⟨y, rfl⟩ := List.length_eq_one_iff.mp one
    simp [length]
  cost_pos := positive

theorem each_run_eq {g : α → List β} {fill cost gain : Nat} {length : ∀ x, (g x).length = fill}
    {positive : 0 < cost} {fuel remaining : Nat} {front rest : List α} {dst : List β}
    (rounds : remaining / cost = front.length) (enough : front.length < fuel)
    (room : front.length * fill ≤ dst.length) :
    (each g fill cost gain length positive).run fuel remaining (front ++ rest) dst =
      some (front.flatMap g ++ dst.drop (front.length * fill), front.length * gain) := by
  have source : front.length * 1 ≤ (front ++ rest).length := by
    rw [List.length_append]
    omega
  have ran := (each g fill cost gain length positive).run_eq rounds enough source room
  have stored := flatMap_pieces_one g front.length (front ++ rest)
  rw [List.take_left] at stored
  rw [ran]
  exact congrArg (fun out => some (out ++ dst.drop _, _)) stored

end Copy

end Bingewatch.Foundation
