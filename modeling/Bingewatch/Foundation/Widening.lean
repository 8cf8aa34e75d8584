import Mathlib.Algebra.Ring.Nat

/-!
# Widening in place

A loop that replaces the elements of an array by blocks of `w` elements each, inside one area of
memory: in round `i` it reads the element `src + i` and writes the block from `dst + w * i` on. The
writes move `w` times as fast as the reads, and catch up with them unless the source begins far
enough behind the destination.

`widen` is the memory after some rounds. As long as round `i` does not begin to write behind the
element it reads (`dst + w * i ≤ src + i`), every element is read as it was at the start
(`widen_source`), and the blocks are those of the original elements (`widen_block`).
-/

set_option autoImplicit false

namespace Bingewatch.Foundation

variable {β : Type} {w : Nat}

/-- A memory with a block stored from an address on. -/
def storeBlock (m : Nat → β) (a : Nat) (block : Fin w → β) : Nat → β :=
  fun x => if h : a ≤ x ∧ x - a < w then block ⟨x - a, h.2⟩ else m x

@[simp] theorem storeBlock_add (m : Nat → β) (a : Nat) (block : Fin w → β) (j : Fin w) :
    storeBlock m a block (a + j) = block j := by
  have inside : a ≤ a + (j : Nat) ∧ a + (j : Nat) - a < w := ⟨Nat.le_add_right _ _, by omega⟩
  rw [storeBlock, dif_pos inside]
  congr 1
  exact Fin.ext (Nat.add_sub_cancel_left a j)

theorem storeBlock_of_lt {m : Nat → β} {a x : Nat} {block : Fin w → β} (below : x < a) :
    storeBlock m a block x = m x := dif_neg (by omega)

theorem storeBlock_of_le {m : Nat → β} {a x : Nat} {block : Fin w → β} (above : a + w ≤ x) :
    storeBlock m a block x = m x := dif_neg (by omega)

/-- The memory after some rounds of the loop. -/
def widen (conv : β → Fin w → β) (dst src : Nat) (m : Nat → β) : Nat → Nat → β
  | 0 => m
  | k + 1 =>
      let m := widen conv dst src m k
      storeBlock m (dst + w * k) (conv (m (src + k)))

section

variable {conv : β → Fin w → β} {dst src : Nat} {m : Nat → β}

/-- The loop writes nothing behind its blocks. -/
theorem widen_above {k x : Nat} (above : dst + w * k ≤ x) : widen conv dst src m k x = m x := by
  induction k with
  | zero => rfl
  | succ k ih =>
      rw [Nat.mul_succ] at above
      rw [widen, storeBlock_of_le (by omega), ih (by omega)]

/-- **What a round reads** was not written before. -/
theorem widen_source (conv : β → Fin w → β) (m : Nat → β) {k : Nat}
    (ahead : dst + w * k ≤ src + k) :
    widen conv dst src m k (src + k) = m (src + k) := widen_above ahead

/-- A block that was written stays. -/
theorem widen_later {k n x : Nat} (rounds : k ≤ n) (below : x < dst + w * k) :
    widen conv dst src m n x = widen conv dst src m k x := by
  induction n, rounds using Nat.le_induction with
  | base => rfl
  | succ n more ih =>
      have places : w * k ≤ w * n := Nat.mul_le_mul_left w more
      rw [widen, storeBlock_of_lt (by omega), ih]

/-- **The blocks are those of the original elements.** -/
theorem widen_block (conv : β → Fin w → β) (m : Nat → β) {n i : Nat} (inside : i < n)
    (ahead : dst + w * i ≤ src + i) (j : Fin w) :
    widen conv dst src m n (dst + w * i + j) = conv (m (src + i)) j := by
  have place : dst + w * i + j < dst + w * (i + 1) := by
    rw [Nat.mul_succ]
    omega
  rw [widen_later inside place, widen, storeBlock_add, widen_source conv m ahead]

end

end Bingewatch.Foundation
