import Mathlib.Algebra.Ring.Nat
import Mathlib.Data.Nat.Init

/-!
# Loops over system calls

A loop makes round after round until it returns; the number of the round stands for what the system
answers in it. `rounds` is where such a loop is after some rounds, and it stays where it has
returned. `rounds_invariant` is the induction rule, `rounds_ends` the rule for a loop whose rounds
lower a measure.

The loops of this kind that move a buffer in parts keep three counts of type `size_t`: what remains,
where the next part begins, and the total. `Parts` are these registers with a record of what was
really moved, and `Parts.call` is one system call, asked for a number of bytes, whose result -1
becomes the largest `size_t`. `Parts.Exact` says that the counts are right; a call that does not
fail keeps that, and `offered` says how far the counts have come by then.
-/

set_option autoImplicit false

namespace Bingewatch.Foundation

/-! ## Rounds -/

/-- A loop is in its next round, or has returned. -/
inductive Progress (σ ρ : Type) where
  | running (s : σ)
  | returned (s : σ) (result : ρ)
  deriving DecidableEq, Repr

section Rounds

variable {σ ρ : Type} {round : Nat → σ → Progress σ ρ} {start : σ}

/-- The state of a loop, or its last one. -/
def Progress.state : Progress σ ρ → σ
  | .running s => s
  | .returned s _ => s

/-- What holds of a running loop's state and of a returned one's holds of the state. -/
theorem Progress.state_holds {P : σ → Prop} {p : Progress σ ρ}
    (running : ∀ s, p = .running s → P s) (returned : ∀ s result, p = .returned s result → P s) :
    P p.state := by
  cases p with
  | running s => exact running s rfl
  | returned s result => exact returned s result rfl

/-- Where a loop is after some rounds. -/
def rounds (round : Nat → σ → Progress σ ρ) (start : σ) : Nat → Progress σ ρ
  | 0 => .running start
  | n + 1 =>
      match rounds round start n with
      | .running s => round n s
      | .returned s result => .returned s result

theorem rounds_succ {n : Nat} {s : σ} (running : rounds round start n = .running s) :
    rounds round start (n + 1) = round n s := by
  rw [rounds, running]

/-- A loop that has returned stays so. -/
theorem rounds_stays {n m : Nat} {s : σ} {result : ρ}
    (returned : rounds round start n = .returned s result) (later : n ≤ m) :
    rounds round start m = .returned s result := by
  induction m, later using Nat.le_induction with
  | base => exact returned
  | succ m _ ih => rw [rounds, ih]

/-- **The invariant rule.** -/
theorem rounds_invariant {I : Nat → Progress σ ρ → Prop} (initial : I 0 (.running start))
    (preserved : ∀ n s, I n (.running s) → I (n + 1) (round n s))
    (stays : ∀ n s result, I n (.returned s result) → I (n + 1) (.returned s result)) (n : Nat) :
    I n (rounds round start n) := by
  induction n with
  | zero => exact initial
  | succ n ih =>
      rw [rounds]
      split
      · next s running =>
          rw [running] at ih
          exact preserved n s ih
      · next s result returned =>
          rw [returned] at ih
          exact stays n s result ih

/-- **The rule for a loop that ends.** -/
theorem rounds_ends {I : Nat → σ → Prop} {r : Nat → σ → Nat} (initial : I 0 start)
    (lower : ∀ n s, I n s → (∃ t result, round n s = .returned t result) ∨
      ∃ t, round n s = .running t ∧ I (n + 1) t ∧ r (n + 1) t < r n s) :
    ∃ n s result, rounds round start n = .returned s result := by
  suffices general : ∀ bound n s, rounds round start n = .running s → I n s → r n s = bound →
      ∃ n s result, rounds round start n = .returned s result by
    exact general _ 0 start rfl initial rfl
  intro bound
  induction bound using Nat.strong_induction_on with
  | _ bound ih =>
      intro n s running inv same
      rcases lower n s inv with ⟨t, result, returned⟩ | ⟨t, moved, inv', less⟩
      · exact ⟨n + 1, t, result, (rounds_succ running).trans returned⟩
      · exact ih (r (n + 1) t) (same ▸ less) (n + 1) t ((rounds_succ running).trans moved) inv' rfl

end Rounds

/-! ## Parts of a buffer -/

/-- The registers of a loop that moves a buffer in parts: the count that remains, the pointer from
the start of the buffer on, and the total. `moves` are the parts that the system has moved, each
with its place and its length. -/
structure Parts where
  remaining : UInt64
  offset : UInt64 := 0
  total : UInt64 := 0
  moves : List (UInt64 × UInt64) := []
  deriving DecidableEq, Repr

/-- What a system call returns that is asked for some bytes: -1, stored in a `size_t`, or a count up
to what was asked for. -/
def reply (result : Option Nat) (asked : UInt64) : UInt64 :=
  match result with
  | none => 0 - 1
  | some count => if count < asked.toNat then UInt64.ofNat count else asked

namespace Parts

/-- The registers after a system call. -/
def call (s : Parts) (result : Option Nat) (asked : UInt64) : Parts where
  remaining := s.remaining - reply result asked
  offset := s.offset + reply result asked
  total := s.total + reply result asked
  moves := if result.isSome then s.moves ++ [(s.offset, reply result asked)] else s.moves

/-- The bytes that were moved. -/
def moved (s : Parts) : Nat := (s.moves.map fun move => move.2.toNat).sum

/-- The parts are inside a buffer of this length. -/
def Inside (length : UInt64) (s : Parts) : Prop :=
  ∀ move ∈ s.moves, move.2 ≠ 0 → move.1.toNat + move.2.toNat ≤ length.toNat

/-- Every part that is not empty begins where the parts before it have ended. -/
def Successive : Nat → List (UInt64 × UInt64) → Prop
  | _, [] => True
  | n, move :: moves => (move.2 ≠ 0 → move.1.toNat = n) ∧ Successive (n + move.2.toNat) moves

/-- The counts are right: what was moved are the successive parts of a beginning of the buffer, and
the counts agree with that. -/
structure Exact (length : UInt64) (s : Parts) : Prop where
  offset : s.offset = s.total
  sum : s.total.toNat + s.remaining.toNat = length.toNat
  moved : s.moved = s.total.toNat
  inside : s.Inside length
  successive : Successive 0 s.moves

theorem exact_start (length : UInt64) : Exact length { remaining := length } where
  offset := rfl
  sum := by simp
  moved := rfl
  inside := by simp [Inside]
  successive := trivial

theorem successive_append {n : Nat} {moves : List (UInt64 × UInt64)} {move : UInt64 × UInt64}
    (before : Successive n moves)
    (next : move.2 ≠ 0 → move.1.toNat = n + (moves.map fun move => move.2.toNat).sum) :
    Successive n (moves ++ [move]) := by
  induction moves generalizing n with
  | nil => exact ⟨by simpa using next, trivial⟩
  | cons first moves ih =>
      refine ⟨before.1, ih before.2 fun filled => ?_⟩
      rw [next filled, List.map_cons, List.sum_cons, Nat.add_assoc]

/-- The last of successive parts begins where those before it have ended. -/
theorem successive_last {n : Nat} {moves : List (UInt64 × UInt64)} {move : UInt64 × UInt64}
    (all : Successive n (moves ++ [move])) (filled : move.2 ≠ 0) :
    move.1.toNat = n + (moves.map fun move => move.2.toNat).sum := by
  induction moves generalizing n with
  | nil => simpa using all.1 filled
  | cons first moves ih =>
      rw [ih all.2, List.map_cons, List.sum_cons, Nat.add_assoc]

end Parts

theorem toNat_reply_some (count : Nat) (asked : UInt64) :
    (reply (some count) asked).toNat = min count asked.toNat := by
  have bound := asked.toNat_lt
  simp only [reply]
  split
  · next less =>
      rw [UInt64.toNat_ofNat', Nat.mod_eq_of_lt (Nat.lt_trans less bound)]
      omega
  · omega

theorem toNat_ne_zero {x : UInt64} (nonzero : x ≠ 0) : x.toNat ≠ 0 := by
  intro zero
  exact nonzero (UInt64.toNat_inj.mp zero)

theorem reply_le {count : Nat} {asked limit : UInt64} (bound : asked ≤ limit) :
    reply (some count) asked ≤ limit := by
  rw [UInt64.le_iff_toNat_le] at bound ⊢
  rw [toNat_reply_some]
  omega

namespace Parts

variable {s : Parts} {length asked : UInt64} {count : Nat}

theorem toNat_remaining_call (within : asked ≤ s.remaining) :
    (s.call (some count) asked).remaining.toNat =
      s.remaining.toNat - min count asked.toNat := by
  simp only [call]
  rw [UInt64.toNat_sub_of_le _ _ (reply_le within), toNat_reply_some]

theorem Exact.toNat_total_call (right : s.Exact length) (within : asked ≤ s.remaining) :
    (s.call (some count) asked).total.toNat = s.total.toNat + min count asked.toNat := by
  have sum := right.sum
  have bound := length.toNat_lt
  have below := UInt64.le_iff_toNat_le.mp within
  simp only [call]
  rw [UInt64.toNat_add, toNat_reply_some, Nat.mod_eq_of_lt (by omega)]

/-- **A call that does not fail** keeps the counts right. -/
theorem Exact.call (right : s.Exact length) (within : asked ≤ s.remaining) :
    (s.call (some count) asked).Exact length := by
  have total : (s.call (some count) asked).total.toNat = s.total.toNat + min count asked.toNat :=
    right.toNat_total_call within
  have remaining : (s.call (some count) asked).remaining.toNat =
      s.remaining.toNat - min count asked.toNat := toNat_remaining_call within
  have sum := right.sum
  have below := UInt64.le_iff_toNat_le.mp within
  have place : s.offset.toNat = s.moved := by rw [right.offset, right.moved]
  refine ⟨?_, by omega, ?_, ?_, ?_⟩
  · simp only [Parts.call, right.offset]
  · have before := right.moved
    simp only [Parts.moved] at before
    simp only [Parts.moved, Parts.call, Option.isSome_some, if_true, List.map_append,
      List.sum_append, List.map_cons, List.map_nil, List.sum_cons, List.sum_nil,
      toNat_reply_some]
    simp only [Parts.call] at total
    omega
  · intro move member filled
    simp only [Parts.call, Option.isSome_some, if_true] at member
    rcases List.mem_append.mp member with old | new
    · exact right.inside move old filled
    · rw [List.mem_singleton.mp new]
      show s.offset.toNat + (reply (some count) asked).toNat ≤ length.toNat
      rw [place, right.moved, toNat_reply_some]
      omega
  · simp only [Parts.call, Option.isSome_some, if_true]
    refine successive_append right.successive fun _ => ?_
    rw [place, Nat.zero_add]
    rfl

end Parts

/-- An alignment, by which lengths are divided. -/
structure Align where
  bytes : UInt64
  positive : bytes ≠ 0
  deriving DecidableEq, Repr

/-- The alignment of single bytes. -/
def Align.byte : Align := ⟨1, by decide⟩

/-- The whole multiples of an alignment in a length. -/
def Align.floor (align : Align) (length : UInt64) : UInt64 := length - length % align.bytes

theorem Align.floor_le (align : Align) (length : UInt64) : align.floor length ≤ length := by
  have part : length % align.bytes ≤ length := by
    rw [UInt64.le_iff_toNat_le, UInt64.toNat_mod]
    exact Nat.mod_le _ _
  rw [UInt64.le_iff_toNat_le, Align.floor, UInt64.toNat_sub_of_le _ _ part]
  exact Nat.sub_le _ _

/-! ## Sequences of results -/

/-- What calls that do not fail may move, each up to a limit. -/
def offered (limit : Nat) (results : Nat → Option Nat) : Nat → Nat
  | 0 => 0
  | n + 1 => offered limit results n + min ((results n).getD 0) limit

theorem offered_mono {limit : Nat} {results : Nat → Option Nat} {n m : Nat} (later : n ≤ m) :
    offered limit results n ≤ offered limit results m := by
  induction m, later using Nat.le_induction with
  | base => exact Nat.le_refl _
  | succ m _ ih => exact Nat.le_trans ih (Nat.le_add_right _ _)

/-- Where what is offered stays bounded, nothing is offered from some call on. -/
theorem offered_stops {limit bound : Nat} {results : Nat → Option Nat}
    (bounded : ∀ n, offered limit results n ≤ bound) :
    ∃ n, ∀ m, n ≤ m → min ((results m).getD 0) limit = 0 := by
  refine Classical.byContradiction fun goes => ?_
  have grows : ∀ k, ∃ n, k ≤ offered limit results n := by
    intro k
    induction k with
    | zero => exact ⟨0, Nat.zero_le _⟩
    | succ k ih =>
        obtain ⟨n, reached⟩ := ih
        have more : ∃ m, n ≤ m ∧ min ((results m).getD 0) limit ≠ 0 :=
          Classical.byContradiction fun none => goes ⟨n, fun m later =>
            Classical.byContradiction fun filled => none ⟨m, later, filled⟩⟩
        obtain ⟨m, later, filled⟩ := more
        have before : offered limit results n ≤ offered limit results m := offered_mono later
        refine ⟨m + 1, ?_⟩
        rw [offered]
        omega
  obtain ⟨n, more⟩ := grows (bound + 1)
  exact absurd (bounded n) (by omega)

/-! ## The plain loop -/

section Plain

variable {ρ : Type} {finish : Parts → ρ} {length : UInt64} {results : Nat → Option Nat}

/-- A round of the loop that asks for all that remains until nothing does. -/
def moveRound (finish : Parts → ρ) (results : Nat → Option Nat) (n : Nat) (s : Parts) :
    Progress Parts ρ :=
  if s.remaining = 0 then .returned s (finish s)
  else .running (s.call (results n) s.remaining)

/-- The loop after some rounds. -/
def moveRounds (finish : Parts → ρ) (length : UInt64) (results : Nat → Option Nat) :
    Nat → Progress Parts ρ :=
  rounds (moveRound finish results) { remaining := length }

/-- The calls before this one that are made do not fail. -/
def Answered (length : UInt64) (results : Nat → Option Nat) (n : Nat) : Prop :=
  ∀ m < n, offered length.toNat results m < length.toNat → results m ≠ none

/-- Where a loop is whose calls do not fail. -/
def Moving (finish : Parts → ρ) (length : UInt64) (results : Nat → Option Nat) (n : Nat) :
    Progress Parts ρ → Prop
  | .running s => s.Exact length ∧ s.total.toNat = min (offered length.toNat results n) length.toNat
  | .returned s result => s.Exact length ∧ s.remaining = 0 ∧ result = finish s ∧
      length.toNat ≤ offered length.toNat results n

theorem moving_ahead {n : Nat} {s : Parts} (right : s.Exact length)
    (total : s.total.toNat = min (offered length.toNat results n) length.toNat) :
    s.remaining = 0 ↔ length.toNat ≤ offered length.toNat results n := by
  have sum := right.sum
  rw [← UInt64.toNat_inj, UInt64.toNat_zero]
  omega

theorem moveRounds_moving {n : Nat} (answered : Answered length results n) :
    Moving finish length results n (moveRounds finish length results n) := by
  induction n with
  | zero => exact ⟨Parts.exact_start length, by simp [offered]⟩
  | succ n ih =>
      have before := ih fun m earlier => answered m (Nat.lt_succ_of_lt earlier)
      cases here : moveRounds finish length results n with
      | returned s result =>
          rw [here] at before
          rw [moveRounds, rounds_stays here (Nat.le_succ n)]
          obtain ⟨right, ended, finished, enough⟩ := before
          exact ⟨right, ended, finished, Nat.le_trans enough (offered_mono (Nat.le_succ n))⟩
      | running s =>
          rw [here] at before
          obtain ⟨right, total⟩ := before
          rw [moveRounds, rounds_succ here, moveRound]
          split
          · next ended =>
              have enough := (moving_ahead right total).mp ended
              exact ⟨right, ended, rfl, Nat.le_trans enough (offered_mono (Nat.le_succ n))⟩
          · next more =>
              have ahead := Nat.lt_of_not_le (mt (moving_ahead right total).mpr more)
              obtain ⟨count, result⟩ :=
                Option.ne_none_iff_exists'.mp (answered n (Nat.lt_succ_self n) ahead)
              rw [result]
              refine ⟨right.call (UInt64.le_refl _), ?_⟩
              have sum := right.sum
              rw [right.toNat_total_call (UInt64.le_refl _), offered, result, Option.getD_some]
              omega

/-- As long as not enough was offered, the loop is running. -/
theorem moveRounds_running (finish : Parts → ρ) {n : Nat} (answered : Answered length results n)
    (ahead : offered length.toNat results n < length.toNat) :
    ∃ s, moveRounds finish length results n = .running s ∧ s.Exact length ∧
      s.total.toNat = offered length.toNat results n ∧ s.remaining ≠ 0 := by
  have moving : Moving finish length results n (moveRounds finish length results n) :=
    moveRounds_moving answered
  cases here : moveRounds finish length results n with
  | running s =>
      rw [here] at moving
      obtain ⟨right, total⟩ := moving
      refine ⟨s, rfl, right, by omega, fun ended => ?_⟩
      exact absurd ((moving_ahead right total).mp ended) (by omega)
  | returned s result =>
      rw [here] at moving
      exact absurd moving.2.2.2 (by omega)

/-- When enough was offered, it returns with everything moved. -/
theorem moveRounds_returned (finish : Parts → ρ) {n : Nat} (answered : Answered length results n)
    (enough : length.toNat ≤ offered length.toNat results n) :
    ∃ s, moveRounds finish length results (n + 1) = .returned s (finish s) ∧ s.Exact length ∧
      s.total = length := by
  have moving : Moving finish length results n (moveRounds finish length results n) :=
    moveRounds_moving answered
  have all : ∀ s : Parts, s.Exact length → s.remaining = 0 → s.total = length := by
    intro s right ended
    have sum := right.sum
    rw [ended, UInt64.toNat_zero, Nat.add_zero] at sum
    exact UInt64.toNat_inj.mp sum
  cases here : moveRounds finish length results n with
  | running s =>
      rw [here] at moving
      obtain ⟨right, total⟩ := moving
      have ended := (moving_ahead right total).mpr enough
      refine ⟨s, ?_, right, all s right ended⟩
      rw [moveRounds, rounds_succ here, moveRound, if_pos ended]
  | returned s result =>
      rw [here] at moving
      obtain ⟨right, ended, finished, -⟩ := moving
      refine ⟨s, ?_, right, all s right ended⟩
      rw [moveRounds, rounds_stays here (Nat.le_succ n), finished]

end Plain

end Bingewatch.Foundation
