import Bingewatch.Machine.Descriptor

/-!
# A segment hands a chunk to its destination

`write_to_dest` (`src/segment.c`) offers the rest of a chunk to the destination again and again
until nothing is left. It leaves early when a write reports completion or an error; every other
status only subtracts the bytes the write reports.

Another segment may stop the destination at any time. A stopped destination swallows the calls and
reports success with no bytes, so the rest never gets smaller: `writeToDest_returns_iff` says that
the loop returns exactly when no stop comes before the pass that ends it.
-/

set_option autoImplicit false

namespace Bingewatch.Stream

open Machine

/-! ## The loop -/

/-- What the loop of `write_to_dest` makes of the status of a write. -/
inductive WritePass where
  | goOn
  | complete
  | fail
  deriving DecidableEq, Repr

def writePass : IoStatus → WritePass
  | .complete => .complete
  | .error => .fail
  | _ => .goOn

/-- A destination as a segment meets it: what its write filter answers to the bytes offered in the
`pass`-th pass of the loop, and whether the destination is stopped before that pass. -/
structure Destination where
  filter : (pass : Nat) → List UInt8 → IoStatus × Nat
  stops : (pass : Nat) → Bool

/-- How `write_to_dest` left its loop: the byte count it reports, and whether it asks for completion
or has reported an error and stopped the segment. -/
structure WriteResult where
  written : Nat
  doComplete : Bool := false
  stopSegment : Bool := false
  deriving DecidableEq, Repr

/-- `machine_desc_write` on the destination. A stop sets the write side to `IO_DESC_DISABLING`. -/
def Destination.write (dst : Destination) (pass : Nat) (side : IoDescState) (data : List UInt8) :
    IoDescState × IoStatus × Nat :=
  let side := if dst.stops pass then .disabling else side
  (machineDescIo (fun side => some side) (fun _ side => side) 0 data.length
    (fun side => some (side, dst.filter pass data)) side).getD (side, .error, data.length)

/-- The loop of `write_to_dest` from the `pass`-th pass on: `data` is the rest of the chunk and
`written` the bytes counted so far. A loop that needs more passes than the fuel has is `none`. -/
def writeLoop (dst : Destination) :
    (fuel pass : Nat) → IoDescState → (data : List UInt8) → (written : Nat) → Option WriteResult
  | _, _, _, [], written => some { written := written }
  | 0, _, _, _ :: _, _ => none
  | fuel + 1, pass, side, x :: rest, written =>
      let data := x :: rest
      let (side, status, n) := dst.write pass side data
      match writePass status with
      | .complete => some { written := written, doComplete := true }
      | .fail => some { written := 0, stopSegment := true }
      | .goOn => writeLoop dst fuel (pass + 1) side (data.drop n) (written + n)

/-- `write_to_dest`, with a write side that is enabled at the start. -/
def writeToDest (dst : Destination) (fuel : Nat) (chunk : List UInt8) : Option WriteResult :=
  writeLoop dst fuel 0 .enabled chunk 0

/-! ## When it returns -/

/-- Whenever it is called, the filter ends the loop or accepts at least one of the bytes offered,
and no more than these. -/
def Destination.Cooperates (dst : Destination) : Prop :=
  ∀ pass data, data ≠ [] → writePass (dst.filter pass data).1 = .goOn →
    1 ≤ (dst.filter pass data).2 ∧ (dst.filter pass data).2 ≤ data.length

/-- The number of filter calls, from the `pass`-th on, after which the loop ends on a destination
that is not stopped: the last one takes the rest of the data, or reports completion or an error. A
filter that cooperates needs no more calls than there are bytes. -/
def Destination.callsNeeded (dst : Destination) : (bound pass : Nat) → List UInt8 → Nat
  | _, _, [] => 0
  | 0, _, _ :: _ => 0
  | bound + 1, pass, x :: rest =>
      match writePass (dst.filter pass (x :: rest)).1 with
      | .goOn =>
          dst.callsNeeded bound (pass + 1) ((x :: rest).drop (dst.filter pass (x :: rest)).2) + 1
      | _ => 1

section Returns

variable {dst : Destination}

/-- Before a stop a write calls the filter. -/
theorem write_enabled {pass : Nat} {data : List UInt8} (running : dst.stops pass = false) :
    dst.write pass .enabled data = (.enabled, dst.filter pass data) := by
  simp [Destination.write, running, machineDescIo]

/-- After a stop a write does nothing. -/
theorem write_silenced {pass : Nat} {side : IoDescState} (data : List UInt8)
    (silenced : dst.stops pass = true ∨ side = .disabling ∨ side = .disabled) :
    dst.write pass side data = (.disabled, .success, 0) := by
  rcases silenced with stop | rfl | rfl
  · simp [Destination.write, stop, machineDescIo]
  · simp [Destination.write, machineDescIo]
  · cases stop : dst.stops pass <;> simp [Destination.write, stop, machineDescIo]

/-- **A stopped destination keeps the loop going for ever.** -/
theorem writeLoop_silenced (fuel : Nat) {pass written : Nat} {side : IoDescState}
    {data : List UInt8} (nonempty : data ≠ [])
    (silenced : dst.stops pass = true ∨ side = .disabling ∨ side = .disabled) :
    writeLoop dst fuel pass side data written = none := by
  obtain ⟨x, rest, rfl⟩ := List.exists_cons_of_ne_nil nonempty
  induction fuel generalizing pass side written with
  | zero => rfl
  | succ fuel ih =>
      simp only [writeLoop, write_silenced _ silenced, writePass, List.drop_zero]
      exact ih (Or.inr (Or.inr rfl))

theorem writeLoop_succ {fuel pass written : Nat} {x : UInt8} {rest : List UInt8}
    (running : dst.stops pass = false)
    (goOn : writePass (dst.filter pass (x :: rest)).1 = .goOn) :
    writeLoop dst (fuel + 1) pass .enabled (x :: rest) written =
      writeLoop dst fuel (pass + 1) .enabled ((x :: rest).drop (dst.filter pass (x :: rest)).2)
        (written + (dst.filter pass (x :: rest)).2) := by
  simp only [writeLoop, write_enabled running, goOn]

/-- The loop returns exactly when no stop comes before one of the filter calls it needs. -/
theorem writeLoop_returns_iff (cooperates : dst.Cooperates) {bound : Nat} (pass : Nat)
    {data : List UInt8} (written : Nat) (short : data.length ≤ bound) :
    (∃ fuel result, writeLoop dst fuel pass .enabled data written = some result) ↔
      ∀ j, j < dst.callsNeeded bound pass data → dst.stops (pass + j) = false := by
  induction bound generalizing pass data written with
  | zero =>
      obtain rfl : data = [] := List.length_eq_zero_iff.mp (Nat.le_zero.mp short)
      exact iff_of_true ⟨0, _, rfl⟩ fun j before => absurd before (Nat.not_lt_zero j)
  | succ bound ih =>
      cases data with
      | nil => exact iff_of_true ⟨0, _, rfl⟩ fun j before => absurd before (Nat.not_lt_zero j)
      | cons x rest =>
          cases first : dst.stops pass with
          | true =>
              -- The loop makes at least one pass, and none of them returns.
              have silent : ∀ fuel,
                  writeLoop dst fuel pass .enabled (x :: rest) written = none := fun fuel =>
                writeLoop_silenced fuel (by simp) (Or.inl first)
              have needed : 0 < dst.callsNeeded (bound + 1) pass (x :: rest) := by
                simp only [Destination.callsNeeded]
                split <;> exact Nat.succ_pos _
              refine iff_of_false ?_ fun running => ?_
              · rintro ⟨fuel, result, returned⟩
                cases (silent fuel).symm.trans returned
              · cases first.symm.trans (running 0 needed)
          | false =>
              cases ends : writePass (dst.filter pass (x :: rest)).1 with
              | complete | fail =>
                  have one : dst.callsNeeded (bound + 1) pass (x :: rest) = 1 := by
                    simp only [Destination.callsNeeded, ends]
                  refine iff_of_true
                    ⟨1, _, by simp only [writeLoop, write_enabled first, ends]; rfl⟩ ?_
                  intro j before
                  obtain rfl : j = 0 := by omega
                  exact first
              | goOn =>
                  have accepted := (cooperates pass (x :: rest) (by simp) ends).1
                  have shorter : ((x :: rest).drop (dst.filter pass (x :: rest)).2).length ≤
                      bound := by
                    simp only [List.length_drop, List.length_cons] at short ⊢
                    omega
                  have later := ih (pass + 1) (written + (dst.filter pass (x :: rest)).2) shorter
                  have needed : dst.callsNeeded (bound + 1) pass (x :: rest) =
                      dst.callsNeeded bound (pass + 1)
                        ((x :: rest).drop (dst.filter pass (x :: rest)).2) + 1 := by
                    simp only [Destination.callsNeeded, ends]
                  constructor
                  · rintro ⟨fuel, result, returned⟩ j before
                    cases fuel with
                    | zero => cases returned
                    | succ fuel =>
                        rw [writeLoop_succ first ends] at returned
                        cases j with
                        | zero => exact first
                        | succ j =>
                            rw [Nat.add_comm j 1, ← Nat.add_assoc]
                            exact later.mp ⟨fuel, result, returned⟩ j (by omega)
                  · intro running
                    obtain ⟨fuel, result, returned⟩ := later.mpr fun j before => by
                      rw [Nat.add_assoc, Nat.add_comm 1 j]
                      exact running (j + 1) (by omega)
                    exact ⟨fuel + 1, result, (writeLoop_succ first ends).trans returned⟩

end Returns

/-- **`write_to_dest` returns exactly when the destination is not stopped before the last of the
writes the chunk needs.** -/
theorem writeToDest_returns_iff (dst : Destination) (chunk : List UInt8)
    (cooperates : dst.Cooperates) :
    (∃ fuel result, writeToDest dst fuel chunk = some result) ↔
      ∀ pass, pass < dst.callsNeeded chunk.length 0 chunk → dst.stops pass = false := by
  have returns := writeLoop_returns_iff cooperates 0 0 (Nat.le_refl chunk.length)
  simp only [Nat.zero_add] at returns
  exact returns

/-- A destination that takes one byte at a time and is stopped before the given pass. -/
def oneByteDestination (stop : Nat) : Destination where
  filter := fun _ _ => (.success, 1)
  stops := fun pass => pass == stop

theorem oneByteDestination_cooperates (stop : Nat) : (oneByteDestination stop).Cooperates := by
  intro pass data nonempty _
  exact ⟨Nat.le_refl 1, List.length_pos_iff.mpr nonempty⟩

/-- A stop after the last byte does no harm. -/
theorem writeToDest_returns_stopped_late :
    (∃ fuel result, writeToDest (oneByteDestination 2) fuel [7, 8] = some result) ↔
      ∀ pass, pass < (oneByteDestination 2).callsNeeded 2 0 [7, 8] →
        (oneByteDestination 2).stops pass = false :=
  writeToDest_returns_iff (oneByteDestination 2) [7, 8] (oneByteDestination_cooperates 2)

/-- A destination stopped while it has taken one of two bytes keeps the segment's thread for
ever. -/
theorem writeToDest_stopped_between :
    ¬ ∀ (dst : Destination) (chunk : List UInt8), dst.Cooperates →
      ∃ fuel result, writeToDest dst fuel chunk = some result := by
  intro always
  obtain ⟨fuel, result, returned⟩ :=
    always (oneByteDestination 1) [7, 8] (oneByteDestination_cooperates 1)
  cases fuel with
  | zero => cases returned
  | succ fuel =>
      rw [writeToDest, writeLoop_succ rfl rfl] at returned
      rw [writeLoop_silenced _ (by simp [oneByteDestination]) (Or.inl rfl)] at returned
      cases returned

end Bingewatch.Stream
