import Bingewatch.Machine.Descriptor
import Bingewatch.Foundation.Parts
import Mathlib.Data.Nat.Find

/-!
# The fifo machine

The fifo machine (`src/fifo-machine.c`) opens its fifo at the first transfer. `fifo_read` makes one
call to `read` and reports its result; `fifo_write` calls `write` until the aligned request is
written.

Both keep the result in a `size_t`. For `fifo_read` an error is then the largest count there is, and
it is reported as a success. For `fifo_write` an error puts the pointer one byte back, and nothing
ends the loop but a count of what remains that has come to zero. `fifo_reports_iff` says for which
results the two report what they moved.
-/

set_option autoImplicit false

namespace Bingewatch.Fifo

open Foundation Machine

/-! ## The machine -/

/-- The part of `struct fifo_desc_t` that the transfers use: the file descriptor, zero when the fifo
is not open. -/
structure FifoDesc where
  f : Int := 0
  deriving DecidableEq, Repr

/-- `open_fifo`; `opened` is the result of `open`. -/
def FifoDesc.openFifo (fd : FifoDesc) (opened : Int) : FifoDesc :=
  if fd.f ≠ 0 then fd else if opened < 0 then fd else { fd with f := opened }

/-- What a read leaves: the status, the byte count, and the bytes that were really read. -/
structure FifoRead where
  status : IoStatus
  bytes : UInt64
  read : Nat
  deriving DecidableEq, Repr

/-- `fifo_read`; `desc` is the descriptor of the handle, and `result` the result of `read`. -/
def fifoRead (desc : Option FifoDesc) (opened : Int) (align : Align) (request : UInt64)
    (result : Option Nat) : FifoRead :=
  match desc with
  | none => ⟨.error, 0, 0⟩
  | some fd =>
      if (fd.openFifo opened).f = 0 then ⟨.error, request, 0⟩
      else
        let remaining := align.floor request
        let s := Parts.call { remaining := remaining } result remaining
        let b := reply result remaining
        if b < 1 then ⟨.error, 0, s.moved⟩ else ⟨.success, b, s.moved⟩

/-- The registers of a write that has not come to its loop. -/
def idle : Parts := { remaining := 0 }

/-- `fifo_write` after some rounds of its loop; `results` are the results of `write`. -/
def fifoWrite (desc : Option FifoDesc) (opened : Int) (align : Align) (request : UInt64)
    (results : Nat → Option Nat) (n : Nat) : Progress Parts (IoStatus × UInt64) :=
  if request = 0 then .returned idle (.success, request)
  else
    match desc with
    | none => .returned idle (.error, 0)
    | some fd =>
        if (fd.openFifo opened).f = 0 then .returned idle (.error, request)
        else moveRounds (fun s => (.success, s.total)) (align.floor request) results n

/-! ## What the transfers promise -/

/-- A success reports the bytes that were read, at least one and at most the request; everything
else is an error. -/
def ReadReports (request : UInt64) (r : FifoRead) : Prop :=
  r.status = .success ∧ 1 ≤ r.bytes ∧ r.bytes ≤ request ∧ r.bytes.toNat = r.read ∨
    r.status = .error

/-- Successive parts of the caller's buffer are written, the write ends when `write` writes nothing
any more, and the byte count is what was written. -/
structure WriteReports (request : UInt64) (results : Nat → Option Nat)
    (run : Nat → Progress Parts (IoStatus × UInt64)) : Prop where
  inside : ∀ n, (run n).state.Inside request
  successive : ∀ n, Parts.Successive 0 (run n).state.moves
  ends : (∃ n, ∀ m, n ≤ m → (results m).getD 0 = 0) → ∃ n s result, run n = .returned s result
  reported : ∀ n s status bytes, run n = .returned s (status, bytes) → bytes.toNat = s.moved

/-- The counts before the first error add up to the length. -/
def Completes (length : UInt64) (results : Nat → Option Nat) : Prop :=
  ∃ n, (∀ m < n, results m ≠ none) ∧ length.toNat ≤ offered length.toNat results n

/-! ## Reading -/

/-- A read without an error of `read` reports what it read. -/
theorem fifoRead_some (desc : Option FifoDesc) (opened : Int) (align : Align)
    (request : UInt64) (count : Nat) :
    ReadReports request (fifoRead desc opened align request (some count)) := by
  cases desc with
  | none => exact .inr rfl
  | some fd =>
      simp only [fifoRead]
      split
      · exact .inr rfl
      · split
        · exact .inr rfl
        · next filled =>
            refine .inl ⟨rfl, UInt64.not_lt.mp filled, ?_, ?_⟩
            · exact reply_le (align.floor_le request)
            · simp [Parts.call, Parts.moved]

/-- An error of `read` is reported as a success. -/
theorem fifoRead_none {fd : FifoDesc} {opened : Int} (isOpen : (fd.openFifo opened).f ≠ 0)
    (align : Align) (request : UInt64) :
    fifoRead (some fd) opened align request none = ⟨.success, 0xffffffffffffffff, 0⟩ := by
  simp only [fifoRead, if_neg isOpen]
  rfl

/-! ## Writing -/

section Writing

variable {length request : UInt64} {results : Nat → Option Nat}
  {run : Nat → Progress Parts (IoStatus × UInt64)}

/-- After an error with `written` bytes written, the pointer is not behind them any more, whatever
`write` then returns, unless something is written from the wrong place. -/
structure Damaged (length : UInt64) (written : Nat) (s : Parts) : Prop where
  offset : s.offset = s.total
  sum : s.total + s.remaining = length
  moved : s.moved = written
  short : written < length.toNat
  remaining : s.remaining = 0 ∨ length.toNat - written < s.remaining.toNat

theorem Damaged.total_ne {written : Nat} {s : Parts} (damaged : Damaged length written s) :
    s.total.toNat ≠ written := by
  intro same
  have short := damaged.short
  have rest : s.remaining.toNat = length.toNat - written := by
    have difference : s.remaining = length - s.total := by
      rw [← damaged.sum, UInt64.add_comm, UInt64.add_sub_cancel]
    rw [difference, UInt64.toNat_sub_of_le, same]
    rw [UInt64.le_iff_toNat_le]
    omega
  rcases damaged.remaining with zero | more
  · rw [zero, UInt64.toNat_zero] at rest
    omega
  · omega

/-- An error puts the registers one byte back. -/
theorem call_none (s : Parts) (asked : UInt64) :
    s.call none asked =
      { s with remaining := s.remaining + 1, offset := s.offset - 1, total := s.total - 1 } := by
  have back : (0 : UInt64) - 1 = -1 := by decide
  simp only [Parts.call, reply, back, Option.isSome_none, Bool.false_eq_true, if_false,
    UInt64.sub_eq_add_neg, UInt64.neg_neg]

theorem sum_call_none (total remaining : UInt64) :
    total - 1 + (remaining + 1) = total + remaining := by
  rw [UInt64.add_comm remaining 1, ← UInt64.add_assoc, UInt64.sub_add_cancel]

/-- One more remains, or the count has come round to zero. -/
theorem remaining_add_one {remaining : UInt64} {bound : Nat} (more : bound ≤ remaining.toNat) :
    remaining + 1 = 0 ∨ bound < (remaining + 1).toNat := by
  have limit := remaining.toNat_lt
  rw [← UInt64.toNat_inj, UInt64.toNat_add, UInt64.toNat_one, UInt64.toNat_zero]
  omega

/-- The first error. -/
theorem damaged_first {s : Parts} (right : s.Exact length) (more : s.remaining ≠ 0)
    (asked : UInt64) : Damaged length s.moved (s.call none asked) := by
  have sum := right.sum
  have moved := right.moved
  have positive : s.remaining.toNat ≠ 0 := toNat_ne_zero more
  rw [call_none]
  refine ⟨by simp only [right.offset], ?_, rfl, by omega, remaining_add_one (by omega)⟩
  rw [sum_call_none, ← UInt64.toNat_inj, UInt64.toNat_add, sum]
  exact Nat.mod_eq_of_lt length.toNat_lt

/-- Another error. -/
theorem Damaged.again {written : Nat} {s : Parts} (damaged : Damaged length written s)
    (more : s.remaining ≠ 0) (asked : UInt64) : Damaged length written (s.call none asked) := by
  have beyond := damaged.remaining.resolve_left more
  rw [call_none]
  exact ⟨by simp only [damaged.offset], by rw [sum_call_none, damaged.sum], damaged.moved,
    damaged.short, remaining_add_one (Nat.le_of_lt beyond)⟩

/-- A count of zero. -/
theorem Damaged.nothing {written count : Nat} {s : Parts} (damaged : Damaged length written s)
    {asked : UInt64} (zero : reply (some count) asked = 0) :
    Damaged length written (s.call (some count) asked) := by
  simp only [Parts.call, zero, UInt64.sub_zero, UInt64.add_zero]
  refine ⟨damaged.offset, damaged.sum, ?_, damaged.short, damaged.remaining⟩
  simpa [Parts.moved] using damaged.moved

/-- Something is written from the wrong place. -/
theorem Damaged.not_successive {written count : Nat} {s : Parts}
    (damaged : Damaged length written s) {asked : UInt64} (filled : reply (some count) asked ≠ 0) :
    ¬Parts.Successive 0 (s.call (some count) asked).moves := by
  intro successive
  simp only [Parts.call, Option.isSome_some, if_true] at successive
  have place := Parts.successive_last successive filled
  rw [Nat.zero_add] at place
  exact damaged.total_ne ((congrArg UInt64.toNat damaged.offset).symm.trans
    (place.trans damaged.moved))

/-- A run that reports what it moved stays damaged: a part that is written would be out of order,
and a return would report the wrong count. -/
theorem Damaged.round {finish : Parts → IoStatus × UInt64} (total : ∀ s, (finish s).2 = s.total)
    (reports : WriteReports request results (moveRounds finish length results)) {written m : Nat}
    {t : Parts} (damaged : Damaged length written t)
    (running : moveRounds finish length results m = .running t) :
    (results m).getD 0 = 0 ∧ ∃ t', moveRounds finish length results (m + 1) = .running t' ∧
      Damaged length written t' := by
  by_cases ended : t.remaining = 0
  · have returned : moveRounds finish length results (m + 1) = .returned t (finish t) := by
      rw [moveRounds, rounds_succ running, moveRound, if_pos ended]
    have reported := reports.reported _ _ _ _ returned
    rw [total, damaged.moved] at reported
    exact absurd reported damaged.total_ne
  · have next : moveRounds finish length results (m + 1) =
        .running (t.call (results m) t.remaining) := by
      rw [moveRounds, rounds_succ running, moveRound, if_neg ended]
    cases result : results m with
    | none =>
        rw [result] at next
        exact ⟨rfl, _, next, damaged.again ended _⟩
    | some count =>
        rw [result] at next
        by_cases zero : reply (some count) t.remaining = 0
        · refine ⟨?_, _, next, damaged.nothing zero⟩
          have positive : t.remaining.toNat ≠ 0 := toNat_ne_zero ended
          have least := congrArg UInt64.toNat zero
          rw [toNat_reply_some, UInt64.toNat_zero] at least
          simp only [Option.getD_some]
          omega
        · have successive := reports.successive (m + 1)
          rw [next] at successive
          exact absurd successive (damaged.not_successive zero)

/-- A write does not recover from an error. -/
theorem not_reports_of_error {finish : Parts → IoStatus × UInt64}
    (total : ∀ s, (finish s).2 = s.total) {n : Nat} {s : Parts}
    (running : moveRounds finish length results n = .running s) (right : s.Exact length)
    (more : s.remaining ≠ 0) (failed : results n = none) :
    ¬WriteReports request results (moveRounds finish length results) := by
  intro reports
  have damaged : ∀ m, n + 1 ≤ m → ∃ t, moveRounds finish length results m = .running t ∧
      Damaged length s.moved t := by
    intro m later
    induction m, later using Nat.le_induction with
    | base =>
        refine ⟨_, ?_, damaged_first right more s.remaining⟩
        rw [moveRounds, rounds_succ running, moveRound, if_neg more, failed]
    | succ m _ ih =>
        obtain ⟨t, running, damaged⟩ := ih
        exact (damaged.round total reports running).2
  -- So nothing is written any more, and the write would have to end.
  obtain ⟨m, t, result, returned⟩ := reports.ends ⟨n + 1, fun m later => by
    obtain ⟨t, running, damaged⟩ := damaged m later
    exact (damaged.round total reports running).1⟩
  obtain ⟨t', running', -⟩ := damaged (max m (n + 1)) (Nat.le_max_right _ _)
  have stays : moveRounds finish length results (max m (n + 1)) = .returned t result :=
    rounds_stays returned (Nat.le_max_left _ _)
  cases running'.symm.trans stays

/-- Without an error, a write whose counts stay short of the length does not end. -/
theorem not_reports_of_short {finish : Parts → IoStatus × UInt64}
    (answered : ∀ n, Answered length results n)
    (short : ∀ n, offered length.toNat results n < length.toNat) :
    ¬WriteReports request results (moveRounds finish length results) := by
  intro reports
  obtain ⟨n, stops⟩ := offered_stops fun n => Nat.le_of_lt (short n)
  have nothing : ∀ m, n ≤ m → (results m).getD 0 = 0 := by
    intro m later
    have least := stops m later
    have positive := short 0
    omega
  obtain ⟨m, s, result, returned⟩ := reports.ends ⟨n, nothing⟩
  obtain ⟨t, running, -⟩ := moveRounds_running finish (answered m) (short m)
  cases running.symm.trans returned

/-- **The loop of `fifo_write`** reports what it wrote exactly when the counts before the first
error add up to the length. -/
theorem moveRounds_reports_iff {finish : Parts → IoStatus × UInt64}
    (total : ∀ s, (finish s).2 = s.total) (within : length ≤ request) :
    WriteReports request results (moveRounds finish length results) ↔
      Completes length results := by
  constructor
  · intro reports
    refine Classical.byContradiction fun incomplete => ?_
    have short : ∀ n, (∀ m < n, results m ≠ none) →
        offered length.toNat results n < length.toNat := fun n answered =>
      Nat.lt_of_not_le fun enough => incomplete ⟨n, answered, enough⟩
    by_cases never : ∀ n, results n ≠ none
    · exact not_reports_of_short (fun n m _ _ => never m)
        (fun n => short n fun m _ => never m) reports
    · have fails : ∃ n, results n = none := by
        simpa only [not_forall, not_not] using never
      have first : ∀ m < Nat.find fails, results m ≠ none := fun m before =>
        Nat.find_min fails before
      obtain ⟨s, running, right, -, more⟩ :=
        moveRounds_running finish (fun m before _ => first m before) (short _ first)
      exact not_reports_of_error total running right more (Nat.find_spec fails) reports
  · rintro ⟨n, answered, enough⟩
    have made : ∀ k, Answered length results k := by
      intro k m _ ahead
      refine answered m (Nat.lt_of_not_le fun later => ?_)
      have grown : offered length.toNat results n ≤ offered length.toNat results m :=
        offered_mono later
      omega
    have moving : ∀ k, Moving finish length results k (moveRounds finish length results k) :=
      fun k => moveRounds_moving (made k)
    have right : ∀ k, (moveRounds finish length results k).state.Exact length := by
      intro k
      have here := moving k
      apply Progress.state_holds
      · intro s running
        rw [running] at here
        exact here.1
      · intro s result returned
        rw [returned] at here
        exact here.1
    refine ⟨fun k move member filled => ?_, fun k => (right k).successive, fun _ => ?_,
      fun k s status bytes returned => ?_⟩
    · exact Nat.le_trans ((right k).inside move member filled) (UInt64.le_iff_toNat_le.mp within)
    · obtain ⟨s, returned, -⟩ := moveRounds_returned finish (made n) enough
      exact ⟨n + 1, s, _, returned⟩
    · have here := moving k
      rw [returned] at here
      obtain ⟨counts, -, finished, -⟩ := here
      have reported : bytes = s.total := by
        rw [← total s, ← finished]
      rw [reported, counts.moved]

end Writing

/-- A write that returns before its loop reports what it wrote when it reports no bytes. -/
theorem idle_reports_iff {request : UInt64} {results : Nat → Option Nat} {status : IoStatus}
    {bytes : UInt64} :
    WriteReports request results (fun _ => .returned idle (status, bytes)) ↔ bytes = 0 := by
  constructor
  · intro reports
    exact UInt64.toNat_inj.mp (reports.reported 0 idle status bytes rfl)
  · rintro rfl
    refine ⟨fun _ => by simp [Progress.state, idle, Parts.Inside], fun _ => trivial,
      fun _ => ⟨0, _, _, rfl⟩, ?_⟩
    rintro n s status' bytes ⟨⟩
    rfl

/-! ## Both -/

theorem read_reports_iff (desc : Option FifoDesc) (opened : Int) (align : Align)
    (request : UInt64) (result : Option Nat) :
    ReadReports request (fifoRead desc opened align request result) ↔
      ∀ fd, desc = some fd → (fd.openFifo opened).f ≠ 0 → result ≠ none := by
  constructor
  · rintro reports fd rfl isOpen rfl
    rw [fifoRead_none isOpen] at reports
    rcases reports with ⟨-, -, -, none⟩ | failed
    · cases none
    · cases failed
  · intro condition
    cases result with
    | some count => exact fifoRead_some desc opened align request count
    | none =>
        cases desc with
        | none => exact .inr rfl
        | some fd =>
            by_cases isOpen : (fd.openFifo opened).f = 0
            · exact .inr (by simp [fifoRead, isOpen])
            · exact absurd rfl (condition fd rfl isOpen)

theorem write_reports_iff (desc : Option FifoDesc) (opened : Int) (align : Align)
    (request : UInt64) (results : Nat → Option Nat) :
    WriteReports request results (fifoWrite desc opened align request results) ↔
      (request ≠ 0 → ∀ fd, desc = some fd →
        (fd.openFifo opened).f ≠ 0 ∧ Completes (align.floor request) results) := by
  by_cases empty : request = 0
  · have run : fifoWrite desc opened align request results =
        fun _ => .returned idle (.success, request) := by
      funext n
      simp only [fifoWrite, if_pos empty]
    rw [run, idle_reports_iff]
    exact ⟨fun _ filled => absurd empty filled, fun _ => empty⟩
  · cases desc with
    | none =>
        have run : fifoWrite none opened align request results =
            fun _ => .returned idle (.error, 0) := by
          funext n
          simp only [fifoWrite, if_neg empty]
        rw [run, idle_reports_iff]
        simp
    | some fd =>
        by_cases closed : (fd.openFifo opened).f = 0
        · have run : fifoWrite (some fd) opened align request results =
              fun _ => .returned idle (.error, request) := by
            funext n
            simp only [fifoWrite, if_neg empty, if_pos closed]
          rw [run, idle_reports_iff]
          constructor
          · exact fun zero => absurd zero empty
          · exact fun condition => absurd closed (condition empty fd rfl).1
        · have run : fifoWrite (some fd) opened align request results =
              moveRounds (fun s => (.success, s.total)) (align.floor request) results := by
            funext n
            simp only [fifoWrite, if_neg empty, if_neg closed]
          rw [run, moveRounds_reports_iff (fun _ => rfl) (align.floor_le request)]
          constructor
          · rintro completes - _ ⟨⟩
            exact ⟨closed, completes⟩
          · exact fun condition => (condition empty fd rfl).2

/-- **The fifo machine** reports what it moved: a read exactly when `read` does not fail, a write
exactly when `open` does not fail and the counts of `write` before its first error add up to the
aligned request. -/
theorem fifo_reports_iff (desc : Option FifoDesc) (opened : Int) (align : Align)
    (request : UInt64) (result : Option Nat) (results : Nat → Option Nat) :
    (ReadReports request (fifoRead desc opened align request result) ↔
      ∀ fd, desc = some fd → (fd.openFifo opened).f ≠ 0 → result ≠ none) ∧
    (WriteReports request results (fifoWrite desc opened align request results) ↔
      (request ≠ 0 → ∀ fd, desc = some fd →
        (fd.openFifo opened).f ≠ 0 ∧ Completes (align.floor request) results)) :=
  ⟨read_reports_iff desc opened align request result,
    write_reports_iff desc opened align request results⟩

/-- A failed `read` of ten bytes is reported as a success with the largest count; a `write` that
fails first and then takes everything is asked for eleven bytes, from the byte before the buffer
on. -/
theorem fifo_counts_failure :
    fifoRead (some { f := 3 }) 0 Align.byte 10 none = ⟨.success, 0xffffffffffffffff, 0⟩ ∧
      ¬ReadReports 10 (fifoRead (some { f := 3 }) 0 Align.byte 10 none) ∧
      fifoWrite (some { f := 3 }) 0 Align.byte 10 (fun n => if n = 0 then none else some 11) 3 =
        .returned ⟨0, 10, 10, [(0xffffffffffffffff, 11)]⟩ (.success, 10) ∧
      ¬WriteReports 10 (fun n => if n = 0 then none else some 11)
        (fifoWrite (some { f := 3 }) 0 Align.byte 10 fun n => if n = 0 then none else some 11) := by
  have written : fifoWrite (some { f := 3 }) 0 Align.byte 10
      (fun n => if n = 0 then none else some 11) 3 =
        .returned ⟨0, 10, 10, [(0xffffffffffffffff, 11)]⟩ (.success, 10) := by
    decide
  refine ⟨rfl, ?_, written, fun reports => ?_⟩
  · rintro (⟨-, -, within, -⟩ | failed)
    · exact absurd within (by decide)
    · cases failed
  · exact absurd (reports.reported 3 _ _ _ written) (by decide)

end Bingewatch.Fifo
