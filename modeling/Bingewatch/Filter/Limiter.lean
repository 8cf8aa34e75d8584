import Mathlib.Algebra.Ring.Nat
import Bingewatch.Foundation.Transition
import Bingewatch.Filter.ReadFilters

/-!
# The byte count limiter

`byte_count_limiter` counts bytes towards a limit. As a write filter it counts what it is going to
offer before it calls the next filter, and does not look at what that has accepted. As a read filter
it counts what the next filter has returned, and the count that is cut off at the limit is not
handed to the caller.

So the total is what was accepted as long as the next filter takes everything
(`write_limiter_counts_iff`), and the caller gets no more than the limit as long as the reads come
out at the limit exactly (`read_limiter_bounds_iff`). In both directions the sum `total + bytes` is
one of `size_t`: where it wraps, the bytes are let through.
-/

set_option autoImplicit false

namespace Bingewatch.Filter

open Foundation Machine

/-! ## The limiter over a next filter -/

/-- What the next filter answers at its `call`-th call to a number of bytes that it is offered or
asked for: a status and the bytes it reports, no more than these. -/
structure Answers where
  answer : (call bytes : Nat) → IoStatus × Nat
  within : ∀ call bytes, (answer call bytes).2 ≤ bytes

/-- The limiter, the calls that the next filter has had, the bytes it has reported so far, and its
last status. -/
structure Limited where
  limit : ByteLimit
  calls : Nat := 0
  reported : Nat := 0
  last : IoStatus := .success

/-- A limiter as `create_byte_count_limit_filter` makes it. -/
def Limited.new (byteLimit : UInt64) : Limited where
  limit := { limit := byteLimit, within := UInt64.zero_le }

/-- A call of the next filter. -/
def Limited.next (s : Limited) (answers : Answers) (bytes : Nat) : Limited × Report :=
  let (status, n) := answers.answer s.calls bytes
  ({ s with calls := s.calls + 1, reported := s.reported + n, last := status },
    { status := status, bytes := n, stored := [] })

/-- A call of the limiter. -/
def Limited.call (direction : Direction) (answers : Answers) (s : Limited) (bytes : UInt64) :
    Option (Limited × Report) :=
  (byteCountLimiter direction s.limit (fun n => some (s.next answers n)) s bytes.toNat).map
    fun (l, s, report) => ({ s with limit := l }, report)

/-! ## Counting -/

section Take

variable (l : ByteLimit) {n : Nat}

theorem ByteLimit.total_le : l.total.toNat ≤ l.limit.toNat := l.within

/-- When the sum does not wrap, the bytes are counted as far as the limit goes. -/
theorem ByteLimit.take_eq (fits : l.total.toNat + n < 2 ^ 64) :
    (l.take n).1.total.toNat = min (l.total.toNat + n) l.limit.toNat ∧
      (l.take n).2 = min n (l.limit.toNat - l.total.toNat) := by
  have within := l.total_le
  have sum : (l.total + UInt64.ofNat n).toNat = l.total.toNat + n := by
    rw [UInt64.toNat_add, UInt64.toNat_ofNat', Nat.add_mod_mod, Nat.mod_eq_of_lt fits]
  unfold ByteLimit.take
  split
  · next below =>
      have below' : l.total.toNat + n ≤ l.limit.toNat := sum ▸ below
      exact ⟨by rw [sum]; omega, by show n = _; omega⟩
  · next above =>
      have above' : l.limit.toNat < l.total.toNat + n := by
        rw [← sum]
        exact Nat.lt_of_not_le above
      have rest : (l.limit - l.total).toNat = l.limit.toNat - l.total.toNat :=
        UInt64.toNat_sub_of_le _ _ l.within
      refine ⟨?_, by rw [rest]; omega⟩
      show (l.total + (l.limit - l.total)).toNat = _
      rw [UInt64.add_comm, UInt64.sub_add_cancel]
      omega

/-- When the sum wraps, it is below the limit: all bytes are let through. -/
theorem ByteLimit.take_wraps (small : n < 2 ^ 64) (wraps : 2 ^ 64 ≤ l.total.toNat + n) :
    (l.take n).1.total.toNat + 2 ^ 64 = l.total.toNat + n ∧ (l.take n).2 = n := by
  have within := l.total_le
  have small' := l.total.toNat_lt
  have sum : (l.total + UInt64.ofNat n).toNat + 2 ^ 64 = l.total.toNat + n := by
    rw [UInt64.toNat_add, UInt64.toNat_ofNat', Nat.add_mod_mod]
    omega
  have below : l.total + UInt64.ofNat n ≤ l.limit := by
    rw [UInt64.le_iff_toNat_le]
    omega
  unfold ByteLimit.take
  rw [dif_pos below]
  exact ⟨sum, rfl⟩

theorem ByteLimit.take_limit (n : Nat) : (l.take n).1.limit = l.limit := by
  unfold ByteLimit.take
  split <;> rfl

end Take

/-! ## As a write filter -/

section Write

variable (answers : Answers)

/-- The total is what the next filter has reported, no more than the limit, and a success of the
next filter is turned into completion only when exactly the limit was reported. -/
def Counted (_ : Limited) (_ : UInt64) (t : Limited) (report : Report) : Prop :=
  t.limit.total.toNat = t.reported ∧ t.reported ≤ t.limit.limit.toNat ∧
    (t.last = .success → report.status = .complete → t.reported = t.limit.limit.toNat)

/-- The total does not wrap, and the next filter takes everything that the limit leaves. -/
def TakesAll (s : Limited) (bytes : UInt64) : Prop :=
  s.limit.total.toNat + bytes.toNat < 2 ^ 64 ∧
    (answers.answer s.calls (min bytes.toNat (s.limit.limit.toNat - s.limit.total.toNat))).2 =
      min bytes.toNat (s.limit.limit.toNat - s.limit.total.toNat)

/-- A write. -/
theorem call_write (s : Limited) (bytes : UInt64) :
    ∃ report, s.call .write answers bytes =
        some ({ (s.next answers (s.limit.take bytes.toNat).2).1 with
          limit := (s.limit.take bytes.toNat).1 }, report) ∧
      ((s.next answers (s.limit.take bytes.toNat).2).1.last = .success →
        report.status = (s.limit.take bytes.toNat).1.status) := by
  simp only [Limited.call, byteCountLimiter, Option.map_some]
  split
  · next failed => exact ⟨_, rfl, fun success => absurd success failed⟩
  · exact ⟨_, rfl, fun _ => rfl⟩

/-- A limiter that has counted to its limit. -/
theorem complete_iff (l : ByteLimit) : l.status = .complete ↔ l.total.toNat = l.limit.toNat := by
  have within := l.total_le
  unfold ByteLimit.status
  split
  · next reached =>
      have reached' : l.limit.toNat ≤ l.total.toNat := reached
      simp only [true_iff]
      omega
  · next below =>
      have below' : ¬l.limit.toNat ≤ l.total.toNat := below
      simp only [reduceCtorEq, false_iff]
      omega

/-- One write, when the total was right before. -/
theorem write_exact_at (s : Limited) (bytes : UInt64) (before : s.limit.total.toNat = s.reported) :
    ∃ t report, s.call .write answers bytes = some (t, report) ∧
      (Counted s bytes t report ↔ TakesAll answers s bytes) ∧
      (TakesAll answers s bytes → t.limit.total.toNat = t.reported) := by
  obtain ⟨report, called, status⟩ := call_write answers s bytes
  refine ⟨_, report, called, ?_⟩
  have limit := s.limit.take_limit bytes.toNat
  have most := (s.limit.take bytes.toNat).1.total_le
  -- The other two parts of `Counted` follow from the first.
  suffices counted : (s.limit.take bytes.toNat).1.total.toNat =
      s.reported + (answers.answer s.calls (s.limit.take bytes.toNat).2).2 ↔
        TakesAll answers s bytes by
    refine ⟨⟨fun holds => counted.mp holds.1, fun all => ?_⟩, counted.mpr⟩
    have same := counted.mpr all
    refine ⟨same, Nat.le_trans (Nat.le_of_eq same.symm) most, fun success complete => ?_⟩
    · rw [status success, complete_iff] at complete
      exact same.symm.trans complete
  have within := s.limit.total_le
  have few := answers.within s.calls (s.limit.take bytes.toNat).2
  by_cases fits : s.limit.total.toNat + bytes.toNat < 2 ^ 64
  · obtain ⟨total, offered⟩ := s.limit.take_eq fits
    rw [total, offered, TakesAll]
    constructor
    · intro same
      exact ⟨fits, by omega⟩
    · rintro ⟨-, all⟩
      rw [all]
      omega
  · have small := bytes.toNat_lt
    obtain ⟨total, offered⟩ := s.limit.take_wraps small (Nat.le_of_not_lt fits)
    constructor
    · intro same
      omega
    · rintro ⟨fits', -⟩
      exact absurd fits' fits

/-- **The write limiter counts what was written** exactly when, at every write, the total does not
wrap and the next filter takes everything it is offered. -/
theorem write_limiter_counts_iff (limit : UInt64) (writes : List UInt64) :
    AfterEvery (Limited.call .write answers) Counted (Limited.new limit) writes ↔
      MeetsAll (Limited.call .write answers) (TakesAll answers) (Limited.new limit) writes :=
  afterEvery_iff_meetsAll (I := fun s => s.limit.total.toNat = s.reported)
    (write_exact_at answers) rfl writes

end Write

/-- A next filter that succeeds with half of the bytes. -/
def halfAnswers : Answers where
  answer := fun _ bytes => (.success, bytes / 2)
  within := fun _ _ => Nat.div_le_self ..

/-- A write of ten bytes with a limit of ten: the next filter has accepted five, but the total is
ten, and the success is turned into completion. -/
theorem write_limiter_counts_offered :
    ¬AfterEvery (Limited.call .write halfAnswers) Counted (Limited.new 10) [10] := by
  rintro ⟨t, report, called, counted, -⟩
  have total : ((Limited.new 10).call .write halfAnswers 10).map
      (fun (t, _) => (t.limit.total.toNat, t.reported)) = some (10, 5) := by
    decide +kernel
  rw [called] at total
  obtain ⟨total, reported⟩ : t.limit.total.toNat = 10 ∧ t.reported = 5 := by simpa using total
  cases total.symm.trans (counted.1.trans reported)

/-! ## As a read filter -/

section Read

variable (answers : Answers)

/-- The bytes reported to the caller are no more than the limit, and the call that brings them to
the limit returns completion. -/
def Bounded (s : Limited) (_ : UInt64) (t : Limited) (report : Report) : Prop :=
  t.reported = s.reported + report.bytes ∧ t.reported ≤ t.limit.limit.toNat ∧
    (s.reported < t.limit.limit.toNat → t.limit.limit.toNat ≤ t.reported →
      report.status = .complete)

/-- The bytes that the next filter returns do not go past the limit. -/
def StaysWithin (s : Limited) (bytes : UInt64) : Prop :=
  s.limit.total.toNat + (answers.answer s.calls bytes.toNat).2 ≤ s.limit.limit.toNat

/-- A read, when the next filter succeeds. -/
theorem call_read (s : Limited) (bytes : UInt64)
    (success : (answers.answer s.calls bytes.toNat).1 = .success) :
    s.call .read answers bytes =
      some ({ (s.next answers bytes.toNat).1 with
          limit := (s.limit.take (answers.answer s.calls bytes.toNat).2).1 },
        { status := (s.limit.take (answers.answer s.calls bytes.toNat).2).1.status
          bytes := (answers.answer s.calls bytes.toNat).2
          stored := [] }) := by
  simp [Limited.call, byteCountLimiter, Limited.next, success]

/-- One read, when the total was right before. -/
theorem read_exact_at (success : ∀ call bytes, (answers.answer call bytes).1 = .success)
    (s : Limited) (bytes : UInt64) (before : s.limit.total.toNat = s.reported) :
    ∃ t report, s.call .read answers bytes = some (t, report) ∧
      (Bounded s bytes t report ↔ StaysWithin answers s bytes) ∧
      (StaysWithin answers s bytes → t.limit.total.toNat = t.reported) := by
  refine ⟨_, _, call_read answers s bytes (success ..), ?_⟩
  have few := answers.within s.calls bytes.toNat
  generalize count : (answers.answer s.calls bytes.toNat).2 = n at few
  have limit : (s.limit.take n).1.limit = s.limit.limit := s.limit.take_limit n
  have reported : (s.next answers bytes.toNat).1.reported = s.reported + n := by
    rw [← count]
    rfl
  have small := s.limit.limit.toNat_lt
  -- A read that stays within the limit does not wrap the total.
  have total : s.limit.total.toNat + n ≤ s.limit.limit.toNat →
      (s.limit.take n).1.total.toNat = s.reported + n := by
    intro stays
    rw [(s.limit.take_eq (n := n) (by omega)).1]
    omega
  unfold StaysWithin Bounded
  simp only [count, limit, reported]
  refine ⟨⟨fun bounded => ?_, fun stays => ⟨trivial, by omega, fun _ reached => ?_⟩⟩, total⟩
  · rw [before]
    exact bounded.2.1
  · rw [complete_iff, total stays, limit]
    omega

/-- **The read limiter bounds what the caller gets** exactly when no read goes past the limit. -/
theorem read_limiter_bounds_iff (success : ∀ call bytes, (answers.answer call bytes).1 = .success)
    (limit : UInt64) (reads : List UInt64) :
    AfterEvery (Limited.call .read answers) Bounded (Limited.new limit) reads ↔
      MeetsAll (Limited.call .read answers) (StaysWithin answers) (Limited.new limit) reads :=
  afterEvery_iff_meetsAll (I := fun s => s.limit.total.toNat = s.reported)
    (read_exact_at answers success) rfl reads

end Read

/-- A next filter that returns as many bytes as it is asked for. -/
def allAnswers : Answers where
  answer := fun _ bytes => (.success, bytes)
  within := fun _ _ => Nat.le_refl _

/-- Two reads of five bytes come out at a limit of ten. -/
theorem read_limiter_bounds_even :
    AfterEvery (Limited.call .read allAnswers) Bounded (Limited.new 10) [5, 5] := by
  refine (read_limiter_bounds_iff allAnswers (fun _ _ => rfl) 10 [5, 5]).mpr ?_
  have first : StaysWithin allAnswers (Limited.new 10) 5 := by
    show (0 : UInt64).toNat + (5 : UInt64).toNat ≤ (10 : UInt64).toNat
    decide
  refine ⟨first, fun t report called => ⟨?_, fun _ _ _ => trivial⟩⟩
  have total : ((Limited.new 10).call .read allAnswers 5).map
      (fun (t, _) => (t.limit.total.toNat, t.limit.limit.toNat)) = some (5, 10) := by
    decide +kernel
  rw [called] at total
  obtain ⟨total, limit⟩ : t.limit.total.toNat = 5 ∧ t.limit.limit.toNat = 10 := by simpa using total
  rw [StaysWithin, total, limit]
  show 5 + (5 : UInt64).toNat ≤ 10
  decide

/-- A read of ten bytes with a limit of four: the caller gets all ten, with completion. -/
theorem read_limiter_passes_limit :
    ¬AfterEvery (Limited.call .read allAnswers) Bounded (Limited.new 4) [10] := by
  rintro ⟨t, report, called, bounded, -⟩
  have seen : ((Limited.new 4).call .read allAnswers 10).map
      (fun (t, report) => (t.reported, t.limit.limit.toNat, report.status)) =
        some (10, 4, .complete) := by
    decide +kernel
  rw [called] at seen
  obtain ⟨reported, limit, -⟩ :
      t.reported = 10 ∧ t.limit.limit.toNat = 4 ∧ report.status = .complete := by
    simpa using seen
  have most := bounded.2.1
  omega

end Bingewatch.Filter
