import Mathlib.Algebra.Order.Ring.Rat
import Mathlib.Algebra.Order.Group.Unbundled.Abs
import Mathlib.Algebra.Order.Group.Abs
import Mathlib.Data.Rat.Floor
import Mathlib.Tactic.Linarith
import Mathlib.Tactic.Ring
import Bingewatch.Foundation.Pieces
import Bingewatch.Foundation.Rounding
import Bingewatch.Sdr.SoapyStart

/-!
# Reads from the hardware that notice lost samples

The `read_from_hw` functions of the Soapy and the UHD machine (`src/sdr/soapy-machine.c`,
`src/sdr/uhd-machine.c`) ask the driver for pieces until they have the samples they were asked for.
Both look for lost samples: UHD reports an overflow with the piece that comes behind it, and for
Soapy the time stamp of a piece is compared with the end of the piece before, which the channel
keeps in `expected_timestamp` from call to call. The two loops are the same (`Device.collect`); they
differ in what the driver answers and in what a failure returns.

Whatever pieces the driver gives, no loss goes by in silence: `soapy_reads_announced` and
`uhd_reads_announced` cut all that the driver gave into the stretches of the calls, with a mark in
place of each loss, and `soapy_reads_in_time` bounds how far the samples of calls that all returned
`IO_SUCCESS` can be from their times. The difference of the time stamps is converted to a 32 bit
`int`, so Soapy's bound holds up to multiples of 2³² ns. `expected_timestamp` is a `double`, which
has 53 digits: the bound grows with the time stamps, and only while these are below 2⁵⁰ ns, some
thirteen days, does a driver that loses nothing never report a loss.
-/

set_option autoImplicit false

namespace Bingewatch.Sdr

open Foundation Machine

variable {α : Type}

/-! ## The calls -/

/-- What `read_from_hw` returns: its status, the count in `*n_samp`, and the samples it stored in
the first places of the caller's buffer. -/
structure HwRead (α : Type) where
  status : IoStatus
  nSamp : Nat
  samples : List α
  deriving DecidableEq, Repr

/-- The variable `ret` of both functions: set once a break was tolerated. -/
def breakRet (reading : Device.Reading α) : IoStatus :=
  if reading.late = true ∨ reading.ending = .cut then .databreak else .error

/-- What `SoapySDRDevice_readStream` returns: an error, or the samples with the time stamp of the
first. -/
abbrev SoapyResult (α : Type) := Option (List α × Int)

/-- The conversion of a `long long` to an `int`. -/
def toInt (x : Int) : Int := x.bmod 4294967296

/-- The `double` that stands for a number: the nearest one with 53 digits. Times are far from both
ends of its exponents. -/
def double (x : Rat) : Rat := roundTo 53 x

/-- The test of a time stamp against `expected_timestamp`. -/
def clockMismatch (expected : Rat) (timeNs : Int) : Bool :=
  let diff := toInt (timeNs - toLongLong (double (expected + 1 / 2)))
  diff < -1 ∨ diff > 1

/-- `(double)timeNs + (double)samples_read * ns_per_sample`, each operation rounded. -/
def pieceEnd (nsPerSample : Rat) (timeNs : Int) (samplesRead : Nat) : Rat :=
  double (double timeNs + double (double samplesRead * nsPerSample))

/-- A Soapy channel, whose state is its `expected_timestamp`. -/
def soapyDevice (nsPerSample : Rat) : Device Rat (SoapyResult α) α where
  answer := fun expected result =>
    match result with
    | none => (expected, none)
    | some (samples, timeNs) =>
        (pieceEnd nsPerSample timeNs samples.length, some (clockMismatch expected timeNs, samples))

/-- What Soapy's `read_from_hw` makes of its loop. A failure of the driver goes to the common exit
too. -/
def soapyReport (reading : Device.Reading α) : HwRead α where
  status :=
    match reading.ending with
    | .full => if (breakRet reading).isError then .success else breakRet reading
    | _ => breakRet reading
  nSamp := reading.items.length
  samples := reading.items

/-- `read_from_hw` of `src/sdr/soapy-machine.c`, with the answers of the driver that are to come. -/
def soapyReadFromHw (nsPerSample : Rat) (allowOverruns : Bool) (s : Rat × List (SoapyResult α))
    (nSamp : Nat) : Option ((Rat × List (SoapyResult α)) × HwRead α) :=
  ((soapyDevice nsPerSample).call allowOverruns s nSamp).map fun (s, reading) =>
    (s, soapyReport reading)

/-- `uhd_rx_metadata_error_code_t`, with one value for all codes that are not named in the
switch. -/
inductive UhdErrorCode where
  | none
  | timeout
  | lateCommand
  | brokenChain
  | overflow
  | alignment
  | badPacket
  | other
  deriving DecidableEq, Repr

/-- What `uhd_rx_streamer_recv` and `uhd_rx_metadata_error_code` return: no code, or the code with
the samples received. -/
abbrev UhdResult (α : Type) := Option (UhdErrorCode × List α)

/-- A UHD channel. -/
def uhdDevice : Device Unit (UhdResult α) α where
  answer := fun _ result =>
    match result with
    | some (.none, samples) => ((), some (false, samples))
    | some (.overflow, samples) => ((), some (true, samples))
    | _ => ((), none)

/-- What UHD's `read_from_hw` makes of its loop. A failure of the driver returns at once and leaves
`*n_samp` at the number asked for. -/
def uhdReport (nSamp : Nat) (reading : Device.Reading α) : HwRead α where
  status :=
    match reading.ending with
    | .full => if (breakRet reading).isError then .success else breakRet reading
    | .failed => .error
    | _ => breakRet reading
  nSamp := if reading.ending = .failed then nSamp else reading.items.length
  samples := reading.items

/-- `read_from_hw` of `src/sdr/uhd-machine.c`, with the answers of the driver that are to come. -/
def uhdReadFromHw (allowOverruns : Bool) (s : Unit × List (UhdResult α)) (nSamp : Nat) :
    Option ((Unit × List (UhdResult α)) × HwRead α) :=
  (uhdDevice.call allowOverruns s nSamp).map fun (s, reading) => (s, uhdReport nSamp reading)

/-! ## What a call announces -/

/-- **What a status says of the stretch of the driver's record that a call took.** After
`IO_SUCCESS` it is the samples returned, as many as were asked for, and nothing else. After
`IO_DATABREAK` there was a loss before the first sample returned or behind the last, and samples
that came behind that one are dropped. An error comes with a loss that is not tolerated, or from the
driver. -/
def Announced (allowOverruns : Bool) (nSamp : Nat) (read : HwRead α) (stretch : List (Option α)) :
    Prop :=
  ∃ losses tail, stretch = List.replicate losses none ++ read.samples.map some ++ tail ∧
    (tail = [] ∨ ∃ dropped : List α, tail = none :: dropped.map some) ∧
    match read.status with
    | .success => losses = 0 ∧ tail = [] ∧ read.samples.length = nSamp ∧ read.nSamp = nSamp
    | .databreak => allowOverruns = true ∧ (0 < losses ∨ read.samples ≠ [] ∧ tail ≠ []) ∧
        read.nSamp = read.samples.length
    | .error => (tail ≠ [] → allowOverruns = false ∧ losses = 0) ∧
        (tail = [] → read.samples.length < nSamp)
    | _ => False

theorem breakRet_cases (reading : Device.Reading α) :
    breakRet reading = .databreak ∧ (reading.late = true ∨ reading.ending = .cut) ∨
      breakRet reading = .error ∧ reading.late = false ∧ reading.ending ≠ .cut := by
  unfold breakRet
  split
  · next seen => exact Or.inl ⟨rfl, seen⟩
  · next unseen =>
      rw [not_or] at unseen
      exact Or.inr ⟨rfl, by simpa using unseen.1, unseen.2⟩

section Report

variable {allowOverruns : Bool} {nSamp : Nat} {reading : Device.Reading α}
  {stretch : List (Option α)}

/-- What the two functions share: everything but a failure of the driver. -/
theorem Announced.of_takes (takes : Device.Takes allowOverruns nSamp reading stretch)
    {read : HwRead α} (samples : read.samples = reading.items)
    (count : reading.ending ≠ .failed → read.nSamp = reading.items.length)
    (status : reading.ending ≠ .failed → read.status =
      if reading.ending = .full ∧ breakRet reading = .error then .success else breakRet reading)
    (failed : reading.ending = .failed → read.status = .error ∨
      read.status = .databreak ∧ reading.late = true ∧ read.nSamp = reading.items.length) :
    Announced allowOverruns nSamp read stretch := by
  obtain ⟨losses, tail, whole, late, strict, ending⟩ := takes
  have tolerant : 0 < losses → allowOverruns = true := fun some => by
    by_contra refuses
    have := strict (by simpa using refuses)
    omega
  refine ⟨losses, tail, samples ▸ whole, ?_⟩
  cases ends : reading.ending with
  | full =>
      rw [ends] at ending
      obtain ⟨rfl, length⟩ := ending
      have count := count (by simp [ends])
      have status := status (by simp [ends])
      refine ⟨Or.inl rfl, ?_⟩
      rcases breakRet_cases reading with ⟨ret, seen⟩ | ⟨ret, unseen, -⟩
      · have some : 0 < losses := late.mp (seen.resolve_right (by simp [ends]))
        rw [status, ret, if_neg (by simp)]
        exact ⟨tolerant some, Or.inl some, by rw [count, samples]⟩
      · have none : losses = 0 := Nat.eq_zero_of_not_pos fun some => by
          cases unseen.symm.trans (late.mpr some)
        rw [status, if_pos ⟨ends, ret⟩]
        exact ⟨none, rfl, by rw [samples, length], by rw [count, length]⟩
  | cut =>
      rw [ends] at ending
      obtain ⟨tolerates, some, dropped⟩ := ending
      have ret : breakRet reading = .databreak := if_pos (Or.inr ends)
      rw [status (by simp [ends]), if_neg (by simp [ends]), ret]
      refine ⟨Or.inr dropped, tolerates, Or.inr ⟨samples ▸ some, ?_⟩,
        by rw [count (by simp [ends]), samples]⟩
      obtain ⟨_, rfl⟩ := dropped
      simp
  | refused =>
      rw [ends] at ending
      obtain ⟨refuses, dropped⟩ := ending
      have none := strict refuses
      have early : reading.late = false := by
        by_contra seen
        have := late.mp (by simpa using seen)
        omega
      have ret : breakRet reading = .error := if_neg (by simp [early, ends])
      rw [status (by simp [ends]), if_neg (by simp [ends]), ret]
      refine ⟨Or.inr dropped, fun _ => ⟨refuses, none⟩, fun empty => ?_⟩
      obtain ⟨_, rfl⟩ := dropped
      cases empty
  | failed =>
      rw [ends] at ending
      obtain ⟨rfl, length⟩ := ending
      refine ⟨Or.inl rfl, ?_⟩
      rcases failed ends with error | ⟨databreak, seen, count⟩
      · rw [error]
        exact ⟨fun some => absurd rfl some, fun _ => samples ▸ length⟩
      · have some := late.mp seen
        rw [databreak]
        exact ⟨tolerant some, Or.inl some, by rw [count, samples]⟩

theorem soapyReport_announced (takes : Device.Takes allowOverruns nSamp reading stretch) :
    Announced allowOverruns nSamp (soapyReport reading) stretch := by
  refine .of_takes takes rfl (fun _ => rfl) (fun sound => ?_) fun failed => ?_
  · unfold soapyReport
    rcases breakRet_cases reading with ⟨ret, -⟩ | ⟨ret, -⟩ <;>
      cases ends : reading.ending <;> simp_all [IoStatus.isError]
  · rcases breakRet_cases reading with ⟨ret, seen⟩ | ⟨ret, -⟩
    · exact Or.inr ⟨by simp [soapyReport, failed, ret], seen.resolve_right (by simp [failed]), rfl⟩
    · exact Or.inl (by simp [soapyReport, failed, ret])

theorem uhdReport_announced (takes : Device.Takes allowOverruns nSamp reading stretch) :
    Announced allowOverruns nSamp (uhdReport nSamp reading) stretch := by
  refine .of_takes takes rfl (fun sound => if_neg sound) (fun sound => ?_) fun failed => ?_
  · unfold uhdReport
    rcases breakRet_cases reading with ⟨ret, -⟩ | ⟨ret, -⟩ <;>
      cases ends : reading.ending <;> simp_all [IoStatus.isError]
  · exact Or.inl (by simp [uhdReport, failed])

end Report

/-! ## Runs of calls -/

/-- The calls of a run cut all that the driver gave into stretches, one for each call. -/
theorem runCalls_announced {σ ρ : Type} (D : Device σ ρ α) {allowOverruns : Bool}
    (report : Nat → Device.Reading α → HwRead α)
    (announces : ∀ {nSamp : Nat} {reading : Device.Reading α} {stretch : List (Option α)},
      Device.Takes allowOverruns nSamp reading stretch →
        Announced allowOverruns nSamp (report nSamp reading) stretch)
    {s s' : σ} {results rest : List ρ} {requests : List Nat} {log : List (Nat × HwRead α)}
    (run : runCalls (fun s nSamp => (D.call allowOverruns s nSamp).map
      fun (s, reading) => (s, report nSamp reading)) (s, results) requests =
        some ((s', rest), log)) :
    ∃ used stretches, results = used ++ rest ∧ s' = D.after s used ∧
      D.record s used = stretches.flatten ∧
      List.Forall₂ (fun entry stretch => Announced allowOverruns entry.1 entry.2 stretch)
        log stretches := by
  obtain ⟨raw, calls, rfl⟩ := Device.runCalls_map (D.call allowOverruns) report run
  obtain ⟨used, stretches, split, moved, record, takes⟩ := D.runCalls_record calls
  refine ⟨used, stretches, split, moved, record, ?_⟩
  rw [List.forall₂_map_left_iff]
  exact takes.imp fun _ _ taken => announces taken

/-- **Soapy's reads announce every loss.** In every run of `read_from_hw` calls, for any requests,
any answers of the driver and any `expected_timestamp` at its start, the samples of all answers,
with a mark for each time stamp that does not fit, are the stretches of the calls one after the
other, and the status of each call says what is in its stretch. -/
theorem soapy_reads_announced (nsPerSample : Rat) (allowOverruns : Bool) (expected expected' : Rat)
    (results rest : List (SoapyResult α)) (requests : List Nat) (log : List (Nat × HwRead α))
    (run : runCalls (soapyReadFromHw nsPerSample allowOverruns) (expected, results) requests =
      some ((expected', rest), log)) :
    ∃ used stretches, results = used ++ rest ∧
      (soapyDevice nsPerSample).record expected used = stretches.flatten ∧
      List.Forall₂ (fun entry stretch => Announced allowOverruns entry.1 entry.2 stretch)
        log stretches := by
  obtain ⟨used, stretches, split, _, record, announced⟩ :=
    runCalls_announced (soapyDevice nsPerSample) (fun _ => soapyReport)
      soapyReport_announced run
  exact ⟨used, stretches, split, record, announced⟩

set_option synthInstance.maxSize 1000 in
/-- A read without a loss, and one that begins behind a loss of 15 samples. -/
theorem soapy_reads_announced_gap :
    ∃ (used : List (SoapyResult Nat)) (stretches : List (List (Option Nat))),
      [some ([1, 2], 0), some ([3], 1000), some ([4, 5], 9000)] = used ++ [] ∧
      (soapyDevice 500).record 0 used = stretches.flatten ∧
      List.Forall₂ (fun entry stretch => Announced true entry.1 entry.2 stretch)
        [(3, ⟨.success, 3, [1, 2, 3]⟩), (2, ⟨.databreak, 2, [4, 5]⟩)] stretches :=
  soapy_reads_announced 500 true 0 10000 _ [] [3, 2] _ (by decide +kernel)

/-- **UHD's reads announce every overflow**, in the same way. -/
theorem uhd_reads_announced (allowOverruns : Bool) (results rest : List (UhdResult α))
    (requests : List Nat) (log : List (Nat × HwRead α))
    (run : runCalls (uhdReadFromHw allowOverruns) ((), results) requests =
      some (((), rest), log)) :
    ∃ used stretches, results = used ++ rest ∧
      uhdDevice.record () used = stretches.flatten ∧
      List.Forall₂ (fun entry stretch => Announced allowOverruns entry.1 entry.2 stretch)
        log stretches := by
  obtain ⟨used, stretches, split, _, record, announced⟩ :=
    runCalls_announced uhdDevice uhdReport uhdReport_announced run
  exact ⟨used, stretches, split, record, announced⟩

/-- A read that an overflow cuts short, and one that fails. -/
theorem uhd_reads_announced_cut :
    ∃ (used : List (UhdResult Nat)) (stretches : List (List (Option Nat))),
      [some (.none, [1]), some (.overflow, [2]), none] = used ++ [] ∧
      uhdDevice.record () used = stretches.flatten ∧
      List.Forall₂ (fun entry stretch => Announced true entry.1 entry.2 stretch)
        [(2, ⟨.databreak, 1, [1]⟩), (2, ⟨.error, 2, []⟩)] stretches :=
  uhd_reads_announced true _ [] [2, 2] _ rfl

/-! ## Times -/

theorem double_nonneg {x : Rat} (positive : 0 ≤ x) : 0 ≤ double x :=
  roundTo_nonneg 53 positive

/-- The error of a `double`, with the power of two written out for the arithmetic below. -/
theorem double_near {x : Rat} (positive : 0 ≤ x) :
    x - x / 9007199254740992 ≤ double x ∧ double x ≤ x + x / 9007199254740992 := by
  have power : (2 : Rat) ^ 53 = 9007199254740992 := by norm_num
  exact power ▸ roundTo_near 53 positive

/-- `long long` cuts off the fraction. -/
theorem toLongLong_near {x : Rat} (positive : 0 ≤ x) :
    (toLongLong x : Rat) ≤ x ∧ x < toLongLong x + 1 := by
  have floor : toLongLong x = ⌊x⌋ := by
    rw [toLongLong, Rat.floor_def', Int.tdiv_eq_ediv_of_nonneg (Rat.num_nonneg.mpr positive)]
  rw [floor]
  exact ⟨Int.floor_le x, Int.lt_floor_add_one x⟩

section Stamps

variable {nsPerSample limit : Rat}

/-- The end of a piece is computed with four roundings. -/
theorem pieceEnd_near (rate : 0 ≤ nsPerSample) {timeNs : Int} (time : 0 ≤ timeNs)
    {samplesRead : Nat} (below : timeNs + samplesRead * nsPerSample ≤ limit) :
    0 ≤ pieceEnd nsPerSample timeNs samplesRead ∧
      |pieceEnd nsPerSample timeNs samplesRead - (timeNs + samplesRead * nsPerSample)| ≤
        limit / 2 ^ 51 := by
  have time' : (0 : Rat) ≤ timeNs := by exact_mod_cast time
  have count : (0 : Rat) ≤ samplesRead := by positivity
  have first := double_near time'
  have second := double_near count
  have product : 0 ≤ double samplesRead * nsPerSample := mul_nonneg (double_nonneg count) rate
  have third := double_near product
  have sum : 0 ≤ double timeNs + double (double samplesRead * nsPerSample) :=
    add_nonneg (double_nonneg time') (double_nonneg product)
  have fourth := double_near sum
  -- the product is the one place where an error is scaled
  have low := mul_le_mul_of_nonneg_right second.1 rate
  have high := mul_le_mul_of_nonneg_right second.2 rate
  have length : 0 ≤ samplesRead * nsPerSample := mul_nonneg count rate
  refine ⟨double_nonneg sum, ?_⟩
  rw [sub_mul, div_mul_eq_mul_div] at low
  rw [add_mul, div_mul_eq_mul_div] at high
  rw [abs_le, pieceEnd]
  constructor <;> linarith [first.1, first.2, third.1, third.2, fourth.1, fourth.2]

/-- How far the test's integer is from a time stamp, for an `expected_timestamp` that is near the
time `due`. -/
theorem stamp_near {expected due : Rat} (positive : 0 ≤ expected)
    (near : |expected - due| ≤ limit / 2 ^ 51) (below : due ≤ limit) (some : 1 ≤ limit) :
    |toLongLong (double (expected + 1 / 2)) - due| ≤ 1 / 2 + limit / 2 ^ 50 := by
  have sum : 0 ≤ expected + 1 / 2 := by linarith
  have rounds := double_near sum
  have cuts := toLongLong_near (double_nonneg sum)
  rw [abs_le] at near ⊢
  constructor <;> linarith [near.1, near.2, rounds.1, rounds.2, cuts.1, cuts.2]

/-- A time stamp that passes the test is near the time that was due, up to a multiple of 2³² ns. -/
theorem near_of_match {expected due : Rat} (positive : 0 ≤ expected)
    (near : |expected - due| ≤ limit / 2 ^ 51) (below : due ≤ limit) (some : 1 ≤ limit)
    {timeNs : Int} (fits : clockMismatch expected timeNs = false) :
    ∃ turns : Int, |timeNs - due - turns * 4294967296| ≤ 3 / 2 + limit / 2 ^ 50 := by
  have rounds := stamp_near positive near below some
  generalize rounded : toLongLong (double (expected + 1 / 2)) = reached at rounds
  simp only [clockMismatch, rounded, toInt, decide_eq_false_iff_not, not_or, not_lt] at fits
  have split := Int.bmod_add_bdiv (timeNs - reached) 4294967296
  generalize (timeNs - reached).bmod 4294967296 = diff at fits split
  generalize (timeNs - reached).bdiv 4294967296 = turns at split
  refine ⟨turns, ?_⟩
  have time : (timeNs : Rat) = reached + diff + 4294967296 * turns := by
    have whole : timeNs = reached + diff + 4294967296 * turns := by
      have := split
      push_cast at this
      omega
    rw [whole]
    push_cast
    ring
  have low : (-1 : Rat) ≤ diff := by exact_mod_cast fits.1
  have high : (diff : Rat) ≤ 1 := by exact_mod_cast fits.2
  rw [abs_le] at rounds ⊢
  rw [time]
  constructor <;> linarith [rounds.1, rounds.2]

/-- What is asked of the answers of a driver: no time stamp is negative, and no piece ends behind
`limit`. -/
def Stamped (nsPerSample limit : Rat) (results : List (SoapyResult α)) : Prop :=
  ∀ samples timeNs, some (samples, timeNs) ∈ results →
    0 ≤ timeNs ∧ timeNs + samples.length * nsPerSample ≤ limit

/-- A list of pieces, each with its time stamp: the items stand at their times, as far as the test
can tell. -/
theorem unbroken_in_time (rate : 0 ≤ nsPerSample) {expected due : Rat} (positive : 0 ≤ expected)
    (near : |expected - due| ≤ limit / 2 ^ 51) (below : due ≤ limit) (some : 1 ≤ limit)
    {used : List (SoapyResult α)} {items : List α} (stamped : Stamped nsPerSample limit used)
    (unbroken : (soapyDevice nsPerSample).Unbroken expected used items) :
    ∃ pieces : List (List α × Int), used = pieces.map .some ∧ items = pieces.flatMap Prod.fst ∧
      ∀ before piece later, pieces = before ++ piece :: later → ∃ turns : Int,
        |piece.2 - (due + (before.flatMap Prod.fst).length * nsPerSample) -
          turns * 4294967296| ≤ (3 / 2 + limit / 2 ^ 50) * (before.length + 1) := by
  induction used generalizing expected due items with
  | nil =>
      obtain rfl : items = [] := unbroken
      exact ⟨[], rfl, rfl, by simp⟩
  | cons result used ih =>
      obtain ⟨more, rest, answered, rfl, goesOn⟩ := unbroken
      cases result with
      | none => cases answered
      | some piece =>
          obtain ⟨samples, timeNs⟩ := piece
          simp only [soapyDevice, Option.some.injEq, Prod.mk.injEq] at answered goesOn
          obtain ⟨fits, rfl⟩ := answered
          obtain ⟨turns, here⟩ := near_of_match positive near below some fits
          obtain ⟨time, ends⟩ := stamped samples timeNs List.mem_cons_self
          obtain ⟨positive', near'⟩ := pieceEnd_near rate time ends
          obtain ⟨pieces, rfl, rfl, times⟩ := ih positive' near' ends
            (fun samples timeNs member => stamped samples timeNs (List.mem_cons_of_mem _ member))
            goesOn
          refine ⟨(samples, timeNs) :: pieces, rfl, rfl, fun before piece later split => ?_⟩
          cases before with
          | nil =>
              obtain ⟨rfl, -⟩ := List.cons.inj split
              exact ⟨turns, by simpa using here⟩
          | cons first before =>
              obtain ⟨rfl, behind⟩ := List.cons.inj split
              obtain ⟨more, close⟩ := times before piece later behind
              refine ⟨turns + more, ?_⟩
              rw [abs_le] at here close ⊢
              simp only [List.flatMap_cons, List.length_append, List.length_cons]
              push_cast
              constructor <;> linarith [here.1, here.2, close.1, close.2]

/-- A driver that loses nothing: every answer is a piece whose time stamp is within half a
nanosecond of the end of the piece before. -/
def Steady (nsPerSample : Rat) : Rat → List (SoapyResult α) → Prop
  | _, [] => True
  | _, none :: _ => False
  | due, some (samples, timeNs) :: results =>
      |timeNs - due| ≤ 1 / 2 ∧ Steady nsPerSample (timeNs + samples.length * nsPerSample) results

/-- A time stamp within half a nanosecond of the time that was due passes the test, while rounding
takes less than a nanosecond. -/
theorem match_of_near {expected due : Rat} (positive : 0 ≤ expected)
    (near : |expected - due| ≤ limit / 2 ^ 51) (below : due ≤ limit) (some : 1 ≤ limit)
    (early : limit < 2 ^ 50) {timeNs : Int} (close : |timeNs - due| ≤ 1 / 2) :
    clockMismatch expected timeNs = false := by
  have rounds := stamp_near positive near below some
  generalize rounded : toLongLong (double (expected + 1 / 2)) = reached at rounds
  have apart : |((timeNs - reached : Int) : Rat)| < 2 := by
    push_cast
    rw [abs_le] at rounds close
    rw [abs_lt]
    constructor <;> linarith [close.1, close.2, rounds.1, rounds.2]
  have few : |timeNs - reached| < 2 := by exact_mod_cast apart
  rw [abs_lt] at few
  have small : toInt (timeNs - reached) = timeNs - reached :=
    Int.bmod_eq_of_le (by omega) (by omega)
  simp only [clockMismatch, rounded, small, decide_eq_false_iff_not]
  omega

/-- No answer of such a driver is taken for a loss. -/
theorem Steady.unbroken (rate : 0 ≤ nsPerSample) {expected due : Rat} (positive : 0 ≤ expected)
    (near : |expected - due| ≤ limit / 2 ^ 51) (below : due ≤ limit) (some : 1 ≤ limit)
    (early : limit < 2 ^ 50) {results : List (SoapyResult α)}
    (stamped : Stamped nsPerSample limit results) (steady : Steady nsPerSample due results) :
    ∃ all, (soapyDevice nsPerSample).Unbroken expected results all := by
  induction results generalizing expected due with
  | nil => exact ⟨[], rfl⟩
  | cons result results ih =>
      cases result with
      | none => exact steady.elim
      | some piece =>
          obtain ⟨samples, timeNs⟩ := piece
          obtain ⟨close, goesOn⟩ := steady
          obtain ⟨time, ends⟩ := stamped samples timeNs List.mem_cons_self
          obtain ⟨positive', near'⟩ := pieceEnd_near rate time ends
          obtain ⟨all, later⟩ := ih positive' near' ends
            (fun samples timeNs member => stamped samples timeNs (List.mem_cons_of_mem _ member))
            goesOn
          have fits := match_of_near positive near below some early close
          exact ⟨samples ++ all, samples, all, by simp [soapyDevice, fits], rfl, later⟩

end Stamps

theorem soapyReport_success {reading : Device.Reading α} :
    (soapyReport reading).status = .success ↔ Device.Clean reading := by
  unfold soapyReport Device.Clean breakRet
  cases reading.ending <;> cases reading.late <;> simp [IoStatus.isError]

/-- **`IO_SUCCESS` means that no sample was lost.** In every run of Soapy's `read_from_hw` calls
that all return `IO_SUCCESS` each call returns as many samples as were asked for, together they are
those of the driver's pieces, all of them in order and once, and the `k`-th piece began within `k`
times `1.5 + limit / 2⁵⁰` ns of its time, which the number of samples before it gives, up to
multiples of the 2³² ns that an `int` can hold. If all pieces end before 2⁵⁰ ns, a driver that loses
nothing makes every call return `IO_SUCCESS`. -/
theorem soapy_reads_in_time (nsPerSample : Rat) (rate : 0 ≤ nsPerSample) (allowOverruns : Bool)
    (expected expected' limit : Rat) (positive : 0 ≤ expected) (below : expected ≤ limit)
    (some : 1 ≤ limit) (results rest : List (SoapyResult α))
    (stamped : Stamped nsPerSample limit results) (requests : List Nat)
    (log : List (Nat × HwRead α))
    (run : runCalls (soapyReadFromHw nsPerSample allowOverruns) (expected, results) requests =
      .some ((expected', rest), log)) :
    ((∀ entry ∈ log, entry.2.status = .success) →
      (∀ entry ∈ log, entry.2.nSamp = entry.1 ∧ entry.2.samples.length = entry.1) ∧
      ∃ pieces : List (List α × Int), results = pieces.map .some ++ rest ∧
        (log.flatMap fun entry => entry.2.samples) = pieces.flatMap Prod.fst ∧
        ∀ before piece later, pieces = before ++ piece :: later → ∃ turns : Int,
          |piece.2 - (expected + (before.flatMap Prod.fst).length * nsPerSample) -
            turns * 4294967296| ≤ (3 / 2 + limit / 2 ^ 50) * (before.length + 1)) ∧
    (limit < 2 ^ 50 → Steady nsPerSample expected results →
      ∀ entry ∈ log, entry.2.status = .success) := by
  obtain ⟨raw, calls, rfl⟩ :=
    Device.runCalls_map ((soapyDevice nsPerSample).call allowOverruns) (fun _ => soapyReport) run
  have near : |expected - expected| ≤ limit / 2 ^ 51 := by
    rw [sub_self, abs_zero]
    positivity
  refine ⟨fun quiet => ?_, fun early steady => ?_⟩
  · have clean : ∀ entry ∈ raw, Device.Clean entry.2 := fun entry member =>
      soapyReport_success.mp (quiet _ (List.mem_map_of_mem member))
    obtain ⟨lengths, used, rfl, rfl, unbroken⟩ :=
      (soapyDevice nsPerSample).runCalls_clean calls clean
    obtain ⟨pieces, rfl, items, times⟩ := unbroken_in_time rate positive near below some
      (fun samples timeNs member => stamped samples timeNs (List.mem_append_left _ member)) unbroken
    refine ⟨?_, pieces, rfl, ?_, times⟩
    · rw [List.forall_mem_map]
      exact fun entry member => ⟨lengths entry member, lengths entry member⟩
    · rw [← items, List.flatMap_map]
      rfl
  · obtain ⟨all, unbroken⟩ := steady.unbroken rate positive near below some early stamped
    rw [List.forall_mem_map]
    intro entry member
    exact soapyReport_success.mpr
      ((soapyDevice nsPerSample).runCalls_of_unbroken unbroken calls entry member)

set_option synthInstance.maxSize 1000 in
/-- Two reads of a driver that loses nothing. -/
theorem soapy_reads_in_time_steady :
    ((∀ entry ∈ [(3, (⟨.success, 3, [1, 2, 3]⟩ : HwRead Nat)), (1, ⟨.success, 1, [4]⟩)],
      entry.2.nSamp = entry.1 ∧ entry.2.samples.length = entry.1) ∧
    ∃ pieces : List (List Nat × Int),
      [some ([1, 2], 0), some ([3], 1000), some ([4], 1500)] = pieces.map some ++ [] ∧
        [1, 2, 3, 4] = pieces.flatMap Prod.fst ∧
        ∀ before piece later, pieces = before ++ piece :: later → ∃ turns : Int,
          |piece.2 - (0 + ((before.flatMap Prod.fst).length : Rat) * 500) -
            turns * 4294967296| ≤ (3 / 2 + 2000 / 2 ^ 50) * (before.length + 1)) ∧
    ∀ entry ∈ [(3, (⟨.success, 3, [1, 2, 3]⟩ : HwRead Nat)), (1, ⟨.success, 1, [4]⟩)],
      entry.2.status = .success := by
  have stamped : Stamped 500 2000
      [some ([1, 2], 0), some ([3], 1000), some ([4], 1500)] := by
    simp only [Stamped, List.mem_cons, Option.some.injEq, Prod.mk.injEq, List.not_mem_nil, or_false]
    rintro _ _ (⟨rfl, rfl⟩ | ⟨rfl, rfl⟩ | ⟨rfl, rfl⟩) <;> norm_num
  have both := soapy_reads_in_time 500 (by norm_num) true 0 2000 2000 (by norm_num) (by norm_num)
    (by norm_num) _ [] stamped [3, 1] [(3, ⟨.success, 3, [1, 2, 3]⟩), (1, ⟨.success, 1, [4]⟩)]
    (by decide +kernel)
  exact ⟨both.1 (by simp), both.2 (by norm_num) (by norm_num [Steady])⟩

/-- With the nanoseconds since 1970 as time stamps a driver that loses nothing is refused: the
doubles there are 256 apart. -/
example : Steady 500 1700000000000000000
      [some ([1], 1700000000000000000), some ([2], 1700000000000000500)] ∧
    (soapyReadFromHw 500 false (1700000000000000000,
      [some ([1], 1700000000000000000), some ([2], 1700000000000000500)]) 2).map Prod.snd =
        some ⟨.error, 1, [1]⟩ :=
  ⟨by norm_num [Steady], by decide +kernel⟩

end Bingewatch.Sdr
