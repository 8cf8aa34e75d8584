import Mathlib.Algebra.Order.Ring.Rat
import Mathlib.Tactic.Linarith
import Mathlib.Tactic.Ring
import Bingewatch.Foundation.Parts
import Bingewatch.Machine.Descriptor

/-!
# Starting a Soapy channel

`soapy_channel_start` reads from a new stream until the clock of the device is synchronised, for two
seconds at most (`src/sdr/soapy-machine.c`). Its times are doubles, here rationals.

The loop tests a variable `diff` that is never assigned: the difference is stored in another `diff`
inside of the loop. And the exit for a time-out returns `IO_SUCCESS`, not the `ret` it has prepared.
`soapy_start_iff` says for which results of `SoapySDRDevice_readStream` the channel is synchronised
all the same.
-/

set_option autoImplicit false

namespace Bingewatch.Sdr

open Foundation Machine

/-- What `SoapySDRDevice_readStream` returns: an error, or a number of samples and the time stamp of
the first. -/
abbrev StreamResult := Option (Nat × Int)

/-- The conversion of a double to a `long long`. -/
def toLongLong (x : Rat) : Int := x.num.tdiv x.den

/-- The variables of the loop, with the field `expected_timestamp` of the channel. -/
structure SyncLoop where
  expectedTimestamp : Rat
  timeNs : Int := 0
  diff : Int := 0
  timeout : Rat := 2

/-- The seconds of a read. -/
def readSeconds : Rat := 1 / 100

/-- A round of the loop, where the status is returned with the number of reads made so far. -/
def soapyStartRound (nsPerSample : Rat) (results : Nat → StreamResult) (n : Nat) (s : SyncLoop) :
    Progress SyncLoop (IoStatus × Nat) :=
  if s.timeNs = 0 ∨ s.diff < -1 ∨ s.diff > 1 then
    match results n with
    | none => .returned s (.error, n + 1)
    | some (samplesRead, timeNs) =>
        -- The difference to what was expected is stored in a variable of the loop body, not in the
        -- one that the loop tests.
        let t : SyncLoop :=
          { s with
            timeNs := timeNs
            expectedTimestamp := timeNs + samplesRead * nsPerSample
            timeout := s.timeout - readSeconds }
        if t.timeout ≤ 0 then .returned t (.success, n + 1) else .running t
  else .returned s (.success, n)

/-- `soapy_channel_start` after some rounds. -/
def soapyStartRounds (nsPerSample expected : Rat) (results : Nat → StreamResult) :
    Nat → Progress SyncLoop (IoStatus × Nat) :=
  rounds (soapyStartRound nsPerSample results) { expectedTimestamp := expected }

/-! ## Synchronised reads -/

/-- The field `expected_timestamp` before a read. -/
def expectedAt (nsPerSample expected : Rat) (results : Nat → StreamResult) : Nat → Rat
  | 0 => expected
  | n + 1 =>
      match results n with
      | none => expectedAt nsPerSample expected results n
      | some (samplesRead, timeNs) => timeNs + samplesRead * nsPerSample

/-- The read has a time stamp, and one that differs by at most one nanosecond from the one that was
expected after the read before it. -/
def InSync (nsPerSample expected : Rat) (results : Nat → StreamResult) (n : Nat) : Prop :=
  ∃ samplesRead timeNs, results n = some (samplesRead, timeNs) ∧ timeNs ≠ 0 ∧
    |timeNs - toLongLong (expectedAt nsPerSample expected results n + 1 / 2)| ≤ 1

/-- The read has no time stamp. -/
def Quiet (results : Nat → StreamResult) (n : Nat) : Prop :=
  ∃ samplesRead, results n = some (samplesRead, 0)

/-- The call returns; a success means that its last read is synchronised, and when none of its reads
is, an error is returned. -/
structure Synchronises (nsPerSample expected : Rat) (results : Nat → StreamResult) : Prop where
  returns : ∃ n s result, soapyStartRounds nsPerSample expected results n = .returned s result
  last : ∀ n s reads, soapyStartRounds nsPerSample expected results n =
    .returned s (.success, reads) → ∃ k, reads = k + 1 ∧ InSync nsPerSample expected results k
  timeOut : ∀ n s status reads, soapyStartRounds nsPerSample expected results n =
    .returned s (status, reads) → (∀ k < reads, ¬ InSync nsPerSample expected results k) →
      status = .error

/-! ## The loop -/

section Loop

variable {nsPerSample expected : Rat} {results : Nat → StreamResult}

/-- The reads of the first `n` rounds, of which only the last may have a time stamp. -/
structure Searching (nsPerSample expected : Rat) (results : Nat → StreamResult) (n : Nat)
    (s : SyncLoop) : Prop where
  diff : s.diff = 0
  timeout : s.timeout = 2 - n * readSeconds
  early : n < 200
  quiet : ∀ k, k + 1 < n → Quiet results k
  last : ∀ k, k + 1 = n → ∃ samplesRead, results k = some (samplesRead, s.timeNs)
  first : n = 0 → s.timeNs = 0

/-- The read at which the loop ends: it fails, it has the first time stamp, or it is the last for
which there is time. -/
def EndsAt (results : Nat → StreamResult) (status : IoStatus) (k : Nat) : Prop :=
  (results k = none ∧ status = .error) ∨
    ∃ samplesRead timeNs, results k = some (samplesRead, timeNs) ∧ status = .success ∧
      (timeNs ≠ 0 ∨ k = 199)

/-- Where the loop is after `n` rounds. -/
def SyncStage (nsPerSample expected : Rat) (results : Nat → StreamResult) (n : Nat) :
    Progress SyncLoop (IoStatus × Nat) → Prop
  | .running s => Searching nsPerSample expected results n s
  | .returned _ (status, reads) =>
      ∃ k < 200, reads = k + 1 ∧ (∀ i < k, Quiet results i) ∧ EndsAt results status k

theorem Searching.quiet_all {n : Nat} {s : SyncLoop}
    (searching : Searching nsPerSample expected results n s) (none : s.timeNs = 0) :
    ∀ k < n, Quiet results k := by
  intro k earlier
  rcases Nat.lt_or_ge (k + 1) n with before | last
  · exact searching.quiet k before
  · obtain ⟨samplesRead, result⟩ := searching.last k (by omega)
    rw [none] at result
    exact ⟨samplesRead, result⟩

/-- **One round.** -/
theorem Searching.round {n : Nat} {s : SyncLoop}
    (searching : Searching nsPerSample expected results n s) :
    SyncStage nsPerSample expected results (n + 1)
      (soapyStartRound nsPerSample results n s) := by
  have early := searching.early
  have timeout := searching.timeout
  unfold soapyStartRound
  by_cases none : s.timeNs = 0
  · have quiet := searching.quiet_all none
    rw [if_pos (.inl none)]
    cases result : results n with
    | none => exact ⟨n, early, rfl, quiet, .inl ⟨result, rfl⟩⟩
    | some read =>
        obtain ⟨samplesRead, timeNs⟩ := read
        have left : s.timeout - readSeconds = 2 - (n + 1 : Nat) * readSeconds := by
          rw [timeout]
          push_cast
          ring
        simp only [left]
        split
        · next ended =>
            have late : 200 ≤ n + 1 := by
              by_contra more
              have bound : ((n + 1 : Nat) : Rat) ≤ 199 := by exact_mod_cast (by omega : n + 1 ≤ 199)
              rw [readSeconds] at ended
              linarith
            exact ⟨n, early, rfl, quiet, .inr ⟨samplesRead, timeNs, result, rfl, .inr (by omega)⟩⟩
        · next goes =>
            refine ⟨searching.diff, rfl, ?_, fun k before => quiet k (by omega), ?_, by omega⟩
            · by_contra late
              have bound : (200 : Rat) ≤ ((n + 1 : Nat) : Rat) := by
                exact_mod_cast (by omega : 200 ≤ n + 1)
              rw [readSeconds] at goes
              exact goes (by linarith)
            · intro k same
              obtain rfl : k = n := by omega
              exact ⟨samplesRead, result⟩
  · -- The variable `diff` is still 0, so the first time stamp ends the loop.
    have ends : ¬ (s.timeNs = 0 ∨ s.diff < -1 ∨ s.diff > 1) := by
      rw [searching.diff]
      simp [none]
    rw [if_neg ends]
    obtain ⟨k, rfl⟩ : ∃ k, n = k + 1 := by
      cases n with
      | zero => exact absurd (searching.first rfl) none
      | succ k => exact ⟨k, rfl⟩
    obtain ⟨samplesRead, result⟩ := searching.last k rfl
    exact ⟨k, by omega, rfl, fun i before => searching.quiet i (by omega),
      .inr ⟨samplesRead, s.timeNs, result, rfl, .inl none⟩⟩

theorem soapyStart_stage (n : Nat) :
    SyncStage nsPerSample expected results n
      (soapyStartRounds nsPerSample expected results n) := by
  refine rounds_invariant (I := SyncStage nsPerSample expected results) ?_ ?_ ?_ n
  · exact ⟨rfl, by simp, by omega, fun k before => by omega, fun k before => by omega, fun _ => rfl⟩
  · exact fun n s searching => searching.round
  · exact fun n s result ended => ended

/-- The loop ends after 200 rounds. -/
theorem soapyStart_returns (nsPerSample expected : Rat) (results : Nat → StreamResult) {n : Nat}
    (late : 200 ≤ n) :
    ∃ s result, soapyStartRounds nsPerSample expected results n = .returned s result := by
  have stage : SyncStage nsPerSample expected results n _ := soapyStart_stage n
  cases here : soapyStartRounds nsPerSample expected results n with
  | running s =>
      rw [here] at stage
      have searching : Searching nsPerSample expected results n s := stage
      exact absurd searching.early (Nat.not_lt.mpr late)
  | returned s result => exact ⟨s, result, rfl⟩

theorem soapyStart_ends {n reads : Nat} {s : SyncLoop} {status : IoStatus}
    (returned : soapyStartRounds nsPerSample expected results n = .returned s (status, reads)) :
    ∃ k < 200, reads = k + 1 ∧ (∀ i < k, Quiet results i) ∧ EndsAt results status k := by
  have stage : SyncStage nsPerSample expected results n _ := soapyStart_stage n
  rwa [returned] at stage

/-- **A started channel is synchronised** exactly when, before the time for 200 reads is over, a
read fails or the first time stamp of all agrees with what was expected after the read before it. -/
theorem soapy_start_iff (nsPerSample expected : Rat) (results : Nat → StreamResult) :
    Synchronises nsPerSample expected results ↔
      ∃ k < 200, (∀ i < k, Quiet results i) ∧
        (results k = none ∨ InSync nsPerSample expected results k) := by
  constructor
  · intro synchronises
    obtain ⟨n, s, ⟨status, reads⟩, returned⟩ := synchronises.returns
    obtain ⟨k, early, count, quiet, ends⟩ := soapyStart_ends returned
    refine ⟨k, early, quiet, ?_⟩
    rcases ends with ⟨failed, -⟩ | ⟨samplesRead, timeNs, -, rfl, -⟩
    · exact .inl failed
    · obtain ⟨k', last, sync⟩ := synchronises.last _ _ _ returned
      obtain rfl : k = k' := by omega
      exact .inr sync
  · rintro ⟨k, early, quiet, good⟩
    -- The loop ends at this read, not before it and not behind it.
    have ending : ∀ {n reads : Nat} {s : SyncLoop} {status : IoStatus},
        soapyStartRounds nsPerSample expected results n = .returned s (status, reads) →
          reads = k + 1 ∧ EndsAt results status k := by
      intro n reads s status returned
      obtain ⟨k', early', count, quiet', ends⟩ := soapyStart_ends returned
      rcases Nat.lt_trichotomy k' k with before | rfl | behind
      · obtain ⟨samplesRead, result⟩ := quiet k' before
        rcases ends with ⟨failed, -⟩ | ⟨_, timeNs, other, -, stamped | late⟩
        · rw [result] at failed
          cases failed
        · rw [result] at other
          cases other
          exact absurd rfl stamped
        · omega
      · exact ⟨count, ends⟩
      · obtain ⟨samplesRead, result⟩ := quiet' k behind
        rcases good with failed | ⟨_, timeNs, other, stamped, -⟩
        · rw [result] at failed
          cases failed
        · rw [result] at other
          cases other
          exact absurd rfl stamped
    refine ⟨⟨200, soapyStart_returns nsPerSample expected results (Nat.le_refl 200)⟩, ?_, ?_⟩
    · intro n s reads success
      obtain ⟨count, ends⟩ := ending success
      rcases ends with ⟨-, failed⟩ | ⟨samplesRead, timeNs, result, -, -⟩
      · cases failed
      · refine ⟨k, count, good.resolve_left ?_⟩
        rw [result]
        simp
    · intro n s status reads ended none
      obtain ⟨count, ends⟩ := ending ended
      rcases good with failed | sync
      · rcases ends with ⟨-, error⟩ | ⟨samplesRead, timeNs, result, -, -⟩
        · exact error
        · rw [failed] at result
          cases result
      · exact absurd sync (none k (by omega))

/-- Where no read fails, the call succeeds. -/
theorem soapyStart_succeeds (nsPerSample expected : Rat) (results : Nat → StreamResult)
    (reads : ∀ n, results n ≠ none) :
    ∃ n s k, soapyStartRounds nsPerSample expected results n = .returned s (.success, k + 1) ∧
      ∀ i < k, Quiet results i := by
  obtain ⟨s, ⟨status, count⟩, returned⟩ := soapyStart_returns nsPerSample expected
    results (Nat.le_refl 200)
  obtain ⟨k, -, rfl, quiet, ends⟩ := soapyStart_ends returned
  rcases ends with ⟨failed, -⟩ | ⟨-, -, -, rfl, -⟩
  · exact absurd failed (reads k)
  · exact ⟨200, s, k, returned, quiet⟩

end Loop

/-- No read has a time stamp, and the call succeeds when its time is over; every read has the time
stamp 5 where 0 was expected, and the call succeeds after the first. -/
theorem soapy_starts_unsynchronised :
    ¬ Synchronises 1 0 (fun _ => some (1000, 0)) ∧ ¬ Synchronises 1 0 (fun _ => some (1, 5)) := by
  constructor
  · intro synchronises
    obtain ⟨n, s, k, returned, -⟩ := soapyStart_succeeds 1 0 (fun _ => some (1000, 0)) (by simp)
    obtain ⟨k', -, samplesRead, timeNs, result, stamped, -⟩ := synchronises.last _ _ _ returned
    cases result
    exact stamped rfl
  · intro synchronises
    obtain ⟨n, s, k, returned, quiet⟩ := soapyStart_succeeds 1 0 (fun _ => some (1, 5))
      (by simp)
    obtain ⟨k', count, samplesRead, timeNs, result, -, near⟩ := synchronises.last _ _ _ returned
    cases result
    cases k with
    | zero =>
        obtain rfl : k' = 0 := by omega
        exact absurd near (by decide +kernel)
    | succ k =>
        obtain ⟨_, none⟩ := quiet 0 (Nat.succ_pos k)
        cases none

end Bingewatch.Sdr
