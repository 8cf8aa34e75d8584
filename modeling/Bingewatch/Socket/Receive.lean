import Bingewatch.Socket.Locks
import Bingewatch.Foundation.Parts

/-!
# Receiving from a socket

`udp_read` fills the caller's buffer from datagrams (`src/socket-machine.c`). It stores the result
of `recvfrom` in a `size_t` and counts what remains, the pointer and the total with it. An empty
datagram ends the call early.

The test for an error compares the `size_t` with zero from below and never holds, so an error is
counted as a datagram of the largest size: one byte more remains, and the pointer goes back by one.
As long as `recvfrom` does not fail the counts are right, and `udp_read_right_iff` says that this is
the only way in which they go wrong.
-/

set_option autoImplicit false

namespace Bingewatch.Socket

open Foundation Machine

/-- What `udp_read` asks `recvfrom` for. -/
def udpAsked (payloadSize remaining : UInt64) : UInt64 :=
  if remaining > payloadSize then payloadSize else remaining

/-- A round of the loop of `udp_read`, with the status and the byte count if it returns. When the
loop ends by itself the byte count is the request. -/
def udpReadRound (payloadSize request : UInt64) (results : Nat → Option Nat) (n : Nat) (s : Parts) :
    Progress Parts (IoStatus × UInt64) :=
  if s.remaining = 0 then .returned s (.success, request)
  else
    let b := udpAsked payloadSize s.remaining
    let bytesRcvd := reply (results n) b
    let t := s.call (results n) b
    if bytesRcvd = 0 then .returned t (.success, s.total)
    else if bytesRcvd < 0 then .returned t (.error, 0)
    else .running t

/-- `udp_read` of a socket after some rounds; `results` are the results of `recvfrom`. -/
def udpReadRounds (payloadSize request : UInt64) (results : Nat → Option Nat) :
    Nat → Progress Parts (IoStatus × UInt64) :=
  rounds (udpReadRound payloadSize request results) { remaining := request }

/-- The stores are inside the caller's buffer, no more remains than was requested, a failed
`recvfrom` makes the call fail without bytes, and a success reports what was received. -/
structure UdpReadRight (payloadSize request : UInt64) (results : Nat → Option Nat) : Prop where
  inside : ∀ n, (udpReadRounds payloadSize request results n).state.Inside request
  remaining : ∀ n, (udpReadRounds payloadSize request results n).state.remaining ≤ request
  failed : ∀ n s, udpReadRounds payloadSize request results n = .running s → s.remaining ≠ 0 →
    results n = none →
      ∃ m t, udpReadRounds payloadSize request results m = .returned t (.error, 0)
  reported : ∀ n s bytes, udpReadRounds payloadSize request results n =
    .returned s (.success, bytes) → bytes.toNat = s.moved

/-- `recvfrom` fails at no call that is made: before the datagrams, none of them empty, have filled
the request. -/
def RecvSucceeds (payloadSize request : UInt64) (results : Nat → Option Nat) : Prop :=
  ∀ n, (∀ m < n, ∃ count, results m = some count ∧ count ≠ 0) →
    offered payloadSize.toNat results n < request.toNat → results n ≠ none

section

variable {payloadSize request : UInt64} {results : Nat → Option Nat}

theorem udpAsked_le (payloadSize remaining : UInt64) :
    udpAsked payloadSize remaining ≤ remaining := by
  unfold udpAsked
  split
  · next more => exact UInt64.le_of_lt more
  · exact UInt64.le_refl _

theorem toNat_udpAsked (payloadSize remaining : UInt64) :
    (udpAsked payloadSize remaining).toNat = min payloadSize.toNat remaining.toNat := by
  unfold udpAsked
  split
  · next more =>
      have less := UInt64.lt_iff_toNat_lt.mp more
      omega
  · next less =>
      have less := mt UInt64.lt_iff_toNat_lt.mpr less
      omega

/-- After `n` datagrams that do not end the call, the counts are right and have come as far as the
datagrams go. -/
structure Receiving (payloadSize request : UInt64) (results : Nat → Option Nat) (n : Nat)
    (s : Parts) : Prop where
  counts : s.Exact request
  filled : ∀ m < n, ∃ count, results m = some count ∧ count ≠ 0
  total : s.total.toNat = min (offered payloadSize.toNat results n) request.toNat

theorem receiving_start : Receiving payloadSize request results 0 { remaining := request } where
  counts := Parts.exact_start request
  filled := by simp
  total := by simp [offered]

theorem Receiving.ahead {n : Nat} {s : Parts}
    (receiving : Receiving payloadSize request results n s) (more : s.remaining ≠ 0) :
    offered payloadSize.toNat results n < request.toNat := by
  have sum := receiving.counts.sum
  have total := receiving.total
  have positive : s.remaining.toNat ≠ 0 := toNat_ne_zero more
  omega

/-- One more datagram. -/
theorem Receiving.call {n : Nat} {s : Parts}
    (receiving : Receiving payloadSize request results n s) (more : s.remaining ≠ 0) {count : Nat}
    (result : results n = some count) (filled : count ≠ 0) :
    Receiving payloadSize request results (n + 1)
      (s.call (some count) (udpAsked payloadSize s.remaining)) where
  counts := receiving.counts.call (udpAsked_le _ _)
  filled := by
    intro m before
    rcases Nat.lt_succ_iff_lt_or_eq.mp before with earlier | rfl
    · exact receiving.filled m earlier
    · exact ⟨count, result, filled⟩
  total := by
    have ahead := receiving.ahead more
    have sum := receiving.counts.sum
    have total := receiving.total
    rw [receiving.counts.toNat_total_call (udpAsked_le _ _), toNat_udpAsked, offered, result,
      Option.getD_some]
    omega

/-- A round that `recvfrom` does not fail in. -/
theorem udpReadRound_some {n : Nat} {s : Parts} (payload : 1 ≤ payloadSize)
    (more : s.remaining ≠ 0) {count : Nat} (result : results n = some count) :
    udpReadRound payloadSize request results n s =
      if count = 0 then
        .returned (s.call (some count) (udpAsked payloadSize s.remaining)) (.success, s.total)
      else .running (s.call (some count) (udpAsked payloadSize s.remaining)) := by
  have bound := toNat_udpAsked payloadSize s.remaining
  have received := toNat_reply_some count (udpAsked payloadSize s.remaining)
  have one := UInt64.le_iff_toNat_le.mp payload
  have positive : s.remaining.toNat ≠ 0 := toNat_ne_zero more
  have empty : reply (some count) (udpAsked payloadSize s.remaining) = 0 ↔ count = 0 := by
    rw [← UInt64.toNat_inj, received, bound]
    simp only [UInt64.toNat_one, UInt64.toNat_zero] at one ⊢
    omega
  simp only [udpReadRound, if_neg more, result, empty, UInt64.not_lt_zero, if_false]

/-- What holds where `recvfrom` does not fail: on the way the counts are right, and the call returns
them as a success. -/
def Sound (payloadSize request : UInt64) (results : Nat → Option Nat) (n : Nat) :
    Progress Parts (IoStatus × UInt64) → Prop
  | .running s => Receiving payloadSize request results n s
  | .returned s (status, bytes) => s.Exact request ∧ status = .success ∧ bytes = s.total

theorem udpReadRound_sound {n : Nat} {s : Parts} (payload : 1 ≤ payloadSize)
    (succeeds : RecvSucceeds payloadSize request results)
    (receiving : Receiving payloadSize request results n s) :
    Sound payloadSize request results (n + 1) (udpReadRound payloadSize request results n s) := by
  by_cases more : s.remaining = 0
  · simp only [udpReadRound, if_pos more]
    refine ⟨receiving.counts, rfl, UInt64.toNat_inj.mp ?_⟩
    have sum := receiving.counts.sum
    rw [more] at sum
    exact sum.symm
  · cases result : results n with
    | none => exact absurd result (succeeds n receiving.filled (receiving.ahead more))
    | some count =>
        rw [udpReadRound_some payload more result]
        split
        · next empty =>
            refine ⟨receiving.counts.call (udpAsked_le _ _), rfl, UInt64.toNat_inj.mp ?_⟩
            rw [receiving.counts.toNat_total_call (udpAsked_le _ _), empty, Nat.zero_min,
              Nat.add_zero]
        · next filled => exact receiving.call more result filled

theorem udpReadRounds_sound (payload : 1 ≤ payloadSize)
    (succeeds : RecvSucceeds payloadSize request results) (n : Nat) :
    Sound payloadSize request results n (udpReadRounds payloadSize request results n) :=
  rounds_invariant receiving_start
    (fun _ _ receiving => udpReadRound_sound payload succeeds receiving)
    (fun _ _ _ sound => sound) n

/-- The call returns. -/
theorem udpReadRounds_returns (payload : 1 ≤ payloadSize)
    (succeeds : RecvSucceeds payloadSize request results) :
    ∃ n s result, udpReadRounds payloadSize request results n = .returned s result := by
  refine rounds_ends (I := Receiving payloadSize request results)
    (r := fun _ s => s.remaining.toNat) receiving_start fun n s receiving => ?_
  by_cases more : s.remaining = 0
  · exact .inl ⟨s, _, by rw [udpReadRound, if_pos more]⟩
  · cases result : results n with
    | none => exact absurd result (succeeds n receiving.filled (receiving.ahead more))
    | some count =>
        rw [udpReadRound_some payload more result]
        by_cases empty : count = 0
        · exact .inl ⟨_, _, if_pos empty⟩
        · refine .inr ⟨_, if_neg empty, receiving.call more result empty, ?_⟩
          have bound := toNat_udpAsked payloadSize s.remaining
          have one := UInt64.le_iff_toNat_le.mp payload
          have positive : s.remaining.toNat ≠ 0 := toNat_ne_zero more
          rw [Parts.toNat_remaining_call (udpAsked_le _ _), bound]
          simp only [UInt64.toNat_one] at one
          omega

/-- The call never returns an error. -/
theorem udpReadRounds_success {n : Nat} {s : Parts} {result : IoStatus × UInt64}
    (returned : udpReadRounds payloadSize request results n = .returned s result) :
    result.1 = .success := by
  suffices always : ∀ s result,
      udpReadRounds payloadSize request results n = .returned s result → result.1 = .success by
    exact always s result returned
  refine rounds_invariant
    (I := fun _ (p : Progress Parts (IoStatus × UInt64)) =>
      ∀ s result, p = .returned s result → result.1 = .success)
    (by simp) ?_ (fun _ _ _ holds => holds) n
  intro n s _ t result returned
  simp only [udpReadRound, UInt64.not_lt_zero, if_false] at returned
  split at returned
  · cases returned
    rfl
  · split at returned
    · cases returned
      rfl
    · cases returned

/-- Where the datagrams go on, the call is still running. -/
theorem udpReadRounds_receiving (payload : 1 ≤ payloadSize) (n : Nat)
    (filled : ∀ m < n, ∃ count, results m = some count ∧ count ≠ 0)
    (ahead : offered payloadSize.toNat results n < request.toNat) :
    ∃ s, udpReadRounds payloadSize request results n = .running s ∧
      Receiving payloadSize request results n s ∧ s.remaining ≠ 0 := by
  induction n with
  | zero =>
      refine ⟨_, rfl, receiving_start, fun zero => ?_⟩
      simp only [offered] at ahead
      rw [show request = 0 from zero] at ahead
      exact absurd ahead (Nat.lt_irrefl 0)
  | succ n ih =>
      have less : offered payloadSize.toNat results n < request.toNat :=
        Nat.lt_of_le_of_lt (Nat.le_add_right _ _) ahead
      obtain ⟨s, running, receiving, more⟩ :=
        ih (fun m before => filled m (Nat.lt_succ_of_lt before)) less
      obtain ⟨count, result, nonzero⟩ := filled n (Nat.lt_succ_self n)
      have next := receiving.call more result nonzero
      refine ⟨_, ?_, next, fun zero => ?_⟩
      · rw [udpReadRounds, rounds_succ running, udpReadRound_some payload more result,
          if_neg nonzero]
      · have sum := next.counts.sum
        have total := next.total
        rw [zero, UInt64.toNat_zero] at sum
        omega

end

/-- **Receiving.** `udp_read` stays in its buffer and reports errors exactly when `recvfrom` does
not fail at a call that is made, and then it returns. -/
theorem udp_read_right_iff (payloadSize request : UInt64) (results : Nat → Option Nat)
    (payload : 1 ≤ payloadSize) :
    (UdpReadRight payloadSize request results ↔ RecvSucceeds payloadSize request results) ∧
      (RecvSucceeds payloadSize request results →
        ∃ n s bytes, udpReadRounds payloadSize request results n =
          .returned s (.success, bytes)) := by
  refine ⟨⟨fun right n filled ahead failed => ?_, fun succeeds => ?_⟩, fun succeeds => ?_⟩
  · obtain ⟨s, running, -, more⟩ := udpReadRounds_receiving payload n filled ahead
    obtain ⟨m, t, returned⟩ := right.failed n s running more failed
    cases udpReadRounds_success returned
  · have sound := udpReadRounds_sound payload succeeds
    have counts : ∀ n, (udpReadRounds payloadSize request results n).state.Exact request := by
      intro n
      have here := sound n
      apply Progress.state_holds
      · intro s running
        rw [running] at here
        exact here.counts
      · intro s result returned
        rw [returned] at here
        exact here.1
    refine ⟨fun n => (counts n).inside, fun n => ?_, fun n s running more failed => ?_,
      fun n s bytes returned => ?_⟩
    · rw [UInt64.le_iff_toNat_le, ← (counts n).sum]
      exact Nat.le_add_left _ _
    · have here := sound n
      rw [running] at here
      exact absurd failed (succeeds n here.filled (here.ahead more))
    · have here := sound n
      rw [returned] at here
      rw [here.2.2, here.1.moved]
  · obtain ⟨n, s, ⟨status, bytes⟩, returned⟩ := udpReadRounds_returns payload succeeds
    obtain rfl : status = .success := udpReadRounds_success returned
    exact ⟨n, s, bytes, returned⟩

/-- Three datagrams fill a request of ten bytes. -/
theorem udp_read_right_datagrams : UdpReadRight 4 10 fun _ => some 5 :=
  (udp_read_right_iff 4 10 (fun _ => some 5) (by decide)).1.mpr fun _ _ _ => by simp

/-- The first call fails, the others do not. -/
def firstFails (n : Nat) : Option Nat := if n = 0 then none else some 4

/-- The first `recvfrom` fails: one byte more than the request remains, and the next datagram is
stored from the byte before the buffer on. -/
theorem udp_read_counts_failure :
    (udpReadRounds 4 10 firstFails 1).state.remaining = 11 ∧
      (0xffffffffffffffff, 4) ∈ (udpReadRounds 4 10 firstFails 2).state.moves ∧
      ¬UdpReadRight 4 10 firstFails := by
  refine ⟨by decide, by decide, fun right => ?_⟩
  exact absurd (right.remaining 1) (by decide)

/-! ## The lock of the socket -/

/-- The results of the calls to `recvfrom` that were made in some rounds. -/
def recvResults (payloadSize request : UInt64) (results : Nat → Option Nat) :
    Nat → List (Option Nat)
  | 0 => []
  | n + 1 =>
      let earlier := recvResults payloadSize request results n
      match udpReadRounds payloadSize request results n with
      | .running s =>
          if s.remaining = 0 then earlier
          else earlier ++ [(results n).map fun count =>
            min count (udpAsked payloadSize s.remaining).toNat]
      | .returned _ _ => earlier

/-- The count that the loop with the lock takes from a result. -/
theorem getD_recvResult (result : Option Nat) (asked : UInt64) :
    (result.map fun count => min count asked.toNat).getD Sockets.sizeMax =
      (reply result asked).toNat := by
  cases result with
  | none => rfl
  | some count => exact (toNat_reply_some count asked).symm

/-- **The loop with the lock** of the socket takes the same rounds and returns the same. -/
theorem udpReadLoop_rounds {T : Sockets} {a : Nat} (free : (T.sock a).locked = false)
    (payloadSize request : UInt64) (results : Nat → Option Nat) (n : Nat)
    (rest : List (Option Nat)) :
    Sockets.udpReadLoop a request.toNat T request.toNat 0
        (recvResults payloadSize request results n ++ rest) =
      match udpReadRounds payloadSize request results n with
      | .running s => Sockets.udpReadLoop a request.toNat T s.remaining.toNat s.total.toNat rest
      | .returned _ (status, bytes) => .returned (T, ⟨status, bytes.toNat⟩) := by
  induction n generalizing rest with
  | zero => rfl
  | succ n ih =>
      cases here : udpReadRounds payloadSize request results n with
      | returned s result =>
          rw [udpReadRounds, rounds_stays here (Nat.le_succ n)]
          simpa only [recvResults, here] using ih rest
      | running s =>
          rw [udpReadRounds, rounds_succ here]
          by_cases more : s.remaining = 0
          · simp only [recvResults, here, if_pos more, udpReadRound]
            rw [ih rest, here]
            simp only [more, UInt64.toNat_zero]
            cases rest <;> rfl
          · simp only [recvResults, here, if_neg more, List.append_assoc, List.singleton_append]
            rw [ih, here]
            obtain ⟨k, positive⟩ : ∃ k, s.remaining.toNat = k + 1 :=
              Nat.exists_eq_succ_of_ne_zero (toNat_ne_zero more)
            simp only [positive, Sockets.udpReadLoop, Sockets.lock_returned free,
              Outcome.returned_bind, Sockets.lock_unlock free, getD_recvResult, udpReadRound,
              if_neg more, UInt64.not_lt_zero, if_false]
            generalize moved : reply (results n) (udpAsked payloadSize s.remaining) = b
            have zero : b.toNat = 0 ↔ b = 0 := by
              rw [← UInt64.toNat_zero, UInt64.toNat_inj]
            by_cases empty : b = 0
            · rw [if_pos empty, if_pos (zero.mpr empty)]
              rfl
            · rw [if_neg empty, if_neg (mt zero.mp empty)]
              have bound := b.toNat_lt
              have remaining : (s.remaining - b).toNat =
                  (k + 1 + 2 ^ 64 - b.toNat) % 2 ^ 64 := by
                rw [UInt64.toNat_sub, positive]
                congr 1
                omega
              simp only [Parts.call, moved, remaining, UInt64.toNat_add]

/-- `udp_read` with its lookup, for a socket of this payload size. -/
theorem udpRead_rounds {T : Sockets} {a : Nat} {h : Int} (list : T.listLocked = false)
    (found : T.find h = some a) (free : (T.sock a).locked = false)
    (payloadSize request : UInt64) (results : Nat → Option Nat) {n : Nat} {s : Parts}
    {status : IoStatus} {bytes : UInt64}
    (returned : udpReadRounds payloadSize request results n = .returned s (status, bytes)) :
    T.udpRead h request.toNat (recvResults payloadSize request results n) =
      .returned (T, ⟨status, bytes.toNat⟩) := by
  have ran := udpReadLoop_rounds free payloadSize request results n []
  rw [List.append_nil, returned] at ran
  rw [Sockets.udpRead, Sockets.getSocket_returned h list, Outcome.returned_bind, found]
  exact ran

end Bingewatch.Socket
