import Bingewatch.Sdr.RxMachine

/-!
# The start-up protocol of a radio channel

A receive channel is set up lazily. The first read configures the hardware and starts the stream;
`sdrrx_reset` stops it, so that the next read starts it again; the setters of a driver configure
the hardware at once and restart the stream, and a channel on which that fails is in error until it
is reset. All of this is driven by `chan->state`, from three functions in two files.

The model keeps the state of the channel (`RxChannel`) apart from what the driver is asked to do
(`Event`, with the answer of the driver): every call returns the events that it caused. What
`hw_read` needs is said about the events alone (`Streaming`), and `Follows` relates the state of the
channel to the events so far. `hw_read_only_when_started` is the result: over every sequence of
calls and answers, the hardware is read only when the events permit it.
-/

set_option autoImplicit false

namespace Bingewatch.Sdr

open Machine

/-! ## The channel and its driver -/

/-- `enum sdr_chan_state_e`. -/
inductive ChanState where
  | noinit
  | reset
  | ready
  | error
  deriving DecidableEq, Repr

/-- `enum sdr_chan_mode_e`. -/
inductive ChanMode where
  | unbuffered
  | buffered
  | error
  deriving DecidableEq, Repr

/-- The variables of `rtlsdr_set_val`; `other` is a number that stands for none of them. -/
inductive RtlVar where
  | freq
  | rate
  | bandwidth
  | ppm
  | other
  deriving DecidableEq, Repr

/-- `struct sdr_channel_t`, with `ν` for `double`. -/
structure RxChannel (ν : Type) where
  freq : ν
  rate : ν
  bandwidth : ν
  ppm : ν
  state : ChanState := .noinit
  mode : ChanMode := .unbuffered
  deriving DecidableEq, Repr

/-- A call of the driver and its answer. `configure` is one of the functions of the RTL-SDR library
that `rtlsdr_set_val` calls; it has succeeded when it returns 0. -/
inductive Event (ν : Type) where
  | channelSet (status : IoStatus)
  | channelStart (status : IoStatus)
  | channelReset (status : IoStatus)
  | configure (var : RtlVar) (val : ν) (done : Bool)
  | hwRead (status : IoStatus)
  deriving DecidableEq, Repr

/-- The answers of the driver that a read may need. `hwRead` is that of the one call in unbuffered
mode; in buffered mode the fill thread makes any number of calls, with the answers `fill`, before
`read_from_buffer` has joined it and returns `buffered`. -/
structure ReadAnswers where
  channelSet : IoStatus
  channelStart : IoStatus
  hwRead : IoStatus × Nat
  fill : List IoStatus
  buffered : IoStatus × Nat
  deriving DecidableEq, Repr

namespace RxChannel

variable {ν : Type}

/-- The case `SDR_CHAN_RESET` of `sdrrx_read`, which the case before it falls into. -/
def start (chan : RxChannel ν) (answers : ReadAnswers) : RxChannel ν × List (Event ν) × Bool :=
  let events := [.channelStart answers.channelStart]
  if answers.channelStart.isError then (chan, events, false)
  else ({ chan with state := .ready }, events, true)

/-- The switch on the state in `sdrrx_read`, and whether it goes on to the read. -/
def prepare (chan : RxChannel ν) (answers : ReadAnswers) : RxChannel ν × List (Event ν) × Bool :=
  match chan.state with
  | .error => (chan, [], false)
  | .noinit =>
      if answers.channelSet.isError then (chan, [.channelSet answers.channelSet], false)
      else
        let (chan, events, started) := chan.start answers
        (chan, .channelSet answers.channelSet :: events, started)
  | .reset => chan.start answers
  | .ready => (chan, [], true)

/-- What a read leaves: the channel, the events, the status and the byte count. -/
structure ReadResult (ν : Type) where
  chan : RxChannel ν
  events : List (Event ν)
  status : IoStatus
  bytes : Nat

/-- The switch on the mode in `sdrrx_read`: the calls of `hw_read`, the status and the samples. -/
def readSamples (chan : RxChannel ν) (nSamp : Nat) (answers : ReadAnswers) :
    List (Event ν) × IoStatus × Nat :=
  match chan.mode with
  | .unbuffered => ([.hwRead answers.hwRead.1], answers.hwRead)
  | .buffered => (answers.fill.map .hwRead, answers.buffered)
  | .error => ([], .error, nSamp)

/-- `sdrrx_read`. -/
def sdrrxRead (chan : RxChannel ν) (bytes : Nat) (answers : ReadAnswers) : ReadResult ν :=
  match chan.prepare answers with
  | (chan, events, false) => ⟨chan, events, .error, 0⟩
  | (chan, events, true) =>
      let (reads, ret, nSamp) := chan.readSamples (bytes / sampleBytes) answers
      ⟨chan, events ++ reads, ret, if ret.isError then 0 else nSamp * sampleBytes⟩

/-- The `channel_reset` of a driver: the state says whether it succeeded. -/
def channelReset (chan : RxChannel ν) (answer : IoStatus) : RxChannel ν :=
  { chan with state := if answer.isError then .error else .reset }

/-- `sdrrx_reset` of a channel that exists: the channel, the events and the return value. -/
def sdrrxReset (chan : RxChannel ν) (answer : IoStatus) : RxChannel ν × List (Event ν) × Nat :=
  match chan.state with
  | .noinit => (chan, [], 0)
  | .reset => (chan, [], 0)
  | _ => (chan.channelReset answer, [.channelReset answer], if answer.isError then 1 else 0)

/-- The first switch of `rtlsdr_set_val`; none in its default case. -/
def setVar (chan : RxChannel ν) (var : RtlVar) (val : ν) : Option (RxChannel ν) :=
  match var with
  | .freq => some { chan with freq := val }
  | .rate => some { chan with rate := val }
  | .bandwidth => some { chan with bandwidth := val }
  | .ppm => some { chan with ppm := val }
  | .other => none

/-- `rtlsdr_set_val` of a channel that exists. `configured` and `started` are the answers of the
library and of `rtlsdr_channel_start`. -/
def rtlsdrSetVal (chan : RxChannel ν) (var : RtlVar) (val : ν) (configured : Bool)
    (started : IoStatus) : RxChannel ν × List (Event ν) × Nat :=
  match chan.setVar var val with
  | none => (chan, [], 1)
  | some chan =>
      if chan.state = .noinit then (chan, [], 0)
      else if configured = false then
        ({ chan with state := .error }, [.configure var val false], 1)
      else
        let events := [.configure var val true, .channelStart started]
        if started.isError then ({ chan with state := .error }, events, 1)
        else (chan, events, 0)

end RxChannel

/-! ## Sequences of calls -/

section Calls

variable {ν : Type}

/-- A call on a channel, with the answers of the driver that it may need. -/
inductive RxCall (ν : Type) where
  | read (bytes : Nat) (answers : ReadAnswers)
  | reset (answer : IoStatus)
  | setVal (var : RtlVar) (val : ν) (configured : Bool) (started : IoStatus)
  | enableBuffering
  | disableBuffering
  deriving DecidableEq, Repr

/-- What a call does to the channel, and the events it causes. -/
def RxChannel.call (chan : RxChannel ν) : RxCall ν → RxChannel ν × List (Event ν)
  | .read bytes answers =>
      let result := chan.sdrrxRead bytes answers
      (result.chan, result.events)
  | .reset answer =>
      let (chan, events, _) := chan.sdrrxReset answer
      (chan, events)
  | .setVal var val configured started =>
      let (chan, events, _) := chan.rtlsdrSetVal var val configured started
      (chan, events)
  | .enableBuffering => ({ chan with mode := .buffered }, [])
  | .disableBuffering => ({ chan with mode := .unbuffered }, [])

/-- The channel and the events after a sequence of calls. -/
def RxChannel.calls (chan : RxChannel ν) : List (RxCall ν) → RxChannel ν × List (Event ν)
  | [] => (chan, [])
  | c :: rest =>
      let (chan, events) := chan.call c
      let (chan, later) := chan.calls rest
      (chan, events ++ later)

/-- Events after which a started stream is started no longer, or was started again. -/
def Event.disturbs : Event ν → Bool
  | .channelStart _ => true
  | .channelReset _ => true
  | .configure _ _ done => !done
  | _ => false

/-- The channel has been configured by a `channel_set` that succeeded. -/
def Configured (log : List (Event ν)) : Prop :=
  ∃ status, status.isError = false ∧ Event.channelSet status ∈ log

/-- The most recent `channel_start` succeeded, and no `channel_reset` and no failed configuration
came after it. -/
def Started (log : List (Event ν)) : Prop :=
  ∃ before status after, log = before ++ .channelStart status :: after ∧ status.isError = false ∧
    ∀ event ∈ after, event.disturbs = false

/-- What has to have happened before the hardware is read: the stream of samples runs. -/
def Streaming (log : List (Event ν)) : Prop := Configured log ∧ Started log

/-- The hardware is read only when the events before permit it. -/
def Ordered (log : List (Event ν)) : Prop :=
  ∀ before status after, log = before ++ .hwRead status :: after → Streaming before

/-! ## What the events keep -/

variable {log events : List (Event ν)} {event : Event ν} {status : IoStatus}

theorem Configured.append (configured : Configured log) (events : List (Event ν)) :
    Configured (log ++ events) := by
  obtain ⟨status, success, member⟩ := configured
  exact ⟨status, success, List.mem_append_left _ member⟩

theorem Started.append (started : Started log) (calm : ∀ event ∈ events, event.disturbs = false) :
    Started (log ++ events) := by
  obtain ⟨before, status, after, rfl, success, quiet⟩ := started
  refine ⟨before, status, after ++ events, by simp, success, fun event member => ?_⟩
  rcases List.mem_append.mp member with earlier | later
  · exact quiet event earlier
  · exact calm event later

theorem started_channelStart (log : List (Event ν)) (success : status.isError = false) :
    Started (log ++ [.channelStart status]) :=
  ⟨log, status, [], rfl, success, by simp⟩

theorem ordered_nil : Ordered ([] : List (Event ν)) := by
  intro before status after split
  simp at split

/-- One more event keeps the order, if it is no read or the stream runs. -/
theorem Ordered.concat (ordered : Ordered log)
    (permitted : ∀ status, event = .hwRead status → Streaming log) : Ordered (log ++ [event]) := by
  intro before status after split
  rcases List.eq_nil_or_concat after with rfl | ⟨after, last, rfl⟩
  · obtain ⟨rfl, same⟩ := List.append_inj' split rfl
    exact permitted status (by simpa using same)
  · rw [List.concat_eq_append, ← List.cons_append, ← List.append_assoc] at split
    obtain ⟨earlier, -⟩ := List.append_inj' split rfl
    exact ordered before status after earlier

/-- Events that are no reads keep the order. -/
theorem Ordered.append (ordered : Ordered log)
    (noRead : ∀ status, Event.hwRead status ∉ events) : Ordered (log ++ events) := by
  induction events generalizing log with
  | nil => simpa using ordered
  | cons event events ih =>
      have first : Ordered (log ++ [event]) :=
        ordered.concat fun status isRead => absurd (by simp [isRead]) (noRead status)
      have rest := ih first fun status member => noRead status (List.mem_cons_of_mem _ member)
      simpa using rest

/-- Reads of a running stream keep the order, and the stream runs on. -/
theorem Ordered.append_reads (ordered : Ordered log) (streaming : Streaming log)
    (statuses : List IoStatus) :
    Ordered (log ++ statuses.map .hwRead) ∧ Streaming (log ++ statuses.map .hwRead) := by
  induction statuses generalizing log with
  | nil => simpa using ⟨ordered, streaming⟩
  | cons status statuses ih =>
      have first : Ordered (log ++ [.hwRead status]) := ordered.concat fun _ _ => streaming
      have running : Streaming (log ++ [.hwRead status]) :=
        ⟨streaming.1.append _, streaming.2.append (by simp [Event.disturbs])⟩
      have rest := ih first running
      simpa using rest

/-! ## The state of the channel and the events -/

/-- The state of the channel says what the events permit. -/
structure Follows (chan : RxChannel ν) (log : List (Event ν)) : Prop where
  ordered : Ordered log
  configured : chan.state ≠ .noinit → Configured log
  started : chan.state = .ready → Started log

variable {chan : RxChannel ν}

theorem Follows.streaming (follows : Follows chan log) (ready : chan.state = .ready) :
    Streaming log := by
  refine ⟨follows.configured ?_, follows.started ready⟩
  rw [ready]
  decide

/-- A channel that is not ready may see any events but reads. -/
theorem Follows.append (follows : Follows chan log) {chan' : RxChannel ν}
    (noRead : ∀ status, Event.hwRead status ∉ events)
    (configured : chan'.state ≠ .noinit → chan.state ≠ .noinit) (idle : chan'.state ≠ .ready) :
    Follows chan' (log ++ events) where
  ordered := follows.ordered.append noRead
  configured := fun known => (follows.configured (configured known)).append _
  started := fun ready => absurd ready idle

/-- A start leaves the channel ready exactly when it succeeded. -/
theorem start_spec (ordered : Ordered log) (configured : Configured log)
    (idle : chan.state ≠ .ready) (answers : ReadAnswers) :
    let (chan', events, started) := chan.start answers
    Follows chan' (log ++ events) ∧ (started = true ↔ chan'.state = .ready) := by
  have noRead : ∀ status, Event.hwRead status ∉
      ([.channelStart answers.channelStart] : List (Event ν)) := by simp
  unfold RxChannel.start
  cases failed : answers.channelStart.isError with
  | true =>
      refine ⟨⟨ordered.append noRead, fun _ => configured.append _, ?_⟩, ?_⟩
      · exact fun ready => absurd ready idle
      · simpa using idle
  | false =>
      refine ⟨⟨ordered.append noRead, fun _ => configured.append _, fun _ => ?_⟩, ?_⟩
      · exact started_channelStart log failed
      · simp

/-- The switch on the state goes on to the read exactly when it leaves the channel ready. -/
theorem prepare_spec (follows : Follows chan log) (answers : ReadAnswers) :
    let (chan', events, prepared) := chan.prepare answers
    Follows chan' (log ++ events) ∧ (prepared = true ↔ chan'.state = .ready) := by
  unfold RxChannel.prepare
  cases state : chan.state with
  | error => simp [state, follows]
  | ready => simp [state, follows]
  | reset =>
      exact start_spec follows.ordered (follows.configured (by simp [state])) (by simp [state])
        answers
  | noinit =>
      have noRead : ∀ status, Event.hwRead status ∉
          ([.channelSet answers.channelSet] : List (Event ν)) := by simp
      cases failed : answers.channelSet.isError with
      | true =>
          refine ⟨follows.append noRead id ?_, ?_⟩
          · simp [state]
          · simp [state]
      | false =>
          have configured : Configured (log ++ [.channelSet answers.channelSet]) :=
            ⟨_, failed, by simp⟩
          have idle : chan.state ≠ .ready := by simp [state]
          have started := start_spec (follows.ordered.append noRead) configured idle answers
          simp only [List.append_assoc, List.singleton_append] at started
          exact started

/-- The switch on the mode makes reads only, and one that makes none fails or is served from the
buffer. -/
theorem readSamples_spec (chan : RxChannel ν) (nSamp : Nat) (answers : ReadAnswers) :
    ∃ statuses, (chan.readSamples nSamp answers).1 = statuses.map .hwRead ∧
      (statuses = [] →
        (chan.readSamples nSamp answers).2.1.isError = true ∨ chan.mode = .buffered) := by
  unfold RxChannel.readSamples
  split
  · exact ⟨[answers.hwRead.1], rfl, fun empty => by cases empty⟩
  · next buffered => exact ⟨answers.fill, rfl, fun _ => .inr buffered⟩
  · exact ⟨[], rfl, fun _ => .inl rfl⟩

/-- A read of a channel that is not made ready fails without touching the hardware, and one of a
ready channel leaves it ready. -/
theorem sdrrxRead_spec (follows : Follows chan log) (bytes : Nat) (answers : ReadAnswers) :
    let result := chan.sdrrxRead bytes answers
    Follows result.chan (log ++ result.events) ∧
      ((∀ status, Event.hwRead status ∉ result.events) →
        result.status.isError = true ∧ result.bytes = 0 ∨
          result.chan.mode = .buffered ∧ result.chan.state = .ready) := by
  have prepared := prepare_spec follows answers
  unfold RxChannel.sdrrxRead
  revert prepared
  rcases chan.prepare answers with ⟨chan', events, ready⟩
  rintro ⟨follows', ready_iff⟩
  cases ready with
  | false => exact ⟨follows', fun _ => .inl ⟨rfl, rfl⟩⟩
  | true =>
      have isReady := ready_iff.mp rfl
      obtain ⟨statuses, reads, unread⟩ :=
        readSamples_spec chan' (bytes / sampleBytes) answers
      obtain ⟨ordered, running⟩ :=
        follows'.ordered.append_reads (follows'.streaming isReady) statuses
      rw [List.append_assoc, ← reads] at ordered running
      refine ⟨⟨ordered, fun _ => running.1, fun _ => running.2⟩, fun absent => ?_⟩
      have noStatus : statuses = [] := by
        rw [List.eq_nil_iff_forall_not_mem]
        intro status member
        exact absent status (by simp [reads, member])
      rcases unread noStatus with failed | buffered
      · exact .inl ⟨failed, if_pos failed⟩
      · exact .inr ⟨buffered, isReady⟩

theorem sdrrxReset_spec (follows : Follows chan log) (answer : IoStatus) :
    let (chan', events, _) := chan.sdrrxReset answer
    Follows chan' (log ++ events) := by
  have resets : chan.state ≠ .noinit →
      Follows (chan.channelReset answer) (log ++ [.channelReset answer]) := by
    intro known
    refine follows.append (by simp) (fun _ => known) ?_
    unfold RxChannel.channelReset
    split <;> simp
  unfold RxChannel.sdrrxReset
  cases state : chan.state with
  | noinit => simpa using follows
  | reset => simpa using follows
  | ready => exact resets (by simp [state])
  | error => exact resets (by simp [state])

theorem setVar_state {chan' : RxChannel ν} {var : RtlVar} {val : ν}
    (stored : chan.setVar var val = some chan') : chan'.state = chan.state := by
  cases var with
  | other => cases stored
  | _ =>
      cases stored
      rfl

theorem rtlsdrSetVal_spec (follows : Follows chan log) (var : RtlVar) (val : ν)
    (configured : Bool) (started : IoStatus) :
    let (chan', events, _) := chan.rtlsdrSetVal var val configured started
    Follows chan' (log ++ events) := by
  unfold RxChannel.rtlsdrSetVal
  cases stored : chan.setVar var val with
  | none => simpa using follows
  | some chan' =>
      have same := setVar_state stored
      have follows' : Follows chan' log :=
        ⟨follows.ordered, same ▸ follows.configured, same ▸ follows.started⟩
      by_cases unset : chan'.state = .noinit
      · simpa [unset] using follows'
      · cases configured with
        | false =>
            simp only [unset, if_false, if_true]
            exact follows'.append (by simp) (fun _ => unset) (by simp)
        | true =>
            have noRead : ∀ status, Event.hwRead status ∉
                ([.configure var val true, .channelStart started] : List (Event ν)) := by simp
            simp only [unset, if_false, Bool.true_eq_false]
            cases failed : started.isError with
            | true => exact follows'.append noRead (fun _ => unset) (by simp)
            | false =>
                refine ⟨follows'.ordered.append noRead,
                  fun known => (follows'.configured known).append _, fun _ => ?_⟩
                have again := started_channelStart (log ++ [.configure var val true]) failed
                simpa using again

/-- Every call keeps the state of the channel true to the events. -/
theorem call_follows (follows : Follows chan log) (c : RxCall ν) :
    Follows (chan.call c).1 (log ++ (chan.call c).2) := by
  cases c with
  | read bytes answers => exact (sdrrxRead_spec follows bytes answers).1
  | reset answer => exact sdrrxReset_spec follows answer
  | setVal var val configured started =>
      exact rtlsdrSetVal_spec follows var val configured started
  | enableBuffering =>
      rw [RxChannel.call, List.append_nil]
      exact ⟨follows.ordered, follows.configured, follows.started⟩
  | disableBuffering =>
      rw [RxChannel.call, List.append_nil]
      exact ⟨follows.ordered, follows.configured, follows.started⟩

theorem calls_follow (follows : Follows chan log) (calls : List (RxCall ν)) :
    Follows (chan.calls calls).1 (log ++ (chan.calls calls).2) := by
  induction calls generalizing chan log with
  | nil => simpa [RxChannel.calls] using follows
  | cons c calls ih =>
      have first := ih (call_follows follows c)
      rwa [List.append_assoc] at first

/-- A channel as `sdr_create` leaves it, in any mode. -/
def newChannel (freq rate bandwidth ppm : ν) (mode : ChanMode) : RxChannel ν :=
  { freq, rate, bandwidth, ppm, mode }

theorem newChannel_follows (freq rate bandwidth ppm : ν) (mode : ChanMode) :
    Follows (newChannel freq rate bandwidth ppm mode) [] :=
  ⟨ordered_nil, fun known => absurd rfl known, fun ready => by cases ready⟩

/-- **The start-up protocol.** In every sequence of calls on a channel, with any answers of the
driver, the hardware is read only after a `channel_set` has succeeded, when the most recent
`channel_start` succeeded and no `channel_reset` and no failed configuration came after it. A read
that comes after the sequence and does not reach the hardware fails with no bytes, unless it is a
buffered read of a channel that is ready and whose stream runs. -/
theorem hw_read_only_when_started (freq rate bandwidth ppm : ν) (mode : ChanMode)
    (calls : List (RxCall ν)) (bytes : Nat) (answers : ReadAnswers) :
    let chan := newChannel freq rate bandwidth ppm mode
    let log := (chan.calls calls).2
    let result := (chan.calls calls).1.sdrrxRead bytes answers
    Ordered (log ++ result.events) ∧
      ((∀ status, Event.hwRead status ∉ result.events) →
        result.status.isError = true ∧ result.bytes = 0 ∨
          result.chan.mode = .buffered ∧ result.chan.state = .ready ∧
            Streaming (log ++ result.events)) := by
  intro chan log result
  have follows : Follows (chan.calls calls).1 log :=
    calls_follow (newChannel_follows freq rate bandwidth ppm mode) calls
  obtain ⟨after, unread⟩ := sdrrxRead_spec follows bytes answers
  refine ⟨after.ordered, fun absent => ?_⟩
  rcases unread absent with failed | ⟨buffered, ready⟩
  · exact .inl failed
  · exact .inr ⟨buffered, ready, after.streaming ready⟩

example : ((newChannel 0 0 0 0 .unbuffered : RxChannel Nat).sdrrxRead 16
    ⟨.success, .success, (.success, 2), [], (.success, 0)⟩).events =
      [.channelSet .success, .channelStart .success, .hwRead .success] := by
  decide

end Calls

end Bingewatch.Sdr
