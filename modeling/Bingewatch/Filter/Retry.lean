import Bingewatch.Filter.Call

/-!
# The rounds of a feedback loop

The controller of a feedback loop copies its caller's bytes into a buffer of its own and calls the
next filter with that, again and again as long as `IO_CONTINUE` comes back. The filters behind it
work in this buffer, on the count that they share, up to the metric; only when the metric answers
`IO_SUCCESS` are the filters behind it called.

`Loop` is one such loop, with any filters that work in place, any metric and anything behind it.
What happens in a write is kept in a log, and `feedback_retries` says what the log is: a number of
rounds that each begin with the caller's bytes and that the metric answers with `IO_CONTINUE`, one
more round, and the reset.
-/

set_option autoImplicit false

namespace Bingewatch.Filter

open Machine

variable {σ : Type}

/-! ## The two functions of `src/filter.c` -/

/-- `feedback_metric_fn`. -/
def feedbackMetricFn (metric next : NextCall σ) : NextCall σ := fun s a =>
  (metric s a).bind fun (s, answer) =>
    if answer.status = .success then next s { a with buf := answer.buf, bytes := answer.bytes }
    else some (s, answer)

/-- `struct fb_ctl_t`, without the reset function. -/
structure FbCtl where
  filterBuf : List UInt8 := []
  bytes : Nat := 0
  deriving DecidableEq, Repr

/-- `memcpy`, within two areas. -/
def memcpy (dst src : List UInt8) (n : Nat) : Option (List UInt8) :=
  if n ≤ dst.length ∧ n ≤ src.length then some (src.take n ++ dst.drop n) else none

/-- The loop of `feedback_controller_fn`, with the area at `fb->filter_buf`. Every round starts with
the caller's bytes and count. -/
def controllerLoop (next : NextCall σ) (a : FilterArgs) :
    (fuel : Nat) → σ → (area : List UInt8) → Option (σ × FilterAnswer)
  | 0, _, _ => none
  | fuel + 1, s, area => do
      let buf ← memcpy area a.buf a.bytes
      let (s, answer) ← next s { a with buf := buf }
      if answer.status = .cont then controllerLoop next a fuel s answer.buf
      else some (s, answer)

/-- The area at `fb->filter_buf`, once it has room for the caller's bytes. `fb->bytes` is read here,
but never written. -/
def FbCtl.area (fb : FbCtl) (bytes : Nat) : List UInt8 :=
  if fb.bytes < bytes then repalloc fb.filterBuf bytes else fb.filterBuf

/-- `feedback_controller_fn`. -/
def feedbackControllerFn (direction : Direction) (fuel : Nat) (reset : σ → σ) (next : NextCall σ)
    (fb : FbCtl) (s : σ) (a : FilterArgs) : Option (FbCtl × σ × FilterAnswer) :=
  if direction = .read then some (fb, s, { status := .error, buf := a.buf, bytes := 0 })
  else do
    let (s, answer) ← controllerLoop next a fuel s (fb.area a.bytes)
    let status := if answer.status = .brk then .success else answer.status
    some ({ fb with filterBuf := answer.buf }, reset s,
      { status := status, buf := a.buf, bytes := answer.bytes })

/-! ## A loop and what happens in it -/

/-- A filter that works in place and passes on the status of the next one: what it makes of its
buffer and count before it calls the next filter, and afterwards. -/
structure Processing (σ : Type) where
  before : σ → FilterArgs → σ × FilterArgs
  after : σ → FilterAnswer → σ × FilterAnswer
  before_area : ∀ s a, (before s a).2.buf.length = a.buf.length
  after_area : ∀ s answer, (after s answer).2.buf.length = answer.buf.length
  after_status : ∀ s answer, (after s answer).2.status = answer.status

/-- A feedback loop. The state is shared by all of the filters. -/
structure Loop (σ : Type) where
  processing : List (Processing σ)
  metric : σ → FilterArgs → σ × FilterAnswer
  metric_area : ∀ s a, (metric s a).2.buf.length = a.buf.length
  behind : σ → FilterArgs → σ × FilterAnswer
  behind_area : ∀ s a, (behind s a).2.buf.length = a.buf.length
  behind_status : ∀ s a, (behind s a).2.status ≠ .cont
  reset : σ → σ

/-- What is seen of a loop: a round begins with some bytes and a count, the metric or the filters
behind it answer, the metric is reset. -/
inductive RetryEvent where
  | round (data : List UInt8) (bytes : Nat)
  | metric (status : IoStatus)
  | behind (status : IoStatus)
  | reset
  deriving DecidableEq, Repr

/-- A total filter, with an event for its answer. -/
def noted (event : IoStatus → RetryEvent) (f : σ → FilterArgs → σ × FilterAnswer) :
    NextCall (σ × List RetryEvent) := fun (s, log) a =>
  some (((f s a).1, log ++ [event (f s a).2.status]), (f s a).2)

/-- A filter that works in place calls the next one. -/
def Processing.call (p : Processing σ) (next : NextCall (σ × List RetryEvent)) :
    NextCall (σ × List RetryEvent) := fun (s, log) a =>
  (next ((p.before s a).1, log) (p.before s a).2).map fun ((s, log), answer) =>
    (((p.after s answer).1, log), (p.after s answer).2)

namespace Loop

variable (L : Loop σ)

/-- The filters from the first one behind the controller on. -/
def chain : NextCall (σ × List RetryEvent) := fun (s, log) a =>
  L.processing.foldr Processing.call
    (feedbackMetricFn (noted .metric L.metric) (noted .behind L.behind))
    (s, log ++ [.round (a.buf.take a.bytes) a.bytes]) a

/-- A write through the loop. -/
def write (direction : Direction) (fuel : Nat) (fb : FbCtl) (s : σ) (a : FilterArgs) :
    Option (FbCtl × (σ × List RetryEvent) × FilterAnswer) :=
  feedbackControllerFn direction fuel (fun (s, log) => (L.reset s, log ++ [.reset])) L.chain fb
    (s, []) a

/-! ## One round -/

/-- The metric, and behind it the other filters when it answers `IO_SUCCESS`: the state, the last
answer and the status of the metric. -/
def consult (s : σ) (a : FilterArgs) : σ × FilterAnswer × IoStatus :=
  let (s, answer) := L.metric s a
  if answer.status = .success then
    let (s, answer') := L.behind s { a with buf := answer.buf, bytes := answer.bytes }
    (s, answer', .success)
  else (s, answer, answer.status)

/-- A round from some filter on. -/
def pass : List (Processing σ) → σ → FilterArgs → σ × FilterAnswer × IoStatus
  | [], s, a => L.consult s a
  | p :: ps, s, a =>
      let (s, answer, status) := pass ps (p.before s a).1 (p.before s a).2
      ((p.after s answer).1, (p.after s answer).2, status)

/-- The events of the metric and of the filters behind it. -/
def decided (status last : IoStatus) : List RetryEvent :=
  .metric status :: if status = .success then [.behind last] else []

theorem consult_eq (s : σ) (log : List RetryEvent) (a : FilterArgs) :
    feedbackMetricFn (noted .metric L.metric) (noted .behind L.behind) (s, log) a =
      some (((L.consult s a).1, log ++ decided (L.consult s a).2.2 (L.consult s a).2.1.status),
        (L.consult s a).2.1) := by
  simp only [feedbackMetricFn, noted, Option.bind_some, consult]
  split
  · next success => simp [decided, success]
  · next other => simp [decided, other]

theorem pass_eq (ps : List (Processing σ)) (s : σ) (log : List RetryEvent) (a : FilterArgs) :
    ps.foldr Processing.call
        (feedbackMetricFn (noted .metric L.metric) (noted .behind L.behind)) (s, log) a =
      some (((L.pass ps s a).1, log ++ decided (L.pass ps s a).2.2 (L.pass ps s a).2.1.status),
        (L.pass ps s a).2.1) := by
  induction ps generalizing s a with
  | nil => exact L.consult_eq s log a
  | cons p ps ih =>
      rw [List.foldr_cons, Processing.call, ih]
      simp only [Option.map_some, pass, p.after_status]

/-- A round stays within the area, and only the metric can ask for another one. -/
theorem pass_spec (ps : List (Processing σ)) (s : σ) (a : FilterArgs) :
    (L.pass ps s a).2.1.buf.length = a.buf.length ∧
      ((L.pass ps s a).2.2 ≠ .success → (L.pass ps s a).2.1.status = (L.pass ps s a).2.2) ∧
      ((L.pass ps s a).2.2 = .success → (L.pass ps s a).2.1.status ≠ .cont) := by
  induction ps generalizing s a with
  | nil =>
      simp only [pass, consult]
      split
      · refine ⟨?_, fun other => absurd rfl other, fun _ => L.behind_status _ _⟩
        rw [L.behind_area, L.metric_area]
      · next other => exact ⟨L.metric_area s a, fun _ => rfl, fun success => absurd success other⟩
  | cons p ps ih =>
      obtain ⟨area, passed, ended⟩ := ih (p.before s a).1 (p.before s a).2
      simp only [pass, p.after_status, p.after_area]
      exact ⟨area.trans (p.before_area s a), passed, ended⟩

/-! ## The rounds of a write -/

variable (a : FilterArgs)

/-- A round of a write, from the state and the area before it. -/
def round (x : σ × List UInt8) : σ × FilterAnswer × IoStatus :=
  L.pass L.processing x.1 { a with buf := a.buf.take a.bytes ++ x.2.drop a.bytes }

/-- The state and the area after some rounds. -/
def rounds : Nat → σ × List UInt8 → σ × List UInt8
  | 0, x => x
  | n + 1, x => rounds n ((L.round a x).1, (L.round a x).2.1.buf)

/-- The metric ends the rounds at some time. -/
def Ends (x : σ × List UInt8) : Prop := ∃ n, (L.round a (L.rounds a n x)).2.2 ≠ .cont

variable {a}

/-- The events of a write: `m` rounds that the metric asks to be repeated, and one that it does
not. -/
def roundLog (a : FilterArgs) (m : Nat) (status last : IoStatus) : List RetryEvent :=
  (List.replicate m [.round (a.buf.take a.bytes) a.bytes, .metric .cont]).flatten ++
    .round (a.buf.take a.bytes) a.bytes :: decided status last

theorem chain_eq (present : a.bytes ≤ a.buf.length) (s : σ) (log : List RetryEvent)
    (area : List UInt8) :
    L.chain (s, log) { a with buf := a.buf.take a.bytes ++ area.drop a.bytes } =
      some (((L.round a (s, area)).1,
        log ++ .round (a.buf.take a.bytes) a.bytes ::
          decided (L.round a (s, area)).2.2 (L.round a (s, area)).2.1.status),
        (L.round a (s, area)).2.1) := by
  have front : (a.buf.take a.bytes ++ area.drop a.bytes).take a.bytes = a.buf.take a.bytes :=
    List.take_left' (by rw [List.length_take]; omega)
  simp only [chain, front, pass_eq, List.append_assoc, List.singleton_append]
  rfl

/-- The loop takes one round at a time. -/
theorem controllerLoop_round (present : a.bytes ≤ a.buf.length) (fuel : Nat) (s : σ)
    (log : List RetryEvent) {area : List UInt8} (room : a.bytes ≤ area.length) :
    controllerLoop L.chain a (fuel + 1) (s, log) area =
      let (s', answer, status) := L.round a (s, area)
      let log' := log ++ .round (a.buf.take a.bytes) a.bytes :: decided status answer.status
      if answer.status = .cont then controllerLoop L.chain a fuel (s', log') answer.buf
      else some ((s', log'), answer) := by
  rw [controllerLoop, memcpy, if_pos ⟨room, present⟩]
  simp only [Option.bind_eq_bind, Option.bind_some, L.chain_eq present]

theorem round_area (present : a.bytes ≤ a.buf.length) (s : σ) {area : List UInt8}
    (room : a.bytes ≤ area.length) : (L.round a (s, area)).2.1.buf.length = area.length := by
  rw [round, (L.pass_spec ..).1]
  show (a.buf.take a.bytes ++ area.drop a.bytes).length = area.length
  rw [List.length_append, List.length_take, List.length_drop]
  omega

/-- A round answers with the status of the metric, unless that is a success; and it asks for another
one only when the metric does. -/
theorem round_status (a : FilterArgs) (x : σ × List UInt8) :
    ((L.round a x).2.2 ≠ .success → (L.round a x).2.1.status = (L.round a x).2.2) ∧
      ((L.round a x).2.2 ≠ .cont → (L.round a x).2.1.status ≠ .cont) := by
  obtain ⟨-, passed, ended⟩ := L.pass_spec L.processing x.1
    { a with buf := a.buf.take a.bytes ++ x.2.drop a.bytes }
  refine ⟨passed, fun stops => ?_⟩
  by_cases success : (L.round a x).2.2 = .success
  · exact ended success
  · intro same
    exact stops ((passed success).symm.trans same)

/-- A round that is the last one. -/
theorem controllerLoop_stops (present : a.bytes ≤ a.buf.length) (s : σ) (log : List RetryEvent)
    {area : List UInt8} (room : a.bytes ≤ area.length)
    (ends : (L.round a (s, area)).2.2 ≠ .cont) :
    controllerLoop L.chain a 1 (s, log) area =
      some (((L.round a (s, area)).1, log ++ roundLog a 0 (L.round a (s, area)).2.2
        (L.round a (s, area)).2.1.status), (L.round a (s, area)).2.1) := by
  rw [L.controllerLoop_round present 0 s log room]
  simp only [if_neg ((L.round_status a (s, area)).2 ends)]
  rfl

/-- **The rounds end** when the metric ends them. -/
theorem controllerLoop_ends (present : a.bytes ≤ a.buf.length) (n : Nat) (s : σ)
    (log : List RetryEvent) {area : List UInt8} (room : a.bytes ≤ area.length)
    (ends : (L.round a (L.rounds a n (s, area))).2.2 ≠ .cont) :
    ∃ fuel m s' status answer,
      controllerLoop L.chain a fuel (s, log) area =
        some ((s', log ++ roundLog a m status answer.status), answer) ∧
      status ≠ .cont ∧ (status ≠ .success → answer.status = status) ∧
      answer.buf.length = area.length := by
  induction n generalizing s log area with
  | zero =>
      exact ⟨1, 0, _, _, _, L.controllerLoop_stops present s log room ends, ends,
        (L.round_status a (s, area)).1, L.round_area present s room⟩
  | succ n ih =>
      obtain ⟨passed, -⟩ := L.round_status a (s, area)
      have sameArea := L.round_area present s room
      by_cases again : (L.round a (s, area)).2.2 = .cont
      · -- The metric asks for another round, so that there is one round less to go.
        have status : (L.round a (s, area)).2.1.status = .cont := by
          refine (passed ?_).trans again
          rw [again]
          decide
        obtain ⟨fuel, m, s', last, answer, looped, final⟩ :=
          ih (L.round a (s, area)).1
            (log ++ [.round (a.buf.take a.bytes) a.bytes, .metric .cont]) (by omega) ends
        refine ⟨fuel + 1, m + 1, s', last, answer, ?_, final.1, final.2.1,
          final.2.2.trans sameArea⟩
        rw [L.controllerLoop_round present fuel s log room]
        simp only [status, if_true, again]
        have events : decided .cont .cont = [.metric .cont] := rfl
        rw [events, looped, List.append_assoc]
        rfl
      · exact ⟨1, 0, _, _, _, L.controllerLoop_stops present s log room again, again, passed,
          sameArea⟩

end Loop

/-- The area has room for the caller's bytes. -/
theorem FbCtl.length_area {fb : FbCtl} (room : fb.bytes ≤ fb.filterBuf.length) (n : Nat) :
    n ≤ (fb.area n).length ∧ fb.bytes ≤ (fb.area n).length := by
  unfold FbCtl.area
  split
  · rw [length_repalloc]
    omega
  · omega

/-- **A feedback loop retries from the caller's data and delivers at most once.** Every round begins
with the caller's bytes and length. All rounds but the last are answered by the metric with
`IO_CONTINUE`; the filters behind it are called in the last one, and there exactly when the metric
answers `IO_SUCCESS`. The reset comes once, at the end. The caller's buffer is as it was, and the
status is that of the last round, with `IO_SUCCESS` in place of `IO_BREAK`. -/
theorem feedback_retries (L : Loop σ) {direction : Direction} (isWrite : direction ≠ .read)
    {fb : FbCtl} (room : fb.bytes ≤ fb.filterBuf.length) (s : σ) {a : FilterArgs}
    (present : a.bytes ≤ a.buf.length) (ends : L.Ends a (s, fb.area a.bytes)) :
    ∃ fuel m fb' s' status last answer,
      L.write direction fuel fb s a =
        some (fb', (s', Loop.roundLog a m status last ++ [.reset]), answer) ∧
      status ≠ .cont ∧ (status ≠ .success → last = status) ∧ answer.buf = a.buf ∧
      answer.status = (if last = .brk then .success else last) ∧
      fb'.bytes ≤ fb'.filterBuf.length := by
  obtain ⟨n, ends⟩ := ends
  obtain ⟨enough, still⟩ := FbCtl.length_area room a.bytes
  obtain ⟨fuel, m, s', status, answer, looped, stops, passed, area⟩ :=
    L.controllerLoop_ends present n s [] enough ends
  have written : L.write direction fuel fb s a =
      some ({ fb with filterBuf := answer.buf },
        (L.reset s', Loop.roundLog a m status answer.status ++ [.reset]),
        { status := if answer.status = .brk then .success else answer.status
          buf := a.buf
          bytes := answer.bytes }) := by
    simp only [Loop.write, feedbackControllerFn, if_neg isWrite, looped, Option.bind_eq_bind,
      Option.bind_some, List.nil_append]
  refine ⟨fuel, m, _, _, status, answer.status, _, written, stops, passed, rfl, rfl, ?_⟩
  rw [area]
  exact still

/-- A filter that adds one to every byte of its buffer and passes on one byte less. -/
def incrementing : Processing Nat where
  before := fun s a => (s, { a with buf := a.buf.map (· + 1), bytes := a.bytes - 1 })
  after := fun s answer => (s, answer)
  before_area := fun _ _ => List.length_map ..
  after_area := fun _ _ => rfl
  after_status := fun _ _ => rfl

/-- A metric that asks for two more rounds, and filters behind it that answer with a status. -/
def twiceMore (last : IoStatus) (goesOn : last ≠ .cont) : Loop Nat where
  processing := [incrementing]
  metric := fun s a =>
    (s + 1, { status := if s < 2 then .cont else .success, buf := a.buf, bytes := a.bytes })
  metric_area := fun _ _ => rfl
  behind := fun s a => (s, { status := last, buf := a.buf, bytes := a.bytes })
  behind_area := fun _ _ => rfl
  behind_status := fun _ _ => goesOn
  reset := fun _ => 0

/-- A write of two bytes through it. -/
theorem feedback_retries_twice :
    ∃ fuel m fb' s' status last answer,
      (twiceMore .complete (by decide)).write .bidirectional fuel {} 0
          { buf := [5, 6], bytes := 2 } =
        some (fb', (s', Loop.roundLog { buf := [5, 6], bytes := 2 } m status last ++ [.reset]),
          answer) ∧
      status ≠ .cont ∧ (status ≠ .success → last = status) ∧ answer.buf = [5, 6] ∧
      answer.status = (if last = .brk then .success else last) ∧
      fb'.bytes ≤ fb'.filterBuf.length :=
  feedback_retries (twiceMore .complete (by decide)) (by decide) (Nat.le_refl 0) 0 (by decide)
    ⟨2, by decide⟩

/-- The metric ends with `IO_SUCCESS` and the filters behind it answer `IO_BREAK`: the caller gets
`IO_SUCCESS`, not the last status. -/
theorem break_from_behind :
    ∃ fb' s' answer,
      (twiceMore .brk (by decide)).write .bidirectional 3 {} 0 { buf := [5, 6], bytes := 2 } =
        some (fb', (s', Loop.roundLog { buf := [5, 6], bytes := 2 } 2 .success .brk ++ [.reset]),
          answer) ∧
      answer.status ≠ (if IoStatus.success = .brk then .success else .brk) :=
  ⟨_, _, _, rfl, by decide⟩

end Bingewatch.Filter
