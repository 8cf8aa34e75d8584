import Mathlib.Data.List.Basic
import Bingewatch.Machine.Descriptor

/-!
# Read filters

A read of a machine runs through a stack of filters (`src/filter/filters.c`) before it comes to the
machine's own read function. The number of bytes is one argument that is read and written: the
caller sets it to the length of its buffer, and whoever answers the read is to set it to the number
of bytes stored there.

Some returns leave it alone. A time limiter that has run out answers for itself, and so does a byte
count limiter without a direction; the caller then finds its own buffer length. `forgetful` says,
from the filters as the read meets them, whether that is going to happen, and
`callFilters_honest` that the report can be trusted otherwise. The machine at the bottom of the
stack is a parameter.
-/

set_option autoImplicit false

namespace Bingewatch.Filter

open Machine

/-! ## Filters -/

/-- `IO_MAX_NAME_LEN`, the size of the field `name`. -/
def ioMaxNameLen : Nat := 64

/-- `enum io_filter_direction`. -/
inductive Direction where
  | bidirectional
  | read
  | write
  deriving DecidableEq, Repr

/-- `enum time_limit_state_e`. -/
inductive TimeLimit where
  | noinit
  | running
  | done
  deriving DecidableEq, Repr

/-- `struct generic_counter_t` as `byte_count_limiter` uses it: it never counts past its limit. -/
structure ByteLimit where
  total : UInt64 := 0
  limit : UInt64
  within : total ≤ limit
  deriving DecidableEq, Repr

/-- `struct generic_counter_t` as `byte_counter` uses it. -/
structure ByteCount where
  total : UInt64 := 0
  limit : UInt64
  period : UInt64
  deriving DecidableEq, Repr

/-- The function of a filter, with its object. -/
inductive FilterFn where
  | byteCountLimiter (limit : ByteLimit)
  | timeLimiter (state : TimeLimit)
  | byteCounter (counter : Option ByteCount)
  deriving DecidableEq, Repr

/-- `struct io_filter_t`, as `create_filter` leaves it. -/
structure ReadFilter where
  enabled : Bool := true
  direction : Direction := .bidirectional
  fn : FilterFn
  deriving DecidableEq, Repr

/-- `create_byte_count_limit_filter`. -/
def createByteCountLimitFilter (byteLimit : UInt64) : ReadFilter where
  fn := .byteCountLimiter { limit := byteLimit, within := UInt64.zero_le }

/-- `create_time_limit_filter`. -/
def createTimeLimitFilter : ReadFilter where
  fn := .timeLimiter .noinit

/-- `create_byte_counter_filter`. -/
def createByteCounterFilter (bytesPerSample : UInt64) : ReadFilter where
  fn := .byteCounter (some { limit := bytesPerSample, period := bytesPerSample })

/-- The loop of `add_read_filter` behind the first filter of a chain: every filter that has a next
one gets the direction, so the last one keeps its own. -/
def markRead : List ReadFilter → List ReadFilter
  | [] => []
  | [f] => [f]
  | f :: g :: rest => { f with direction := .read } :: markRead (g :: rest)

/-- `add_read_filter`: put a chain of filters on top of the stack. -/
def addReadFilter (addme : ReadFilter) (others stack : List ReadFilter) : List ReadFilter :=
  { addme with direction := .read } :: markRead others ++ stack

/-! ## A read -/

/-- What a read leaves with its caller: its status, the byte count and the bytes stored at the front
of the buffer. -/
structure Report where
  status : IoStatus
  bytes : Nat
  stored : List UInt8
  deriving DecidableEq, Repr

/-- Count bytes towards the limit, as many as are left of it. -/
def ByteLimit.take (l : ByteLimit) (bytes : Nat) : ByteLimit × Nat :=
  if fits : l.total + UInt64.ofNat bytes ≤ l.limit then
    ({ l with total := l.total + UInt64.ofNat bytes, within := fits }, bytes)
  else
    ({ l with
        total := l.total + (l.limit - l.total)
        within := by rw [UInt64.add_comm, UInt64.sub_add_cancel]; exact UInt64.le_refl _ },
      (l.limit - l.total).toNat)

/-- The status at the end of `byte_count_limiter`. -/
def ByteLimit.status (l : ByteLimit) : IoStatus :=
  if l.total ≥ l.limit then .complete else .success

variable {σ : Type}

/-- `byte_count_limiter`. `next` calls the next filter and `s` is the stack below, for the case that
it is not called: only a filter with a direction calls it. -/
def byteCountLimiter (direction : Direction) (l : ByteLimit) (next : Nat → Option (σ × Report))
    (s : σ) (bytes : Nat) : Option (ByteLimit × σ × Report) :=
  match direction with
  | .read =>
      (next bytes).map fun (s, report) =>
        if report.status ≠ .success then (l, s, report)
        else
          let l := (l.take report.bytes).1
          (l, s, { report with status := l.status })
  | .bidirectional =>
      let l := (l.take bytes).1
      some (l, s, { status := l.status, bytes := bytes, stored := [] })
  | .write =>
      let (l, bytes) := l.take bytes
      (next bytes).map fun (s, report) =>
        if report.status ≠ .success then (l, s, report)
        else (l, s, { report with status := l.status })

/-- `time_limiter`. -/
def timeLimiter (state : TimeLimit) (next : Nat → Option (σ × Report)) (s : σ) (bytes : Nat) :
    Option (TimeLimit × σ × Report) :=
  match state with
  | .noinit => (next bytes).map fun (s, report) => (.running, s, report)
  | .running => (next bytes).map fun (s, report) => (.running, s, report)
  | .done => some (.done, s, { status := .complete, bytes := bytes, stored := [] })

/-- Count bytes, and start the next period when one is full. -/
def ByteCount.add (c : ByteCount) (bytes : Nat) : ByteCount :=
  let c := { c with total := c.total + UInt64.ofNat bytes }
  if c.total ≥ c.limit then { c with limit := c.limit + c.period } else c

/-- `byte_counter`. -/
def byteCounter (counter : Option ByteCount) (next : Nat → Option (σ × Report)) (bytes : Nat) :
    Option (Option ByteCount × σ × Report) :=
  (next bytes).map fun (s, report) => (counter.map fun c => c.add report.bytes, s, report)

/-- The call of a filter. One that is not enabled only calls the next. -/
def ReadFilter.call (f : ReadFilter) (next : Nat → Option (σ × Report)) (s : σ) (bytes : Nat) :
    Option (ReadFilter × σ × Report) :=
  if f.enabled = false then (next bytes).map fun (s, report) => (f, s, report)
  else
    match f.fn with
    | .byteCountLimiter l =>
        (byteCountLimiter f.direction l next s bytes).map fun (l, s, report) =>
          ({ f with fn := .byteCountLimiter l }, s, report)
    | .timeLimiter state =>
        (timeLimiter state next s bytes).map fun (state, s, report) =>
          ({ f with fn := .timeLimiter state }, s, report)
    | .byteCounter counter =>
        (byteCounter counter next bytes).map fun (counter, s, report) =>
          ({ f with fn := .byteCounter counter }, s, report)

/-- A read through a stack of filters, the first one on top, down to the machine's own function. -/
def callFilters (machine : σ → Nat → Option (σ × Report)) :
    List ReadFilter → σ → Nat → Option ((List ReadFilter × σ) × Report)
  | [], s, bytes => (machine s bytes).map fun (s, report) => (([], s), report)
  | f :: rest, s, bytes =>
      (f.call (callFilters machine rest s) (rest, s) bytes).map fun (f, (rest, s), report) =>
        ((f :: rest, s), report)

/-! ## Reports that can be trusted -/

/-- The filter answers a read for itself, without setting the byte count; or it calls the next one,
which does. -/
def ReadFilter.forgets (f : ReadFilter) (next : Nat → Bool) (bytes : Nat) : Bool :=
  if f.enabled = false then next bytes
  else
    match f.fn, f.direction with
    | .byteCountLimiter _, .bidirectional => decide (0 < bytes)
    | .byteCountLimiter l, .write => next (l.take bytes).2
    | .timeLimiter .done, _ => decide (0 < bytes)
    | _, _ => next bytes

/-- A read that comes to the stack is answered without the byte count being set. -/
def forgetful (machine : σ → Nat → Bool) : List ReadFilter → σ → Nat → Bool
  | [], s, bytes => machine s bytes
  | f :: rest, s, bytes => f.forgets (forgetful machine rest s) bytes

/-- The report of a read into a buffer of the given length. When the count is forgotten nothing was
stored, there is no error and the count is positive; otherwise it is the number of bytes stored,
unless there is an error. Neither is more than the buffer has room for. -/
structure Report.Honest (report : Report) (bytes : Nat) (forgot : Bool) : Prop where
  fits : report.stored.length ≤ bytes
  counted : forgot = false → report.status.isError = false → report.bytes = report.stored.length
  stale : forgot = true →
    report.status.isError = false ∧ 0 < report.bytes ∧ report.bytes ≤ bytes ∧ report.stored = []

/-- A report whose count was set. -/
theorem Report.honest_of_counted {report : Report} {bytes : Nat}
    (fits : report.stored.length ≤ bytes)
    (counted : report.status.isError = false → report.bytes = report.stored.length) :
    report.Honest bytes false where
  fits := fits
  counted := fun _ => counted
  stale := fun forgotten => by cases forgotten

theorem Report.Honest.mono {report : Report} {bytes bytes' : Nat} {forgot : Bool}
    (honest : report.Honest bytes forgot) (more : bytes ≤ bytes') :
    report.Honest bytes' forgot where
  fits := Nat.le_trans honest.fits more
  counted := honest.counted
  stale := by
    intro forgotten
    obtain ⟨calm, positive, short, nothing⟩ := honest.stale forgotten
    exact ⟨calm, positive, Nat.le_trans short more, nothing⟩

/-- Any status may stand in the place of success, except an error. -/
theorem Report.Honest.restate {report : Report} {bytes : Nat} {forgot : Bool} {status : IoStatus}
    (honest : report.Honest bytes forgot) (succeeded : report.status = .success)
    (calm : status.isError = false) :
    ({ report with status := status } : Report).Honest bytes forgot where
  fits := honest.fits
  counted := fun remembered _ => honest.counted remembered (by rw [succeeded]; rfl)
  stale := fun forgotten => ⟨calm, (honest.stale forgotten).2⟩

/-- An answer without a byte count. -/
theorem honest_unset {status : IoStatus} (bytes : Nat) (calm : status.isError = false) :
    ({ status := status, bytes := bytes, stored := [] } : Report).Honest bytes
      (decide (0 < bytes)) where
  fits := Nat.zero_le _
  counted := by
    intro empty _
    simpa using empty
  stale := by
    intro positive
    exact ⟨calm, by simpa using positive, Nat.le_refl _, rfl⟩

theorem ByteLimit.status_calm (l : ByteLimit) : l.status.isError = false := by
  unfold ByteLimit.status
  split <;> rfl

/-- What is left of the limit is no more than what was asked for. -/
theorem ByteLimit.take_le (l : ByteLimit) (bytes : Nat) : (l.take bytes).2 ≤ bytes := by
  unfold ByteLimit.take
  split
  · exact Nat.le_refl _
  · next exceeds =>
      have within := UInt64.le_iff_toNat_le.mp l.within
      have left := UInt64.toNat_sub_of_le _ _ l.within
      rw [UInt64.le_iff_toNat_le, UInt64.toNat_add, UInt64.toNat_ofNat'] at exceeds
      have below := l.limit.toNat_lt
      omega

variable {machine : σ → Nat → Option (σ × Report)} {forgets : σ → Nat → Bool}

/-- What a next filter has to keep to. -/
def HonestCalls (next : Nat → Option (σ × Report)) (forgets : Nat → Bool) : Prop :=
  ∀ bytes s report, next bytes = some (s, report) → report.Honest bytes (forgets bytes)

theorem byteCountLimiter_honest {direction : Direction} {l l' : ByteLimit}
    {next : Nat → Option (σ × Report)} {forgets : Nat → Bool} {s s' : σ} {bytes : Nat}
    {report : Report} (honest : HonestCalls next forgets)
    (called : byteCountLimiter direction l next s bytes = some (l', s', report)) :
    report.Honest bytes
      (({ direction := direction, fn := .byteCountLimiter l } : ReadFilter).forgets forgets
        bytes) := by
  cases direction with
  | read =>
      simp only [byteCountLimiter, Option.map_eq_some_iff] at called
      obtain ⟨⟨below, inner⟩, answered, result⟩ := called
      have trusted : inner.Honest bytes (forgets bytes) := honest _ _ _ answered
      split_ifs at result with failed
      · obtain ⟨-, -, rfl⟩ : l = l' ∧ below = s' ∧ inner = report := by simpa using result
        exact trusted
      · obtain ⟨rfl, -, rfl⟩ := by simpa only [Prod.mk.injEq] using result
        exact trusted.restate (by simpa using failed) (ByteLimit.status_calm _)
  | bidirectional =>
      simp only [byteCountLimiter, Option.some.injEq, Prod.mk.injEq] at called
      obtain ⟨rfl, -, rfl⟩ := called
      exact honest_unset bytes (ByteLimit.status_calm _)
  | write =>
      simp only [byteCountLimiter, Option.map_eq_some_iff] at called
      obtain ⟨⟨below, inner⟩, answered, result⟩ := called
      have trusted : inner.Honest bytes (forgets (l.take bytes).2) :=
        (honest _ _ _ answered).mono (l.take_le bytes)
      split_ifs at result with failed
      · obtain ⟨-, -, rfl⟩ := by simpa only [Prod.mk.injEq] using result
        exact trusted
      · obtain ⟨-, -, rfl⟩ := by simpa only [Prod.mk.injEq] using result
        exact trusted.restate (by simpa using failed) (ByteLimit.status_calm _)

/-- One filter keeps the report trustworthy. -/
theorem ReadFilter.call_honest {f f' : ReadFilter} {next : Nat → Option (σ × Report)}
    {forgets : Nat → Bool} {s s' : σ} {bytes : Nat} {report : Report}
    (honest : HonestCalls next forgets) (called : f.call next s bytes = some (f', s', report)) :
    report.Honest bytes (f.forgets forgets bytes) := by
  unfold ReadFilter.call at called
  split_ifs at called with disabled
  · simp only [Option.map_eq_some_iff] at called
    obtain ⟨⟨below, inner⟩, answered, result⟩ := called
    obtain ⟨-, -, rfl⟩ := by simpa only [Prod.mk.injEq] using result
    rw [ReadFilter.forgets, if_pos disabled]
    exact honest _ _ _ answered
  · obtain ⟨enabled, direction, fn⟩ := f
    obtain rfl : enabled = true := by simpa using disabled
    cases fn with
    | byteCountLimiter l =>
        simp only [Option.map_eq_some_iff] at called
        obtain ⟨⟨l', below, inner⟩, answered, result⟩ := called
        obtain ⟨-, -, rfl⟩ := by simpa only [Prod.mk.injEq] using result
        exact byteCountLimiter_honest honest answered
    | timeLimiter state =>
        simp only [Option.map_eq_some_iff] at called
        obtain ⟨⟨state', below, inner⟩, answered, result⟩ := called
        obtain ⟨-, -, rfl⟩ := by simpa only [Prod.mk.injEq] using result
        cases state with
        | done =>
            simp only [timeLimiter, Option.some.injEq, Prod.mk.injEq] at answered
            obtain ⟨-, -, rfl⟩ := answered
            exact honest_unset bytes rfl
        | noinit | running =>
            simp only [timeLimiter, Option.map_eq_some_iff, Prod.mk.injEq] at answered
            obtain ⟨⟨below, inner⟩, answered, -, -, rfl⟩ := answered
            exact honest _ _ _ answered
    | byteCounter counter =>
        simp only [byteCounter, Option.map_eq_some_iff, Prod.mk.injEq] at called
        obtain ⟨-, ⟨⟨below, inner⟩, answered, rfl⟩, -, -, rfl⟩ := called
        exact honest _ _ _ answered

/-- **A stack of filters over a machine that reports what it stores does so too, unless the count is
forgotten on the way.** -/
theorem callFilters_honest {s : σ} (honest : HonestCalls (machine s) (forgets s))
    (filters : List ReadFilter) :
    HonestCalls (callFilters machine filters s) (forgetful forgets filters s) := by
  induction filters with
  | nil =>
      intro bytes s' report called
      simp only [callFilters, Option.map_eq_some_iff, Prod.mk.injEq] at called
      obtain ⟨⟨below, inner⟩, answered, -, rfl⟩ := called
      exact honest _ _ _ answered
  | cons f rest ih =>
      intro bytes s' report called
      simp only [callFilters, Option.map_eq_some_iff, Prod.mk.injEq] at called
      obtain ⟨⟨f', ⟨rest', below⟩, inner⟩, answered, -, rfl⟩ := called
      exact ReadFilter.call_honest ih answered

/-- Below a filter, only the call of the next one changes anything. -/
theorem ReadFilter.call_below {f f' : ReadFilter} {next : Nat → Option (σ × Report)} {s s' : σ}
    {bytes : Nat} {report : Report} (called : f.call next s bytes = some (f', s', report)) :
    s' = s ∨ ∃ bytes' report', next bytes' = some (s', report') := by
  unfold ReadFilter.call at called
  split_ifs at called with disabled
  · simp only [Option.map_eq_some_iff, Prod.mk.injEq] at called
    obtain ⟨⟨below, inner⟩, answered, -, rfl, -⟩ := called
    exact .inr ⟨_, _, answered⟩
  · cases fn : f.fn with
    | byteCountLimiter l =>
        simp only [fn, Option.map_eq_some_iff, Prod.mk.injEq] at called
        obtain ⟨⟨l', below, inner⟩, limited, -, rfl, -⟩ := called
        cases direction : f.direction with
        | bidirectional =>
            simp only [direction, byteCountLimiter, Option.some.injEq, Prod.mk.injEq] at limited
            exact .inl limited.2.1.symm
        | read | write =>
            simp only [direction, byteCountLimiter, Option.map_eq_some_iff] at limited
            obtain ⟨⟨lower, lowest⟩, answered, result⟩ := limited
            obtain rfl : lower = below := by
              split_ifs at result
              · exact (Prod.mk.inj (Prod.mk.inj result).2).1
              · exact (Prod.mk.inj (Prod.mk.inj result).2).1
            exact .inr ⟨_, _, answered⟩
    | timeLimiter state =>
        simp only [fn, Option.map_eq_some_iff, Prod.mk.injEq] at called
        obtain ⟨⟨state', below, inner⟩, answered, -, rfl, -⟩ := called
        cases state with
        | done =>
            simp only [timeLimiter, Option.some.injEq, Prod.mk.injEq] at answered
            exact .inl answered.2.1.symm
        | noinit | running =>
            simp only [timeLimiter, Option.map_eq_some_iff, Prod.mk.injEq] at answered
            obtain ⟨⟨lower, lowest⟩, answered, -, rfl, -⟩ := answered
            exact .inr ⟨_, _, answered⟩
    | byteCounter counter =>
        simp only [fn, byteCounter, Option.map_eq_some_iff, Prod.mk.injEq] at called
        obtain ⟨-, ⟨⟨below, inner⟩, answered, rfl⟩, -, rfl, -⟩ := called
        exact .inr ⟨_, _, answered⟩

/-- The machine at the bottom keeps its own properties through the filters. -/
theorem callFilters_machine {I : σ → Prop}
    (kept : ∀ s bytes s' report, I s → machine s bytes = some (s', report) → I s') {s : σ}
    (before : I s) {filters : List ReadFilter} {bytes : Nat} {below : List ReadFilter × σ}
    {report : Report} (called : callFilters machine filters s bytes = some (below, report)) :
    I below.2 := by
  induction filters generalizing bytes below report with
  | nil =>
      simp only [callFilters, Option.map_eq_some_iff, Prod.mk.injEq] at called
      obtain ⟨⟨s', inner⟩, answered, rfl, -⟩ := called
      exact kept _ _ _ _ before answered
  | cons f rest ih =>
      simp only [callFilters, Option.map_eq_some_iff, Prod.mk.injEq] at called
      obtain ⟨⟨f', below, inner⟩, answered, rfl, -⟩ := called
      rcases ReadFilter.call_below answered with rfl | ⟨bytes', report', lower⟩
      · exact before
      · have held : I below.2 := ih lower
        exact held

end Bingewatch.Filter
