import Bingewatch.Foundation.Sections
import Mathlib.Algebra.Ring.Nat

/-!
# What the machine metrics count

`machine_desc_read` and `machine_desc_write` report every call of the filters to the metrics of
their side: how many bytes were asked for and how many came (`src/machine.c`). The counters are
first collected, and `machine_metrics_update` adds them to the totals, when a timer has raised the
update flag, a side is disabled, a call completes, or somebody wants a report
(`src/machine-metrics.c`). The threads that call one side do so at any time; a lock guards the
counters, but not the function pointer `fn`, which is the first call's until it has run, and not the
flags.

`metrics_account` says that no interleaving loses or doubles a call, in the counters or the totals,
and what a report of the totals or of the last stretch covers. `machine_metrics_fmt` ends with the
release of a lock that it does not hold. The theorem is about the runs in which nobody is in a
section then; `unheld_unlock_loses` is a run in which somebody is.
-/

set_option autoImplicit false

namespace Bingewatch.Machine

open Foundation

/-! ## Counters -/

/-- `struct io_metrics_count_t`. -/
structure MetricsCount where
  count : Nat := 0
  bytes : Nat := 0
  totalCount : Nat := 0
  totalBytes : Nat := 0
  deriving DecidableEq, Repr

namespace MetricsCount

/-- Count a call. -/
def add (c : MetricsCount) (bytes : Nat) : MetricsCount :=
  { c with count := (c.count + 1) % 2 ^ 64, bytes := (c.bytes + bytes) % 2 ^ 64 }

/-- Update the totals and clear the counters. -/
def settle (c : MetricsCount) : MetricsCount where
  count := 0
  bytes := 0
  totalCount := (c.totalCount + c.count) % 2 ^ 64
  totalBytes := (c.totalBytes + c.bytes) % 2 ^ 64

end MetricsCount

/-- A double, kept as the two numbers that it is the quotient of. -/
structure Ratio where
  above : Nat
  below : Int
  deriving DecidableEq, Repr

/-- `struct io_metrics_calc_t`, without `fill_level`, which nothing writes or reads. Times are in
microseconds. A rate is over `elapsed`, so it is per microsecond here. `totalBytes` is absent where
the memory was never written. -/
structure MetricsCalc where
  time : Nat
  elapsed : Int
  totalBytes : Option Nat
  dataRate : Ratio
  reqRate : Ratio
  avgReqSize : Ratio
  avgRecSize : Ratio
  utilization : Ratio
  deriving DecidableEq, Repr

/-- What `machine_metrics_fmt` starts with. -/
def MetricsCalc.zero : MetricsCalc where
  time := 0
  elapsed := 0
  totalBytes := some 0
  dataRate := ⟨0, 1⟩
  reqRate := ⟨0, 1⟩
  avgReqSize := ⟨0, 1⟩
  avgRecSize := ⟨0, 1⟩
  utilization := ⟨0, 1⟩

/-- The functions that `fn` points to. -/
inductive MetricsFn where
  | machineMetricsInit
  | machineMetricsUpdateFn
  deriving DecidableEq, Repr

/-- What the lock of an `IO_METRICS` guards. `recv` is the field `rec`, and `calcs` the array
`calc` of `calc_len` entries, of which those that were never written are absent. -/
structure MetricsData where
  fn : MetricsFn := .machineMetricsInit
  req : MetricsCount := {}
  recv : MetricsCount := {}
  tStart : Nat := 0
  tPrev : Nat := 0
  tCur : Nat := 0
  tStop : Nat := 0
  calcs : List (Option MetricsCalc) := []
  nCalc : Nat := 0
  deriving DecidableEq, Repr

/-- What a call reports. -/
structure MeteredCall where
  reqBytes : Nat
  recBytes : Nat
  deriving DecidableEq, Repr

namespace MetricsData

variable (seen : MetricsData)

/-! Each section writes into the data what it makes of the data as it has seen them. -/

/-- The section of `machine_metrics_init`, at a time. -/
def machineMetricsInit (now : Nat) (d : MetricsData) : MetricsData :=
  { d with tCur := now, tStart := now, fn := .machineMetricsUpdateFn }

/-- The section of `machine_metrics_update_fn`. -/
def machineMetricsUpdateFn (c : MeteredCall) (now : Nat) (d : MetricsData) : MetricsData :=
  { d with
    req := seen.req.add c.reqBytes
    recv := if 0 < c.recBytes then seen.recv.add c.recBytes else d.recv
    tPrev := seen.tCur
    tCur := now
    tStop := now }

/-- The entry that `machine_metrics_update` writes. It leaves the entry's `total_bytes` alone, and
its data rate is that of the totals before the update. -/
def measure (old : Option MetricsCalc) : MetricsCalc :=
  let elapsed := (seen.tCur : Int) - seen.tPrev
  { time := seen.tCur
    elapsed := elapsed
    totalBytes := old.bind fun entry => entry.totalBytes
    dataRate := ⟨seen.recv.totalBytes, elapsed⟩
    reqRate := ⟨seen.req.count, elapsed⟩
    avgReqSize := ⟨seen.req.bytes, seen.req.count⟩
    avgRecSize := ⟨seen.recv.bytes, seen.recv.count⟩
    utilization := ⟨seen.recv.count, seen.req.count⟩ }

/-- The section of `machine_metrics_update`. Memory is there for ten entries more. -/
def machineMetricsUpdate (d : MetricsData) : MetricsData :=
  let calcs := if seen.nCalc ≤ seen.calcs.length then seen.calcs ++ List.replicate 10 none
    else seen.calcs
  { d with
    calcs := calcs.set seen.nCalc (some (seen.measure (calcs.getD seen.nCalc none)))
    req := seen.req.settle
    recv := seen.recv.settle }

/-- `metrics_inst`: the entry as it is in memory. -/
def metricsInst : Option MetricsCalc := (seen.calcs[seen.nCalc]?).getD none

/-- `metrics_avg`, which leaves the result as it is. -/
def metricsAvg : Option MetricsCalc := some .zero

/-- `metrics_full`. -/
def metricsFull (now : Nat) : Option MetricsCalc :=
  let elapsed := (now : Int) - seen.tStart
  some
    { time := now
      elapsed := elapsed
      totalBytes := some seen.recv.totalBytes
      dataRate := ⟨seen.recv.totalBytes, elapsed⟩
      reqRate := ⟨seen.req.totalCount, elapsed⟩
      avgReqSize := ⟨seen.req.totalBytes, seen.req.totalCount⟩
      avgRecSize := ⟨seen.recv.totalBytes, seen.recv.totalCount⟩
      utilization := ⟨seen.recv.totalCount, seen.req.totalCount⟩ }

end MetricsData

/-- The cases of `machine_metrics_calculate`. -/
inductive CalcType where
  | inst
  | avg
  | full
  deriving DecidableEq, Repr

/-- The `switch` over `flag & METRICS_CALC_FLAG`. -/
def calcType (flag : Nat) : CalcType :=
  match flag % 256 with
  | 1 => .inst
  | 2 => .avg
  | 4 => .full
  | _ => .inst

/-- The section that `machine_metrics_calculate` comes to. -/
def MetricsData.metrics (seen : MetricsData) (flag now : Nat) : Option MetricsCalc :=
  match calcType flag with
  | .inst => seen.metricsInst
  | .avg => MetricsData.metricsAvg
  | .full => seen.metricsFull now

/-! ## Threads -/

/-- What is left to do of a routine. A report is asked for when `since` calls were counted. -/
inductive MetricsTask where
  | fn (c : MeteredCall)
  | init
  | count (c : MeteredCall)
  | checkUpdate
  | checkPrint
  | update
  | calculate (flag since : Nat)
  | metrics (flag since : Nat)
  | unlock
  deriving DecidableEq, Repr

/-- What a thread can start: a call of a machine, which completes or not; the update by which a
machine is disabled; a report; and the callback of one of the timers. -/
inductive MetricsRoutine where
  | call (c : MeteredCall) (complete : Bool)
  | disable
  | fmt (flag : Nat)
  | raise
  deriving DecidableEq, Repr

/-- A report: what was asked for, how many calls were counted then and when it was made, the time,
and the result. -/
structure MetricsReport where
  flag : Nat
  since : Nat
  upTo : Nat
  now : Nat
  result : Option MetricsCalc
  deriving DecidableEq, Repr

/-- An `IO_METRICS`, with a history: the calls that were started and those that were counted, each
with its thread, how many were counted at the last update, and the reports. -/
structure IoMetrics where
  data : MetricsData := {}
  updateSignal : Bool := false
  printSignal : Bool := false
  started : List (Nat × MeteredCall) := []
  counted : List (Nat × MeteredCall) := []
  updated : Option Nat := none
  reports : List MetricsReport := []
  deriving DecidableEq, Repr

/-- The choices of a step: the routine of a thread that is idle, and the time. -/
structure MetricsChoice where
  routine : MetricsRoutine := .raise
  now : Nat := 0
  deriving DecidableEq, Repr

/-- What a thread that is idle starts. -/
def MetricsRoutine.begin (t : Nat) (m : IoMetrics) : MetricsRoutine → IoMetrics × List MetricsTask
  | .call c complete =>
      ({ m with started := m.started ++ [(t, c)] }, .fn c :: if complete then [.update] else [])
  | .disable => (m, [.update])
  | .fmt flag => (m, [.calculate flag m.counted.length, .unlock])
  | .raise => ({ m with updateSignal := true }, [])

/-- The call through `fn`. `machine_metrics_init` ends with `machine_metrics_update_fn`. -/
def MetricsFn.tasks (c : MeteredCall) : MetricsFn → List MetricsTask
  | .machineMetricsInit => [.init, .count c, .checkUpdate, .checkPrint]
  | .machineMetricsUpdateFn => [.count c, .checkUpdate, .checkPrint]

/-- The next step of a thread. `machine_metrics_print` is a report of type 0. -/
def metricsCode (t : Nat) (tasks : List MetricsTask) (choice : MetricsChoice) :
    Move IoMetrics MetricsData (List MetricsTask) :=
  match tasks with
  | [] => .plain fun m => some (choice.routine.begin t m)
  | .fn c :: rest => .plain fun m => some (m, m.data.fn.tasks c ++ rest)
  | .init :: rest =>
      .critical fun _ m => ({ m with data := m.data.machineMetricsInit choice.now }, rest)
  | .count c :: rest =>
      .critical fun seen m =>
        ({ m with
            data := seen.machineMetricsUpdateFn c choice.now m.data
            counted := m.counted ++ [(t, c)] }, rest)
  | .checkUpdate :: rest =>
      .plain fun m => some (m, if m.updateSignal then .update :: rest else rest)
  | .checkPrint :: rest =>
      .plain fun m =>
        some (m, if m.printSignal then .calculate 0 m.counted.length :: .unlock :: rest else rest)
  | .update :: rest =>
      .critical fun seen m =>
        ({ m with
            data := seen.machineMetricsUpdate m.data
            updateSignal := false
            updated := some m.counted.length }, rest)
  | .calculate flag since :: rest =>
      .plain fun m =>
        some (m, (if m.data.nCalc = 0 then [.update] else []) ++ .metrics flag since :: rest)
  | .metrics flag since :: rest =>
      .critical fun seen m =>
        ({ m with
            reports := m.reports ++
              [⟨flag, since, m.counted.length, choice.now, seen.metrics flag choice.now⟩] }, rest)
  | .unlock :: rest => .release rest

/-- The threads that use one side of the metrics of a machine. -/
def metricsProgram : Guarded IoMetrics MetricsData (List MetricsTask) MetricsChoice where
  initial := {}
  point := fun _ => []
  guarded := IoMetrics.data
  code := metricsCode
  plain_guarded := by
    intro t tasks choice act m m' p' plain done
    cases tasks with
    | nil =>
        cases plain
        obtain rfl : (choice.routine.begin t m).1 = m' := by
          simpa using congrArg (Option.map Prod.fst) done
        cases choice.routine <;> rfl
    | cons task rest =>
        cases task <;> cases plain <;> cases done <;> rfl

/-! ## What is accounted for -/

/-- What a number of calls adds up to, in machine words. Only calls that brought bytes are counted
as received. -/
structure Tally where
  reqCount : Nat
  reqBytes : Nat
  recCount : Nat
  recBytes : Nat
  deriving DecidableEq, Repr

/-- What calls add up to. -/
def tally (calls : List MeteredCall) : Tally where
  reqCount := calls.length % 2 ^ 64
  reqBytes := (calls.map fun c => c.reqBytes).sum % 2 ^ 64
  recCount := (calls.countP fun c => 0 < c.recBytes) % 2 ^ 64
  recBytes := (calls.map fun c => c.recBytes).sum % 2 ^ 64

namespace Tally

/-- Two tallies together. -/
def plus (a b : Tally) : Tally where
  reqCount := (a.reqCount + b.reqCount) % 2 ^ 64
  reqBytes := (a.reqBytes + b.reqBytes) % 2 ^ 64
  recCount := (a.recCount + b.recCount) % 2 ^ 64
  recBytes := (a.recBytes + b.recBytes) % 2 ^ 64

/-- The report of all calls that a tally is of. -/
def full (all : Tally) (tStart now : Nat) : MetricsCalc :=
  let elapsed := (now : Int) - tStart
  { time := now
    elapsed := elapsed
    totalBytes := some all.recBytes
    dataRate := ⟨all.recBytes, elapsed⟩
    reqRate := ⟨all.reqCount, elapsed⟩
    avgReqSize := ⟨all.reqBytes, all.reqCount⟩
    avgRecSize := ⟨all.recBytes, all.recCount⟩
    utilization := ⟨all.recCount, all.reqCount⟩ }

/-- The report of a stretch of calls. Its number of bytes was never written, and its data rate is
that of the calls before the stretch. -/
def stretch (inside before : Tally) (tPrev tCur : Nat) : MetricsCalc :=
  let elapsed := (tCur : Int) - tPrev
  { time := tCur
    elapsed := elapsed
    totalBytes := none
    dataRate := ⟨before.recBytes, elapsed⟩
    reqRate := ⟨inside.reqCount, elapsed⟩
    avgReqSize := ⟨inside.reqBytes, inside.reqCount⟩
    avgRecSize := ⟨inside.recBytes, inside.recCount⟩
    utilization := ⟨inside.recCount, inside.reqCount⟩ }

end Tally

namespace MetricsData

/-- The counters that are collected, and the totals. -/
def pending (d : MetricsData) : Tally := ⟨d.req.count, d.req.bytes, d.recv.count, d.recv.bytes⟩

def totals (d : MetricsData) : Tally :=
  ⟨d.req.totalCount, d.req.totalBytes, d.recv.totalCount, d.recv.totalBytes⟩

end MetricsData

/-- What a report says of the calls in the order in which they were counted. It covers every call
that was counted before it was asked for and none that was counted after it was made: all of them
from the first when the totals are asked for, else a stretch at their end. -/
def MetricsReport.Accurate (calls : List MeteredCall) (r : MetricsReport) : Prop :=
  r.upTo ≤ calls.length ∧
    match calcType r.flag with
    | .inst =>
        ∃ j k tPrev tCur, j ≤ k ∧ r.since ≤ k ∧ k ≤ r.upTo ∧
          r.result = some
            ((tally ((calls.take k).drop j)).stretch (tally (calls.take j)) tPrev tCur)
    | .avg => r.result = some .zero
    | .full =>
        ∃ k tStart, r.since ≤ k ∧ k ≤ r.upTo ∧
          r.result = some ((tally (calls.take k)).full tStart r.now)

/-- The calls that a thread has still to count. -/
def pendingCalls (tasks : List MetricsTask) : List MeteredCall :=
  tasks.filterMap fun
    | .fn c => some c
    | .count c => some c
    | _ => none

namespace IoMetrics

/-- The calls that were counted, in order. -/
def calls (m : IoMetrics) : List MeteredCall := m.counted.map Prod.snd

/-- How many of them the totals hold. -/
def settled (m : IoMetrics) : Nat := m.updated.getD 0

/-- The totals and the counters are those of the calls before and after the last update. The array
has been written in its first entry only, with the stretch that the last update closed. -/
structure Books (m : IoMetrics) : Prop where
  settled_le : m.settled ≤ m.counted.length
  totals : m.data.totals = tally (m.calls.take m.settled)
  pending : m.data.pending = tally (m.calls.drop m.settled)
  nCalc : m.data.nCalc = 0
  quiet : m.printSignal = false
  unwritten : m.updated = none → m.data.calcs = []
  entry : ∀ k, m.updated = some k → ∃ j tPrev tCur, j ≤ k ∧
    m.data.calcs[0]? =
      some (some ((tally ((m.calls.take k).drop j)).stretch (tally (m.calls.take j)) tPrev tCur))

end IoMetrics

/-! ### Tallies -/

theorem tally_append (first second : List MeteredCall) :
    tally (first ++ second) = (tally first).plus (tally second) := by
  simp [tally, Tally.plus, Nat.add_mod]

namespace MetricsData

variable {d : MetricsData} {calls : List MeteredCall}

/-- Counting a call adds it to the counters and leaves the totals. -/
theorem pending_machineMetricsUpdateFn (pending : d.pending = tally calls) (c : MeteredCall)
    (now : Nat) : (d.machineMetricsUpdateFn c now d).pending = tally (calls ++ [c]) := by
  obtain ⟨count, bytes, recCount, recBytes⟩ :
      d.req.count = calls.length % 2 ^ 64 ∧
        d.req.bytes = (calls.map fun c => c.reqBytes).sum % 2 ^ 64 ∧
        d.recv.count = (calls.countP fun c => 0 < c.recBytes) % 2 ^ 64 ∧
        d.recv.bytes = (calls.map fun c => c.recBytes).sum % 2 ^ 64 := by
    simpa [MetricsData.pending, tally] using pending
  by_cases came : 0 < c.recBytes
  · simp [machineMetricsUpdateFn, MetricsData.pending, tally, MetricsCount.add, came, count, bytes,
      recCount, recBytes]
  · have nothing : c.recBytes = 0 := by omega
    simp [machineMetricsUpdateFn, MetricsData.pending, tally, MetricsCount.add, nothing, count,
      bytes, recCount, recBytes]

theorem totals_machineMetricsUpdateFn (c : MeteredCall) (now : Nat) :
    (d.machineMetricsUpdateFn c now d).totals = d.totals := by
  by_cases came : 0 < c.recBytes <;>
    simp [machineMetricsUpdateFn, totals, MetricsCount.add, came]

/-- An update moves the counters to the totals. -/
theorem totals_machineMetricsUpdate :
    (d.machineMetricsUpdate d).totals = d.totals.plus d.pending := rfl

theorem pending_machineMetricsUpdate : (d.machineMetricsUpdate d).pending = tally [] := rfl

/-- The entry of an update is that of the stretch whose calls it finds in the counters. -/
theorem measure_eq {before inside : Tally} (totals : d.totals = before)
    (pending : d.pending = inside) {old : Option MetricsCalc}
    (unwritten : (old.bind fun entry => entry.totalBytes) = none) :
    d.measure old = inside.stretch before d.tPrev d.tCur := by
  subst totals pending
  simp [measure, Tally.stretch, unwritten, MetricsData.pending, MetricsData.totals]

/-- The report of the totals. -/
theorem metricsFull_eq {all : Tally} (totals : d.totals = all) (now : Nat) :
    d.metricsFull now = some (all.full d.tStart now) := by
  subst totals
  rfl

end MetricsData

/-! ### The books -/

namespace IoMetrics

variable {m : IoMetrics}

theorem calls_length : m.calls.length = m.counted.length := List.length_map _

/-- **Counting a call** keeps the books. -/
theorem Books.count (books : m.Books) (t : Nat) (c : MeteredCall) (now : Nat) :
    { m with
      data := m.data.machineMetricsUpdateFn c now m.data
      counted := m.counted ++ [(t, c)] : IoMetrics }.Books := by
  have known := books.settled_le
  have take : ∀ k, k ≤ m.counted.length → (m.calls ++ [c]).take k = m.calls.take k :=
    fun k le => List.take_append_of_le_length (by rwa [calls_length])
  have drop : (m.calls ++ [c]).drop m.settled = m.calls.drop m.settled ++ [c] :=
    List.drop_append_of_le_length (by rwa [calls_length])
  have calls : ∀ data, { m with data := data, counted := m.counted ++ [(t, c)] : IoMetrics }.calls =
      m.calls ++ [c] := fun data => List.map_append
  refine ⟨?_, ?_, ?_, books.nCalc, books.quiet, books.unwritten, ?_⟩
  · show m.settled ≤ (m.counted ++ [(t, c)]).length
    simp only [List.length_append]
    omega
  · rw [MetricsData.totals_machineMetricsUpdateFn, books.totals, calls]
    exact congrArg tally (take _ known).symm
  · rw [MetricsData.pending_machineMetricsUpdateFn books.pending, calls]
    exact congrArg tally drop.symm
  · intro k updated
    have le : k ≤ m.counted.length := by
      simpa only [settled, show m.updated = some k from updated, Option.getD_some] using known
    obtain ⟨j, tPrev, tCur, before, entry⟩ := books.entry k updated
    refine ⟨j, tPrev, tCur, before, ?_⟩
    rw [calls, take k le, take j (Nat.le_trans before le)]
    exact entry

/-- **An update** keeps the books. -/
theorem Books.update (books : m.Books) :
    { m with
      data := m.data.machineMetricsUpdate m.data
      updateSignal := false
      updated := some m.counted.length : IoMetrics }.Books := by
  have all : m.calls.take m.counted.length = m.calls := 
    List.take_of_length_le (Nat.le_of_eq calls_length)
  have none_left : m.calls.drop m.counted.length = [] := 
    List.drop_of_length_le (Nat.le_of_eq calls_length)
  have entry : ((m.data.calcs ++ List.replicate 10 none).getD 0 none).bind
      (fun entry => entry.totalBytes) = none := by
    cases updated : m.updated with
    | none => rw [books.unwritten updated]; rfl
    | some k =>
        obtain ⟨j, tPrev, tCur, -, written⟩ := books.entry k updated
        obtain ⟨more, first⟩ := List.getElem?_eq_some_iff.mp written
        simp only [List.getD_eq_getElem?_getD, List.getElem?_append_left more, written,
          Option.getD_some]
        rfl
  have first : (m.data.machineMetricsUpdate m.data).calcs[0]? =
      some (some (m.data.measure ((m.data.calcs ++ List.replicate 10 none).getD 0 none))) := by
    simp [MetricsData.machineMetricsUpdate, books.nCalc]
  refine ⟨Nat.le_refl _, ?_, ?_, books.nCalc, books.quiet, ?_, ?_⟩
  · rw [MetricsData.totals_machineMetricsUpdate, books.totals, books.pending, ← tally_append,
      List.take_append_drop]
    exact congrArg tally all.symm
  · rw [MetricsData.pending_machineMetricsUpdate]
    exact congrArg tally none_left.symm
  · intro never
    cases never
  · intro k updated
    obtain rfl : m.counted.length = k := Option.some.inj updated
    refine ⟨m.settled, m.data.tPrev, m.data.tCur, books.settled_le, ?_⟩
    rw [first, MetricsData.measure_eq books.totals books.pending entry]
    exact congrArg (fun inside : List MeteredCall =>
      some (some ((tally (inside.drop m.settled)).stretch _ _ _))) all.symm

end IoMetrics

/-! ### The threads -/

/-- The reports that a thread has still to make were asked for no later than now, and a thread that
has come to its report has updated the totals since. -/
def Fresh (counted : Nat) : Option Nat → List MetricsTask → Prop
  | _, [] => True
  | _, .update :: rest => Fresh counted (some counted) rest
  | _, .calculate _ since :: rest => since ≤ counted ∧ Fresh counted (some counted) rest
  | updated, .metrics _ since :: rest =>
      (∃ k, updated = some k ∧ since ≤ k) ∧ Fresh counted updated rest
  | updated, _ :: rest => Fresh counted updated rest

/-- Later updates and more calls do no harm. -/
theorem Fresh.mono {counted counted' : Nat} {updated updated' : Option Nat}
    {tasks : List MetricsTask} (fresh : Fresh counted updated tasks) (more : counted ≤ counted')
    (later : ∀ k, updated = some k → ∃ k', updated' = some k' ∧ k ≤ k') :
    Fresh counted' updated' tasks := by
  induction tasks generalizing updated updated' with
  | nil => trivial
  | cons task rest ih =>
      have now : ∀ k, some counted = some k → ∃ k', some counted' = some k' ∧ k ≤ k' := by
        rintro k same
        obtain rfl := Option.some.inj same
        exact ⟨counted', rfl, more⟩
      cases task with
      | update => exact ih (show Fresh counted (some counted) rest from fresh) now
      | calculate flag since =>
          exact ⟨Nat.le_trans fresh.1 more, ih fresh.2 now⟩
      | metrics flag since =>
          obtain ⟨⟨k, updated, asked⟩, fresh⟩ := fresh
          obtain ⟨k', updated', le⟩ := later k updated
          exact ⟨⟨k', updated', Nat.le_trans asked le⟩, ih fresh later⟩
      | _ => exact ih (show Fresh counted updated rest from fresh) later

/-- Every thread of a system in which sections are one step. -/
structure MetricsInvariant (m : IoMetrics) (points : Nat → List MetricsTask) : Prop where
  books : m.Books
  fresh : ∀ t, Fresh m.counted.length m.updated (points t)
  history : ∀ t, m.started.filter (fun call => call.1 = t) =
    m.counted.filter (fun call => call.1 = t) ++ (pendingCalls (points t)).map fun c => (t, c)
  accurate : ∀ r ∈ m.reports, r.Accurate m.calls

/-- A report stays accurate when more calls are counted. -/
theorem MetricsReport.Accurate.append {calls : List MeteredCall} {r : MetricsReport}
    (accurate : r.Accurate calls) (more : List MeteredCall) : r.Accurate (calls ++ more) := by
  obtain ⟨upTo, covered⟩ := accurate
  have take : ∀ k, k ≤ r.upTo → (calls ++ more).take k = calls.take k :=
    fun k le => List.take_append_of_le_length (Nat.le_trans le upTo)
  refine ⟨by rw [List.length_append]; omega, ?_⟩
  split at covered
  · obtain ⟨j, k, tPrev, tCur, le, since, before, result⟩ := covered
    refine ⟨j, k, tPrev, tCur, le, since, before, ?_⟩
    rw [take k before, take j (Nat.le_trans le before), result]
  · exact covered
  · obtain ⟨k, tStart, since, before, result⟩ := covered
    refine ⟨k, tStart, since, before, ?_⟩
    rw [take k before, result]

/-- **A report** that is made after an update since it was asked for is accurate. -/
theorem IoMetrics.Books.report {m : IoMetrics} (books : m.Books) {flag since k now : Nat}
    (updated : m.updated = some k) (asked : since ≤ k) :
    MetricsReport.Accurate m.calls
      ⟨flag, since, m.counted.length, now, m.data.metrics flag now⟩ := by
  have settled : m.settled = k := by rw [settled, updated, Option.getD_some]
  have known : k ≤ m.counted.length := settled ▸ books.settled_le
  refine ⟨Nat.le_of_eq calls_length.symm, ?_⟩
  cases asked_for : calcType flag with
  | inst =>
      obtain ⟨j, tPrev, tCur, le, entry⟩ := books.entry k updated
      refine ⟨j, k, tPrev, tCur, le, asked, known, ?_⟩
      simp [MetricsData.metrics, asked_for, MetricsData.metricsInst, books.nCalc, entry]
  | avg => simp [MetricsData.metrics, asked_for, MetricsData.metricsAvg]
  | full =>
      refine ⟨k, m.data.tStart, asked, known, ?_⟩
      have totals := settled ▸ books.totals
      simp only [MetricsData.metrics, asked_for, MetricsData.metricsFull_eq totals]

section Threads

variable {m m' : IoMetrics} {points : Nat → List MetricsTask} {t : Nat} {tasks : List MetricsTask}

/-- What is to show of a step of thread `t`. The others see that there are more calls and updates,
and have started and counted nothing. -/
theorem MetricsInvariant.move (inv : MetricsInvariant m points) (books : m'.Books)
    (fresh : Fresh m'.counted.length m'.updated tasks)
    (more : m.counted.length ≤ m'.counted.length)
    (later : ∀ k, m.updated = some k → ∃ k', m'.updated = some k' ∧ k ≤ k')
    (started : ∀ u, u ≠ t →
      m'.started.filter (fun call => call.1 = u) = m.started.filter fun call => call.1 = u)
    (counted : ∀ u, u ≠ t →
      m'.counted.filter (fun call => call.1 = u) = m.counted.filter fun call => call.1 = u)
    (history : m'.started.filter (fun call => call.1 = t) =
      m'.counted.filter (fun call => call.1 = t) ++ (pendingCalls tasks).map fun c => (t, c))
    (accurate : ∀ r ∈ m'.reports, r.Accurate m'.calls) :
    MetricsInvariant m' (Function.update points t tasks) := by
  refine ⟨books, fun u => ?_, fun u => ?_, accurate⟩
  · by_cases here : u = t
    · subst here
      rwa [Function.update_self]
    · rw [Function.update_of_ne here]
      exact (inv.fresh u).mono more later
  · by_cases here : u = t
    · subst here
      rwa [Function.update_self]
    · rw [Function.update_of_ne here, started u here, counted u here]
      exact inv.history u

/-- A step that leaves the counters and the history alone. -/
theorem MetricsInvariant.quietly (inv : MetricsInvariant m points) (books : m'.Books)
    (fresh : Fresh m.counted.length m.updated tasks) (updated : m'.updated = m.updated)
    (started : m'.started = m.started) (counted : m'.counted = m.counted)
    (pending : pendingCalls tasks = pendingCalls (points t))
    (accurate : ∀ r ∈ m'.reports, r.Accurate m'.calls) :
    MetricsInvariant m' (Function.update points t tasks) := by
  refine inv.move books ?_ ?_ ?_ ?_ ?_ ?_ accurate
  · rwa [counted, updated]
  · rw [counted]
  · rw [updated]
    exact fun k has => ⟨k, has, Nat.le_refl k⟩
  · rw [started]
    exact fun _ _ => rfl
  · rw [counted]
    exact fun _ _ => rfl
  · rw [started, counted, pending]
    exact inv.history t

/-- A thread that is idle starts a routine. -/
theorem MetricsInvariant.begin (inv : MetricsInvariant m points) (idle : points t = [])
    (routine : MetricsRoutine) :
    MetricsInvariant (routine.begin t m).1 (Function.update points t (routine.begin t m).2) := by
  have history := inv.history t
  rw [idle] at history
  cases routine with
  | call c complete =>
      have books : { m with started := m.started ++ [(t, c)] : IoMetrics }.Books :=
        ⟨inv.books.settled_le, inv.books.totals, inv.books.pending, inv.books.nCalc,
          inv.books.quiet, inv.books.unwritten, inv.books.entry⟩
      refine inv.move books ?_ (Nat.le_refl _) (fun k has => ⟨k, has, Nat.le_refl k⟩) ?_
        (fun _ _ => rfl) ?_ inv.accurate
      · cases complete <;> trivial
      · intro u other
        simp [MetricsRoutine.begin, other.symm]
      · cases complete <;> simpa [MetricsRoutine.begin, pendingCalls] using history
  | disable => exact inv.quietly inv.books trivial rfl rfl rfl (by rw [idle]; rfl) inv.accurate
  | fmt flag =>
      exact inv.quietly inv.books ⟨Nat.le_refl _, trivial⟩ rfl rfl rfl (by rw [idle]; rfl)
        inv.accurate
  | raise =>
      have books : { m with updateSignal := true : IoMetrics }.Books :=
        ⟨inv.books.settled_le, inv.books.totals, inv.books.pending, inv.books.nCalc,
          inv.books.quiet, inv.books.unwritten, inv.books.entry⟩
      exact inv.quietly books trivial rfl rfl rfl (by rw [idle]; rfl) inv.accurate

/-- A thread counts its call. -/
theorem MetricsInvariant.count (inv : MetricsInvariant m points) {c : MeteredCall}
    {rest : List MetricsTask} (at_count : points t = .count c :: rest) (now : Nat) :
    MetricsInvariant
      { m with
        data := m.data.machineMetricsUpdateFn c now m.data
        counted := m.counted ++ [(t, c)] }
      (Function.update points t rest) := by
  have history := inv.history t
  have fresh := inv.fresh t
  rw [at_count] at history fresh
  have more : m.counted.length ≤ (m.counted ++ [(t, c)]).length := by
    rw [List.length_append]
    exact Nat.le_add_right _ _
  have same : ∀ k, m.updated = some k → ∃ k', m.updated = some k' ∧ k ≤ k' :=
    fun k has => ⟨k, has, Nat.le_refl k⟩
  refine inv.move (inv.books.count t c now) ?_ more same (fun _ _ => rfl) ?_ ?_ ?_
  · have fresh : Fresh m.counted.length m.updated rest := fresh
    exact fresh.mono more same
  · intro u other
    simp [List.filter_append, other.symm]
  · simpa [pendingCalls] using history
  · intro r member
    have accurate := (inv.accurate r member).append [c]
    simpa [IoMetrics.calls] using accurate

/-- A thread updates the totals. -/
theorem MetricsInvariant.update (inv : MetricsInvariant m points) {rest : List MetricsTask}
    (at_update : points t = .update :: rest) :
    MetricsInvariant
      { m with
        data := m.data.machineMetricsUpdate m.data
        updateSignal := false
        updated := some m.counted.length }
      (Function.update points t rest) := by
  have history := inv.history t
  have fresh := inv.fresh t
  rw [at_update] at history fresh
  refine inv.move inv.books.update fresh (Nat.le_refl _) ?_ (fun _ _ => rfl) (fun _ _ => rfl)
    history inv.accurate
  intro k has
  refine ⟨_, rfl, ?_⟩
  have known := inv.books.settled_le
  rwa [IoMetrics.settled, has] at known

/-- **One step** of a thread keeps the books, the histories and the reports. -/
theorem MetricsInvariant.step {c' : Coarse IoMetrics (List MetricsTask)} {choice : MetricsChoice}
    (inv : MetricsInvariant m points)
    (moved : metricsProgram.coarseStep ⟨m, points⟩ t choice = some c') :
    MetricsInvariant c'.shared c'.points := by
  have fresh := inv.fresh t
  cases at_point : points t with
  | nil =>
      simp only [Guarded.coarseStep, metricsProgram, at_point, metricsCode, Option.map_some,
        Option.some.injEq] at moved
      subst moved
      exact inv.begin at_point choice.routine
  | cons task rest =>
      rw [at_point] at fresh
      cases task <;>
        simp only [Guarded.coarseStep, metricsProgram, at_point, metricsCode, Option.map_some,
          Option.some.injEq] at moved <;> subst moved
      case fn c =>
        refine inv.quietly inv.books ?_ rfl rfl rfl ?_ inv.accurate
        · cases m.data.fn <;> exact fresh
        · rw [at_point]
          cases m.data.fn <;> rfl
      case init =>
        have books : { m with data := m.data.machineMetricsInit choice.now : IoMetrics }.Books :=
          ⟨inv.books.settled_le, inv.books.totals, inv.books.pending, inv.books.nCalc,
            inv.books.quiet, inv.books.unwritten, inv.books.entry⟩
        exact inv.quietly books fresh rfl rfl rfl (by rw [at_point]; rfl) inv.accurate
      case count c => exact inv.count at_point choice.now
      case checkUpdate =>
        refine inv.quietly inv.books ?_ rfl rfl rfl ?_ inv.accurate
        · split
          · have fresh : Fresh m.counted.length m.updated rest := fresh
            refine fresh.mono (Nat.le_refl _) fun k has => ?_
            refine ⟨_, rfl, ?_⟩
            have known := inv.books.settled_le
            rwa [IoMetrics.settled, has] at known
          · exact fresh
        · rw [at_point]
          split <;> rfl
      case checkPrint =>
        rw [inv.books.quiet]
        exact inv.quietly inv.books fresh rfl rfl rfl (by rw [at_point]; rfl) inv.accurate
      case update => exact inv.update at_point
      case calculate flag since =>
        rw [if_pos inv.books.nCalc]
        refine inv.quietly inv.books ?_ rfl rfl rfl (by rw [at_point]; rfl) inv.accurate
        exact ⟨⟨_, rfl, fresh.1⟩, fresh.2⟩
      case metrics flag since =>
        obtain ⟨⟨k, updated, asked⟩, fresh⟩ := fresh
        have books : ∀ reports, { m with reports := reports : IoMetrics }.Books := fun _ =>
          ⟨inv.books.settled_le, inv.books.totals, inv.books.pending, inv.books.nCalc,
            inv.books.quiet, inv.books.unwritten, inv.books.entry⟩
        refine inv.quietly (books _) fresh rfl rfl rfl (by rw [at_point]; rfl) ?_
        intro r member
        rcases List.mem_append.mp member with old | new
        · exact inv.accurate r old
        · obtain rfl := List.mem_singleton.mp new
          exact inv.books.report updated asked
      case unlock =>
        have pending : pendingCalls rest = pendingCalls (points t) := by rw [at_point]; rfl
        exact inv.quietly inv.books fresh rfl rfl rfl pending inv.accurate

end Threads

/-! ## The metrics account for every call -/

/-- Calls with their threads are a permutation of others when each thread has the same of both. -/
theorem perm_of_threads {first second : List (Nat × MeteredCall)}
    (same : ∀ t, first.filter (fun call => call.1 = t) = second.filter fun call => call.1 = t) :
    first.Perm second := by
  refine List.perm_iff_count.mpr fun call => ?_
  have mine : ∀ calls : List (Nat × MeteredCall),
      (calls.filter fun other => other.1 = call.1).count call = calls.count call :=
    fun calls => List.count_filter (by simp)
  rw [← mine first, same call.1, mine second]

/-- **The metrics account for every call.** In every interleaving of the threads that use one side
of a machine, in which no report ends while somebody is in a section: each thread's calls are
counted once and in order, except for the one it is about to count; the totals hold the calls before
the last update and the counters those after it; and a report covers every call that was counted
before it was asked for, and none that was counted after it was made. -/
theorem metrics_account (s : Fine IoMetrics MetricsData (List MetricsTask))
    (reached : metricsProgram.fine.ReachUnder metricsProgram.Sound s) :
    (∀ t, s.shared.started.filter (fun call => call.1 = t) =
      s.shared.counted.filter (fun call => call.1 = t) ++
        (pendingCalls (s.points t)).map fun c => (t, c)) ∧
    ((∀ t, s.points t = []) → s.shared.started.Perm s.shared.counted) ∧
    (∃ k, k ≤ s.shared.calls.length ∧ s.shared.data.totals = tally (s.shared.calls.take k) ∧
      s.shared.data.pending = tally (s.shared.calls.drop k)) ∧
    s.shared.data.totals.plus s.shared.data.pending = tally s.shared.calls ∧
    ∀ r ∈ s.shared.reports, r.Accurate s.shared.calls := by
  have initial : MetricsInvariant {} fun _ => [] := by
    refine ⟨⟨Nat.le_refl _, rfl, rfl, rfl, rfl, fun _ => rfl, ?_⟩, fun _ => trivial,
      fun _ => rfl, ?_⟩
    · intro k has
      cases has
    · intro r member
      cases member
  have inv : MetricsInvariant s.shared s.points :=
    Guarded.fine_invariant (I := fun c => MetricsInvariant c.shared c.points) initial
      (fun c t e c' inv moved => inv.step moved) reached
  refine ⟨inv.history, fun idle => perm_of_threads fun t => ?_, ?_, ?_, inv.accurate⟩
  · have history := inv.history t
    rw [idle t] at history
    simpa [pendingCalls] using history
  · exact ⟨_, IoMetrics.calls_length.symm ▸ inv.books.settled_le, inv.books.totals,
      inv.books.pending⟩
  · rw [inv.books.totals, inv.books.pending, ← tally_append, List.take_append_drop]

/-- Thread 0 asks for the totals, thread 1 makes the first call of the side and is about to leave
the section in which it counts it. -/
def reportBesideCall : List (Nat × MetricsChoice) :=
  [(0, { routine := .fmt 4 }), (0, {}), (0, {}), (0, {}), (0, {}), (0, {}),
    (1, { routine := .call ⟨8, 6⟩ false }), (1, {}), (1, {}), (1, {}), (1, {})]

/-- The thread leaves, the report ends, and a second report is made of the totals with the call. -/
theorem metrics_account_report :
    ∃ s, metricsProgram.fine.ReachUnder metricsProgram.Sound s ∧
      s.shared.data.totals.plus s.shared.data.pending = tally [⟨8, 6⟩] ∧
      s.shared.reports.map (fun r => r.result.bind fun entry => entry.totalBytes) =
        [some 0, some 6] ∧
      ∀ r ∈ s.shared.reports, r.Accurate [⟨8, 6⟩] := by
  let later : List (Nat × MetricsChoice) :=
    [(1, { now := 3 }), (0, {}), (0, { routine := .fmt 4 }), (0, {}), (0, {}), (0, {}), (0, {}),
      (0, { now := 5 })]
  let start : Fine IoMetrics MetricsData (List MetricsTask) :=
    ⟨metricsProgram.initial, false, metricsProgram.point, fun _ => none⟩
  have ends : (metricsProgram.fine.execUnder metricsProgram.Sound start
      (reportBesideCall ++ later)).map
      (fun s => (s.shared.calls,
        s.shared.reports.map fun r => r.result.bind fun entry => entry.totalBytes)) =
      some ([⟨8, 6⟩], [some 0, some 6]) := by
    decide +kernel
  obtain ⟨s, run, last⟩ := Option.map_eq_some_iff.mp ends
  obtain ⟨calls, reports⟩ : s.shared.calls = [⟨8, 6⟩] ∧
      s.shared.reports.map (fun r => r.result.bind fun entry => entry.totalBytes) =
        [some 0, some 6] := by
    simpa using last
  have reached : metricsProgram.fine.ReachUnder metricsProgram.Sound s :=
    .execUnder (.start rfl) run
  obtain ⟨-, -, -, sums, accurate⟩ := metrics_account s reached
  rw [calls] at sums accurate
  exact ⟨s, reached, sums, reports, accurate⟩

/-- When the report ends before thread 1 leaves its section, its last statement opens the lock to
thread 2, and the counters keep one of two calls. -/
theorem unheld_unlock_loses :
    ∃ s, metricsProgram.fine.Reach s ∧ s.shared.calls = [⟨8, 6⟩, ⟨8, 8⟩] ∧
      s.shared.data.totals.plus s.shared.data.pending = tally [⟨8, 8⟩] := by
  let later : List (Nat × MetricsChoice) :=
    [(0, {}), (2, { routine := .call ⟨8, 8⟩ false }), (2, {}), (2, {}), (1, {}), (2, {})]
  let start : Fine IoMetrics MetricsData (List MetricsTask) :=
    ⟨metricsProgram.initial, false, metricsProgram.point, fun _ => none⟩
  have ends : (metricsProgram.fine.exec start (reportBesideCall ++ later)).map
      (fun s => (s.shared.calls, s.shared.data.totals.plus s.shared.data.pending)) =
      some ([⟨8, 6⟩, ⟨8, 8⟩], tally [⟨8, 8⟩]) := by
    decide +kernel
  obtain ⟨s, run, last⟩ := Option.map_eq_some_iff.mp ends
  obtain ⟨calls, sums⟩ : s.shared.calls = [⟨8, 6⟩, ⟨8, 8⟩] ∧
      s.shared.data.totals.plus s.shared.data.pending = tally [⟨8, 8⟩] := by
    simpa using last
  exact ⟨s, .exec (.start rfl) run, calls, sums⟩

end Bingewatch.Machine
