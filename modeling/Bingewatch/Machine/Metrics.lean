import Bingewatch.Machine.Registry

/-!
# The signals of the machine metrics

`machine_metrics_enable` gives a machine an object with two counters, allocated from the memory pool
of its descriptor, and enters pointers to the two update flags in the table `global_signal`
(`src/machine-metrics.c`). Timers write through all pointers of the table. `machine_destroy_desc`
frees the pool, with the object, and nothing takes the pointers out of the table.

Objects are numbered in the order of their allocation and never reused, so a pointer is good as long
as its object is live. `signals_live_iff` says, over every sequence of calls, that all pointers of
the table stay good exactly when no machine is destroyed that has metrics.
-/

set_option autoImplicit false

namespace Bingewatch.Machine

/-! ## Metrics -/

/-- The two counters of `struct io_metrics_t`. -/
inductive MetricsSide where
  | input
  | output
  deriving DecidableEq, Repr

/-- A pointer `&m->_update_signal` to the flag of one of the counters of an object. -/
structure Signal where
  object : Nat
  side : MetricsSide
  deriving DecidableEq, Repr

/-- The tables of the library with the metrics: the field `metrics` of the descriptors by their
addresses, the metrics objects that are not freed, the flags, and `global_signal`. There are fewer
than `2 ^ 31` handles and each adds at most two pointers, so `len` and `size` do not overflow. -/
structure Metered where
  reg : Registry := {}
  metrics : Nat → Option Nat := fun _ => none
  live : List Nat := []
  top : Nat := 0
  updateSignal : Signal → Bool := fun _ => false
  signal : List Signal := []
  size : Nat := 0

namespace Metered

variable (M : Metered)

/-- `track_new_metric`. -/
def trackNewMetric (s : Signal) : Metered :=
  { M with
    size := if M.size ≤ M.signal.length then M.size + 10 else M.size
    signal := M.signal ++ [s] }

/-- `machine_metrics_create`, with the object it returns. -/
def machineMetricsCreate : Metered × Nat :=
  let m := M.top
  let M := { M with live := m :: M.live, top := m + 1 }
  ((M.trackNewMetric ⟨m, .input⟩).trackNewMetric ⟨m, .output⟩, m)

/-- `machine_metrics_enable`. It follows a null pointer when there is no memory for the metrics. -/
def machineMetricsEnable (h : Int) (memory : Bool) : Option Metered :=
  let d := machineGetDesc M.reg h
  if h = 0 ∨ d = 0 ∨ M.metrics d ≠ none then some M
  else if memory then
    let (M, m) := M.machineMetricsCreate
    some { M with metrics := Function.update M.metrics d (some m) }
  else none

/-- The loop of the callbacks. A write into an object that was freed is undefined. -/
def raise : Metered → List Signal → Option Metered
  | M, [] => some M
  | M, s :: rest =>
      if s.object ∈ M.live then
        raise { M with updateSignal := Function.update M.updateSignal s true } rest
      else none

/-- `machine_metrics_update_callback`. -/
def machineMetricsUpdateCallback : Option Metered := M.raise M.signal

/-- `machine_metrics_print_callback`, which raises the same flags. -/
def machineMetricsPrintCallback : Option Metered := M.raise M.signal

/-- `free_machine_desc`: the pool of the descriptor holds its metrics. -/
def freeMachineDesc (d : Nat) : Metered :=
  { M with live := M.live.filter fun m => M.metrics d ≠ some m }

/-- `machine_destroy_desc`. -/
def machineDestroyDesc (h : Int) : Metered :=
  let d := machineGetDesc M.reg h
  if d = 0 then M
  else { M with reg := Machine.machineDestroyDesc M.reg h }.freeMachineDesc d

end Metered

/-! ## Sequences of calls -/

/-- A call on machines and their metrics. `create` registers a descriptor at a fresh address of a
machine that exists, with its fields zeroed. -/
inductive MetricsCall where
  | register (name : String)
  | create (addme machine : Nat)
  | enable (h : Int) (memory : Bool)
  | update
  | print
  | destroy (h : Int)
  deriving DecidableEq, Repr

/-- The call is a callback of a timer. -/
def MetricsCall.isCallback : MetricsCall → Bool
  | .update => true
  | .print => true
  | _ => false

namespace Metered

/-- What a call does. There is no result when it is undefined, or a caller cannot make it. -/
def call (M : Metered) : MetricsCall → Option Metered
  | .register name => (machineRegister M.reg name).map fun (R, _) => { M with reg := R }
  | .create addme machine =>
      if (RegistryCall.machineRegisterDesc addme machine).Admissible M.reg then
        (machineRegisterDesc M.reg addme machine).map fun (R, _) =>
          { M with reg := R, metrics := Function.update M.metrics addme none }
      else none
  | .enable h memory => M.machineMetricsEnable h memory
  | .update => M.machineMetricsUpdateCallback
  | .print => M.machineMetricsPrintCallback
  | .destroy h => some (M.machineDestroyDesc h)

/-- Every pointer of the table refers to metrics that are not freed. -/
def Pointed (M : Metered) : Prop := ∀ s ∈ M.signal, s.object ∈ M.live

/-- After every call of a sequence the pointers of the table are good, and no callback writes into
released memory. -/
def PointedRun : Metered → List MetricsCall → Prop
  | _, [] => True
  | M, c :: calls =>
      (c.isCallback = true → M.call c ≠ none) ∧
        ∀ M', M.call c = some M' → M'.Pointed ∧ M'.PointedRun calls

end Metered

/-- The call does not destroy a machine that has metrics. -/
def MetricsCall.Unmetered (M : Metered) : MetricsCall → Prop
  | .destroy h => machineGetDesc M.reg h ≠ 0 → M.metrics (machineGetDesc M.reg h) = none
  | _ => True

/-- No call of a sequence destroys a machine that has metrics when its turn comes. -/
def Metered.UnmeteredRun : Metered → List MetricsCall → Prop
  | _, [] => True
  | M, c :: calls => c.Unmetered M ∧ ∀ M', M.call c = some M' → M'.UnmeteredRun calls

/-! ## The pointers of the metrics -/

namespace Metered

variable {M M' : Metered}

/-- The metrics of every descriptor are in the table, also of those that are gone. -/
def Tracked (M : Metered) : Prop := ∀ d m, M.metrics d = some m → ⟨m, .input⟩ ∈ M.signal

theorem raise_spec (signals : List Signal) (M : Metered) :
    (M.raise signals ≠ none ↔ ∀ s ∈ signals, s.object ∈ M.live) ∧
      ∀ M', M.raise signals = some M' →
        M'.signal = M.signal ∧ M'.live = M.live ∧ M'.metrics = M.metrics := by
  induction signals generalizing M with
  | nil => simp [raise]
  | cons s signals ih =>
      by_cases inside : s.object ∈ M.live
      · obtain ⟨defined, frame⟩ :=
          ih { M with updateSignal := Function.update M.updateSignal s true }
        rw [raise, if_pos inside]
        exact ⟨defined.trans (by simp [inside]), frame⟩
      · simp [raise, inside]

/-- What enabling the metrics of a machine can do. -/
theorem enable_cases {h : Int} {memory : Bool}
    (enabled : M.machineMetricsEnable h memory = some M') :
    M' = M ∨
      M'.signal = M.signal ++ [⟨M.top, .input⟩, ⟨M.top, .output⟩] ∧ M'.live = M.top :: M.live ∧
        M'.metrics = Function.update M.metrics (machineGetDesc M.reg h) (some M.top) := by
  unfold machineMetricsEnable at enabled
  simp only at enabled
  split at enabled
  · exact .inl (Option.some.inj enabled).symm
  · split at enabled
    · cases enabled
      exact .inr ⟨by simp [machineMetricsCreate, trackNewMetric], rfl, rfl⟩
    · cases enabled

/-- **One call** keeps the metrics of every descriptor in the table. -/
theorem Tracked.call (tracked : M.Tracked) {c : MetricsCall} (called : M.call c = some M') :
    M'.Tracked := by
  cases c with
  | register name =>
      obtain ⟨_, -, rfl⟩ := Option.map_eq_some_iff.mp called
      exact tracked
  | create addme machine =>
      rw [Metered.call] at called
      split at called
      · obtain ⟨⟨R, h⟩, -, rfl⟩ := Option.map_eq_some_iff.mp called
        intro d m has
        by_cases here : d = addme
        · simp [here] at has
        · have old : M.metrics d = some m := by
            simpa [Function.update_of_ne here] using has
          exact tracked d m old
      · cases called
  | enable h memory =>
      rcases enable_cases called with rfl | ⟨signal, -, metrics⟩
      · exact tracked
      · intro d m has
        rw [metrics] at has
        rw [signal]
        by_cases here : d = machineGetDesc M.reg h
        · obtain rfl : M.top = m := by simpa [here] using has
          simp
        · rw [Function.update_of_ne here] at has
          exact List.mem_append_left _ (tracked d m has)
  | update =>
      obtain ⟨signal, -, metrics⟩ := (raise_spec M.signal M).2 M' called
      rwa [Tracked, signal, metrics]
  | print =>
      obtain ⟨signal, -, metrics⟩ := (raise_spec M.signal M).2 M' called
      rwa [Tracked, signal, metrics]
  | destroy h =>
      cases called
      unfold machineDestroyDesc
      simp only
      split
      · exact tracked
      · exact tracked

/-- **One call** that destroys no machine with metrics keeps the pointers of the table good. -/
theorem Pointed.call (pointed : M.Pointed) {c : MetricsCall} (unmetered : c.Unmetered M)
    (called : M.call c = some M') : M'.Pointed := by
  cases c with
  | register name =>
      obtain ⟨_, -, rfl⟩ := Option.map_eq_some_iff.mp called
      exact pointed
  | create addme machine =>
      rw [Metered.call] at called
      split at called
      · obtain ⟨_, -, rfl⟩ := Option.map_eq_some_iff.mp called
        exact pointed
      · cases called
  | enable h memory =>
      rcases enable_cases called with rfl | ⟨signal, live, -⟩
      · exact pointed
      · intro s member
        rw [signal] at member
        rw [live]
        rcases List.mem_append.mp member with old | new
        · exact List.mem_cons_of_mem _ (pointed s old)
        · have here : s.object = M.top := by
            rcases List.mem_pair.mp new with rfl | rfl <;> rfl
          exact here ▸ List.mem_cons_self
  | update =>
      obtain ⟨signal, live, -⟩ := (raise_spec M.signal M).2 M' called
      rwa [Pointed, signal, live]
  | print =>
      obtain ⟨signal, live, -⟩ := (raise_spec M.signal M).2 M' called
      rwa [Pointed, signal, live]
  | destroy h =>
      cases called
      unfold machineDestroyDesc
      simp only
      split
      · exact pointed
      · next found =>
          intro s member
          refine List.mem_filter.mpr ⟨pointed s member, ?_⟩
          simp [unmetered found]

/-- The destroy of a machine with metrics leaves a pointer to what it freed. -/
theorem not_pointed_destroy (tracked : M.Tracked) {c : MetricsCall} (metered : ¬c.Unmetered M) :
    ∃ M', M.call c = some M' ∧ ¬M'.Pointed := by
  cases c with
  | destroy h =>
      obtain ⟨found, has⟩ : machineGetDesc M.reg h ≠ 0 ∧
          M.metrics (machineGetDesc M.reg h) ≠ none := by
        simpa [MetricsCall.Unmetered] using metered
      obtain ⟨m, has⟩ := Option.ne_none_iff_exists'.mp has
      refine ⟨_, rfl, fun pointed => ?_⟩
      rw [machineDestroyDesc, if_neg found] at pointed
      have dangling := pointed ⟨m, .input⟩ (tracked _ m has)
      obtain ⟨-, other⟩ := List.mem_filter.mp dangling
      simp [has] at other
  | _ => exact absurd trivial metered

end Metered

theorem pointedRun_iff {M : Metered} (tracked : M.Tracked) (pointed : M.Pointed)
    (calls : List MetricsCall) : M.PointedRun calls ↔ M.UnmeteredRun calls := by
  induction calls generalizing M with
  | nil => exact Iff.rfl
  | cons c calls ih =>
      constructor
      · rintro ⟨-, good⟩
        have unmetered : c.Unmetered M := by
          by_contra metered
          obtain ⟨M', called, dangling⟩ := Metered.not_pointed_destroy tracked metered
          exact dangling (good M' called).1
        refine ⟨unmetered, fun M' called => ?_⟩
        obtain ⟨pointed', later⟩ := good M' called
        exact (ih (tracked.call called) pointed').mp later
      · rintro ⟨unmetered, later⟩
        refine ⟨fun callback => ?_, fun M' called => ?_⟩
        · have defined := (Metered.raise_spec M.signal M).1.mpr pointed
          cases c with
          | update => exact defined
          | print => exact defined
          | _ => cases callback
        · have pointed' := pointed.call unmetered called
          exact ⟨pointed', (ih (tracked.call called) pointed').mpr (later M' called)⟩

/-- **When the signals stay live.** In a sequence of creations of machines, calls that enable their
metrics, callbacks of the timers and destroys, every pointer of `global_signal` refers to the
metrics of a machine that is not destroyed after every call, and no callback writes into released
memory, if and only if no machine is destroyed after its metrics were enabled. -/
theorem signals_live_iff (calls : List MetricsCall) :
    Metered.PointedRun {} calls ↔ Metered.UnmeteredRun {} calls :=
  pointedRun_iff (fun _ _ has => by cases has) (fun _ member => by cases member) calls

/-- Execute calls in turn. -/
def Metered.run : Metered → List MetricsCall → Option Metered
  | M, [] => some M
  | M, c :: calls => (M.call c).bind fun M => M.run calls

theorem Metered.PointedRun.reaches {M M' : Metered} {before after : List MetricsCall}
    (good : M.PointedRun (before ++ after)) (ran : M.run before = some M') :
    M'.PointedRun after := by
  induction before generalizing M with
  | nil =>
      obtain rfl : M = M' := by simpa [Metered.run] using ran
      exact good
  | cons c before ih =>
      obtain ⟨N, called, ran⟩ := Option.bind_eq_some_iff.mp ran
      exact ih (good.2 N called).2 ran

/-- A machine is destroyed after its metrics were enabled. -/
def meteredDestroyed : List MetricsCall :=
  [.register "block-list", .create 8 0, .enable 1 true, .destroy 1]

/-- When the timer fires, its callback writes into the metrics that went with the machine. -/
theorem destroyed_metrics_signalled : ¬Metered.PointedRun {} (meteredDestroyed ++ [.update]) := by
  intro good
  have run : (Metered.run {} meteredDestroyed).map (fun M => (M.signal, M.live)) =
      some ([⟨0, .input⟩, ⟨0, .output⟩], []) := by
    decide +kernel
  obtain ⟨M, ran, observed⟩ := Option.map_eq_some_iff.mp run
  obtain ⟨signal, live⟩ : M.signal = [⟨0, .input⟩, ⟨0, .output⟩] ∧ M.live = [] := by
    simpa using observed
  have fires := (good.reaches ran).1 rfl
  have written := (Metered.raise_spec M.signal M).1.mp fires ⟨0, .input⟩ (by simp [signal])
  simp [live] at written

end Bingewatch.Machine
