import Bingewatch.Foundation.Transition
import Bingewatch.File.Rotation
import Bingewatch.Filter.Conversion
import Bingewatch.Filter.Retry

/-!
# Disabled filters

`io_filter_disable` clears the field `enabled` of a filter, and it is left to the filter's function
to look at it. The functions of `src/filter/` begin with `IOF_DISABLED`; the rotation filters of
`src/file-machine.c` and the two functions of a feedback loop do not. The filter is looked up by its
name, of which `create_filter` keeps 64 characters and no NUL behind them.

A chain here is any sequence of these filters, each with its object, over any terminal function and
any metrics. Two runs of the same calls are led beside each other, one through the chain with a
filter disabled and one through the chain without it. Every function of a chain keeps such a pair of
runs alike (`Link.call_alike`), so the runs end alike when the disabled filter only calls the next
one. `disabling_removes_iff` says that this is so in every chain and run for the filters that test
the field and have a name of fewer than 64 characters, and for no others.
-/

set_option autoImplicit false

namespace Bingewatch.Filter

open Foundation Machine

/-! ## Chains of the library's filters -/

/-- The function of a filter, with its object. The rotation filters have a pointer to a file
machine, the functions of a feedback loop one to a metric. -/
inductive LinkFn (D : Type) where
  | byteCountLimiter (limit : ByteLimit)
  | timeLimiter (state : TimeLimit)
  | byteCounter (counter : Option ByteCount)
  | iqTypeConversion (g : Gcb D)
  | fileRotateFn (fd : Nat)
  | dirRotateFn (fd : Nat)
  | feedbackControllerFn (fb : FbCtl) (metric : Nat)
  | feedbackMetricFn (metric : Nat)

/-- `struct io_filter_t` at its address, with the name that `create_filter` was called with. -/
structure Link (D : Type) where
  addr : Nat
  name : List Char
  enabled : Bool := true
  direction : Direction := .bidirectional
  fn : LinkFn D

/-- What the filters of a chain act on beside their own objects: the metrics, the file machines, and
the terminal function with what it was called with. -/
structure Outside (κ μ τ : Type) where
  metrics : Nat → μ
  files : File.Machines κ
  inputs : List FilterArgs := []
  terminal : τ

/-- What a chain is built over. Two of the functions have no `return`; `unreturned` is the status
that their caller finds then, when the next filter has answered with some status. -/
structure Parts (κ D μ τ : Type) where
  host : File.Host κ
  samples : Samples D
  metric : Nat → μ → FilterArgs → Option (μ × FilterAnswer)
  reset : Nat → μ → μ
  unreturned : IoStatus → IoStatus
  terminal : τ → File.Machines κ → FilterArgs → Option (τ × File.Machines κ × FilterAnswer)

/-- The filters of a chain, from the first one on, and everything else. -/
abbrev ChainState (κ D μ τ : Type) : Type := List (Link D) × Outside κ μ τ

section Chains

variable {κ D μ τ : Type} [DecidableEq κ]

/-- The common body of `file_rotate_fn` and `dir_rotate_fn`. -/
def rotateFn (P : Parts κ D μ τ) (c : File.FileCall) (fd : Nat)
    (next : NextCall (ChainState κ D μ τ)) : NextCall (ChainState κ D μ τ) := fun (chain, w) a =>
  (w.files.call P.host (fd, c)).bind fun (files, _) =>
    (next (chain, { w with files := files }) a).map fun (s, answer) =>
      (s, { answer with status := P.unreturned answer.status })

/-- `file_rotate_fn`. -/
def fileRotateFn (P : Parts κ D μ τ) : Nat → NextCall (ChainState κ D μ τ) →
    NextCall (ChainState κ D μ τ) :=
  rotateFn P .rotate

/-- `dir_rotate_fn`. -/
def dirRotateFn (P : Parts κ D μ τ) : Nat → NextCall (ChainState κ D μ τ) →
    NextCall (ChainState κ D μ τ) :=
  rotateFn P .rotateDir

omit [DecidableEq κ] in
/-- `metric->call`. -/
def metricCall (P : Parts κ D μ τ) (metric : Nat) : NextCall (ChainState κ D μ τ) :=
  fun (chain, w) a =>
    (P.metric metric (w.metrics metric) a).map fun (x, answer) =>
      ((chain, { w with metrics := Function.update w.metrics metric x }), answer)

omit [DecidableEq κ] in
/-- `fb->reset_fn(fb->reset_arg)`. -/
def resetMetric (P : Parts κ D μ τ) (metric : Nat) : ChainState κ D μ τ → ChainState κ D μ τ :=
  fun (chain, w) =>
    let x := P.reset metric (w.metrics metric)
    (chain, { w with metrics := Function.update w.metrics metric x })

omit [DecidableEq κ] in
/-- The terminal function of the chain. -/
def terminalCall (P : Parts κ D μ τ) : NextCall (ChainState κ D μ τ) := fun (chain, w) a =>
  (P.terminal w.terminal w.files a).map fun (terminal, files, answer) =>
    ((chain, { w with terminal := terminal, files := files, inputs := w.inputs ++ [a] }), answer)

/-- The call of a filter. The fuel bounds the rounds of a feedback loop. -/
def Link.call [Inhabited D] (P : Parts κ D μ τ) (fuel : Nat) (f : Link D)
    (next : NextCall (ChainState κ D μ τ)) (s : ChainState κ D μ τ) (a : FilterArgs) :
    Option (Link D × ChainState κ D μ τ × FilterAnswer) :=
  match f.fn with
  | .byteCountLimiter l =>
      (iofDisabled f.enabled l next (byteCountLimiterCall f.direction l) s a).map
        fun (l, s, answer) => ({ f with fn := .byteCountLimiter l }, s, answer)
  | .timeLimiter state =>
      (iofDisabled f.enabled state next (timeLimiterCall state) s a).map
        fun (state, s, answer) => ({ f with fn := .timeLimiter state }, s, answer)
  | .byteCounter counter =>
      (iofDisabled f.enabled counter next (byteCounterCall counter) s a).map
        fun (counter, s, answer) => ({ f with fn := .byteCounter counter }, s, answer)
  | .iqTypeConversion g =>
      (iqTypeConversion P.samples f.enabled f.direction g next s a).map
        fun (g, s, answer) => ({ f with fn := .iqTypeConversion g }, s, answer)
  | .fileRotateFn fd =>
      (Filter.fileRotateFn P fd next s a).map fun (s, answer) => (f, s, answer)
  | .dirRotateFn fd =>
      (Filter.dirRotateFn P fd next s a).map fun (s, answer) => (f, s, answer)
  | .feedbackControllerFn fb metric =>
      (Filter.feedbackControllerFn f.direction fuel (resetMetric P metric) next fb s a).map
        fun (fb, s, answer) => ({ f with fn := .feedbackControllerFn fb metric }, s, answer)
  | .feedbackMetricFn metric =>
      (Filter.feedbackMetricFn (metricCall P metric) next s a).map
        fun (s, answer) => (f, s, answer)

/-- The call of a chain, which has as many filters as the first argument says. -/
def callChain [Inhabited D] (P : Parts κ D μ τ) (fuel : Nat) :
    Nat → NextCall (ChainState κ D μ τ)
  | 0 => terminalCall P
  | n + 1 => fun (chain, w) a =>
      match chain with
      | [] => terminalCall P ([], w) a
      | f :: rest =>
          (f.call P fuel (callChain P fuel n) (rest, w) a).map fun (f, (rest, w), answer) =>
            ((f :: rest, w), answer)

/-- A call comes to the chain, or the timer of a filter runs out. -/
inductive ChainEvent where
  | call (a : FilterArgs)
  | expire (addr : Nat)
  deriving DecidableEq, Repr

/-- The end of `run_timer`. -/
def Link.expire (addr : Nat) (f : Link D) : Link D :=
  match f.fn with
  | .timeLimiter .running => if f.addr = addr then { f with fn := .timeLimiter .done } else f
  | _ => f

/-- What happens to a chain. -/
def chainEvent [Inhabited D] (P : Parts κ D μ τ) (fuel : Nat) (s : ChainState κ D μ τ) :
    ChainEvent → Option (ChainState κ D μ τ × Option FilterAnswer)
  | .call a => (callChain P fuel s.1.length s a).map fun (s, answer) => (s, some answer)
  | .expire addr => some ((s.1.map (Link.expire addr), s.2), none)

end Chains

/-! ## Disabling by name -/

section Disable

variable {D : Type}

/-- The string that `strcmp` finds in the field `name`. `strncpy` has put there what fits of the
name; when nothing is left for a NUL the string goes on in the memory that follows the field. -/
def Link.storedName (behind : Nat → List Char) (f : Link D) : List Char :=
  if f.name.length < ioMaxNameLen then f.name
  else f.name.take ioMaxNameLen ++ behind f.addr

/-- `get_io_filter` from a filter of the chain on: the place of the first one with the name. -/
def getIoFilter (behind : Nat → List Char) (chain : List (Link D)) (start : Nat)
    (name : List Char) : Option Nat :=
  ((chain.drop start).findIdx? fun f => f.storedName behind = name).map (start + ·)

/-- The filter that `io_filter_disable` finds. Without a name it is the one that was passed. -/
def disableTarget (behind : Nat → List Char) (chain : List (Link D)) (start : Nat) :
    Option (List Char) → Option Nat
  | none => if start < chain.length then some start else none
  | some name => getIoFilter behind chain start name

/-- `io_filter_disable`, called with the filter at a place of the chain. -/
def ioFilterDisable (behind : Nat → List Char) (chain : List (Link D)) (start : Nat)
    (name : Option (List Char)) : List (Link D) :=
  match disableTarget behind chain start name with
  | none => chain
  | some i => chain.modify i fun f => { f with enabled := false }

/-- A call of `io_filter_disable` for the filter at a place: with this filter and without a name, or
with its name and a filter in front of it, when none between the two was created with that name. -/
inductive DisableOf (chain : List (Link D)) (i : Nat) (f : Link D) :
    (start : Nat) → (name : Option (List Char)) → Prop where
  | itself (there : chain[i]? = some f) : DisableOf chain i f i none
  | byName {start : Nat} (there : chain[i]? = some f) (inFront : start ≤ i)
      (first : ∀ j, start ≤ j → j < i → ∀ g, chain[j]? = some g → g.name ≠ f.name) :
      DisableOf chain i f start (some f.name)

/-- The function begins with `IOF_DISABLED`. -/
def LinkFn.testsEnabled : LinkFn D → Bool
  | .byteCountLimiter _ => true
  | .timeLimiter _ => true
  | .byteCounter _ => true
  | .iqTypeConversion _ => true
  | .fileRotateFn _ => false
  | .dirRotateFn _ => false
  | .feedbackControllerFn _ _ => false
  | .feedbackMetricFn _ => false

/-- Disabling the filter equals removing it: in every chain that has it at some place, over
everything that a chain can be built over and whatever follows the names in memory, for every
`io_filter_disable` of it and every sequence of events. The runs of the chain with the filter
disabled and of the chain without it get the same answers, and leave the other filters, the metrics,
the file machines and the terminal in the same states, the terminal after the same calls. -/
def Removable [Inhabited D] (f : Link D) : Prop :=
  ∀ (κ μ τ : Type) [DecidableEq κ] (P : Parts κ D μ τ) (fuel : Nat) (behind : Nat → List Char)
    (chain : List (Link D)) (w : Outside κ μ τ) (start : Nat) (name : Option (List Char)) (i : Nat)
    (events : List ChainEvent), DisableOf chain i f start name →
      ((runCalls (chainEvent P fuel) (ioFilterDisable behind chain start name, w) events).map
          fun ((chain, w), log) => ((chain.eraseIdx i, w), log)) =
        runCalls (chainEvent P fuel) (chain.eraseIdx i, w) events

variable {behind : Nat → List Char} {chain : List (Link D)} {i start : Nat} {f : Link D}
  {name : Option (List Char)}

theorem Link.storedName_of_lt (short : f.name.length < ioMaxNameLen) :
    f.storedName behind = f.name := if_pos short

theorem Link.storedName_of_le (long : ioMaxNameLen ≤ f.name.length) :
    f.storedName behind = f.name.take ioMaxNameLen ++ behind f.addr := if_neg (by omega)

/-- A name that fits is the stored name of no filter that was created with another one. -/
theorem Link.name_eq_of_storedName {g : Link D} (short : f.name.length < ioMaxNameLen)
    (same : g.storedName behind = f.name) : g.name = f.name := by
  by_cases fits : g.name.length < ioMaxNameLen
  · rw [← same, Link.storedName_of_lt fits]
  · rw [Link.storedName_of_le (by omega)] at same
    have length := congrArg List.length same
    rw [List.length_append, List.length_take] at length
    omega

/-- **A filter whose name fits is found.** -/
theorem DisableOf.target (call : DisableOf chain i f start name)
    (short : f.name.length < ioMaxNameLen) : disableTarget behind chain start name = some i := by
  cases call with
  | itself there => exact if_pos (List.getElem?_eq_some_iff.mp there).1
  | byName there inFront first =>
      have found : (chain.drop start).findIdx? (fun g => g.storedName behind = f.name) =
          some (i - start) := by
        obtain ⟨inside, here⟩ := List.getElem?_eq_some_iff.mp there
        rw [List.findIdx?_eq_some_iff_getElem]
        refine ⟨by rw [List.length_drop]; omega, ?_, fun j before => ?_⟩
        · simp only [List.getElem_drop, Nat.add_sub_cancel' inFront, here,
            Link.storedName_of_lt short, decide_true]
        · simp only [List.getElem_drop, decide_eq_true_eq]
          intro same
          exact first (start + j) (Nat.le_add_right _ _) (by omega) _
            (List.getElem?_eq_getElem (by omega)) (Link.name_eq_of_storedName short same)
      show getIoFilter behind chain start f.name = some i
      rw [getIoFilter, found, Option.map_some, Nat.add_sub_cancel' inFront]

theorem DisableOf.there (call : DisableOf chain i f start name) : chain[i]? = some f := by
  cases call with
  | itself there => exact there
  | byName there => exact there

end Disable

/-! ## Functions that keep two runs alike -/

section Functions

variable {σ σ' β D : Type} {R : σ → σ' → Prop} {next : NextCall σ} {next' : NextCall σ'}

/-- Two filters answer alike from related states. -/
def Paired (R : σ → σ' → Prop) (next : NextCall σ) (next' : NextCall σ') : Prop :=
  ∀ s t a, R s t → Alike R (next s a) (next' t a)

/-- Two calls of a filter with an object both fail, or both return the same object and the same
answer in related states. -/
def AlikeObj (R : σ → σ' → Prop) :
    Option (β × σ × FilterAnswer) → Option (β × σ' × FilterAnswer) → Prop :=
  Option.Rel fun x y => x.1 = y.1 ∧ R x.2.1 y.2.1 ∧ x.2.2 = y.2.2

/-- The same with the count only, as the functions of `Filter.ReadFilters` return it. -/
def AlikeReport (R : σ → σ' → Prop) :
    Option (β × σ × Report) → Option (β × σ' × Report) → Prop :=
  Option.Rel fun x y => x.1 = y.1 ∧ R x.2.1 y.2.1 ∧ x.2.2 = y.2.2

theorem AlikeObj.map {γ : Type} {x : Option (β × σ × FilterAnswer)}
    {y : Option (β × σ' × FilterAnswer)} (alike : AlikeObj R x y) (f : β → γ) :
    AlikeObj R (x.map fun (obj, s, answer) => (f obj, s, answer))
      (y.map fun (obj, s, answer) => (f obj, s, answer)) := by
  refine rel_map alike ?_
  rintro ⟨obj, s, answer⟩ ⟨_, t, _⟩ ⟨rfl, related, rfl⟩
  exact ⟨rfl, related, rfl⟩

theorem alike_withObj {x : Option (σ × FilterAnswer)} {y : Option (σ' × FilterAnswer)}
    (alike : Alike R x y) (obj : β) :
    AlikeObj R (x.map fun (s, answer) => (obj, s, answer))
      (y.map fun (s, answer) => (obj, s, answer)) := by
  refine rel_map alike ?_
  rintro ⟨s, answer⟩ ⟨t, _⟩ ⟨related, rfl⟩
  exact ⟨rfl, related, rfl⟩

theorem iofDisabled_alike {enabled : Bool} {obj : β}
    {body : NextCall σ → σ → FilterArgs → Option (β × σ × FilterAnswer)}
    {body' : NextCall σ' → σ' → FilterArgs → Option (β × σ' × FilterAnswer)}
    (paired : Paired R next next') {s : σ} {t : σ'} {a : FilterArgs} (related : R s t)
    (bodies : AlikeObj R (body next s a) (body' next' t a)) :
    AlikeObj R (iofDisabled enabled obj next body s a)
      (iofDisabled enabled obj next' body' t a) := by
  unfold iofDisabled
  split
  · exact alike_withObj (paired s t a related) obj
  · exact bodies

section Counts

variable {call : Nat → Option (σ × Report)} {call' : Nat → Option (σ' × Report)}
  {s : σ} {t : σ'}

theorem byteCountLimiter_alike (direction : Direction) (l : ByteLimit)
    (paired : ∀ bytes, Alike R (call bytes) (call' bytes)) (related : R s t) (bytes : Nat) :
    AlikeReport R (byteCountLimiter direction l call s bytes)
      (byteCountLimiter direction l call' t bytes) := by
  cases direction with
  | bidirectional => exact .some ⟨rfl, related, rfl⟩
  | read =>
      refine rel_map (paired bytes) ?_
      rintro ⟨s, report⟩ ⟨t, _⟩ ⟨related, rfl⟩
      dsimp only
      split
      · exact ⟨rfl, related, rfl⟩
      · exact ⟨rfl, related, rfl⟩
  | write =>
      refine rel_map (paired (l.take bytes).2) ?_
      rintro ⟨s, report⟩ ⟨t, _⟩ ⟨related, rfl⟩
      dsimp only
      split
      · exact ⟨rfl, related, rfl⟩
      · exact ⟨rfl, related, rfl⟩

theorem timeLimiter_alike (state : TimeLimit)
    (paired : ∀ bytes, Alike R (call bytes) (call' bytes)) (related : R s t) (bytes : Nat) :
    AlikeReport R (timeLimiter state call s bytes) (timeLimiter state call' t bytes) := by
  cases state with
  | noinit =>
      refine rel_map (paired bytes) ?_
      rintro ⟨s, report⟩ ⟨t, _⟩ ⟨related, rfl⟩
      exact ⟨rfl, related, rfl⟩
  | running =>
      refine rel_map (paired bytes) ?_
      rintro ⟨s, report⟩ ⟨t, _⟩ ⟨related, rfl⟩
      exact ⟨rfl, related, rfl⟩
  | done => exact .some ⟨rfl, related, rfl⟩

theorem byteCounter_alike (counter : Option ByteCount)
    (paired : ∀ bytes, Alike R (call bytes) (call' bytes)) (bytes : Nat) :
    AlikeReport R (byteCounter counter call bytes) (byteCounter counter call' bytes) := by
  refine rel_map (paired bytes) ?_
  rintro ⟨s, report⟩ ⟨t, _⟩ ⟨related, rfl⟩
  exact ⟨rfl, related, rfl⟩

end Counts

/-- The buffer goes with the states. -/
def WithBuf (R : σ → σ' → Prop) (x : σ × List UInt8) (y : σ' × List UInt8) : Prop :=
  R x.1 y.1 ∧ x.2 = y.2

theorem countCall_alike (paired : Paired R next next') {s : σ} {t : σ'} (related : R s t)
    (a : FilterArgs) (bytes : Nat) :
    Alike (WithBuf R) (countCall next s a bytes) (countCall next' t a bytes) := by
  refine rel_map (paired s t { a with bytes := bytes } related) ?_
  rintro ⟨s, answer⟩ ⟨t, _⟩ ⟨related, rfl⟩
  exact ⟨⟨related, rfl⟩, rfl⟩

theorem AlikeReport.answer {x : Option (β × (σ × List UInt8) × Report)}
    {y : Option (β × (σ' × List UInt8) × Report)} (alike : AlikeReport (WithBuf R) x y) :
    AlikeObj R (x.map fun (obj, (s, buf), report) => (obj, s, report.answer buf))
      (y.map fun (obj, (s, buf), report) => (obj, s, report.answer buf)) := by
  refine rel_map alike ?_
  rintro ⟨obj, ⟨s, buf⟩, report⟩ ⟨_, ⟨t, _⟩, _⟩ ⟨rfl, ⟨related, rfl⟩, rfl⟩
  exact ⟨rfl, related, rfl⟩

section Calls

variable {s : σ} {t : σ'}

theorem byteCountLimiterCall_alike (direction : Direction) (l : ByteLimit)
    (paired : Paired R next next') (related : R s t) (a : FilterArgs) :
    AlikeObj R (byteCountLimiterCall direction l next s a)
      (byteCountLimiterCall direction l next' t a) := by
  have started : WithBuf R (s, a.buf) (t, a.buf) := ⟨related, rfl⟩
  exact (byteCountLimiter_alike direction l (countCall_alike paired related a) started
    a.bytes).answer

theorem timeLimiterCall_alike (state : TimeLimit) (paired : Paired R next next')
    (related : R s t) (a : FilterArgs) :
    AlikeObj R (timeLimiterCall state next s a) (timeLimiterCall state next' t a) := by
  have started : WithBuf R (s, a.buf) (t, a.buf) := ⟨related, rfl⟩
  exact (timeLimiter_alike state (countCall_alike paired related a) started a.bytes).answer

theorem byteCounterCall_alike (counter : Option ByteCount) (paired : Paired R next next')
    (related : R s t) (a : FilterArgs) :
    AlikeObj R (byteCounterCall counter next s a) (byteCounterCall counter next' t a) :=
  (byteCounter_alike counter (countCall_alike paired related a) a.bytes).answer

end Calls

theorem conversion_alike [Inhabited D] (k : Samples D) (enabled : Bool) (direction : Direction)
    (g : Gcb D) (paired : Paired R next next') {s : σ} {t : σ'} (related : R s t)
    (a : FilterArgs) :
    AlikeObj R (iqTypeConversion k enabled direction g next s a)
      (iqTypeConversion k enabled direction g next' t a) := by
  unfold iqTypeConversion
  split
  · exact alike_withObj (paired s t a related) g
  · cases direction with
    | bidirectional => exact .some ⟨rfl, related, rfl⟩
    | write =>
        simp only [conversionWrite, Option.bind_eq_bind]
        cases (g.resize a.bytes).transfer k a.bytes a.buf (g.resize a.bytes).buf with
        | none => exact .none
        | some converted =>
            rw [Option.bind_some, Option.bind_some]
            refine rel_bind (paired s t _ related) ?_
            rintro ⟨s, answer⟩ ⟨t, _⟩ ⟨related, rfl⟩
            exact .some ⟨rfl, related, rfl⟩
    | read =>
        simp only [conversionRead, Option.bind_eq_bind]
        refine rel_bind (paired s t _ related) ?_
        rintro ⟨s, answer⟩ ⟨t, _⟩ ⟨related, rfl⟩
        dsimp only
        cases (g.resize a.bytes).transfer k answer.bytes answer.buf a.buf with
        | none => exact .none
        | some converted => exact .some ⟨rfl, related, rfl⟩

theorem feedbackMetricFn_alike {metric : NextCall σ} {metric' : NextCall σ'}
    (metrics : Paired R metric metric') (paired : Paired R next next') :
    Paired R (feedbackMetricFn metric next) (feedbackMetricFn metric' next') := by
  intro s t a related
  refine rel_bind (metrics s t a related) ?_
  rintro ⟨s, answer⟩ ⟨t, _⟩ ⟨related, rfl⟩
  dsimp only
  split
  · exact paired s t _ related
  · exact .some ⟨related, rfl⟩

/-- The rounds of two loops go side by side. -/
theorem controllerLoop_alike (paired : Paired R next next') (a : FilterArgs) (fuel : Nat) :
    ∀ {s : σ} {t : σ'}, R s t → ∀ area,
      Alike R (controllerLoop next a fuel s area) (controllerLoop next' a fuel t area) := by
  induction fuel with
  | zero => exact fun _ _ => .none
  | succ fuel ih =>
      intro s t related area
      simp only [controllerLoop, Option.bind_eq_bind]
      cases memcpy area a.buf a.bytes with
      | none => exact .none
      | some buf =>
          rw [Option.bind_some, Option.bind_some]
          refine rel_bind (paired s t _ related) ?_
          rintro ⟨s, answer⟩ ⟨t, _⟩ ⟨related, rfl⟩
          dsimp only
          split
          · exact ih related answer.buf
          · exact .some ⟨related, rfl⟩

theorem feedbackControllerFn_alike (direction : Direction) (fuel : Nat) {reset : σ → σ}
    {reset' : σ' → σ'} (resets : ∀ s t, R s t → R (reset s) (reset' t)) (fb : FbCtl)
    (paired : Paired R next next') {s : σ} {t : σ'} (related : R s t) (a : FilterArgs) :
    AlikeObj R (feedbackControllerFn direction fuel reset next fb s a)
      (feedbackControllerFn direction fuel reset' next' fb t a) := by
  unfold feedbackControllerFn
  split
  · exact .some ⟨rfl, related, rfl⟩
  · simp only [Option.bind_eq_bind]
    refine rel_bind (controllerLoop_alike paired a fuel related (fb.area a.bytes)) ?_
    rintro ⟨s, answer⟩ ⟨t, _⟩ ⟨related, rfl⟩
    exact .some ⟨rfl, resets s t related, rfl⟩

end Functions

/-! ## Two chains -/

section Pairs

variable {κ D μ τ : Type} [DecidableEq κ]

/-- The second chain is the first one without the filter at the place, which is disabled and tests
for that. -/
def Lacks (i : Nat) (chain chain' : List (Link D)) : Prop :=
  ∃ before f after, chain = before ++ f :: after ∧ chain' = before ++ after ∧
    before.length = i ∧ f.enabled = false ∧ f.fn.testsEnabled = true

/-- The chains of the two runs, with everything else the same. -/
def Without (i : Nat) (s t : ChainState κ D μ τ) : Prop := Lacks i s.1 t.1 ∧ s.2 = t.2

variable {P : Parts κ D μ τ} {fuel i : Nat} {next next' : NextCall (ChainState κ D μ τ)}

theorem rotateFn_alike (c : File.FileCall) (fd : Nat) (paired : Paired (Without i) next next') :
    Paired (Without i) (rotateFn P c fd next) (rotateFn P c fd next') := by
  rintro ⟨chain, w⟩ ⟨chain', _⟩ a ⟨lacks, rfl⟩
  unfold rotateFn
  dsimp only
  cases w.files.call P.host (fd, c) with
  | none => exact .none
  | some result =>
      rw [Option.bind_some, Option.bind_some]
      refine rel_map (paired (chain, _) (chain', _) a ⟨lacks, rfl⟩) ?_
      rintro ⟨s, answer⟩ ⟨t, _⟩ ⟨related, rfl⟩
      exact ⟨related, rfl⟩

omit [DecidableEq κ] in
theorem metricCall_alike (metric : Nat) :
    Paired (Without i) (metricCall P metric) (metricCall P metric) := by
  rintro ⟨chain, w⟩ ⟨chain', _⟩ a ⟨lacks, rfl⟩
  unfold metricCall
  dsimp only
  cases P.metric metric (w.metrics metric) a with
  | none => exact .none
  | some result => exact .some ⟨⟨lacks, rfl⟩, rfl⟩

/-- **One filter.** Every filter of a chain answers alike over two chains that do. -/
theorem Link.call_alike [Inhabited D] (g : Link D) (paired : Paired (Without i) next next')
    {s t : ChainState κ D μ τ} (related : Without i s t) (a : FilterArgs) :
    AlikeObj (Without i) (g.call P fuel next s a) (g.call P fuel next' t a) := by
  unfold Link.call
  cases g.fn with
  | byteCountLimiter l =>
      exact AlikeObj.map (iofDisabled_alike paired related
        (byteCountLimiterCall_alike g.direction l paired related a)) fun l =>
          { g with fn := .byteCountLimiter l }
  | timeLimiter state =>
      exact AlikeObj.map (iofDisabled_alike paired related
        (timeLimiterCall_alike state paired related a)) fun state =>
          { g with fn := .timeLimiter state }
  | byteCounter counter =>
      exact AlikeObj.map (iofDisabled_alike paired related
        (byteCounterCall_alike counter paired related a)) fun counter =>
          { g with fn := .byteCounter counter }
  | iqTypeConversion c =>
      exact (conversion_alike P.samples g.enabled g.direction c paired related a).map fun c =>
        { g with fn := .iqTypeConversion c }
  | fileRotateFn fd => exact alike_withObj (rotateFn_alike .rotate fd paired s t a related) g
  | dirRotateFn fd => exact alike_withObj (rotateFn_alike .rotateDir fd paired s t a related) g
  | feedbackControllerFn fb metric =>
      have resets : ∀ s t, Without i s t → Without i (resetMetric P metric s)
          (resetMetric P metric t) := by
        rintro ⟨chain, w⟩ ⟨chain', _⟩ ⟨lacks, rfl⟩
        exact ⟨lacks, rfl⟩
      exact (feedbackControllerFn_alike g.direction fuel resets fb paired related a).map fun fb =>
        { g with fn := .feedbackControllerFn fb metric }
  | feedbackMetricFn metric =>
      exact alike_withObj
        (feedbackMetricFn_alike (metricCall_alike metric) paired s t a related) g

/-- A disabled filter that tests for it calls the next one and stays as it is. -/
theorem Link.call_disabled [Inhabited D] {f : Link D} (disabled : f.enabled = false)
    (tests : f.fn.testsEnabled = true) (next : NextCall (ChainState κ D μ τ))
    (s : ChainState κ D μ τ) (a : FilterArgs) :
    f.call P fuel next s a = (next s a).map fun (s, answer) => (f, s, answer) := by
  obtain ⟨addr, name, enabled, direction, fn⟩ := f
  obtain rfl : enabled = false := disabled
  unfold Link.call
  cases fn with
  | byteCountLimiter l => simp [iofDisabled, Function.comp_def]
  | timeLimiter state => simp [iofDisabled, Function.comp_def]
  | byteCounter counter => simp [iofDisabled, Function.comp_def]
  | iqTypeConversion g => simp [iqTypeConversion, Function.comp_def]
  | _ => cases tests

/-- **The whole chain.** The induction is on the place of the disabled filter; the filters in front
of it find the chains behind them alike. -/
theorem callChain_alike [Inhabited D] {n : Nat} (short : i ≤ n) :
    Paired (Without i) (callChain P fuel (n + 1)) (callChain P fuel n) := by
  induction i generalizing n with
  | zero =>
      rintro ⟨chain, w⟩ ⟨chain', _⟩ a ⟨⟨before, f, after, whole, rest, front, disabled, tests⟩, rfl⟩
      obtain rfl : before = [] := List.length_eq_zero_iff.mp front
      obtain rfl : chain = f :: after := whole
      obtain rfl : chain' = after := rest
      simp only [callChain, Link.call_disabled disabled tests, Option.map_map]
      cases callChain P fuel n (chain', w) a with
      | none => exact .none
      | some result => exact .some ⟨⟨⟨[], f, _, rfl, rfl, rfl, disabled, tests⟩, rfl⟩, rfl⟩
  | succ i ih =>
      obtain ⟨n, rfl⟩ : ∃ m, n = m + 1 := ⟨n - 1, by omega⟩
      rintro ⟨chain, w⟩ ⟨chain', _⟩ a ⟨⟨before, f, after, whole, rest, front, disabled, tests⟩, rfl⟩
      obtain ⟨g, before, rfl⟩ := List.exists_cons_of_length_eq_add_one front
      obtain rfl : chain = g :: (before ++ f :: after) := whole
      obtain rfl : chain' = g :: (before ++ after) := rest
      have behind : Without i (before ++ f :: after, w) (before ++ after, w) :=
        ⟨⟨before, f, after, rfl, rfl, by simpa using front, disabled, tests⟩, rfl⟩
      refine rel_map (g.call_alike (ih (by omega)) behind a) ?_
      rintro ⟨g, ⟨chain, w⟩, answer⟩ ⟨_, ⟨chain', _⟩, _⟩ ⟨rfl, ⟨lacks, rfl⟩, rfl⟩
      obtain ⟨before, f, after, rfl, rfl, front, disabled, tests⟩ := lacks
      exact ⟨⟨⟨g :: before, f, after, rfl, rfl, by simp [front], disabled, tests⟩, rfl⟩, rfl⟩

omit [DecidableEq κ] in
theorem Link.expire_enabled (addr : Nat) (f : Link D) :
    (f.expire addr).enabled = f.enabled ∧ (f.expire addr).fn.testsEnabled = f.fn.testsEnabled := by
  unfold Link.expire
  split
  · next limiter =>
      split
      · exact ⟨rfl, by rw [limiter]; rfl⟩
      · exact ⟨rfl, rfl⟩
  · exact ⟨rfl, rfl⟩

/-- **One event.** -/
theorem chainEvent_alike [Inhabited D] {s t : ChainState κ D μ τ} (related : Without i s t)
    (e : ChainEvent) : Alike (Without i) (chainEvent P fuel s e) (chainEvent P fuel t e) := by
  obtain ⟨chain, w⟩ := s
  obtain ⟨chain', _⟩ := t
  obtain ⟨⟨before, f, after, rfl, rfl, front, disabled, tests⟩, rfl⟩ := related
  cases e with
  | call a =>
      have longer : (before ++ f :: after).length = (before ++ after).length + 1 := by
        simp [Nat.add_assoc]
      have short : i ≤ (before ++ after).length := by
        rw [List.length_append]
        omega
      have started : Without i (before ++ f :: after, w) (before ++ after, w) :=
        ⟨⟨before, f, after, rfl, rfl, front, disabled, tests⟩, rfl⟩
      simp only [chainEvent, longer]
      refine rel_map (callChain_alike short _ _ a started) ?_
      rintro ⟨s, answer⟩ ⟨t, _⟩ ⟨related, rfl⟩
      exact ⟨related, rfl⟩
  | expire addr =>
      obtain ⟨enabled, testing⟩ := f.expire_enabled addr
      refine .some ⟨⟨⟨before.map (Link.expire addr), f.expire addr, after.map (Link.expire addr),
        ?_, ?_, ?_, enabled.trans disabled, testing.trans tests⟩, rfl⟩, rfl⟩
      · simp
      · simp
      · simpa using front

omit [DecidableEq κ] in
/-- The chain after `io_filter_disable` and the chain without the filter. -/
theorem lacks_disabled {behind : Nat → List Char} {chain : List (Link D)} {start : Nat}
    {name : Option (List Char)} {f : Link D}
    (found : disableTarget behind chain start name = some i) (there : chain[i]? = some f)
    (tests : f.fn.testsEnabled = true) :
    Lacks i (ioFilterDisable behind chain start name) (chain.eraseIdx i) := by
  obtain ⟨inside, here⟩ := List.getElem?_eq_some_iff.mp there
  refine ⟨chain.take i, { f with enabled := false }, chain.drop (i + 1), ?_, ?_, ?_, rfl, tests⟩
  · simp only [ioFilterDisable, found]
    rw [List.modify_eq_take_cons_drop inside, here]
  · exact List.eraseIdx_eq_take_drop_succ ..
  · rw [List.length_take]
    omega

omit [DecidableEq κ] in
theorem Without.erase {s t : ChainState κ D μ τ} (related : Without i s t) :
    (s.1.eraseIdx i, s.2) = t := by
  obtain ⟨chain, w⟩ := s
  obtain ⟨chain', _⟩ := t
  obtain ⟨⟨before, f, after, rfl, rfl, rfl, _⟩, rfl⟩ := related
  simp [List.eraseIdx_append_of_length_le]

/-- **Filters that test the field, with a name that fits, can be removed.** -/
theorem removable_of_tests [Inhabited D] {f : Link D} (tests : f.fn.testsEnabled = true)
    (short : f.name.length < ioMaxNameLen) : Removable f := by
  intro κ μ τ _ P fuel behind chain w start name i events call
  have related : Without i (ioFilterDisable behind chain start name, w) (chain.eraseIdx i, w) :=
    ⟨lacks_disabled (call.target short) call.there tests, rfl⟩
  have one : ∀ s t e, Without i s t →
      Alike (Without i) (chainEvent P fuel s e) (chainEvent P fuel t e) :=
    fun _ _ e related => chainEvent_alike related e
  have runs := runCalls_alike one related events
  generalize runCalls (chainEvent P fuel) (ioFilterDisable behind chain start name, w) events = x
    at runs
  generalize runCalls (chainEvent P fuel) (chain.eraseIdx i, w) events = y at runs
  cases runs with
  | none => rfl
  | some ends =>
      obtain ⟨related, log⟩ := ends
      exact congrArg some (Prod.ext related.erase log)

/-- One call through a chain of the filter alone, disabled, and one at the terminal. -/
theorem Removable.alone [Inhabited D] {f : Link D} (removable : Removable f)
    (P : Parts κ D μ τ) (w : Outside κ μ τ) (a : FilterArgs) :
    ((Link.call P 1 { f with enabled := false } (terminalCall P) ([], w) a).map
        fun (_, s, answer) => (s.2, answer)) =
      (terminalCall P ([], w) a).map fun (s, answer) => (s.2, answer) := by
  have same := removable κ μ τ P 1 (fun _ => []) [f] w 0 none 0 [.call a] (.itself rfl)
  have chain : ioFilterDisable (fun _ => []) [f] 0 none = [{ f with enabled := false }] := rfl
  rw [chain] at same
  cases left : Link.call P 1 { f with enabled := false } (terminalCall P) ([], w) a <;>
    cases right : terminalCall P ([], w) a <;>
    simp [runCalls, chainEvent, callChain, left, right] at same ⊢
  exact ⟨congrArg Prod.snd same.1, same.2⟩

end Pairs

/-! ## Filters that do not test the field -/

section Untested

variable {D : Type}

/-- A file machine with an index in its names. -/
def indexedDesc : File.FileDesc where
  rootDir := ['d']
  fileTag := ['f']
  flags := { write := true, index := true }
  basedirIndex := 0

/-- A terminal that takes what it is given, and a metric that answers with `IO_BREAK`. -/
def plainParts [Inhabited D] : Parts Unit D Bool Unit where
  host := { resolve := fun _ _ => none }
  samples :=
    { toDouble := fun _ _ => default
      ofDouble := fun t _ => List.replicate t.dataSize 0
      ofDouble_length := fun _ _ => List.length_replicate
      product := fun d _ => d
      quotient := fun d _ => d }
  metric := fun _ x a => some (x, { status := .brk, buf := a.buf, bytes := a.bytes })
  reset := fun _ _ => true
  unreturned := id
  terminal := fun x files a =>
    some (x, files, { status := .success, buf := a.buf, bytes := a.bytes })

/-- File machines up to the given one, and metrics that were not reset. -/
def plainOutside (fd : Nat) : Outside Unit Bool Unit where
  metrics := fun _ => false
  files := { world := { disk := fun _ => none }, descs := List.replicate (fd + 1) indexedDesc }
  terminal := ()

/-- **No other filter can be removed.** A rotation filter still rotates, a metric still answers
instead of the terminal, and a controller resets the metric, or refuses to be called in a read. -/
theorem tests_of_removable [Inhabited D] {f : Link D} (removable : Removable f) :
    f.fn.testsEnabled = true := by
  obtain ⟨addr, name, enabled, direction, fn⟩ := f
  have alone := fun fd => removable.alone plainParts (plainOutside fd) { buf := [], bytes := 0 }
  cases fn with
  | byteCountLimiter l => rfl
  | timeLimiter state => rfl
  | byteCounter counter => rfl
  | iqTypeConversion g => rfl
  | fileRotateFn fd =>
      have files := congrArg
        (Option.map fun x => x.1.files.descs[fd]?.map File.FileDesc.fileIndex) (alone fd)
      simp [Link.call, fileRotateFn, rotateFn, File.Machines.call, plainOutside, File.fileCall,
        terminalCall, plainParts, File.rotateWfile, indexedDesc] at files
  | dirRotateFn fd =>
      have files := congrArg
        (Option.map fun x => x.1.files.descs[fd]?.map File.FileDesc.basedirIndex) (alone fd)
      simp [Link.call, dirRotateFn, rotateFn, File.Machines.call, plainOutside, File.fileCall,
        terminalCall, plainParts, File.rotateBasedir, indexedDesc] at files
  | feedbackControllerFn fb metric =>
      by_cases reads : direction = .read
      · have inputs := congrArg (Option.map fun x => x.1.inputs) (alone 0)
        simp [Link.call, feedbackControllerFn, reads, terminalCall, plainParts, plainOutside]
          at inputs
      · have reset := congrArg (Option.map fun x => x.1.metrics metric) (alone 0)
        simp [Link.call, feedbackControllerFn, reads, controllerLoop, memcpy, resetMetric,
          terminalCall, plainParts, plainOutside] at reset
  | feedbackMetricFn metric =>
      have inputs := congrArg (Option.map fun x => x.1.inputs) (alone 0)
      simp [Link.call, feedbackMetricFn, metricCall, terminalCall, plainParts, plainOutside]
        at inputs

/-- The name of a filter that can be removed fits. With a longer one, `io_filter_disable` takes a
filter in front of it, of which the same 64 characters were kept, for the one that is meant. -/
theorem short_of_removable [Inhabited D] {f : Link D} (removable : Removable f) :
    f.name.length < ioMaxNameLen := by
  by_contra long
  let behind : Nat → List Char := fun _ => f.name.drop ioMaxNameLen
  let g : Link D := { f with name := f.name ++ ['x'], enabled := true }
  have stored : g.storedName behind = f.name := by
    have longer : ioMaxNameLen ≤ g.name.length := by
      simp only [g, List.length_append]
      omega
    rw [Link.storedName_of_le longer]
    show (f.name ++ ['x']).take ioMaxNameLen ++ f.name.drop ioMaxNameLen = f.name
    rw [List.take_append_of_le_length (by omega), List.take_append_drop]
  have found : disableTarget behind [g, f] 0 (some f.name) = some 0 := by
    simp [disableTarget, getIoFilter, List.findIdx?_cons, stored]
  have call : DisableOf [g, f] 1 f 0 (some f.name) := by
    refine .byName rfl (Nat.zero_le _) fun j _ earlier g' there => ?_
    obtain rfl : j = 0 := by omega
    obtain rfl : g = g' := Option.some.inj there
    simp [g]
  have same := removable Unit Bool Unit plainParts 1 behind [g, f] (plainOutside 0) 0 _ 1 [] call
  have others := congrArg (Option.map fun x => x.1.1.map Link.enabled) same
  simp [runCalls, ioFilterDisable, found, g] at others

end Untested

/-- **Disabling a filter equals removing it exactly when its function tests the field and its name
fits.** For every filter: in all chains, over all terminals, metrics and file machines, and in all
runs, the chain with the filter disabled does what the chain without it does if and only if the
filter is a byte count limiter, a time limiter, a byte counter or a conversion, and was created with
a name of fewer than 64 characters. -/
theorem disabling_removes_iff {D : Type} [Inhabited D] (f : Link D) :
    Removable f ↔ f.fn.testsEnabled = true ∧ f.name.length < ioMaxNameLen :=
  ⟨fun removable => ⟨tests_of_removable removable, short_of_removable removable⟩,
    fun condition => removable_of_tests condition.1 condition.2⟩

/-- A filter with a name of 64 characters is not found by it, unless a NUL follows the field. -/
example : disableTarget (fun _ => ['x'])
    [({ addr := 1, name := List.replicate 64 'a', fn := .timeLimiter .noinit } : Link Unit)] 0
      (some (List.replicate 64 'a')) = none := by
  decide

/-- A rotation filter for the first file machine. -/
def rotation : Link Unit where
  addr := 1
  name := ['r']
  direction := .write
  fn := .fileRotateFn 0

/-- The rotation filter in front of a terminal, disabled by its name: with the first call the index
of the file goes on, and without the filter it does not. -/
theorem disabled_rotation_rotates :
    disableTarget (fun _ => []) [rotation] 0 (some ['r']) = some 0 ∧
      ((runCalls (chainEvent plainParts 1) (ioFilterDisable (fun _ => []) [rotation] 0 (some ['r']),
          plainOutside 0) [.call { buf := [7], bytes := 1 }]).map
            fun ((chain, w), log) => ((chain.eraseIdx 0, w), log)) ≠
        runCalls (chainEvent plainParts 1) ([], plainOutside 0)
          [.call { buf := [7], bytes := 1 }] := by
  refine ⟨rfl, fun same => ?_⟩
  have indices := congrArg (Option.map fun x => x.1.2.files.descs.map File.FileDesc.fileIndex) same
  revert indices
  decide

end Bingewatch.Filter
