import Bingewatch.Foundation.Transition
import Bingewatch.Filter.Chains

/-!
# Feedback loops

A feedback loop is a controller and a metric in the chain of write filters. The controller calls
the filters behind it again and again, with a copy of its caller's data, as long as `IO_CONTINUE`
comes back; the metric stands further down and answers `IO_CONTINUE` when another round is wanted.
What comes back goes through every filter between the two, and a controller does not see whose
`IO_CONTINUE` it is.

A write is run here one call and one return at a time. The filters that are not of `src/filter.c`
may call the next filter as often as they like and answer what they like, but they pass on at once
what is not `IO_SUCCESS`, as the `IO_FILTER_HANDLE` macros do. The machine's own filter calls no
other one, as no write function of a machine does: a metric behind it is never asked. Every other
metric is heard by the nearest controller in front of it (`Filters.hearer`), so a loop keeps its
retries exactly when the filter it is put behind has no controller at or in front of it, or is the
machine's own one or behind that (`loops_keep_retries_iff`).
-/

set_option autoImplicit false

namespace Bingewatch.Filter

open Foundation Machine

/-- The loop of an installation: its controller and its metric. -/
def Installed.loop? (i : Installed) : Option (Nat × Nat) :=
  match i.front, i.wrapper with
  | c :: _, some (_, w) => some (c, w)
  | _, _ => none

/-! ## A write through the chain -/

/-- What is seen of a loop during a write: its metric asks for another round, its controller starts
one, its controller is finished, a reset function is called. -/
inductive LoopEvent where
  | continued (metric : Nat)
  | reran (controller : Nat)
  | finished (controller : Nat)
  | reset (fn : Nat) (arg : FilterObj)
  deriving DecidableEq, Repr

/-- A filter is called with some data, or a status goes back to the filter that called. -/
inductive WriteAt where
  | calling (filter : Nat) (data : List UInt8)
  | returning (status : IoStatus)
  deriving DecidableEq, Repr

/-- A write on its way: the filters that have called the next one, the latest first, each with the
data it was called with. -/
structure FeedbackWrite where
  place : WriteAt
  frames : List (Nat × List UInt8) := []
  log : List LoopEvent := []
  deriving DecidableEq, Repr

/-- The filters that have called the next one, in the order of the chain. -/
def FeedbackWrite.path (s : FeedbackWrite) : List Nat := (s.frames.map Prod.fst).reverse

/-- What happens next: a filter or a metric answers, a filter calls the next one with data of its
choice, or the code of `src/filter.c` goes on. -/
inductive WriteAction where
  | answer (status : IoStatus)
  | callNext (data : List UInt8)
  | go
  deriving DecidableEq, Repr

namespace Filters

variable (m : Filters) (terminal : Nat)

/-- The next filter is called. The machine's own filter calls none. -/
def callNext (s : FeedbackWrite) (f : Nat) (data passed : List UInt8) : Option FeedbackWrite :=
  if f = terminal ∨ m.next f = 0 then none
  else some { s with place := .calling (m.next f) passed, frames := (f, data) :: s.frames }

/-- A filter is called. -/
def enter (s : FeedbackWrite) (f : Nat) (data : List UInt8) (a : WriteAction) :
    Option FeedbackWrite :=
  match (m.cell f).call, a with
  | .given _, .answer status => some { s with place := .returning status }
  | .given _, .callNext passed => m.callNext terminal s f data passed
  | .feedbackMetricFn, .answer status =>
      if status = .success then m.callNext terminal s f data data
      else
        some { s with
          place := .returning status
          log := s.log ++ if status = .cont then [.continued f] else [] }
  | .feedbackControllerFn, .go =>
      if (m.cell f).direction = .read then some { s with place := .returning .error }
      else m.callNext terminal s f data data
  | _, _ => none

/-- A controller leaves its loop: it calls the reset function of its metric and returns. -/
def finish (s : FeedbackWrite) (f : Nat) (rest : List (Nat × List UInt8)) (status : IoStatus) :
    Option FeedbackWrite :=
  match (m.cell f).obj with
  | .ctl resetFn resetArg =>
      if resetFn = 0 then none
      else
        some {
          place := .returning (if status = .brk then .success else status)
          frames := rest
          log := s.log ++ [.finished f, .reset resetFn resetArg] }
  | _ => none

/-- A status comes back to a filter, whose call is the first of the frames. -/
def resume (s : FeedbackWrite) (f : Nat) (data : List UInt8) (rest : List (Nat × List UInt8))
    (status : IoStatus) (a : WriteAction) : Option FeedbackWrite :=
  match (m.cell f).call, a with
  | .given _, .answer status' =>
      if status = .success then some { s with place := .returning status', frames := rest }
      else none
  | .given _, .callNext passed =>
      if status = .success then m.callNext terminal { s with frames := rest } f data passed
      else none
  | .given _, .go =>
      if status = .success then none else some { s with frames := rest }
  | .feedbackMetricFn, .go => some { s with frames := rest }
  | .feedbackControllerFn, .go =>
      if status = .cont then
        m.callNext terminal { s with frames := rest, log := s.log ++ [.reran f] } f data data
      else m.finish s f rest status
  | _, _ => none

/-- One step of a write. -/
def writeStep (s : FeedbackWrite) (a : WriteAction) : Option FeedbackWrite :=
  match s.place, s.frames with
  | .calling f data, _ => m.enter terminal s f data a
  | .returning status, (f, data) :: rest => m.resume terminal s f data rest status a
  | .returning _, [] => none

/-- The writes to a machine. -/
def writes (h : Nat) : System FeedbackWrite WriteAction where
  start s := ∃ head data, m.obj h .write = some head ∧ s = { place := .calling head data }
  step := m.writeStep terminal

/-! ## What a step can do -/

/-- The filter is the controller of a loop. -/
def isController (f : Nat) : Bool := (m.cell f).call = .feedbackControllerFn

/-- The steps of a write. -/
inductive Move (s : FeedbackWrite) : FeedbackWrite → Prop where
  | down {f : Nat} {data passed : List UInt8} (here : s.place = .calling f data)
      (passes : f ≠ terminal) (more : m.next f ≠ 0) :
      Move s { s with place := .calling (m.next f) passed, frames := (f, data) :: s.frames }
  | again {f : Nat} {data passed : List UInt8} {rest : List (Nat × List UInt8)}
      (back : s.place = .returning .success) (caller : s.frames = (f, data) :: rest)
      (more : m.next f ≠ 0) :
      Move s { s with place := .calling (m.next f) passed }
  | rerun {f : Nat} {data : List UInt8} {rest : List (Nat × List UInt8)}
      (back : s.place = .returning .cont) (caller : s.frames = (f, data) :: rest)
      (controller : m.isController f) (more : m.next f ≠ 0) :
      Move s { s with place := .calling (m.next f) data, log := s.log ++ [.reran f] }
  | answer {f : Nat} {data : List UInt8} {status : IoStatus} (here : s.place = .calling f data) :
      Move s { s with place := .returning status }
  | continued {f : Nat} {data : List UInt8} (here : s.place = .calling f data) :
      Move s { s with place := .returning .cont, log := s.log ++ [.continued f] }
  | up {f : Nat} {data : List UInt8} {rest : List (Nat × List UInt8)} {status status' : IoStatus}
      (back : s.place = .returning status) (caller : s.frames = (f, data) :: rest)
      (passes : status = .success ∨ status' = status ∧ m.isController f = false) :
      Move s { s with place := .returning status', frames := rest }
  | finish {f : Nat} {data : List UInt8} {rest : List (Nat × List UInt8)}
      {status status' : IoStatus} {resetFn : Nat} {resetArg : FilterObj}
      (back : s.place = .returning status)
      (caller : s.frames = (f, data) :: rest) (controller : m.isController f)
      (ended : status ≠ .cont) (obj : (m.cell f).obj = .ctl resetFn resetArg) :
      Move s { place := .returning status', frames := rest
               log := s.log ++ [.finished f, .reset resetFn resetArg] }

variable {m} {terminal : Nat}

theorem enter_move {s t : FeedbackWrite} {f : Nat} {data : List UInt8} {a : WriteAction}
    (here : s.place = .calling f data) (step : m.enter terminal s f data a = some t) :
    m.Move terminal s t := by
  have down : ∀ {passed}, m.callNext terminal s f data passed = some t → m.Move terminal s t := by
    intro passed called
    unfold callNext at called
    split at called
    · cases called
    · next more =>
        cases called
        exact .down here (fun same => more (.inl same)) fun null => more (.inr null)
  unfold enter at step
  split at step
  · cases step
    exact .answer here
  · exact down step
  · split at step
    · exact down step
    · next other =>
        cases step
        split
        · next isCont =>
            subst isCont
            exact .continued here
        · rw [List.append_nil]
          exact .answer here
  · split at step
    · cases step
      exact .answer here
    · exact down step
  · cases step

theorem resume_move {s t : FeedbackWrite} {f : Nat} {data : List UInt8}
    {rest : List (Nat × List UInt8)} {status : IoStatus} {a : WriteAction}
    (back : s.place = .returning status) (caller : s.frames = (f, data) :: rest)
    (step : m.resume terminal s f data rest status a = some t) : m.Move terminal s t := by
  obtain ⟨place, frames, log⟩ := s
  obtain rfl : place = .returning status := back
  obtain rfl : frames = (f, data) :: rest := caller
  unfold resume at step
  split at step
  · next given =>
      split at step
      · next succeeded =>
          cases step
          exact .up rfl rfl (.inl succeeded)
      · cases step
  · split at step
    · next succeeded =>
        unfold callNext at step
        split at step
        · cases step
        · next more =>
            cases step
            subst succeeded
            exact .again rfl rfl fun null => more (.inr null)
    · cases step
  · next given =>
      split at step
      · cases step
      · cases step
        exact .up rfl rfl (.inr ⟨rfl, by simp [isController, given]⟩)
  · next metric =>
      cases step
      exact .up rfl rfl (.inr ⟨rfl, by simp [isController, metric]⟩)
  · next controller =>
      split at step
      · next isCont =>
          unfold callNext at step
          split at step
          · cases step
          · next more =>
              cases step
              subst isCont
              exact .rerun rfl rfl (by simp [isController, controller]) fun null =>
                more (.inr null)
      · next other =>
          unfold Filters.finish at step
          split at step
          · next obj =>
              split at step
              · cases step
              · cases step
                exact .finish rfl rfl (by simp [isController, controller]) other obj
          · cases step
  · cases step

theorem writeStep_move {s t : FeedbackWrite} {a : WriteAction}
    (step : m.writeStep terminal s a = some t) : m.Move terminal s t := by
  unfold writeStep at step
  split at step
  · next here => exact enter_move here step
  · next back caller => exact resume_move back caller step
  · cases step

/-! ## Who hears a metric -/

variable (m) in
/-- The nearest controller in front of a filter of a chain. -/
def hearer (chain : List Nat) (w : Nat) : Option Nat :=
  ((chain.takeWhile (· ≠ w)).filter m.isController).getLast?

variable (m) (terminal) in
/-- What holds in every write through a chain. The filters that are waiting are those in front of
the one that is called, and the machine's own filter is none of them. When the last thing that
happened was a metric asking for another round, the metric is in front of the machine's own filter,
and this status is on its way to the nearest controller in front of that metric. A reset function is
called by the controller it was given to, which has just finished. -/
structure WriteInv (chain : List Nat) (s : FeedbackWrite) : Prop where
  calling : ∀ f data, s.place = .calling f data → ∃ rest, chain = s.path ++ f :: rest
  waiting : ∃ rest, chain = s.path ++ rest
  passing : terminal ∉ s.path
  asked : ∀ w, s.log.getLast? = some (.continued w) → terminal ∉ chain.takeWhile (· ≠ w)
  heard : ∀ w, s.log.getLast? = some (.continued w) →
    s.place = .returning .cont ∧ (s.path.filter m.isController).getLast? = m.hearer chain w
  resets : ∀ before fn arg after, s.log = before ++ .reset fn arg :: after →
    ∃ c before', before = before' ++ [.finished c] ∧ m.isController c ∧
      (m.cell c).obj = .ctl fn arg

/-- The part of a chain in front of a filter. -/
theorem takeWhile_ne_append {front rest : List Nat} {w : Nat} (others : ∀ x ∈ front, x ≠ w) :
    (front ++ w :: rest).takeWhile (· ≠ w) = front := by
  rw [List.takeWhile_append_of_pos (by simpa using others)]
  simp

/-- The filter behind one of a chain is its next one. -/
theorem next_of_chain {head f : Nat} {front rest : List Nat}
    (chain : Chain m.next head (front ++ f :: rest) 0) (more : m.next f ≠ 0) :
    ∃ rest', rest = m.next f :: rest' := by
  obtain ⟨_, -, rfl, tail⟩ := chain_append.mp chain
  cases rest with
  | nil => exact absurd tail more
  | cons g rest => exact ⟨rest, by rw [tail.start_eq_head]⟩

theorem WriteInv.start {chain : List Nat} {head : Nat} (data : List UInt8)
    (first : Chain m.next head chain 0) (nonempty : chain ≠ []) :
    m.WriteInv terminal chain { place := .calling head data } where
  calling := by
    intro f data' here
    obtain ⟨rfl, -⟩ : head = f ∧ data = data' := by simpa using here
    cases chain with
    | nil => exact absurd rfl nonempty
    | cons x rest => exact ⟨rest, by rw [first.start_eq_head]; rfl⟩
  waiting := ⟨chain, rfl⟩
  passing := by simp [FeedbackWrite.path]
  asked := by simp
  heard := by simp
  resets := by simp

/-- The filter whose frame is on top stands in the chain behind the frames below it. -/
theorem FeedbackWrite.path_of_frames {s : FeedbackWrite} {f : Nat} {data : List UInt8}
    {rest : List (Nat × List UInt8)} (caller : s.frames = (f, data) :: rest) :
    s.path = (rest.map Prod.fst).reverse ++ [f] := by
  simp [FeedbackWrite.path, caller]

/-- A filter that calls the one behind it a second time finds the same filter there. -/
theorem WriteInv.behind {chain : List Nat} {head : Nat} {s : FeedbackWrite}
    (linked : Chain m.next head chain 0) (inv : m.WriteInv terminal chain s) {f : Nat}
    {data : List UInt8} {rest : List (Nat × List UInt8)} (caller : s.frames = (f, data) :: rest)
    (more : m.next f ≠ 0) : ∃ rest', chain = s.path ++ m.next f :: rest' := by
  obtain ⟨behind, split⟩ := inv.waiting
  have split' : chain = (rest.map Prod.fst).reverse ++ f :: behind := by
    rw [split, FeedbackWrite.path_of_frames caller]
    simp
  obtain ⟨rest', rfl⟩ := next_of_chain (split' ▸ linked) more
  exact ⟨rest', split⟩

/-- When the filter on top has returned, the chain goes on from it. -/
theorem WriteInv.returned {chain : List Nat} {s : FeedbackWrite} (inv : m.WriteInv terminal chain s)
    {f : Nat} {data : List UInt8} {rest : List (Nat × List UInt8)}
    (caller : s.frames = (f, data) :: rest) :
    ∃ behind, chain = (rest.map Prod.fst).reverse ++ behind := by
  obtain ⟨behind, split⟩ := inv.waiting
  refine ⟨f :: behind, ?_⟩
  rw [split, FeedbackWrite.path_of_frames caller]
  simp

theorem WriteInv.passing_rest {chain : List Nat} {s : FeedbackWrite}
    (inv : m.WriteInv terminal chain s) {f : Nat} {data : List UInt8}
    {rest : List (Nat × List UInt8)} (caller : s.frames = (f, data) :: rest) :
    terminal ∉ (rest.map Prod.fst).reverse := by
  intro member
  refine inv.passing ?_
  rw [FeedbackWrite.path_of_frames caller]
  exact List.mem_append_left _ member

/-- An event that is no reset needs no controller before it. -/
theorem resets_of_other {e : LoopEvent} (other : ∀ fn arg, e ≠ .reset fn arg) :
    ∀ before fn arg after, [e] = before ++ .reset fn arg :: after →
      ∃ c before', before = before' ++ [.finished c] ∧ m.isController c ∧
        (m.cell c).obj = .ctl fn arg := by
  intro before fn arg after split
  cases before with
  | nil => exact absurd (List.head_eq_of_cons_eq split) (other fn arg)
  | cons e' before => simp at split

/-- Resets of two parts of a log are resets of the log. -/
theorem resets_append {log new : List LoopEvent}
    (old : ∀ before fn arg after, log = before ++ .reset fn arg :: after →
      ∃ c before', before = before' ++ [.finished c] ∧ m.isController c ∧
        (m.cell c).obj = .ctl fn arg)
    (fresh : ∀ before fn arg after, new = before ++ .reset fn arg :: after →
      ∃ c before', before = before' ++ [.finished c] ∧ m.isController c ∧
        (m.cell c).obj = .ctl fn arg) :
    ∀ before fn arg after, log ++ new = before ++ .reset fn arg :: after →
      ∃ c before', before = before' ++ [.finished c] ∧ m.isController c ∧
        (m.cell c).obj = .ctl fn arg := by
  intro before fn arg after split
  rcases List.append_eq_append_iff.mp split with ⟨extra, rfl, later⟩ | ⟨extra, rfl, earlier⟩
  · obtain ⟨c, before', rfl, found⟩ := fresh extra fn arg after later
    exact ⟨c, log ++ before', by rw [List.append_assoc], found⟩
  · cases extra with
    | nil =>
        obtain ⟨c, before', impossible, -⟩ := fresh [] fn arg after (by simpa using earlier.symm)
        simp at impossible
    | cons e extra =>
        obtain ⟨rfl, -⟩ : LoopEvent.reset fn arg = e ∧ after = extra ++ new := by
          simpa using earlier
        exact old before fn arg extra rfl

/-- **One step of a write.** -/
theorem WriteInv.move {chain : List Nat} {head : Nat} {s t : FeedbackWrite}
    (linked : Chain m.next head chain 0) (nodup : chain.Nodup) (inv : m.WriteInv terminal chain s)
    (move : m.Move terminal s t) : m.WriteInv terminal chain t := by
  have unheard : ∀ {w}, s.place ≠ .returning .cont →
      s.log.getLast? ≠ some (.continued w) := fun elsewhere last =>
    elsewhere (inv.heard _ last).1
  cases move with
  | @down f data passed here passes more =>
      obtain ⟨rest, split⟩ := inv.calling f data here
      obtain ⟨rest', rfl⟩ := next_of_chain (split ▸ linked) more
      have grown : chain = (s.path ++ [f]) ++ m.next f :: rest' := by simpa using split
      have path : ∀ place : WriteAt, FeedbackWrite.path
          { s with place := place, frames := (f, data) :: s.frames } = s.path ++ [f] := by
        intro place
        simp [FeedbackWrite.path]
      refine ⟨?_, ⟨_, by rw [path]; exact grown⟩, ?_, inv.asked, ?_, inv.resets⟩
      · intro g data' calling
        obtain ⟨rfl, -⟩ : m.next f = g ∧ passed = data' := by simpa using calling
        exact ⟨rest', by rw [path]; exact grown⟩
      · rw [path, List.mem_append, List.mem_singleton, not_or]
        exact ⟨inv.passing, Ne.symm passes⟩
      · intro w last
        exact absurd last (unheard (by simp [here]))
  | @again f data passed rest back caller more =>
      obtain ⟨rest', split⟩ := inv.behind linked caller more
      refine ⟨?_, ⟨_, split⟩, inv.passing, inv.asked, ?_, inv.resets⟩
      · intro g data' calling
        obtain ⟨rfl, -⟩ : m.next f = g ∧ passed = data' := by simpa using calling
        exact ⟨rest', split⟩
      · intro w last
        exact absurd last (unheard (by simp [back]))
  | @rerun f data rest back caller controller more =>
      obtain ⟨rest', split⟩ := inv.behind linked caller more
      refine ⟨?_, ⟨_, split⟩, inv.passing, by simp, by simp, resets_append inv.resets ?_⟩
      · intro g data' calling
        obtain ⟨rfl, -⟩ : m.next f = g ∧ data = data' := by simpa using calling
        exact ⟨rest', split⟩
      · exact resets_of_other fun _ _ => LoopEvent.noConfusion
  | @answer f data status here =>
      refine ⟨by simp, inv.waiting, inv.passing, inv.asked, ?_, inv.resets⟩
      intro w last
      exact absurd last (unheard (by simp [here]))
  | @continued f data here =>
      obtain ⟨rest, split⟩ := inv.calling f data here
      have front : chain.takeWhile (· ≠ f) = s.path := by
        rw [split] at nodup ⊢
        refine takeWhile_ne_append ?_
        rintro x member rfl
        exact (List.disjoint_of_nodup_append nodup) member (List.mem_cons_self ..)
      refine ⟨by simp, inv.waiting, inv.passing, ?_, ?_, resets_append inv.resets ?_⟩
      · intro w last
        obtain rfl : f = w := by simpa using last
        rw [front]
        exact inv.passing
      · intro w last
        obtain rfl : f = w := by simpa using last
        rw [hearer, front]
        exact ⟨rfl, rfl⟩
      · exact resets_of_other fun _ _ => LoopEvent.noConfusion
  | @up f data rest status status' back caller passes =>
      refine ⟨by simp, inv.returned caller, inv.passing_rest caller, inv.asked, ?_, inv.resets⟩
      intro w last
      obtain ⟨isCont, nearest⟩ := inv.heard w last
      obtain rfl : status = .cont := by simpa [back] using isCont
      rcases passes with impossible | ⟨rfl, plain⟩
      · cases impossible
      · refine ⟨rfl, ?_⟩
        rw [← nearest, FeedbackWrite.path_of_frames caller]
        simp [FeedbackWrite.path, plain]
  | @finish f data rest status status' resetFn resetArg back caller controller ended obj =>
      refine ⟨by simp, inv.returned caller, inv.passing_rest caller, by simp, by simp,
        resets_append inv.resets ?_⟩
      intro before fn arg after new
      cases before with
      | nil => simp at new
      | cons e before =>
          cases before with
          | nil =>
              obtain ⟨rfl, ⟨rfl, rfl⟩, -⟩ :
                  LoopEvent.finished f = e ∧ (resetFn = fn ∧ resetArg = arg) ∧ after = [] := by
                simpa using new
              exact ⟨f, [], rfl, controller, obj⟩
          | cons e' before => simp at new

/-- **Every write.** -/
theorem writes_inv {h head : Nat} {chain : List Nat} {s : FeedbackWrite}
    (first : m.obj h .write = some head) (linked : Chain m.next head chain 0)
    (nodup : chain.Nodup) (nonempty : chain ≠ []) (reached : (m.writes terminal h).Reach s) :
    m.WriteInv terminal chain s := by
  refine reached.invariant ?_ ?_
  · rintro s ⟨head', data, first', rfl⟩
    obtain rfl : head = head' := by simpa [first] using first'
    exact .start data linked nonempty
  · intro s a t inv _ step
    exact inv.move linked nodup (writeStep_move step)

/-! ## The next round -/

variable (m) (terminal) in
/-- From here the code goes on, with nothing else to happen first, until a controller starts the
next round. -/
def RerunsFrom (h : Nat) (s : FeedbackWrite) (c : Nat) : Prop :=
  ∃ rounds t data, (m.writes terminal h).exec s (List.replicate rounds .go) = some t ∧
    t.log = s.log ++ [.reran c] ∧ t.place = .calling (m.next c) data

/-- A request for another round comes to the nearest controller that waits for it. -/
theorem rerunsFrom_of_waiting {h c : Nat} {s : FeedbackWrite} (place : s.place = .returning .cont)
    (nearest : (s.path.filter m.isController).getLast? = some c) (passes : c ≠ terminal)
    (more : m.next c ≠ 0) : m.RerunsFrom terminal h s c := by
  obtain ⟨at', frames, log⟩ := s
  obtain rfl : at' = .returning .cont := place
  induction frames with
  | nil => simp [FeedbackWrite.path] at nearest
  | cons frame rest ih =>
      obtain ⟨f, data⟩ := frame
      by_cases controller : m.isController f
      · obtain rfl : f = c := by simpa [FeedbackWrite.path, controller] using nearest
        have call : (m.cell f).call = .feedbackControllerFn := by
          simpa [isController] using controller
        refine ⟨1, ⟨.calling (m.next f) data, (f, data) :: rest, log ++ [.reran f]⟩, data, ?_, rfl,
          rfl⟩
        simp [System.exec, writes, writeStep, resume, call, callNext, more, passes]
      · have passed : m.writeStep terminal ⟨.returning .cont, (f, data) :: rest, log⟩ .go =
            some ⟨.returning .cont, rest, log⟩ := by
          simp only [isController, decide_eq_true_eq] at controller
          unfold writeStep resume
          cases call : (m.cell f).call with
          | given fn => simp [call]
          | feedbackMetricFn => simp [call]
          | feedbackControllerFn => exact absurd call controller
        obtain ⟨rounds, t, data', run, logged, arrived⟩ :=
          ih (by simpa [FeedbackWrite.path, controller] using nearest)
        refine ⟨rounds + 1, t, data', ?_, logged, arrived⟩
        have step : (m.writes terminal h).step ⟨.returning .cont, (f, data) :: rest, log⟩ .go =
            some ⟨.returning .cont, rest, log⟩ := passed
        rw [List.replicate_succ, System.exec, step, Option.bind_some, run]

/-- Nothing that was seen of a write is forgotten. -/
theorem log_prefix_of_exec {h : Nat} {s t : FeedbackWrite} {actions : List WriteAction}
    (run : (m.writes terminal h).exec s actions = some t) : s.log <+: t.log := by
  induction actions generalizing s with
  | nil =>
      obtain rfl : s = t := by simpa [System.exec] using run
      exact List.prefix_refl _
  | cons a actions ih =>
      obtain ⟨u, step, run⟩ := Option.bind_eq_some_iff.mp run
      refine List.IsPrefix.trans ?_ (ih run)
      cases writeStep_move step with
      | rerun | continued | finish => exact List.prefix_append ..
      | down | again | answer | up => exact List.prefix_refl _

/-- The next round is started by one controller only. -/
theorem RerunsFrom.unique {h c c' : Nat} {s : FeedbackWrite} (first : m.RerunsFrom terminal h s c)
    (second : m.RerunsFrom terminal h s c') : c = c' := by
  obtain ⟨k, t, data, run, logged, -⟩ := first
  obtain ⟨k', t', data', run', logged', -⟩ := second
  have same : ∀ {k k' : Nat} {t t' : FeedbackWrite} {c c' : Nat}, k ≤ k' →
      (m.writes terminal h).exec s (List.replicate k .go) = some t →
      (m.writes terminal h).exec s (List.replicate k' .go) = some t' →
      t.log = s.log ++ [.reran c] → t'.log = s.log ++ [.reran c'] → c = c' := by
    intro k k' t t' c c' fewer run run' logged logged'
    obtain ⟨d, rfl⟩ := Nat.exists_eq_add_of_le fewer
    rw [List.replicate_add, System.exec_append, run, Option.bind_some] at run'
    have grown := log_prefix_of_exec run'
    rw [logged, logged', List.prefix_append_right_inj] at grown
    simpa using grown
  rcases Nat.le_total k k' with fewer | fewer
  · exact same fewer run run' logged logged'
  · exact (same fewer run' run logged' logged).symm

/-! ## Controllers in front of a metric -/

theorem hearer_congr {m' : Filters} {chain : List Nat} {w : Nat}
    (same : ∀ x ∈ chain, m'.isController x = m.isController x) :
    m'.hearer chain w = m.hearer chain w := by
  have front : ∀ x ∈ chain.takeWhile (· ≠ w), m'.isController x = m.isController x :=
    fun x member => same x ((List.takeWhile_sublist _).subset member)
  rw [hearer, hearer, List.filter_congr front]

/-- What is looked for in front of a filter is found there when another filter is put anywhere. -/
theorem filter_takeWhile_insertBehind {p : Nat → Bool} {f w w' : Nat} (plain : p w' = false)
    (other : w' ≠ w) (chain : List Nat) :
    ((insertBehind f w' chain).takeWhile (· ≠ w)).filter p =
      (chain.takeWhile (· ≠ w)).filter p := by
  induction chain with
  | nil => rfl
  | cons x chain ih =>
      rw [insertBehind]
      by_cases here : x = w
      · split <;> simp [here]
      · split
        · simp [here, other, plain, List.filter_cons]
        · simp only [ne_eq, decide_not] at ih
          simp [here, List.filter_cons, ih]

/-- What is put in front of a chain does not come between a filter and its nearest controller. -/
theorem hearer_front {front chain : List Nat} {w k : Nat} (absent : w ∉ front)
    (hears : m.hearer chain w = some k) : m.hearer (front ++ chain) w = some k := by
  have others : ∀ x ∈ front, x ≠ w := fun x member same => absent (same ▸ member)
  rw [hearer, List.takeWhile_append_of_pos (by simpa using others), List.filter_append,
    List.getLast?_append]
  rw [hearer] at hears
  rw [hears]
  rfl

theorem hearer_splice {i : Installed} {chain : List Nat} {w k : Nat} (absent : w ∉ i.filters)
    (plain : ∀ feedback w', i.wrapper = some (feedback, w') → m.isController w' = false)
    (hears : m.hearer chain w = some k) : m.hearer (i.splice chain) w = some k := by
  unfold Installed.splice
  have notFront : w ∉ i.front := fun member => absent (List.mem_append_left _ member)
  cases wrapper : i.wrapper with
  | none => exact hearer_front notFront hears
  | some pair =>
      obtain ⟨feedback, w'⟩ := pair
      have other : w' ≠ w := by
        rintro rfl
        exact absent (List.mem_append_right _ (by simp [wrapper]))
      refine hearer_front notFront ?_
      rw [hearer, filter_takeWhile_insertBehind (plain feedback w' wrapper) other]
      exact hears

/-- A filter that is not put in by an installation is in front of another one as before. -/
theorem mem_takeWhile_splice {i : Installed} {chain : List Nat} {w x : Nat}
    (absent : w ∉ i.filters) (old : x ∉ i.filters) :
    x ∈ (i.splice chain).takeWhile (· ≠ w) ↔ x ∈ chain.takeWhile (· ≠ w) := by
  have notFront : x ∉ i.front := fun member => old (List.mem_append_left _ member)
  have others : ∀ y ∈ i.front, y ≠ w := fun y member same =>
    absent (List.mem_append_left _ (same ▸ member))
  have behindFront : ∀ rest : List Nat, x ∈ (i.front ++ rest).takeWhile (· ≠ w) ↔
      x ∈ rest.takeWhile (· ≠ w) := by
    intro rest
    rw [List.takeWhile_append_of_pos (by simpa using others), List.mem_append,
      or_iff_right notFront]
  unfold Installed.splice
  cases wrapper : i.wrapper with
  | none => exact behindFront chain
  | some pair =>
      obtain ⟨feedback, w'⟩ := pair
      have new : w' ∈ i.filters := List.mem_append_right _ (by simp [wrapper])
      have plain : decide (w' = x) = false := by
        simpa using fun same : w' = x => old (same ▸ new)
      have kept := filter_takeWhile_insertBehind (p := fun y => decide (y = x)) (f := feedback)
        plain (fun same : w' = w => absent (same ▸ new)) chain
      have found : ∀ l : List Nat, x ∈ l ↔ x ∈ l.filter fun y => y = x := by simp
      rw [behindFront, found, kept, ← found]

variable (m) (terminal) in
/-- A metric is in the chain, its nearest controller is `k`, and the machine's own filter is in
front of it or not. -/
structure MetricAt (chain : List Nat) (w k : Nat) (cut : Prop) : Prop where
  member : w ∈ chain
  hears : m.hearer chain w = some k
  cut : terminal ∈ chain.takeWhile (· ≠ w) ↔ cut

section Installations

variable {own : Nat → Side → Option Nat} {log : List Installed}

/-- The machine's own filter is in its chain. -/
theorem Laid.own_mem {h : Nat} (laid : m.Laid own log) (isOwn : own h .write = some terminal) :
    terminal ∈ Filter.laid own log h .write :=
  (laid.counted h .write).symm.subset (List.mem_append_right _ (by simp [isOwn]))

/-- **One more call.** A metric that is in the chain keeps its nearest controller, and its side of
the machine's own filter. -/
theorem MetricAt.exec {c : ChainCall} {m' : Filters} {h w k : Nat} {cut : Prop}
    (laid : m.Laid own log) (isOwn : own h .write = some terminal)
    (permitted : c.Permitted own log m) (executed : m.exec c = some m')
    (metric : m.MetricAt terminal (Filter.laid own log h .write) w k cut) :
    m'.MetricAt terminal (Filter.laid own (log ++ m.installed c) h .write) w k cut ∧
      (m'.cell w).call = (m.cell w).call := by
  obtain ⟨member, hears, side⟩ := metric
  obtain ⟨m₁, executed₁, laid', kept⟩ := laid.exec permitted
  obtain rfl : m₁ = m' := Option.some.inj (executed₁.symm.trans executed)
  have hears' : m₁.hearer (Filter.laid own log h .write) w = some k := by
    rw [← hears]
    refine hearer_congr fun x inside => ?_
    rw [isController, isController, kept h .write x inside]
  have call : (m₁.cell w).call = (m.cell w).call := by rw [kept h .write w member]
  refine ⟨?_, call⟩
  have spliced : ∀ i, m.installed c = [i] →
      (∀ feedback w', i.wrapper = some (feedback, w') → m₁.isController w' = false) →
      (∀ feedback w', i.wrapper = some (feedback, w') →
        feedback ∈ Filter.laid own log i.handle i.side) →
      m₁.MetricAt terminal (Filter.laid own (log ++ m.installed c) h .write) w k cut := by
    intro i isInstalled plain named
    rw [isInstalled] at laid' ⊢
    have nodup := laid'.nodup h .write
    rw [laid_concat] at nodup ⊢
    split
    · next here =>
        rw [if_pos here] at nodup
        obtain ⟨isHandle, isSide⟩ := here
        rw [isHandle, isSide] at named
        have perm := Installed.splice_perm named
        have apart := List.disjoint_of_nodup_append (perm.nodup_iff.mp nodup)
        have absent : w ∉ i.filters := fun new => apart new member
        refine ⟨perm.symm.subset (List.mem_append_right _ member),
          hearer_splice absent plain hears', ?_⟩
        rw [mem_takeWhile_splice absent fun new => apart new (laid.own_mem isOwn), side]
    · exact ⟨member, hears', side⟩
  cases c with
  | register side h' fn name =>
      exact spliced _ rfl (fun _ _ none => by cases none) (fun _ _ none => by cases none)
  | add side h' addme =>
      exact spliced _ rfl (fun _ _ none => by cases none) (fun _ _ none => by cases none)
  | addFeedback h' addme feedback metric =>
      obtain ⟨fresh, metricExists, metricOld, f, head, inside⟩ := permitted
      obtain ⟨m₂, executed₂, -, -, -, -, -, looped⟩ :=
        laid.addFeedback fresh metricExists metricOld head inside
      obtain rfl : m₂ = m₁ := Option.some.inj (executed₂.symm.trans executed)
      rw [laid.chainFrom_eq head] at inside
      refine spliced _ rfl ?_ ?_
      · intro named w' wrapper
        obtain ⟨-, rfl⟩ : feedback = named ∧ m.top + 1 = w' := by simpa using wrapper
        simp [isController, looped.wrapperCall]
      · intro named w' wrapper
        obtain ⟨rfl, -⟩ : feedback = named ∧ m.top + 1 = w' := by simpa using wrapper
        exact inside
  | create name fn =>
      rw [installed, List.append_nil]
      exact ⟨member, hears', side⟩
  | write f filter =>
      rw [installed, List.append_nil]
      exact ⟨member, hears', side⟩

/-- **Any number of calls.** -/
theorem MetricAt.run {calls : List ChainCall} {m' : Filters} {h w k : Nat} {cut : Prop}
    (laid : m.Laid own log) (isOwn : own h .write = some terminal)
    (legal : Legal own log m calls) (ran : m.run calls = some m')
    (metric : m.MetricAt terminal (Filter.laid own log h .write) w k cut) :
    m'.MetricAt terminal (Filter.laid own (log ++ m.history calls) h .write) w k cut ∧
      (m'.cell w).call = (m.cell w).call := by
  induction calls generalizing m log with
  | nil =>
      obtain rfl : m = m' := by simpa [Filters.run] using ran
      rw [history, List.append_nil]
      exact ⟨metric, rfl⟩
  | cons c calls ih =>
      obtain ⟨permitted, later⟩ := legal
      obtain ⟨m₁, executed, laid₁, -⟩ := laid.exec permitted
      obtain ⟨metric₁, call₁⟩ := metric.exec laid isOwn permitted executed
      rw [Filters.run, executed, Option.bind_some] at ran
      rw [history, executed, ← List.append_assoc, ← call₁]
      exact ih laid₁ (later m₁ executed) ran metric₁

/-- The only controllers that a call adds are those of loops, which may be written through. -/
theorem newcomers {c : ChainCall} {m' : Filters} (laid : m.Laid own log)
    (permitted : c.Permitted own log m) (executed : m.exec c = some m') :
    ∀ i ∈ m.installed c, ∀ x ∈ i.filters, m'.isController x →
      x = m.top ∧ (m'.cell x).direction = .bidirectional := by
  intro i isInstalled x member controller
  have call : (m'.cell x).call = .feedbackControllerFn := by simpa [isController] using controller
  have plain : ∀ {addme m''}, FreshChain own log m addme → x ∈ m.chainFrom addme →
      (∀ y < m.top, (m''.cell y).call = (m.cell y).call) → m'' = m' → False := by
    rintro addme m'' fresh inside calls rfl
    have below := (fresh.allocated x inside).2
    obtain ⟨fn, given⟩ := laid.given x below (fresh.unused x inside)
    rw [calls x below, given] at call
    cases call
  cases c with
  | register side h fn name =>
      obtain ⟨m₁, executed₁, -, -, given⟩ := laid.register fn name permitted
      obtain rfl : m₁ = m' := by
        cases side <;> exact Option.some.inj (executed₁.symm.trans executed)
      obtain rfl : i = _ := List.mem_singleton.mp isInstalled
      obtain rfl : x = m.top := by simpa [Installed.filters] using member
      rw [given] at call
      cases call
  | add side h addme =>
      obtain ⟨m₁, executed₁, -, extended⟩ := laid.add permitted.1 permitted.2
      obtain rfl : m₁ = m' := by
        cases side <;> exact Option.some.inj (executed₁.symm.trans executed)
      obtain rfl : i = _ := List.mem_singleton.mp isInstalled
      have inside : x ∈ m.chainFrom addme := by simpa [Installed.filters] using member
      exact (plain permitted.2 inside extended.calls rfl).elim
  | addFeedback h addme feedback metric =>
      obtain ⟨fresh, metricExists, metricOld, f, head, named⟩ := permitted
      obtain ⟨m₁, executed₁, -, -, -, -, extended, looped⟩ :=
        laid.addFeedback fresh metricExists metricOld head named
      obtain rfl : m₁ = m' := Option.some.inj (executed₁.symm.trans executed)
      obtain rfl : i = _ := List.mem_singleton.mp isInstalled
      rcases Installed.mem_filters_loop.mp member with rfl | inside | rfl
      · exact ⟨rfl, looped.controllerDirection⟩
      · exact (plain fresh inside extended.calls rfl).elim
      · rw [looped.wrapperCall] at call
        cases call
  | create name fn => cases isInstalled
  | write f filter => cases isInstalled

/-- Every controller of a chain may be written through. -/
def Writable (own : Nat → Side → Option Nat) (log : List Installed) (m : Filters) : Prop :=
  ∀ h, ∀ x ∈ Filter.laid own log h .write, m.isController x → (m.cell x).direction ≠ .read

theorem Start.writable (start : m.Start own) : Writable own [] m := by
  intro h x member controller
  have isOwn : own h .write = some x := by
    simpa [Filter.laid, installedAt, eq_comm] using member
  obtain ⟨fn, given⟩ := start.given x (start.allocated h .write x isOwn).2
  simp [isController, given] at controller

theorem Writable.run {calls : List ChainCall} {m' : Filters} (laid : m.Laid own log)
    (legal : Legal own log m calls) (ran : m.run calls = some m')
    (writable : Writable own log m) : Writable own (log ++ m.history calls) m' := by
  induction calls generalizing m log with
  | nil =>
      obtain rfl : m = m' := by simpa [Filters.run] using ran
      rwa [history, List.append_nil]
  | cons c calls ih =>
      obtain ⟨permitted, later⟩ := legal
      obtain ⟨m₁, executed, laid₁, kept⟩ := laid.exec permitted
      rw [Filters.run, executed, Option.bind_some] at ran
      rw [history, executed, ← List.append_assoc]
      refine ih laid₁ (later m₁ executed) ran ?_
      intro h x member controller
      by_cases old : x ∈ Filter.laid own log h .write
      · rw [isController, kept h .write x old] at controller
        rw [kept h .write x old]
        exact writable h x old controller
      · have new : ∃ i ∈ m.installed c, x ∈ i.filters := by
          rcases List.mem_append.mp ((laid₁.counted h .write).subset member) with added | isOwn
          · obtain ⟨i, isInstalled, inside⟩ := List.mem_flatMap.mp added
            rcases List.mem_append.mp (List.mem_of_mem_filter isInstalled) with before | now
            · refine absurd ((laid.counted h .write).symm.subset ?_) old
              refine List.mem_append_left _ (List.mem_flatMap.mpr ⟨i, ?_, inside⟩)
              exact List.mem_filter.mpr ⟨before, (List.mem_filter.mp isInstalled).2⟩
            · exact ⟨i, now, inside⟩
          · exact absurd ((laid.counted h .write).symm.subset (List.mem_append_right _ isOwn)) old
        obtain ⟨i, isInstalled, inside⟩ := new
        have direction := (newcomers laid permitted executed i isInstalled x inside controller).2
        rw [direction]
        decide

/-- The metric of a loop that is being added: its nearest controller is the last one up to the
feedback filter, or else the loop's own, and the machine's own filter is in front of it if that is
the feedback filter or in front of that. -/
theorem exists_metricAt {h addme feedback metric f : Nat} {m' : Filters}
    (laid : m.Laid own log) (isOwn : own h .write = some terminal)
    (permitted : (ChainCall.addFeedback h addme feedback metric).Permitted own log m)
    (executed : m.exec (.addFeedback h addme feedback metric) = some m')
    (head : m.obj h .write = some f) :
    ∃ k, (m.top :: ((m.chainFrom f).takeWhile (· ≠ feedback) ++ [feedback]).filter
        m.isController).getLast? = some k ∧
      m'.MetricAt terminal
        (Filter.laid own (log ++ m.installed (.addFeedback h addme feedback metric)) h .write)
        (m.top + 1) k (terminal ∈ (m.chainFrom f).takeWhile (· ≠ feedback) ++ [feedback]) ∧
      (m'.cell (m.top + 1)).call = .feedbackMetricFn := by
  have newcomer := newcomers laid permitted executed _ (List.mem_singleton_self _)
  obtain ⟨m₂, executed₂, -, kept⟩ := laid.exec permitted
  obtain rfl : m₂ = m' := Option.some.inj (executed₂.symm.trans executed)
  obtain ⟨fresh, metricExists, metricOld, f', head', inside⟩ := permitted
  obtain rfl : f = f' := Option.some.inj (head.symm.trans head')
  obtain ⟨m₃, executed₃, -, -, -, -, -, looped⟩ :=
    laid.addFeedback fresh metricExists metricOld head inside
  obtain rfl : m₃ = m₂ := Option.some.inj (executed₃.symm.trans executed)
  have belowTop : ∀ x ∈ m.chainFrom addme, x < m.top := fun x member => (fresh.allocated x member).2
  rw [laid.chainFrom_eq head] at inside ⊢
  obtain ⟨before, after, split, first⟩ := List.eq_append_cons_of_mem inside
  have old : ∀ x ∈ before ++ [feedback], x ∈ Filter.laid own log h .write := by
    intro x member
    rw [split]
    simp only [List.mem_append, List.mem_singleton] at member
    simp only [List.mem_append, List.mem_cons]
    tauto
  have same : ∀ x ∈ before ++ [feedback], m₃.isController x = m.isController x := by
    intro x member
    rw [isController, isController, kept h .write x (old x member)]
  have upTo : (Filter.laid own log h .write).takeWhile (· ≠ feedback) = before := by
    rw [split]
    exact takeWhile_ne_append fun x member same => first (same ▸ member)
  have placed :
      Filter.laid own (log ++ m.installed (.addFeedback h addme feedback metric)) h .write =
        (m.top :: m.chainFrom addme ++ (before ++ [feedback])) ++ (m.top + 1) :: after := by
    rw [installed, laid_concat, if_pos ⟨rfl, rfl⟩, split]
    show m.top :: m.chainFrom addme ++ insertBehind feedback (m.top + 1) _ = _
    rw [insertBehind_append first]
    simp
  have earlier : ∀ x ∈ m.top :: m.chainFrom addme ++ (before ++ [feedback]), x ≠ m.top + 1 := by
    intro x member
    simp only [List.cons_append, List.mem_cons, List.mem_append] at member
    rcases member with rfl | new | old'
    · omega
    · have := belowTop x new
      omega
    · have := (laid.allocated h .write x (old x (by simpa using old'))).2
      omega
  have none' : (m.chainFrom addme).filter m₃.isController = [] := by
    rw [List.filter_eq_nil_iff]
    intro x member controller
    have isTop := (newcomer x (by simp [Installed.filters, member]) controller).1
    have := belowTop x member
    omega
  have top : m₃.isController m.top = true := by simp [isController, looped.controllerCall]
  have isOld := laid.allocated h .write terminal (laid.own_mem isOwn)
  have unused := fresh.unused
  rw [upTo]
  obtain ⟨k, nearest⟩ : ∃ k, (m.top :: (before ++ [feedback]).filter m.isController).getLast? =
      some k := Option.isSome_iff_exists.mp (by simp)
  refine ⟨k, nearest, ⟨by rw [placed]; simp, ?_, ?_⟩, looped.wrapperCall⟩
  · rw [hearer, placed, takeWhile_ne_append earlier, List.filter_append,
      List.filter_cons_of_pos top, none', List.filter_congr same]
    exact nearest
  · rw [placed, takeWhile_ne_append earlier, List.mem_append, or_iff_right]
    intro member
    rcases List.mem_cons.mp member with here | new
    · omega
    · exact (unused terminal new).1 h .write isOwn

end Installations

/-- A write can come to any filter of the chain. -/
theorem exists_reach_calling {h head : Nat} (first : m.obj h .write = some head)
    {front rest : List Nat} {w : Nat} (linked : Chain m.next head (front ++ w :: rest) 0)
    (valid : 0 ∉ front ++ w :: rest) (passing : terminal ∉ front)
    (writable : ∀ x ∈ front, m.isController x → (m.cell x).direction ≠ .read) :
    ∃ s data, (m.writes terminal h).Reach s ∧ s.place = .calling w data := by
  induction front using List.reverseRecOn generalizing w rest with
  | nil =>
      obtain ⟨rfl, -⟩ := linked
      exact ⟨_, [], .start ⟨_, [], first, rfl⟩, rfl⟩
  | append_singleton front x ih =>
      rw [List.append_assoc, List.singleton_append] at linked valid
      rw [List.mem_append, List.mem_singleton, not_or] at passing
      obtain ⟨s, data, reached, here⟩ := ih linked valid passing.1 fun y member =>
        writable y (List.mem_append_left _ member)
      have link : m.next x = w := by
        obtain ⟨_, -, rfl, tail⟩ := chain_append.mp linked
        exact tail.start_eq_head
      have more : m.next x ≠ 0 := by
        rw [link]
        rintro rfl
        exact valid (by simp)
      let t : FeedbackWrite :=
        { s with place := .calling w data, frames := (x, data) :: s.frames }
      have down : m.callNext terminal s x data data = some t := by
        rw [callNext, if_neg (not_or.mpr ⟨Ne.symm passing.2, more⟩), link]
      cases call : (m.cell x).call with
      | given fn =>
          refine ⟨t, data, .step (a := .callNext data) reached trivial ?_, rfl⟩
          simp only [writes, writeStep, here, enter, call]
          exact down
      | feedbackMetricFn =>
          refine ⟨t, data, .step (a := .answer .success) reached trivial ?_, rfl⟩
          simp only [writes, writeStep, here, enter, call, if_true]
          exact down
      | feedbackControllerFn =>
          have direction := writable x (by simp) (by simp [isController, call])
          refine ⟨t, data, .step (a := .go) reached trivial ?_, rfl⟩
          simp only [writes, writeStep, here, enter, call, if_neg direction]
          exact down

/-- The metric of a loop that is in front of the machine's own filter can ask for another round. -/
theorem exists_reach_continued {h head w : Nat} {chain : List Nat}
    (first : m.obj h .write = some head) (linked : Chain m.next head chain 0) (valid : 0 ∉ chain)
    (writable : ∀ x ∈ chain, m.isController x → (m.cell x).direction ≠ .read) (member : w ∈ chain)
    (passing : terminal ∉ chain.takeWhile (· ≠ w)) (call : (m.cell w).call = .feedbackMetricFn) :
    ∃ s, (m.writes terminal h).Reach s ∧ s.log.getLast? = some (.continued w) := by
  obtain ⟨front, rest, rfl, absent⟩ := List.eq_append_cons_of_mem member
  have others : ∀ x ∈ front, x ≠ w := fun x inside same => absent (same ▸ inside)
  rw [takeWhile_ne_append others] at passing
  obtain ⟨s, data, reached, here⟩ := exists_reach_calling first linked valid passing
    fun x inside => writable x (List.mem_append_left _ inside)
  let t : FeedbackWrite := { s with place := .returning .cont, log := s.log ++ [.continued w] }
  refine ⟨t, .step (a := .answer .cont) reached trivial ?_, by simp [t]⟩
  simp [writes, writeStep, here, enter, call, t]

/-- The nearest controller in front of a filter has called the next one. -/
theorem next_hearer_ne_zero {head w k : Nat} {chain : List Nat} (linked : Chain m.next head chain 0)
    (valid : 0 ∉ chain) (member : w ∈ chain) (hears : m.hearer chain w = some k) :
    m.next k ≠ 0 := by
  obtain ⟨before, after, rfl, absent⟩ := List.eq_append_cons_of_mem member
  have others : ∀ x ∈ before, x ≠ w := fun x inside same => absent (same ▸ inside)
  rw [hearer, takeWhile_ne_append others] at hears
  have inside : k ∈ before := (List.mem_filter.mp (List.mem_of_getLast? hears)).1
  obtain ⟨_, reach, rfl, -⟩ := chain_append.mp linked
  rcases reach.next_mem_or inside with stays | arrives
  · intro null
    exact valid (null ▸ List.mem_append_left _ stays)
  · intro null
    exact valid (by simp [← null, arrives])

/-! ## The retries of a loop -/

variable (m) (terminal) in
/-- The feedback filter stands in front of every controller of the chain, unless it is the machine's
own filter or stands behind that. -/
def StandsFirst (h feedback : Nat) : Prop :=
  ∀ head, m.obj h .write = some head →
    terminal ∉ (m.chainFrom head).takeWhile (· ≠ feedback) ++ [feedback] →
      ∀ x ∈ (m.chainFrom head).takeWhile (· ≠ feedback) ++ [feedback], m.isController x = false

variable (m) (terminal) in
/-- At this point of a write the loops do not get in each other's way. When the metric of a loop
has asked for another round, it is the controller of this loop that starts it; and every reset
function that was called was called by its controller, which had just finished. -/
structure KeepsRetries (h : Nat) (log : List Installed) (s : FeedbackWrite) : Prop where
  retries : ∀ i ∈ installedAt h .write log, ∀ c w, i.loop? = some (c, w) →
    s.log.getLast? = some (.continued w) → m.RerunsFrom terminal h s c
  resets : ∀ before fn arg after, s.log = before ++ .reset fn arg :: after →
    ∃ c before', before = before' ++ [.finished c] ∧ m.isController c ∧
      (m.cell c).obj = .ctl fn arg

end Filters

/-- Every loop that is added to a machine is put behind a filter that stands in front of every
controller the machine has then, or is the machine's own filter or behind that. -/
def LoopsInFront (h terminal : Nat) (m : Filters) (calls : List ChainCall) : Prop :=
  ∀ before after addme feedback metric,
    calls = before ++ .addFeedback h addme feedback metric :: after →
    ∀ m₁, m.run before = some m₁ → m₁.StandsFirst terminal h feedback

/-- What was installed, was installed by one of the calls. -/
theorem Filters.exists_call_of_mem_history {m : Filters} {calls : List ChainCall} {i : Installed}
    (member : i ∈ m.history calls) :
    ∃ before c after m₁, calls = before ++ c :: after ∧ m.run before = some m₁ ∧
      i ∈ m₁.installed c := by
  induction calls generalizing m with
  | nil => cases member
  | cons c calls ih =>
      rcases List.mem_append.mp member with now | later
      · exact ⟨[], c, calls, m, rfl, rfl, now⟩
      · cases executed : m.exec c with
        | none => simp [executed] at later
        | some m₁ =>
            rw [executed] at later
            obtain ⟨before, c', after, m₂, rfl, ran, installed⟩ := ih later
            exact ⟨c :: before, c', after, m₂, rfl, by rw [run, executed, Option.bind_some, ran],
              installed⟩

/-- **Who hears the metric of a loop, after all calls.** It is the nearest controller up to the
feedback filter as the chain was when the loop was added, or else the loop's own. -/
theorem Filters.metricAt_of_call {own : Nat → Side → Option Nat} {m m' m₁ : Filters}
    {before after : List ChainCall} {h addme feedback metric terminal : Nat} (start : m.Start own)
    (isOwn : own h .write = some terminal)
    (legal : Legal own [] m (before ++ .addFeedback h addme feedback metric :: after))
    (ran : m.run (before ++ .addFeedback h addme feedback metric :: after) = some m')
    (ran₁ : m.run before = some m₁) :
    ∃ head chain k, m₁.obj h .write = some head ∧
      chain =
        laid own (m.history (before ++ .addFeedback h addme feedback metric :: after)) h .write ∧
      (m₁.top :: ((m₁.chainFrom head).takeWhile (· ≠ feedback) ++ [feedback]).filter
        m₁.isController).getLast? = some k ∧
      m'.MetricAt terminal chain (m₁.top + 1) k
        (terminal ∈ (m₁.chainFrom head).takeWhile (· ≠ feedback) ++ [feedback]) ∧
      (m'.cell (m₁.top + 1)).call = .feedbackMetricFn ∧
      m₁.top ∉ m₁.chainFrom head ∧ feedback ∈ m₁.chainFrom head := by
  obtain ⟨m₂, ran₂, laid₁, permitted, later⟩ := run_laid start.laid legal
  obtain rfl : m₁ = m₂ := Option.some.inj (ran₁.symm.trans ran₂)
  rw [List.nil_append] at laid₁ permitted later
  obtain ⟨m₃, executed, laid₃, -⟩ := laid₁.exec permitted
  obtain ⟨-, -, -, head, first, named⟩ := id permitted
  obtain ⟨k, nearest, placed, call⟩ := exists_metricAt laid₁ isOwn permitted executed first
  rw [run_append _ ran₁, run, executed, Option.bind_some] at ran
  obtain ⟨placed', call'⟩ := placed.run laid₃ isOwn (later m₃ executed) ran
  have whole : m.history (before ++ .addFeedback h addme feedback metric :: after) =
      m.history before ++ m₁.installed (.addFeedback h addme feedback metric) ++
        m₃.history after := by
    rw [history_append _ ran₁, history, executed, List.append_assoc]
  rw [← whole] at placed'
  refine ⟨head, _, k, first, rfl, nearest, placed', call'.trans call, ?_, named⟩
  rw [laid₁.chainFrom_eq first]
  exact laid₁.top_notMem 0 h .write

/-- The chain of write filters of a machine after all calls. -/
theorem Filters.write_chain {own : Nat → Side → Option Nat} {m m' : Filters}
    {calls : List ChainCall} {h f : Nat} (start : m.Start own) (legal : Legal own [] m calls)
    (ran : m.run calls = some m') (isOwn : own h .write = some f) :
    ∃ head, m'.obj h .write = some head ∧
      Chain m'.next head (laid own (m.history calls) h .write) 0 ∧
      (laid own (m.history calls) h .write).Nodup ∧ 0 ∉ laid own (m.history calls) h .write ∧
      laid own (m.history calls) h .write ≠ [] ∧ Writable own (m.history calls) m' := by
  obtain ⟨m₁, ran₁, laid'⟩ := start.run_laid legal
  obtain rfl : m' = m₁ := Option.some.inj (ran.symm.trans ran₁)
  have writable := Writable.run start.laid legal ran start.writable
  rw [List.nil_append] at writable
  obtain ⟨head, first⟩ := laid'.exists_head h .write (by simp [isOwn])
  refine ⟨head, first, laid'.chains h .write head first, laid'.nodup h .write,
    laid'.zero_notMem h .write, ?_, writable⟩
  refine List.ne_nil_of_mem ((laid'.counted h .write).symm.subset (a := f) ?_)
  simp [isOwn]

section Retries

variable {own : Nat → Side → Option Nat} {m m' m₁ : Filters} {before after : List ChainCall}
  {h terminal addme feedback metric : Nat}

/-- A controller that is heard is not the machine's own filter. -/
theorem Filters.hearer_ne {chain : List Nat} {w k : Nat} (hears : m.hearer chain w = some k)
    (passing : terminal ∉ chain.takeWhile (· ≠ w)) : k ≠ terminal := by
  rintro rfl
  exact passing (List.mem_filter.mp (List.mem_of_getLast? hears)).1

/-- A loop that is put in front of all controllers keeps its retries, and one that is put behind the
machine's own filter has none. -/
theorem Filters.rerunsFrom_own (start : m.Start own) (isOwn : own h .write = some terminal)
    (legal : Legal own [] m (before ++ .addFeedback h addme feedback metric :: after))
    (ran : m.run (before ++ .addFeedback h addme feedback metric :: after) = some m')
    (ran₁ : m.run before = some m₁) (standsFirst : m₁.StandsFirst terminal h feedback)
    {s : FeedbackWrite} (reached : (m'.writes terminal h).Reach s)
    (asked : s.log.getLast? = some (.continued (m₁.top + 1))) :
    m'.RerunsFrom terminal h s m₁.top := by
  obtain ⟨head, first, linked, nodup, valid, nonempty, -⟩ := write_chain start legal ran isOwn
  obtain ⟨head₁, chain, k, first₁, rfl, nearest, ⟨member, hears, cut⟩, -⟩ :=
    metricAt_of_call start isOwn legal ran ran₁
  have inv := writes_inv first linked nodup nonempty reached
  have passing := inv.asked _ asked
  have noneBefore : ((m₁.chainFrom head₁).takeWhile (· ≠ feedback) ++ [feedback]).filter
      m₁.isController = [] := by
    rw [List.filter_eq_nil_iff]
    intro x inside
    simp [standsFirst head₁ first₁ (fun own => passing (cut.mpr own)) x inside]
  rw [noneBefore, List.getLast?_singleton] at nearest
  obtain rfl : m₁.top = k := Option.some.inj nearest
  obtain ⟨place, waiting⟩ := inv.heard _ asked
  exact rerunsFrom_of_waiting place (waiting.trans hears) (hearer_ne hears passing)
    (next_hearer_ne_zero linked valid member hears)

/-- A loop that is put behind another controller, and in front of the machine's own filter, loses a
retry to that controller in some write. -/
theorem Filters.exists_captured (start : m.Start own) (isOwn : own h .write = some terminal)
    (legal : Legal own [] m (before ++ .addFeedback h addme feedback metric :: after))
    (ran : m.run (before ++ .addFeedback h addme feedback metric :: after) = some m')
    (ran₁ : m.run before = some m₁) (behind : ¬m₁.StandsFirst terminal h feedback) :
    ∃ s k, (m'.writes terminal h).Reach s ∧ s.log.getLast? = some (.continued (m₁.top + 1)) ∧
      k ≠ m₁.top ∧ m'.RerunsFrom terminal h s k := by
  obtain ⟨head, first, linked, nodup, valid, nonempty, writable⟩ :=
    write_chain start legal ran isOwn
  obtain ⟨head₁, chain, k, first₁, rfl, nearest, ⟨member, hears, cut⟩, call, ownAbsent, named⟩ :=
    metricAt_of_call start isOwn legal ran ran₁
  simp only [StandsFirst, not_forall] at behind
  obtain ⟨head₂, first₂, inFront, x, inside, controller⟩ := behind
  obtain rfl : head₁ = head₂ := Option.some.inj (first₁.symm.trans first₂)
  have passing := fun cuts => inFront (cut.mp cuts)
  obtain ⟨s, reached, asked⟩ :=
    exists_reach_continued first linked valid (writable h) member passing call
  obtain ⟨place, waiting⟩ := (writes_inv first linked nodup nonempty reached).heard _ asked
  refine ⟨s, k, reached, asked, ?_, rerunsFrom_of_waiting place (waiting.trans hears)
    (hearer_ne hears passing) (next_hearer_ne_zero linked valid member hears)⟩
  -- The last controller up to the feedback filter is one of the chain, and the new one is not.
  have found : k ∈ ((m₁.chainFrom head₁).takeWhile (· ≠ feedback) ++ [feedback]).filter
      m₁.isController := by
    have some : x ∈ ((m₁.chainFrom head₁).takeWhile (· ≠ feedback) ++ [feedback]).filter
        m₁.isController := List.mem_filter.mpr ⟨inside, by simpa using controller⟩
    rw [List.getLast?_cons_of_ne_nil (List.ne_nil_of_mem some)] at nearest
    exact List.mem_of_getLast? nearest
  rintro rfl
  rcases List.mem_append.mp (List.mem_filter.mp found).1 with earlier | here
  · exact ownAbsent ((List.takeWhile_sublist _).subset earlier)
  · exact ownAbsent (List.mem_singleton.mp here ▸ named)

theorem Filters.not_keepsRetries_of_behind (before : List ChainCall) (start : m.Start own)
    (isOwn : own h .write = some terminal)
    (legal : Legal own [] m (before ++ .addFeedback h addme feedback metric :: after))
    (ran : m.run (before ++ .addFeedback h addme feedback metric :: after) = some m')
    (ran₁ : m.run before = some m₁) (behind : ¬m₁.StandsFirst terminal h feedback) :
    ¬∀ s, (m'.writes terminal h).Reach s →
      m'.KeepsRetries terminal h
        (m.history (before ++ .addFeedback h addme feedback metric :: after)) s := by
  intro keeps
  obtain ⟨s, k, reached, asked, other, captured⟩ :=
    exists_captured start isOwn legal ran ran₁ behind
  obtain ⟨i, isInstalled⟩ : ∃ i, m₁.installed (.addFeedback h addme feedback metric) = [i] :=
    ⟨_, rfl⟩
  obtain ⟨here, isLoop⟩ :
      (i.handle = h ∧ i.side = .write) ∧ i.loop? = some (m₁.top, m₁.top + 1) := by
    obtain rfl : _ = i := List.singleton_inj.mp isInstalled
    exact ⟨⟨rfl, rfl⟩, rfl⟩
  have present : i ∈ installedAt h .write
      (m.history (before ++ .addFeedback h addme feedback metric :: after)) := by
    rw [history_append _ ran₁, history, isInstalled]
    simp [installedAt, here]
  exact other (captured.unique ((keeps s reached).retries i present _ _ isLoop asked))

end Retries

/-- **Loops and each other's retries.** After any sequence of permitted calls, every write keeps the
retries of the machine's loops with their own controllers exactly when each loop was put behind a
filter that stood in front of every controller the machine had then, or was the machine's own one or
stood behind that. -/
theorem loops_keep_retries_iff {own : Nat → Side → Option Nat} {m : Filters}
    {calls : List ChainCall} {h terminal : Nat} (start : m.Start own)
    (legal : Legal own [] m calls) (isOwn : own h .write = some terminal) :
    ∃ m', m.run calls = some m' ∧
      ((∀ s, (m'.writes terminal h).Reach s →
          m'.KeepsRetries terminal h (m.history calls) s) ↔
        LoopsInFront h terminal m calls) := by
  obtain ⟨m', ran, -⟩ := start.run_laid legal
  refine ⟨m', ran, ?_, ?_⟩
  · intro keeps before after addme feedback metric split m₁ ran₁
    subst split
    by_contra behind
    exact Filters.not_keepsRetries_of_behind before start isOwn legal ran ran₁ behind keeps
  · intro inFront s reached
    obtain ⟨head, first, linked, nodup, valid, nonempty, -⟩ :=
      Filters.write_chain start legal ran isOwn
    refine ⟨?_, (Filters.writes_inv first linked nodup nonempty reached).resets⟩
    intro i isInstalled c w isLoop asked
    obtain ⟨inHistory, here⟩ := List.mem_filter.mp isInstalled
    obtain ⟨before, call, after, m₁, rfl, ran₁, installed⟩ :=
      Filters.exists_call_of_mem_history inHistory
    cases call with
    | addFeedback h' addme feedback metric =>
        obtain rfl : i = _ := List.mem_singleton.mp installed
        obtain rfl : h' = h := by simpa using here
        obtain ⟨rfl, rfl⟩ : m₁.top = c ∧ m₁.top + 1 = w := by
          simpa [Installed.loop?] using isLoop
        exact Filters.rerunsFrom_own start isOwn legal ran ran₁
          (inFront before after addme feedback metric rfl m₁ ran₁) reached asked
    | register side h' fn name =>
        obtain rfl : i = _ := List.mem_singleton.mp installed
        simp [Installed.loop?] at isLoop
    | add side h' addme =>
        obtain rfl : i = _ := List.mem_singleton.mp installed
        simp [Installed.loop?] at isLoop
    | create name fn => cases installed
    | write f filter => cases installed

theorem LoopsInFront.cons {h terminal : Nat} {m : Filters} {c : ChainCall}
    {calls : List ChainCall} (m' : Filters)
    (here : ∀ addme feedback metric, c = .addFeedback h addme feedback metric →
      m.StandsFirst terminal h feedback)
    (executed : m.exec c = some m') (later : LoopsInFront h terminal m' calls) :
    LoopsInFront h terminal m (c :: calls) := by
  intro before after addme feedback metric split m₁ ran
  cases before with
  | nil =>
      obtain ⟨isLoop, -⟩ := List.cons.inj split
      obtain rfl : m = m₁ := Option.some.inj ran
      exact here addme feedback metric isLoop
  | cons c' before =>
      obtain ⟨rfl, rest⟩ := List.cons.inj split
      rw [Filters.run, executed, Option.bind_some] at ran
      exact later before after addme feedback metric rest m₁ ran

theorem LoopsInFront.nil {h terminal : Nat} {m : Filters} : LoopsInFront h terminal m [] := by
  intro before after addme feedback metric split
  cases before <;> cases split

/-- A filter with a loop behind it, and two more filters with a loop behind the second. -/
def frontCalls : List ChainCall :=
  [.register .write 1 9 ['w'], .addFeedback 1 6 7 5, .register .write 1 9 ['x'],
    .addFeedback 1 3 10 5]

/-- The filters after the first calls. -/
def frontFilters (calls : Nat) : Filters :=
  (sampleFilters.run (frontCalls.take calls)).getD sampleFilters

theorem frontCalls_legal : Legal sampleOwn [] sampleFilters frontCalls := by
  refine Legal.cons (frontFilters 1) rfl rfl (Legal.cons (frontFilters 2)
    ⟨?_, by decide, by decide, 7, rfl, by decide⟩ rfl (Legal.cons (frontFilters 3) rfl rfl
      (Legal.cons (frontFilters 4) ⟨?_, by decide, by decide, 10, rfl, by decide⟩ rfl trivial)))
  · refine ⟨⟨rfl, rfl⟩, by decide, by decide, by decide, ?_⟩
    intro x member
    have isLast : x = 6 := by
      revert x
      decide
    subst isLast
    exact ⟨sampleOwn_ne (by decide), by decide⟩
  · refine ⟨⟨rfl, rfl, rfl⟩, by decide, by decide, by decide, ?_⟩
    intro x member
    refine ⟨sampleOwn_ne ?_, ?_⟩
    · revert x
      decide
    · revert x
      decide

/-- Both loops keep their retries: each was put behind the filter at the front of the chain. -/
theorem frontCalls_keep_retries :
    ∃ m', sampleFilters.run frontCalls = some m' ∧
      ∀ s, (m'.writes 2 1).Reach s →
        m'.KeepsRetries 2 1 (sampleFilters.history frontCalls) s := by
  obtain ⟨m', ran, keeps⟩ :=
    loops_keep_retries_iff sampleFilters_start frontCalls_legal (h := 1) rfl
  refine ⟨m', ran, keeps.mpr ?_⟩
  refine LoopsInFront.cons (frontFilters 1) (fun _ _ _ other => by cases other) rfl
    (LoopsInFront.cons (frontFilters 2) ?_ rfl
      (LoopsInFront.cons (frontFilters 3) (fun _ _ _ other => by cases other) rfl
        (LoopsInFront.cons (frontFilters 4) ?_ rfl LoopsInFront.nil)))
  · intro addme feedback metric isLoop head first
    cases isLoop
    obtain rfl : 7 = head := Option.some.inj first
    exact fun _ => by decide
  · intro addme feedback metric isLoop head first
    cases isLoop
    obtain rfl : 10 = head := Option.some.inj first
    exact fun _ => by decide

/-- Two loops behind one filter in front of the machine's own one. -/
def nestedCalls : List ChainCall :=
  [.register .write 1 9 ['w'], .addFeedback 1 6 7 5, .addFeedback 1 3 7 5]

theorem nestedCalls_legal : Legal sampleOwn [] sampleFilters nestedCalls := by
  let m₂ := (sampleFilters.run (nestedCalls.take 2)).getD sampleFilters
  refine Legal.cons (frontFilters 1) rfl rfl (Legal.cons m₂
    ⟨?_, by decide, by decide, 7, rfl, by decide⟩ rfl (Legal.cons ((m₂.exec
      (.addFeedback 1 3 7 5)).get rfl) ⟨?_, by decide, by decide, 8, rfl, by decide⟩ rfl trivial))
  · refine ⟨⟨rfl, rfl⟩, by decide, by decide, by decide, ?_⟩
    intro x member
    have isLast : x = 6 := by
      revert x
      decide
    subst isLast
    exact ⟨sampleOwn_ne (by decide), by decide⟩
  · refine ⟨⟨rfl, rfl, rfl⟩, by decide, by decide, by decide, ?_⟩
    intro x member
    refine ⟨sampleOwn_ne ?_, ?_⟩
    · revert x
      decide
    · revert x
      decide

/-- **The second loop is captured.** Its metric asks for another round, and the controller of the
first loop, which stands between, starts one. -/
theorem nestedCalls_capture :
    ∃ m', sampleFilters.run nestedCalls = some m' ∧
      ¬∀ s, (m'.writes 2 1).Reach s →
        m'.KeepsRetries 2 1 (sampleFilters.history nestedCalls) s := by
  obtain ⟨m', ran, -⟩ := sampleFilters_start.run_laid nestedCalls_legal
  refine ⟨m', ran, Filters.not_keepsRetries_of_behind
    [.register .write 1 9 ['w'], .addFeedback 1 6 7 5] sampleFilters_start rfl nestedCalls_legal
    ran rfl ?_⟩
  intro standsFirst
  exact absurd (standsFirst 8 rfl (by decide) 8 (by decide)) (by decide)

end Bingewatch.Filter
