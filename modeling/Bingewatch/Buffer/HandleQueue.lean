import Mathlib.Data.List.Perm.Basic
import Bingewatch.Machine.Descriptor

/-!
# The handle queue

A handle queue (`src/buf/handle-queue.c`) keeps whole entries: a write copies its payload into a
new `HQ_ENTRY` and pushes it on a list, a read pops one entry and hands it over as the payload of
the read. The list is one of the memory library, a FIFO or a stack, and appears here as a parameter
with the laws the queue relies on.

`EntryQueue` is the purpose of the machine: a list of pending entries that can be stopped, gives
out what it has and reports completion once. `handle_queue_delivers` compares the machine with it
over every sequence of machine-level calls.
-/

set_option autoImplicit false

namespace Bingewatch.Buffer.HandleQueue

open Machine

/-! ## Entries and lists -/

/-- `HQ_ENTRY`, with the payload that `buf` points at. The pool that owns the copy is left out. -/
structure HqEntry where
  buf : List UInt8
  bytes : Nat
  tv : Nat × Nat
  deriving DecidableEq, Repr

/-- `sizeof(HQ_ENTRY)`, where pointers and sizes have eight bytes. -/
def hqEntrySize : Nat := 40

/-- `enum handle_queue_type_e`. -/
inductive QueueType where
  | fifo
  | stack
  deriving DecidableEq, Repr

variable {ε : Type}

/-- The entry that leaves next; pending entries stand oldest first. -/
def QueueType.next : QueueType → List ε → Option ε
  | .fifo, entries => entries.head?
  | .stack, entries => entries.getLast?

/-- What stays when the next entry has left. -/
def QueueType.rest : QueueType → List ε → List ε
  | .fifo, entries => entries.tail
  | .stack, entries => entries.dropLast

/-- The order in which entries leave when none is added. -/
def QueueType.drain : QueueType → List ε → List ε
  | .fifo, entries => entries
  | .stack, entries => entries.reverse

/-- What `memex_list_pop` leaves: the list, whether it returned zero, the count it reports and the
entry it copied out. -/
structure Popped (L ε : Type) where
  list : L
  ok : Bool
  count : Nat
  entry : Option ε

/-- The list calls of the memory library. A push also says whether it returned zero. -/
structure Memex (ε : Type) where
  MList : Type
  fifoCreate : MList
  stackCreate : MList
  push : MList → ε → MList × Bool
  pop : MList → Popped MList ε

/-- The two kinds of lists are a FIFO and a stack of copied entries: `holds t l entries` says that
`l` is a list of kind `t` with these entries. A call that fails leaves the list as it was, and a
pop reports a positive count exactly when it has removed an entry. -/
structure Memex.Lists (X : Memex ε) (holds : QueueType → X.MList → List ε → Prop) : Prop where
  fifoCreate : holds .fifo X.fifoCreate []
  stackCreate : holds .stack X.stackCreate []
  pushed : ∀ {t l entries} (e : ε), holds t l entries → (X.push l e).2 = true →
    holds t (X.push l e).1 (entries ++ [e])
  refused : ∀ {t l entries} (e : ε), holds t l entries → (X.push l e).2 = false →
    holds t (X.push l e).1 entries
  popped : ∀ {t l entries}, holds t l entries → (X.pop l).ok = true →
    (X.pop l).entry = t.next entries ∧ holds t (X.pop l).list (t.rest entries)
  counted : ∀ {t l entries}, holds t l entries → (X.pop l).ok = true →
    (0 < (X.pop l).count ↔ (X.pop l).entry.isSome = true)
  stuck : ∀ {t l entries}, holds t l entries → (X.pop l).ok = false →
    holds t (X.pop l).list entries

/-! ## The machine -/

variable {X : Memex HqEntry}

/-- `struct hq_t`, with the states of its two descriptor sides. -/
structure Hq (X : Memex HqEntry) where
  list : X.MList
  flush : Bool := false
  ioRead : IoDescState := .enabled
  ioWrite : IoDescState := .enabled

/-- `HQ_TYPE_STACK`. -/
def hqTypeStack : Int := 1

/-- The list that `create_queue` asks for: a stack when the argument says so, else a FIFO. -/
def queueType (arg : Option Int) : QueueType :=
  if arg = some hqTypeStack then .stack else .fifo

/-- `create_queue`. -/
def createQueue (X : Memex HqEntry) (arg : Option Int) : Hq X :=
  match queueType arg with
  | .fifo => { list := X.fifoCreate }
  | .stack => { list := X.stackCreate }

/-- `queue_write`, at the time `tv`. -/
def queueWrite (q : Hq X) (data : List UInt8) (tv : Nat × Nat) : Hq X × IoStatus × Nat :=
  let e : HqEntry := { buf := data, bytes := data.length, tv := tv }
  let pushed := X.push q.list e
  if pushed.2 = false then ({ q with list := pushed.1 }, .error, 0)
  else ({ q with list := pushed.1 }, .success, data.length)

/-- `queue_read`, with the byte count it leaves and the entry it stores in the caller's buffer. The
branch that completes the machine leaves the count as the caller set it. -/
def queueRead (q : Hq X) (bytes : Nat) : Hq X × IoStatus × Nat × Option HqEntry :=
  if bytes < hqEntrySize then (q, .error, 0, none)
  else
    let popped := X.pop q.list
    let q := { q with list := popped.list }
    if popped.ok = false then (q, .error, 0, none)
    else if popped.count > 0 then (q, .success, hqEntrySize, popped.entry)
    else if q.flush then ({ q with ioRead := .disabling }, .complete, bytes, none)
    else (q, .success, 0, none)

/-- `stop_queue`. -/
def stopQueue (q : Hq X) : Hq X := { q with ioWrite := .disabling, flush := true }

/-- `machine_desc_write` on a handle queue. -/
def machineDescWrite (q : Hq X) (data : List UInt8) (tv : Nat × Nat) :
    Option (Hq X × IoStatus × Nat) :=
  machineDescIo (fun q => some q.ioWrite) (fun q state => { q with ioWrite := state }) 0 data.length
    (fun q => some (queueWrite q data tv)) q

/-- `machine_desc_read` on a handle queue. -/
def machineDescRead (q : Hq X) (bytes : Nat) :
    Option (Hq X × IoStatus × Nat × Option HqEntry) :=
  machineDescIo (fun q => some q.ioRead) (fun q state => { q with ioRead := state }) (0, none)
    (bytes, none) (fun q => some (queueRead q bytes)) q

/-- A call on the machine: a write at a time, a read into a buffer of a size, or a stop. -/
inductive Call where
  | write (data : List UInt8) (tv : Nat × Nat)
  | read (bytes : Nat)
  | stop
  deriving DecidableEq, Repr

/-- What a call reports: a status with the byte count, and the entry a read delivers. -/
inductive Answer where
  | wrote (status : IoStatus) (bytes : Nat)
  | got (status : IoStatus) (bytes : Nat) (entry : Option HqEntry)
  | stopped
  deriving DecidableEq, Repr

/-- What a call does to the machine. -/
def Hq.call (q : Hq X) : Call → Option (Hq X × Answer)
  | .write data tv => (machineDescWrite q data tv).map fun (q, status, n) => (q, .wrote status n)
  | .read bytes => (machineDescRead q bytes).map fun (q, status, n, e) => (q, .got status n e)
  | .stop => some (stopQueue q, .stopped)

/-- A call of a run: the machine it found, the call and its answer. -/
structure Event (X : Memex HqEntry) where
  before : Hq X
  call : Call
  answer : Answer

/-- Run a list of calls and record them. -/
def Hq.run : Hq X → List Call → Option (Hq X × List (Event X))
  | q, [] => some (q, [])
  | q, c :: calls =>
      (q.call c).bind fun (q', answer) =>
        (Hq.run q' calls).map fun (last, events) => (last, ⟨q, c, answer⟩ :: events)

/-! ## The purpose -/

/-- A queue of entries that can be stopped. -/
structure EntryQueue where
  order : QueueType
  pending : List HqEntry := []
  stopped : Bool := false
  completed : Bool := false
  deriving DecidableEq, Repr

/-- The queue after a call that was answered: a write that succeeds before the stop adds its entry,
and a read that delivers an entry removes the next one. -/
def EntryQueue.observe (Q : EntryQueue) (ev : Event X) : EntryQueue :=
  match ev.call, ev.answer with
  | .write data tv, .wrote .success _ =>
      if Q.stopped then Q
      else { Q with pending := Q.pending ++ [⟨data, data.length, tv⟩] }
  | .read _, .got .success _ (some _) => { Q with pending := Q.order.rest Q.pending }
  | .read _, .got .complete _ _ => { Q with completed := true }
  | .stop, _ => { Q with stopped := true }
  | _, _ => Q

/-- The queue after the calls of a log. -/
def EntryQueue.after (Q : EntryQueue) (events : List (Event X)) : EntryQueue :=
  events.foldl EntryQueue.observe Q

/-- The answer that the queue asks for. The list library decides whether a call on the list
succeeds; everything else is determined. -/
def EntryQueue.Allows (Q : EntryQueue) (ev : Event X) : Prop :=
  match ev.call with
  | .write data tv =>
      if Q.stopped then ev.answer = .wrote .success 0
      else if (X.push ev.before.list ⟨data, data.length, tv⟩).2 then
        ev.answer = .wrote .success data.length
      else ev.answer = .wrote .error 0
  | .read bytes =>
      if Q.completed then ev.answer = .got .success 0 none
      else if bytes < hqEntrySize ∨ (X.pop ev.before.list).ok = false then
        ev.answer = .got .error 0 none
      else
        match Q.order.next Q.pending with
        | some e => ev.answer = .got .success hqEntrySize (some e)
        | none =>
            if Q.stopped then ev.answer = .got .complete bytes none
            else ev.answer = .got .success 0 none
  | .stop => ev.answer = .stopped

/-- The entries of the writes that succeed before the first stop. -/
def accepted : List (Event X) → List HqEntry
  | [] => []
  | ev :: events =>
      match ev.call, ev.answer with
      | .stop, _ => []
      | .write data tv, .wrote .success _ => ⟨data, data.length, tv⟩ :: accepted events
      | _, _ => accepted events

/-- The entry a call delivers. -/
def Event.delivery (ev : Event X) : Option HqEntry :=
  match ev.answer with
  | .got _ _ entry => entry
  | _ => none

/-- The entries delivered by the reads of a log. -/
def delivered (events : List (Event X)) : List HqEntry := events.filterMap Event.delivery

/-- The call reports completion. -/
def Event.completes (ev : Event X) : Bool :=
  match ev.answer with
  | .got .complete _ _ => true
  | _ => false

/-! ## The simulation -/

variable {holds : QueueType → X.MList → List HqEntry → Prop}

/-- The list of the machine holds the pending entries, and its descriptor sides stand as the two
flags of the queue say. -/
structure Follows (holds : QueueType → X.MList → List HqEntry → Prop) (q : Hq X)
    (Q : EntryQueue) : Prop where
  list : holds Q.order q.list Q.pending
  flush : q.flush = Q.stopped
  writing : Q.stopped = false → q.ioWrite = .enabled
  silenced : Q.stopped = true → q.ioWrite = .disabling ∨ q.ioWrite = .disabled
  reading : Q.completed = false → q.ioRead = .enabled
  finished : Q.completed = true →
    (q.ioRead = .disabling ∨ q.ioRead = .disabled) ∧ Q.stopped = true ∧ Q.pending = []

/-- A call returns, with the answer the queue asks for, and the machine follows the queue. -/
def Served (holds : QueueType → X.MList → List HqEntry → Prop) (q : Hq X) (Q : EntryQueue)
    (c : Call) : Prop :=
  ∃ q' answer, q.call c = some (q', answer) ∧ Q.Allows ⟨q, c, answer⟩ ∧
    Follows holds q' (Q.observe (⟨q, c, answer⟩ : Event X))

theorem QueueType.next_eq_none {t : QueueType} {entries : List ε} :
    t.next entries = none ↔ entries = [] := by
  cases t <;> simp [QueueType.next]

theorem Follows.serves_write {q : Hq X} {Q : EntryQueue} (lists : X.Lists holds)
    (follows : Follows holds q Q) (data : List UInt8) (tv : Nat × Nat) :
    Served holds q Q (.write data tv) := by
  unfold Served
  cases stopped : Q.stopped with
  | true =>
      have finished := follows.finished
      rcases follows.silenced stopped with side | side
      · refine ⟨{ q with ioWrite := .disabled }, .wrote .success 0, ?_, ?_, ?_⟩
        · simp [Hq.call, machineDescWrite, machineDescIo, side]
        · simp [EntryQueue.Allows, stopped]
        · simp only [EntryQueue.observe, stopped, if_true]
          exact ⟨follows.list, follows.flush, by simp [stopped], by simp, follows.reading,
            finished⟩
      · refine ⟨q, .wrote .success 0, ?_, ?_, ?_⟩
        · simp [Hq.call, machineDescWrite, machineDescIo, side]
        · simp [EntryQueue.Allows, stopped]
        · simpa only [EntryQueue.observe, stopped, if_true] using follows
  | false =>
      have side := follows.writing stopped
      have running : Q.completed = false := by
        by_contra completed
        have := (follows.finished (by simpa using completed)).2.1
        simp [stopped] at this
      let e : HqEntry := ⟨data, data.length, tv⟩
      cases ok : (X.push q.list e).2 with
      | true =>
          refine ⟨{ q with list := (X.push q.list e).1 }, .wrote .success data.length, ?_, ?_, ?_⟩
          · simp [Hq.call, machineDescWrite, machineDescIo, side, queueWrite, e, ok]
          · simp [EntryQueue.Allows, stopped, e, ok]
          · simp only [EntryQueue.observe, stopped, Bool.false_eq_true, if_false]
            exact ⟨lists.pushed e follows.list ok, follows.flush.trans stopped, fun _ => side,
              by simp, follows.reading, by simp [running]⟩
      | false =>
          refine ⟨{ q with list := (X.push q.list e).1 }, .wrote .error 0, ?_, ?_, ?_⟩
          · simp [Hq.call, machineDescWrite, machineDescIo, side, queueWrite, e, ok]
          · simp [EntryQueue.Allows, stopped, e, ok]
          · simp only [EntryQueue.observe]
            exact ⟨lists.refused e follows.list ok, follows.flush, follows.writing,
              follows.silenced, follows.reading, follows.finished⟩

/-- A read of a machine that has completed is swallowed by its descriptor. -/
theorem Follows.serves_read_completed {q : Hq X} {Q : EntryQueue} (follows : Follows holds q Q)
    (completed : Q.completed = true) (bytes : Nat) : Served holds q Q (.read bytes) := by
  obtain ⟨side, stopped, drained⟩ := follows.finished completed
  rcases side with side | side
  · refine ⟨{ q with ioRead := .disabled }, .got .success 0 none, ?_, ?_, ?_⟩
    · simp [Hq.call, machineDescRead, machineDescIo, side]
    · simp [EntryQueue.Allows, completed]
    · simp only [EntryQueue.observe]
      exact ⟨follows.list, follows.flush, follows.writing, follows.silenced,
        by simp [completed], fun _ => ⟨.inr rfl, stopped, drained⟩⟩
  · refine ⟨q, .got .success 0 none, ?_, ?_, ?_⟩
    · simp [Hq.call, machineDescRead, machineDescIo, side]
    · simp [EntryQueue.Allows, completed]
    · simpa only [EntryQueue.observe] using follows

/-- A read of a machine that has not completed pops the list, unless its buffer is too small. -/
theorem Follows.serves_read_running {q : Hq X} {Q : EntryQueue} (lists : X.Lists holds)
    (follows : Follows holds q Q) (running : Q.completed = false) (bytes : Nat) :
    Served holds q Q (.read bytes) := by
  have side := follows.reading running
  by_cases small : bytes < hqEntrySize
  · refine ⟨q, .got .error 0 none, ?_, ?_, ?_⟩
    · simp [Hq.call, machineDescRead, machineDescIo, side, queueRead, small]
    · simp [EntryQueue.Allows, running, small]
    · simpa only [EntryQueue.observe] using follows
  cases ok : (X.pop q.list).ok with
  | false =>
      refine ⟨{ q with list := (X.pop q.list).list }, .got .error 0 none, ?_, ?_, ?_⟩
      · simp [Hq.call, machineDescRead, machineDescIo, side, queueRead, small, ok]
      · simp [EntryQueue.Allows, running, ok]
      · simp only [EntryQueue.observe]
        exact ⟨lists.stuck follows.list ok, follows.flush, follows.writing, follows.silenced,
          follows.reading, follows.finished⟩
  | true =>
      obtain ⟨entry, stays⟩ := lists.popped follows.list ok
      have counted := lists.counted follows.list ok
      cases next : Q.order.next Q.pending with
      | some e =>
          have positive : 0 < (X.pop q.list).count := by
            rw [counted, entry, next]
            rfl
          refine ⟨{ q with list := (X.pop q.list).list }, .got .success hqEntrySize (some e),
            ?_, ?_, ?_⟩
          · simp [Hq.call, machineDescRead, machineDescIo, side, queueRead, small, ok, positive,
              entry, next]
          · simp [EntryQueue.Allows, running, small, ok, next]
          · simp only [EntryQueue.observe]
            exact ⟨stays, follows.flush, follows.writing, follows.silenced, follows.reading,
              by simp [running]⟩
      | none =>
          have none_counted : (X.pop q.list).count = 0 := by
            by_contra positive
            have some_entry := counted.mp (Nat.pos_of_ne_zero positive)
            simp [entry, next] at some_entry
          have drained : Q.pending = [] := QueueType.next_eq_none.mp next
          have stays : holds Q.order (X.pop q.list).list Q.pending := by
            have empty : Q.order.rest Q.pending = Q.pending := by
              rw [drained]
              cases Q.order <;> rfl
            rwa [empty] at stays
          cases stopped : Q.stopped with
          | true =>
              refine ⟨{ q with list := (X.pop q.list).list, ioRead := .disabling },
                .got .complete bytes none, ?_, ?_, ?_⟩
              · simp [Hq.call, machineDescRead, machineDescIo, side, queueRead, small, ok,
                  none_counted, follows.flush, stopped]
              · simp [EntryQueue.Allows, running, small, ok, next, stopped]
              · simp only [EntryQueue.observe]
                exact ⟨stays, follows.flush, follows.writing, follows.silenced, by simp,
                  fun _ => ⟨.inl rfl, stopped, drained⟩⟩
          | false =>
              refine ⟨{ q with list := (X.pop q.list).list }, .got .success 0 none, ?_, ?_, ?_⟩
              · simp [Hq.call, machineDescRead, machineDescIo, side, queueRead, small, ok,
                  none_counted, follows.flush, stopped]
              · simp [EntryQueue.Allows, running, small, ok, next, stopped]
              · simp only [EntryQueue.observe]
                exact ⟨stays, follows.flush, follows.writing, follows.silenced, follows.reading,
                  follows.finished⟩

theorem Follows.serves_stop {q : Hq X} {Q : EntryQueue} (follows : Follows holds q Q) :
    Served holds q Q .stop := by
  refine ⟨stopQueue q, .stopped, rfl, rfl, ?_⟩
  exact ⟨follows.list, rfl, by simp [EntryQueue.observe], fun _ => .inl rfl, follows.reading,
    fun completed => ⟨(follows.finished completed).1, rfl, (follows.finished completed).2.2⟩⟩

/-- **One call.** -/
theorem Follows.serves {q : Hq X} {Q : EntryQueue} (lists : X.Lists holds)
    (follows : Follows holds q Q) (c : Call) : Served holds q Q c := by
  cases c with
  | write data tv => exact follows.serves_write lists data tv
  | read bytes =>
      cases running : Q.completed with
      | true => exact follows.serves_read_completed running bytes
      | false => exact follows.serves_read_running lists running bytes
  | stop => exact follows.serves_stop

/-- Every call of a log is answered as the queue asks in the state that the calls before it have
left. -/
def EntryQueue.AllowsAll (Q : EntryQueue) : List (Event X) → Prop
  | [] => True
  | ev :: events => Q.Allows ev ∧ (Q.observe ev).AllowsAll events

/-- **A whole run.** -/
theorem Follows.run {q : Hq X} {Q : EntryQueue} (lists : X.Lists holds)
    (follows : Follows holds q Q) (calls : List Call) :
    ∃ last events, q.run calls = some (last, events) ∧ events.map Event.call = calls ∧
      Q.AllowsAll events ∧ Follows holds last (Q.after events) := by
  induction calls generalizing q Q with
  | nil => exact ⟨q, [], rfl, rfl, trivial, follows⟩
  | cons c calls ih =>
      obtain ⟨q', answer, call, allowed, follows'⟩ := follows.serves lists c
      obtain ⟨last, events, run, same, allows, ends⟩ := ih follows'
      refine ⟨last, ⟨q, c, answer⟩ :: events, ?_, ?_, ⟨allowed, allows⟩, ends⟩
      · simp [Hq.run, call, run]
      · simp [same]

theorem EntryQueue.AllowsAll.split {Q : EntryQueue} {first : List (Event X)} {ev : Event X}
    {later : List (Event X)} (allows : Q.AllowsAll (first ++ ev :: later)) :
    (Q.after first).Allows ev := by
  induction first generalizing Q with
  | nil => exact allows.1
  | cons head first ih => exact ih allows.2

theorem follows_create (lists : X.Lists holds) (arg : Option Int) :
    Follows holds (createQueue X arg) { order := queueType arg } := by
  unfold createQueue
  cases type : queueType arg with
  | fifo => exact ⟨lists.fifoCreate, rfl, by simp, by simp, by simp, by simp⟩
  | stack => exact ⟨lists.stackCreate, rfl, by simp, by simp, by simp, by simp⟩

/-! ## Every entry once -/

/-- The entries a log still brings to a queue: none once it is stopped. -/
def EntryQueue.accepts (Q : EntryQueue) (events : List (Event X)) : List HqEntry :=
  if Q.stopped then [] else accepted events

theorem EntryQueue.observe_order (Q : EntryQueue) (ev : Event X) :
    (Q.observe ev).order = Q.order := by
  unfold EntryQueue.observe
  repeat' split
  all_goals rfl

theorem EntryQueue.after_order (Q : EntryQueue) (events : List (Event X)) :
    (Q.after events).order = Q.order := by
  induction events generalizing Q with
  | nil => rfl
  | cons ev events ih => exact (ih (Q.observe ev)).trans (Q.observe_order ev)

theorem QueueType.rest_perm {t : QueueType} {entries : List ε} {e : ε}
    (next : t.next entries = some e) : entries.Perm (e :: t.rest entries) := by
  cases t with
  | fifo =>
      obtain ⟨rest, rfl⟩ := List.head?_eq_some_iff.mp next
      exact List.Perm.refl _
  | stack =>
      obtain ⟨rest, rfl⟩ := List.getLast?_eq_some_iff.mp next
      simp [QueueType.rest]

theorem QueueType.rest_fifo {entries : List ε} {e : ε}
    (next : QueueType.fifo.next entries = some e) : entries = e :: QueueType.fifo.rest entries := by
  obtain ⟨rest, rfl⟩ := List.head?_eq_some_iff.mp next
  rfl

/-- What one call does to the entries: a write that succeeds before the stop adds one, a read
removes the next one and delivers it, and every other call changes nothing. -/
theorem EntryQueue.Allows.cases {Q : EntryQueue} {ev : Event X} (allowed : Q.Allows ev)
    (events : List (Event X)) :
    (∃ e, ev.delivery = none ∧ (Q.observe ev).pending = Q.pending ++ [e] ∧
      Q.accepts (ev :: events) = e :: (Q.observe ev).accepts events) ∨
    (∃ e, Q.order.next Q.pending = some e ∧ ev.delivery = some e ∧
      (Q.observe ev).pending = Q.order.rest Q.pending ∧
      Q.accepts (ev :: events) = (Q.observe ev).accepts events) ∨
    (ev.delivery = none ∧ (Q.observe ev).pending = Q.pending ∧
      Q.accepts (ev :: events) = (Q.observe ev).accepts events) := by
  obtain ⟨before, call, answer⟩ := ev
  cases call with
  | write data tv =>
      simp only [EntryQueue.Allows] at allowed
      split_ifs at allowed with stopped ok
      · subst allowed
        exact .inr (.inr (by
          simp [EntryQueue.observe, Event.delivery, EntryQueue.accepts, stopped]))
      · subst allowed
        refine .inl ⟨⟨data, data.length, tv⟩, rfl, ?_, ?_⟩
        · simp [EntryQueue.observe, stopped]
        · simp [EntryQueue.observe, EntryQueue.accepts, stopped, accepted]
      · subst allowed
        exact .inr (.inr (by
          simp [EntryQueue.observe, Event.delivery, EntryQueue.accepts, stopped, accepted]))
  | read bytes =>
      have same : ∀ status n e, Q.accepts (⟨before, .read bytes, .got status n e⟩ :: events) =
          Q.accepts events := by
        intro status n e
        simp [EntryQueue.accepts, accepted]
      cases next : Q.order.next Q.pending with
      | some e =>
          simp only [EntryQueue.Allows, next] at allowed
          split_ifs at allowed with completed refused
          · subst allowed
            exact .inr (.inr ⟨rfl, rfl, same _ _ _⟩)
          · subst allowed
            exact .inr (.inr ⟨rfl, rfl, same _ _ _⟩)
          · subst allowed
            exact .inr (.inl ⟨e, rfl, rfl, rfl, same _ _ _⟩)
      | none =>
          simp only [EntryQueue.Allows, next] at allowed
          split_ifs at allowed with completed refused stopped
          all_goals
            subst allowed
            exact .inr (.inr ⟨rfl, rfl, same _ _ _⟩)
  | stop =>
      cases allowed
      exact .inr (.inr (by
        simp [EntryQueue.observe, Event.delivery, EntryQueue.accepts, accepted]))

/-- Each accepted entry is delivered once or still pending. -/
theorem EntryQueue.AllowsAll.conserves {Q : EntryQueue} {events : List (Event X)}
    (allows : Q.AllowsAll events) :
    (Q.pending ++ Q.accepts events).Perm (delivered events ++ (Q.after events).pending) := by
  induction events generalizing Q with
  | nil => simp [EntryQueue.accepts, accepted, delivered, EntryQueue.after]
  | cons ev events ih =>
      have rest := ih allows.2
      rcases allows.1.cases events with ⟨e, none, added, more⟩ | ⟨e, next, given, left, same⟩ |
        ⟨none, kept, same⟩
      · simpa [delivered, none, EntryQueue.after, more, added] using rest
      · simp only [delivered, List.filterMap_cons, given, same]
        rw [left] at rest
        exact ((QueueType.rest_perm next).append_right _).trans (rest.cons e)
      · simpa [delivered, none, EntryQueue.after, same, kept] using rest

/-- A FIFO delivers in the order in which it accepts. -/
theorem EntryQueue.AllowsAll.in_order {Q : EntryQueue} {events : List (Event X)}
    (fifo : Q.order = .fifo) (allows : Q.AllowsAll events) :
    Q.pending ++ Q.accepts events = delivered events ++ (Q.after events).pending := by
  induction events generalizing Q with
  | nil => simp [EntryQueue.accepts, accepted, delivered, EntryQueue.after]
  | cons ev events ih =>
      have rest := ih ((Q.observe_order ev).trans fifo) allows.2
      rcases allows.1.cases events with ⟨e, none, added, more⟩ | ⟨e, next, given, left, same⟩ |
        ⟨none, kept, same⟩
      · simpa [delivered, none, EntryQueue.after, more, added] using rest
      · rw [left, fifo] at rest
        rw [fifo] at next
        simp only [delivered, List.filterMap_cons, given, same]
        rw [QueueType.rest_fifo next]
        simp only [List.cons_append, rest]
        rfl
      · simpa [delivered, none, EntryQueue.after, same, kept] using rest

theorem EntryQueue.Allows.completed {Q : EntryQueue} {ev : Event X} (allowed : Q.Allows ev) :
    Q.completed.toNat + ev.completes.toNat ≤ (Q.observe ev).completed.toNat := by
  obtain ⟨before, call, answer⟩ := ev
  cases call with
  | write data tv =>
      simp only [EntryQueue.Allows] at allowed
      split_ifs at allowed with stopped ok
      all_goals
        subst allowed
        simp [EntryQueue.observe, Event.completes, stopped]
  | read bytes =>
      cases next : Q.order.next Q.pending with
      | some e =>
          simp only [EntryQueue.Allows, next] at allowed
          split_ifs at allowed with completed refused
          all_goals
            subst allowed
            simp [EntryQueue.observe, Event.completes]
      | none =>
          simp only [EntryQueue.Allows, next] at allowed
          split_ifs at allowed with completed refused stopped
          all_goals
            subst allowed
            simp [EntryQueue.observe, Event.completes, completed]
  | stop =>
      cases allowed
      simp [EntryQueue.observe, Event.completes]

/-- A log in which completion was reported reports it no more. -/
theorem EntryQueue.AllowsAll.completes_once {Q : EntryQueue} {events : List (Event X)}
    (allows : Q.AllowsAll events) :
    (events.filter Event.completes).length + Q.completed.toNat ≤ 1 := by
  induction events generalizing Q with
  | nil => simpa using Bool.toNat_le Q.completed
  | cons ev events ih =>
      have rest := ih allows.2
      have advances := allows.1.completed
      cases completes : ev.completes with
      | true =>
          simp only [completes, Bool.toNat_true] at advances
          simp only [List.filter_cons_of_pos completes, List.length_cons]
          omega
      | false =>
          simp only [completes, Bool.toNat_false] at advances
          simp only [List.filter_cons, completes, Bool.false_eq_true, if_false]
          omega

theorem QueueType.drain_next {t : QueueType} {entries : List ε} {e : ε}
    (next : t.next entries = some e) : t.drain entries = e :: t.drain (t.rest entries) := by
  cases t with
  | fifo =>
      obtain ⟨rest, rfl⟩ := List.head?_eq_some_iff.mp next
      rfl
  | stack =>
      obtain ⟨rest, rfl⟩ := List.getLast?_eq_some_iff.mp next
      simp [QueueType.drain, QueueType.rest]

theorem QueueType.rest_length (t : QueueType) (entries : List ε) :
    (t.rest entries).length = entries.length - 1 := by
  cases t <;> simp [QueueType.rest]

/-- A read that is large enough, of a queue with pending entries. -/
theorem EntryQueue.Allows.delivers {Q : EntryQueue} {ev : Event X} {bytes : Nat} {e : HqEntry}
    (allowed : Q.Allows ev) (call : ev.call = .read bytes) (large : hqEntrySize ≤ bytes)
    (ok : (X.pop ev.before.list).ok = true) (running : Q.completed = false)
    (next : Q.order.next Q.pending = some e) :
    ev.delivery = some e ∧ Q.observe ev = { Q with pending := Q.order.rest Q.pending } := by
  obtain ⟨before, call, answer⟩ := ev
  subst call
  simp only [EntryQueue.Allows, running, ok, next, Nat.not_lt.mpr large] at allowed
  simp only [Bool.false_eq_true, Bool.true_eq_false, or_self, if_false] at allowed
  subst allowed
  exact ⟨rfl, rfl⟩

/-- As many reads as there are pending entries deliver them all, when the list lets them. -/
theorem EntryQueue.AllowsAll.drains {Q : EntryQueue} {events : List (Event X)}
    (running : Q.completed = true → Q.pending = []) (full : events.length = Q.pending.length)
    (reads : ∀ ev ∈ events, ∃ bytes, ev.call = .read bytes ∧ hqEntrySize ≤ bytes)
    (ok : ∀ ev ∈ events, (X.pop ev.before.list).ok = true) (allows : Q.AllowsAll events) :
    delivered events = Q.order.drain Q.pending := by
  induction events generalizing Q with
  | nil =>
      have empty : Q.pending = [] := List.eq_nil_of_length_eq_zero full.symm
      rw [empty]
      cases Q.order <;> rfl
  | cons ev events ih =>
      obtain ⟨bytes, call, large⟩ := reads ev (by simp)
      cases next : Q.order.next Q.pending with
      | none =>
          rw [QueueType.next_eq_none] at next
          simp [next] at full
      | some e =>
          have open_queue : Q.completed = false := by
            by_contra completed
            have empty := running (by simpa using completed)
            simp [empty] at full
          obtain ⟨given, observed⟩ :=
            allows.1.delivers call large (ok ev (by simp)) open_queue next
          have rest := ih (Q := Q.observe ev) (by simp [observed, open_queue])
            (by simp [observed, QueueType.rest_length, ← full])
            (fun ev member => reads ev (by simp [member]))
            (fun ev member => ok ev (by simp [member])) allows.2
          rw [QueueType.drain_next next]
          simp only [delivered, List.filterMap_cons, given]
          rw [observed] at rest
          exact congrArg (e :: ·) rest

/-- **A handle queue delivers each entry once.** In every sequence of machine-level calls each call
is answered as the queue asks; the accepted entries are those delivered, each by one read, and
those still pending; a FIFO delivers in the order of the writes and a stack the newest pending
entry first; completion is reported at most once; and as many large enough reads as there are
pending entries deliver them all. -/
theorem handle_queue_delivers (lists : X.Lists holds) (arg : Option Int) (calls : List Call) :
    ∃ q events, (createQueue X arg).run calls = some (q, events) ∧
      events.map Event.call = calls ∧
      let Q : EntryQueue := { order := queueType arg }
      (∀ first ev later, events = first ++ ev :: later → (Q.after first).Allows ev) ∧
      (accepted events).Perm (delivered events ++ (Q.after events).pending) ∧
      (queueType arg = .fifo → accepted events = delivered events ++ (Q.after events).pending) ∧
      (events.filter Event.completes).length ≤ 1 ∧
      ∀ sizes : List Nat, sizes.length = (Q.after events).pending.length →
        (∀ bytes ∈ sizes, hqEntrySize ≤ bytes) →
        ∃ last reads, q.run (sizes.map .read) = some (last, reads) ∧
          ((∀ ev ∈ reads, (X.pop ev.before.list).ok = true) →
            delivered reads = (queueType arg).drain (Q.after events).pending) := by
  obtain ⟨q, events, run, same, allows, follows⟩ := (follows_create lists arg).run lists calls
  refine ⟨q, events, run, same, ?_, ?_, ?_, ?_, ?_⟩
  · rintro first ev later rfl
    exact allows.split
  · simpa [EntryQueue.accepts] using allows.conserves
  · intro fifo
    simpa [EntryQueue.accepts] using allows.in_order fifo
  · simpa using allows.completes_once
  · intro sizes full large
    obtain ⟨last, reads, drain, called, allowed, _⟩ := follows.run lists (sizes.map .read)
    refine ⟨last, reads, drain, fun ok => ?_⟩
    have length : reads.length = sizes.length := by
      simpa using congrArg List.length called
    have drained := allowed.drains (fun completed => (follows.finished completed).2.2)
      (length.trans full) ?_ ok
    · rwa [EntryQueue.after_order] at drained
    · intro ev member
      have read : ev.call ∈ sizes.map Call.read := called ▸ List.mem_map_of_mem member
      obtain ⟨bytes, sized, eq⟩ := List.mem_map.mp read
      exact ⟨bytes, eq.symm, large bytes sized⟩

/-- A list library that never fails: a list of entries beside its kind. -/
def listMemex (ε : Type) : Memex ε where
  MList := QueueType × List ε
  fifoCreate := (.fifo, [])
  stackCreate := (.stack, [])
  push := fun l e => ((l.1, l.2 ++ [e]), true)
  pop := fun l =>
    { list := (l.1, l.1.rest l.2), ok := true, count := l.2.length.min 1, entry := l.1.next l.2 }

theorem listMemex_lists : (listMemex ε).Lists fun t l entries => l = (t, entries) where
  fifoCreate := rfl
  stackCreate := rfl
  pushed := by
    rintro t l entries e rfl -
    rfl
  refused := by simp [listMemex]
  popped := by
    rintro t l entries rfl -
    exact ⟨rfl, rfl⟩
  counted := by
    rintro t l entries rfl -
    cases entries with
    | nil => cases t <;> simp [listMemex, QueueType.next]
    | cons e entries => cases t <;> simp [listMemex, QueueType.next]
  stuck := by simp [listMemex]

/-- A stack that takes two entries, is stopped, and still gives out the newer one. -/
theorem handle_queue_delivers_stack :
    ∃ q events, (createQueue (listMemex HqEntry) (some 1)).run
        [.write [1, 2] (0, 0), .write [3] (0, 1), .stop, .write [4] (0, 2), .read 64] =
          some (q, events) ∧
      accepted events = [⟨[1, 2], 2, (0, 0)⟩, ⟨[3], 1, (0, 1)⟩] ∧
      delivered events = [⟨[3], 1, (0, 1)⟩] ∧ (events.filter Event.completes).length ≤ 1 := by
  obtain ⟨q, events, run, -, -, -, -, once, -⟩ := handle_queue_delivers listMemex_lists (some 1)
    [.write [1, 2] (0, 0), .write [3] (0, 1), .stop, .write [4] (0, 2), .read 64]
  refine ⟨q, events, run, ?_, ?_, once⟩
  · cases run
    rfl
  · cases run
    rfl

/-- Once the machine has reported completion its descriptor swallows every read, also one whose
buffer cannot hold an entry: it reports success. -/
theorem small_read_succeeds_after_completion :
    ¬ ∀ q events, (createQueue (listMemex HqEntry) none).run [.stop, .read 64, .read 8] =
        some (q, events) →
      ∀ ev ∈ events, ∀ bytes, ev.call = .read bytes → bytes < hqEntrySize →
        ev.answer = .got .error 0 none := by
  intro fails
  have answer := fails _ _ rfl _ (.tail _ (.tail _ (.head _))) 8 rfl (by decide)
  exact absurd answer (by decide)

end Bingewatch.Buffer.HandleQueue
