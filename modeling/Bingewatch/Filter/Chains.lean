import Mathlib.Data.List.Induction
import Mathlib.Data.List.Perm.Basic
import Bingewatch.Foundation.Chain
import Bingewatch.Filter.ReadFilters

/-!
# Filter chains

Every descriptor of a machine keeps the first of its filters, and every filter points to the next
one; the last is the machine's own. The functions of `src/filter.c` that add filters work on these
pointers: a chain is put in front of a descriptor's filters, and a feedback loop also puts its
metric in the middle of them, behind a filter that was added earlier.

`Filters` is the memory in which the filters lie. What a call puts where is written down as an
`Installed` record, and `laid` builds the list of filters of a descriptor from these records alone.
`run_laid` says that the pointers, followed from the descriptor, give exactly that list, for every
sequence of calls; what the lists keep is then a matter of lists.
-/

set_option autoImplicit false

namespace Bingewatch.Filter

open Foundation

/-! ## Filters in memory -/

/-- The two descriptors of a machine. -/
inductive Side where
  | read
  | write
  deriving DecidableEq, Repr

/-- The direction that the functions for a descriptor write into a filter. -/
def Side.direction : Side → Direction
  | .read => .read
  | .write => .write

/-- What `obj` of a filter points to: something of its creator's, the controller data of a feedback
loop with the reset function and argument of its metric, or a metric. -/
inductive FilterObj where
  | given (obj : Nat)
  | ctl (resetFn : Nat) (resetArg : FilterObj)
  | metric (filter : Nat)
  deriving DecidableEq, Repr

/-- The function of a filter: any given one, or one of the two static ones of `src/filter.c`. -/
inductive FilterCall where
  | given (fn : Nat)
  | feedbackMetricFn
  | feedbackControllerFn
  deriving DecidableEq, Repr

/-- `struct io_filter_t`. Address 0 is the null pointer. -/
structure IoFilter where
  enabled : Bool := false
  direction : Direction := .bidirectional
  name : List Char := []
  obj : FilterObj := .given 0
  next : Nat := 0
  call : FilterCall := .given 0
  reset : Nat := 0
  deriving DecidableEq, Repr

/-- The filters in memory, the first address that was not handed out, the first filter of each
descriptor that exists, and the locks of the machines. -/
structure Filters where
  cell : Nat → IoFilter
  top : Nat
  obj : Nat → Side → Option Nat
  locked : Nat → Bool

namespace Filters

variable (m : Filters)

/-- The next pointers. -/
def next (f : Nat) : Nat := (m.cell f).next

/-- Write a filter. -/
def store (f : Nat) (filter : IoFilter) : Filters :=
  { m with cell := Function.update m.cell f filter }

/-- `f->next = g`. -/
def setNext (f g : Nat) : Filters := m.store f { m.cell f with next := g }

/-- `f->direction = d`. -/
def setDirection (f : Nat) (d : Direction) : Filters := m.store f { m.cell f with direction := d }

/-- `f->obj = o`. -/
def setFilterObj (f : Nat) (o : FilterObj) : Filters := m.store f { m.cell f with obj := o }

/-- `io->obj = f`. -/
def setObj (h : Nat) (side : Side) (f : Nat) : Filters :=
  { m with obj := Function.update m.obj h (Function.update (m.obj h) side (some f)) }

/-- The lock of a machine is held. -/
def hold (h : Nat) : Filters := { m with locked := Function.update m.locked h true }

/-- `machine->lock(h)`, which does not return when the lock is held. -/
def lock (h : Nat) : Option Filters := if m.locked h then none else some (m.hold h)

/-- `machine->unlock(h)`. -/
def unlock (h : Nat) : Filters := { m with locked := Function.update m.locked h false }

/-- `create_filter`. -/
def createFilter (name : List Char) (fn : FilterCall) : Filters × Nat :=
  ({ m.store m.top { enabled := true, name := name.take ioMaxNameLen, call := fn } with
      top := m.top + 1 }, m.top)

/-! ## Adding filters -/

/-- The common body of `register_read_filter` and `register_write_filter`. A descriptor that does
not exist is a null pointer that they read through. -/
def registerFilter (side : Side) (h fn : Nat) (name : List Char) : Option Filters := do
  let m ← m.lock h
  let f ← m.obj h side
  let (m, new) := m.createFilter name (.given fn)
  let m := m.setDirection new side.direction
  let m := m.setNext new f
  let m := m.setObj h side new
  some (m.unlock h)

/-- `register_read_filter`. -/
def registerReadFilter (h fn : Nat) (name : List Char) : Option Filters :=
  m.registerFilter .read h fn name

/-- `register_write_filter`. -/
def registerWriteFilter (h fn : Nat) (name : List Char) : Option Filters :=
  m.registerFilter .write h fn name

/-- The loop to the end of a filter chain: every filter that has a next one gets the direction.
There are fewer than `m.top` filters, so a loop that takes as many rounds does not end. -/
def chainEnd (d : Direction) : Nat → Filters → Nat → Option (Filters × Nat)
  | 0, _, _ => none
  | fuel + 1, m, f =>
      if m.next f = 0 then some (m, f)
      else chainEnd d fuel (m.setDirection f d) (m.next f)

/-- The common body of `add_read_filter` and `add_write_filter`. -/
def addFilter (side : Side) (h addme : Nat) : Option Filters :=
  if addme = 0 then none
  else do
    let (m, f) ← chainEnd side.direction m.top m addme
    let m := m.setDirection addme side.direction
    let m ← m.lock h
    let machineFil ← m.obj h side
    let m := m.setNext f machineFil
    let m := m.setObj h side addme
    some (m.unlock h)

/-- `add_read_filter`. -/
def addReadFilter (h addme : Nat) : Option Filters := m.addFilter .read h addme

/-- `add_write_filter`. -/
def addWriteFilter (h addme : Nat) : Option Filters := m.addFilter .write h addme

/-- The loop that looks for a filter in a chain. -/
def findFilter (feedback : Nat) : Nat → Nat → Option Bool
  | 0, _ => none
  | fuel + 1, f =>
      if f = 0 then some false
      else if f = feedback then some true
      else findFilter feedback fuel (m.next f)

/-- `add_feedback_controller`. -/
def addFeedbackController (head feedback metric : Nat) : Filters × Nat :=
  let (m, fc) := m.createFilter "feedback_controller".toList .feedbackControllerFn
  let m := m.setFilterObj fc (.ctl (m.cell metric).reset (m.cell metric).obj)
  let (m, fm) := m.createFilter "feedback_metric".toList .feedbackMetricFn
  let m := m.setFilterObj fm (.metric metric)
  let m := m.setNext fm (m.next feedback)
  let m := m.setNext feedback fm
  let m := m.setNext fc head
  (m, fc)

/-- `add_feedback_write_filter`. When the feedback filter is not found it returns with the lock
held. -/
def addFeedbackWriteFilter (h addme feedback metric : Nat) : Option Filters := do
  let m ← m.lock h
  let machineFil ← m.obj h .write
  let found ← m.findFilter feedback m.top machineFil
  if found = false then some m
  else if addme = 0 ∨ metric = 0 then none
  else
    let (m, f) ← chainEnd .write m.top m addme
    let m := m.setDirection addme .write
    let m := m.setNext f machineFil
    let (m, fbc) := m.addFeedbackController addme feedback metric
    let m := m.setObj h .write fbc
    some (m.unlock h)

end Filters

/-! ## Calls -/

/-- A call that adds filters, or the work of a caller on filters of its own: it creates one with
`create_filter`, or writes one. -/
inductive ChainCall where
  | register (side : Side) (h fn : Nat) (name : List Char)
  | add (side : Side) (h addme : Nat)
  | addFeedback (h addme feedback metric : Nat)
  | create (name : List Char) (fn : Nat)
  | write (f : Nat) (filter : IoFilter)
  deriving DecidableEq, Repr

/-- Execute a call. There is no result when the code reads through a null pointer, waits for a lock
that is never released, or follows a chain that does not end. -/
def Filters.exec (m : Filters) : ChainCall → Option Filters
  | .register .read h fn name => m.registerReadFilter h fn name
  | .register .write h fn name => m.registerWriteFilter h fn name
  | .add .read h addme => m.addReadFilter h addme
  | .add .write h addme => m.addWriteFilter h addme
  | .addFeedback h addme feedback metric => m.addFeedbackWriteFilter h addme feedback metric
  | .create name fn => some (m.createFilter name (.given fn)).1
  | .write f filter => some (m.store f filter)

/-- Execute calls in turn. -/
def Filters.run (m : Filters) : List ChainCall → Option Filters
  | [] => some m
  | c :: calls => (m.exec c).bind fun m' => m'.run calls

/-- The filters that are met when `next` is followed from a filter. -/
def follow (next : Nat → Nat) : Nat → Nat → List Nat
  | 0, _ => []
  | fuel + 1, f => if f = 0 then [] else f :: follow next fuel (next f)

/-- The filters from a filter on. -/
def Filters.chainFrom (m : Filters) (f : Nat) : List Nat := follow m.next m.top f

/-! ## What was installed -/

/-- What a call puts into the filters of a descriptor: the filters at the front, in their order,
and a metric behind the feedback filter. -/
structure Installed where
  handle : Nat
  side : Side
  front : List Nat
  wrapper : Option (Nat × Nat) := none
  deriving DecidableEq, Repr

/-- The filters that were installed. -/
def Installed.filters (i : Installed) : List Nat := i.front ++ (i.wrapper.map Prod.snd).toList

/-- A feedback loop installs its controller, the chain behind it and the wrapper of its metric. -/
theorem Installed.mem_filters_loop {h controller feedback w x : Nat} {side : Side} {l : List Nat} :
    x ∈ Installed.filters {
      handle := h, side := side, front := controller :: l, wrapper := some (feedback, w) } ↔
      x = controller ∨ x ∈ l ∨ x = w := by
  simp [Installed.filters]

/-- What a call is going to install. -/
def Filters.installed (m : Filters) : ChainCall → List Installed
  | .register side h _ _ => [{ handle := h, side := side, front := [m.top] }]
  | .add side h addme => [{ handle := h, side := side, front := m.chainFrom addme }]
  | .addFeedback h addme feedback _ =>
      [{ handle := h, side := .write, front := m.top :: m.chainFrom addme
         wrapper := some (feedback, m.top + 1) }]
  | .create .. => []
  | .write .. => []

/-- What a sequence of calls installs. -/
def Filters.history (m : Filters) : List ChainCall → List Installed
  | [] => []
  | c :: calls =>
      m.installed c ++ (match m.exec c with
        | some m' => m'.history calls
        | none => [])

theorem Filters.run_append {m m₁ : Filters} {before : List ChainCall} (rest : List ChainCall)
    (ran : m.run before = some m₁) : m.run (before ++ rest) = m₁.run rest := by
  induction before generalizing m with
  | nil =>
      obtain rfl : m = m₁ := by simpa [run] using ran
      rfl
  | cons c before ih =>
      obtain ⟨m', executed, ran⟩ := Option.bind_eq_some_iff.mp ran
      rw [List.cons_append, run, executed, Option.bind_some, ih ran]

theorem Filters.history_append {m m₁ : Filters} {before : List ChainCall} (rest : List ChainCall)
    (ran : m.run before = some m₁) :
    m.history (before ++ rest) = m.history before ++ m₁.history rest := by
  induction before generalizing m with
  | nil =>
      obtain rfl : m = m₁ := by simpa [run] using ran
      rfl
  | cons c before ih =>
      obtain ⟨m', executed, ran⟩ := Option.bind_eq_some_iff.mp ran
      rw [List.cons_append, history, history, executed]
      show m.installed c ++ m'.history (before ++ rest) = _
      rw [ih ran, List.append_assoc]

/-- What an installation makes of a list of filters. -/
def Installed.splice (i : Installed) (chain : List Nat) : List Nat :=
  match i.wrapper with
  | none => i.front ++ chain
  | some (feedback, w) => i.front ++ insertBehind feedback w chain

/-- The installations at a descriptor. -/
def installedAt (h : Nat) (side : Side) (log : List Installed) : List Installed :=
  log.filter fun i => i.handle = h ∧ i.side = side

/-- The filters that were installed at a descriptor. -/
def addedAt (h : Nat) (side : Side) (log : List Installed) : List Nat :=
  (installedAt h side log).flatMap Installed.filters

/-- The filters of a descriptor after some installations, first its own one. -/
def laid (own : Nat → Side → Option Nat) (log : List Installed) (h : Nat) (side : Side) :
    List Nat :=
  (installedAt h side log).foldl (fun chain i => i.splice chain) (own h side).toList

/-! ## Permitted calls -/

section Permitted

variable (own : Nat → Side → Option Nat) (log : List Installed)

/-- The filter belongs to no machine: it is not the own filter of a descriptor, and it was not
installed. -/
def Unused (x : Nat) : Prop :=
  (∀ h side, own h side ≠ some x) ∧ ∀ i ∈ log, x ∉ i.filters

/-- A fresh, acyclic chain of filters. -/
structure FreshChain (m : Filters) (addme : Nat) : Prop where
  ends : Chain m.next addme (m.chainFrom addme) 0
  nonempty : m.chainFrom addme ≠ []
  nodup : (m.chainFrom addme).Nodup
  allocated : ∀ x ∈ m.chainFrom addme, 0 < x ∧ x < m.top
  unused : ∀ x ∈ m.chainFrom addme, Unused own log x

/-- The calls that are permitted after some installations: the descriptor exists, chains that are
added are fresh and acyclic, and the feedback filter is one of the filters of the machine. A caller
works on filters it has not given away, with functions of its own. -/
def ChainCall.Permitted (m : Filters) : ChainCall → Prop
  | .register side h _ _ => (own h side).isSome
  | .add side h addme => (own h side).isSome ∧ FreshChain own log m addme
  | .addFeedback h addme feedback metric =>
      FreshChain own log m addme ∧ 0 < metric ∧ metric < m.top ∧
        ∃ head, m.obj h .write = some head ∧ feedback ∈ m.chainFrom head
  | .create .. => True
  | .write f filter =>
      0 < f ∧ f < m.top ∧ Unused own log f ∧ ∃ fn, filter.call = .given fn

end Permitted

/-- Every call of a sequence is permitted when its turn comes. -/
def Legal (own : Nat → Side → Option Nat) : List Installed → Filters → List ChainCall → Prop
  | _, _, [] => True
  | log, m, c :: calls =>
      c.Permitted own log m ∧
        ∀ m', m.exec c = some m' → Legal own (log ++ m.installed c) m' calls

/-- Machines before any filter is added: every descriptor has its own filter, which is the last of
a chain of one, and no two share one. The static functions of `src/filter.c` are in no filter. -/
structure Filters.Start (own : Nat → Side → Option Nat) (m : Filters) : Prop where
  descriptors : m.obj = own
  allocated : ∀ h side f, own h side = some f → 0 < f ∧ f < m.top
  last : ∀ h side f, own h side = some f → m.next f = 0
  apart : ∀ h side h' side' f, own h side = some f → own h' side' = some f →
    h = h' ∧ side = side'
  given : ∀ f < m.top, ∃ fn, (m.cell f).call = .given fn
  unlocked : ∀ h, m.locked h = false

/-! ## The pointers after each write -/

namespace Filters

variable {m : Filters}

theorem next_store (f : Nat) (filter : IoFilter) :
    (m.store f filter).next = Function.update m.next f filter.next := by
  funext x
  by_cases same : x = f
  · subst same
    simp [next, store]
  · simp [next, store, same]

@[simp] theorem next_setNext (f g : Nat) : (m.setNext f g).next = Function.update m.next f g :=
  next_store ..

@[simp] theorem next_setDirection (f : Nat) (d : Direction) :
    (m.setDirection f d).next = m.next := by
  rw [setDirection, next_store]
  exact Function.update_eq_self f m.next

@[simp] theorem next_setFilterObj (f : Nat) (o : FilterObj) :
    (m.setFilterObj f o).next = m.next := by
  rw [setFilterObj, next_store]
  exact Function.update_eq_self f m.next

@[simp] theorem next_setObj (h : Nat) (side : Side) (f : Nat) : (m.setObj h side f).next = m.next :=
  rfl

@[simp] theorem next_unlock (h : Nat) : (m.unlock h).next = m.next := rfl

@[simp] theorem next_createFilter (name : List Char) (fn : FilterCall) :
    (m.createFilter name fn).1.next = Function.update m.next m.top 0 :=
  next_store ..

theorem cell_store_of_ne {f x : Nat} (filter : IoFilter) (other : x ≠ f) :
    (m.store f filter).cell x = m.cell x :=
  Function.update_of_ne other ..

theorem cell_setFilterObj_of_ne {f x : Nat} (o : FilterObj) (other : x ≠ f) :
    (m.setFilterObj f o).cell x = m.cell x :=
  cell_store_of_ne _ other

theorem cell_createFilter_of_ne {x : Nat} (name : List Char) (fn : FilterCall)
    (other : x ≠ m.top) : (m.createFilter name fn).1.cell x = m.cell x :=
  cell_store_of_ne _ other

@[simp] theorem call_createFilter_top (name : List Char) (fn : FilterCall) :
    ((m.createFilter name fn).1.cell m.top).call = fn := by
  simp [createFilter, store]

@[simp] theorem call_setFilterObj (f x : Nat) (o : FilterObj) :
    ((m.setFilterObj f o).cell x).call = (m.cell x).call := by
  by_cases same : x = f
  · subst same
    simp [setFilterObj, store]
  · rw [cell_setFilterObj_of_ne o same]

@[simp] theorem obj_setFilterObj_self (f : Nat) (o : FilterObj) :
    ((m.setFilterObj f o).cell f).obj = o := by
  simp [setFilterObj, store]

/-- A new next pointer changes nothing else of a filter. -/
theorem cell_setNext (f g x : Nat) :
    (m.setNext f g).cell x = { m.cell x with next := (m.setNext f g).next x } := by
  by_cases same : x = f
  · subst same
    simp [setNext, store, next]
  · rw [setNext, cell_store_of_ne _ same, next_store]
    simp [next, same]

/-- Two memories that differ in the directions of the listed filters only. -/
structure Redirected (l : List Nat) (m m' : Filters) : Prop where
  top : m'.top = m.top
  obj : m'.obj = m.obj
  locked : m'.locked = m.locked
  cell : ∀ x, ∃ d, m'.cell x = { m.cell x with direction := d }
  others : ∀ x, x ∉ l → m'.cell x = m.cell x

theorem Redirected.refl (l : List Nat) (m : Filters) : Redirected l m m :=
  ⟨rfl, rfl, rfl, fun _ => ⟨_, rfl⟩, fun _ _ => rfl⟩

theorem Redirected.trans {l : List Nat} {m m' m'' : Filters} (first : Redirected l m m')
    (second : Redirected l m' m'') : Redirected l m m'' where
  top := second.top.trans first.top
  obj := second.obj.trans first.obj
  locked := second.locked.trans first.locked
  cell := by
    intro x
    obtain ⟨d, changed⟩ := first.cell x
    obtain ⟨d', changed'⟩ := second.cell x
    exact ⟨d', by rw [changed', changed]⟩
  others := fun x outside => (second.others x outside).trans (first.others x outside)

theorem redirected_setDirection {l : List Nat} {f : Nat} (d : Direction) (member : f ∈ l) :
    Redirected l m (m.setDirection f d) where
  top := rfl
  obj := rfl
  locked := rfl
  cell := by
    intro x
    by_cases same : x = f
    · subst same
      exact ⟨d, by simp [setDirection, store]⟩
    · exact ⟨(m.cell x).direction, by simp [setDirection, store, same]⟩
  others := by
    intro x outside
    exact cell_store_of_ne _ fun same => outside (same ▸ member)

theorem Redirected.mono {l l' : List Nat} {m m' : Filters} (redirected : Redirected l m m')
    (inside : l ⊆ l') : Redirected l' m m' where
  top := redirected.top
  obj := redirected.obj
  locked := redirected.locked
  cell := redirected.cell
  others := fun x outside => redirected.others x fun member => outside (inside member)

theorem Redirected.next {l : List Nat} {m m' : Filters} (redirected : Redirected l m m') :
    m'.next = m.next := by
  funext x
  obtain ⟨d, changed⟩ := redirected.cell x
  simp [Filters.next, changed]

/-- The loop to the end of a chain finds its last filter. -/
theorem chainEnd_spec {d : Direction} {fuel f : Nat} {l : List Nat} (ends : Chain m.next f l 0)
    (nonempty : l ≠ []) (valid : 0 ∉ l) (enough : l.length ≤ fuel) :
    ∃ m', chainEnd d fuel m f = some (m', l.getLast nonempty) ∧ Redirected l m m' := by
  induction l generalizing fuel f m with
  | nil => exact absurd rfl nonempty
  | cons x l ih =>
      obtain ⟨rfl, rest⟩ := ends
      obtain ⟨fuel, rfl⟩ : ∃ k, fuel = k + 1 := ⟨fuel - 1, by simp at enough; omega⟩
      cases l with
      | nil =>
          have last : m.next f = 0 := rest
          exact ⟨m, by simp [chainEnd, last], .refl _ m⟩
      | cons y l =>
          have more : m.next f ≠ 0 := by
            rw [rest.start_eq_head]
            intro null
            exact valid (null ▸ List.mem_cons_of_mem _ (List.mem_cons_self ..))
          have rest' : Chain (m.setDirection f d).next (m.next f) (y :: l) 0 := by
            rw [next_setDirection]
            exact rest
          obtain ⟨m', found, redirected⟩ := ih rest' (List.cons_ne_nil _ _)
            (fun member => valid (List.mem_cons_of_mem _ member)) (by simpa using enough)
          refine ⟨m', ?_, (redirected_setDirection d (List.mem_cons_self ..)).trans
            (redirected.mono (List.subset_cons_self ..))⟩
          rw [chainEnd, if_neg more, found]
          simp

/-- The search finds a filter of the chain. -/
theorem findFilter_spec {fuel f feedback : Nat} {l : List Nat} (ends : Chain m.next f l 0)
    (valid : 0 ∉ l) (enough : l.length ≤ fuel) (member : feedback ∈ l) :
    m.findFilter feedback fuel f = some true := by
  induction l generalizing fuel f with
  | nil => cases member
  | cons x l ih =>
      obtain ⟨rfl, rest⟩ := ends
      obtain ⟨fuel, rfl⟩ : ∃ k, fuel = k + 1 := ⟨fuel - 1, by simp at enough; omega⟩
      rw [List.mem_cons, not_or] at valid
      rw [findFilter, if_neg (Ne.symm valid.1)]
      split
      · rfl
      · next other =>
          rcases List.mem_cons.mp member with same | later
          · exact absurd same.symm other
          · exact ih rest valid.2 (by simpa using enough) later

/-! ## What the calls do -/

/-- What the calls that install filters have in common: the descriptor gets a new first filter, no
lock is left behind, filters that were there keep their functions, and those that are not added
now change at most in their next pointer. -/
structure Extended (m m' : Filters) (h : Nat) (side : Side) (head created : Nat) (l : List Nat) :
    Prop where
  top : m'.top = m.top + created
  obj : m'.obj = (m.setObj h side head).obj
  locked : m'.locked = m.locked
  calls : ∀ x < m.top, (m'.cell x).call = (m.cell x).call
  kept : ∀ x < m.top, x ∉ l → m'.cell x = { m.cell x with next := m'.next x }

theorem hold_unlock {h : Nat} (unlocked : m.locked h = false) :
    ((m.hold h).unlock h).locked = m.locked := by
  show Function.update (Function.update m.locked h true) h false = m.locked
  rw [Function.update_idem, ← unlocked]
  exact Function.update_eq_self ..

theorem lock_eq {h : Nat} (unlocked : m.locked h = false) : m.lock h = some (m.hold h) := by
  simp [lock, unlocked]

theorem registerFilter_spec {side : Side} {h f : Nat} (fn : Nat) (name : List Char)
    (unlocked : m.locked h = false) (head : m.obj h side = some f) :
    ∃ m', m.registerFilter side h fn name = some m' ∧ Extended m m' h side m.top 1 [] ∧
      m'.next = Function.update m.next m.top f ∧ (m'.cell m.top).call = .given fn := by
  have head' : (m.hold h).obj h side = some f := head
  let m₁ := ((m.hold h).createFilter name (.given fn)).1.setDirection m.top side.direction
  refine ⟨((m₁.setNext m.top f).setObj h side m.top).unlock h, ?_, ⟨?_, ?_, ?_, ?_, ?_⟩, ?_, ?_⟩
  · simp only [registerFilter, lock_eq unlocked, Option.bind_eq_bind, Option.bind_some, head']
    rfl
  · rfl
  · rfl
  · exact hold_unlock unlocked
  · intro x below
    have other : x ≠ m.top := Nat.ne_of_lt below
    simp [m₁, unlock, setObj, setNext, setDirection, createFilter, store, other, hold]
  · intro x below _
    have other : x ≠ m.top := Nat.ne_of_lt below
    simp [m₁, unlock, setObj, setNext, setDirection, createFilter, store, other, hold, next]
  · simp only [next_unlock, next_setObj, next_setNext, next_setDirection, next_createFilter, m₁]
    exact Function.update_idem ..
  · simp [m₁, unlock, setObj, setNext, setDirection, createFilter, store, hold]

theorem addFilter_spec {side : Side} {h addme f : Nat} {l : List Nat}
    (unlocked : m.locked h = false) (head : m.obj h side = some f) (ends : Chain m.next addme l 0)
    (nonempty : l ≠ []) (valid : 0 ∉ l) (enough : l.length ≤ m.top) :
    ∃ m', m.addFilter side h addme = some m' ∧ Extended m m' h side addme 0 l ∧
      m'.next = Function.update m.next (l.getLast nonempty) f := by
  obtain ⟨m₁, found, first⟩ := chainEnd_spec ends nonempty valid enough (d := side.direction)
  have redirected :=
    first.trans (redirected_setDirection side.direction (ends.start_mem nonempty))
  have exists' : addme ≠ 0 := by
    intro null
    exact valid (null ▸ ends.start_mem nonempty)
  let m₂ := m₁.setDirection addme side.direction
  have unlocked' : m₂.locked h = false := by rw [redirected.locked, unlocked]
  have head' : (m₂.hold h).obj h side = some f := by
    show m₂.obj h side = some f
    rw [redirected.obj, head]
  refine ⟨(((m₂.hold h).setNext (l.getLast nonempty) f).setObj h side addme).unlock h, ?_,
    ⟨?_, ?_, ?_, ?_, ?_⟩, ?_⟩
  · simp only [addFilter, if_neg exists', found, Option.bind_eq_bind, Option.bind_some]
    simp only [m₂] at unlocked' head'
    rw [lock_eq unlocked', Option.bind_some, head']
    rfl
  · exact redirected.top
  · show (m₂.setObj h side addme).obj = _
    simp only [setObj, m₂, redirected.obj]
  · exact (hold_unlock unlocked').trans redirected.locked
  · intro x _
    obtain ⟨d, changed⟩ := redirected.cell x
    by_cases same : x = l.getLast nonempty
    · subst same
      simp [m₂, unlock, setObj, setNext, store, hold, changed]
    · simp [m₂, unlock, setObj, setNext, store, hold, changed, same]
  · intro x _ outside
    have other : x ≠ l.getLast nonempty := fun same =>
      outside (same ▸ List.getLast_mem nonempty)
    have same : m₂.cell x = m.cell x := redirected.others x outside
    simp [unlock, setObj, setNext, store, hold, same, other, next]
  · simp only [next_unlock, next_setObj, next_setNext]
    show Function.update m₂.next _ _ = _
    rw [redirected.next]

/-- The two filters that are made for a feedback loop: the controller, which knows how the metric is
reset, and the filter that stands for the metric. -/
structure Looped (m : Filters) (fc fm resetFn : Nat) (resetArg : FilterObj) (metric : Nat) :
    Prop where
  controllerCall : (m.cell fc).call = .feedbackControllerFn
  controllerDirection : (m.cell fc).direction = .bidirectional
  controllerObj : (m.cell fc).obj = .ctl resetFn resetArg
  wrapperCall : (m.cell fm).call = .feedbackMetricFn
  wrapperObj : (m.cell fm).obj = .metric metric

/-- `add_feedback_controller`, for a feedback filter and a metric that are in memory. -/
theorem addFeedbackController_spec (head : Nat) {feedback metric : Nat} (old : feedback < m.top)
    (metricOld : metric < m.top) :
    ∃ m', m.addFeedbackController head feedback metric = (m', m.top) ∧
      (m'.top = m.top + 2 ∧ m'.obj = m.obj ∧ m'.locked = m.locked ∧
        ∀ x < m.top, m'.cell x = { m.cell x with next := m'.next x }) ∧
      m'.next = Function.update (Function.update
        (Function.update m.next (m.top + 1) (m.next feedback)) feedback (m.top + 1)) m.top head ∧
      Looped m' m.top (m.top + 1) (m.cell metric).reset (m.cell metric).obj metric := by
  have notController : feedback ≠ m.top := Nat.ne_of_lt old
  have notWrapper : feedback ≠ m.top + 1 := by omega
  have metricOther : metric ≠ m.top := Nat.ne_of_lt metricOld
  let m₁ := (m.createFilter "feedback_controller".toList .feedbackControllerFn).1
  let m₂ := m₁.setFilterObj m.top (.ctl (m₁.cell metric).reset (m₁.cell metric).obj)
  let m₃ := (m₂.createFilter "feedback_metric".toList .feedbackMetricFn).1
  let m₄ := m₃.setFilterObj (m.top + 1) (.metric metric)
  have unlinked : m₄.next = Function.update (Function.update m.next m.top 0) (m.top + 1) 0 := by
    have created : m₃.next = Function.update m₂.next (m.top + 1) 0 := next_createFilter ..
    rw [next_setFilterObj, created, next_setFilterObj, next_createFilter]
  have same : ∀ x, x ≠ m.top → x ≠ m.top + 1 → m₄.cell x = m.cell x := by
    intro x notController notWrapper
    calc m₄.cell x = m₃.cell x := cell_setFilterObj_of_ne _ notWrapper
      _ = m₂.cell x := cell_createFilter_of_ne _ _ notWrapper
      _ = m₁.cell x := cell_setFilterObj_of_ne _ notController
      _ = m.cell x := cell_createFilter_of_ne _ _ notController
  have controller : m₄.cell m.top = m₂.cell m.top := by
    calc m₄.cell m.top = m₃.cell m.top := cell_setFilterObj_of_ne _ (by omega)
      _ = m₂.cell m.top := cell_createFilter_of_ne _ _ (by show m.top ≠ m.top + 1; omega)
  refine ⟨((m₄.setNext (m.top + 1) (m₄.next feedback)).setNext feedback (m.top + 1)).setNext
    m.top head, rfl, ⟨rfl, rfl, rfl, ?_⟩, ?_, ⟨?_, ?_, ?_, ?_, ?_⟩⟩
  · intro x below
    simp only [cell_setNext, same x (by omega) (by omega)]
  · simp only [next_setNext, unlinked]
    funext x
    simp only [Function.update_apply, if_neg notController, if_neg notWrapper]
    split_ifs <;> rfl
  · simp only [cell_setNext, controller, m₂, m₁, call_setFilterObj, call_createFilter_top]
  · simp only [cell_setNext, controller, m₂, m₁, setFilterObj, createFilter, store,
      Function.update_self]
  · simp only [cell_setNext, controller, m₂, obj_setFilterObj_self, m₁,
      cell_createFilter_of_ne _ _ metricOther]
  · simp only [cell_setNext, m₄, call_setFilterObj]
    exact call_createFilter_top ..
  · simp only [cell_setNext, m₄, obj_setFilterObj_self]

theorem addFeedbackWriteFilter_spec {h addme feedback metric f : Nat} {l chain : List Nat}
    (unlocked : m.locked h = false) (head : m.obj h .write = some f)
    (machine : Chain m.next f chain 0) (machineValid : 0 ∉ chain)
    (machineEnough : chain.length ≤ m.top) (member : feedback ∈ chain) (old : feedback < m.top)
    (metricExists : 0 < metric) (metricOld : metric < m.top)
    (ends : Chain m.next addme l 0) (nonempty : l ≠ []) (valid : 0 ∉ l)
    (enough : l.length ≤ m.top) :
    ∃ m', m.addFeedbackWriteFilter h addme feedback metric = some m' ∧
      Extended m m' h .write m.top 2 l ∧
      (∃ joined, joined = Function.update m.next (l.getLast nonempty) f ∧
        m'.next = Function.update (Function.update
          (Function.update joined (m.top + 1) (joined feedback)) feedback (m.top + 1)) m.top
            addme) ∧
      Looped m' m.top (m.top + 1) (m.cell metric).reset (m.cell metric).obj metric := by
  have found : (m.hold h).findFilter feedback m.top f = some true :=
    findFilter_spec machine machineValid machineEnough member
  obtain ⟨m₁, last, first⟩ := chainEnd_spec (m := m.hold h) (d := .write) ends nonempty valid enough
  have redirected := first.trans (redirected_setDirection .write (ends.start_mem nonempty))
  let m₂ := (m₁.setDirection addme .write).setNext (l.getLast nonempty) f
  have top : m₂.top = m.top := redirected.top
  have kept : ∀ x, (m₂.cell x).call = (m.cell x).call ∧ (m₂.cell x).obj = (m.cell x).obj ∧
      (m₂.cell x).reset = (m.cell x).reset := by
    intro x
    obtain ⟨d, changed⟩ := redirected.cell x
    have same : (m.hold h).cell x = m.cell x := rfl
    by_cases isLast : x = l.getLast nonempty
    · subst isLast
      simp [m₂, setNext, store, changed, same]
    · simp [m₂, setNext, store, changed, isLast, same]
  obtain ⟨m₃, controller, ⟨top', obj, locked, kept'⟩, pointers, looped⟩ :=
    addFeedbackController_spec (m := m₂) addme (top.symm ▸ old) (top.symm ▸ metricOld)
  have exists' : addme ≠ 0 := by
    intro null
    exact valid (null ▸ ends.start_mem nonempty)
  have other : metric ≠ 0 := Nat.ne_of_gt metricExists
  rw [top, (kept metric).2.1, (kept metric).2.2] at looped
  rw [top] at controller top' kept' pointers
  refine ⟨(m₃.setObj h .write m.top).unlock h, ?_, ⟨top', ?_, ?_, ?_, ?_⟩, ⟨_, rfl, ?_⟩,
    ⟨looped.1, looped.2, looped.3, looped.4, looped.5⟩⟩
  · have head' : (m.hold h).obj h .write = some f := head
    simp only [addFeedbackWriteFilter, lock_eq unlocked, Option.bind_eq_bind, Option.bind_some,
      head']
    show (((m.hold h).findFilter feedback m.top f).bind _) = _
    rw [found, Option.bind_some, if_neg (by decide), if_neg (by simp [exists', other])]
    show ((chainEnd .write m.top (m.hold h) addme).bind _) = _
    rw [last, Option.bind_some]
    show (match m₂.addFeedbackController addme feedback metric with | (m, fbc) => _) = _
    rw [controller]
  · show (m₃.setObj h .write m.top).obj = _
    have before : m₂.obj = m.obj := redirected.obj
    simp only [setObj, obj, before]
  · have before : m₂.locked = (m.hold h).locked := redirected.locked
    show Function.update m₃.locked h false = _
    rw [locked, before]
    exact hold_unlock unlocked
  · intro x below
    show (m₃.cell x).call = _
    rw [kept' x below]
    exact (kept x).1
  · intro x below outside
    have other : x ≠ l.getLast nonempty := fun same =>
      outside (same ▸ List.getLast_mem nonempty)
    have unlinked : m₂.cell x = (m₁.setDirection addme .write).cell x := cell_store_of_ne _ other
    have same : m₂.cell x = m.cell x := unlinked.trans (redirected.others x outside)
    show m₃.cell x = { m.cell x with next := m₃.next x }
    rw [kept' x below, same]
  · have before : m₂.next = Function.update m.next (l.getLast nonempty) f := by
      show ((m₁.setDirection addme .write).setNext (l.getLast nonempty) f).next = _
      rw [next_setNext, redirected.next]
      rfl
    show m₃.next = _
    rw [pointers, before]

end Filters

/-- Following the pointers of a chain gives its filters. -/
theorem follow_spec {next : Nat → Nat} {fuel f : Nat} {l : List Nat} (ends : Chain next f l 0)
    (valid : 0 ∉ l) (enough : l.length ≤ fuel) : follow next fuel f = l := by
  induction l generalizing fuel f with
  | nil =>
      obtain rfl : f = 0 := ends
      cases fuel <;> simp [follow]
  | cons x l ih =>
      obtain ⟨rfl, rest⟩ := ends
      obtain ⟨fuel, rfl⟩ : ∃ k, fuel = k + 1 := ⟨fuel - 1, by simp at enough; omega⟩
      rw [List.mem_cons, not_or] at valid
      rw [follow, if_neg (Ne.symm valid.1), ih rest valid.2 (by simpa using enough)]

/-! ## The lists of filters -/

section Lists

variable {own : Nat → Side → Option Nat} {log : List Installed}

theorem laid_concat (i : Installed) (h : Nat) (side : Side) :
    laid own (log ++ [i]) h side =
      if i.handle = h ∧ i.side = side then i.splice (laid own log h side)
      else laid own log h side := by
  by_cases here : i.handle = h ∧ i.side = side
  · simp [laid, installedAt, here]
  · rw [if_neg here]
    simp only [laid, installedAt, List.filter_append]
    rw [List.filter_cons_of_neg (by simpa using here)]
    simp

theorem addedAt_concat (i : Installed) (h : Nat) (side : Side) :
    addedAt h side (log ++ [i]) =
      addedAt h side log ++ if i.handle = h ∧ i.side = side then i.filters else [] := by
  by_cases here : i.handle = h ∧ i.side = side
  · simp [addedAt, installedAt, here]
  · rw [if_neg here]
    simp only [addedAt, installedAt, List.filter_append]
    rw [List.filter_cons_of_neg (by simpa using here)]
    simp

/-- Filters keep their order when more are put among them. -/
theorem Installed.front_sublist_splice (i : Installed) (chain : List Nat) :
    (i.front ++ chain).Sublist (i.splice chain) := by
  unfold Installed.splice
  split
  · exact List.Sublist.refl _
  · exact (List.Sublist.refl _).append (sublist_insertBehind chain)

/-- **Later chains come first.** The chains that were installed at a descriptor, the latest first,
each in its own order, and then the descriptor's own filter. -/
theorem fronts_sublist_laid (own : Nat → Side → Option Nat) (log : List Installed) (h : Nat)
    (side : Side) :
    ((installedAt h side log).reverse.flatMap Installed.front ++ (own h side).toList).Sublist
      (laid own log h side) := by
  unfold laid
  induction installedAt h side log using List.reverseRecOn with
  | nil => simp
  | append_singleton chains i ih =>
      rw [List.foldl_append, List.foldl_cons, List.foldl_nil]
      refine List.Sublist.trans ?_ (i.front_sublist_splice _)
      rw [List.reverse_append, List.reverse_singleton, List.singleton_append, List.flatMap_cons,
        List.append_assoc]
      exact (List.Sublist.refl _).append ih

/-- An installation whose feedback filter is in the list adds just its filters. -/
theorem Installed.splice_perm {i : Installed} {chain : List Nat}
    (named : ∀ feedback w, i.wrapper = some (feedback, w) → feedback ∈ chain) :
    (i.splice chain).Perm (i.filters ++ chain) := by
  unfold Installed.splice Installed.filters
  cases wrapper : i.wrapper with
  | none => simp
  | some pair =>
      obtain ⟨feedback, w⟩ := pair
      have inserted := insertBehind_perm (w := w) (named feedback w wrapper)
      simpa using inserted.append_left i.front

end Lists

/-! ## The pointers follow the lists -/

/-- The memory after some installations: from the first filter of each descriptor, the pointers go
through its list of filters. -/
structure Filters.Laid (own : Nat → Side → Option Nat) (log : List Installed) (m : Filters) :
    Prop where
  descriptors : ∀ h side, (m.obj h side).isSome = (own h side).isSome
  chains : ∀ h side head, m.obj h side = some head → Chain m.next head (laid own log h side) 0
  counted : ∀ h side, (laid own log h side).Perm (addedAt h side log ++ (own h side).toList)
  nodup : ∀ h side, (laid own log h side).Nodup
  allocated : ∀ h side, ∀ x ∈ laid own log h side, 0 < x ∧ x < m.top
  apart : ∀ h side h' side' x, x ∈ laid own log h side → x ∈ laid own log h' side' →
    h = h' ∧ side = side'
  given : ∀ x < m.top, Unused own log x → ∃ fn, (m.cell x).call = .given fn
  unlocked : ∀ h, m.locked h = false

namespace Filters

variable {own : Nat → Side → Option Nat} {log : List Installed} {m : Filters}

theorem Start.laid (start : m.Start own) : m.Laid own [] where
  descriptors := by simp [start.descriptors]
  chains := by
    intro h side head first
    rw [start.descriptors] at first
    have last := start.last h side head first
    simpa [Filter.laid, installedAt, first] using last
  counted := fun h side => by simp [Filter.laid, installedAt, addedAt]
  nodup := by
    intro h side
    cases first : own h side <;> simp [Filter.laid, installedAt, first]
  allocated := by
    intro h side x member
    refine start.allocated h side x ?_
    simpa [Filter.laid, installedAt, eq_comm] using member
  apart := by
    intro h side h' side' x member member'
    refine start.apart h side h' side' x ?_ ?_
    · simpa [Filter.laid, installedAt, eq_comm] using member
    · simpa [Filter.laid, installedAt, eq_comm] using member'
  given := fun x below _ => start.given x below
  unlocked := start.unlocked

namespace Laid

theorem zero_notMem (laid : m.Laid own log) (h : Nat) (side : Side) :
    0 ∉ Filter.laid own log h side :=
  fun member => absurd (laid.allocated h side 0 member).1 (Nat.lt_irrefl 0)

theorem length_le (laid : m.Laid own log) (h : Nat) (side : Side) :
    (Filter.laid own log h side).length ≤ m.top :=
  length_le_of_nodup (laid.nodup h side) fun x member => (laid.allocated h side x member).2

/-- The filters of a descriptor as they are met along the pointers. -/
theorem chainFrom_eq (laid : m.Laid own log) {h : Nat} {side : Side} {head : Nat}
    (first : m.obj h side = some head) : m.chainFrom head = Filter.laid own log h side :=
  follow_spec (laid.chains h side head first) (laid.zero_notMem h side) (laid.length_le h side)

theorem exists_head (laid : m.Laid own log) (h : Nat) (side : Side)
    (exists' : (own h side).isSome) : ∃ head, m.obj h side = some head := by
  rw [← laid.descriptors] at exists'
  exact Option.isSome_iff_exists.mp exists'

/-- An unused filter is in no list. -/
theorem notMem_of_unused (laid : m.Laid own log) {x : Nat} (unused : Unused own log x) (h : Nat)
    (side : Side) : x ∉ Filter.laid own log h side := by
  intro member
  rcases List.mem_append.mp ((laid.counted h side).subset member) with added | isOwn
  · obtain ⟨i, installed, member⟩ := List.mem_flatMap.mp added
    exact unused.2 i (List.mem_of_mem_filter installed) member
  · exact unused.1 h side (by simpa using isOwn)

/-- **One installation.** -/
theorem install (laid : m.Laid own log) {m' : Filters} {i : Installed} {head : Nat}
    (obj : m'.obj = (m.setObj i.handle i.side head).obj) (exists' : (own i.handle i.side).isSome)
    (chain : Chain m'.next head (i.splice (Filter.laid own log i.handle i.side)) 0)
    (others : ∀ h side, ¬(i.handle = h ∧ i.side = side) → ∀ x ∈ Filter.laid own log h side,
      m'.next x = m.next x)
    (named : ∀ feedback w, i.wrapper = some (feedback, w) →
      feedback ∈ Filter.laid own log i.handle i.side)
    (top : m.top ≤ m'.top) (created : ∀ x, m.top ≤ x → x < m'.top → x ∈ i.filters)
    (calls : ∀ x < m.top, (m'.cell x).call = (m.cell x).call)
    (fresh : i.filters.Nodup) (allocated : ∀ x ∈ i.filters, 0 < x ∧ x < m'.top)
    (unused : ∀ x ∈ i.filters, ∀ h side, x ∉ Filter.laid own log h side)
    (unlocked : m'.locked = m.locked) : m'.Laid own (log ++ [i]) := by
  have spliced := Installed.splice_perm named
  have memSplice : ∀ x ∈ i.splice (Filter.laid own log i.handle i.side),
      x ∈ i.filters ∨ x ∈ Filter.laid own log i.handle i.side := fun x member =>
    List.mem_append.mp (spliced.subset member)
  have placed : ∀ h side x, x ∈ Filter.laid own (log ++ [i]) h side →
      (x ∈ i.filters ∧ i.handle = h ∧ i.side = side) ∨ x ∈ Filter.laid own log h side := by
    intro h side x member
    rw [laid_concat] at member
    split at member
    · next here =>
        obtain ⟨rfl, rfl⟩ := here
        exact (memSplice x member).imp_left fun new => ⟨new, rfl, rfl⟩
    · exact .inr member
  refine ⟨?_, ?_, ?_, ?_, ?_, ?_, ?_, ?_⟩
  · intro h side
    by_cases here : i.handle = h ∧ i.side = side
    · obtain ⟨rfl, rfl⟩ := here
      simp [obj, setObj, exists']
    · rw [← laid.descriptors, obj]
      simp only [setObj, Function.update_apply]
      grind
  · intro h side first mine
    rw [laid_concat]
    by_cases here : i.handle = h ∧ i.side = side
    · rw [if_pos here]
      obtain ⟨rfl, rfl⟩ := here
      obtain rfl : head = first := by simpa [obj, setObj] using mine
      exact chain
    · rw [if_neg here]
      have old : m.obj h side = some first := by
        rw [obj] at mine
        simp only [setObj, Function.update_apply] at mine
        grind
      exact (laid.chains h side first old).congr (others h side here)
  · intro h side
    rw [laid_concat, addedAt_concat]
    split
    · next here =>
        obtain ⟨rfl, rfl⟩ := here
        refine spliced.trans ?_
        refine ((laid.counted i.handle i.side).append_left i.filters).trans ?_
        rw [← List.append_assoc]
        exact List.perm_append_comm.append_right _
    · simpa using laid.counted h side
  · intro h side
    rw [laid_concat]
    split
    · next here =>
        obtain ⟨rfl, rfl⟩ := here
        refine spliced.nodup_iff.mpr (fresh.append (laid.nodup _ _) ?_)
        intro x new old
        exact unused x new _ _ old
    · exact laid.nodup h side
  · intro h side x member
    rcases placed h side x member with ⟨new, -⟩ | old
    · exact allocated x new
    · have before := laid.allocated h side x old
      exact ⟨before.1, Nat.lt_of_lt_of_le before.2 top⟩
  · intro h side h' side' x member member'
    rcases placed h side x member with ⟨new, rfl, rfl⟩ | old
    · rcases placed h' side' x member' with ⟨-, same⟩ | old'
      · exact same
      · exact absurd old' (unused x new h' side')
    · rcases placed h' side' x member' with ⟨new, -⟩ | old'
      · exact absurd old (unused x new h side)
      · exact laid.apart h side h' side' x old old'
  · intro x below still
    have old : x < m.top := by
      by_contra notOld
      exact still.2 i (by simp) (created x (Nat.le_of_not_lt notOld) below)
    obtain ⟨fn, given⟩ := laid.given x old ⟨still.1, fun j member => still.2 j (by simp [member])⟩
    exact ⟨fn, (calls x old).trans given⟩
  · intro h
    rw [unlocked]
    exact laid.unlocked h

/-- What happens to filters of no machine leaves the chains as they are. -/
theorem unchanged (laid : m.Laid own log) {m' : Filters} (obj : m'.obj = m.obj)
    (same : ∀ h side, ∀ x ∈ Filter.laid own log h side, m'.next x = m.next x)
    (given : ∀ x < m'.top, Unused own log x → ∃ fn, (m'.cell x).call = .given fn)
    (top : m.top ≤ m'.top) (locked : m'.locked = m.locked) : m'.Laid own log where
  descriptors := fun h side => by rw [obj, laid.descriptors]
  chains := fun h side head first => (laid.chains h side head (obj ▸ first)).congr (same h side)
  counted := laid.counted
  nodup := laid.nodup
  allocated := fun h side x member =>
    ⟨(laid.allocated h side x member).1, Nat.lt_of_lt_of_le (laid.allocated h side x member).2 top⟩
  apart := laid.apart
  given := given
  unlocked := fun h => by rw [locked, laid.unlocked]

theorem top_notMem (laid : m.Laid own log) (k h : Nat) (side : Side) :
    m.top + k ∉ Filter.laid own log h side := by
  intro member
  have below := (laid.allocated h side _ member).2
  omega

/-- A machine always has filters, so there are addresses that were handed out. -/
theorem top_pos (laid : m.Laid own log) {h : Nat} {side : Side} (exists' : (own h side).isSome) :
    0 < m.top := by
  obtain ⟨f, first⟩ := Option.isSome_iff_exists.mp exists'
  have member : f ∈ Filter.laid own log h side :=
    (laid.counted h side).symm.subset (by simp [first])
  have bounds := laid.allocated h side f member
  omega

/-- A new filter in front. -/
theorem register (laid : m.Laid own log) {side : Side} {h : Nat} (fn : Nat) (name : List Char)
    (exists' : (own h side).isSome) :
    ∃ m', m.registerFilter side h fn name = some m' ∧
      m'.Laid own (log ++ [{ handle := h, side := side, front := [m.top] }]) ∧
      Extended m m' h side m.top 1 [] ∧ (m'.cell m.top).call = .given fn := by
  obtain ⟨f, head⟩ := laid.exists_head h side exists'
  obtain ⟨m', executed, extended, pointers, given⟩ :=
    registerFilter_spec fn name (laid.unlocked h) head
  have keeps : ∀ h side, ∀ x ∈ Filter.laid own log h side, m'.next x = m.next x := by
    intro h side x member
    have other : x ≠ m.top := fun same => laid.top_notMem 0 h side (same ▸ member)
    rw [pointers, Function.update_of_ne other]
  refine ⟨m', executed, laid.install extended.obj exists' ⟨rfl, ?_⟩ (fun h side _ => keeps h side)
    ?_ ?_ ?_ extended.calls ?_ ?_ ?_ extended.locked, extended, given⟩
  · have link : m'.next m.top = f := by rw [pointers, Function.update_self]
    rw [link]
    exact (laid.chains h side f head).congr (keeps h side)
  · intro feedback w wrapper
    cases wrapper
  · rw [extended.top]
    omega
  · intro x above below
    rw [extended.top] at below
    obtain rfl : x = m.top := by omega
    simp [Installed.filters]
  · simp [Installed.filters]
  · intro x member
    obtain rfl : x = m.top := by simpa [Installed.filters] using member
    have positive := laid.top_pos exists'
    rw [extended.top]
    omega
  · intro x member h side
    obtain rfl : x = m.top := by simpa [Installed.filters] using member
    exact laid.top_notMem 0 h side

/-- What is needed of a fresh chain. -/
theorem fresh_facts (laid : m.Laid own log) {addme : Nat} (fresh : FreshChain own log m addme) :
    0 ∉ m.chainFrom addme ∧ (m.chainFrom addme).length ≤ m.top ∧
      ∀ h side, List.Disjoint (m.chainFrom addme) (Filter.laid own log h side) := by
  refine ⟨?_, length_le_of_nodup fresh.nodup fun x member => (fresh.allocated x member).2, ?_⟩
  · intro member
    exact absurd (fresh.allocated 0 member).1 (Nat.lt_irrefl 0)
  · intro h side x new old
    exact laid.notMem_of_unused (fresh.unused x new) h side old

/-- A chain in front. -/
theorem add (laid : m.Laid own log) {side : Side} {h addme : Nat} (exists' : (own h side).isSome)
    (fresh : FreshChain own log m addme) :
    ∃ m', m.addFilter side h addme = some m' ∧
      m'.Laid own (log ++ [{ handle := h, side := side, front := m.chainFrom addme }]) ∧
      Extended m m' h side addme 0 (m.chainFrom addme) := by
  obtain ⟨f, head⟩ := laid.exists_head h side exists'
  obtain ⟨valid, enough, disjoint⟩ := laid.fresh_facts fresh
  obtain ⟨m', executed, extended, pointers⟩ :=
    addFilter_spec (laid.unlocked h) head fresh.ends fresh.nonempty valid enough
  refine ⟨m', executed, laid.install extended.obj exists' ?_ ?_ ?_ (Nat.le_of_eq extended.top.symm)
    ?_ extended.calls ?_ ?_ ?_ extended.locked, extended⟩
  · rw [pointers]
    exact fresh.ends.join fresh.nonempty fresh.nodup (laid.chains h side f head) (disjoint h side)
  · intro h side _ x member
    have other : x ≠ (m.chainFrom addme).getLast fresh.nonempty := fun same =>
      disjoint h side (List.getLast_mem fresh.nonempty) (same ▸ member)
    rw [pointers, Function.update_of_ne other]
  · intro feedback w wrapper
    cases wrapper
  · intro x above below
    rw [extended.top] at below
    omega
  · simpa [Installed.filters] using fresh.nodup
  · intro x member
    rw [extended.top]
    exact fresh.allocated x (by simpa [Installed.filters] using member)
  · intro x member h side
    exact disjoint h side (by simpa [Installed.filters] using member)

/-- The pointers of a feedback loop: the new chain is joined to the old one, then the metric is
spliced in behind its filter, then the controller is put on top, where no other pointer leads. -/
theorem chain_loop {next : Nat → Nat} {addme f feedback top : Nat} {l chain : List Nat}
    (ends : Chain next addme l 0) (nonempty : l ≠ []) (machine : Chain next f chain 0)
    (nodup : (l ++ chain).Nodup) (below : ∀ x ∈ l ++ chain, x < top) (member : feedback ∈ chain) :
    let joined := Function.update next (l.getLast nonempty) f
    Chain (Function.update (Function.update (Function.update joined (top + 1) (joined feedback))
      feedback (top + 1)) top addme) addme (l ++ insertBehind feedback (top + 1) chain) 0 := by
  intro joined
  have disjoint : l.Disjoint chain := List.disjoint_of_nodup_append nodup
  have whole : Chain joined addme (l ++ chain) 0 :=
    ends.join nonempty nodup.of_append_left machine disjoint
  have unseen : top + 1 ∉ l ++ chain := by
    intro visited
    have bound := below _ visited
    omega
  have spliced := whole.splice nodup (List.mem_append_right _ member) unseen
  rw [insertBehind_append_of_notMem fun new => disjoint new member] at spliced
  refine spliced.congr ?_
  intro x visited
  have other : x ≠ top := by
    intro same
    rcases List.mem_append.mp visited with new | rest
    · exact absurd (below x (List.mem_append_left _ new)) (by omega)
    · rcases List.mem_cons.mp ((insertBehind_perm member).subset rest) with isNew | inside
      · omega
      · exact absurd (below x (List.mem_append_right _ inside)) (by omega)
  rw [Function.update_of_ne other]

/-- A feedback loop: the controller and the chain in front, and the metric behind its filter. -/
theorem addFeedback (laid : m.Laid own log) {h addme feedback metric f : Nat}
    (fresh : FreshChain own log m addme) (metricExists : 0 < metric) (metricOld : metric < m.top)
    (head : m.obj h .write = some f) (member : feedback ∈ m.chainFrom f) :
    ∃ m', m.addFeedbackWriteFilter h addme feedback metric = some m' ∧
      m'.Laid own (log ++ [{
        handle := h, side := .write, front := m.top :: m.chainFrom addme
        wrapper := some (feedback, m.top + 1) }]) ∧
      m'.next m.top = addme ∧ m'.next feedback = m.top + 1 ∧
      m'.next (m.top + 1) = m.next feedback ∧
      Extended m m' h .write m.top 2 (m.chainFrom addme) ∧
      Looped m' m.top (m.top + 1) (m.cell metric).reset (m.cell metric).obj metric := by
  obtain ⟨valid, enough, disjoint⟩ := laid.fresh_facts fresh
  rw [laid.chainFrom_eq head] at member
  have machine := laid.chains h .write f head
  have old := (laid.allocated h .write feedback member).2
  obtain ⟨m', executed, extended, ⟨joined, linked, pointers⟩, looped⟩ :=
    addFeedbackWriteFilter_spec (laid.unlocked h) head machine
      (laid.zero_notMem h .write) (laid.length_le h .write) member old metricExists metricOld
      fresh.ends fresh.nonempty valid enough
  let l := m.chainFrom addme
  have exists' : (own h .write).isSome := by rw [← laid.descriptors, head]; rfl
  have feedbackNotNew : feedback ∉ l := fun new => disjoint h .write new member
  have notLast : ∀ x, x ∉ l → x ≠ l.getLast fresh.nonempty := by
    intro x absent same
    exact absent (same ▸ List.getLast_mem fresh.nonempty)
  have below : ∀ x ∈ l ++ Filter.laid own log h .write, x < m.top := by
    intro x visited
    rcases List.mem_append.mp visited with new | old
    · exact (fresh.allocated x new).2
    · exact (laid.allocated h .write x old).2
  refine ⟨m', executed, ?_, ?_, ?_, ?_, extended, looped⟩
  · refine laid.install extended.obj exists' ⟨rfl, ?_⟩ ?_ ?_ ?_ ?_ extended.calls ?_ ?_ ?_
      extended.locked
    · have link : m'.next m.top = addme := by rw [pointers, Function.update_self]
      have nodup : (l ++ Filter.laid own log h .write).Nodup :=
        fresh.nodup.append (laid.nodup h .write) (disjoint h .write)
      rw [link, pointers, linked]
      exact chain_loop fresh.ends fresh.nonempty machine nodup below member
    · intro h' side' elsewhere x inside
      have notFeedback : x ≠ feedback := by
        intro same
        obtain ⟨rfl, rfl⟩ := laid.apart h .write h' side' feedback member (same ▸ inside)
        exact elsewhere ⟨rfl, rfl⟩
      have notController : x ≠ m.top := fun same => laid.top_notMem 0 h' side' (same ▸ inside)
      have notWrapper : x ≠ m.top + 1 := fun same => laid.top_notMem 1 h' side' (same ▸ inside)
      have notEnd := notLast x fun new => disjoint h' side' new inside
      rw [pointers, Function.update_of_ne notController, Function.update_of_ne notFeedback,
        Function.update_of_ne notWrapper, linked, Function.update_of_ne notEnd]
    · intro named w wrapper
      obtain ⟨rfl, -⟩ : feedback = named ∧ m.top + 1 = w := by simpa using wrapper
      exact member
    · rw [extended.top]
      omega
    · intro x above below
      rw [extended.top] at below
      rw [Installed.mem_filters_loop]
      omega
    · have first : m.top ∉ l := fun new => absurd (fresh.allocated _ new).2 (Nat.lt_irrefl _)
      have second : m.top + 1 ∉ l := fun new => absurd (fresh.allocated _ new).2 (by omega)
      simp only [Installed.filters, Option.map_some, Option.toList_some]
      refine (List.nodup_cons.mpr ⟨first, fresh.nodup⟩).append (List.nodup_singleton _) ?_
      simp only [List.disjoint_singleton, List.mem_cons, not_or]
      exact ⟨by omega, second⟩
    · intro x new
      have positive := laid.top_pos exists'
      rw [extended.top]
      rcases Installed.mem_filters_loop.mp new with rfl | inChain | rfl
      · omega
      · have bounds := fresh.allocated x inChain
        omega
      · omega
    · intro x new h' side'
      rcases Installed.mem_filters_loop.mp new with rfl | inChain | rfl
      · exact laid.top_notMem 0 h' side'
      · exact fun inside => disjoint h' side' inChain inside
      · exact laid.top_notMem 1 h' side'
  · rw [pointers, Function.update_self]
  · rw [pointers, Function.update_of_ne (Nat.ne_of_lt old), Function.update_self]
  · have notController : m.top + 1 ≠ m.top := by omega
    have notFeedback : m.top + 1 ≠ feedback := by omega
    rw [pointers, Function.update_of_ne notController, Function.update_of_ne notFeedback,
      Function.update_self, linked, Function.update_of_ne (notLast feedback feedbackNotNew)]

/-- **One call.** Every permitted call returns, and the pointers follow the lists again. -/
theorem exec (laid : m.Laid own log) {c : ChainCall} (permitted : c.Permitted own log m) :
    ∃ m', m.exec c = some m' ∧ m'.Laid own (log ++ m.installed c) ∧
      ∀ h side, ∀ x ∈ Filter.laid own log h side,
        m'.cell x = { m.cell x with next := m'.next x } := by
  cases c with
  | register side h fn name =>
      obtain ⟨m', executed, laid', extended, -⟩ := laid.register fn name permitted
      refine ⟨m', ?_, laid', fun h side x member => ?_⟩
      · cases side <;> exact executed
      · exact extended.kept x (laid.allocated h side x member).2 List.not_mem_nil
  | add side h addme =>
      obtain ⟨m', executed, laid', extended⟩ := laid.add permitted.1 permitted.2
      refine ⟨m', ?_, laid', fun h side x member => ?_⟩
      · cases side <;> exact executed
      · refine extended.kept x (laid.allocated h side x member).2 fun new => ?_
        exact (laid.fresh_facts permitted.2).2.2 h side new member
  | addFeedback h addme feedback metric =>
      obtain ⟨fresh, metricExists, metricOld, f, head, member⟩ := permitted
      obtain ⟨m', executed, laid', -, -, -, extended, -⟩ :=
        laid.addFeedback fresh metricExists metricOld head member
      refine ⟨m', executed, laid', fun h side x member => ?_⟩
      refine extended.kept x (laid.allocated h side x member).2 fun new => ?_
      exact (laid.fresh_facts fresh).2.2 h side new member
  | create name fn =>
      have other : ∀ h side, ∀ x ∈ Filter.laid own log h side, x ≠ m.top :=
        fun h side x member same => laid.top_notMem 0 h side (same ▸ member)
      rw [installed, List.append_nil]
      refine ⟨_, rfl, laid.unchanged rfl ?_ ?_ (Nat.le_succ _) rfl, ?_⟩
      · intro h side x member
        rw [next_createFilter, Function.update_of_ne (other h side x member)]
      · intro x below unused
        by_cases new : x = m.top
        · subst new
          exact ⟨fn, call_createFilter_top ..⟩
        · rw [cell_createFilter_of_ne _ _ new]
          have old : x < m.top := Nat.lt_of_le_of_ne (Nat.le_of_lt_succ below) new
          exact laid.given x old unused
      · intro h side x member
        rw [next, cell_createFilter_of_ne _ _ (other h side x member)]
  | write f filter =>
      obtain ⟨-, -, unused, fn, given⟩ := permitted
      have other : ∀ h side, ∀ x ∈ Filter.laid own log h side, x ≠ f :=
        fun h side x member same => laid.notMem_of_unused unused h side (same ▸ member)
      rw [installed, List.append_nil]
      refine ⟨_, rfl, laid.unchanged rfl ?_ ?_ (Nat.le_refl _) rfl, ?_⟩
      · intro h side x member
        rw [next_store, Function.update_of_ne (other h side x member)]
      · intro x below stillUnused
        by_cases same : x = f
        · subst same
          exact ⟨fn, by simpa [store] using given⟩
        · rw [cell_store_of_ne _ same]
          exact laid.given x below stillUnused
      · intro h side x member
        rw [next, cell_store_of_ne _ (other h side x member)]

end Laid

/-- **A run of calls.** A sequence of permitted calls gets to every point, and there the pointers
follow the lists. -/
theorem run_laid {before rest : List ChainCall} (laid : m.Laid own log)
    (legal : Legal own log m (before ++ rest)) :
    ∃ m', m.run before = some m' ∧ m'.Laid own (log ++ m.history before) ∧
      Legal own (log ++ m.history before) m' rest := by
  induction before generalizing m log with
  | nil => exact ⟨m, rfl, by simpa [history] using laid, by simpa [history] using legal⟩
  | cons c before ih =>
      obtain ⟨permitted, later⟩ := legal
      obtain ⟨m₁, executed, laid₁, -⟩ := laid.exec permitted
      obtain ⟨m', reached, laid', legal'⟩ := ih laid₁ (later m₁ executed)
      have split : m.history (c :: before) = m.installed c ++ m₁.history before := by
        rw [history, executed]
      rw [split, ← List.append_assoc]
      exact ⟨m', by rw [run, executed, Option.bind_some, reached], laid', legal'⟩

end Filters

/-- **Whole runs.** -/
theorem Filters.Start.run_laid {own : Nat → Side → Option Nat} {m : Filters}
    {calls : List ChainCall} (start : m.Start own) (legal : Legal own [] m calls) :
    ∃ m', m.run calls = some m' ∧ m'.Laid own (m.history calls) := by
  rw [← List.append_nil calls] at legal
  obtain ⟨m', ran, laid, -⟩ := Filters.run_laid start.laid legal
  exact ⟨m', ran, laid⟩

/-- **Filter chains stay well formed.** Every sequence of permitted calls returns. Following `next`
from the first filter of a descriptor then ends, and meets the descriptor's own filter and every
filter that was ever added there exactly once: the chains that were added later come first, and
each of them is in its own order. Each feedback loop put its controller on top when it was added,
and its metric directly behind the filter that the call named. -/
theorem filter_chains_well_formed {own : Nat → Side → Option Nat} {m : Filters}
    {calls : List ChainCall} (start : m.Start own) (legal : Legal own [] m calls) :
    ∃ m', m.run calls = some m' ∧
      (∀ h side f, own h side = some f → ∃ head, m'.obj h side = some head ∧
        Chain m'.next head (m'.chainFrom head) 0 ∧ (m'.chainFrom head).Nodup ∧
        (m'.chainFrom head).Perm (addedAt h side (m.history calls) ++ [f]) ∧
        ((installedAt h side (m.history calls)).reverse.flatMap Installed.front ++ [f]).Sublist
          (m'.chainFrom head)) ∧
      ∀ before after h addme feedback metric,
        calls = before ++ .addFeedback h addme feedback metric :: after →
        ∃ m₁ m₂, m.run before = some m₁ ∧
          m₁.exec (.addFeedback h addme feedback metric) = some m₂ ∧
          (m₂.obj h .write = some m₁.top ∧ (m₂.cell m₁.top).call = .feedbackControllerFn ∧
            m₂.next m₁.top = addme) ∧
          m₂.next feedback = m₁.top + 1 ∧ (m₂.cell (m₁.top + 1)).call = .feedbackMetricFn ∧
          (m₂.cell (m₁.top + 1)).obj = .metric metric ∧
          m₂.next (m₁.top + 1) = m₁.next feedback := by
  obtain ⟨m', ran, laid⟩ := start.run_laid legal
  refine ⟨m', ran, ?_, ?_⟩
  · intro h side f isOwn
    obtain ⟨head, first⟩ := laid.exists_head h side (by simp [isOwn])
    have counted := laid.counted h side
    have ordered := fronts_sublist_laid own (m.history calls) h side
    rw [isOwn, Option.toList_some] at counted ordered
    refine ⟨head, first, ?_⟩
    rw [laid.chainFrom_eq first]
    exact ⟨laid.chains h side head first, laid.nodup h side, counted, ordered⟩
  · intro before after h addme feedback metric split
    obtain ⟨m₁, ran₁, laid₁, permitted, -⟩ := Filters.run_laid start.laid (split ▸ legal)
    obtain ⟨fresh, metricExists, metricOld, f, head, member⟩ := permitted
    obtain ⟨m₂, executed, -, top, behind, rest, extended, looped⟩ :=
      laid₁.addFeedback fresh metricExists metricOld head member
    refine ⟨m₁, m₂, ran₁, executed, ⟨?_, looped.controllerCall, top⟩, behind, looped.wrapperCall,
      looped.wrapperObj, rest⟩
    simp [extended.obj, Filters.setObj]

/-! ## An example -/

/-- The own filters of the machine with handle 1. -/
def sampleOwn (h : Nat) (side : Side) : Option Nat :=
  match h, side with
  | 1, .read => some 1
  | 1, .write => some 2
  | _, _ => none

/-- The machine with handle 1, and filters of a caller: a chain of two, a metric and one more. -/
def sampleFilters : Filters where
  cell
    | 3 => { enabled := true, next := 4, call := .given 3 }
    | f => { enabled := true, call := .given f }
  top := 7
  obj := sampleOwn
  locked := fun _ => false

theorem sampleFilters_start : sampleFilters.Start sampleOwn where
  descriptors := rfl
  allocated := by
    intro h side f isOwn
    unfold sampleOwn at isOwn
    split at isOwn <;> cases isOwn <;> decide
  last := by
    intro h side f isOwn
    unfold sampleOwn at isOwn
    split at isOwn <;> cases isOwn <;> rfl
  apart := by
    intro h side h' side' f isOwn isOwn'
    unfold sampleOwn at isOwn isOwn'
    split at isOwn <;> split at isOwn' <;> cases isOwn <;> cases isOwn' <;> exact ⟨rfl, rfl⟩
  given := by
    intro f _
    by_cases three : f = 3
    · exact ⟨3, by rw [three]; rfl⟩
    · exact ⟨f, by simp [sampleFilters]⟩
  unlocked := fun _ => rfl

/-- A chain, a feedback loop around one of its filters, and a read filter. -/
def sampleCalls : List ChainCall :=
  [.add .write 1 3, .addFeedback 1 6 4 5, .register .read 1 9 ['r']]

theorem Legal.cons {own : Nat → Side → Option Nat} {log : List Installed} {m : Filters}
    {c : ChainCall} {calls : List ChainCall} (m' : Filters) (permitted : c.Permitted own log m)
    (executed : m.exec c = some m') (later : Legal own (log ++ m.installed c) m' calls) :
    Legal own log m (c :: calls) := by
  refine ⟨permitted, fun m'' executed' => ?_⟩
  obtain rfl : m' = m'' := Option.some.inj (executed.symm.trans executed')
  exact later

theorem sampleOwn_ne {x : Nat} (large : 2 < x) (h : Nat) (side : Side) :
    sampleOwn h side ≠ some x := by
  intro isOwn
  unfold sampleOwn at isOwn
  split at isOwn <;> cases isOwn <;> omega

theorem sampleCalls_legal : Legal sampleOwn [] sampleFilters sampleCalls := by
  refine Legal.cons ((sampleFilters.exec (.add .write 1 3)).get rfl) ⟨rfl, ?_⟩ rfl ?_
  · refine ⟨⟨rfl, rfl, rfl⟩, by decide, by decide, by decide, ?_⟩
    intro x member
    refine ⟨sampleOwn_ne ?_, by simp⟩
    revert x
    decide
  · let m₁ := (sampleFilters.exec (.add .write 1 3)).get rfl
    refine Legal.cons ((m₁.exec (.addFeedback 1 6 4 5)).get rfl)
      ⟨?_, by decide, by decide, 3, rfl, by decide⟩ rfl (Legal.cons _ rfl rfl trivial)
    refine ⟨⟨rfl, rfl⟩, by decide, by decide, by decide, ?_⟩
    intro x member
    have isLast : x = 6 := by
      revert x
      decide
    subst isLast
    exact ⟨sampleOwn_ne (by decide), by decide⟩

theorem sampleCalls_chain :
    ∃ m', sampleFilters.run sampleCalls = some m' ∧
      ∃ head, m'.obj 1 .write = some head ∧ (m'.chainFrom head).Perm [3, 4, 7, 6, 8, 2] := by
  obtain ⟨m', ran, chains, -⟩ := filter_chains_well_formed sampleFilters_start sampleCalls_legal
  obtain ⟨head, first, -, -, counted, -⟩ := chains 1 .write 2 rfl
  exact ⟨m', ran, head, first, counted⟩

end Bingewatch.Filter
