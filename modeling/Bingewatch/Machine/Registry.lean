import Mathlib.Algebra.Ring.Nat
import Bingewatch.Foundation.Transition
import Bingewatch.Foundation.LinkedList

/-!
# Machines, handles and descriptors

Three tables of the library: the machines by name and the map from handles to machines
(`src/machine-mgmt.c`), and the list of descriptors by handle (`src/machine.c`). The map is an array
that grows by `MACHINE_CHUNK` slots; the descriptors form a singly linked list.

`registries_consistent` is about every sequence of calls on them: what the calls have returned and
what the tables answer agree. The capacity of the map is an `int` that grows by whole chunks, so a
request overflows it while there are still handles left (`handle_alloc_overflows`).
-/

set_option autoImplicit false

namespace Bingewatch.Machine

open Foundation

/-! ## The tables -/

/-- The largest `int`. -/
def intMax : Nat := 2 ^ 31 - 1

/-- `MACHINE_CHUNK`. -/
def machineChunk : Nat := 0x100

/-- A `size_t` stored in an `IO_HANDLE`, which is an `int`. -/
def toIoHandle (n : Nat) : Int := (n : Int).bmod (2 ^ 32)

/-- An entry of `struct handle_map_t`; machines are numbered in the order of their registration. -/
structure HandleEntry where
  handle : Int
  machine : Nat
  deriving DecidableEq, Repr

/-- `handle_map`, whose unused slots are not initialised, with `handle_count`, `handle_alloc` and
the static counter of `request_handle`. -/
structure HandleMap where
  slots : List (Option HandleEntry) := []
  handleCount : Nat := 0
  handleAlloc : Nat := 0
  handleCounter : Nat := 0

/-- The names of `machines`, the handle map and the list `machine_descriptors`. -/
structure Registry where
  machines : List String := []
  handles : HandleMap := {}
  descs : Links Int := { key := fun _ => 0 }

/-! ## The calls -/

/-- `get_machine`. -/
def getMachine (R : Registry) (name : String) : Option Nat := R.machines.findIdx? (· = name)

/-- `get_machine_by_handle`. -/
def HandleMap.getMachineByHandle (T : HandleMap) (handle : Int) : Option Nat :=
  (T.slots.take T.handleCount).findSome? fun slot =>
    slot.bind fun entry => if entry.handle = handle then some entry.machine else none

/-- `get_machine_ref`. -/
def getMachineRef (R : Registry) (handle : Int) : Option Nat := R.handles.getMachineByHandle handle

/-- `machine_register`: no machine for a name that is taken. Past the range of `machine_count` the
call is undefined. -/
def machineRegister (R : Registry) (name : String) : Option (Registry × Option Nat) :=
  match getMachine R name with
  | some _ => some (R, none)
  | none =>
      if R.machines.length + 1 ≤ intMax then
        some ({ R with machines := R.machines ++ [name] }, some R.machines.length)
      else none

/-- The first part of `request_handle`: allocate the map, or extend it when it is full. Past the
range of `handle_alloc` the call is undefined. -/
def HandleMap.grow (T : HandleMap) : Option HandleMap :=
  let T : HandleMap :=
    if T.slots.isEmpty then
      { T with slots := List.replicate machineChunk none, handleAlloc := machineChunk }
    else T
  if T.handleCount = T.handleAlloc then
    if T.handleAlloc + machineChunk ≤ intMax then
      some
        { T with
          slots := T.slots ++ List.replicate machineChunk none
          handleAlloc := T.handleAlloc + machineChunk }
    else none
  else some T

/-- `request_handle`. -/
def HandleMap.requestHandle (T : HandleMap) (machine : Nat) : Option (HandleMap × Int) :=
  T.grow.map fun T =>
    let counter := (T.handleCounter + 1) % 2 ^ 64
    let handle := toIoHandle counter
    ({ T with
        slots := T.slots.set T.handleCount (some ⟨handle, machine⟩)
        handleCount := T.handleCount + 1
        handleCounter := counter }, handle)

/-- `machine_register_desc` of the descriptor at `addme`, a descriptor of `machine`. -/
def machineRegisterDesc (R : Registry) (addme machine : Nat) : Option (Registry × Int) :=
  (R.handles.requestHandle machine).map fun (handles, h) =>
    if h = 0 then ({ R with handles := handles }, 0)
    else ({ R with handles := handles, descs := R.descs.append addme h }, h)

/-- `machine_get_desc`: the address of the descriptor, or null. -/
def machineGetDesc (R : Registry) (h : Int) : Nat := R.descs.find h

/-- `machine_destroy_desc`. -/
def machineDestroyDesc (R : Registry) (h : Int) : Registry := { R with descs := R.descs.unlink h }

/-- A call on the tables. -/
inductive RegistryCall where
  | machineRegister (name : String)
  | requestHandle (machine : Nat)
  | machineRegisterDesc (addme machine : Nat)
  | machineDestroyDesc (h : Int)
  deriving DecidableEq, Repr

/-- What a call returns. -/
inductive Result where
  | machine (m : Option Nat)
  | handle (h : Int)
  | done
  deriving DecidableEq, Repr

/-- The arguments a caller can have: machines that `machine_register` has returned, and descriptors
that are fresh. -/
def RegistryCall.Admissible (R : Registry) : RegistryCall → Prop
  | .machineRegister _ => True
  | .requestHandle machine => machine < R.machines.length
  | .machineRegisterDesc addme machine =>
      addme ≠ 0 ∧ addme ∉ R.descs.nodes ∧ machine < R.machines.length
  | .machineDestroyDesc _ => True

instance RegistryCall.decidableAdmissible (R : Registry) :
    (c : RegistryCall) → Decidable (c.Admissible R)
  | .machineRegister _ => inferInstanceAs (Decidable True)
  | .requestHandle machine => inferInstanceAs (Decidable (machine < R.machines.length))
  | .machineRegisterDesc addme machine =>
      inferInstanceAs
        (Decidable (addme ≠ 0 ∧ addme ∉ R.descs.nodes ∧ machine < R.machines.length))
  | .machineDestroyDesc _ => inferInstanceAs (Decidable True)

/-- The tables have room for the call, where `handles` are issued: only a machine with a new name
is counted, and only a call that requests a handle may extend the map. -/
def RegistryCall.RoomIn (R : Registry) (handles : Nat) : RegistryCall → Prop
  | .machineRegister name => name ∈ R.machines ∨ R.machines.length < intMax
  | .requestHandle _ => handles + machineChunk ≤ intMax
  | .machineRegisterDesc _ _ => handles + machineChunk ≤ intMax
  | .machineDestroyDesc _ => True

/-- What a call does. -/
def Registry.perform (R : Registry) : RegistryCall → Option (Registry × Result)
  | .machineRegister name => (machineRegister R name).map fun (R, m) => (R, .machine m)
  | .requestHandle machine =>
      (R.handles.requestHandle machine).map fun (handles, h) =>
        ({ R with handles := handles }, .handle h)
  | .machineRegisterDesc addme machine =>
      (machineRegisterDesc R addme machine).map fun (R, h) => (R, .handle h)
  | .machineDestroyDesc h => some (machineDestroyDesc R h, .done)

/-- A call with admissible arguments. -/
def Registry.call (R : Registry) (c : RegistryCall) : Option (Registry × Result) :=
  if c.Admissible R then R.perform c else none

/-! ## What the calls have returned -/

/-- The handle a call was given, with its machine. -/
def issue : RegistryCall × Result → Option HandleEntry
  | (.requestHandle machine, .handle h) => some ⟨h, machine⟩
  | (.machineRegisterDesc _ machine, .handle h) => some ⟨h, machine⟩
  | _ => none

/-- The handles that the calls of a log were given. -/
def issued (log : List (RegistryCall × Result)) : List HandleEntry := log.filterMap issue

/-- The descriptor registered under `h` by the calls of a log and not destroyed since, or null. -/
def registered (h : Int) (log : List (RegistryCall × Result)) : Nat :=
  log.foldl (fun desc event =>
    match event with
    | (.machineRegisterDesc addme _, .handle h') => if h = h' then addme else desc
    | (.machineDestroyDesc h', _) => if h = h' then 0 else desc
    | _ => desc) 0

/-! ## The handle map -/

/-- The map holds the issued entries in their order, numbered from one, and unused slots behind
them. -/
structure HandleMap.Holds (T : HandleMap) (entries : List HandleEntry) : Prop where
  slots : ∃ free, T.slots = entries.map some ++ List.replicate free none
  count : T.handleCount = entries.length
  counter : T.handleCounter = entries.length
  alloc : T.handleAlloc = T.slots.length
  bound : T.handleAlloc ≤ intMax
  numbered : entries.map HandleEntry.handle =
    (List.range entries.length).map fun i : Nat => (i : Int) + 1

theorem HandleMap.Holds.length_le {T : HandleMap} {entries : List HandleEntry}
    (holds : T.Holds entries) : entries.length ≤ T.handleAlloc := by
  obtain ⟨free, slots⟩ := holds.slots
  rw [holds.alloc, slots]
  simp

theorem HandleMap.holds_new : HandleMap.Holds {} [] where
  slots := ⟨0, rfl⟩
  count := rfl
  counter := rfl
  alloc := rfl
  bound := by decide
  numbered := rfl

/-- Growing keeps the entries and leaves a free slot. -/
theorem HandleMap.Holds.grow {T T' : HandleMap} {entries : List HandleEntry}
    (holds : T.Holds entries) (grown : T.grow = some T') :
    T'.Holds entries ∧ entries.length < T'.handleAlloc := by
  have chunk : 0 < machineChunk := by decide
  obtain ⟨free, slots⟩ := holds.slots
  unfold HandleMap.grow at grown
  simp only at grown
  by_cases fresh : T.slots.isEmpty
  · have empty : entries = [] := by
      rw [List.isEmpty_iff, slots] at fresh
      simpa using (List.append_eq_nil_iff.mp fresh).1
    subst empty
    have unused : ¬ T.handleCount = machineChunk := by
      rw [holds.count]
      decide
    simp only [if_pos fresh, if_neg unused, Option.some.injEq] at grown
    subst grown
    refine ⟨⟨⟨machineChunk, rfl⟩, holds.count, holds.counter, ?_, ?_, holds.numbered⟩, chunk⟩
    · simp
    · exact (by decide : machineChunk ≤ intMax)
  · simp only [if_neg fresh] at grown
    split_ifs at grown with full room
    · cases grown
      refine ⟨⟨⟨free + machineChunk, ?_⟩, holds.count, holds.counter, ?_, room, holds.numbered⟩, ?_⟩
      · simp [slots]
      · simp [holds.alloc]
      · have fits := holds.length_le
        simp only
        omega
    · cases grown
      have fits := holds.length_le
      have count := holds.count
      exact ⟨holds, by omega⟩

theorem toIoHandle_eq {n : Nat} (small : n ≤ intMax) : toIoHandle n = n := by
  unfold toIoHandle intMax at *
  rw [Int.bmod_eq_of_le] <;> omega

/-- A request puts one more entry into the map, with the next number as its handle. -/
theorem HandleMap.Holds.request {T T' : HandleMap} {entries : List HandleEntry} {machine : Nat}
    {h : Int} (holds : T.Holds entries) (requested : T.requestHandle machine = some (T', h)) :
    h = (entries.length : Int) + 1 ∧ T'.Holds (entries ++ [⟨h, machine⟩]) := by
  obtain ⟨G, grown, made⟩ := Option.map_eq_some_iff.mp requested
  obtain ⟨held, room⟩ := holds.grow grown
  have bound := held.bound
  have wide : (G.handleCounter + 1) % 2 ^ 64 = entries.length + 1 := by
    rw [held.counter, Nat.mod_eq_of_lt]
    unfold intMax at bound
    omega
  have handle : toIoHandle ((G.handleCounter + 1) % 2 ^ 64) = (entries.length : Int) + 1 := by
    rw [wide, toIoHandle_eq (by omega)]
    simp
  simp only [handle, Prod.mk.injEq] at made
  obtain ⟨rfl, rfl⟩ := made
  refine ⟨rfl, ?_, ?_, ?_, ?_, ?_, ?_⟩
  · obtain ⟨free, slots⟩ := held.slots
    have alloc := held.alloc
    rw [slots] at alloc
    cases free with
    | zero =>
        simp at alloc
        omega
    | succ free =>
        refine ⟨free, ?_⟩
        simp [slots, held.count, List.replicate_succ]
  · simp [held.count]
  · rw [List.length_append, List.length_singleton]
    exact wide
  · simp [held.alloc]
  · exact bound
  · simp [held.numbered, List.range_succ]

theorem HandleMap.Holds.handle_ne_zero {T : HandleMap} {entries : List HandleEntry}
    (holds : T.Holds entries) : ∀ entry ∈ entries, entry.handle ≠ 0 := by
  intro entry member
  have listed : entry.handle ∈ entries.map HandleEntry.handle := List.mem_map_of_mem member
  rw [holds.numbered] at listed
  obtain ⟨i, -, number⟩ := List.mem_map.mp listed
  omega

theorem HandleMap.Holds.nodup {T : HandleMap} {entries : List HandleEntry}
    (holds : T.Holds entries) : (entries.map HandleEntry.handle).Nodup := by
  rw [holds.numbered]
  refine List.Nodup.map (fun i j same => ?_) List.nodup_range
  have same : (i : Int) + 1 = j + 1 := same
  omega

/-- A look-up in a list of entries with distinct handles. -/
theorem findSome_entry {entries : List HandleEntry} {entry : HandleEntry}
    (distinct : (entries.map HandleEntry.handle).Nodup) (member : entry ∈ entries) :
    (entries.findSome? fun e => if e.handle = entry.handle then some e.machine else none) =
      some entry.machine := by
  induction entries with
  | nil => cases member
  | cons first entries ih =>
      rw [List.map_cons, List.nodup_cons] at distinct
      rcases List.mem_cons.mp member with rfl | later
      · simp
      · have other : first.handle ≠ entry.handle := fun same =>
          distinct.1 (same ▸ List.mem_map_of_mem later)
        rw [List.findSome?_cons, if_neg other]
        exact ih distinct.2 later

/-- The map resolves every handle it has issued. -/
theorem HandleMap.Holds.resolves {T : HandleMap} {entries : List HandleEntry}
    (holds : T.Holds entries) :
    ∀ entry ∈ entries, T.getMachineByHandle entry.handle = some entry.machine := by
  intro entry member
  obtain ⟨free, slots⟩ := holds.slots
  have used : T.slots.take T.handleCount = entries.map some := by
    rw [slots, holds.count]
    simp
  rw [HandleMap.getMachineByHandle, used, List.findSome?_map]
  exact findSome_entry holds.nodup member

/-- A request succeeds while the map has room for one more chunk. -/
theorem HandleMap.Holds.request_isSome {T : HandleMap} {entries : List HandleEntry}
    (holds : T.Holds entries) (room : entries.length + machineChunk ≤ intMax) (machine : Nat) :
    (T.requestHandle machine).isSome := by
  have count := holds.count
  unfold HandleMap.requestHandle HandleMap.grow
  simp only [Option.isSome_map]
  split_ifs
  all_goals
    simp_all
  omega

/-! ## The three tables together -/

/-- The tables agree with the log of the calls that led to them. -/
structure Registry.Agrees (R : Registry) (log : List (RegistryCall × Result)) : Prop where
  handles : R.handles.Holds (issued log)
  linked : R.descs.WellLinked
  looksUp : ∀ h, R.descs.find h = registered h log
  known : ∀ h, R.descs.find h ≠ 0 → h ≤ (issued log).length
  named : ∀ name m, (.machineRegister name, .machine (some m)) ∈ log → name ∈ R.machines

theorem Registry.agrees_new : Registry.Agrees {} [] where
  handles := HandleMap.holds_new
  linked := Links.wellLinked_empty _
  looksUp := fun _ => rfl
  known := fun _ found => absurd rfl found
  named := by simp

theorem issued_snoc (log : List (RegistryCall × Result)) (event : RegistryCall × Result) :
    issued (log ++ [event]) = issued log ++ (issue event).toList := by
  rw [issued, List.filterMap_append]
  cases found : issue event <;> simp [issued, found]

theorem getMachine_eq_none {R : Registry} {name : String} :
    getMachine R name = none ↔ name ∉ R.machines := by
  simp only [getMachine, List.findIdx?_eq_none_iff, decide_eq_false_iff_not]
  exact ⟨fun absent member => absent name member rfl, fun absent x member same =>
    absent (same ▸ member)⟩

variable {R R' : Registry} {log : List (RegistryCall × Result)}

theorem Registry.Agrees.machineRegister {name : String} {m : Option Nat} (agrees : R.Agrees log)
    (made : machineRegister R name = some (R', m)) :
    R'.Agrees (log ++ [(.machineRegister name, .machine m)]) := by
  have same : issued (log ++ [(.machineRegister name, .machine m)]) = issued log := by
    simp [issued_snoc, issue]
  have tables : R'.handles = R.handles ∧ R'.descs = R.descs ∧
      (∀ x ∈ R.machines, x ∈ R'.machines) ∧ (m ≠ none → name ∈ R'.machines) := by
    unfold Machine.machineRegister at made
    split at made
    · cases made
      simp
    · split at made
      · cases made
        simp +contextual
      · cases made
  obtain ⟨handles, descs, kept, added⟩ := tables
  refine ⟨?_, ?_, ?_, ?_, ?_⟩
  · rw [handles, same]
    exact agrees.handles
  · exact descs ▸ agrees.linked
  · intro h
    rw [descs, agrees.looksUp h]
    simp [registered]
  · intro h found
    rw [same]
    exact agrees.known h (descs ▸ found)
  · intro x n member
    rcases List.mem_append.mp member with old | new
    · exact kept x (agrees.named x n old)
    · simp only [List.mem_singleton, Prod.mk.injEq, RegistryCall.machineRegister.injEq,
        Result.machine.injEq] at new
      obtain ⟨rfl, rfl⟩ := new
      exact added (by simp)

theorem Registry.Agrees.requestHandle {machine : Nat} {handles : HandleMap} {h : Int}
    (agrees : R.Agrees log) (requested : R.handles.requestHandle machine = some (handles, h)) :
    Registry.Agrees { R with handles := handles }
      (log ++ [(.requestHandle machine, .handle h)]) := by
  obtain ⟨_, holds⟩ := agrees.handles.request requested
  have entries : issued (log ++ [(RegistryCall.requestHandle machine, Result.handle h)]) =
      issued log ++ [⟨h, machine⟩] := by simp [issued_snoc, issue]
  refine ⟨?_, agrees.linked, ?_, ?_, ?_⟩
  · rw [entries]
    exact holds
  · intro h'
    rw [agrees.looksUp h']
    simp [registered]
  · intro h' found
    have old := agrees.known h' found
    rw [entries]
    simp only [List.length_append, List.length_singleton]
    omega
  · intro x n member
    exact agrees.named x n (by simpa using member)

/-- A new handle is not the null handle, and no descriptor has it. -/
theorem Registry.Agrees.unknown {machine : Nat} {handles : HandleMap} {h : Int}
    (agrees : R.Agrees log) (requested : R.handles.requestHandle machine = some (handles, h)) :
    h ≠ 0 ∧ R.descs.find h = 0 := by
  obtain ⟨number, -⟩ := agrees.handles.request requested
  refine ⟨by omega, ?_⟩
  by_contra found
  have old := agrees.known h found
  omega

/-- A registered descriptor is appended under a new handle. -/
theorem Registry.Agrees.registered_eq {addme machine : Nat} {h : Int} (agrees : R.Agrees log)
    (made : Machine.machineRegisterDesc R addme machine = some (R', h)) :
    ∃ handles, R.handles.requestHandle machine = some (handles, h) ∧
      R' = { R with handles := handles, descs := R.descs.append addme h } := by
  obtain ⟨⟨handles, h'⟩, requested, made⟩ := Option.map_eq_some_iff.mp made
  simp only [if_neg (agrees.unknown requested).1, Prod.mk.injEq] at made
  obtain ⟨rfl, rfl⟩ := made
  exact ⟨handles, requested, rfl⟩

theorem Registry.Agrees.machineRegisterDesc {addme machine : Nat} {h : Int}
    (agrees : R.Agrees log) (nonnull : addme ≠ 0) (fresh : addme ∉ R.descs.nodes)
    (made : machineRegisterDesc R addme machine = some (R', h)) :
    R'.Agrees (log ++ [(.machineRegisterDesc addme machine, .handle h)]) ∧ h ≠ 0 ∧
      (∀ h', R'.descs.find h' = if h' = h then addme else R.descs.find h') := by
  obtain ⟨handles, requested, rfl⟩ := agrees.registered_eq made
  obtain ⟨number, holds⟩ := agrees.handles.request requested
  obtain ⟨nonzero, unknown⟩ := agrees.unknown requested
  have entries : issued (log ++ [(.machineRegisterDesc addme machine, .handle h)]) =
      issued log ++ [⟨h, machine⟩] := by simp [issued_snoc, issue]
  have looks := agrees.linked.find_append nonnull fresh unknown
  refine ⟨⟨?_, agrees.linked.append nonnull fresh unknown, ?_, ?_, ?_⟩, nonzero, looks⟩
  · rw [entries]
    exact holds
  · intro k
    rw [looks k, agrees.looksUp k]
    simp [registered]
  · intro k found
    rw [entries]
    simp only [List.length_append, List.length_singleton]
    rw [looks k] at found
    split at found
    · omega
    · have old := agrees.known k found
      omega
  · intro x n member
    exact agrees.named x n (by simpa using member)

theorem Registry.Agrees.machineDestroyDesc (agrees : R.Agrees log) (h : Int) :
    (machineDestroyDesc R h).Agrees (log ++ [(.machineDestroyDesc h, .done)]) := by
  have looks := agrees.linked.find_unlink h
  have same : issued (log ++ [(RegistryCall.machineDestroyDesc h, Result.done)]) = issued log := by
    simp [issued_snoc, issue]
  refine ⟨?_, agrees.linked.unlink h, ?_, ?_, ?_⟩
  · rw [same]
    exact agrees.handles
  · intro k
    rw [Machine.machineDestroyDesc, looks k, agrees.looksUp k]
    simp [registered]
  · intro k found
    rw [Machine.machineDestroyDesc, looks k] at found
    rw [same]
    split at found
    · exact absurd rfl found
    · exact agrees.known k found
  · intro x n member
    exact agrees.named x n (by simpa using member)

/-- **One call.** -/
theorem Registry.Agrees.call {c : RegistryCall} {r : Result} (agrees : R.Agrees log)
    (called : R.call c = some (R', r)) : R'.Agrees (log ++ [(c, r)]) := by
  unfold Registry.call at called
  split at called
  · next admissible =>
      cases c with
      | machineRegister name =>
          obtain ⟨⟨S, m⟩, made, eq⟩ := Option.map_eq_some_iff.mp called
          cases eq
          exact agrees.machineRegister made
      | requestHandle machine =>
          obtain ⟨⟨handles, h⟩, requested, eq⟩ := Option.map_eq_some_iff.mp called
          cases eq
          exact agrees.requestHandle requested
      | machineRegisterDesc addme machine =>
          obtain ⟨⟨S, h⟩, made, eq⟩ := Option.map_eq_some_iff.mp called
          cases eq
          exact (agrees.machineRegisterDesc admissible.1 admissible.2.1 made).1
      | machineDestroyDesc h =>
          cases called
          exact agrees.machineDestroyDesc h
  · cases called

/-- A call with admissible arguments returns while the tables have room for it. -/
theorem Registry.Agrees.call_isSome (agrees : R.Agrees log) {c : RegistryCall}
    (admissible : c.Admissible R) (room : c.RoomIn R (issued log).length) :
    (R.call c).isSome := by
  rw [Registry.call, if_pos admissible]
  cases c with
  | machineRegister name =>
      simp only [Registry.perform, Option.isSome_map]
      unfold Machine.machineRegister
      split
      · rfl
      · next free =>
          have counted : R.machines.length < intMax :=
            room.resolve_left (getMachine_eq_none.mp free)
          rw [if_pos (by omega)]
          rfl
  | requestHandle machine =>
      simpa [Registry.perform] using agrees.handles.request_isSome room machine
  | machineRegisterDesc addme machine =>
      simpa [Registry.perform, Machine.machineRegisterDesc] using
        agrees.handles.request_isSome room machine
  | machineDestroyDesc h => rfl

/-- **The registries stay consistent.** After every sequence of calls: the issued handles are
non-zero and distinct, each resolves to the machine it was issued for, and a descriptor look-up
answers what was registered and not destroyed; destroying a handle changes no other look-up; a name
that is taken is refused and changes nothing; and every call returns for which the tables, whose
sizes are `int`s, have room. -/
theorem registries_consistent {calls : List RegistryCall}
    (run : runCalls Registry.call {} calls = some (R, log)) :
    (∀ entry ∈ issued log, entry.handle ≠ 0) ∧ ((issued log).map HandleEntry.handle).Nodup ∧
    (∀ entry ∈ issued log, getMachineRef R entry.handle = some entry.machine) ∧
    (∀ h, machineGetDesc R h = registered h log) ∧
    (∀ h h', (h' ≠ h → machineGetDesc (machineDestroyDesc R h) h' = machineGetDesc R h') ∧
      getMachineRef (machineDestroyDesc R h) h' = getMachineRef R h') ∧
    (∀ name m, (.machineRegister name, .machine (some m)) ∈ log →
      machineRegister R name = some (R, none)) ∧
    (∀ c : RegistryCall, c.Admissible R → c.RoomIn R (issued log).length →
      (R.call c).isSome) := by
  have agrees : R.Agrees log := by
    have kept := runCalls_invariant (I := Registry.Agrees)
      (fun _ _ _ _ _ agrees called => agrees.call called) Registry.agrees_new run
    simpa using kept
  refine ⟨agrees.handles.handle_ne_zero, agrees.handles.nodup, agrees.handles.resolves,
    agrees.looksUp, ?_, ?_, ?_⟩
  · intro h h'
    refine ⟨fun other => ?_, rfl⟩
    rw [machineGetDesc, machineDestroyDesc, agrees.linked.find_unlink, if_neg other]
    rfl
  · intro name m registered
    have taken : getMachine R name ≠ none := fun free =>
      getMachine_eq_none.mp free (agrees.named name m registered)
    unfold machineRegister
    split
    · rfl
    · next free => exact absurd free taken
  · intro c admissible room
    exact agrees.call_isSome admissible room

/-- Two descriptors are registered and the first of them is destroyed. -/
theorem registries_consistent_destroyed :
    ∃ R log, runCalls Registry.call {} [.machineRegister "file", .requestHandle 0,
        .machineRegisterDesc 8 0, .machineRegisterDesc 16 0, .machineDestroyDesc 2] =
          some (R, log) ∧
      (issued log).map HandleEntry.handle = [1, 2, 3] ∧
      machineGetDesc R 2 = registered 2 log ∧ registered 2 log = 0 ∧
      machineGetDesc R 3 = registered 3 log ∧ registered 3 log = 16 := by
  have run : (runCalls Registry.call {} [.machineRegister "file", .requestHandle 0,
      .machineRegisterDesc 8 0, .machineRegisterDesc 16 0, .machineDestroyDesc 2]).isSome := by
    decide +kernel
  obtain ⟨⟨R, log⟩, run⟩ := Option.isSome_iff_exists.mp run
  have looksUp := (registries_consistent run).2.2.2.1
  have logged : (runCalls Registry.call {} [.machineRegister "file", .requestHandle 0,
      .machineRegisterDesc 8 0, .machineRegisterDesc 16 0, .machineDestroyDesc 2]).map Prod.snd =
        some [(.machineRegister "file", .machine (some 0)), (.requestHandle 0, .handle 1),
          (.machineRegisterDesc 8 0, .handle 2), (.machineRegisterDesc 16 0, .handle 3),
          (.machineDestroyDesc 2, .done)] := by decide +kernel
  rw [run] at logged
  cases logged
  exact ⟨R, _, run, rfl, looksUp 2, rfl, looksUp 3, rfl⟩

/-! ## The last handles -/

/-- The capacity of the map is a number of whole chunks. -/
theorem HandleMap.request_chunks {T T' : HandleMap} {machine : Nat} {h : Int}
    (chunks : machineChunk ∣ T.handleAlloc) (requested : T.requestHandle machine = some (T', h)) :
    machineChunk ∣ T'.handleAlloc := by
  obtain ⟨G, grown, made⟩ := Option.map_eq_some_iff.mp requested
  cases made
  simp only [HandleMap.grow] at grown
  split_ifs at grown
  all_goals cases grown
  · exact Nat.dvd_add (Nat.dvd_refl _) (Nat.dvd_refl _)
  · exact Nat.dvd_refl _
  · exact Nat.dvd_add chunks (Nat.dvd_refl _)
  · exact chunks

/-- The next request overflows the capacity of a map that holds as many entries as an `int` has
whole chunks for. -/
theorem HandleMap.Holds.request_none {T : HandleMap} {entries : List HandleEntry}
    (holds : T.Holds entries) (chunks : machineChunk ∣ T.handleAlloc)
    (full : entries.length + machineChunk = intMax + 1) (machine : Nat) :
    T.requestHandle machine = none := by
  obtain ⟨k, capacity⟩ := chunks
  have most := holds.length_le
  have bound := holds.bound
  have alloc : T.handleAlloc = entries.length := by
    simp only [machineChunk, intMax] at *
    omega
  have filled : ¬ T.slots.isEmpty := by
    rw [List.isEmpty_iff, ← List.length_eq_zero_iff, ← holds.alloc, alloc]
    simp only [machineChunk, intMax] at full
    omega
  simp [HandleMap.requestHandle, HandleMap.grow, filled, holds.count, alloc, full]

/-- Requests are answered until the map is full. -/
theorem Registry.Agrees.requests (n : Nat) :
    ∀ {R : Registry} {log : List (RegistryCall × Result)}, R.Agrees log →
      machineChunk ∣ R.handles.handleAlloc → R.machines = ["file"] →
      (issued log).length + n + machineChunk ≤ intMax + 1 →
      ∃ R' rest, runCalls Registry.call R (List.replicate n (.requestHandle 0)) = some (R', rest) ∧
        R'.Agrees (log ++ rest) ∧ machineChunk ∣ R'.handles.handleAlloc ∧
        R'.machines = ["file"] ∧ (issued (log ++ rest)).length = (issued log).length + n := by
  induction n with
  | zero =>
      intro R log agrees chunks machines _
      exact ⟨R, [], rfl, by simpa using agrees, chunks, machines, by simp⟩
  | succ n ih =>
      intro R log agrees chunks machines room
      have admissible : (RegistryCall.requestHandle 0).Admissible R := by
        simp [RegistryCall.Admissible, machines]
      obtain ⟨⟨handles, h⟩, requested⟩ :=
        Option.isSome_iff_exists.mp (agrees.handles.request_isSome (by omega) 0)
      have called : R.call (.requestHandle 0) =
          some ({ R with handles := handles }, .handle h) := by
        simp [Registry.call, admissible, Registry.perform, requested]
      have one : issued (log ++ [(.requestHandle 0, .handle h)]) = issued log ++ [⟨h, 0⟩] := by
        simp [issued_snoc, issue]
      obtain ⟨R', rest, run, agrees', chunks', machines', length⟩ :=
        ih (agrees.requestHandle requested) (HandleMap.request_chunks chunks requested) machines
          (by rw [one, List.length_append, List.length_singleton]; omega)
      refine ⟨R', (.requestHandle 0, .handle h) :: rest, ?_, by simpa using agrees', chunks',
        machines', ?_⟩
      · rw [List.replicate_succ, runCalls, called]
        simp [run]
      · rw [List.append_cons, length, one, List.length_append, List.length_singleton]
        omega

/-- **The handles run out early.** After `2 ^ 31 - 256` requests a further one overflows
`handle_alloc`, although its handle would still be an `int`. -/
theorem handle_alloc_overflows : ∃ calls R log,
    runCalls Registry.call {} calls = some (R, log) ∧ (issued log).length + 1 < 2 ^ 31 ∧
      (RegistryCall.requestHandle 0).Admissible R ∧ R.call (.requestHandle 0) = none := by
  have made : machineRegister {} "file" = some ({ machines := ["file"] }, some 0) := rfl
  have start := Registry.agrees_new.machineRegister made
  rw [List.nil_append] at start
  have nothing : issued [(.machineRegister "file", .machine (some 0))] = [] := rfl
  obtain ⟨n, full⟩ : ∃ n, n + machineChunk = intMax + 1 := ⟨2 ^ 31 - 256, rfl⟩
  obtain ⟨R, rest, run, agrees, chunks, machines, length⟩ :=
    start.requests n (Nat.dvd_zero _) rfl (by rw [nothing, List.length_nil]; omega)
  rw [nothing, List.length_nil, Nat.zero_add] at length
  have overflow : R.handles.requestHandle 0 = none :=
    agrees.handles.request_none chunks (by rw [length]; exact full) 0
  refine ⟨.machineRegister "file" :: List.replicate n (.requestHandle 0), R,
    (.machineRegister "file", .machine (some 0)) :: rest, ?_, ?_, ?_, ?_⟩
  · have called : Registry.call {} (.machineRegister "file") =
        some ({ machines := ["file"] }, .machine (some 0)) := rfl
    rw [runCalls, called]
    simp [run]
  · rw [← List.singleton_append, length]
    simp only [machineChunk, intMax] at full
    omega
  · simp [RegistryCall.Admissible, machines]
  · simp [Registry.call, Registry.perform, overflow]

end Bingewatch.Machine
