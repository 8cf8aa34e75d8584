import Bingewatch.Machine.Registry

/-!
# The machine kinds and their handles

Each kind of machine creates its own descriptors. The ring, fixed block, handle queue, file, fifo
and null machines end their create function with `machine_register_desc`; the socket machine
requests a handle and keeps its descriptors in a list of its own (`src/socket-machine.c`).

`live_resolves_iff` follows the live handles through every sequence of create and destroy calls and
says which of them `machine_get_desc` resolves.
-/

set_option autoImplicit false

namespace Bingewatch.Machine

open Foundation

/-! ## Creating and destroying machines -/

/-- The machine kinds. -/
inductive Kind where
  | ringBuffer
  | fixedBlockBuffer
  | handleQueue
  | file
  | fifo
  | null
  | socket
  deriving DecidableEq, Repr

/-- The name a kind is registered by. -/
def Kind.name : Kind → String
  | .ringBuffer => "ring_buffer"
  | .fixedBlockBuffer => "fixed_block_buffer"
  | .handleQueue => "handle_queue"
  | .file => "file"
  | .fifo => "fifo"
  | .null => "null"
  | .socket => "socket"

/-- The registries, the static machine pointers of the kinds, and the list `socks` with its lock. -/
structure Library where
  reg : Registry := {}
  machine : Kind → Option Nat := fun _ => none
  socks : Links Int := { key := fun _ => 0 }
  sockListLocked : Bool := false

/-- What a create call meets: the address of the new descriptor; whether everything before the
registration succeeds; and for a socket whether `socket` succeeds, whether it is a server, whether
`bind` succeeds, and whether `init_filters` does. -/
structure Setup where
  desc : Nat
  prepared : Bool := true
  opened : Bool := true
  server : Bool := true
  bound : Bool := true
  filters : Bool := true
  deriving DecidableEq, Repr

variable {L L' : Library}

/-- `get_rb_machine` and its siblings: register the kind at its first use. A name taken by another
machine gives a null pointer, which the code follows. -/
def Library.getKindMachine (L : Library) (k : Kind) : Option (Library × Nat) :=
  match L.machine k with
  | some m => some (L, m)
  | none =>
      match machineRegister L.reg k.name with
      | some (reg, some m) =>
          some ({ L with reg := reg, machine := Function.update L.machine k (some m) }, m)
      | _ => none

/-- The create function of the kinds that register a descriptor: `create_buffer` of both buffers,
`create_queue`, `create_file`, `create_fifo` and `create_null`. -/
def Library.createDesc (L : Library) (k : Kind) (setup : Setup) : Option (Library × Int) :=
  (L.getKindMachine k).bind fun (L, m) =>
    if setup.prepared then
      (machineRegisterDesc L.reg setup.desc m).map fun (reg, h) => ({ L with reg := reg }, h)
    else some (L, 0)

/-- `create_sock`. A socket that cannot be opened is reported by `IO_ERROR` in place of a handle;
`add_socket` waits for the lock of the list. -/
def Library.createSock (L : Library) (setup : Setup) : Option (Library × Int) :=
  (L.getKindMachine .socket).bind fun (L, m) =>
    if setup.opened = false then some (L, -1)
    else if setup.server ∧ setup.bound = false then some (L, 0)
    else
      (L.reg.handles.requestHandle m).bind fun (handles, h) =>
        let L := { L with reg := { L.reg with handles := handles } }
        if setup.filters = false then some (L, 0)
        else if L.sockListLocked then none
        else some ({ L with socks := L.socks.append setup.desc h }, h)

/-- The create function of a kind. -/
def Library.create (L : Library) : Kind → Setup → Option (Library × Int)
  | .socket => L.createSock
  | k => L.createDesc k

/-- `destroy_rb_machine`, `destroy_fbb_machine` and `destroy_hq_machine`. -/
def Library.destroyBuffer (L : Library) (h : Int) : Library :=
  { L with reg := machineDestroyDesc L.reg h }

/-- `destroy_file`, which follows the descriptor it looks up. -/
def Library.destroyFile (L : Library) (h : Int) : Option Library :=
  if machineGetDesc L.reg h = 0 then none
  else some { L with reg := machineDestroyDesc L.reg h }

/-- `destroy_fifo`. Its guard `desc->flags & FFIFO_LEAVE_OPEN == 0` is a conjunction with the
comparison of the constant, which is zero: whatever the descriptor is, none of its streams is looked
at. -/
def Library.destroyFifo (L : Library) (h : Int) : Library :=
  { L with reg := machineDestroyDesc L.reg h }

/-- `destroy_sock`. A handle that is not found leaves the list locked. -/
def Library.destroySock (L : Library) (h : Int) : Option Library :=
  if L.sockListLocked then none
  else if L.socks.find h = 0 then some { L with sockListLocked := true }
  else some { L with socks := L.socks.unlink h }

/-- The destroy function of a kind; `destroy_null` does nothing. -/
def Library.destroy (L : Library) : Kind → Int → Option Library
  | .ringBuffer, h => some (L.destroyBuffer h)
  | .fixedBlockBuffer, h => some (L.destroyBuffer h)
  | .handleQueue, h => some (L.destroyBuffer h)
  | .file, h => L.destroyFile h
  | .fifo, h => some (L.destroyFifo h)
  | .null, _ => some L
  | .socket, h => L.destroySock h

/-- A call on a machine kind. -/
inductive KindCall where
  | create (k : Kind) (setup : Setup)
  | destroy (k : Kind) (h : Int)
  deriving DecidableEq, Repr

/-- What a call does; a new descriptor has an address of its own. -/
def Library.call (L : Library) : KindCall → Option (Library × Int)
  | .create k setup =>
      if setup.desc ≠ 0 ∧ setup.desc ∉ L.reg.descs.nodes ∧ setup.desc ∉ L.socks.nodes then
        L.create k setup
      else none
  | .destroy k h => (L.destroy k h).map fun L => (L, 0)

/-- The handles returned by successful create calls and not destroyed since, with their kinds. -/
def live (log : List (KindCall × Int)) : List (Int × Kind) :=
  log.foldl (fun handles event =>
    match event with
    | (.create k _, h) => if 0 < h then handles ++ [(h, k)] else handles
    | (.destroy _ h, _) => handles.filter fun x => x.1 ≠ h) []

/-! ## Which handles resolve -/

/-- The registry agrees with its own history, live handles have been issued, and exactly those that
are no sockets are in the list of descriptors. -/
structure Library.Resolves (L : Library) (log : List (KindCall × Int)) : Prop where
  history : ∃ past, L.reg.Agrees past ∧ ∀ h k, (h, k) ∈ live log → h ≤ (issued past).length
  found : ∀ h k, (h, k) ∈ live log → (L.reg.descs.find h ≠ 0 ↔ k ≠ .socket)

theorem live_create (log : List (KindCall × Int)) (k : Kind) (setup : Setup) (h : Int) :
    live (log ++ [(.create k setup, h)]) = if 0 < h then live log ++ [(h, k)] else live log := by
  simp [live]

theorem live_destroy (log : List (KindCall × Int)) (k : Kind) (h r : Int) :
    live (log ++ [(.destroy k h, r)]) = (live log).filter fun x => x.1 ≠ h := by
  simp [live]

/-- Registering the kind touches neither the handles nor the descriptors. -/
theorem Library.getKindMachine_spec {k : Kind} {m : Nat} {past : List (RegistryCall × Result)}
    (agrees : L.reg.Agrees past) (got : L.getKindMachine k = some (L', m)) :
    (∃ later, L'.reg.Agrees later ∧ issued later = issued past) ∧ L'.reg.descs = L.reg.descs := by
  unfold Library.getKindMachine at got
  split at got
  · cases got
    exact ⟨⟨past, agrees, rfl⟩, rfl⟩
  · split at got
    · next reg m' made =>
        cases got
        refine ⟨⟨_, agrees.machineRegister made, by simp [issued_snoc, issue]⟩, ?_⟩
        unfold machineRegister at made
        split at made
        · cases made
        · split at made
          · cases made
            rfl
          · cases made
    · cases got

variable {log : List (KindCall × Int)}

/-- A create call that returns no handle. -/
theorem Library.Resolves.refused {k : Kind} {setup : Setup} {h : Int}
    {past later : List (RegistryCall × Result)} (resolves : L.Resolves log)
    (issuedBefore : ∀ h k, (h, k) ∈ live log → h ≤ (issued past).length)
    (agrees' : L'.reg.Agrees later) (grown : (issued past).length ≤ (issued later).length)
    (descs : L'.reg.descs = L.reg.descs) (nothing : ¬ 0 < h) :
    L'.Resolves (log ++ [(.create k setup, h)]) := by
  have same : live (log ++ [(.create k setup, h)]) = live log := by
    rw [live_create, if_neg nothing]
  refine ⟨⟨later, agrees', fun h k member => ?_⟩, fun h k member => ?_⟩
  · rw [same] at member
    have bound := issuedBefore h k member
    omega
  · rw [same] at member
    rw [descs]
    exact resolves.found h k member

/-- A create call that returns the handle issued last. -/
theorem Library.Resolves.created {k : Kind} {setup : Setup} {h : Int}
    {past later : List (RegistryCall × Result)} (resolves : L.Resolves log)
    (issuedBefore : ∀ h k, (h, k) ∈ live log → h ≤ (issued past).length)
    (agrees' : L'.reg.Agrees later) (number : h = (issued past).length + 1)
    (grown : (issued later).length = (issued past).length + 1)
    (others : ∀ h', h' ≠ h → L'.reg.descs.find h' = L.reg.descs.find h')
    (found : L'.reg.descs.find h ≠ 0 ↔ k ≠ .socket) :
    L'.Resolves (log ++ [(.create k setup, h)]) := by
  have listed : live (log ++ [(.create k setup, h)]) = live log ++ [(h, k)] := by
    rw [live_create, if_pos (by omega)]
  refine ⟨⟨later, agrees', fun h' k' member => ?_⟩, fun h' k' member => ?_⟩
  · rw [listed] at member
    rcases List.mem_append.mp member with old | new
    · have bound := issuedBefore h' k' old
      omega
    · simp only [List.mem_singleton, Prod.mk.injEq] at new
      omega
  · rw [listed] at member
    rcases List.mem_append.mp member with old | new
    · have bound := issuedBefore h' k' old
      rw [others h' (by omega)]
      exact resolves.found h' k' old
    · simp only [List.mem_singleton, Prod.mk.injEq] at new
      obtain ⟨rfl, rfl⟩ := new
      exact found

theorem Library.Resolves.createDesc {k : Kind} {setup : Setup} {h : Int}
    (resolves : L.Resolves log) (descriptor : k ≠ .socket) (nonnull : setup.desc ≠ 0)
    (fresh : setup.desc ∉ L.reg.descs.nodes) (made : L.createDesc k setup = some (L', h)) :
    L'.Resolves (log ++ [(.create k setup, h)]) := by
  obtain ⟨past, agrees, issuedBefore⟩ := resolves.history
  obtain ⟨⟨M, m⟩, got, made⟩ := Option.bind_eq_some_iff.mp made
  obtain ⟨⟨middle, agreesMiddle, same⟩, descs⟩ := Library.getKindMachine_spec agrees got
  simp only at made
  split at made
  · obtain ⟨⟨reg, h⟩, registered, eq⟩ := Option.map_eq_some_iff.mp made
    cases eq
    obtain ⟨agrees', nonzero, looks⟩ :=
      agreesMiddle.machineRegisterDesc nonnull (descs ▸ fresh) registered
    have entries : issued (middle ++ [(.machineRegisterDesc setup.desc m, .handle h)]) =
        issued past ++ [⟨h, m⟩] := by simp [issued_snoc, issue, same]
    have number : h = (issued past).length + 1 := by
      have numbers := agrees'.handles.numbered
      rw [entries] at numbers
      have last := congrArg List.getLast? numbers
      simpa [List.range_succ] using last
    apply resolves.created issuedBefore agrees' number
    · simp [entries]
    · intro h' other
      rw [looks h', if_neg other, descs]
    · rw [looks h, if_pos rfl]
      simp [nonnull, descriptor]
  · cases made
    exact resolves.refused issuedBefore agreesMiddle (by simp [same]) descs (by omega)

theorem Library.Resolves.createSock {setup : Setup} {h : Int} (resolves : L.Resolves log)
    (made : L.createSock setup = some (L', h)) :
    L'.Resolves (log ++ [(.create .socket setup, h)]) := by
  obtain ⟨past, agrees, issuedBefore⟩ := resolves.history
  obtain ⟨⟨M, m⟩, got, made⟩ := Option.bind_eq_some_iff.mp made
  obtain ⟨⟨middle, agreesMiddle, same⟩, descs⟩ := Library.getKindMachine_spec agrees got
  simp only at made
  split at made
  · cases made
    exact resolves.refused issuedBefore agreesMiddle (by simp [same]) descs (by omega)
  split at made
  · cases made
    exact resolves.refused issuedBefore agreesMiddle (by simp [same]) descs (by omega)
  obtain ⟨⟨handles, h'⟩, requested, made⟩ := Option.bind_eq_some_iff.mp made
  have agrees' := agreesMiddle.requestHandle requested
  have number := (agreesMiddle.handles.request requested).1
  have entries : issued (middle ++ [(RegistryCall.requestHandle m, Result.handle h')]) =
      issued past ++ [⟨h', m⟩] := by simp [issued_snoc, issue, same]
  rw [same] at number
  simp only at made
  split at made
  · cases made
    exact resolves.refused issuedBefore agrees' (by simp [entries]) descs (by omega)
  split at made
  · cases made
  · cases made
    apply resolves.created issuedBefore agrees' number
    · simp [entries]
    · intro h' _
      exact congrArg (fun links => links.find h') descs
    · have unknown : L.reg.descs.find h = 0 := by
        by_contra found
        have old := agrees.known h found
        omega
      simp [descs, unknown]

/-- A destroy call removes its handle from the live ones and leaves the other look-ups alone. -/
theorem Library.Resolves.destroyed {k : Kind} {h r : Int} (resolves : L.Resolves log)
    (others : ∀ past, L.reg.Agrees past → ∃ later, L'.reg.Agrees later ∧
      issued later = issued past ∧ ∀ h', h' ≠ h → L'.reg.descs.find h' = L.reg.descs.find h') :
    L'.Resolves (log ++ [(.destroy k h, r)]) := by
  obtain ⟨past, agrees, issuedBefore⟩ := resolves.history
  obtain ⟨later, agrees', same, others⟩ := others past agrees
  refine ⟨⟨later, agrees', fun h' k' member => ?_⟩, fun h' k' member => ?_⟩
  · rw [live_destroy, List.mem_filter] at member
    rw [same]
    exact issuedBefore h' k' member.1
  · rw [live_destroy, List.mem_filter] at member
    rw [others h' (by simpa using member.2)]
    exact resolves.found h' k' member.1

theorem machineDestroyDesc_others {R : Registry} (h : Int) (past : List (RegistryCall × Result))
    (agrees : R.Agrees past) :
    ∃ later, (machineDestroyDesc R h).Agrees later ∧ issued later = issued past ∧
      ∀ h', h' ≠ h → (machineDestroyDesc R h).descs.find h' = R.descs.find h' := by
  refine ⟨_, agrees.machineDestroyDesc h, by simp [issued_snoc, issue], fun h' other => ?_⟩
  rw [machineDestroyDesc, agrees.linked.find_unlink, if_neg other]

theorem Library.Resolves.destroy {k : Kind} {h : Int} (resolves : L.Resolves log)
    (made : L.destroy k h = some L') : L'.Resolves (log ++ [(.destroy k h, 0)]) := by
  have unlinked : ∀ M : Library, M.reg = machineDestroyDesc L.reg h →
      M.Resolves (log ++ [(.destroy k h, 0)]) := by
    intro M reg
    apply resolves.destroyed
    intro past agrees
    rw [reg]
    exact machineDestroyDesc_others h past agrees
  have untouched : ∀ M : Library, M.reg = L.reg → M.Resolves (log ++ [(.destroy k h, 0)]) := by
    intro M reg
    apply resolves.destroyed
    intro past agrees
    rw [reg]
    exact ⟨past, agrees, rfl, fun _ _ => rfl⟩
  cases k with
  | ringBuffer =>
      cases made
      exact unlinked _ rfl
  | fixedBlockBuffer =>
      cases made
      exact unlinked _ rfl
  | handleQueue =>
      cases made
      exact unlinked _ rfl
  | file =>
      simp only [Library.destroy, Library.destroyFile] at made
      split at made
      · cases made
      · cases made
        exact unlinked _ rfl
  | fifo =>
      cases made
      exact unlinked _ rfl
  | null =>
      cases made
      exact untouched _ rfl
  | socket =>
      simp only [Library.destroy, Library.destroySock] at made
      split at made
      · cases made
      · split at made
        · cases made
          exact untouched _ rfl
        · cases made
          exact untouched _ rfl

/-- **One call.** -/
theorem Library.Resolves.call {c : KindCall} {r : Int} (resolves : L.Resolves log)
    (called : L.call c = some (L', r)) : L'.Resolves (log ++ [(c, r)]) := by
  cases c with
  | create k setup =>
      simp only [Library.call] at called
      split at called
      · next fresh =>
          by_cases socket : k = .socket
          · subst socket
            exact resolves.createSock called
          · have descriptor : L.create k setup = L.createDesc k setup := by
              cases k <;> first | rfl | exact absurd rfl socket
            rw [descriptor] at called
            exact resolves.createDesc socket fresh.1 fresh.2.1 called
      · cases called
  | destroy k h =>
      obtain ⟨M, destroyed, eq⟩ := Option.map_eq_some_iff.mp called
      cases eq
      exact resolves.destroy destroyed

/-- **Which live handles resolve.** After every sequence of create and destroy calls, a handle that
a create call returned and no destroy call was given since resolves to a descriptor exactly when its
kind is not the socket. -/
theorem live_resolves_iff {calls : List KindCall}
    (run : runCalls Library.call {} calls = some (L, log)) :
    ∀ h k, (h, k) ∈ live log → (machineGetDesc L.reg h ≠ 0 ↔ k ≠ .socket) := by
  have initial : Library.Resolves {} [] :=
    ⟨⟨[], Registry.agrees_new, by simp [live]⟩, by simp [live]⟩
  have resolves := runCalls_invariant (I := Library.Resolves)
    (fun _ _ _ _ _ resolves called => resolves.call called) initial run
  exact resolves.found

/-- A ring, a file and a socket, with the file destroyed. -/
theorem live_resolves_iff_three :
    ∃ L log, runCalls Library.call {} [.create .ringBuffer { desc := 8 },
        .create .file { desc := 16 }, .create .socket { desc := 24 }, .destroy .file 2] =
          some (L, log) ∧
      live log = [(1, .ringBuffer), (3, .socket)] ∧
      (machineGetDesc L.reg 1 ≠ 0 ↔ Kind.ringBuffer ≠ .socket) := by
  have run : (runCalls Library.call {} [.create .ringBuffer { desc := 8 },
      .create .file { desc := 16 }, .create .socket { desc := 24 }, .destroy .file 2]).map
        (fun result => live result.2) = some [(1, .ringBuffer), (3, .socket)] := by
    decide +kernel
  obtain ⟨⟨L, log⟩, run, listed⟩ := Option.map_eq_some_iff.mp run
  exact ⟨L, log, run, listed, live_resolves_iff run 1 .ringBuffer (by simp [listed])⟩

/-- A new socket has a handle that no descriptor is registered under. -/
theorem socket_handle_unresolved :
    ∃ L log, runCalls Library.call {} [.create .socket { desc := 8 }] = some (L, log) ∧
      (1, Kind.socket) ∈ live log ∧ machineGetDesc L.reg 1 = 0 := by
  have run : (runCalls Library.call {} [.create .socket { desc := 8 }]).map
      (fun result => (live result.2, machineGetDesc result.1.reg 1)) =
        some ([(1, .socket)], 0) := by
    decide +kernel
  obtain ⟨⟨L, log⟩, run, observed⟩ := Option.map_eq_some_iff.mp run
  simp only [Prod.mk.injEq] at observed
  exact ⟨L, log, run, by simp [observed.1], observed.2⟩

end Bingewatch.Machine
