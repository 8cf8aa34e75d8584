import Bingewatch.Machine.Kinds

/-!
# Destroying machines twice

A machine can be destroyed by its user, by `stream_cleanup`, which destroys the machines of every
segment of every stream, and by `machine_cleanup`, which goes through all handles that were ever
issued. Buffers between segments belong to two of them, so most machines are destroyed more than
once.

`machine_destroy_desc` does nothing for a handle it does not find, and the buffers and the fifo rely
on it. `destroy_file` looks up the descriptor first and follows the pointer, which is null when the
machine is gone. `destroys_harmless_iff` says, over every sequence of calls, that second destroys
are harmless exactly when they do not reach a file.
-/

set_option autoImplicit false

namespace Bingewatch.Machine

open Foundation

/-! ## Streams and the cleanup functions -/

/-- The machines of a segment. -/
structure SegmentHandles where
  input : Int
  out : Int
  out1 : Int := 0
  deriving DecidableEq, Repr

/-- A stream: its segments, and whether its thread was started. -/
structure StreamHandles where
  segments : List SegmentHandles := []
  started : Bool := false
  deriving DecidableEq, Repr

/-- The machines and the streams of a program. -/
structure Session where
  lib : Library := {}
  streams : List StreamHandles := []

/-- A call that makes or destroys machines, or makes or starts streams. -/
inductive CleanupCall where
  | create (k : Kind) (setup : Setup)
  | destroy (h : Int)
  | newStream
  | addSegment (stream : Nat) (seg : SegmentHandles)
  | startStream (stream : Nat)
  | streamCleanup
  | machineCleanup
  deriving DecidableEq, Repr

/-- The kind of a registered machine, of those that keep a descriptor. -/
def Library.kindOf (L : Library) (m : Nat) : Option Kind :=
  [.ringBuffer, .fixedBlockBuffer, .handleQueue, .file, .fifo, .null].find? fun k =>
    L.machine k = some m

/-- `destroy_machine`: the destroy function it calls, with its argument. -/
def Library.destroyMachine (L : Library) (h : Int) : Option (Kind × Int) :=
  if h = 0 then none
  else (getMachineRef L.reg h).bind fun m => (L.kindOf m).map fun k => (k, h)

/-- `segment_destroy`. -/
def Library.segmentDestroy (L : Library) (seg : SegmentHandles) : List (Kind × Int) :=
  [seg.input, seg.out, seg.out1].filterMap L.destroyMachine

/-- `stop_streams` and the joins that follow it return: they wait for ever for a stream that was
never started, and every started one is stopped. -/
def Session.stopStreams (S : Session) : Bool := S.streams.all StreamHandles.started

/-- The destroy functions that a call comes to, in turn, with their arguments. None of them changes
the machines that the handles belong to. -/
def Session.targets (S : Session) : CleanupCall → List (Kind × Int)
  | .destroy h => (S.lib.destroyMachine h).toList
  | .streamCleanup =>
      if S.stopStreams then
        (S.streams.flatMap StreamHandles.segments).flatMap S.lib.segmentDestroy
      else []
  | .machineCleanup =>
      ((S.lib.reg.handles.slots.take S.lib.reg.handles.handleCount).filterMap id).filterMap
        fun entry => (S.lib.kindOf entry.machine).map fun k => (k, entry.handle)
  | _ => []

/-- Call destroy functions in turn. -/
def Library.destroyAll : Library → List (Kind × Int) → Option Library
  | L, [] => some L
  | L, (k, h) :: rest => (L.destroy k h).bind fun L => L.destroyAll rest

/-- What a call does. There is no result when a null pointer is followed, a table overflows, or the
call never returns. -/
def Session.exec (S : Session) (c : CleanupCall) : Option Session :=
  match c with
  | .create k setup =>
      if k = .socket then none
      else (S.lib.call (.create k setup)).map fun (L, _) => { S with lib := L }
  | .newStream => some { S with streams := S.streams ++ [{}] }
  | .addSegment stream seg =>
      some
        { S with
          streams := S.streams.modify stream fun st =>
            { st with segments := st.segments ++ [seg] } }
  | .startStream stream =>
      some { S with streams := S.streams.modify stream fun st => { st with started := true } }
  | .destroy _ => (S.lib.destroyAll (S.targets c)).map fun L => { S with lib := L }
  | .streamCleanup =>
      if S.stopStreams then
        (S.lib.destroyAll (S.targets c)).map fun L => { lib := L, streams := [] }
      else none
  | .machineCleanup => (S.lib.destroyAll (S.targets c)).map fun L => { S with lib := L }

/-- Execute calls in turn. -/
def Session.run : Session → List CleanupCall → Option Session
  | S, [] => some S
  | S, c :: calls => (S.exec c).bind fun S => S.run calls

/-! ## Harmless destroys -/

/-- The destroy of a machine whose descriptor is gone changes nothing and follows no pointer to
it. -/
def Library.Harmless (L : Library) (k : Kind) (h : Int) : Prop :=
  machineGetDesc L.reg h = 0 → L.destroy k h = some L

/-- Each destroy in turn is harmless. -/
def Library.HarmlessAll : Library → List (Kind × Int) → Prop
  | _, [] => True
  | L, (k, h) :: rest => L.Harmless k h ∧ ∀ L', L.destroy k h = some L' → L'.HarmlessAll rest

/-- Every destroy of a sequence of calls is harmless. -/
def Session.HarmlessRun : Session → List CleanupCall → Prop
  | _, [] => True
  | S, c :: calls =>
      S.lib.HarmlessAll (S.targets c) ∧ ∀ S', S.exec c = some S' → S'.HarmlessRun calls

/-- The destroy function of the kind follows the descriptor it looks up. -/
def Kind.follows : Kind → Bool
  | .file => true
  | _ => false

/-- The descriptors that the destroy functions follow are registered before the call, and the call
comes to each of them once. -/
def Library.Once (L : Library) (ds : List (Kind × Int)) : Prop :=
  ∀ before k h after, ds = before ++ (k, h) :: after → k.follows = true →
    machineGetDesc L.reg h ≠ 0 ∧ (k, h) ∉ before

/-- Every call of a sequence comes to files that are registered, and to each once. -/
def Session.OnceRun : Session → List CleanupCall → Prop
  | _, [] => True
  | S, c :: calls => S.lib.Once (S.targets c) ∧ ∀ S', S.exec c = some S' → S'.OnceRun calls

variable {L L' : Library} {log : List (KindCall × Int)}

/-- Destroying an unknown handle changes nothing. -/
theorem destroyBuffer_unknown {h : Int} (gone : machineGetDesc L.reg h = 0) :
    L.destroyBuffer h = L := by
  have same : L.reg.descs.unlink h = L.reg.descs := by
    have absent : (L.reg.descs.search h L.reg.descs.limit 0 L.reg.descs.head).2 = 0 := gone
    rw [Links.unlink, if_pos absent]
  simp [Library.destroyBuffer, machineDestroyDesc, same]

/-- What the destroy functions do, by kind. -/
theorem destroy_eq {k : Kind} {h : Int} (descriptor : k ≠ .socket) :
    L.destroy k h =
      if k = .null then some L
      else if k.follows = true ∧ machineGetDesc L.reg h = 0 then none
      else some (L.destroyBuffer h) := by
  cases k with
  | socket => exact absurd rfl descriptor
  | file => simp [Library.destroy, Library.destroyFile, Kind.follows, Library.destroyBuffer]
  | fifo => simp [Library.destroy, Library.destroyFifo, Kind.follows, Library.destroyBuffer]
  | _ => simp [Library.destroy, Kind.follows]

theorem harmless_iff {k : Kind} {h : Int} (descriptor : k ≠ .socket) :
    L.Harmless k h ↔ (k.follows = true → machineGetDesc L.reg h ≠ 0) := by
  constructor
  · intro harmless follows gone
    have returned := harmless gone
    rw [destroy_eq descriptor, if_neg (by rintro rfl; cases follows), if_pos ⟨follows, gone⟩]
      at returned
    cases returned
  · intro registered gone
    rw [destroy_eq descriptor, destroyBuffer_unknown gone]
    have skip : ¬(k.follows = true ∧ machineGetDesc L.reg h = 0) := fun both =>
      registered both.1 both.2
    rw [if_neg skip, ite_self]

/-- The look-ups after a destroy. -/
theorem machineGetDesc_destroy {k : Kind} {h : Int} (resolves : L.Resolves log)
    (descriptor : k ≠ .socket) (destroyed : L.destroy k h = some L') (h' : Int) :
    machineGetDesc L'.reg h' =
      if h' = h ∧ k ≠ .null then 0 else machineGetDesc L.reg h' := by
  obtain ⟨past, agrees, -⟩ := resolves.history
  rw [destroy_eq descriptor] at destroyed
  split at destroyed
  · next isNull =>
      cases destroyed
      simp [isNull]
  · next notNull =>
      split at destroyed
      · cases destroyed
      · cases destroyed
        show (L.reg.descs.unlink h).find h' = _
        rw [agrees.linked.find_unlink]
        simp [notNull, machineGetDesc]

/-- **Several destroys in turn.** -/
theorem harmlessAll_iff {ds : List (Kind × Int)} (resolves : L.Resolves log)
    (descriptors : ∀ d ∈ ds, d.1 ≠ .socket)
    (functional : ∀ k k' h, (k, h) ∈ ds → (k', h) ∈ ds → k = k') :
    L.HarmlessAll ds ↔ L.Once ds := by
  induction ds generalizing L log with
  | nil => simp [Library.HarmlessAll, Library.Once]
  | cons d ds ih =>
      obtain ⟨k, h⟩ := d
      have descriptor : k ≠ .socket := descriptors (k, h) (List.mem_cons_self ..)
      have later : ∀ L', L.destroy k h = some L' → (L'.HarmlessAll ds ↔ L'.Once ds) :=
        fun L' destroyed => ih (resolves.destroy destroyed)
          (fun d member => descriptors d (List.mem_cons_of_mem _ member))
          (fun k k' h first second => functional k k' h (List.mem_cons_of_mem _ first)
            (List.mem_cons_of_mem _ second))
      constructor
      · rintro ⟨harmless, rest⟩ before k' h' after split follows
        have registered := (harmless_iff descriptor).mp harmless
        cases before with
        | nil =>
            obtain ⟨⟨rfl, rfl⟩, rfl⟩ : (k = k' ∧ h = h') ∧ ds = after := by simpa using split
            exact ⟨registered follows, List.not_mem_nil⟩
        | cons first before =>
            obtain ⟨rfl, rfl⟩ : (k, h) = first ∧ ds = before ++ (k', h') :: after := by
              simpa using split
            obtain ⟨L', destroyed⟩ : ∃ L', L.destroy k h = some L' := by
              rw [destroy_eq descriptor]
              grind
            obtain ⟨found, absent⟩ :=
              (later L' destroyed).mp (rest L' destroyed) before k' h' after rfl follows
            rw [machineGetDesc_destroy resolves descriptor destroyed] at found
            split at found
            · exact absurd rfl found
            · next other =>
                refine ⟨found, fun member => ?_⟩
                rcases List.mem_cons.mp member with same | earlier
                · obtain ⟨rfl, rfl⟩ : k' = k ∧ h' = h := by simpa using same
                  exact other ⟨rfl, by rintro rfl; cases follows⟩
                · exact absent earlier
      · intro once
        refine ⟨(harmless_iff descriptor).mpr fun follows =>
          (once [] k h ds rfl follows).1, fun L' destroyed => (later L' destroyed).mpr ?_⟩
        intro before k' h' after split follows
        obtain ⟨found, absent⟩ := once ((k, h) :: before) k' h' after (by rw [split]; rfl) follows
        refine ⟨?_, fun member => absent (List.mem_cons_of_mem _ member)⟩
        rw [machineGetDesc_destroy resolves descriptor destroyed, if_neg]
        · exact found
        · rintro ⟨rfl, -⟩
          have same := functional k k' h' (List.mem_cons_self ..)
            (List.mem_cons_of_mem _ (by rw [split]; simp))
          exact absent (same ▸ List.mem_cons_self ..)

/-! ## Whole runs -/

theorem kindOf_ne_socket {m : Nat} {k : Kind} (found : L.kindOf m = some k) : k ≠ .socket := by
  have member := List.mem_of_find?_eq_some found
  rintro rfl
  revert member
  decide

theorem destroyMachine_eq {h h' : Int} {k : Kind} (target : L.destroyMachine h = some (k, h')) :
    h' = h ∧ k ≠ .socket := by
  unfold Library.destroyMachine at target
  split at target
  · cases target
  · obtain ⟨m, -, mapped⟩ := Option.bind_eq_some_iff.mp target
    obtain ⟨k', found, same⟩ := Option.map_eq_some_iff.mp mapped
    cases same
    exact ⟨rfl, kindOf_ne_socket found⟩

/-- The destroy functions of `stream_cleanup` are those of `destroy_machine`. -/
theorem mem_streamTargets {S : Session} {k : Kind} {h : Int}
    (member : (k, h) ∈ S.targets .streamCleanup) : S.lib.destroyMachine h = some (k, h) := by
  simp only [Session.targets] at member
  split at member
  · obtain ⟨seg, -, member⟩ := List.mem_flatMap.mp member
    obtain ⟨h', -, target⟩ := List.mem_filterMap.mp member
    obtain ⟨rfl, -⟩ := destroyMachine_eq target
    exact target
  · cases member

/-- The entries of the handle map that `machine_cleanup` goes through. -/
theorem entries_eq {T : HandleMap} {entries : List HandleEntry} (holds : T.Holds entries) :
    (T.slots.take T.handleCount).filterMap id = entries := by
  obtain ⟨free, slots⟩ := holds.slots
  rw [slots, holds.count, List.take_left' (by simp)]
  simp

theorem targets_spec {S : Session} (resolves : S.lib.Resolves log) (c : CleanupCall) :
    (∀ d ∈ S.targets c, d.1 ≠ .socket) ∧
      ∀ k k' h, (k, h) ∈ S.targets c → (k', h) ∈ S.targets c → k = k' := by
  cases c with
  | destroy h =>
      refine ⟨fun d member => ?_, fun k k' h' first second => ?_⟩
      · exact (destroyMachine_eq (Option.mem_toList.mp member)).2
      · have same := (Option.mem_toList.mp first).symm.trans (Option.mem_toList.mp second)
        simpa using same
  | streamCleanup =>
      refine ⟨fun d member => ?_, fun k k' h first second => ?_⟩
      · exact (destroyMachine_eq (mem_streamTargets member)).2
      · have same := (mem_streamTargets first).symm.trans (mem_streamTargets second)
        simpa using same
  | machineCleanup =>
      obtain ⟨past, agrees, -⟩ := resolves.history
      have listed : S.targets .machineCleanup = (issued past).filterMap fun entry =>
          (S.lib.kindOf entry.machine).map fun k => (k, entry.handle) := by
        rw [Session.targets, entries_eq agrees.handles]
      rw [listed]
      refine ⟨fun d member => ?_, fun k k' h first second => ?_⟩
      · obtain ⟨entry, -, mapped⟩ := List.mem_filterMap.mp member
        obtain ⟨k, found, rfl⟩ := Option.map_eq_some_iff.mp mapped
        exact kindOf_ne_socket found
      · obtain ⟨entry, inside, mapped⟩ := List.mem_filterMap.mp first
        obtain ⟨entry', inside', mapped'⟩ := List.mem_filterMap.mp second
        obtain ⟨k₁, found, same⟩ := Option.map_eq_some_iff.mp mapped
        obtain ⟨k₂, found', same'⟩ := Option.map_eq_some_iff.mp mapped'
        cases same
        simp only [Prod.mk.injEq] at same'
        obtain ⟨rfl, number⟩ := same'
        have one : entry' = entry :=
          List.inj_on_of_nodup_map agrees.handles.nodup inside' inside number
        rw [one, found] at found'
        simpa using found'
  | create k setup => simp [Session.targets]
  | newStream => simp [Session.targets]
  | addSegment stream seg => simp [Session.targets]
  | startStream stream => simp [Session.targets]

theorem Library.Resolves.destroyAll {ds : List (Kind × Int)} (resolves : L.Resolves log)
    (destroyed : L.destroyAll ds = some L') : ∃ later, L'.Resolves later := by
  induction ds generalizing L log with
  | nil =>
      obtain rfl : L = L' := by simpa [Library.destroyAll] using destroyed
      exact ⟨log, resolves⟩
  | cons d ds ih =>
      obtain ⟨M, first, rest⟩ := Option.bind_eq_some_iff.mp destroyed
      exact ih (resolves.destroy first) rest

/-- **One call** keeps the tables consistent. -/
theorem Session.exec_resolves {S S' : Session} {c : CleanupCall} (resolves : S.lib.Resolves log)
    (executed : S.exec c = some S') : ∃ later, S'.lib.Resolves later := by
  cases c with
  | create k setup =>
      simp only [Session.exec] at executed
      split at executed
      · cases executed
      · obtain ⟨⟨M, r⟩, called, rfl⟩ := Option.map_eq_some_iff.mp executed
        exact ⟨_, resolves.call called⟩
  | newStream =>
      cases executed
      exact ⟨log, resolves⟩
  | addSegment stream seg =>
      cases executed
      exact ⟨log, resolves⟩
  | startStream stream =>
      cases executed
      exact ⟨log, resolves⟩
  | destroy h =>
      obtain ⟨M, destroyed, rfl⟩ := Option.map_eq_some_iff.mp executed
      exact resolves.destroyAll destroyed
  | streamCleanup =>
      simp only [Session.exec] at executed
      split at executed
      · obtain ⟨M, destroyed, rfl⟩ := Option.map_eq_some_iff.mp executed
        exact resolves.destroyAll destroyed
      · cases executed
  | machineCleanup =>
      obtain ⟨M, destroyed, rfl⟩ := Option.map_eq_some_iff.mp executed
      exact resolves.destroyAll destroyed

theorem harmlessRun_iff {S : Session} (calls : List CleanupCall) (resolves : S.lib.Resolves log) :
    S.HarmlessRun calls ↔ S.OnceRun calls := by
  induction calls generalizing S log with
  | nil => exact Iff.rfl
  | cons c calls ih =>
      obtain ⟨descriptors, functional⟩ := targets_spec resolves c
      refine and_congr (harmlessAll_iff resolves descriptors functional) ?_
      refine forall_congr' fun S' => ?_
      constructor
      · intro harmless executed
        obtain ⟨later, resolves'⟩ := Session.exec_resolves resolves executed
        exact (ih resolves').mp (harmless executed)
      · intro once executed
        obtain ⟨later, resolves'⟩ := Session.exec_resolves resolves executed
        exact (ih resolves').mpr (once executed)

theorem resolves_new : ({} : Library).Resolves [] :=
  ⟨⟨[], Registry.agrees_new, by simp [live]⟩, by simp [live]⟩

/-- The destroys of a call inside a sequence. -/
theorem Session.HarmlessRun.reaches {S S' : Session} {before after : List CleanupCall}
    {c : CleanupCall} (harmless : S.HarmlessRun (before ++ c :: after))
    (ran : S.run before = some S') : S'.lib.HarmlessAll (S'.targets c) := by
  induction before generalizing S with
  | nil =>
      obtain rfl : S = S' := by simpa [Session.run] using ran
      exact harmless.1
  | cons c' before ih =>
      obtain ⟨M, executed, ran⟩ := Option.bind_eq_some_iff.mp ran
      exact ih (harmless.2 M executed) ran

/-- A stream that reads a file and is started, and `stream_cleanup`. -/
def fileCleanedUp : List CleanupCall :=
  [.create .file { desc := 8 }, .newStream, .addSegment 0 { input := 1, out := 0 },
    .startStream 0, .streamCleanup]

end Bingewatch.Machine
