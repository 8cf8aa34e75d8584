import Mathlib.Logic.Function.Basic
import Bingewatch.Foundation.Transition
import Bingewatch.Buffer.RingQueue

/-!
# The first write of two writers

The blocks of a ring get their data at the first write. `buf_write` looks at `ring->state` without a
lock, calls `rb_data_init` when it finds `RB_STATE_NOINIT`, and stores `RB_STATE_READY` after that;
only `rb_data_init` itself and the write behind it hold the locks. Two writers may therefore both
find the ring uninitialised, and the second `rb_data_init` clears the blocks and adds their size
once more.

The model takes a step for each of these parts, and a reader may read in between.
`first_write_inits_once` says that every accepted byte can be read exactly once, and that the size
is that of the blocks, in every run in which no `rb_data_init` starts on a ring whose blocks have
their data, and every write finds memory when it grows the ring.
-/

set_option autoImplicit false

namespace Bingewatch.Buffer

open Foundation Machine

/-! ## Two writers and a reader -/

/-- Where a writer stands in `buf_write`, with the bytes it writes: behind a test that found the
ring uninitialised, between `rb_data_init` and the change of the state, or before the locked part.
-/
inductive WriterPc where
  | idle
  | init (data : List UInt8)
  | setReady (data : List UInt8)
  | write (data : List UInt8)
  deriving DecidableEq, Repr

/-- A ring with two writers, and the bytes that were accepted by writes and delivered by reads. -/
structure TwoWriters where
  ring : Ring
  pc : Bool → WriterPc := fun _ => .idle
  accepted : List UInt8 := []
  delivered : List UInt8 := []

/-- A writer takes its next step, a new call with the given bytes if it is idle; or a read. -/
inductive InitAct where
  | writer (who : Bool) (data : List UInt8)
  | read (request : Nat)
  deriving DecidableEq, Repr

namespace TwoWriters

def goto (s : TwoWriters) (who : Bool) (pc : WriterPc) : TwoWriters :=
  { s with pc := Function.update s.pc who pc }

/-- The step of a writer. A failed `rb_data_init` ends the call with an error. -/
def writerStep (host : Host) (s : TwoWriters) (who : Bool) (data : List UInt8) :
    Option TwoWriters :=
  match s.pc who with
  | .idle =>
      match s.ring.state with
      | .noinit => some (s.goto who (.init data))
      | .ready => some (s.goto who (.write data))
  | .init data =>
      let (r, status) := rbDataInit host s.ring data.length
      if status.isError then some ({ s with ring := r }.goto who .idle)
      else some ({ s with ring := r }.goto who (.setReady data))
  | .setReady data =>
      some ({ s with ring := { s.ring with state := .ready } }.goto who (.write data))
  | .write data =>
      (bufWriteReady host s.ring data).map fun (r, status, n) =>
        { s with
          ring := r
          accepted := s.accepted ++ if status = IoStatus.success then data.take n else []
        }.goto who .idle

def step (host : Host) (s : TwoWriters) : InitAct → Option TwoWriters
  | .writer who data => s.writerStep host who data
  | .read request =>
      (bufRead s.ring request false 1).map fun (r, _, out) =>
        { s with ring := r, delivered := s.delivered ++ out }

end TwoWriters

/-- Two writers that have not called yet, at a new ring with an alignment. -/
def initSystem (host : Host) : System TwoWriters InitAct where
  start := fun s => ∃ align, 0 < align ∧ s = { ring := { createBuffer with blockAlign := align } }
  step := TwoWriters.step host

/-- What was accepted and not yet delivered is what a read finds, in order: every accepted byte is
read exactly once. -/
def TwoWriters.OnceReadable (s : TwoWriters) : Prop :=
  ∃ rest, s.accepted = s.delivered ++ rest ∧
    ∀ request, ∃ r status, bufRead s.ring request false 1 = some (r, status, rest.take request)

/-- The allocations that `get_next_block` makes during a write, which `allocs` counts, each find
memory for a block. -/
def Host.RoomFor (host : Host) (r : Ring) (data : List UInt8) : Prop :=
  ∀ result ∈ bufWriteReady host r data, ∀ call, call < result.1.allocs → r.allocs ≤ call →
    r.blockSize < host.freeram call r.blockSize

instance (host : Host) (r : Ring) (data : List UInt8) : Decidable (host.RoomFor r data) :=
  inferInstanceAs (Decidable (∀ result ∈ bufWriteReady host r data, ∀ call,
    call < result.1.allocs → r.allocs ≤ call → _ < _))

/-- What is asked of the next step of a writer: no `rb_data_init` on a ring whose blocks have their
data, and memory for a write that grows the ring. -/
def WriterPc.Permitted (host : Host) (r : Ring) : WriterPc → Prop
  | .idle => True
  | .init _ => r.size = 0
  | .setReady _ => True
  | .write data => host.RoomFor r data

instance (host : Host) (r : Ring) : (pc : WriterPc) → Decidable (pc.Permitted host r)
  | .idle => .isTrue trivial
  | .init _ => inferInstanceAs (Decidable (r.size = 0))
  | .setReady _ => .isTrue trivial
  | .write data => inferInstanceAs (Decidable (host.RoomFor r data))

/-- `rb_data_init` is not repeated, and writes find memory. -/
def InitsOnce (host : Host) (s : TwoWriters) : InitAct → Prop
  | .writer who _ => (s.pc who).Permitted host s.ring
  | .read _ => True

instance (host : Host) (s : TwoWriters) : (act : InitAct) → Decidable (InitsOnce host s act)
  | .writer who _ => inferInstanceAs (Decidable ((s.pc who).Permitted host s.ring))
  | .read _ => .isTrue trivial

/-! ## Writes that find memory -/

section Room

variable {host host' : Host}

/-- `get_next_block` keeps the block size and takes no allocation back. -/
theorem getNextBlock_allocs (host : Host) (r : Ring) (b : Nat) :
    (getNextBlock host r b).1.blockSize = r.blockSize ∧
      r.allocs ≤ (getNextBlock host r b).1.allocs := by
  simp only [getNextBlock]
  split
  · exact ⟨rfl, Nat.le_refl _⟩
  · split
    · exact ⟨rfl, Nat.le_succ _⟩
    · exact ⟨rfl, Nat.le_succ _⟩

/-- Systems that report the same free memory for the next allocation. -/
theorem getNextBlock_congr {r : Ring} (b : Nat)
    (same : host'.freeram r.allocs r.blockSize = host.freeram r.allocs r.blockSize) :
    getNextBlock host' r b = getNextBlock host r b := by
  have alloc : ∀ n, r.doubleRealloc.allocBlocks host' n = r.doubleRealloc.allocBlocks host n := by
    intro n
    have agreed : host'.freeram r.doubleRealloc.allocs r.doubleRealloc.blockSize =
        host.freeram r.doubleRealloc.allocs r.doubleRealloc.blockSize := same
    simp only [Ring.allocBlocks, agreed]
  simp only [getNextBlock, alloc]

/-- Systems that report the same free memory for the allocations that `get_next_block` makes. -/
theorem getNextBlock_congr_made {r : Ring} (b : Nat)
    (same : ∀ call, r.allocs ≤ call → call < (getNextBlock host r b).1.allocs →
      host'.freeram call r.blockSize = host.freeram call r.blockSize) :
    getNextBlock host' r b = getNextBlock host r b := by
  by_cases empty : r.mem.bytes (r.mem.next b) = 0
  · simp only [getNextBlock, if_pos empty]
  · refine getNextBlock_congr b (same r.allocs (Nat.le_refl _) ?_)
    simp only [getNextBlock, if_neg empty]
    split <;> exact Nat.lt_succ_self _

/-- The write loop never takes an allocation back. -/
theorem bufWriteLoop_allocs (host : Host) (fuel : Nat) :
    ∀ (r : Ring) (b : Nat) (data : List UInt8) (result : Ring × Nat),
      bufWriteLoop host fuel r b data = some result → r.allocs ≤ result.1.allocs := by
  induction fuel with
  | zero =>
      intro r b data result loop
      cases data with
      | nil =>
          cases loop
          exact Nat.le_refl _
      | cons => cases loop
  | succ fuel ih =>
      intro r b data result loop
      cases data with
      | nil =>
          cases loop
          exact Nat.le_refl _
      | cons x rest =>
          simp only [bufWriteLoop] at loop
          generalize Mem.modify _ b (setBytes _) = m at loop
          exact Nat.le_trans (getNextBlock_allocs host { r with mem := m } b).2 (ih _ _ _ _ loop)

/-- The write loop depends on the allocations it makes and on no other. -/
theorem bufWriteLoop_congr (fuel : Nat) :
    ∀ (r : Ring) (b : Nat) (data : List UInt8) (result : Ring × Nat),
      bufWriteLoop host fuel r b data = some result →
      (∀ call, r.allocs ≤ call → call < result.1.allocs →
        host'.freeram call r.blockSize = host.freeram call r.blockSize) →
      bufWriteLoop host' fuel r b data = some result := by
  induction fuel with
  | zero =>
      intro r b data result loop _
      cases data with
      | nil => exact loop
      | cons => cases loop
  | succ fuel ih =>
      intro r b data result loop same
      cases data with
      | nil => exact loop
      | cons x rest =>
          simp only [bufWriteLoop] at loop ⊢
          generalize Mem.modify _ b (setBytes _) = m at loop ⊢
          have later := bufWriteLoop_allocs host fuel _ _ _ _ loop
          obtain ⟨size, earlier⟩ := getNextBlock_allocs host { r with mem := m } b
          have next : getNextBlock host' { r with mem := m } b =
              getNextBlock host { r with mem := m } b :=
            getNextBlock_congr_made b fun call low high =>
              same call low (Nat.lt_of_lt_of_le high later)
          rw [next]
          refine ih _ _ _ _ loop fun call low high => ?_
          rw [size]
          exact same call (Nat.le_trans earlier low) high

/-- The system as the allocations from one count to another meet it, with memory at all others. -/
def Host.during (host : Host) (r : Ring) (allocs : Nat) : Host :=
  { host with
    freeram := fun call size =>
      if r.allocs ≤ call ∧ call < allocs ∧ size = r.blockSize then host.freeram call size
      else size + 1 }

theorem Host.during_fits {r : Ring} {allocs : Nat}
    (room : ∀ call, call < allocs → r.allocs ≤ call →
      r.blockSize < host.freeram call r.blockSize) : (host.during r allocs).Fits := by
  intro call size
  simp only [Host.during]
  split
  · next within =>
      obtain ⟨low, high, rfl⟩ := within
      exact room call high low
  · exact Nat.lt_succ_self _

/-- **A write that finds memory when it needs some appends its bytes.** -/
theorem bufWriteReady_room {r : Ring} {q data : List UInt8} {result : Ring × IoStatus × Nat}
    (room : host.RoomFor r data) (holds : r.Holds q) (isReady : r.state = .ready)
    (noLow : r.lowWaterMark = 0) (noHigh : r.highWaterMark = 0)
    (written : bufWriteReady host r data = some result) :
    ∃ r', result = (r', .success, data.length) ∧ r'.Holds (q ++ data) ∧ r'.state = .ready ∧
      r.Keeps r' := by
  have found := room result written
  have noMark : ¬ r.lowWaterMark ≠ 0 := fun low => low noLow
  rw [bufWriteReady, if_neg noMark] at written
  obtain ⟨⟨r₁, b⟩, loop, rfl⟩ := Option.map_eq_some_iff.mp written
  have count : (finishWrite host r₁ b data.length).allocs = r₁.allocs := by
    simp only [finishWrite]
    split <;> rfl
  rw [count] at found
  have loop' : bufWriteLoop (host.during r r₁.allocs) data.length r r.wp data = some (r₁, b) :=
    bufWriteLoop_congr _ _ _ _ _ loop fun call low high => by simp [Host.during, low, high]
  have same : bufWriteReady (host.during r r₁.allocs) r data =
      some (finishWrite host r₁ b data.length, .success, data.length) := by
    rw [bufWriteReady, if_neg noMark, loop']
    rfl
  obtain ⟨r', written', holds', ready', keeps⟩ :=
    bufWriteReady_spec (Host.during_fits found) holds isReady noLow noHigh
  cases same.symm.trans written'
  exact ⟨_, rfl, holds', ready', keeps⟩

end Room

/-! ## The three phases of a ring -/

/-- The blocks have no data yet. A failed `rb_data_init` may have left its block size. -/
def Ring.Fresh (r : Ring) : Prop :=
  r.state = .noinit ∧ Ring.Holds { r with blockSize := 0 } []

/-- The blocks have their data, and the state does not say so yet. -/
def Ring.Given (r : Ring) : Prop :=
  r.state = .noinit ∧ Ring.Holds { r with state := .ready } []

/-- What a ring that has not been written yet holds. -/
theorem Ring.Fresh.size_eq {r : Ring} (fresh : r.Fresh) : r.size = 0 := by
  obtain ⟨-, full, free, shape, -⟩ := fresh
  have capacity : r.size = (full ++ free).length * 0 := shape.body.capacity
  rw [capacity, Nat.mul_zero]

theorem Ring.Holds.size_pos {r : Ring} {q : List UInt8} (holds : r.Holds q)
    (ready : r.state = .ready) : 0 < r.size := by
  obtain ⟨full, free, shape, -⟩ := holds
  rw [shape.body.capacity]
  refine Nat.mul_pos ?_ (shape.ready ready)
  have spare := List.length_pos_iff.mpr shape.spare
  rw [List.length_append]
  omega

/-- `rb_data_init` on blocks without data gives them some, and shortens the ring to those for which
there is memory; or it fails, and the blocks have no data still. -/
theorem rbDataInit_cases {host : Host} {r r' : Ring} {free : List Nat} {n : Nat}
    {status : IoStatus} (layout : Layout r.mem 0 r.wp r.wp [] free) (spare : free ≠ [])
    (called : rbDataInit host r n = (r', status)) :
    ∃ (m : Mem UInt8) (free' : List Nat), free' ≠ [] ∧
      ((status = .error ∧ Layout m 0 r.wp r.wp [] free' ∧
          r' = { r with mem := m, blockSize := alignedSize n r.blockAlign,
                        allocs := r.allocs + 1 }) ∨
        (status = .success ∧ 0 < alignedSize n r.blockAlign ∧
          Layout m (alignedSize n r.blockAlign) r.wp r.wp [] free' ∧
          r' = { r with mem := m, blockSize := alignedSize n r.blockAlign,
                        size := r.size + free'.length * alignedSize n r.blockAlign,
                        allocs := r.allocs + 1 })) := by
  obtain ⟨k, within, -, bytes, given, nothing⟩ := layout.give spare
    (alignedSize n r.blockAlign) (host.freeram r.allocs (alignedSize n r.blockAlign))
  have taken : (free.take k).length = k := List.length_take_of_le within
  have nonempty : 0 < k → free.take k ≠ [] := by
    rw [← List.length_pos_iff, taken]
    exact id
  simp only [rbDataInit] at called
  generalize blockDataFastalloc r.mem r.wp _ _ = filled at bytes given nothing called
  by_cases failed : filled.2 = 0
  · rw [if_pos failed] at called
    obtain ⟨rfl, rfl⟩ := Prod.mk.inj called
    have same : r.size + filled.2 = r.size := by rw [failed, Nat.add_zero]
    -- Either no block got data, or blocks of size zero did.
    rcases Nat.eq_zero_or_pos k with zero | positive
    · exact ⟨filled.1, free, spare, .inl ⟨rfl, nothing zero, by rw [same]⟩⟩
    · have sizeless : alignedSize n r.blockAlign = 0 := by
        rw [bytes] at failed
        exact (Nat.mul_eq_zero.mp failed).resolve_left (Nat.pos_iff_ne_zero.mp positive)
      exact ⟨filled.1, free.take k, nonempty positive,
        .inl ⟨rfl, sizeless ▸ given positive, by rw [same]⟩⟩
  · rw [if_neg failed] at called
    obtain ⟨rfl, rfl⟩ := Prod.mk.inj called
    have product : 0 < k * alignedSize n r.blockAlign := by omega
    have positive : 0 < k := Nat.pos_of_mul_pos_right product
    refine ⟨filled.1, free.take k, nonempty positive,
      .inr ⟨rfl, Nat.pos_of_mul_pos_left product, given positive, ?_⟩⟩
    rw [taken, bytes]

/-- **`rb_data_init` on a fresh ring.** It gives the blocks their data, or fails and leaves the ring
fresh. -/
theorem Ring.Fresh.init {host : Host} {r r' : Ring} {n : Nat} {status : IoStatus}
    (fresh : r.Fresh) (called : rbDataInit host r n = (r', status)) :
    r.Keeps r' ∧ (status = .error ∧ r'.Fresh ∨ status = .success ∧ r'.Given) := by
  have empty := fresh.size_eq
  obtain ⟨isNoinit, full, free, shape, -⟩ := fresh
  obtain ⟨rfl, -⟩ := shape.fresh isNoinit
  have layout : Layout r.mem 0 r.rp r.wp [] free := shape.body.layout
  have positions : r.rp = r.wp := layout.rp_eq_wp
  rw [positions] at layout
  obtain ⟨m, free', spare', ⟨rfl, layout', rfl⟩ | ⟨rfl, sized, layout', rfl⟩⟩ :=
    rbDataInit_cases layout shape.spare called
  · refine ⟨⟨rfl, rfl, rfl, rfl, rfl, rfl, rfl⟩, .inl ⟨rfl, isNoinit, [], free', ?_, rfl⟩⟩
    refine ⟨⟨?_, List.forall_mem_nil _, ?_, shape.body.grows⟩, spare', shape.count, ?_,
      fun _ => ⟨rfl, rfl⟩⟩
    · show Layout m 0 r.rp r.wp [] free'
      rw [positions]
      exact layout'
    · show r.size = ([] ++ free').length * 0
      rw [empty, Nat.mul_zero]
    · intro isReady
      cases isNoinit.symm.trans isReady
  · refine ⟨⟨rfl, rfl, rfl, rfl, rfl, rfl, rfl⟩, .inr ⟨rfl, isNoinit, [], free', ?_, rfl⟩⟩
    refine ⟨⟨?_, List.forall_mem_nil _, ?_, shape.body.grows⟩, spare', shape.count,
      fun _ => sized, by rintro ⟨⟩⟩
    · show Layout m (alignedSize n r.blockAlign) r.rp r.wp [] free'
      rw [positions]
      exact layout'
    · show r.size + free'.length * alignedSize n r.blockAlign =
        ([] ++ free').length * alignedSize n r.blockAlign
      rw [empty, List.nil_append, Nat.zero_add]

/-! ## Reads in every phase -/

/-- A read changes the blocks, the count, the read position and the read side only, and looks at
neither the state nor the block size. -/
theorem bufRead_relabel {r r' : Ring} {request align : Nat} {block : Bool} {status : IoStatus}
    {out : List UInt8} (read : bufRead r request block align = some (r', status, out))
    (state : RbState) (blockSize : Nat) :
    bufRead { r with state := state, blockSize := blockSize } request block align =
        some ({ r' with state := state, blockSize := blockSize }, status, out) ∧
      r'.state = r.state ∧ r'.blockSize = r.blockSize := by
  simp only [bufRead, Option.map_eq_some_iff] at read ⊢
  obtain ⟨⟨m, b, bytes⟩, loop, result⟩ := read
  by_cases finished : r.flush ∧ bytes = []
  · rw [if_pos finished] at result
    cases result
    exact ⟨⟨_, loop, if_pos finished⟩, rfl, rfl⟩
  · rw [if_neg finished] at result
    cases result
    exact ⟨⟨_, loop, if_neg finished⟩, rfl, rfl⟩

/-- A ring without marks that is not stopped. -/
structure Ring.Plain (r : Ring) : Prop where
  noHigh : r.highWaterMark = 0
  noLow : r.lowWaterMark = 0
  unlimited : r.minReturnSize = 0
  running : r.flush = false

theorem Ring.Plain.of_keeps {r r' : Ring} (plain : r.Plain) (keeps : r.Keeps r') : r'.Plain where
  noHigh := keeps.highWaterMark.trans plain.noHigh
  noLow := keeps.lowWaterMark.trans plain.noLow
  unlimited := keeps.minReturnSize.trans plain.unlimited
  running := keeps.flush.trans plain.running

/-- A read of a ring of which it is known what it would hold with another state or block size. -/
theorem Ring.Plain.read {r : Ring} (plain : r.Plain) {rest : List UInt8} (state : RbState)
    (blockSize : Nat) (holds : Ring.Holds { r with state := state, blockSize := blockSize } rest)
    (request : Nat) :
    ∃ r', bufRead r request false 1 = some (r', .success, rest.take request) ∧ r.Keeps r' ∧
      r'.state = r.state ∧ r'.blockSize = r.blockSize ∧
      Ring.Holds { r' with state := state, blockSize := blockSize } (rest.drop request) := by
  obtain ⟨r₁, holds₁, -, keeps, read⟩ := bufRead_spec holds request plain.unlimited
  rw [if_neg (by simp [plain.running])] at read
  obtain ⟨read, rfl, rfl⟩ := bufRead_relabel read r.state r.blockSize
  exact ⟨_, read, ⟨keeps.ioRead, keeps.ioWrite, keeps.flush, keeps.blockAlign, keeps.highWaterMark,
    keeps.lowWaterMark, keeps.minReturnSize⟩, rfl, rfl, holds₁⟩

/-! ## Runs -/

/-- How far the ring is initialised, and where the writers can then stand. `rest` is what can be
read. -/
inductive TwoWriters.Phase (s : TwoWriters) : (rest : List UInt8) → Prop where
  | fresh (ring : s.ring.Fresh)
      (before : ∀ who data, s.pc who ≠ .setReady data ∧ s.pc who ≠ .write data) : s.Phase []
  | given (ring : s.ring.Given) (before : ∀ who data, s.pc who ≠ .write data) : s.Phase []
  | ready {rest : List UInt8} (ring : s.ring.state = .ready) (holds : s.ring.Holds rest) :
      s.Phase rest

/-- The bytes accepted are those delivered and those that can be read. -/
structure TwoWriters.Inv (s : TwoWriters) (rest : List UInt8) : Prop where
  bytes : s.accepted = s.delivered ++ rest
  plain : s.ring.Plain
  phase : s.Phase rest

namespace TwoWriters

variable {host : Host} {s t : TwoWriters} {rest : List UInt8}

theorem Phase.sizeIsSum (phase : s.Phase rest) : s.ring.SizeIsSum := by
  cases phase with
  | fresh ring _ => exact ring.2.size_eq
  | given ring _ => exact ring.2.size_eq
  | ready _ holds => exact holds.size_eq

/-- **A read delivers the first of the bytes that can be read and leaves the others.** -/
theorem Inv.read (inv : s.Inv rest) (request : Nat) :
    ∃ r, bufRead s.ring request false 1 = some (r, .success, rest.take request) ∧
      Inv { s with ring := r, delivered := s.delivered ++ rest.take request }
        (rest.drop request) := by
  have bytes : s.accepted = s.delivered ++ rest.take request ++ rest.drop request := by
    rw [inv.bytes, List.append_assoc, List.take_append_drop]
  obtain ⟨-, plain, phase⟩ := inv
  cases phase with
  | fresh ring before =>
      obtain ⟨r, read, keeps, state, -, holds⟩ := plain.read s.ring.state 0 ring.2 request
      rw [List.drop_nil] at holds bytes ⊢
      refine ⟨r, read, bytes, plain.of_keeps keeps, .fresh ⟨state.trans ring.1, ?_⟩ before⟩
      rwa [← state] at holds
  | given ring before =>
      obtain ⟨r, read, keeps, state, size, holds⟩ :=
        plain.read .ready s.ring.blockSize ring.2 request
      rw [List.drop_nil] at holds bytes ⊢
      refine ⟨r, read, bytes, plain.of_keeps keeps, .given ⟨state.trans ring.1, ?_⟩ before⟩
      rwa [← size] at holds
  | ready isReady stored =>
      obtain ⟨r, read, keeps, state, size, holds⟩ :=
        plain.read s.ring.state s.ring.blockSize stored request
      refine ⟨r, read, bytes, plain.of_keeps keeps, .ready (state.trans isReady) ?_⟩
      rwa [← state, ← size] at holds

/-- A writer that stands before the locked part found or made the ring ready. -/
theorem Phase.holds (phase : s.Phase rest) {who : Bool} {data : List UInt8}
    (writing : s.pc who = .write data) : s.ring.state = .ready ∧ s.ring.Holds rest := by
  cases phase with
  | fresh _ before => exact absurd writing (before who data).2
  | given _ before => exact absurd writing (before who data)
  | ready isReady holds => exact ⟨isReady, holds⟩

theorem goto_pc_of_ne {who other : Bool} {pc : WriterPc} (apart : other ≠ who) :
    (s.goto who pc).pc other = s.pc other :=
  Function.update_of_ne apart ..

theorem goto_pc (who : Bool) (pc : WriterPc) : (s.goto who pc).pc who = pc :=
  Function.update_self ..

/-- A writer that goes to a place where nobody has to stand yet. -/
theorem goto_ne {who : Bool} {pc pc' : WriterPc} (here : pc ≠ pc')
    (elsewhere : ∀ other, s.pc other ≠ pc') (other : Bool) : (s.goto who pc).pc other ≠ pc' := by
  by_cases same : other = who
  · subst same
    rwa [goto_pc]
  · rw [goto_pc_of_ne same]
    exact elsewhere other

/-- The test of the state. -/
theorem Inv.test (inv : s.Inv rest) (who : Bool) (data : List UInt8) :
    (s.ring.state = .noinit → (s.goto who (.init data)).Inv rest) ∧
      (s.ring.state = .ready → (s.goto who (.write data)).Inv rest) := by
  obtain ⟨bytes, plain, phase⟩ := inv
  cases phase with
  | fresh ring before =>
      refine ⟨fun _ => ⟨bytes, plain, .fresh ring fun other data' => ⟨?_, ?_⟩⟩, fun isReady => ?_⟩
      · exact goto_ne (by simp) (fun other => (before other data').1) other
      · exact goto_ne (by simp) (fun other => (before other data').2) other
      · cases ring.1.symm.trans isReady
  | given ring before =>
      refine ⟨fun _ => ⟨bytes, plain, .given ring fun other data' => ?_⟩, fun isReady => ?_⟩
      · exact goto_ne (by simp) (fun other => before other data') other
      · cases ring.1.symm.trans isReady
  | ready isReady holds =>
      refine ⟨fun isNoinit => ?_, fun _ => ⟨bytes, plain, .ready isReady holds⟩⟩
      cases isReady.symm.trans isNoinit

/-- `rb_data_init` on a ring whose blocks have no data. -/
theorem Inv.dataInit (inv : s.Inv rest) (unsized : s.ring.size = 0) {r : Ring}
    {status : IoStatus} (who : Bool) (data : List UInt8)
    (called : rbDataInit host s.ring data.length = (r, status)) :
    (status = .error ∧ ({ s with ring := r }.goto who .idle).Inv rest) ∨
      (status = .success ∧ ({ s with ring := r }.goto who (.setReady data)).Inv rest) := by
  obtain ⟨bytes, plain, phase⟩ := inv
  cases phase with
  | fresh ring before =>
      obtain ⟨keeps, ⟨failed, fresh⟩ | ⟨succeeded, given⟩⟩ := ring.init called
      · refine .inl ⟨failed, bytes, plain.of_keeps keeps, .fresh fresh fun other data' => ⟨?_, ?_⟩⟩
        · exact goto_ne (by simp) (fun other => (before other data').1) other
        · exact goto_ne (by simp) (fun other => (before other data').2) other
      · refine .inr ⟨succeeded, bytes, plain.of_keeps keeps, .given given fun other data' => ?_⟩
        exact goto_ne (by simp) (fun other => (before other data').2) other
  | given ring _ =>
      have sized : 0 < s.ring.size := ring.2.size_pos rfl
      omega
  | ready isReady holds =>
      have sized := holds.size_pos isReady
      omega

/-- The change of the state, behind a successful `rb_data_init`. -/
theorem Inv.setReady (inv : s.Inv rest) {who : Bool} {data : List UInt8}
    (here : s.pc who = .setReady data) :
    ({ s with ring := { s.ring with state := .ready } }.goto who (.write data)).Inv rest := by
  obtain ⟨bytes, ⟨noHigh, noLow, unlimited, running⟩, phase⟩ := inv
  refine ⟨bytes, ⟨noHigh, noLow, unlimited, running⟩, ?_⟩
  cases phase with
  | fresh _ before => exact absurd here (before who data).1
  | given ring _ => exact .ready rfl ring.2
  | ready isReady holds =>
      have same : { s.ring with state := .ready } = s.ring := by rw [← isReady]
      exact .ready rfl (by rwa [← same] at holds)

/-- The locked part of a write. -/
theorem Inv.write (inv : s.Inv rest) {who : Bool} {data : List UInt8}
    {result : Ring × IoStatus × Nat} (here : s.pc who = .write data)
    (room : host.RoomFor s.ring data) (written : bufWriteReady host s.ring data = some result) :
    ∃ r, result = (r, .success, data.length) ∧
      ({ s with ring := r, accepted := s.accepted ++ data }.goto who .idle).Inv (rest ++ data) := by
  obtain ⟨isReady, holds⟩ := inv.phase.holds here
  obtain ⟨r, rfl, holds', isReady', keeps⟩ :=
    bufWriteReady_room room holds isReady inv.plain.noLow inv.plain.noHigh written
  refine ⟨r, rfl, ?_, inv.plain.of_keeps keeps, .ready isReady' holds'⟩
  show s.accepted ++ data = s.delivered ++ (rest ++ data)
  rw [inv.bytes, List.append_assoc]

/-- **A step that meets the condition keeps every accepted byte.** -/
theorem Inv.step (inv : s.Inv rest) {act : InitAct} (permitted : InitsOnce host s act)
    (step : s.step host act = some t) : ∃ rest', t.Inv rest' := by
  cases act with
  | read request =>
      obtain ⟨r, read, inv'⟩ := inv.read request
      simp only [TwoWriters.step, read, Option.map_some, Option.some.injEq] at step
      exact ⟨_, step ▸ inv'⟩
  | writer who data =>
      simp only [TwoWriters.step, writerStep] at step
      cases here : s.pc who with
      | idle =>
          simp only [here] at step
          cases state : s.ring.state with
          | noinit =>
              simp only [state, Option.some.injEq] at step
              exact ⟨rest, step ▸ (inv.test who data).1 state⟩
          | ready =>
              simp only [state, Option.some.injEq] at step
              exact ⟨rest, step ▸ (inv.test who data).2 state⟩
      | init data' =>
          simp only [here] at step
          have unsized : s.ring.size = 0 := by
            simpa only [InitsOnce, here, WriterPc.Permitted] using permitted
          obtain ⟨r, status, called⟩ : ∃ r status, rbDataInit host s.ring data'.length =
              (r, status) := ⟨_, _, rfl⟩
          rw [called] at step
          rcases inv.dataInit unsized who data' called with ⟨rfl, inv'⟩ | ⟨rfl, inv'⟩
          · exact ⟨rest, Option.some.inj step ▸ inv'⟩
          · exact ⟨rest, Option.some.inj step ▸ inv'⟩
      | setReady data' =>
          simp only [here, Option.some.injEq] at step
          exact ⟨rest, step ▸ inv.setReady here⟩
      | write data' =>
          have room : host.RoomFor s.ring data' := by
            simpa only [InitsOnce, here, WriterPc.Permitted] using permitted
          simp only [here] at step
          obtain ⟨result, written, step⟩ := Option.map_eq_some_iff.mp step
          obtain ⟨r, rfl, inv'⟩ := inv.write here room written
          simp only [if_true, List.take_length] at step
          exact ⟨_, step ▸ inv'⟩

end TwoWriters

theorem initSystem_start {host : Host} {s : TwoWriters} (start : (initSystem host).start s) :
    s.Inv [] := by
  obtain ⟨align, -, rfl⟩ := start
  obtain ⟨free, shape⟩ := createBuffer_shape
  refine ⟨rfl, ⟨rfl, rfl, rfl, rfl⟩, .fresh ⟨rfl, [], free, ?_, rfl⟩ fun _ _ => by simp⟩
  obtain ⟨⟨layout, stored, capacity, grows⟩, spare, count, ready, fresh⟩ := shape
  exact ⟨⟨layout, stored, capacity, grows⟩, spare, count, ready, fresh⟩

/-- **Two writers, and a reader between them, lose no byte and repeat none, and the size is that of
the blocks**, in every run in which `rb_data_init` is not repeated on blocks that have their data
and every write that grows the ring finds memory. -/
theorem first_write_inits_once (host : Host) (s : TwoWriters)
    (reached : (initSystem host).ReachUnder (InitsOnce host) s) :
    s.OnceReadable ∧ s.ring.SizeIsSum := by
  obtain ⟨rest, inv⟩ : ∃ rest, s.Inv rest := by
    refine reached.invariant (I := fun s => ∃ rest, s.Inv rest)
      (fun s start => ⟨[], initSystem_start start⟩) ?_
    rintro s act t ⟨rest, inv⟩ permitted step
    exact inv.step permitted step
  refine ⟨⟨rest, inv.bytes, fun request => ?_⟩, inv.phase.sizeIsSum⟩
  obtain ⟨r, read, -⟩ := inv.read request
  exact ⟨r, .success, read⟩

/-- Two idle writers at a new ring whose blocks take single bytes. -/
def newTwoWriters : TwoWriters where
  ring := { createBuffer with blockAlign := 1 }

theorem newTwoWriters_start : (initSystem roomyHost).start newTwoWriters := ⟨1, by decide, rfl⟩

/-- Both writers find the ring uninitialised, but the second one is so late that the first has
failed: its write was empty. -/
theorem first_write_inits_once_late :
    ∃ s, (initSystem roomyHost).execUnder (InitsOnce roomyHost) newTwoWriters
        [.writer false [], .writer true [2], .writer false [], .writer true [], .read 1,
          .writer true [], .writer true []] = some s ∧
      s.accepted = [2] ∧ s.OnceReadable ∧ s.ring.SizeIsSum := by
  have run : ((initSystem roomyHost).execUnder (InitsOnce roomyHost) newTwoWriters
      [.writer false [], .writer true [2], .writer false [], .writer true [], .read 1,
        .writer true [], .writer true []]).map TwoWriters.accepted = some [2] := by
    decide +kernel
  obtain ⟨s, run, accepted⟩ := Option.map_eq_some_iff.mp run
  exact ⟨s, run, accepted, first_write_inits_once roomyHost s
    (System.ReachUnder.execUnder (.start newTwoWriters_start) run)⟩

/-- Both writers find the ring uninitialised; the second `rb_data_init` comes after the first
writer's byte was accepted, and the byte is gone. -/
theorem second_init_loses_byte :
    ¬ ∀ (host : Host) (s : TwoWriters), (initSystem host).Reach s →
      s.OnceReadable ∧ s.ring.SizeIsSum := by
  intro always
  have run : ((initSystem roomyHost).exec newTwoWriters
      [.writer false [1], .writer true [2], .writer false [], .writer false [], .writer false [],
        .writer true []]).map (fun s =>
          (s.accepted, s.delivered, (bufRead s.ring 1 false 1).map fun result => result.2.2)) =
      some ([1], [], some []) := by
    decide +kernel
  obtain ⟨s, run, found⟩ := Option.map_eq_some_iff.mp run
  simp only [Prod.mk.injEq] at found
  obtain ⟨accepted, delivered, empty⟩ := found
  obtain ⟨⟨rest, bytes, readable⟩, -⟩ :=
    always roomyHost s (System.ReachUnder.exec (.start newTwoWriters_start) run)
  obtain ⟨r, status, read⟩ := readable 1
  rw [accepted, delivered, List.nil_append] at bytes
  simp [read, ← bytes] at empty

end Bingewatch.Buffer
