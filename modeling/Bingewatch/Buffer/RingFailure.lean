import Bingewatch.Buffer.RingInit
import Bingewatch.Buffer.RingStop
import Bingewatch.Buffer.RingZeroCopy

/-!
# Writes that run out of memory

When a write has filled the last empty block of a ring, `get_next_block` links new blocks behind it.
If there is no memory it fails and leaves the block pointer as it was. Its callers ignore that: the
write goes on in the block that it has just filled, and so does the next write. The number of blocks
to ask for next time has been doubled by then as well.

`expansions_lossless_iff` says, over every sequence of calls from a new ring, that each write adds
exactly the bytes it reports, and a failed expansion changes nothing, as long as no expansion fails.
-/

set_option autoImplicit false

namespace Bingewatch.Buffer

open Machine

/-! ## Sequences of calls -/

/-- `rb_set_high_water_mark`. -/
def rbSetHighWaterMark (r : Ring) (bytes : Nat) : Ring := { r with highWaterMark := bytes }

/-- `rb_set_alignment`. -/
def rbSetAlignment (r : Ring) (align : Nat) : Ring := { r with blockAlign := align }

/-- A call on a ring buffer. A block that was acquired is released with at least one byte. -/
inductive RingCall where
  | write (data : List UInt8)
  | zeroCopy (initBytes : Nat) (data : List UInt8)
  | read (request : Nat) (block : Bool) (align : Nat)
  | stop
  | setMinReturnSize (bytes : Nat)
  | setHighWaterMark (bytes : Nat)
  | setAlignment (align : Nat)
  deriving DecidableEq, Repr

/-- The bytes that a call is to write. -/
def RingCall.data : RingCall → List UInt8
  | .write data => data
  | .zeroCopy _ data => data
  | _ => []

/-- What a call does, with the status and the count that a write reports. -/
def Ring.exec (host : Host) (r : Ring) : RingCall → Option (Ring × Option (IoStatus × Nat))
  | .write data => (bufWrite host r data).map fun (r, report) => (r, some report)
  | .zeroCopy initBytes data =>
      if data = [] then none
      else
        (zeroCopyWrite host r initBytes data).bind fun (r, answer) =>
          match answer with
          | .wrote status count => some (r, some (status, count))
          | _ => none
  | .read request block align => (bufRead r request block align).map fun (r, _) => (r, none)
  | .stop => some (stopBuffer r, none)
  | .setMinReturnSize bytes => some (rbSetMinReturnSize r bytes, none)
  | .setHighWaterMark bytes => some (rbSetHighWaterMark r bytes, none)
  | .setAlignment align => some (rbSetAlignment r align, none)

/-- Execute calls in turn. -/
def Ring.execAll (host : Host) : Ring → List RingCall → Option Ring
  | r, [] => some r
  | r, c :: calls => (r.exec host c).bind fun (r, _) => r.execAll host calls

/-! ## The calls of `get_next_block` -/

/-- The ring, initialised if it was not, in which a write begins to store; `n` is what the first
write asks for. -/
def Ring.readyFor (host : Host) (r : Ring) (n : Nat) : Option Ring :=
  match r.state with
  | .ready => some r
  | .noinit =>
      match ringDataInit host r n with
      | (_, true) => none
      | (r, false) => some r

/-- A block has been given data. -/
def Ring.stored (r : Ring) (b : Nat) (data : List UInt8) : Ring :=
  { r with mem := (r.mem.modify b (storeData data)).modify b (setBytes data.length) }

/-- The rings and blocks with which the loop of `buf_write` calls `get_next_block`. -/
def loopCalls (host : Host) : Nat → Ring → Nat → List UInt8 → List (Ring × Nat)
  | _, _, _, [] => []
  | 0, _, _, _ :: _ => []
  | fuel + 1, r, b, x :: rest =>
      let data := x :: rest
      let n := if data.length < r.mem.size b then data.length else r.mem.size b
      let r := r.stored b (data.take n)
      (r, b) :: loopCalls host fuel (getNextBlock host r b).1 (getNextBlock host r b).2.1
        (data.drop n)

/-- The calls of `get_next_block` by a write to an initialised ring. -/
def Ring.writeCalls (host : Host) (r : Ring) (data : List UInt8) : List (Ring × Nat) :=
  if r.lowWaterMark ≠ 0 then [] else loopCalls host data.length r r.wp data

/-- The call of `get_next_block` by the release of a block. -/
def Ring.releaseCalls (r : Ring) (data : List UInt8) : List (Ring × Nat) :=
  if r.lowWaterMark ≠ 0 ∨ data = [] ∨ r.mem.size r.wp < data.length then []
  else [(r.stored r.wp data, r.wp)]

/-- The calls of `get_next_block` by a call on the ring. -/
def Ring.nextCalls (host : Host) (r : Ring) : RingCall → List (Ring × Nat)
  | .write data =>
      match r.readyFor host data.length with
      | none => []
      | some r => r.writeCalls host data
  | .zeroCopy initBytes data =>
      match r.readyFor host (if initBytes > 0 then initBytes else defaultBufBytes) with
      | none => []
      | some r => r.releaseCalls data
  | _ => []

/-! ## Losing nothing -/

/-- Links, sizes and the number of blocks to ask for are as they were. -/
structure Untouched (r r' : Ring) : Prop where
  links : ∀ x, x < r.mem.brk → r'.mem.next x = r.mem.next x ∧ r'.mem.size x = r.mem.size x
  size : r'.size = r.size
  blockRealloc : r'.blockRealloc = r.blockRealloc

/-- The ring has got the given bytes behind those it had, and its count is the number of bytes in
its blocks. -/
def Appends (r r' : Ring) (data : List UInt8) : Prop :=
  r'.content = r.content ++ data ∧ r'.bytes = (r'.blocks.map r'.mem.bytes).sum

/-- A call on the ring loses nothing: a write to an initialised ring adds the bytes that it reports,
and a call of `get_next_block` that fails leaves the ring untouched. -/
def Ring.Lossless (host : Host) (r : Ring) (c : RingCall) : Prop :=
  (∀ r' status count, r.exec host c = some (r', some (status, count)) → status ≠ .error →
    Appends r r' (c.data.take count)) ∧
  ∀ s b, (s, b) ∈ r.nextCalls host c → (getNextBlock host s b).2.2 = true →
    Untouched s (getNextBlock host s b).1

/-- Every call of a sequence loses nothing. -/
def Ring.LosslessRun (host : Host) : Ring → List RingCall → Prop
  | _, [] => True
  | r, c :: calls => r.Lossless host c ∧
      ∀ r' report, r.exec host c = some (r', report) → r'.LosslessRun host calls

/-- The block behind `b` still holds data, and there is no memory for a new one. -/
def Ring.NoRoom (host : Host) (r : Ring) (b : Nat) : Prop :=
  r.mem.bytes (r.mem.next b) ≠ 0 ∧ host.freeram r.allocs r.blockSize ≤ r.blockSize

/-- No expansion fails in a sequence of calls. -/
def Ring.RoomRun (host : Host) : Ring → List RingCall → Prop
  | _, [] => True
  | r, c :: calls => (∀ s b, (s, b) ∈ r.nextCalls host c → ¬s.NoRoom host b) ∧
      ∀ r' report, r.exec host c = some (r', report) → r'.RoomRun host calls

/-! ## Expansions that fail -/

section Expansions

variable {host : Host} {r : Ring}

/-- What every initialised ring keeps, also when memory runs out. -/
structure Ring.Alive (r : Ring) : Prop where
  sized : 0 < r.blockSize
  allocated : 0 < r.mem.brk
  grows : 0 < r.blockRealloc

theorem Ring.Holds.alive {q : List UInt8} (holds : r.Holds q) (isReady : r.state = .ready) :
    r.Alive := by
  obtain ⟨full, free, shape, -⟩ := holds
  obtain ⟨x, member⟩ := List.exists_mem_of_ne_nil free shape.spare
  have inside := shape.body.layout.inside x (List.mem_append_right _ member)
  exact ⟨shape.ready isReady, by omega, shape.body.grows⟩

/-- New blocks leave the others alone, and there are none without memory for one. -/
theorem allocBlocks_spec (host : Host) (alive : r.Alive) {n : Nat} (some : 0 < n) :
    r.mem.brk ≤ (r.allocBlocks host n).1.mem.brk ∧
      (r.allocBlocks host n).2.2 =
        blocksFitting r.blockSize (host.freeram r.allocs r.blockSize) n * r.blockSize := by
  obtain ⟨added, length, -, bytes, grown, -⟩ := blockDataFastalloc_fresh r.mem
    (host.freeram r.allocs r.blockSize) some alive.allocated alive.sized
  exact ⟨grown, by rw [← length]; exact bytes⟩

theorem getNextBlock_alive (host : Host) (alive : r.Alive) (b : Nat) :
    (getNextBlock host r b).1.Alive := by
  have doubled : r.doubleRealloc.Alive :=
    ⟨alive.sized, alive.allocated, Nat.mul_pos alive.grows Nat.two_pos⟩
  obtain ⟨grown, -⟩ := allocBlocks_spec host doubled doubled.grows
  have positive := Nat.lt_of_lt_of_le alive.allocated grown
  simp only [getNextBlock]
  split
  · exact alive
  · split
    · exact ⟨alive.sized, positive, doubled.grows⟩
    · exact ⟨alive.sized, positive, doubled.grows⟩

/-- `get_next_block` fails exactly when the next block holds data and there is no memory. -/
theorem getNextBlock_fails_iff (host : Host) (alive : r.Alive) (b : Nat) :
    (getNextBlock host r b).2.2 = true ↔ r.NoRoom host b := by
  have doubled : r.doubleRealloc.Alive :=
    ⟨alive.sized, alive.allocated, Nat.mul_pos alive.grows Nat.two_pos⟩
  obtain ⟨-, added⟩ := allocBlocks_spec host doubled doubled.grows
  have nothing : (r.doubleRealloc.allocBlocks host r.doubleRealloc.blockRealloc).2.2 = 0 ↔
      host.freeram r.allocs r.blockSize ≤ r.blockSize := by
    rw [added, Nat.mul_eq_zero, or_iff_left (Nat.pos_iff_ne_zero.mp doubled.sized)]
    constructor
    · intro none
      by_contra enough
      have fitting := blocksFitting_pos doubled.grows doubled.sized (Nat.lt_of_not_le enough)
      exact Nat.pos_iff_ne_zero.mp fitting none
    · intro scarce
      rw [blocksFitting_eq _ _ doubled.sized]
      have quotient : (host.freeram r.allocs r.blockSize - 1) / r.blockSize = 0 := by
        refine Nat.div_eq_of_lt ?_
        have sized := alive.sized
        omega
      show min _ ((host.freeram r.allocs r.blockSize - 1) / r.blockSize) = 0
      rw [quotient, Nat.min_zero]
  simp only [getNextBlock, Ring.NoRoom]
  split
  · next empty => simp [empty]
  · next occupied =>
      split
      · next none => simp [occupied, nothing.mp none]
      · next some => simpa [occupied] using fun scarce => some (nothing.mpr scarce)

/-- A failing `get_next_block` has doubled the number of blocks to ask for. -/
theorem getNextBlock_doubles {b : Nat} (fails : (getNextBlock host r b).2.2 = true) :
    (getNextBlock host r b).1.blockRealloc = r.blockRealloc * 2 := by
  simp only [getNextBlock] at fails ⊢
  split at fails
  · cases fails
  · next occupied =>
      rw [if_neg occupied]
      split at fails
      · next none =>
          rw [if_pos none]
          rfl
      · cases fails

theorem loopCalls_alive (fuel : Nat) :
    ∀ (r : Ring) (b : Nat) (data : List UInt8), r.Alive →
      ∀ s c, (s, c) ∈ loopCalls host fuel r b data → s.Alive := by
  induction fuel with
  | zero =>
      intro r b data _ s c member
      cases data <;> cases member
  | succ fuel ih =>
      intro r b data alive s c member
      cases data with
      | nil => cases member
      | cons x rest =>
          have stored : ∀ given, (r.stored b given).Alive := fun given =>
            ⟨alive.sized, alive.allocated, alive.grows⟩
          rcases List.mem_cons.mp member with here | later
          · obtain ⟨rfl, rfl⟩ := Prod.mk.inj here
            exact stored _
          · exact ih _ _ _ (getNextBlock_alive host (stored _) b) s c later

/-! ## Expansions that succeed -/

/-- The system as it would be if every allocation found memory for one block. -/
def Host.mended (host : Host) : Host :=
  { host with freeram := fun call size => max (host.freeram call size) (size + 1) }

theorem Host.mended_fits (host : Host) : host.mended.Fits := fun _ _ =>
  Nat.lt_of_lt_of_le (Nat.lt_succ_self _) (Nat.le_max_right _ _)

theorem getNextBlock_mended {b : Nat} (room : ¬r.NoRoom host b) :
    getNextBlock host.mended r b = getNextBlock host r b := by
  by_cases empty : r.mem.bytes (r.mem.next b) = 0
  · simp only [getNextBlock, if_pos empty]
  · refine getNextBlock_congr b (Nat.max_eq_left ?_)
    have enough : ¬host.freeram r.allocs r.blockSize ≤ r.blockSize := fun scarce =>
      room ⟨empty, scarce⟩
    omega

/-- One pass of the write loop. -/
theorem bufWriteLoop_pass (host : Host) (fuel : Nat) (r : Ring) (b : Nat) (x : UInt8)
    (rest : List UInt8) :
    let n := if (x :: rest).length < r.mem.size b then (x :: rest).length else r.mem.size b
    let next := getNextBlock host (r.stored b ((x :: rest).take n)) b
    bufWriteLoop host (fuel + 1) r b (x :: rest) =
      bufWriteLoop host fuel next.1 next.2.1 ((x :: rest).drop n) := by
  intro n next
  have within : n ≤ (x :: rest).length := by
    simp only [n]
    split <;> omega
  simp only [next, Ring.stored, List.length_take_of_le within]
  rfl

/-- A write none of whose expansions fails does what it does when memory never runs out. -/
theorem bufWriteLoop_mended (fuel : Nat) :
    ∀ (r : Ring) (b : Nat) (data : List UInt8),
      (∀ s c, (s, c) ∈ loopCalls host fuel r b data → ¬s.NoRoom host c) →
      bufWriteLoop host.mended fuel r b data = bufWriteLoop host fuel r b data := by
  induction fuel with
  | zero =>
      intro r b data _
      cases data <;> rfl
  | succ fuel ih =>
      intro r b data room
      cases data with
      | nil => rfl
      | cons x rest =>
          have first := getNextBlock_mended (room _ b (List.mem_cons_self ..))
          rw [bufWriteLoop_pass, bufWriteLoop_pass, first]
          exact ih _ _ _ fun s c member => room s c (List.mem_cons_of_mem _ member)

/-- **A write none of whose expansions fails adds the bytes that it reports.** -/
theorem bufWriteReady_appends {q data : List UInt8} (holds : r.Holds q)
    (isReady : r.state = .ready)
    (room : ∀ s c, (s, c) ∈ r.writeCalls host data → ¬s.NoRoom host c) :
    ∃ r' status count, bufWriteReady host r data = some (r', status, count) ∧
      status ≠ .error ∧ r'.Holds (q ++ data.take count) ∧ r'.state = .ready := by
  by_cases low : r.lowWaterMark = 0
  · have calls : r.writeCalls host data = loopCalls host data.length r r.wp data := by
      simp [Ring.writeCalls, low]
    rw [calls] at room
    obtain ⟨full, free, shape, rfl⟩ := holds
    obtain ⟨m, size, realloc, allocs, wp, full', free', loop, spare, body, stored⟩ :=
      bufWriteLoop_spec host.mended_fits (Nat.le_refl data.length) shape.body shape.spare
        (shape.ready isReady)
    rw [bufWriteLoop_mended _ _ _ _ room] at loop
    let r₁ : Ring :=
      { r.grown m size realloc allocs with bytes := r.bytes + data.length, wp := wp }
    have holds₁ : r₁.Holds (contents r.mem full ++ data) := by
      refine ⟨full', free', ⟨⟨body.layout, body.stored, body.capacity, body.grows⟩, spare, ?_,
        shape.ready, ?_⟩, stored⟩
      · show r.bytes + data.length = (contents m full').length
        rw [stored, List.length_append, shape.count]
      · intro notReady
        cases isReady.symm.trans notReady
    refine ⟨finishWrite host (r.grown m size realloc allocs) wp data.length, .success,
      data.length, ?_, by decide, ?_, ?_⟩
    · simp [bufWriteReady, low, loop]
    · rw [List.take_length]
      simp only [finishWrite]
      split
      · exact holds₁.configure r.ioRead r.ioWrite r.flush r.blockAlign r.highWaterMark _ _
          r.minReturnSize allocs
      · exact holds₁
    · simp only [finishWrite]
      split
      · exact isReady
      · exact isReady
  · refine ⟨lowWaterMarkHit r, .nodata, 0, by simp [bufWriteReady, low], by decide, ?_, ?_⟩
    · rw [List.take_zero, List.append_nil, lowWaterMarkHit]
      split
      · exact holds.configure r.ioRead r.ioWrite r.flush r.blockAlign r.highWaterMark
          r.highWaterCount 0 r.minReturnSize r.allocs
      · exact holds
    · rw [lowWaterMarkHit]
      split
      · exact isReady
      · exact isReady

end Expansions

/-! ## Calls on a ring whose expansions have not failed -/

section Usable

variable {host : Host} {r r' : Ring} {q data : List UInt8}

/-- The blocks of the ring have no data yet, or it is initialised and stores some bytes in order. -/
def Ring.Usable (r : Ring) : Prop := r.Fresh ∨ r.state = .ready ∧ ∃ q, r.Holds q

theorem length_contents {m : Mem UInt8} {blocks : List Nat}
    (stored : ∀ x ∈ blocks, m.bytes x ≤ (m.data x).length) :
    (contents m blocks).length = (blocks.map m.bytes).sum := by
  induction blocks with
  | nil => rfl
  | cons x blocks ih =>
      rw [contents_cons, List.length_append, List.map_cons, List.sum_cons,
        List.length_take_of_le (stored x (List.mem_cons_self ..)),
        ih fun y member => stored y (List.mem_cons_of_mem _ member)]

theorem Ring.Holds.bytes_eq_sum (holds : r.Holds q) :
    r.bytes = (r.blocks.map r.mem.bytes).sum := by
  rw [holds.bytes_eq, ← holds.content_eq, Ring.content]
  obtain ⟨full, free, shape, -⟩ := holds
  rw [shape.blocks_eq]
  refine length_contents fun x member => ?_
  rcases List.mem_append.mp member with inFull | inFree
  · exact shape.body.stored x inFull
  · rw [shape.body.layout.empty x inFree]
    exact Nat.zero_le _

theorem Ring.Fresh.content_eq (fresh : r.Fresh) : r.content = [] := fresh.2.content_eq

/-- The first write initialises a fresh ring, or leaves it fresh. -/
theorem Ring.Fresh.ringDataInit (host : Host) (fresh : r.Fresh) (n : Nat) :
    (∃ r', ringDataInit host r n = (r', true) ∧ r'.Fresh) ∨
      ∃ r', ringDataInit host r n = (r', false) ∧ r'.state = .ready ∧ r'.Holds [] := by
  cases init : rbDataInit host r n with
  | mk r₁ status =>
      obtain ⟨-, ⟨rfl, fresh₁⟩ | ⟨rfl, given⟩⟩ := fresh.init init
      · exact .inl ⟨r₁, by simp [Buffer.ringDataInit, init, IoStatus.isError], fresh₁⟩
      · exact .inr ⟨_, by simp [Buffer.ringDataInit, init, IoStatus.isError], rfl, given.2⟩

/-- The ring in which a write begins to store. -/
theorem Ring.Usable.readyFor (usable : r.Usable) {n : Nat} {r₁ : Ring}
    (found : r.readyFor host n = some r₁) :
    r₁.state = .ready ∧ r₁.Holds r.content := by
  rcases usable with fresh | ⟨isReady, q, holds⟩
  · simp only [Ring.readyFor, fresh.1] at found
    rcases fresh.ringDataInit host n with ⟨r₂, init, -⟩ | ⟨r₂, init, isReady, holds⟩
    · rw [init] at found
      cases found
    · rw [init] at found
      cases found
      rw [fresh.content_eq]
      exact ⟨isReady, holds⟩
  · simp only [Ring.readyFor, isReady] at found
    cases found
    rw [holds.content_eq]
    exact ⟨isReady, holds⟩

/-- A write that cannot begin to store leaves the ring fresh. -/
theorem Ring.Usable.initFails (usable : r.Usable) {n : Nat}
    (missing : r.readyFor host n = none) : (Buffer.ringDataInit host r n).1.Fresh := by
  rcases usable with fresh | ⟨isReady, -⟩
  · simp only [Ring.readyFor, fresh.1] at missing
    rcases fresh.ringDataInit host n with ⟨r₁, init, fresh₁⟩ | ⟨r₁, init, -⟩
    · rw [init]
      exact fresh₁
    · rw [init] at missing
      cases missing
  · simp [Ring.readyFor, isReady] at missing

theorem bufWrite_eq (host : Host) (r : Ring) (data : List UInt8) :
    bufWrite host r data =
      match r.readyFor host data.length with
      | some r₁ => bufWriteReady host r₁ data
      | none => some ((ringDataInit host r data.length).1, .error, data.length) := by
  unfold bufWrite Ring.readyFor
  cases r.state with
  | ready => rfl
  | noinit =>
      rcases ringDataInit host r data.length with ⟨r₁, _ | _⟩
      · rfl
      · rfl

/-- A write without a copy, of bytes that fit the block, is a write. -/
theorem zeroCopyWrite_eq (host : Host) (initBytes : Nat) (isReady : r.state = .ready)
    (nonempty : data ≠ []) :
    zeroCopyWrite host r initBytes data =
      if r.lowWaterMark = 0 ∧ r.mem.size r.wp < data.length then none
      else (bufWriteReady host r data).map fun (r', status, count) =>
        (r', .wrote status count) := by
  by_cases low : r.lowWaterMark = 0
  · by_cases short : data.length ≤ r.mem.size r.wp
    · have written : bufWriteReady host r data =
          some (writeBlock host r r.wp data, .success, data.length) := by
        have whole : bufWrite host r data = _ := bufWrite_ready isReady low nonempty short
        simpa only [bufWrite, isReady] using whole
      rw [if_neg fun long => absurd short (by omega), zeroCopyWrite_ready isReady low short,
        written]
      rfl
    · simp [zeroCopyWrite, rbAcquireWriteBlock, isReady, low, short, Nat.lt_of_not_le short]
  · simp [zeroCopyWrite, rbAcquireWriteBlock, isReady, low, bufWriteReady]

theorem zeroCopyWrite_init (host : Host) (r : Ring) (initBytes : Nat) (data : List UInt8) :
    let n := if initBytes > 0 then initBytes else defaultBufBytes
    (∀ r₁, r.readyFor host n = some r₁ → r₁.state = .ready →
      zeroCopyWrite host r initBytes data = zeroCopyWrite host r₁ initBytes data) ∧
    (r.readyFor host n = none →
      zeroCopyWrite host r initBytes data = some ((ringDataInit host r n).1, .wrote .error 0)) := by
  intro n
  unfold Ring.readyFor
  cases state : r.state with
  | ready =>
      refine ⟨fun r₁ found _ => ?_, fun missing => by cases missing⟩
      cases found
      rfl
  | noinit =>
      cases init : ringDataInit host r n with
      | mk r₁ failed =>
          cases failed with
          | true =>
              refine ⟨fun r₂ found _ => absurd found (by simp), fun _ => ?_⟩
              simp only [zeroCopyWrite, rbAcquireWriteBlock, state, n] at init ⊢
              rw [init]
          | false =>
              refine ⟨fun r₂ found isReady => ?_, fun missing => by cases missing⟩
              cases found
              simp only [zeroCopyWrite, rbAcquireWriteBlock, state, isReady, n] at init ⊢
              rw [init]

/-- One block takes all bytes, so there is one call of `get_next_block`. -/
theorem loopCalls_block (host : Host) {b : Nat} (nonempty : data ≠ [])
    (short : data.length ≤ r.mem.size b) :
    loopCalls host data.length r b data = [(r.stored b data, b)] := by
  obtain ⟨x, rest, rfl⟩ := List.exists_cons_of_ne_nil nonempty
  have whole : (if (x :: rest).length < r.mem.size b then (x :: rest).length
      else r.mem.size b) = (x :: rest).length := by
    split <;> omega
  have done : ∀ (fuel : Nat) (r : Ring) (b : Nat), loopCalls host fuel r b [] = [] := by
    intro fuel r b
    cases fuel <;> rfl
  show loopCalls host (rest.length + 1) r b (x :: rest) = _
  simp only [loopCalls, whole, List.take_length, List.drop_length, done]

theorem releaseCalls_eq (host : Host) (r : Ring) (nonempty : data ≠ [])
    (short : ¬(r.lowWaterMark = 0 ∧ r.mem.size r.wp < data.length)) :
    r.releaseCalls data = r.writeCalls host data := by
  by_cases low : r.lowWaterMark = 0
  · have fits : data.length ≤ r.mem.size r.wp := by
      by_contra long
      exact short ⟨low, Nat.lt_of_not_le long⟩
    simp [Ring.releaseCalls, Ring.writeCalls, low, nonempty, Nat.not_lt.mpr fits,
      loopCalls_block host nonempty fits]
  · simp [Ring.releaseCalls, Ring.writeCalls, low]

/-- The rings with which `get_next_block` is called are alive. -/
theorem nextCalls_alive (usable : r.Usable) (c : RingCall) {s : Ring} {b : Nat}
    (member : (s, b) ∈ r.nextCalls host c) : s.Alive := by
  cases c with
  | write data =>
      simp only [Ring.nextCalls] at member
      split at member
      · cases member
      · next r₁ found =>
          obtain ⟨isReady, holds⟩ := usable.readyFor found
          simp only [Ring.writeCalls] at member
          split at member
          · cases member
          · exact loopCalls_alive _ _ _ _ (holds.alive isReady) s b member
  | zeroCopy initBytes data =>
      simp only [Ring.nextCalls] at member
      split at member
      · cases member
      · next r₁ found =>
          obtain ⟨isReady, holds⟩ := usable.readyFor found
          simp only [Ring.releaseCalls] at member
          split at member
          · cases member
          · obtain ⟨rfl, rfl⟩ : s = r₁.stored r₁.wp data ∧ b = r₁.wp := by simpa using member
            have alive := holds.alive isReady
            exact ⟨alive.sized, alive.allocated, alive.grows⟩
  | _ => cases member

/-- A call that loses nothing has room, since an expansion that fails changes the number of blocks
to ask for. -/
theorem Ring.Usable.room (usable : r.Usable) {c : RingCall} (lossless : r.Lossless host c)
    (s : Ring) (b : Nat) (member : (s, b) ∈ r.nextCalls host c) : ¬s.NoRoom host b := by
  intro noRoom
  have alive := nextCalls_alive usable c member
  have fails := (getNextBlock_fails_iff host alive b).mpr noRoom
  have kept := (lossless.2 s b member fails).blockRealloc
  rw [getNextBlock_doubles fails] at kept
  have grows := alive.grows
  omega

/-- Every write that begins to store, by a copy or not, is one to the initialised ring. -/
theorem Ring.Usable.bufWriteReady (usable : r.Usable) {r₁ : Ring} {n : Nat}
    (found : r.readyFor host n = some r₁)
    (room : ∀ s b, (s, b) ∈ r₁.writeCalls host data → ¬s.NoRoom host b)
    {status : IoStatus} {count : Nat}
    (written : Buffer.bufWriteReady host r₁ data = some (r', status, count)) :
    r'.Usable ∧ Appends r r' (data.take count) := by
  obtain ⟨isReady, holds⟩ := usable.readyFor found
  obtain ⟨r₂, status₂, count₂, outcome, -, holds₂, isReady₂⟩ :=
    bufWriteReady_appends holds isReady room
  cases outcome.symm.trans written
  exact ⟨.inr ⟨isReady₂, _, holds₂⟩, holds₂.content_eq, holds₂.bytes_eq_sum⟩

theorem Ring.Usable.bufWrite (usable : r.Usable)
    (room : ∀ s b, (s, b) ∈ r.nextCalls host (.write data) → ¬s.NoRoom host b)
    {status : IoStatus} {count : Nat}
    (written : Buffer.bufWrite host r data = some (r', status, count)) :
    r'.Usable ∧ (status ≠ .error → Appends r r' (data.take count)) := by
  rw [bufWrite_eq] at written
  simp only [Ring.nextCalls] at room
  cases found : r.readyFor host data.length with
  | none =>
      rw [found] at written
      cases written
      exact ⟨.inl (usable.initFails found), fun valid => absurd rfl valid⟩
  | some r₁ =>
      rw [found] at written room
      obtain ⟨usable', appends⟩ := usable.bufWriteReady found room written
      exact ⟨usable', fun _ => appends⟩

theorem Ring.Usable.zeroCopyWrite (usable : r.Usable) {initBytes : Nat} (nonempty : data ≠ [])
    (room : ∀ s b, (s, b) ∈ r.nextCalls host (.zeroCopy initBytes data) → ¬s.NoRoom host b)
    {status : IoStatus} {count : Nat}
    (written : Buffer.zeroCopyWrite host r initBytes data = some (r', .wrote status count)) :
    r'.Usable ∧ (status ≠ .error → Appends r r' (data.take count)) := by
  obtain ⟨begins, fails⟩ := zeroCopyWrite_init host r initBytes data
  simp only [Ring.nextCalls] at room
  cases found : r.readyFor host (if initBytes > 0 then initBytes else defaultBufBytes) with
  | none =>
      rw [fails found] at written
      cases written
      exact ⟨.inl (usable.initFails found), fun valid => absurd rfl valid⟩
  | some r₁ =>
      have isReady := (usable.readyFor found).1
      rw [begins r₁ found isReady, zeroCopyWrite_eq host initBytes isReady nonempty] at written
      split at written
      · cases written
      · next short =>
          obtain ⟨⟨r₂, status₂, count₂⟩, stored, last⟩ := Option.map_eq_some_iff.mp written
          cases last
          rw [found] at room
          simp only [releaseCalls_eq host r₁ nonempty short] at room
          obtain ⟨usable', appends⟩ := usable.bufWriteReady found room stored
          exact ⟨usable', fun _ => appends⟩

theorem Ring.Usable.bufRead (usable : r.Usable) {request align : Nat} {block : Bool}
    {status : IoStatus} {out : List UInt8}
    (read : Buffer.bufRead r request block align = some (r', status, out)) : r'.Usable := by
  rcases usable with fresh | ⟨isReady, q, holds⟩
  · obtain ⟨read₀, state, -⟩ := bufRead_relabel read r.state 0
    have holds' := (bufRead_cases fresh.2 read₀).1
    rw [List.drop_nil] at holds'
    have same : ({ r' with state := r.state, blockSize := 0 } : Ring) =
        { r' with blockSize := 0 } := by
      rw [← state]
    rw [same] at holds'
    exact .inl ⟨state.trans fresh.1, holds'⟩
  · obtain ⟨-, state, -⟩ := bufRead_relabel read r.state r.blockSize
    exact .inr ⟨state.trans isReady, _, (bufRead_cases holds read).1⟩

/-- The calls that only set a field leave the bytes of the ring alone. -/
theorem Ring.Usable.configure (usable : r.Usable) (ioWrite : IoDescState) (flush : Bool)
    (blockAlign highWaterMark minReturnSize : Nat) :
    Ring.Usable
      { r with
        ioWrite := ioWrite, flush := flush, blockAlign := blockAlign
        highWaterMark := highWaterMark, minReturnSize := minReturnSize } := by
  rcases usable with fresh | ⟨isReady, q, holds⟩
  · exact .inl ⟨fresh.1, fresh.2.configure r.ioRead ioWrite flush blockAlign highWaterMark
      r.highWaterCount r.lowWaterMark minReturnSize r.allocs⟩
  · exact .inr ⟨isReady, q, holds.configure r.ioRead ioWrite flush blockAlign highWaterMark
      r.highWaterCount r.lowWaterMark minReturnSize r.allocs⟩

/-- What a call with room does to a ring: it stays usable, and a write adds the bytes that it
reports. -/
theorem Ring.Usable.exec (usable : r.Usable) {c : RingCall}
    (room : ∀ s b, (s, b) ∈ r.nextCalls host c → ¬s.NoRoom host b)
    {report : Option (IoStatus × Nat)} (executed : r.exec host c = some (r', report)) :
    r'.Usable ∧ ∀ status count, report = some (status, count) → status ≠ .error →
      Appends r r' (c.data.take count) := by
  cases c with
  | write data =>
      obtain ⟨⟨r₂, status, count⟩, written, same⟩ := Option.map_eq_some_iff.mp executed
      cases same
      obtain ⟨usable', appends⟩ := usable.bufWrite room written
      refine ⟨usable', fun status count reported valid => ?_⟩
      cases reported
      exact appends valid
  | zeroCopy initBytes data =>
      simp only [Ring.exec] at executed
      split at executed
      · cases executed
      · next nonempty =>
          obtain ⟨⟨r₂, answer⟩, written, same⟩ := Option.bind_eq_some_iff.mp executed
          cases answer with
          | wrote status count =>
              cases same
              obtain ⟨usable', appends⟩ := usable.zeroCopyWrite nonempty room written
              refine ⟨usable', fun status count reported valid => ?_⟩
              cases reported
              exact appends valid
          | _ => cases same
  | read request block align =>
      obtain ⟨⟨r₂, status, out⟩, read, same⟩ := Option.map_eq_some_iff.mp executed
      cases same
      exact ⟨usable.bufRead read, fun status count reported => by cases reported⟩
  | stop =>
      cases executed
      exact ⟨usable.configure .disabling true r.blockAlign r.highWaterMark r.minReturnSize,
        fun status count reported => by cases reported⟩
  | setMinReturnSize bytes =>
      cases executed
      exact ⟨usable.configure r.ioWrite r.flush r.blockAlign r.highWaterMark bytes,
        fun status count reported => by cases reported⟩
  | setHighWaterMark bytes =>
      cases executed
      exact ⟨usable.configure r.ioWrite r.flush r.blockAlign bytes r.minReturnSize,
        fun status count reported => by cases reported⟩
  | setAlignment align =>
      cases executed
      exact ⟨usable.configure r.ioWrite r.flush align r.highWaterMark r.minReturnSize,
        fun status count reported => by cases reported⟩

theorem losslessRun_iff (calls : List RingCall) (usable : r.Usable) :
    r.LosslessRun host calls ↔ r.RoomRun host calls := by
  induction calls generalizing r with
  | nil => exact Iff.rfl
  | cons c calls ih =>
      constructor
      · rintro ⟨lossless, later⟩
        have room := usable.room lossless
        refine ⟨room, fun r' report executed => ?_⟩
        exact (ih (usable.exec room executed).1).mp (later r' report executed)
      · rintro ⟨room, later⟩
        refine ⟨⟨?_, ?_⟩, fun r' report executed => ?_⟩
        · intro r' status count executed valid
          exact (usable.exec room executed).2 status count rfl valid
        · intro s b member fails
          have alive := nextCalls_alive usable c member
          exact absurd ((getNextBlock_fails_iff host alive b).mp fails) (room s b member)
        · exact (ih (usable.exec room executed).1).mpr (later r' report executed)

theorem createBuffer_usable : createBuffer.Usable := by
  obtain ⟨free, shape⟩ := createBuffer_shape
  exact .inl ⟨rfl, [], free, shape, rfl⟩

end Usable

/-- **When expansions lose nothing.** In a sequence of calls on a new ring, with any answers of the
system about its memory, every write adds exactly the bytes it reports to the content of the ring,
the count stays the number of bytes in the blocks, and every call of `get_next_block` that fails
leaves links, sizes and `block_realloc` as they were, if and only if no expansion fails: whenever
`get_next_block` finds data in the next block there is memory for a new one. -/
theorem expansions_lossless_iff (host : Host) (calls : List RingCall) :
    createBuffer.LosslessRun host calls ↔ createBuffer.RoomRun host calls :=
  losslessRun_iff calls createBuffer_usable

/-- A system with memory for one block of data. -/
def scarceHost : Host where
  freeram := fun call size => if call = 0 then 2 * size else 0
  lowWater := fun _ mark => mark

theorem Ring.LosslessRun.reaches {host : Host} {r r' : Ring} {before after : List RingCall}
    (lossless : r.LosslessRun host (before ++ after)) (ran : r.execAll host before = some r') :
    r'.LosslessRun host after := by
  induction before generalizing r with
  | nil =>
      obtain rfl : r = r' := by simpa [Ring.execAll] using ran
      exact lossless
  | cons c before ih =>
      obtain ⟨⟨r₁, report⟩, executed, ran⟩ := Option.bind_eq_some_iff.mp ran
      exact ih (lossless.2 r₁ report executed) ran

/-- A ring of one block that is full. -/
def fullBlock : List RingCall := [.setAlignment 1, .write [1]]

/-- The next write reports one byte more, and has overwritten the first. -/
theorem failed_expansion_overwrites :
    ¬createBuffer.LosslessRun scarceHost (fullBlock ++ [.write [2]]) ∧
      (createBuffer.execAll scarceHost (fullBlock ++ [.write [2]])).map
        (fun r => (r.content, r.bytes)) = some ([2], 2) := by
  refine ⟨fun lossless => ?_, by decide +kernel⟩
  have run : (createBuffer.execAll scarceHost fullBlock).bind (fun r =>
      (r.exec scarceHost (.write [2])).map fun (r', report) =>
        (r.content, r'.content, report)) = some ([1], [2], some (.success, 1)) := by
    decide +kernel
  obtain ⟨r, ran, written⟩ := Option.bind_eq_some_iff.mp run
  obtain ⟨⟨r', report⟩, executed, observed⟩ := Option.map_eq_some_iff.mp written
  simp only [Prod.mk.injEq] at observed
  obtain ⟨before, after, rfl⟩ := observed
  have appends := ((lossless.reaches ran).1.1 r' .success 1 executed (by decide)).1
  rw [before, after] at appends
  exact absurd appends (by decide)

end Bingewatch.Buffer
