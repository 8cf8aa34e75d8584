import Bingewatch.Buffer.RingQueue

/-!
# Writing to a ring without a copy

`rb_acquire_write_block` hands the block at the write position to the caller, who stores up to a
block of bytes in it, and `rb_release_write_block` counts them and moves the write position on. A
source segment that writes to a ring buffer reads from its source in this way.

With at least one byte this is `buf_write` of these bytes, in every state of the ring. With no byte
`buf_write` does nothing, but the release moves the write position past a block that holds nothing:
the reader stops at that block, and what is written later is out of its reach. Only on a ring of one
block does an empty release do nothing (`zero_copy_agrees_iff`).
-/

set_option autoImplicit false

namespace Bingewatch.Buffer

open Foundation Machine

/-! ## The calls -/

/-- `DEFAULT_BUF_BYTES`. -/
def defaultBufBytes : Nat := 100 * 1048576

/-- `rb_acquire_write_block`: the block at the write position, if the ring takes data. -/
def rbAcquireWriteBlock (host : Host) (r : Ring) (initBytes : Nat) : Ring × IoStatus × Option Nat :=
  let acquire (r : Ring) : Ring × IoStatus × Option Nat :=
    if r.lowWaterMark ≠ 0 then (lowWaterMarkHit r, .nodata, none) else (r, .success, some r.wp)
  match r.state with
  | .ready => acquire r
  | .noinit =>
      match ringDataInit host r (if initBytes > 0 then initBytes else defaultBufBytes) with
      | (r, true) => (r, .error, none)
      | (r, false) => acquire r

/-- `rb_release_write_block`. The result of `get_next_block` is ignored. -/
def rbReleaseWriteBlock (host : Host) (r : Ring) (bytes : Nat) : Ring :=
  let b := r.wp
  let r := { r with mem := r.mem.modify b (setBytes bytes) }
  let (r, b, _) := getNextBlock host r b
  finishWrite host r b bytes

/-- A write without a copy: acquire, store, release. The caller stores no more than the block
holds. -/
def zeroCopyWrite (host : Host) (r : Ring) (initBytes : Nat) (data : List UInt8) :
    Option (Ring × Answer) :=
  match rbAcquireWriteBlock host r initBytes with
  | (r, status, none) => some (r, .wrote status 0)
  | (r, status, some b) =>
      if data.length ≤ r.mem.size b then
        let r := { r with mem := r.mem.modify b (storeData data) }
        some (rbReleaseWriteBlock host r data.length, .wrote status data.length)
      else none

/-- A call on a ring buffer, by its filters or without a copy. -/
inductive Op where
  | write (data : List UInt8)
  | read (request : Nat)
  | stop
  | zeroCopy (initBytes : Nat) (data : List UInt8)
  deriving DecidableEq, Repr

/-- What a call does. -/
def Ring.op (host : Host) (r : Ring) : Op → Option (Ring × Answer)
  | .write data => (bufWrite host r data).map fun (r, status, n) => (r, .wrote status n)
  | .read request => (bufRead r request false 1).map fun (r, status, out) => (r, .got status out)
  | .stop => some (stopBuffer r, .stopped)
  | .zeroCopy initBytes data => zeroCopyWrite host r initBytes data

/-- What the callers see of a sequence of calls: each answer, and `rb_get_bytes` after it. -/
def Ring.observe (host : Host) : Ring → List Op → Option (List (Answer × Nat))
  | _, [] => some []
  | r, op :: ops =>
      (r.op host op).bind fun (r', answer) =>
        (Ring.observe host r' ops).map fun rest => (answer, r'.bytes) :: rest

/-- What the callers see after a first call. -/
def Ring.observeAfter (host : Host) (r : Ring) (first : Op) (ops : List Op) :
    Option (List (Answer × Nat)) :=
  (r.op host first).bind fun (r', _) => r'.observe host ops

/-- No later sequence of calls tells the two ways of writing `data` apart. -/
def Agree (host : Host) (r : Ring) (data : List UInt8) : Prop :=
  ∀ (initBytes : Nat) (ops : List Op),
    r.observeAfter host (.write data) ops = r.observeAfter host (.zeroCopy initBytes data) ops

/-- Reached from a new ring without marks by calls, none of which is an empty release. -/
inductive Reached (host : Host) : Ring → Prop where
  | new {align : Nat} (aligned : 0 < align) : Reached host { createBuffer with blockAlign := align }
  | call {r r' : Ring} {op : Op} {answer : Answer} (before : Reached host r)
      (some : ∀ initBytes, op ≠ .zeroCopy initBytes [])
      (result : r.op host op = .some (r', answer)) : Reached host r'

/-! ## One byte or more -/

/-- The ring after the block `b` was given `data`: both ways of writing end so. -/
def writeBlock (host : Host) (r : Ring) (b : Nat) (data : List UInt8) : Ring :=
  let r := { r with mem := (r.mem.modify b (storeData data)).modify b (setBytes data.length) }
  let (r, b, _) := getNextBlock host r b
  finishWrite host r b data.length

theorem zeroCopyWrite_ready {host : Host} {r : Ring} {initBytes : Nat} {data : List UInt8}
    (ready : r.state = .ready) (noLow : r.lowWaterMark = 0)
    (short : data.length ≤ r.mem.size r.wp) :
    zeroCopyWrite host r initBytes data =
      some (writeBlock host r r.wp data, .wrote .success data.length) := by
  simp [zeroCopyWrite, rbAcquireWriteBlock, ready, noLow, short, rbReleaseWriteBlock, writeBlock]

/-- The write loop on bytes that fit the block: one pass. -/
theorem bufWriteLoop_block {host : Host} {r : Ring} {b : Nat} {data : List UInt8} (some : data ≠ [])
    (short : data.length ≤ r.mem.size b) :
    bufWriteLoop host data.length r b data =
      let next := getNextBlock host
        { r with mem := (r.mem.modify b (storeData data)).modify b (setBytes data.length) } b
      .some (next.1, next.2.1) := by
  obtain ⟨x, rest, rfl⟩ := List.exists_cons_of_ne_nil some
  have whole : (if (x :: rest).length < r.mem.size b then (x :: rest).length
      else r.mem.size b) = (x :: rest).length := by
    split <;> omega
  have done : ∀ (fuel : Nat) (r : Ring) (b : Nat),
      bufWriteLoop host fuel r b [] = .some (r, b) := by
    intro fuel r b
    cases fuel <;> rfl
  show bufWriteLoop host (rest.length + 1) r b (x :: rest) = _
  simp only [bufWriteLoop, whole, List.take_length, List.drop_length, done]

theorem bufWrite_ready {host : Host} {r : Ring} {data : List UInt8} (ready : r.state = .ready)
    (noLow : r.lowWaterMark = 0) (some : data ≠ []) (short : data.length ≤ r.mem.size r.wp) :
    bufWrite host r data = .some (writeBlock host r r.wp data, .success, data.length) := by
  simp [bufWrite, ready, bufWriteReady, noLow, bufWriteLoop_block some short, writeBlock]

theorem finishWrite_nothing {host : Host} {r : Ring} (noHigh : r.highWaterMark = 0) :
    finishWrite host r r.wp 0 = r := by
  have low : ¬ (r.highWaterMark ≠ 0 ∧ r.bytes + 0 ≥ r.highWaterMark) := fun high => high.1 noHigh
  simp only [finishWrite]
  rw [if_neg low]
  rfl

/-- An empty write changes nothing. -/
theorem bufWrite_nothing {host : Host} {r : Ring} (ready : r.state = .ready)
    (noLow : r.lowWaterMark = 0) (noHigh : r.highWaterMark = 0) :
    bufWrite host r [] = some (r, .success, 0) := by
  have taken : bufWriteReady host r [] = some (r, .success, 0) := by
    have free : ¬ r.lowWaterMark ≠ 0 := fun low => low noLow
    rw [bufWriteReady, if_neg free]
    show some (finishWrite host r r.wp 0, IoStatus.success, 0) = _
    rw [finishWrite_nothing noHigh]
  unfold bufWrite
  split
  · exact taken
  · next noinit => cases ready.symm.trans noinit

/-- Storing nothing in an empty block changes nothing. -/
theorem store_nothing {m : Mem UInt8} {b : Nat} (empty : m.bytes b = 0) :
    (m.modify b (storeData [])).modify b (setBytes 0) = m := by
  have here : setBytes 0 (storeData [] (m.block b)) = m.block b := by
    rw [Mem.bytes] at empty
    generalize m.block b = block at empty
    cases block
    simp_all [setBytes, storeData]
  have block : ∀ x, ((m.modify b (storeData [])).modify b (setBytes 0)).block x = m.block x := by
    intro x
    by_cases same : x = b
    · subst same
      rw [Mem.modify_block_self, Mem.modify_block_self, here]
    · rw [Mem.modify_block_of_ne _ _ same, Mem.modify_block_of_ne _ _ same]
  exact congrArg (fun block => ({ block := block, brk := m.brk } : Mem UInt8)) (funext block)

/-- An empty release only looks for the next block. -/
theorem writeBlock_nothing {host : Host} {r : Ring} (empty : r.mem.bytes r.wp = 0) :
    writeBlock host r r.wp [] =
      finishWrite host (getNextBlock host r r.wp).1 (getNextBlock host r r.wp).2.1 0 := by
  simp only [writeBlock, List.length_nil, store_nothing empty]

/-- An empty release on a ring of one empty block changes nothing. -/
theorem writeBlock_single {host : Host} {r : Ring} (noHigh : r.highWaterMark = 0)
    (single : r.mem.next r.wp = r.wp) (empty : r.mem.bytes r.wp = 0) :
    writeBlock host r r.wp [] = r := by
  simp only [writeBlock_nothing empty, getNextBlock, single, empty, if_true]
  exact finishWrite_nothing noHigh

/-- **With a byte to write, or on a ring of one block, the two ways agree**, in every state of the
ring. -/
theorem agree_of_some {host : Host} {r : Ring} {data : List UInt8} (ready : r.state = .ready)
    (noLow : r.lowWaterMark = 0) (noHigh : r.highWaterMark = 0)
    (short : data.length ≤ r.mem.size r.wp)
    (condition : data ≠ [] ∨ (r.mem.next r.wp = r.wp ∧ r.mem.bytes r.wp = 0)) :
    Agree host r data := by
  intro initBytes ops
  by_cases some : data = []
  · subst some
    obtain ⟨single, empty⟩ := condition.resolve_left fun absent => absent rfl
    simp only [Ring.observeAfter, Ring.op, bufWrite_nothing ready noLow noHigh,
      zeroCopyWrite_ready ready noLow short, writeBlock_single noHigh single empty,
      Option.map_some, Option.bind_some]
  · simp only [Ring.observeAfter, Ring.op, bufWrite_ready ready noLow some short,
      zeroCopyWrite_ready ready noLow short, Option.map_some, Option.bind_some]

/-! ## The rings reached -/

/-- A ring without marks that stores some bytes in order. -/
structure Ring.Sound (r : Ring) : Prop where
  holds : ∃ q, r.Holds q
  aligned : 0 < r.blockAlign
  noHigh : r.highWaterMark = 0
  noLow : r.lowWaterMark = 0
  unlimited : r.minReturnSize = 0

theorem Ring.Sound.keep {r r' : Ring} (sound : r.Sound) (keeps : r.Keeps r')
    (holds : ∃ q, r'.Holds q) : r'.Sound where
  holds := holds
  aligned := keeps.blockAlign ▸ sound.aligned
  noHigh := keeps.highWaterMark.trans sound.noHigh
  noLow := keeps.lowWaterMark.trans sound.noLow
  unlimited := keeps.minReturnSize.trans sound.unlimited

variable {host : Host}

/-- An empty first write fails and leaves the ring as it was: without data. -/
theorem bufWrite_empty_first (fits : host.Fits) {r : Ring} (sound : r.Sound)
    (noinit : r.state = .noinit) :
    ∃ r', bufWrite host r [] = some (r', .error, 0) ∧ r.Keeps r' ∧ r'.Holds [] := by
  obtain ⟨q, full, free, shape, _⟩ := sound.holds
  obtain ⟨rfl, zero⟩ := shape.fresh noinit
  have layout := shape.body.layout
  have positions : r.rp = r.wp := layout.rp_eq_wp
  rw [positions, zero] at layout
  have none : alignedSize 0 r.blockAlign = 0 := by simp [alignedSize]
  obtain ⟨m, free', spare, given, result⟩ := rbDataInit_layout fits 0 layout shape.spare
    sound.aligned
  rw [none, if_pos rfl] at result
  rw [none] at given
  let r' : Ring :=
    { r with
      mem := m
      blockSize := 0
      size := r.size + free'.length * 0
      allocs := r.allocs + 1 }
  have init : ringDataInit host r 0 = (r', true) := by
    rw [ringDataInit, result]
    rfl
  have write : bufWrite host r [] = some (r', .error, 0) := by
    unfold bufWrite
    split
    · next ready => cases noinit.symm.trans ready
    · simp only [List.length_nil, init]
  refine ⟨r', write, ⟨rfl, rfl, rfl, rfl, rfl, rfl, rfl⟩, [], free',
    ⟨⟨?_, List.forall_mem_nil _, ?_, shape.body.grows⟩, spare, shape.count, ?_,
      fun _ => ⟨rfl, rfl⟩⟩, rfl⟩
  · show Layout m 0 r.rp r.wp [] free'
    rw [positions]
    exact given
  · show r.size + free'.length * 0 = ([] ++ free').length * 0
    rw [shape.body.capacity, zero]
    simp
  · intro ready
    cases noinit.symm.trans ready

theorem sound_write (fits : host.Fits) {r r' : Ring} {data : List UInt8} {result : IoStatus × Nat}
    (sound : r.Sound) (write : bufWrite host r data = some (r', result)) : r'.Sound := by
  obtain ⟨q, holds⟩ := sound.holds
  by_cases first : r.state = .noinit ∧ data = []
  · obtain ⟨noinit, rfl⟩ := first
    obtain ⟨_, failed, keeps, empty⟩ := bufWrite_empty_first fits sound noinit
    cases failed.symm.trans write
    exact sound.keep keeps ⟨[], empty⟩
  · have some : r.state = .noinit → data ≠ [] := fun noinit empty => first ⟨noinit, empty⟩
    obtain ⟨_, wrote, more, _, keeps⟩ := bufWrite_spec fits holds some sound.aligned sound.noLow
      sound.noHigh
    cases wrote.symm.trans write
    exact sound.keep keeps ⟨_, more⟩

theorem sound_read {r r' : Ring} {request : Nat} {result : IoStatus × List UInt8} (sound : r.Sound)
    (read : bufRead r request false 1 = some (r', result)) : r'.Sound := by
  obtain ⟨q, holds⟩ := sound.holds
  obtain ⟨r₁, rest, _, keeps, outcome⟩ := bufRead_spec holds request sound.unlimited
  rw [outcome] at read
  split at read
  · cases read
    exact ⟨⟨_, rest.sides .disabling r₁.ioWrite r₁.flush⟩, (sound.keep keeps ⟨_, rest⟩).aligned,
      (sound.keep keeps ⟨_, rest⟩).noHigh, (sound.keep keeps ⟨_, rest⟩).noLow,
      (sound.keep keeps ⟨_, rest⟩).unlimited⟩
  · cases read
    exact sound.keep keeps ⟨_, rest⟩

/-- The ring from which a block is acquired is ready and sound. -/
theorem sound_acquire (fits : host.Fits) {r r' : Ring} {initBytes : Nat} {status : IoStatus}
    {block : Option Nat} (sound : r.Sound)
    (acquired : rbAcquireWriteBlock host r initBytes = (r', status, block)) :
    r'.Sound ∧ r'.state = .ready ∧ block = some r'.wp := by
  have acquire : ∀ r₁ : Ring, r₁.Sound → r₁.state = .ready →
      (if r₁.lowWaterMark ≠ 0 then (lowWaterMarkHit r₁, IoStatus.nodata, (none : Option Nat))
        else (r₁, IoStatus.success, some r₁.wp)) = (r', status, block) →
      r'.Sound ∧ r'.state = .ready ∧ block = some r'.wp := by
    intro r₁ sound₁ ready outcome
    rw [if_neg fun low => low sound₁.noLow] at outcome
    cases outcome
    exact ⟨sound₁, ready, rfl⟩
  obtain ⟨q, full, free, shape, _⟩ := sound.holds
  unfold rbAcquireWriteBlock at acquired
  dsimp only at acquired
  split at acquired
  · next ready => exact acquire r sound ready acquired
  · next noinit =>
      have some : 0 < if initBytes > 0 then initBytes else defaultBufBytes := by
        split
        · assumption
        · decide
      obtain ⟨rfl, _⟩ := shape.fresh noinit
      obtain ⟨r₁, free₁, init, shape₁, ready, keeps, _⟩ := ringDataInit_spec fits shape noinit some
        sound.aligned
      rw [init] at acquired
      exact acquire r₁ (sound.keep keeps ⟨_, [], free₁, shape₁, rfl⟩) ready acquired

theorem sound_zeroCopy (fits : host.Fits) {r r' : Ring} {initBytes : Nat} {data : List UInt8}
    {answer : Answer} (sound : r.Sound) (some : data ≠ [])
    (write : zeroCopyWrite host r initBytes data = .some (r', answer)) : r'.Sound := by
  unfold zeroCopyWrite at write
  split at write
  · next acquired =>
      obtain ⟨_, _, none⟩ := sound_acquire fits sound acquired
      cases none
  · next r₁ status b acquired =>
      obtain ⟨sound₁, ready, block⟩ := sound_acquire fits sound acquired
      obtain rfl : b = r₁.wp := Option.some.inj block
      split at write
      · next short =>
          cases write
          exact sound_write fits sound₁ (bufWrite_ready ready sound₁.noLow some short)
      · cases write

/-- Calls other than an empty release keep the bytes in order. -/
theorem sound_reached (fits : host.Fits) {r : Ring} (reached : Reached host r) : r.Sound := by
  induction reached with
  | new aligned =>
      obtain ⟨free, ⟨body, spare, count, ready, fresh⟩⟩ := createBuffer_shape
      exact ⟨⟨[], [], free, ⟨⟨body.layout, body.stored, body.capacity, body.grows⟩, spare, count,
        ready, fresh⟩, rfl⟩, aligned, rfl, rfl, rfl⟩
  | @call r r' op answer _ some result sound =>
      cases op with
      | write data =>
          obtain ⟨outcome, write, last⟩ := Option.map_eq_some_iff.mp result
          cases last
          exact sound_write fits sound write
      | read request =>
          obtain ⟨outcome, read, last⟩ := Option.map_eq_some_iff.mp result
          cases last
          exact sound_read sound read
      | stop =>
          cases result
          obtain ⟨q, holds⟩ := sound.holds
          exact ⟨⟨q, holds.sides r.ioRead .disabling true⟩, sound.aligned, sound.noHigh,
            sound.noLow, sound.unlimited⟩
      | zeroCopy initBytes data =>
          refine sound_zeroCopy fits sound ?_ result
          rintro rfl
          exact some initBytes rfl

/-! ## No byte -/

/-- **`get_next_block` in any state of a ring.** It steps to the next block or to a new one, and of
the older blocks it changes the link of `b` only. -/
theorem getNextBlock_frame (fits : host.Fits) {r : Ring} {b : Nat} (sized : 0 < r.blockSize)
    (grows : 0 < r.blockRealloc) (old : b < r.mem.brk) :
    ∃ (m : Mem UInt8) (size realloc allocs next : Nat),
      getNextBlock host r b = (r.grown m size realloc allocs, next, false) ∧
      r.mem.brk ≤ m.brk ∧ (∀ x, x < r.mem.brk → x ≠ b → m.block x = r.mem.block x) ∧
      m.bytes b = r.mem.bytes b ∧ 0 < realloc ∧
      (next = r.mem.next b ∧ r.mem.bytes next = 0 ∧ m = r.mem ∨
        r.mem.brk ≤ next ∧ next < m.brk ∧ m.size next = r.blockSize) := by
  by_cases empty : r.mem.bytes (r.mem.next b) = 0
  · refine ⟨r.mem, r.size, r.blockRealloc, r.allocs, r.mem.next b, ?_, Nat.le_refl _,
      fun _ _ _ => rfl, rfl, grows, Or.inl ⟨rfl, empty, rfl⟩⟩
    simp [getNextBlock, empty, Ring.grown]
  · have more : 0 < r.blockRealloc * 2 := Nat.mul_pos grows Nat.two_pos
    obtain ⟨m, head, added, nonempty, fresh, alloc⟩ := allocBlocks_fresh (r := r.doubleRealloc)
      (fits _ _) more (Nat.lt_of_le_of_lt (Nat.zero_le b) old) sized
    obtain ⟨init, tail, rfl⟩ : ∃ init tail, added = init ++ [tail] :=
      ⟨added.dropLast, added.getLast nonempty, (List.dropLast_append_getLast _).symm⟩
    have bounds : ∀ x ∈ init ++ [tail], r.mem.brk ≤ x ∧ x < m.brk := fresh.fresh
    have older : ∀ x, x < r.mem.brk → m.block x = r.mem.block x := fresh.older
    have tailNew := (bounds tail (by simp)).1
    have tailEq : listTail m m.brk head = tail :=
      fresh.listTail_eq (Nat.lt_of_le_of_lt (Nat.zero_le b) old) (fun _ _ => rfl) rfl
    have headMem : head ∈ init ++ [tail] := fresh.chain.start_mem nonempty
    have link : (Layout.spliced m b head tail (r.mem.next b)).next b = head := by
      have differ : b ≠ tail := by omega
      simp [Layout.spliced, Mem.next, Mem.modify_block_of_ne _ _ differ]
    refine ⟨Layout.spliced m b head tail (r.mem.next b),
      r.size + (init ++ [tail]).length * r.blockSize, r.blockRealloc * 2, r.allocs + 1, head, ?_,
      fresh.grows, ?_, ?_, more, Or.inr ⟨(bounds head headMem).1, (bounds head headMem).2, ?_⟩⟩
    · have some : (init ++ [tail]).length * r.blockSize ≠ 0 :=
        Nat.pos_iff_ne_zero.mp (Nat.mul_pos (by simp) sized)
      have reallocEq : r.doubleRealloc.blockRealloc = r.blockRealloc * 2 := rfl
      have sizeEq : r.doubleRealloc.blockSize = r.blockSize := rfl
      simp only [getNextBlock, if_neg empty, reallocEq, alloc, sizeEq, if_neg some, tailEq,
        Ring.link, link]
      rfl
    · intro x below other
      have notTail : x ≠ tail := by omega
      rw [Layout.spliced, Mem.modify_block_of_ne _ _ notTail, Mem.modify_block_of_ne _ _ other]
      exact older x below
    · exact (Layout.spliced_field Block.bytes (fun _ _ => rfl) m b head tail _ b).trans
        (congrArg Block.bytes (older b old))
    · exact (Layout.spliced_field Block.size (fun _ _ => rfl) m b head tail _ head).trans
        (fresh.sizes head headMem)

/-- The ring after a write of one block. -/
theorem writeBlock_frame (fits : host.Fits) {r : Ring} {b : Nat} (data : List UInt8)
    (sized : 0 < r.blockSize) (grows : 0 < r.blockRealloc) (old : b < r.mem.brk)
    (noHigh : r.highWaterMark = 0) :
    ∃ (m : Mem UInt8) (size realloc allocs next : Nat),
      writeBlock host r b data =
        { r.grown m size realloc allocs with bytes := r.bytes + data.length, wp := next } ∧
      r.mem.brk ≤ m.brk ∧ (∀ x, x < r.mem.brk → x ≠ b → m.block x = r.mem.block x) ∧
      m.bytes b = data.length ∧ 0 < realloc ∧
      (next = r.mem.next b ∧ m.bytes next = 0 ∧ (∀ x, m.size x = r.mem.size x) ∨
        r.mem.brk ≤ next ∧ next < m.brk ∧ m.size next = r.blockSize) := by
  let r₀ : Ring :=
    { r with mem := (r.mem.modify b (storeData data)).modify b (setBytes data.length) }
  obtain ⟨m, size, realloc, allocs, next, step, brk, others, bytes, positive, goes⟩ :=
    getNextBlock_frame (r := r₀) fits sized grows old
  have link : r₀.mem.next b = r.mem.next b := by
    simp [r₀, Mem.next, setBytes, storeData]
  refine ⟨m, size, realloc, allocs, next, ?_, brk, ?_, ?_, positive, ?_⟩
  · have low : ¬ (r.highWaterMark ≠ 0 ∧ r.bytes + data.length ≥ r.highWaterMark) :=
      fun high => high.1 noHigh
    show finishWrite host (getNextBlock host r₀ b).1 (getNextBlock host r₀ b).2.1 data.length = _
    rw [step]
    exact congrArg (fun r : Ring => { r with wp := next }) (if_neg low)
  · intro x below other
    rw [others x below other]
    show ((r.mem.modify b (storeData data)).modify b (setBytes data.length)).block x = _
    rw [Mem.modify_block_of_ne _ _ other, Mem.modify_block_of_ne _ _ other]
  · rw [bytes]
    simp [r₀, Mem.bytes, setBytes]
  · rcases goes with ⟨nextEq, empty, rfl⟩ | new
    · refine Or.inl ⟨nextEq.trans link, empty, fun x => ?_⟩
      exact (Mem.modify_field Block.size _ b (setBytes data.length) rfl x).trans
        (Mem.modify_field Block.size r.mem b (storeData data) rfl x)
    · exact Or.inr new

/-- A ring whose full blocks are followed by an empty block that is not the write position. -/
structure Ring.Holed (r : Ring) (full : List Nat) (hole : Nat) : Prop where
  run : Chain r.mem.next r.rp full hole
  nodup : (full ++ [hole]).Nodup
  filled : ∀ x ∈ full, 0 < r.mem.bytes x ∧ r.mem.bytes x ≤ (r.mem.data x).length
  empty : r.mem.bytes hole = 0
  older : ∀ x ∈ full ++ [hole], x < r.mem.brk
  beyond : r.wp ∉ full ++ [hole]
  wpOlder : r.wp < r.mem.brk
  room : 0 < r.mem.size r.wp
  sized : 0 < r.blockSize
  grows : 0 < r.blockRealloc

/-- **An empty release leaves a hole** in a ring of more than one block. -/
theorem holed_of_release (fits : host.Fits) {r : Ring} {full free : List Nat}
    (shape : r.Shape full free) (ready : r.state = .ready) (noHigh : r.highWaterMark = 0)
    (several : r.mem.next r.wp ≠ r.wp) :
    (writeBlock host r r.wp []).Holed full r.wp ∧
      contents (writeBlock host r r.wp []).mem full = contents r.mem full ∧
      r.Keeps (writeBlock host r r.wp []) ∧ (writeBlock host r r.wp []).state = .ready := by
  have layout := shape.body.layout
  have sized := shape.ready ready
  obtain ⟨rest, rfl⟩ : ∃ rest, free = r.wp :: rest := by
    cases free with
    | nil => exact absurd rfl shape.spare
    | cons x rest => exact ⟨rest, by rw [layout.wp_eq]⟩
  have nodup : (full ++ [r.wp]).Nodup := by
    refine layout.nodup.sublist ?_
    exact List.Sublist.append_left (List.singleton_sublist.mpr (by simp)) full
  have inside : ∀ x ∈ full ++ [r.wp], x < r.mem.brk := fun x member =>
    (layout.inside x (by
      rcases List.mem_append.mp member with inFull | here
      · exact List.mem_append_left _ inFull
      · simp [List.mem_singleton.mp here])).2
  obtain ⟨m, size, realloc, allocs, next, result, brk, others, bytes, positive, goes⟩ :=
    writeBlock_frame fits (b := r.wp) [] sized shape.body.grows (inside r.wp (by simp)) noHigh
  have differ : ∀ x ∈ full, x ≠ r.wp := fun x member =>
    (List.nodup_append.mp nodup).2.2 x member r.wp (by simp)
  have same : ∀ x ∈ full, m.block x = r.mem.block x := fun x member =>
    others x (inside x (List.mem_append_left _ member)) (differ x member)
  rw [result]
  refine ⟨⟨?_, nodup, ?_, bytes, ?_, ?_, ?_, ?_, sized, positive⟩, ?_,
    ⟨rfl, rfl, rfl, rfl, rfl, rfl, rfl⟩, ready⟩
  · exact layout.toWp.congr fun x member => congrArg Block.next (same x member)
  · intro x member
    show 0 < m.bytes x ∧ m.bytes x ≤ (m.data x).length
    rw [Mem.bytes, Mem.data, same x member]
    exact ⟨layout.filled x member, shape.body.stored x member⟩
  · exact fun x member => Nat.lt_of_lt_of_le (inside x member) brk
  · show next ∉ full ++ [r.wp]
    intro member
    rcases goes with ⟨nextEq, empty, _⟩ | ⟨new, _, _⟩
    · rcases List.mem_append.mp member with inFull | here
      · have filled := layout.filled next inFull
        rw [Mem.bytes, same next inFull] at empty
        rw [Mem.bytes] at filled
        omega
      · exact several (nextEq.symm.trans (List.mem_singleton.mp here))
    · have below := inside next member
      omega
  · show next < m.brk
    rcases goes with ⟨nextEq, _, _⟩ | ⟨_, below, _⟩
    · have member : r.mem.next r.wp ∈ full ++ r.wp :: rest := layout.ring.next_mem (by simp)
      rw [nextEq]
      exact Nat.lt_of_lt_of_le (layout.inside _ member).2 brk
    · exact below
  · show 0 < m.size next
    rcases goes with ⟨nextEq, _, sizes⟩ | ⟨_, _, newSize⟩
    · have member : r.mem.next r.wp ∈ full ++ r.wp :: rest := layout.ring.next_mem (by simp)
      rw [sizes, nextEq, layout.sizes _ member]
      exact sized
    · rw [newSize]
      exact sized
  · exact contents_congr (fun x member => congrArg Block.data (same x member))
      fun x member => congrArg Block.bytes (same x member)

/-- A later write does not fill the hole. -/
theorem Ring.Holed.write (fits : host.Fits) {r : Ring} {full : List Nat} {hole : Nat} (x : UInt8)
    (holed : r.Holed full hole) (noHigh : r.highWaterMark = 0) :
    (writeBlock host r r.wp [x]).rp = r.rp ∧
      (∀ y ∈ full ++ [hole], (writeBlock host r r.wp [x]).mem.block y = r.mem.block y) ∧
      r.Keeps (writeBlock host r r.wp [x]) := by
  obtain ⟨m, size, realloc, allocs, next, result, _, others, _⟩ :=
    writeBlock_frame fits (b := r.wp) [x] holed.sized holed.grows holed.wpOlder noHigh
  rw [result]
  refine ⟨rfl, fun y member => others y (holed.older y member) fun same => ?_,
    ⟨rfl, rfl, rfl, rfl, rfl, rfl, rfl⟩⟩
  exact holed.beyond (same ▸ member)

/-- A read returns no more than what the full blocks before the hole hold. -/
theorem bufRead_holed {r : Ring} {full : List Nat} {hole : Nat}
    (run : Chain r.mem.next r.rp full hole) (nodup : (full ++ [hole]).Nodup)
    (filled : ∀ x ∈ full, 0 < r.mem.bytes x ∧ r.mem.bytes x ≤ (r.mem.data x).length)
    (empty : r.mem.bytes hole = 0) (unlimited : r.minReturnSize = 0) (request : Nat) :
    ∃ r' status, bufRead r request false 1 =
      some (r', status, (contents r.mem full).take request) := by
  obtain ⟨fullNodup, _, apart⟩ := List.nodup_append.mp nodup
  have notMem : hole ∉ full := fun member => apart hole member hole (by simp) rfl
  obtain ⟨m, b, done, rest, loop, _⟩ :=
    bufReadLoop_run [] (Nat.le_refl request) ⟨run, fullNodup, notMem, empty, filled⟩
  have remaining : (if r.minReturnSize > r.bytes then 0 else request - request % 1) = request := by
    rw [if_neg (by omega), Nat.mod_one, Nat.sub_zero]
  simp only [bufRead, remaining, loop, Option.map_some, List.nil_append]
  split
  · exact ⟨_, _, rfl⟩
  · exact ⟨_, _, rfl⟩

/-- A byte written to a sound ring is the last one that a read of everything returns. -/
theorem observe_sound (fits : host.Fits) {r : Ring} {q : List UInt8} (sound : r.Sound)
    (holds : r.Holds q) :
    ∃ n n', r.observe host [.write [1], .read (q.length + 1)] =
      some [(.wrote .success 1, n), (.got .success (q ++ [1]), n')] := by
  have some : r.state = .noinit → [(1 : UInt8)] ≠ [] := fun _ => by simp
  obtain ⟨r₁, write, more, _, keeps⟩ := bufWrite_spec fits holds some sound.aligned sound.noLow
    sound.noHigh
  obtain ⟨r₂, _, _, _, read⟩ := bufRead_spec more (q.length + 1)
    (keeps.minReturnSize.trans sound.unlimited)
  have all : (q ++ [(1 : UInt8)]).take (q.length + 1) = q ++ [1] :=
    List.take_of_length_le (by simp)
  rw [all, if_neg (by simp)] at read
  exact ⟨r₁.bytes, r₂.bytes, by simp [Ring.observe, Ring.op, write, read]⟩

/-- A byte written to a ring with a hole is not returned. -/
theorem observe_holed (fits : host.Fits) {r : Ring} {full : List Nat} {hole : Nat}
    (holed : r.Holed full hole) (ready : r.state = .ready) (noLow : r.lowWaterMark = 0)
    (noHigh : r.highWaterMark = 0) (unlimited : r.minReturnSize = 0) (request : Nat) :
    ∃ n n' status, r.observe host [.write [1], .read request] =
      some [(.wrote .success 1, n), (.got status ((contents r.mem full).take request), n')] := by
  have some : [(1 : UInt8)] ≠ [] := by simp
  have write := @bufWrite_ready host r [1] ready noLow some holed.room
  obtain ⟨rp, others, keeps⟩ := holed.write fits 1 noHigh
  generalize writeBlock host r r.wp [1] = r₁ at write rp others keeps
  have same : ∀ x ∈ full, r₁.mem.block x = r.mem.block x := fun x member =>
    others x (List.mem_append_left _ member)
  have run : Chain r₁.mem.next r₁.rp full hole :=
    rp ▸ holed.run.congr fun x member => congrArg Block.next (same x member)
  have filled : ∀ x ∈ full, 0 < r₁.mem.bytes x ∧ r₁.mem.bytes x ≤ (r₁.mem.data x).length := by
    intro x member
    rw [Mem.bytes, Mem.data, same x member]
    exact holed.filled x member
  have empty : r₁.mem.bytes hole = 0 := by
    rw [Mem.bytes, others hole (by simp)]
    exact holed.empty
  obtain ⟨r₂, status, read⟩ := bufRead_holed run holed.nodup filled empty
    (keeps.minReturnSize.trans unlimited) request
  have contents : contents r₁.mem full = contents r.mem full :=
    contents_congr (fun x member => congrArg Block.data (same x member))
      fun x member => congrArg Block.bytes (same x member)
  rw [contents] at read
  exact ⟨r₁.bytes, r₂.bytes, status, by simp [Ring.observe, Ring.op, write, read]⟩

/-- **On a ring of more than one block an empty release is seen.** After one more byte is written, a
read of everything returns that byte after an empty write, and not after an empty release. -/
theorem single_of_agree (fits : host.Fits) {r : Ring} (sound : r.Sound) (ready : r.state = .ready)
    (agree : Agree host r []) : r.mem.next r.wp = r.wp ∧ r.mem.bytes r.wp = 0 := by
  obtain ⟨q, full, free, shape, rfl⟩ := sound.holds
  have layout := shape.body.layout
  have inFree : r.wp ∈ free := layout.toRp.start_mem shape.spare
  have empty : r.mem.bytes r.wp = 0 := layout.empty r.wp inFree
  refine ⟨?_, empty⟩
  by_contra several
  obtain ⟨holed, kept, keeps, ready'⟩ := holed_of_release fits shape ready sound.noHigh several
  obtain ⟨n₁, n₂, copied⟩ := observe_sound fits sound ⟨full, free, shape, rfl⟩
  obtain ⟨n₃, n₄, status, released⟩ := observe_holed fits holed ready'
    (keeps.lowWaterMark.trans sound.noLow) (keeps.highWaterMark.trans sound.noHigh)
    (keeps.minReturnSize.trans sound.unlimited) ((contents r.mem full).length + 1)
  have nothing : ([] : List UInt8).length ≤ r.mem.size r.wp := Nat.zero_le _
  have seen := agree 0 [.write [1], .read ((contents r.mem full).length + 1)]
  simp only [Ring.observeAfter, Ring.op, bufWrite_nothing ready sound.noLow sound.noHigh,
    zeroCopyWrite_ready ready sound.noLow nothing, Option.map_some, Option.bind_some, copied,
    released, kept, Option.some.injEq, List.cons.injEq, Prod.mk.injEq, Answer.got.injEq] at seen
  have length := congrArg List.length seen.2.1.1.2
  simp at length

/-- **When a write without a copy is a write.** With at least one byte to store, or on a ring of a
single empty block, no later sequence of calls tells it from `buf_write`, whatever the state of the
ring and whatever allocations fail. On a ring that no empty release has disturbed and whose
allocations succeed there is no other case. -/
theorem zero_copy_agrees_iff (host : Host) (r : Ring) (data : List UInt8)
    (ready : r.state = .ready) (noLow : r.lowWaterMark = 0) (noHigh : r.highWaterMark = 0)
    (short : data.length ≤ r.mem.size r.wp) :
    (data ≠ [] ∨ (r.mem.next r.wp = r.wp ∧ r.mem.bytes r.wp = 0) → Agree host r data) ∧
      (host.Fits → Reached host r → Agree host r data →
        data ≠ [] ∨ (r.mem.next r.wp = r.wp ∧ r.mem.bytes r.wp = 0)) := by
  refine ⟨agree_of_some ready noLow noHigh short, fun fits reached agree => ?_⟩
  by_cases some : data = []
  · subst some
    exact Or.inr (single_of_agree fits (sound_reached fits reached) ready agree)
  · exact Or.inl some

/-- A ring that holds one byte, and a second one stored without a copy. -/
theorem zero_copy_agrees_byte : ∃ r,
    Ring.op roomyHost { createBuffer with blockAlign := 1 } (.write [7]) =
      some (r, .wrote .success 1) ∧ Agree roomyHost r [8] := by
  have written : (Ring.op roomyHost { createBuffer with blockAlign := 1 } (.write [7])).map
      (fun result => (result.2, result.1.state, result.1.lowWaterMark, result.1.highWaterMark,
        result.1.mem.size result.1.wp)) = some (.wrote .success 1, .ready, 0, 0, 1) := by
    decide +kernel
  obtain ⟨⟨r, answer⟩, write, facts⟩ := Option.map_eq_some_iff.mp written
  simp only [Prod.mk.injEq] at facts
  obtain ⟨rfl, ready, noLow, noHigh, size⟩ := facts
  refine ⟨r, write, (zero_copy_agrees_iff roomyHost r [8] ready noLow noHigh ?_).1
    (Or.inl (by simp))⟩
  rw [size]
  exact Nat.le_refl 1

/-- **An empty release loses a byte.** A ring that holds one byte: after an empty write the next
byte is read, after an empty release it is not. -/
theorem empty_release_differs : ∃ r,
    Ring.op roomyHost { createBuffer with blockAlign := 1 } (.write [7]) =
      some (r, .wrote .success 1) ∧ r.state = .ready ∧ r.lowWaterMark = 0 ∧ r.highWaterMark = 0 ∧
      r.observeAfter roomyHost (.write []) [.write [8], .read 2] =
        some [(.wrote .success 1, 2), (.got .success [7, 8], 0)] ∧
      r.observeAfter roomyHost (.zeroCopy 0 []) [.write [8], .read 2] =
        some [(.wrote .success 1, 2), (.got .success [7], 1)] ∧ ¬ Agree roomyHost r [] := by
  have written : (Ring.op roomyHost { createBuffer with blockAlign := 1 } (.write [7])).map
      (fun result => (result.2, result.1.state, result.1.lowWaterMark, result.1.highWaterMark)) =
      some (.wrote .success 1, .ready, 0, 0) := by decide +kernel
  have copied : ((Ring.op roomyHost { createBuffer with blockAlign := 1 } (.write [7])).bind
      fun result => result.1.observeAfter roomyHost (.write []) [.write [8], .read 2]) =
      some [(.wrote .success 1, 2), (.got .success [7, 8], 0)] := by decide +kernel
  have released : ((Ring.op roomyHost { createBuffer with blockAlign := 1 } (.write [7])).bind
      fun result => result.1.observeAfter roomyHost (.zeroCopy 0 []) [.write [8], .read 2]) =
      some [(.wrote .success 1, 2), (.got .success [7], 1)] := by decide +kernel
  obtain ⟨⟨r, answer⟩, write, facts⟩ := Option.map_eq_some_iff.mp written
  simp only [Prod.mk.injEq] at facts
  obtain ⟨rfl, ready, noLow, noHigh⟩ := facts
  rw [write] at copied released
  refine ⟨r, write, ready, noLow, noHigh, copied, released, fun agree => ?_⟩
  have same := (copied.symm.trans (agree 0 [.write [8], .read 2])).trans released
  simp at same

end Bingewatch.Buffer
