import Bingewatch.Buffer.RingZeroCopy

/-!
# A ring with an acquired block

Between `rb_acquire_write_block` and `rb_release_write_block` the caller stores its bytes in the
block at the write position, while other threads go on reading from the ring and may stop it. The
block counts no byte before its release, so a reader never looks into it: `Held` says what the two
share, and every read and every stop in between keeps it.

The release of a block with bytes is a write of these bytes (`Held.release`). After the release of
an empty block the ring is in order for its readers alone (`Drains`, `Held.release_nothing`).
-/

set_option autoImplicit false

namespace Bingewatch.Buffer

open Foundation Machine

variable {host : Host}

/-! ## What readers rely on -/

/-- **A read of a run of full blocks.** It takes a prefix of what they hold, and changes no block
outside the run. -/
theorem bufRead_run {r : Ring} {hole : Nat} {full : List Nat} (run : FullRun r.mem r.rp hole full)
    (request : Nat) (unlimited : r.minReturnSize = 0) :
    ∃ (m : Mem UInt8) (b : Nat) (left : List Nat), FullRun m b hole left ∧
      contents m left = (contents r.mem full).drop request ∧
      (∀ x, x ∉ full → m.block x = r.mem.block x) ∧
      let out := (contents r.mem full).take request
      let r' := { r with mem := m, bytes := r.bytes - out.length, rp := b }
      bufRead r request false 1 =
        if r.flush ∧ out = [] then some ({ r' with ioRead := .disabling }, .complete, out)
        else some (r', .success, out) := by
  obtain ⟨m, b, done, left, loop, drained⟩ := bufReadLoop_run [] (Nat.le_refl request) run
  obtain ⟨rfl, -, toHole, -, fields, others, -, stored, rest⟩ := drained
  have nodup := List.nodup_append.mp run.nodup
  refine ⟨m, b, left, ⟨?_, nodup.2.1, ?_, ?_, stored⟩, rest, others, ?_⟩
  · exact toHole.congr fun x _ => (fields x).1
  · exact fun member => run.outside (List.mem_append_right _ member)
  · exact (congrArg Block.bytes (others hole run.outside)).trans run.empty
  · have remaining :
        (if r.minReturnSize > r.bytes then 0 else request - request % 1) = request := by
      rw [if_neg (by omega), Nat.mod_one, Nat.sub_zero]
    rw [List.nil_append] at loop
    simp only [bufRead, remaining, loop, Option.map_some]
    split <;> rfl

/-- A ring gives out the content of the queue and reports completion as the queue does. Nothing is
said about writing to it. -/
structure Drains (r : Ring) (q : ByteQueue) : Prop where
  run : ∃ hole full, FullRun r.mem r.rp hole full ∧ contents r.mem full = q.content
  unlimited : r.minReturnSize = 0
  flush : r.flush = q.stopped
  reading : q.completed = false → r.ioRead = .enabled
  finished : q.completed = true →
    (r.ioRead = .disabling ∨ r.ioRead = .disabled) ∧ q.stopped = true ∧ q.content = []

/-- A read of such a ring answers as the queue does. -/
theorem Drains.read (host : Host) {r : Ring} {q : ByteQueue} {request : Nat} (drains : Drains r q)
    (asks : 0 < request) :
    ∃ r', r.call host (.read request) = some (r', (q.call (.read request)).2) ∧
      Drains r' (q.call (.read request)).1 := by
  cases completed : q.completed with
  | true =>
      have answer : q.call (.read request) = (q, .got .success []) := by
        simp [ByteQueue.call, completed]
      rw [answer]
      refine ⟨{ r with ioRead := .disabled }, ?_, drains.run, drains.unlimited, drains.flush,
        (fun running => by cases completed.symm.trans running),
        fun _ => ⟨Or.inr rfl, (drains.finished completed).2⟩⟩
      rcases (drains.finished completed).1 with side | side
      · simp [Ring.call, machineDescRead, machineDescIo, side]
      · have same : { r with ioRead := .disabled } = r := by rw [← side]
        rw [same]
        simp [Ring.call, machineDescRead, machineDescIo, side]
  | false =>
      obtain ⟨hole, full, run, content⟩ := drains.run
      obtain ⟨m, b, left, run', rest, _, read⟩ := bufRead_run run request drains.unlimited
      rw [content] at rest read
      have call : ∀ result, bufRead r request false 1 = some result →
          r.call host (.read request) = some (result.1, .got result.2.1 result.2.2) := by
        intro result eq
        simp [Ring.call, machineDescRead, machineDescIo, drains.reading completed, eq]
      have nothing : q.content.take request = [] ↔ q.content = [] := by
        rw [List.take_eq_nil_iff]
        exact ⟨fun h => h.resolve_left (by omega), Or.inr⟩
      by_cases drained : q.stopped = true ∧ q.content = []
      · have answer : q.call (.read request) =
            ({ q with completed := true }, .got .complete []) := by
          simp [ByteQueue.call, completed, drained]
        have ends : r.flush ∧ q.content.take request = [] :=
          ⟨drains.flush.trans drained.1, nothing.mpr drained.2⟩
        have empty : contents m left = q.content := by rw [rest, drained.2, List.drop_nil]
        rw [answer, call _ (read.trans (if_pos ends)), ends.2]
        exact ⟨_, rfl, ⟨hole, left, run', empty⟩, drains.unlimited, drains.flush,
          (fun running => by cases running), fun _ => ⟨Or.inl rfl, drained⟩⟩
      · have answer : q.call (.read request) =
            ({ q with content := q.content.drop request },
              .got .success (q.content.take request)) := by
          simp only [ByteQueue.call, completed, Bool.false_eq_true, if_false, if_neg drained]
        have goesOn : ¬ (r.flush ∧ q.content.take request = []) := fun both =>
          drained ⟨drains.flush.symm.trans both.1, nothing.mp both.2⟩
        rw [answer, call _ (read.trans (if_neg goesOn))]
        exact ⟨_, rfl, ⟨hole, left, run', rest⟩, drains.unlimited, drains.flush,
          fun _ => drains.reading completed, fun done => by cases completed.symm.trans done⟩

theorem Drains.stop {r : Ring} {q : ByteQueue} (drains : Drains r q) :
    Drains (stopBuffer r) (q.call .stop).1 where
  run := drains.run
  unlimited := drains.unlimited
  flush := rfl
  reading := drains.reading
  finished := fun done => ⟨(drains.finished done).1, rfl, (drains.finished done).2.2⟩

/-- A ring in order is one its readers can rely on. -/
theorem Simulates.drains {r : Ring} {q : ByteQueue} (sim : Simulates r q) : Drains r q := by
  obtain ⟨full, free, shape, content⟩ := sim.holds
  exact ⟨⟨r.wp, full, shape.body.layout.fullRun shape.spare shape.body.stored, content⟩,
    sim.unlimited, sim.flush, sim.reading, sim.finished⟩

/-! ## The acquired block -/

/-- A ring in order whose block at the write position is acquired and starts with `data`, which
nobody has counted yet. -/
structure Held (r : Ring) (q : ByteQueue) (b : Nat) (data : List UInt8) : Prop where
  sim : Simulates r q
  ready : r.state = .ready
  here : r.wp = b
  room : data.length ≤ r.mem.size b
  stored : (r.mem.data b).take data.length = data

/-- What `rb_acquire_write_block` returns of a ring in order: its block at the write position. -/
theorem Simulates.acquire (fits : host.Fits) {r r' : Ring} {q : ByteQueue} {initBytes : Nat}
    {status : IoStatus} {block : Option Nat} (sim : Simulates r q)
    (acquired : rbAcquireWriteBlock host r initBytes = (r', status, block)) :
    status = .success ∧ ∃ b, block = some b ∧ Held r' q b [] := by
  have acquire : ∀ r₁ : Ring, Simulates r₁ q → r₁.state = .ready →
      (if r₁.lowWaterMark ≠ 0 then (lowWaterMarkHit r₁, IoStatus.nodata, (none : Option Nat))
        else (r₁, IoStatus.success, some r₁.wp)) = (r', status, block) →
      status = .success ∧ ∃ b, block = some b ∧ Held r' q b [] := by
    intro r₁ sim₁ ready outcome
    rw [if_neg fun low => low sim₁.noLow] at outcome
    cases outcome
    exact ⟨rfl, _, rfl, sim₁, ready, rfl, Nat.zero_le _, rfl⟩
  unfold rbAcquireWriteBlock at acquired
  dsimp only at acquired
  split at acquired
  · next ready => exact acquire r sim ready acquired
  · next noinit =>
      have positive : 0 < if initBytes > 0 then initBytes else defaultBufBytes := by
        split
        · assumption
        · decide
      obtain ⟨full, free, shape, content⟩ := sim.holds
      obtain ⟨rfl, _⟩ := shape.fresh noinit
      obtain ⟨r₁, free₁, init, shape₁, ready, keeps, _⟩ :=
        ringDataInit_spec fits shape noinit positive sim.aligned
      have empty : q.content = [] := content.symm
      rw [init] at acquired
      refine acquire r₁ ?_ ready acquired
      exact sim.of_keeps keeps ⟨[], free₁, shape₁, content⟩ rfl rfl fun _ => empty

/-- Storing bytes in the free block at the write position. -/
theorem Simulates.store {r : Ring} {q : ByteQueue} (sim : Simulates r q) (data : List UInt8) :
    Simulates { r with mem := r.mem.modify r.wp (storeData data) } q := by
  obtain ⟨full, free, ⟨⟨layout, stored, capacity, grows⟩, spare, count, ready, fresh⟩, content⟩ :=
    sim.holds
  have outside := (layout.fullRun spare stored).outside
  have links := Mem.modify_field Block.next r.mem r.wp (storeData data) rfl
  have sizes := Mem.modify_field Block.size r.mem r.wp (storeData data) rfl
  have bytes := Mem.modify_field Block.bytes r.mem r.wp (storeData data) rfl
  have apart : ∀ x ∈ full, (r.mem.modify r.wp (storeData data)).block x = r.mem.block x :=
    fun x member => Mem.modify_block_of_ne _ _ fun same => outside (same ▸ member)
  have same : contents (r.mem.modify r.wp (storeData data)) full = contents r.mem full :=
    contents_modify outside
  refine sim.of_keeps ⟨rfl, rfl, rfl, rfl, rfl, rfl, rfl⟩ ?_ rfl rfl
    fun done => (sim.finished done).2.2
  refine ⟨full, free, ⟨⟨⟨?_, ?_, layout.nodup, layout.inside, ?_, ?_, ?_⟩, ?_, capacity, grows⟩,
    spare, count.trans (congrArg List.length same.symm), ready, fresh⟩, same.trans content⟩
  · exact layout.toWp.congr fun x _ => links x
  · exact layout.toRp.congr fun x _ => links x
  · exact fun x member => (sizes x).trans (layout.sizes x member)
  · intro x member
    exact Nat.lt_of_lt_of_eq (layout.filled x member) (bytes x).symm
  · exact fun x member => (bytes x).trans (layout.empty x member)
  · intro x member
    rw [Mem.bytes, Mem.data, apart x member]
    exact stored x member

namespace Held

variable {r : Ring} {q : ByteQueue} {b : Nat} {data : List UInt8}

/-- Storing bytes in the acquired block. -/
theorem store (held : Held r q b []) (data : List UInt8) (fit : data.length ≤ r.mem.size b) :
    Held { r with mem := r.mem.modify b (storeData data) } q b data := by
  obtain rfl := held.here
  refine ⟨held.sim.store data, held.ready, rfl, ?_, ?_⟩
  · have sizes := Mem.modify_field Block.size r.mem r.wp (storeData data) rfl r.wp
    exact Nat.le_trans fit (Nat.le_of_eq sizes.symm)
  · show ((r.mem.modify r.wp (storeData data)).data r.wp).take data.length = data
    simp [Mem.data, storeData]

/-- A read while the block is held. -/
theorem read (host : Host) {request : Nat} (held : Held r q b data) (asks : 0 < request) :
    ∃ r', r.call host (.read request) = some (r', (q.call (.read request)).2) ∧
      Held r' (q.call (.read request)).1 b data := by
  obtain ⟨r', call, sim', state⟩ := held.sim.read host asks
  -- The block held is free, and a read changes full blocks only.
  have apart : r'.wp = r.wp ∧ r'.mem.block r.wp = r.mem.block r.wp := by
    obtain ⟨full, free, shape, _⟩ := held.sim.holds
    have run := shape.body.layout.fullRun shape.spare shape.body.stored
    obtain ⟨m, b', left, _, _, others, read⟩ := bufRead_run run request held.sim.unlimited
    have same := others r.wp run.outside
    simp only [Ring.call] at call
    obtain ⟨⟨r₁, status, out⟩, answered, made⟩ := Option.map_eq_some_iff.mp call
    obtain ⟨rfl, _⟩ := Prod.mk.inj made
    rcases machineDescIo_cases answered with ⟨_, called⟩ | ⟨_, rfl | ⟨side, rfl⟩, _⟩
    · rw [read] at called
      split at called
      · cases called
        exact ⟨rfl, same⟩
      · cases called
        exact ⟨rfl, same⟩
    · exact ⟨rfl, rfl⟩
    · exact ⟨rfl, rfl⟩
  obtain rfl := held.here
  refine ⟨r', call, sim', state.trans held.ready, apart.1, ?_, ?_⟩
  · rw [Mem.size, apart.2]
    exact held.room
  · rw [Mem.data, apart.2]
    exact held.stored

theorem stop (held : Held r q b data) : Held (stopBuffer r) (q.call .stop).1 b data :=
  ⟨held.sim.stop, held.ready, held.here, held.room, held.stored⟩

/-- Storing the bytes once more changes nothing, so the release ends a write of them. -/
theorem release_eq (held : Held r q b data) :
    rbReleaseWriteBlock host r data.length = writeBlock host r r.wp data := by
  obtain rfl := held.here
  have again : r.mem.modify r.wp (storeData data) = r.mem := by
    have here : storeData data (r.mem.block r.wp) = r.mem.block r.wp := by
      have whole : data ++ (r.mem.data r.wp).drop data.length = r.mem.data r.wp := by
        conv_lhs => enter [1]; rw [← held.stored]
        exact List.take_append_drop ..
      rw [storeData, ← Mem.data, whole]
      rfl
    have block : ∀ x, (r.mem.modify r.wp (storeData data)).block x = r.mem.block x := by
      intro x
      by_cases same : x = r.wp
      · subst same
        rw [Mem.modify_block_self, here]
      · exact Mem.modify_block_of_ne _ _ same
    exact congrArg (fun block => ({ block := block, brk := r.mem.brk } : Mem UInt8)) (funext block)
  simp only [rbReleaseWriteBlock, writeBlock, again]

/-- **Releasing a block with bytes is a write of them.** -/
theorem release (fits : host.Fits) (held : Held r q b data) (filled : data ≠ [])
    (running : q.stopped = false) :
    Simulates (rbReleaseWriteBlock host r data.length) (q.call (.write data)).1 := by
  obtain ⟨r', call, sim', _⟩ := held.sim.write fits data fun _ _ => filled
  have room : data.length ≤ r.mem.size r.wp := held.here ▸ held.room
  have write : bufWrite host r data = _ :=
    bufWrite_ready held.ready held.sim.noLow filled room
  have same : r' = writeBlock host r r.wp data := by
    simp only [Ring.call, machineDescWrite, machineDescIo, held.sim.writing running, write,
      Option.map_some, Option.some.injEq, Prod.mk.injEq] at call
    exact call.1.symm
  rw [held.release_eq, ← same]
  exact sim'

/-- **After the release of an empty block the readers still get what was stored before.** -/
theorem release_nothing (fits : host.Fits) (held : Held r q b []) :
    Drains (rbReleaseWriteBlock host r 0) q := by
  obtain ⟨full, free, shape, content⟩ := held.sim.holds
  have released : rbReleaseWriteBlock host r 0 = writeBlock host r r.wp [] := held.release_eq
  have run := shape.body.layout.fullRun shape.spare shape.body.stored
  rw [released]
  by_cases single : r.mem.next r.wp = r.wp
  · rw [writeBlock_single held.sim.noHigh single run.empty]
    exact held.sim.drains
  · obtain ⟨holed, same, keeps, _⟩ :=
      holed_of_release fits shape held.ready held.sim.noHigh single
    have nodup := List.nodup_append.mp holed.nodup
    refine ⟨⟨r.wp, full, ⟨holed.run, nodup.1, fun member => ?_, holed.empty, holed.filled⟩,
      same.trans content⟩, keeps.minReturnSize.trans held.sim.unlimited,
      keeps.flush.trans held.sim.flush, fun running => ?_, fun done => ?_⟩
    · exact nodup.2.2 r.wp member r.wp (by simp) rfl
    · exact keeps.ioRead.trans (held.sim.reading running)
    · rw [keeps.ioRead]
      exact held.sim.finished done

end Held

end Bingewatch.Buffer
