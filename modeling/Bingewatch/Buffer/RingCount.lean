import Mathlib.Algebra.BigOperators.Group.Finset.Basic
import Mathlib.Algebra.Order.BigOperators.Group.Finset
import Mathlib.Data.Nat.ModEq
import Bingewatch.Buffer.RingInit
import Bingewatch.Buffer.RingOrder
import Bingewatch.Buffer.RingStored

/-!
# The byte count of a ring with two threads

`ring->bytes` lags behind the blocks. The blocks of a write can be read as soon as each is filled,
but the write adds its bytes at its end; a read takes bytes from block to block and subtracts them
at its end. So the count is what the blocks store, with the bytes that the read in progress has
taken and without those that the write in progress has not yet added, and as an unsigned number it
may wrap around.

`Shared.Counting` states this for every run in which the allocations of `get_next_block` succeed,
whatever the order of the blocks. `count_within_size` concludes that the count stays within the size
of the ring exactly as long as each subtraction finds the bytes of the write in progress still in
the blocks, and each addition finds the bytes taken by the read in progress to fit into the ring.
-/

set_option autoImplicit false

namespace Bingewatch.Buffer.Threads

open Foundation Machine

/-! ## What the count leaves out -/

/-- The bytes stored in all blocks. -/
def storedBytes (m : Mem UInt8) : Nat := ∑ x ∈ Finset.range m.brk, m.bytes x

/-- The bytes that the write in progress has released to the reader and not yet added to the
count. -/
def Shared.uncounted (s : Shared) : Nat :=
  match s.writer with
  | .setBytes n => s.put.written - n
  | .testHigh => 0
  | .storeWp => 0
  | pc => if pc.inside then s.put.written else 0

/-- The bytes that the read in progress has taken from the blocks and not yet subtracted from the
count. -/
def Shared.taken (s : Shared) : Nat :=
  match s.reader with
  | .idle => 0
  | .storeRp => 0
  | .move n => s.get.out.length - n
  | .take n _ => s.get.out.length - n
  | _ => s.get.out.length

/-- The writer is about to allocate new blocks. -/
def WriterPc.allocating : WriterPc → Bool
  | .alloc _ _ => true
  | _ => false

/-- The allocation of `get_next_block` finds memory for a block. -/
def Allocates (host : Host) (s : Shared) : Act → Prop
  | .writer => s.writer.allocating →
      s.ring.blockSize < host.freeram s.ring.allocs s.ring.blockSize
  | _ => True

/-- An addition to the count finds that the bytes stored and those taken by the read in progress fit
into the ring; a subtraction finds that the blocks still store what the write in progress has
released. -/
def Settles (s : Shared) : Act → Prop
  | .writer => s.writer = .addBytes → storedBytes s.ring.mem + s.taken ≤ s.ring.size
  | .reader => s.reader = .subBytes → s.uncounted ≤ storedBytes s.ring.mem
  | _ => True

/-- Both conditions on a step. -/
def Counts (host : Host) (s : Shared) (a : Act) : Prop := Allocates host s a ∧ Settles s a

instance (host : Host) (s : Shared) : (a : Act) → Decidable (Counts host s a)
  | .writer => inferInstanceAs (Decidable ((_ → _ < _) ∧ (_ = _ → _ ≤ _)))
  | .reader => inferInstanceAs (Decidable (True ∧ (_ = _ → _ ≤ _)))
  | .write _ | .read _ => .isTrue ⟨trivial, trivial⟩

/-! ## The blocks of the ring -/

/-- The blocks of a ring, as a set that the links do not lead out of. -/
structure Blocks (r : Ring) (blocks : Finset Nat) : Prop where
  below : ∀ x ∈ blocks, 0 < x ∧ x < r.mem.brk
  closed : ∀ x ∈ blocks, r.mem.next x ∈ blocks
  empty : ∀ x, x ∉ blocks → r.mem.bytes x = 0
  room : ∀ x, r.mem.bytes x ≤ r.mem.size x
  backed : Backed r.mem
  capacity : r.size = ∑ x ∈ blocks, r.mem.size x
  rp : r.rp ∈ blocks
  wp : r.wp ∈ blocks

theorem storedBytes_modify {m : Mem UInt8} {b : Nat} (below : b < m.brk)
    (f : Block UInt8 → Block UInt8) :
    storedBytes (m.modify b f) + m.bytes b = storedBytes m + (f (m.block b)).bytes := by
  have member : b ∈ Finset.range m.brk := Finset.mem_range.mpr below
  have others : ∑ x ∈ (Finset.range m.brk).erase b, (m.modify b f).bytes x =
      ∑ x ∈ (Finset.range m.brk).erase b, m.bytes x := by
    refine Finset.sum_congr rfl fun x inside => ?_
    exact congrArg Block.bytes (Mem.modify_block_of_ne m f (Finset.ne_of_mem_erase inside))
  have here : (m.modify b f).bytes b = (f (m.block b)).bytes :=
    congrArg Block.bytes (Mem.modify_block_self m b f)
  unfold storedBytes
  rw [Mem.modify_brk, ← Finset.add_sum_erase _ _ member, ← Finset.add_sum_erase _ m.bytes member,
    others, here]
  omega

/-- Blocks that come in addition are empty. -/
theorem storedBytes_grown {m m' : Mem UInt8} (grows : m.brk ≤ m'.brk)
    (same : ∀ x, m'.bytes x = m.bytes x) (beyond : ∀ x, m.brk ≤ x → m.bytes x = 0) :
    storedBytes m' = storedBytes m := by
  unfold storedBytes
  rw [Finset.sum_congr rfl fun x _ => same x]
  refine (Finset.sum_subset (Finset.range_mono grows) fun x _ outside => ?_).symm
  exact beyond x (by simpa using outside)

theorem storedBytes_empty {m : Mem UInt8} (empty : ∀ x, m.bytes x = 0) : storedBytes m = 0 :=
  Finset.sum_eq_zero fun x _ => empty x

namespace Blocks

variable {r : Ring} {blocks : Finset Nat}

/-- A ring of empty blocks of one size. -/
theorem of_layout {free : List Nat} {blockSize : Nat}
    (layout : Layout r.mem blockSize r.wp r.wp [] free) (spare : free ≠ [])
    (positions : r.rp = r.wp) (capacity : r.size = free.length * blockSize)
    (empty : ∀ x, r.mem.bytes x = 0) : Blocks r free.toFinset where
  below := fun x member => layout.inside x (List.mem_toFinset.mp member)
  closed := fun x member =>
    List.mem_toFinset.mpr (layout.toRp.next_mem (List.mem_toFinset.mp member))
  empty := fun x _ => empty x
  room := fun x => (empty x).trans_le (Nat.zero_le _)
  backed := fun x => (empty x).trans_le (Nat.zero_le _)
  capacity := by
    have sizes : ∀ x ∈ free.toFinset, r.mem.size x = blockSize := fun x member =>
      layout.sizes x (List.mem_toFinset.mp member)
    rw [Finset.sum_const_nat sizes, List.toFinset_card_of_nodup (by simpa using layout.nodup)]
    exact capacity
  rp := positions ▸ List.mem_toFinset.mpr (layout.toRp.start_mem spare)
  wp := List.mem_toFinset.mpr (layout.toRp.start_mem spare)

/-- **The blocks store no more than the ring has room for.** -/
theorem stored_le (ring : Blocks r blocks) : storedBytes r.mem ≤ r.size := by
  have inRing : storedBytes r.mem = ∑ x ∈ blocks, r.mem.bytes x := by
    refine (Finset.sum_subset ?_ fun x _ outside => ring.empty x outside).symm
    intro x member
    exact Finset.mem_range.mpr (ring.below x member).2
  rw [inRing, ring.capacity]
  exact Finset.sum_le_sum fun x _ => ring.room x

/-- A change of a block of the ring that keeps its link and its size. -/
theorem modify (ring : Blocks r blocks) {b : Nat} (member : b ∈ blocks)
    {f : Block UInt8 → Block UInt8} (next : (f (r.mem.block b)).next = (r.mem.block b).next)
    (size : (f (r.mem.block b)).size = (r.mem.block b).size)
    (room : (f (r.mem.block b)).bytes ≤ (r.mem.block b).size)
    (backed : (f (r.mem.block b)).bytes ≤ (f (r.mem.block b)).data.length) :
    Blocks { r with mem := r.mem.modify b f } blocks := by
  have sizes : ∀ x, (r.mem.modify b f).size x = r.mem.size x :=
    Mem.modify_field Block.size _ _ _ size
  refine ⟨ring.below, ?_, ?_, ?_, ring.backed.modify backed, ?_, ring.rp, ring.wp⟩
  · intro x inside
    have same : (r.mem.modify b f).next x = r.mem.next x := Mem.modify_field Block.next _ _ _ next x
    show (r.mem.modify b f).next x ∈ blocks
    rw [same]
    exact ring.closed x inside
  · intro x outside
    have apart : x ≠ b := fun same => outside (same ▸ member)
    exact (congrArg Block.bytes (Mem.modify_block_of_ne r.mem f apart)).trans (ring.empty x outside)
  · intro x
    show (r.mem.modify b f).bytes x ≤ (r.mem.modify b f).size x
    rw [sizes]
    by_cases here : x = b
    · subst here
      exact (congrArg Block.bytes (Mem.modify_block_self r.mem x f)).trans_le room
    · exact (congrArg Block.bytes (Mem.modify_block_of_ne r.mem f here)).trans_le (ring.room x)
  · show r.size = ∑ x ∈ blocks, (r.mem.modify b f).size x
    rw [ring.capacity]
    exact Finset.sum_congr rfl fun x _ => (sizes x).symm

end Blocks

/-! ## The invariant -/

/-- A list of new blocks, as a set, that is about to be linked into the ring. -/
structure Addition (m : Mem UInt8) (blocks : Finset Nat) (head tail added : Nat)
    (new : Finset Nat) : Prop where
  atHead : head ∈ new
  atTail : tail ∈ new
  apart : Disjoint blocks new
  below : ∀ x ∈ new, 0 < x ∧ x < m.brk
  linked : ∀ x ∈ new, x ≠ tail → m.next x ∈ new
  sizes : ∑ x ∈ new, m.size x = added

/-- What the writer knows. The block that it is going to fill is empty. -/
def writerCounts (r : Ring) (c : WriteCall) (blocks : Finset Nat) : WriterPc → Prop
  | .idle => r.mem.bytes r.wp = 0
  | .testState | .init | .setReady | .testLow | .lowHit | .clearLow | .loadWp =>
      r.mem.bytes r.wp = 0 ∧ c.written = 0
  | .size | .addBytes | .testHigh | .storeWp => c.b ∈ blocks ∧ r.mem.bytes c.b = 0
  | .copy n => (c.b ∈ blocks ∧ r.mem.bytes c.b = 0) ∧ n ≤ r.mem.size c.b ∧ n ≤ c.data.length
  | .setBytes n => (c.b ∈ blocks ∧ r.mem.bytes c.b = 0) ∧ n ≤ r.mem.size c.b ∧
      n ≤ (r.mem.data c.b).length ∧ n ≤ c.written
  | .loadNext => c.b ∈ blocks
  | .testNext next | .realloc next => c.b ∈ blocks ∧ next = r.mem.next c.b
  | .alloc next n => c.b ∈ blocks ∧ next = r.mem.next c.b ∧ 0 < n
  | .link next head tail added => c.b ∈ blocks ∧ next = r.mem.next c.b ∧
      ∃ new, Addition r.mem blocks head tail added new

/-- What the reader knows. The block that it takes bytes from still has them. -/
def readerCounts (m : Mem UInt8) (c : ReadCall) (blocks : Finset Nat) : ReaderPc → Prop
  | .idle | .loadRp => True
  | .copy n _ => c.b ∈ blocks ∧ 0 < n ∧ n ≤ m.bytes c.b
  | .move n | .take n _ => c.b ∈ blocks ∧ 0 < n ∧ n ≤ m.bytes c.b ∧ n ≤ c.out.length
  | _ => c.b ∈ blocks

/-- A ring that was never written: its blocks are empty and have no data, and the reader stays
where it is. -/
def Shared.Unwritten (s : Shared) (blocks : Finset Nat) : Prop :=
  ∃ free, free ≠ [] ∧ Layout s.ring.mem 0 s.ring.wp s.ring.wp [] free ∧ blocks = free.toFinset ∧
    s.ring.rp = s.ring.wp ∧ (s.reader.outside = false → s.get.b = s.ring.wp)

/-- How far the first write has come. -/
structure Shared.Progress (s : Shared) (blocks : Finset Nat) : Prop where
  grows : 0 < s.ring.blockRealloc
  sized : s.ring.state = .ready ∨ s.writer = .setReady → 0 < s.ring.blockSize
  started : s.writer.started = true → s.ring.state = .ready
  initial : s.writer = .init → s.ring.state = .noinit
  unwritten : s.ring.state = .noinit → s.writer ≠ .setReady → s.Unwritten blocks

/-- **The invariant.** The count and the bytes not yet added are, up to a multiple of `2 ^ 64`, the
bytes stored and those taken and not yet subtracted. -/
structure Shared.Counting (s : Shared) (blocks : Finset Nat) : Prop where
  ring : Blocks s.ring blocks
  writer : writerCounts s.ring s.put blocks s.writer
  reader : readerCounts s.ring.mem s.get blocks s.reader
  progress : s.Progress blocks
  bounded : s.ring.bytes < 2 ^ 64
  count : s.ring.bytes + s.uncounted ≡ storedBytes s.ring.mem + s.taken [MOD 2 ^ 64]

/-! ### Frames -/

/-- A step of the reader keeps what the writer knows: links and sizes stay, empty blocks stay empty
and no block loses room. -/
theorem writerCounts_frame {r r' : Ring} {c : WriteCall} {blocks : Finset Nat} {pc : WriterPc}
    (wp : r'.wp = r.wp) (brk : r'.mem.brk = r.mem.brk)
    (next : ∀ x, r'.mem.next x = r.mem.next x) (size : ∀ x, r'.mem.size x = r.mem.size x)
    (empty : ∀ x, r.mem.bytes x = 0 → r'.mem.bytes x = 0)
    (data : ∀ x, (r'.mem.data x).length = (r.mem.data x).length)
    (knows : writerCounts r c blocks pc) : writerCounts r' c blocks pc := by
  cases pc with
  | idle =>
      rw [writerCounts, wp]
      exact empty _ knows
  | testState | init | setReady | testLow | lowHit | clearLow | loadWp =>
      rw [writerCounts, wp]
      exact ⟨empty _ knows.1, knows.2⟩
  | size | addBytes | testHigh | storeWp => exact ⟨knows.1, empty _ knows.2⟩
  | copy n =>
      obtain ⟨⟨member, free⟩, fits, more⟩ := knows
      exact ⟨⟨member, empty _ free⟩, (size _).symm ▸ fits, more⟩
  | setBytes n =>
      obtain ⟨⟨member, free⟩, fits, held, more⟩ := knows
      exact ⟨⟨member, empty _ free⟩, (size _).symm ▸ fits, (data _).symm ▸ held, more⟩
  | loadNext => exact knows
  | testNext _ | realloc _ => exact ⟨knows.1, knows.2.trans (next _).symm⟩
  | alloc _ n => exact ⟨knows.1, knows.2.1.trans (next _).symm, knows.2.2⟩
  | link _ head tail added =>
      obtain ⟨member, link, new, ⟨atHead, atTail, apart, below, linked, sizes⟩⟩ := knows
      refine ⟨member, link.trans (next _).symm, new, ⟨atHead, atTail, apart, ?_, ?_, ?_⟩⟩
      · rw [brk]
        exact below
      · intro x inside notTail
        rw [next]
        exact linked x inside notTail
      · rw [← sizes]
        exact Finset.sum_congr rfl fun x _ => size x

/-- A step of the writer keeps what the reader knows: the ring loses no block and no block of it
loses bytes. -/
theorem readerCounts_frame {m m' : Mem UInt8} {c : ReadCall} {blocks blocks' : Finset Nat}
    {pc : ReaderPc} (more : blocks ⊆ blocks') (bytes : ∀ x ∈ blocks, m.bytes x ≤ m'.bytes x)
    (knows : readerCounts m c blocks pc) : readerCounts m' c blocks' pc := by
  cases pc with
  | idle | loadRp => trivial
  | loadFlush | testMin | loop | subBytes | storeRp => exact more knows
  | copy n partialRead =>
      obtain ⟨member, positive, held⟩ := knows
      exact ⟨more member, positive, Nat.le_trans held (bytes _ member)⟩
  | move n | take n partialRead =>
      obtain ⟨member, positive, held, copied⟩ := knows
      exact ⟨more member, positive, Nat.le_trans held (bytes _ member), copied⟩

namespace Shared.Counting

variable {s t : Shared} {blocks : Finset Nat}

/-- A byte in a block shows that the ring was written. -/
theorem written_of_pos (inv : s.Counting blocks) {x : Nat} (positive : 0 < s.ring.mem.bytes x)
    (fresh : s.ring.state = .noinit) (before : s.writer ≠ .setReady) : False := by
  obtain ⟨free, -, layout, rfl, -⟩ := inv.progress.unwritten fresh before
  by_cases member : x ∈ free
  · have empty := layout.empty x member
    omega
  · have empty := inv.ring.empty x (by simpa using member)
    omega

/-- A step that leaves the blocks and the count alone. -/
theorem goto (inv : s.Counting blocks) (mem : t.ring.mem = s.ring.mem)
    (size : t.ring.size = s.ring.size) (bytes : t.ring.bytes = s.ring.bytes)
    (rp : t.ring.rp ∈ blocks) (wp : t.ring.wp ∈ blocks)
    (writer : writerCounts t.ring t.put blocks t.writer)
    (reader : readerCounts t.ring.mem t.get blocks t.reader) (progress : t.Progress blocks)
    (uncounted : t.uncounted = s.uncounted) (taken : t.taken = s.taken) : t.Counting blocks where
  ring :=
    { below := mem ▸ inv.ring.below
      closed := mem ▸ inv.ring.closed
      empty := mem ▸ inv.ring.empty
      room := mem ▸ inv.ring.room
      backed := mem ▸ inv.ring.backed
      capacity := by rw [size, mem]; exact inv.ring.capacity
      rp := rp
      wp := wp }
  writer := writer
  reader := reader
  progress := progress
  bounded := bytes ▸ inv.bounded
  count := by
    rw [bytes, mem, uncounted, taken]
    exact inv.count

end Shared.Counting

/-! ## Steps of the reader -/

/-- A step of the reader that leaves the writer and its fields of the ring alone. -/
theorem Shared.Progress.reader {s t : Shared} {blocks : Finset Nat} (progress : s.Progress blocks)
    (writer : t.writer = s.writer) (state : t.ring.state = s.ring.state)
    (blockSize : t.ring.blockSize = s.ring.blockSize)
    (blockRealloc : t.ring.blockRealloc = s.ring.blockRealloc)
    (unwritten : s.ring.state = .noinit → s.writer ≠ .setReady → s.Unwritten blocks →
      t.Unwritten blocks) : t.Progress blocks where
  grows := blockRealloc ▸ progress.grows
  sized := by
    rw [writer, state, blockSize]
    exact progress.sized
  started := by
    rw [writer, state]
    exact progress.started
  initial := by
    rw [writer, state]
    exact progress.initial
  unwritten := by
    rw [writer, state]
    exact fun fresh before => unwritten fresh before (progress.unwritten fresh before)

theorem sizeSub_add (a b : Nat) : sizeSub a b + b ≡ a [MOD 2 ^ 64] := by
  have small : b % 2 ^ 64 < 2 ^ 64 := Nat.mod_lt _ (by decide)
  have parts := Nat.div_add_mod b (2 ^ 64)
  have total : a + (2 ^ 64 - b % 2 ^ 64) + b = a + 2 ^ 64 * (b / 2 ^ 64 + 1) := by omega
  calc sizeSub a b + b ≡ a + (2 ^ 64 - b % 2 ^ 64) + b [MOD 2 ^ 64] :=
        (Nat.mod_modEq _ _).add_right b
    _ = a + 2 ^ 64 * (b / 2 ^ 64 + 1) := total
    _ ≡ a [MOD 2 ^ 64] := Nat.add_mul_mod_self_left ..

namespace Shared.Counting

variable {s t : Shared} {blocks : Finset Nat}

/-- A change of the block that the reader works on: links, sizes and the room for data stay, and the
block does not get more bytes. -/
theorem modify_read (inv : s.Counting blocks) {n : Nat} {f : Block UInt8 → Block UInt8}
    (member : s.get.b ∈ blocks) (positive : 0 < n) (held : n ≤ s.ring.mem.bytes s.get.b)
    (mem : t.ring = { s.ring with mem := s.ring.mem.modify s.get.b f })
    (put : t.put = s.put) (writer : t.writer = s.writer)
    (next : (f (s.ring.mem.block s.get.b)).next = (s.ring.mem.block s.get.b).next)
    (size : (f (s.ring.mem.block s.get.b)).size = (s.ring.mem.block s.get.b).size)
    (fewer : (f (s.ring.mem.block s.get.b)).bytes ≤ (s.ring.mem.block s.get.b).bytes)
    (data : (f (s.ring.mem.block s.get.b)).data.length =
      (s.ring.mem.block s.get.b).data.length)
    (reader : readerCounts t.ring.mem t.get blocks t.reader)
    (taken : (f (s.ring.mem.block s.get.b)).bytes + t.taken =
      s.ring.mem.bytes s.get.b + s.taken) : t.Counting blocks := by
  have stored := storedBytes_modify (inv.ring.below _ member).2 f
  have room : (s.ring.mem.block s.get.b).bytes ≤ (s.ring.mem.block s.get.b).size :=
    inv.ring.room s.get.b
  have backed : (s.ring.mem.block s.get.b).bytes ≤ (s.ring.mem.block s.get.b).data.length :=
    inv.ring.backed s.get.b
  have uncounted : t.uncounted = s.uncounted := by simp only [Shared.uncounted, writer, put]
  refine ⟨?_, ?_, reader, ?_, ?_, ?_⟩
  · rw [mem]
    exact inv.ring.modify member next size (Nat.le_trans fewer room)
      (Nat.le_trans fewer (data ▸ backed))
  · rw [mem, put, writer]
    refine writerCounts_frame (r := s.ring) rfl rfl ?_ ?_ ?_ ?_ inv.writer
    · exact Mem.modify_field Block.next _ _ _ next
    · exact Mem.modify_field Block.size _ _ _ size
    · intro x empty
      have apart : x ≠ s.get.b := by
        rintro rfl
        omega
      exact (congrArg Block.bytes (Mem.modify_block_of_ne _ f apart)).trans empty
    · exact Mem.modify_field (fun block => block.data.length) _ _ _ data
  · refine inv.progress.reader writer (by rw [mem]) (by rw [mem]) (by rw [mem]) ?_
    intro fresh before _
    exact (inv.written_of_pos (Nat.lt_of_lt_of_le positive held) fresh before).elim
  · rw [mem]
    exact inv.bounded
  · have equal : storedBytes t.ring.mem + t.taken = storedBytes s.ring.mem + s.taken := by
      rw [mem]
      simp only
      omega
    rw [equal, uncounted, mem]
    exact inv.count

/-- A step of the reader that changes only its own variables. On a ring that was never written it
stays at the write position. -/
theorem goto_reader (inv : s.Counting blocks) {c : ReadCall} {pc : ReaderPc}
    (reader : readerCounts s.ring.mem c blocks pc)
    (stays : s.Unwritten blocks → pc.outside = false → c.b = s.ring.wp)
    (taken : Shared.taken { s with get := c, reader := pc } = s.taken) :
    Shared.Counting { s with get := c, reader := pc } blocks := by
  refine inv.goto rfl rfl rfl inv.ring.rp inv.ring.wp inv.writer reader ?_ rfl taken
  refine inv.progress.reader rfl rfl rfl rfl fun _ _ unwritten => ?_
  have position := stays unwritten
  obtain ⟨free, spare, layout, same, positions, -⟩ := unwritten
  exact ⟨free, spare, layout, same, positions, position⟩

/-- The same for a step inside the call that does not move the reader. -/
theorem goto_inside (inv : s.Counting blocks) {c : ReadCall} {pc : ReaderPc}
    (inside : s.reader.outside = false) (position : c.b = s.get.b)
    (reader : readerCounts s.ring.mem c blocks pc)
    (taken : Shared.taken { s with get := c, reader := pc } = s.taken) :
    Shared.Counting { s with get := c, reader := pc } blocks := by
  refine inv.goto_reader reader ?_ taken
  rintro ⟨-, -, -, -, -, stays⟩ _
  exact position.trans (stays inside)

/-- The loop of a read either ends or picks a number of bytes that the block has. -/
theorem reader_loop (inv : s.Counting blocks) (pc : s.reader = .loop)
    (step : readerStep s = some t) : t.Counting blocks := by
  have member : readerCounts s.ring.mem s.get blocks .loop := pc ▸ inv.reader
  have inside : s.reader.outside = false := by rw [pc]; rfl
  simp only [readerStep, pc] at step
  split_ifs at step with finished empty less
  · cases step
    exact inv.goto_inside inside rfl member (by simp [Shared.taken, pc])
  · cases step
    exact inv.goto_inside inside rfl member (by simp [Shared.taken, pc])
  · cases step
    exact inv.goto_inside inside rfl ⟨member, Nat.pos_of_ne_zero finished, Nat.le_of_lt less⟩
      (by simp [Shared.taken, pc])
  · cases step
    exact inv.goto_inside inside rfl ⟨member, Nat.pos_of_ne_zero empty, Nat.le_refl _⟩
      (by simp [Shared.taken, pc])

/-- The reader copies bytes out of its block, which still has them. -/
theorem reader_copy (inv : s.Counting blocks) {n : Nat} {partialRead : Bool}
    (pc : s.reader = .copy n partialRead) (step : readerStep s = some t) :
    t.Counting blocks := by
  obtain ⟨member, positive, held⟩ :
    readerCounts s.ring.mem s.get blocks (.copy n partialRead) := pc ▸ inv.reader
  have inside : s.reader.outside = false := by rw [pc]; rfl
  have copied : ((s.ring.mem.data s.get.b).take n).length = n :=
    List.length_take_of_le (Nat.le_trans held (inv.ring.backed _))
  simp only [readerStep, pc, Option.some.injEq] at step
  subst step
  cases partialRead with
  | true =>
      exact inv.goto_inside inside rfl ⟨member, positive, held, by simp [copied]⟩
        (by simp [Shared.taken, pc, copied])
  | false =>
      exact inv.goto_inside inside rfl ⟨member, positive, held, by simp [copied]⟩
        (by simp [Shared.taken, pc, copied])

/-- The reader moves the rest of its block to the front. -/
theorem reader_move (inv : s.Counting blocks) {n : Nat} (pc : s.reader = .move n)
    (step : readerStep s = some t) : t.Counting blocks := by
  obtain ⟨member, positive, held, copied⟩ :
    readerCounts s.ring.mem s.get blocks (.move n) := pc ▸ inv.reader
  have backed : (s.ring.mem.block s.get.b).bytes ≤ (s.ring.mem.block s.get.b).data.length :=
    inv.ring.backed s.get.b
  have held' : n ≤ (s.ring.mem.block s.get.b).bytes := held
  simp only [readerStep, pc, Option.some.injEq] at step
  subst step
  refine inv.modify_read member positive held rfl rfl rfl rfl rfl (Nat.le_refl _) ?_ ?_ ?_
  · simp only [shiftData, List.length_append, List.length_take, List.length_drop]
    omega
  · refine ⟨member, positive, ?_, copied⟩
    have same : (s.ring.mem.modify s.get.b (shiftData n)).bytes s.get.b =
        s.ring.mem.bytes s.get.b := Mem.modify_field Block.bytes _ _ _ rfl _
    exact same ▸ held
  · simp [Shared.taken, pc, shiftData, Mem.bytes]

/-- The reader takes the bytes that it has copied. -/
theorem reader_take (inv : s.Counting blocks) {n : Nat} {partialRead : Bool}
    (pc : s.reader = .take n partialRead) (step : readerStep s = some t) :
    t.Counting blocks := by
  obtain ⟨member, positive, held, copied⟩ :
    readerCounts s.ring.mem s.get blocks (.take n partialRead) := pc ▸ inv.reader
  have held' : n ≤ (s.ring.mem.block s.get.b).bytes := held
  have next : (s.ring.mem.modify s.get.b (takeBytes n)).next s.get.b =
      s.ring.mem.next s.get.b := Mem.modify_field Block.next _ _ _ rfl _
  simp only [readerStep, pc, Option.some.injEq] at step
  subst step
  refine inv.modify_read member positive held rfl rfl rfl rfl rfl (Nat.sub_le ..) rfl ?_ ?_
  · show (if partialRead then s.get.b else
      (s.ring.mem.modify s.get.b (takeBytes n)).next s.get.b) ∈ blocks
    split
    · exact member
    · rw [next]
      exact inv.ring.closed _ member
  · simp only [Shared.taken, pc, takeBytes, Mem.bytes]
    omega

/-- The reader subtracts what it has taken. -/
theorem reader_sub (inv : s.Counting blocks) (pc : s.reader = .subBytes)
    (step : readerStep s = some t) :
    t.Counting blocks ∧ t.ring.bytes + s.uncounted ≡ storedBytes s.ring.mem [MOD 2 ^ 64] ∧
      t.ring.size = s.ring.size ∧ t.ring.bytes < 2 ^ 64 := by
  have member : readerCounts s.ring.mem s.get blocks .subBytes := pc ▸ inv.reader
  have taken : s.taken = s.get.out.length := by simp [Shared.taken, pc]
  simp only [readerStep, pc, Option.some.injEq] at step
  subst step
  have small : sizeSub s.ring.bytes s.get.out.length < 2 ^ 64 := Nat.mod_lt _ (by decide)
  have settled : sizeSub s.ring.bytes s.get.out.length + s.uncounted ≡
      storedBytes s.ring.mem [MOD 2 ^ 64] := by
    have before := inv.count
    rw [taken] at before
    have after := (sizeSub_add s.ring.bytes s.get.out.length).add_right s.uncounted
    refine Nat.ModEq.add_right_cancel' s.get.out.length ?_
    rw [Nat.add_right_comm]
    exact after.trans before
  refine ⟨⟨?_, ?_, member, ?_, small, ?_⟩, settled, rfl, small⟩
  · obtain ⟨below, closed, empty, room, backed, capacity, rp, wp⟩ := inv.ring
    exact ⟨below, closed, empty, room, backed, capacity, rp, wp⟩
  · exact writerCounts_frame (r := s.ring) rfl rfl (fun _ => rfl) (fun _ => rfl) (fun _ => id)
      (fun _ => rfl) inv.writer
  · refine inv.progress.reader rfl rfl rfl rfl ?_
    rintro - - ⟨free, spare, layout, same, positions, stays⟩
    exact ⟨free, spare, layout, same, positions, fun _ => stays (by rw [pc]; rfl)⟩
  · exact settled

/-- The reader stores its position. -/
theorem reader_store (inv : s.Counting blocks) (pc : s.reader = .storeRp)
    (step : readerStep s = some t) : t.Counting blocks := by
  have member : readerCounts s.ring.mem s.get blocks .storeRp := pc ▸ inv.reader
  have taken : s.taken = 0 := by simp [Shared.taken, pc]
  have same : ∀ side reports, Shared.Counting
      { s with
        ring := { s.ring with rp := s.get.b, ioRead := side }
        reader := .idle
        reports := reports } blocks := by
    intro side reports
    refine inv.goto rfl rfl rfl member inv.ring.wp ?_ trivial ?_ rfl taken.symm
    · exact writerCounts_frame (r := s.ring) rfl rfl (fun _ => rfl) (fun _ => rfl) (fun _ => id)
        (fun _ => rfl) inv.writer
    · refine inv.progress.reader rfl rfl rfl rfl ?_
      rintro - - ⟨free, spare, layout, same, positions, stays⟩
      exact ⟨free, spare, layout, same, stays (by rw [pc]; rfl), fun inside => by cases inside⟩
  simp only [readerStep, pc] at step
  split_ifs at step
  · cases step
    exact same .disabling _
  · cases step
    exact same s.ring.ioRead _

/-- **Every step of the reader keeps the account.** -/
theorem reader_step (inv : s.Counting blocks) (step : readerStep s = some t) :
    t.Counting blocks := by
  cases pc : s.reader with
  | idle => simp [readerStep, pc] at step
  | loadRp =>
      simp only [readerStep, pc, Option.some.injEq] at step
      subst step
      refine inv.goto_reader inv.ring.rp ?_ (by simp [Shared.taken, pc])
      rintro ⟨-, -, -, -, positions, -⟩ _
      exact positions
  | loadFlush =>
      have member : readerCounts s.ring.mem s.get blocks .loadFlush := pc ▸ inv.reader
      simp only [readerStep, pc, Option.some.injEq] at step
      subst step
      exact inv.goto_inside (by rw [pc]; rfl) rfl member (by simp [Shared.taken, pc])
  | testMin =>
      have member : readerCounts s.ring.mem s.get blocks .testMin := pc ▸ inv.reader
      simp only [readerStep, pc, Option.some.injEq] at step
      subst step
      exact inv.goto_inside (by rw [pc]; rfl) rfl member (by simp [Shared.taken, pc])
  | loop => exact inv.reader_loop pc step
  | copy n partialRead => exact inv.reader_copy pc step
  | move n => exact inv.reader_move pc step
  | take n partialRead => exact inv.reader_take pc step
  | subBytes => exact (inv.reader_sub pc step).1
  | storeRp => exact inv.reader_store pc step

end Shared.Counting

/-! ## Steps of the writer -/

/-- The properties of all blocks that an allocation keeps. -/
theorem lasting_blocks (blocks : Finset Nat) :
    Lasting fun (x : Nat) (block : Block UInt8) => (x ∉ blocks → block.bytes = 0) ∧
      block.bytes ≤ block.size ∧ block.bytes ≤ block.data.length where
  new := fun _ => ⟨fun _ => rfl, Nat.le_refl _, Nat.le_refl _⟩
  relink := fun _ _ _ held => held
  clear := fun _ _ _ _ => ⟨fun _ => rfl, Nat.zero_le _, Nat.le_refl _⟩

/-- Newly allocated blocks can be added to the ring. -/
theorem addition_of_fresh {m m' : Mem UInt8} {blocks : Finset Nat} {blockSize head tail : Nat}
    {init : List Nat} (below : ∀ x ∈ blocks, x < m.brk) (allocated : 0 < m.brk)
    (fresh : FreshList m m' blockSize head (init ++ [tail])) :
    Addition m' blocks head tail ((init ++ [tail]).length * blockSize)
      (init ++ [tail]).toFinset where
  atHead := List.mem_toFinset.mpr (fresh.chain.start_mem (by simp))
  atTail := by simp
  apart := by
    refine Finset.disjoint_left.mpr fun x inside new => ?_
    have above := (fresh.fresh x (List.mem_toFinset.mp new)).1
    have bound := below x inside
    omega
  below := by
    intro x new
    have bound := fresh.fresh x (List.mem_toFinset.mp new)
    exact ⟨by omega, bound.2⟩
  linked := by
    intro x new notTail
    have inInit : x ∈ init := by simpa [notTail] using new
    rcases (chain_concat.mp fresh.chain).1.next_mem_or inInit with later | last
    · exact List.mem_toFinset.mpr (List.mem_append_left _ later)
    · exact List.mem_toFinset.mpr (by simp [last])
  sizes := by
    rw [Finset.sum_const_nat fun x new => fresh.sizes x (List.mem_toFinset.mp new),
      List.toFinset_card_of_nodup fresh.nodup]

namespace Shared.Counting

variable {s t : Shared} {blocks : Finset Nat}

/-- Past the test of the state the blocks have their data. -/
theorem ready (inv : s.Counting blocks) (started : s.writer.started = true) :
    s.ring.state = .ready ∧ 0 < s.ring.blockSize :=
  ⟨inv.progress.started started, inv.progress.sized (.inl (inv.progress.started started))⟩

theorem progress_ready (grows : 0 < t.ring.blockRealloc) (ready : t.ring.state = .ready)
    (sized : 0 < t.ring.blockSize) (past : t.writer ≠ .init) : t.Progress blocks where
  grows := grows
  sized := fun _ => sized
  started := fun _ => ready
  initial := fun init => absurd init past
  unwritten := fun fresh => by cases ready.symm.trans fresh

/-- The bytes not yet added, compared at the place where the writer stands. -/
theorem uncounted_at {pc : WriterPc} (here : s.writer = pc)
    (same : t.uncounted = Shared.uncounted { s with writer := pc }) :
    t.uncounted = s.uncounted := by
  rw [same, ← here]

/-- A step of a writer past the test of the state that leaves the blocks and the count alone. -/
theorem goto_writer (inv : s.Counting blocks) (started : s.writer.started = true)
    (reader : t.reader = s.reader) (get : t.get = s.get) (mem : t.ring.mem = s.ring.mem)
    (size : t.ring.size = s.ring.size) (bytes : t.ring.bytes = s.ring.bytes)
    (rp : t.ring.rp = s.ring.rp) (wp : t.ring.wp ∈ blocks) (state : t.ring.state = s.ring.state)
    (blockSize : t.ring.blockSize = s.ring.blockSize) (grows : 0 < t.ring.blockRealloc)
    (past : t.writer ≠ .init) (writer : writerCounts t.ring t.put blocks t.writer)
    (uncounted : t.uncounted = s.uncounted) : t.Counting blocks := by
  obtain ⟨isReady, sized⟩ := inv.ready started
  refine inv.goto mem size bytes (rp ▸ inv.ring.rp) wp writer ?_ ?_ uncounted ?_
  · rw [mem, get, reader]
    exact inv.reader
  · exact progress_ready grows (state.trans isReady) (blockSize ▸ sized) past
  · simp only [Shared.taken, reader, get]

/-- The same for a step that changes nothing but where the writer stands. -/
theorem goto_pc (inv : s.Counting blocks) {pc : WriterPc} (started : s.writer.started = true)
    (past : pc ≠ .init) (writer : writerCounts s.ring s.put blocks pc)
    (uncounted : Shared.uncounted { s with writer := pc } = s.uncounted) :
    Shared.Counting { s with writer := pc } blocks :=
  inv.goto_writer started rfl rfl rfl rfl rfl rfl inv.ring.wp rfl rfl inv.progress.grows past writer
    uncounted

/-- A change of the block that the writer fills, which is empty: links and sizes stay. -/
theorem modify_write (inv : s.Counting blocks) {f : Block UInt8 → Block UInt8}
    (started : s.writer.started = true) (member : s.put.b ∈ blocks)
    (empty : s.ring.mem.bytes s.put.b = 0) (reader : t.reader = s.reader) (get : t.get = s.get)
    (mem : t.ring = { s.ring with mem := s.ring.mem.modify s.put.b f })
    (next : (f (s.ring.mem.block s.put.b)).next = (s.ring.mem.block s.put.b).next)
    (size : (f (s.ring.mem.block s.put.b)).size = (s.ring.mem.block s.put.b).size)
    (room : (f (s.ring.mem.block s.put.b)).bytes ≤ (s.ring.mem.block s.put.b).size)
    (backed : (f (s.ring.mem.block s.put.b)).bytes ≤ (f (s.ring.mem.block s.put.b)).data.length)
    (past : t.writer ≠ .init) (writer : writerCounts t.ring t.put blocks t.writer)
    (uncounted : t.uncounted = s.uncounted + (f (s.ring.mem.block s.put.b)).bytes) :
    t.Counting blocks := by
  obtain ⟨isReady, sized⟩ := inv.ready started
  have stored := storedBytes_modify (inv.ring.below _ member).2 f
  have taken : t.taken = s.taken := by simp only [Shared.taken, reader, get]
  refine ⟨?_, writer, ?_, ?_, ?_, ?_⟩
  · rw [mem]
    exact inv.ring.modify member next size room backed
  · rw [mem, get, reader]
    refine readerCounts_frame (Finset.Subset.refl _) (fun x _ => ?_) inv.reader
    by_cases here : x = s.put.b
    · rw [here, empty]
      exact Nat.zero_le _
    · exact (congrArg Block.bytes (Mem.modify_block_of_ne s.ring.mem f here)).ge
  · refine progress_ready ?_ ?_ ?_ past <;> rw [mem]
    · exact inv.progress.grows
    · exact isReady
    · exact sized
  · rw [mem]
    exact inv.bounded
  · have more : storedBytes t.ring.mem =
        storedBytes s.ring.mem + (f (s.ring.mem.block s.put.b)).bytes := by
      rw [mem]
      simp only
      omega
    have count := inv.count.add_right (f (s.ring.mem.block s.put.b)).bytes
    rw [more, taken, uncounted, mem, ← Nat.add_assoc, Nat.add_right_comm _ _ s.taken]
    exact count

/-- The writer copies bytes into its block. -/
theorem writer_copy (inv : s.Counting blocks) {host : Host} {n : Nat} (pc : s.writer = .copy n)
    (step : writerStep host s = some t) : t.Counting blocks := by
  obtain ⟨⟨member, empty⟩, fits, more⟩ : writerCounts s.ring s.put blocks (.copy n) :=
    pc ▸ inv.writer
  have zero : (s.ring.mem.block s.put.b).bytes = 0 := empty
  have length : (s.put.data.take n).length = n := List.length_take_of_le more
  have size : (s.ring.mem.modify s.put.b (storeData (s.put.data.take n))).size s.put.b =
      s.ring.mem.size s.put.b := Mem.modify_field Block.size _ _ _ rfl _
  have bytes : (s.ring.mem.modify s.put.b (storeData (s.put.data.take n))).bytes s.put.b =
      s.ring.mem.bytes s.put.b := Mem.modify_field Block.bytes _ _ _ rfl _
  have data : (s.ring.mem.modify s.put.b (storeData (s.put.data.take n))).data s.put.b =
      s.put.data.take n ++ (s.ring.mem.data s.put.b).drop (s.put.data.take n).length :=
    congrArg Block.data (Mem.modify_block_self s.ring.mem s.put.b _)
  simp only [writerStep, pc, Option.some.injEq] at step
  subst step
  refine inv.modify_write (by rw [pc]; rfl) member empty rfl rfl rfl rfl rfl ?_ ?_ (by rintro ⟨⟩)
    ?_ ?_
  · exact zero ▸ Nat.zero_le _
  · exact zero ▸ Nat.zero_le _
  · refine ⟨⟨member, bytes.trans empty⟩, ?_, ?_, Nat.le_add_left ..⟩
    · rw [size]
      exact fits
    · show n ≤ ((s.ring.mem.modify s.put.b (storeData (s.put.data.take n))).data s.put.b).length
      rw [data, List.length_append, length]
      exact Nat.le_add_right ..
  · simp [Shared.uncounted, pc, storeData, zero, WriterPc.inside]

/-- The writer releases the block it has filled. -/
theorem writer_release (inv : s.Counting blocks) {host : Host} {n : Nat}
    (pc : s.writer = .setBytes n) (step : writerStep host s = some t) : t.Counting blocks := by
  obtain ⟨⟨member, empty⟩, fits, held, more⟩ : writerCounts s.ring s.put blocks (.setBytes n) :=
    pc ▸ inv.writer
  simp only [writerStep, pc, Option.some.injEq] at step
  subst step
  refine inv.modify_write (by rw [pc]; rfl) member empty rfl rfl rfl rfl rfl fits held
    (by rintro ⟨⟩) member ?_
  simp only [Shared.uncounted, pc, setBytes, WriterPc.inside, WriterPc.ahead, if_true]
  omega

/-- The writer adds its bytes to the count. -/
theorem writer_add (inv : s.Counting blocks) {host : Host} (pc : s.writer = .addBytes)
    (step : writerStep host s = some t) :
    t.Counting blocks ∧ t.ring.bytes ≡ storedBytes s.ring.mem + s.taken [MOD 2 ^ 64] ∧
      t.ring.size = s.ring.size ∧ t.ring.bytes < 2 ^ 64 := by
  have knows : writerCounts s.ring s.put blocks .addBytes := pc ▸ inv.writer
  obtain ⟨isReady, sized⟩ := inv.ready (by rw [pc]; rfl)
  have uncounted : s.uncounted = s.put.written := by
    simp [Shared.uncounted, pc, WriterPc.inside]
  simp only [writerStep, pc, Option.some.injEq] at step
  subst step
  have small : sizeAdd s.ring.bytes s.put.written < 2 ^ 64 := Nat.mod_lt _ (by decide)
  have settled : sizeAdd s.ring.bytes s.put.written ≡ storedBytes s.ring.mem + s.taken
      [MOD 2 ^ 64] := by
    have count := inv.count
    rw [uncounted] at count
    exact (Nat.mod_modEq _ _).trans count
  refine ⟨⟨?_, knows, inv.reader, progress_ready inv.progress.grows isReady sized (by rintro ⟨⟩),
    small, settled⟩, settled, rfl, small⟩
  obtain ⟨below, closed, empty, room, backed, capacity, rp, wp⟩ := inv.ring
  exact ⟨below, closed, empty, room, backed, capacity, rp, wp⟩

/-- The writer allocates new blocks, which are not yet part of the ring. -/
theorem writer_alloc (inv : s.Counting blocks) {host : Host} {next n : Nat}
    (pc : s.writer = .alloc next n)
    (room : s.ring.blockSize < host.freeram s.ring.allocs s.ring.blockSize)
    (step : writerStep host s = some t) : t.Counting blocks := by
  obtain ⟨member, link, some⟩ : writerCounts s.ring s.put blocks (.alloc next n) :=
    pc ▸ inv.writer
  obtain ⟨isReady, sized⟩ := inv.ready (by rw [pc]; rfl)
  have allocated : 0 < s.ring.mem.brk := by
    have bound := inv.ring.below _ member
    omega
  obtain ⟨m, head, added, nonempty, fresh, alloc⟩ := allocBlocks_fresh room some allocated sized
  obtain ⟨init, tail, rfl⟩ : ∃ init tail, added = init ++ [tail] :=
    ⟨added.dropLast, added.getLast nonempty, (List.dropLast_append_getLast _).symm⟩
  have tailEq : listTail m m.brk head = tail :=
    fresh.listTail_eq (by omega) (fun _ _ => rfl) rfl
  have bytes : (init ++ [tail]).length * s.ring.blockSize ≠ 0 :=
    Nat.pos_iff_ne_zero.mp (Nat.mul_pos (by simp) sized)
  have old : ∀ x ∈ blocks, m.block x = s.ring.mem.block x := fun x inside =>
    fresh.older x (inv.ring.below x inside).2
  have before : EachBlock (fun x block => (x ∉ blocks → block.bytes = 0) ∧
      block.bytes ≤ block.size ∧ block.bytes ≤ block.data.length) s.ring.mem := fun x =>
    ⟨inv.ring.empty x, inv.ring.room x, inv.ring.backed x⟩
  have each := before.allocBlocks (lasting_blocks blocks) host n
  rw [alloc] at each
  have same : ∀ x, m.bytes x = s.ring.mem.bytes x := by
    intro x
    by_cases inside : x ∈ blocks
    · exact congrArg Block.bytes (old x inside)
    · exact ((each x).1 inside).trans (inv.ring.empty x inside).symm
  have total : storedBytes m = storedBytes s.ring.mem := by
    refine storedBytes_grown fresh.grows same fun x beyond => inv.ring.empty x fun inside => ?_
    have bound := inv.ring.below x inside
    omega
  simp only [writerStep, pc, alloc, if_neg bytes, tailEq, Option.some.injEq] at step
  subst step
  refine ⟨⟨?_, ?_, fun x => (each x).1, fun x => (each x).2.1, fun x => (each x).2.2, ?_,
    inv.ring.rp, inv.ring.wp⟩, ⟨member, ?_, (init ++ [tail]).toFinset, ?_⟩, ?_,
    progress_ready inv.progress.grows isReady sized (by rintro ⟨⟩), inv.bounded, ?_⟩
  · intro x inside
    have bound := inv.ring.below x inside
    exact ⟨bound.1, Nat.lt_of_lt_of_le bound.2 fresh.grows⟩
  · intro x inside
    have kept : m.next x = s.ring.mem.next x := congrArg Block.next (old x inside)
    show m.next x ∈ blocks
    rw [kept]
    exact inv.ring.closed x inside
  · show s.ring.size = ∑ x ∈ blocks, m.size x
    rw [inv.ring.capacity]
    exact Finset.sum_congr rfl fun x inside => (congrArg Block.size (old x inside)).symm
  · exact link.trans (congrArg Block.next (old _ member)).symm
  · exact addition_of_fresh (fun x inside => (inv.ring.below x inside).2) allocated fresh
  · refine readerCounts_frame (Finset.Subset.refl _) (fun x _ => ?_) inv.reader
    exact (same x).ge
  · have count := inv.count
    simp only [Shared.uncounted, pc, WriterPc.inside, WriterPc.ahead, if_true] at count
    simp only [Shared.uncounted, WriterPc.inside, WriterPc.ahead, if_true]
    rw [total]
    exact count

/-- **The writer links the new blocks into the ring.** -/
theorem writer_link (inv : s.Counting blocks) {host : Host} {next head tail added : Nat}
    (pc : s.writer = .link next head tail added) (step : writerStep host s = some t) :
    ∃ blocks', t.Counting blocks' := by
  obtain ⟨member, rfl, new, addition⟩ :
    writerCounts s.ring s.put blocks (.link next head tail added) := pc ▸ inv.writer
  obtain ⟨isReady, sized⟩ := inv.ready (by rw [pc]; rfl)
  generalize mem : Layout.spliced s.ring.mem s.put.b head tail (s.ring.mem.next s.put.b) = m
  have bytes : ∀ x, m.bytes x = s.ring.mem.bytes x := by
    rw [← mem]
    exact Layout.spliced_field Block.bytes (fun _ _ => rfl) _ _ _ _ _
  have size : ∀ x, m.size x = s.ring.mem.size x := by
    rw [← mem]
    exact Layout.spliced_field Block.size (fun _ _ => rfl) _ _ _ _ _
  have data : ∀ x, m.data x = s.ring.mem.data x := by
    rw [← mem]
    exact Layout.spliced_field Block.data (fun _ _ => rfl) _ _ _ _ _
  have brk : m.brk = s.ring.mem.brk := by rw [← mem]; rfl
  have differ : s.put.b ≠ tail := fun same =>
    Finset.disjoint_left.mp addition.apart member (same ▸ addition.atTail)
  have atTail : m.next tail = s.ring.mem.next s.put.b := by
    simp [← mem, Layout.spliced, Mem.next]
  have atB : m.next s.put.b = head := by
    simp [← mem, Layout.spliced, Mem.next, Mem.modify_block_of_ne _ _ differ]
  have elsewhere : ∀ x, x ≠ s.put.b → x ≠ tail → m.next x = s.ring.mem.next x := by
    intro x notB notTail
    simp [← mem, Layout.spliced, Mem.next, Mem.modify_block_of_ne _ _ notTail,
      Mem.modify_block_of_ne _ _ notB]
  have fresh : s.ring.mem.bytes head = 0 :=
    inv.ring.empty head fun inside => Finset.disjoint_left.mp addition.apart inside addition.atHead
  simp only [writerStep, pc, Ring.link, mem, Option.some.injEq] at step
  subst step
  refine ⟨blocks ∪ new, ⟨?_, ?_, ?_, ?_, ?_, ?_, ?_, ?_⟩, ?_, ?_,
    progress_ready inv.progress.grows isReady sized (by rintro ⟨⟩), inv.bounded, ?_⟩
  · intro x inside
    rw [brk]
    rcases Finset.mem_union.mp inside with old | added
    · exact inv.ring.below x old
    · exact addition.below x added
  · intro x inside
    show m.next x ∈ blocks ∪ new
    by_cases last : x = tail
    · rw [last, atTail]
      exact Finset.mem_union_left _ (inv.ring.closed _ member)
    · by_cases here : x = s.put.b
      · rw [here, atB]
        exact Finset.mem_union_right _ addition.atHead
      · rw [elsewhere x here last]
        rcases Finset.mem_union.mp inside with old | added
        · exact Finset.mem_union_left _ (inv.ring.closed x old)
        · exact Finset.mem_union_right _ (addition.linked x added last)
  · intro x outside
    exact (bytes x).trans (inv.ring.empty x fun old => outside (Finset.mem_union_left _ old))
  · intro x
    show m.bytes x ≤ m.size x
    rw [bytes, size]
    exact inv.ring.room x
  · intro x
    rw [bytes, data]
    exact inv.ring.backed x
  · show s.ring.size + added = ∑ x ∈ blocks ∪ new, m.size x
    rw [Finset.sum_union addition.apart, Finset.sum_congr rfl fun x _ => size x, inv.ring.capacity,
      Finset.sum_congr rfl fun x _ => size x, addition.sizes]
  · exact Finset.mem_union_left _ inv.ring.rp
  · exact Finset.mem_union_left _ inv.ring.wp
  · show m.next s.put.b ∈ blocks ∪ new ∧ m.bytes (m.next s.put.b) = 0
    rw [atB, bytes]
    exact ⟨Finset.mem_union_right _ addition.atHead, fresh⟩
  · exact readerCounts_frame Finset.subset_union_left (fun x _ => (bytes x).ge) inv.reader
  · have total : storedBytes m = storedBytes s.ring.mem := by
      refine storedBytes_grown brk.ge bytes fun x beyond => inv.ring.empty x fun inside => ?_
      have bound := inv.ring.below x inside
      omega
    have count := inv.count
    simp only [Shared.uncounted, pc, WriterPc.inside, WriterPc.ahead, if_true] at count
    simp only [Shared.uncounted, WriterPc.inside, if_true]
    rw [total]
    exact count

/-- A ring that was never written has no size and no bytes. -/
theorem unwritten_empty (inv : s.Counting blocks) (unwritten : s.Unwritten blocks) :
    s.ring.size = 0 ∧ ∀ x, s.ring.mem.bytes x = 0 := by
  obtain ⟨free, -, layout, rfl, -⟩ := unwritten
  constructor
  · rw [inv.ring.capacity]
    exact Finset.sum_eq_zero fun x member => layout.sizes x (List.mem_toFinset.mp member)
  · intro x
    by_cases member : x ∈ free
    · exact layout.empty x member
    · exact inv.ring.empty x fun inside => member (List.mem_toFinset.mp inside)

/-- **The first write gives the blocks their data**, while no read is in progress. -/
theorem writer_init (inv : s.Counting blocks) {host : Host} (pc : s.writer = .init)
    (step : writerStep host s = some t) : ∃ blocks', t.Counting blocks' := by
  obtain ⟨-, started⟩ : writerCounts s.ring s.put blocks .init := pc ▸ inv.writer
  have isNoinit := inv.progress.initial pc
  have unwritten := inv.progress.unwritten isNoinit (by rw [pc]; rintro ⟨⟩)
  obtain ⟨unsized, empty⟩ := inv.unwritten_empty unwritten
  obtain ⟨free, spare, layout, rfl, positions, -⟩ := unwritten
  have outside : s.reader.outside = true := by
    by_contra inside
    simp [writerStep, pc, inside] at step
  simp only [writerStep, pc, if_pos outside] at step
  obtain ⟨r, status, called⟩ : ∃ r status, rbDataInit host s.ring s.put.data.length =
      (r, status) := ⟨_, _, rfl⟩
  have each := EachBlock.rbDataInit (lasting_blocks ∅) (r := s.ring)
    (fun x => ⟨fun _ => empty x, inv.ring.room x, inv.ring.backed x⟩) host s.put.data.length
  rw [called] at each step
  have cleared : ∀ x, r.mem.bytes x = 0 := fun x => (each x).1 (Finset.notMem_empty x)
  have reader : ∀ blocks', readerCounts r.mem s.get blocks' s.reader := by
    intro blocks'
    cases here : s.reader <;> simp_all [ReaderPc.outside, readerCounts]
  have count : s.ring.bytes ≡ storedBytes r.mem + s.taken [MOD 2 ^ 64] := by
    have before := inv.count
    rw [storedBytes_empty empty] at before
    rw [storedBytes_empty cleared]
    simpa [Shared.uncounted, pc, WriterPc.inside, WriterPc.ahead] using before
  obtain ⟨m, free', spare', ⟨rfl, layout', rfl⟩ | ⟨rfl, sized, layout', rfl⟩⟩ :=
    rbDataInit_cases layout spare called
  · cases step
    refine ⟨free'.toFinset, .of_layout layout' spare' positions ?_ cleared, cleared _, reader _,
      ⟨inv.progress.grows, ?_, by rintro ⟨⟩, by rintro ⟨⟩, fun _ _ => ?_⟩, inv.bounded, count⟩
    · rw [Nat.mul_zero]
      exact unsized
    · rintro (ready | setReady)
      · cases isNoinit.symm.trans ready
      · cases setReady
    · refine ⟨free', spare', layout', rfl, positions, fun inside => ?_⟩
      exact absurd (outside.symm.trans inside) (by decide)
  · cases step
    refine ⟨free'.toFinset, .of_layout layout' spare' positions ?_ cleared, ⟨cleared _, started⟩,
      reader _, ⟨inv.progress.grows, fun _ => sized, by rintro ⟨⟩, by rintro ⟨⟩,
      fun _ past => absurd rfl past⟩, inv.bounded, count⟩
    show s.ring.size + _ = _
    rw [unsized, Nat.zero_add]

/-- The writer looks at the state of the ring. -/
theorem writer_test (inv : s.Counting blocks) {host : Host} (pc : s.writer = .testState)
    (step : writerStep host s = some t) : t.Counting blocks := by
  have knows : writerCounts s.ring s.put blocks .testState := pc ▸ inv.writer
  simp only [writerStep, pc, Option.some.injEq] at step
  subst step
  cases state : s.ring.state with
  | noinit =>
      have unwritten := inv.progress.unwritten state (by rw [pc]; rintro ⟨⟩)
      rw [if_pos rfl]
      refine inv.goto rfl rfl rfl inv.ring.rp inv.ring.wp knows inv.reader
        ⟨inv.progress.grows, ?_, by rintro ⟨⟩, fun _ => state, fun _ _ => unwritten⟩
        (uncounted_at pc rfl) rfl
      rintro (ready | setReady)
      · cases state.symm.trans ready
      · cases setReady
  | ready =>
      rw [if_neg (by rintro ⟨⟩)]
      refine inv.goto rfl rfl rfl inv.ring.rp inv.ring.wp knows inv.reader
        (progress_ready inv.progress.grows state (inv.progress.sized (.inl state)) (by rintro ⟨⟩))
        (uncounted_at pc rfl) rfl

/-- The writer declares the ring ready. -/
theorem writer_setReady (inv : s.Counting blocks) {host : Host} (pc : s.writer = .setReady)
    (step : writerStep host s = some t) : t.Counting blocks := by
  have knows : writerCounts s.ring s.put blocks .setReady := pc ▸ inv.writer
  simp only [writerStep, pc, Option.some.injEq] at step
  subst step
  refine inv.goto rfl rfl rfl inv.ring.rp inv.ring.wp knows inv.reader
    (progress_ready inv.progress.grows rfl (inv.progress.sized (.inr pc)) (by rintro ⟨⟩))
    (uncounted_at pc rfl) rfl

/-- The low water mark may end the write before it takes its input. -/
theorem writer_low (inv : s.Counting blocks) {host : Host}
    (pc : s.writer = .testLow ∨ s.writer = .lowHit ∨ s.writer = .clearLow)
    (step : writerStep host s = some t) : t.Counting blocks := by
  rcases pc with pc | pc | pc
  · have knows : writerCounts s.ring s.put blocks .testLow := pc ▸ inv.writer
    simp only [writerStep, pc, Option.some.injEq] at step
    subst step
    split
    · exact inv.goto_pc (by rw [pc]; rfl) (by rintro ⟨⟩) knows (uncounted_at pc rfl)
    · exact inv.goto_pc (by rw [pc]; rfl) (by rintro ⟨⟩) knows (uncounted_at pc rfl)
  · have knows : writerCounts s.ring s.put blocks .lowHit := pc ▸ inv.writer
    simp only [writerStep, pc, Option.some.injEq] at step
    subst step
    split
    · exact inv.goto_pc (by rw [pc]; rfl) (by rintro ⟨⟩) knows (uncounted_at pc rfl)
    · exact inv.goto_pc (by rw [pc]; rfl) (by rintro ⟨⟩) knows.1 (uncounted_at pc rfl)
  · have knows : writerCounts s.ring s.put blocks .clearLow := pc ▸ inv.writer
    simp only [writerStep, pc, Option.some.injEq] at step
    subst step
    exact inv.goto_writer (by rw [pc]; rfl) rfl rfl rfl rfl rfl rfl inv.ring.wp rfl rfl
      inv.progress.grows (by rintro ⟨⟩) knows.1 (uncounted_at pc rfl)

/-- The writer takes its input. -/
theorem writer_load (inv : s.Counting blocks) {host : Host} (pc : s.writer = .loadWp)
    (step : writerStep host s = some t) : t.Counting blocks := by
  obtain ⟨empty, started⟩ : writerCounts s.ring s.put blocks .loadWp := pc ▸ inv.writer
  simp only [writerStep, pc, Option.some.injEq] at step
  subst step
  exact inv.goto_writer (by rw [pc]; rfl) rfl rfl rfl rfl rfl rfl inv.ring.wp rfl rfl
    inv.progress.grows (by rintro ⟨⟩) ⟨inv.ring.wp, empty⟩ (uncounted_at pc started)

/-- The loop of a write either ends or picks a number of bytes that the block has room for. -/
theorem writer_size (inv : s.Counting blocks) {host : Host} (pc : s.writer = .size)
    (step : writerStep host s = some t) : t.Counting blocks := by
  have knows : writerCounts s.ring s.put blocks .size := pc ▸ inv.writer
  have started : s.writer.started = true := by rw [pc]; rfl
  simp only [writerStep, pc] at step
  split_ifs at step with finished less
  · cases step
    exact inv.goto_pc started (by rintro ⟨⟩) knows (uncounted_at pc rfl)
  · cases step
    exact inv.goto_pc started (by rintro ⟨⟩) ⟨knows, Nat.le_of_lt less, Nat.le_refl _⟩
      (uncounted_at pc rfl)
  · cases step
    exact inv.goto_pc started (by rintro ⟨⟩) ⟨knows, Nat.le_refl _, Nat.le_of_not_lt less⟩
      (uncounted_at pc rfl)

/-- `get_next_block` looks at the next block, and doubles the number of blocks to add when it is
not empty. -/
theorem writer_next (inv : s.Counting blocks) {host : Host}
    (pc : s.writer = .loadNext ∨ ∃ next, s.writer = .testNext next ∨ s.writer = .realloc next)
    (step : writerStep host s = some t) : t.Counting blocks := by
  rcases pc with pc | ⟨next, pc | pc⟩
  · have member : writerCounts s.ring s.put blocks .loadNext := pc ▸ inv.writer
    simp only [writerStep, pc, Option.some.injEq] at step
    subst step
    exact inv.goto_pc (by rw [pc]; rfl) (by rintro ⟨⟩) ⟨member, rfl⟩ (uncounted_at pc rfl)
  · obtain ⟨member, rfl⟩ : writerCounts s.ring s.put blocks (.testNext next) := pc ▸ inv.writer
    simp only [writerStep, pc] at step
    split_ifs at step with empty
    · cases step
      exact inv.goto_writer (by rw [pc]; rfl) rfl rfl rfl rfl rfl rfl inv.ring.wp rfl rfl
        inv.progress.grows (by rintro ⟨⟩) ⟨inv.ring.closed _ member, empty⟩ (uncounted_at pc rfl)
    · cases step
      exact inv.goto_pc (by rw [pc]; rfl) (by rintro ⟨⟩) ⟨member, rfl⟩ (uncounted_at pc rfl)
  · obtain ⟨member, link⟩ : writerCounts s.ring s.put blocks (.realloc next) := pc ▸ inv.writer
    have grows : 0 < s.ring.doubleRealloc.blockRealloc :=
      Nat.mul_pos inv.progress.grows Nat.two_pos
    simp only [writerStep, pc, Option.some.injEq] at step
    subst step
    exact inv.goto_writer (by rw [pc]; rfl) rfl rfl rfl rfl rfl rfl inv.ring.wp rfl rfl grows
      (by rintro ⟨⟩) ⟨member, link, grows⟩ (uncounted_at pc rfl)

/-- The end of a write: the high water mark, and the new write position. -/
theorem writer_end (inv : s.Counting blocks) {host : Host}
    (pc : s.writer = .testHigh ∨ s.writer = .storeWp) (step : writerStep host s = some t) :
    t.Counting blocks := by
  rcases pc with pc | pc
  · have knows : writerCounts s.ring s.put blocks .testHigh := pc ▸ inv.writer
    simp only [writerStep, pc] at step
    split_ifs at step with hit
    · cases step
      exact inv.goto_writer (by rw [pc]; rfl) rfl rfl rfl rfl rfl rfl inv.ring.wp rfl rfl
        inv.progress.grows (by rintro ⟨⟩) knows (uncounted_at pc rfl)
    · cases step
      exact inv.goto_pc (by rw [pc]; rfl) (by rintro ⟨⟩) knows (uncounted_at pc rfl)
  · obtain ⟨member, empty⟩ : writerCounts s.ring s.put blocks .storeWp := pc ▸ inv.writer
    simp only [writerStep, pc, Option.some.injEq] at step
    subst step
    exact inv.goto_writer (by rw [pc]; rfl) rfl rfl rfl rfl rfl rfl member rfl rfl
      inv.progress.grows (by rintro ⟨⟩) empty (uncounted_at pc rfl)

/-- **Every step of the writer keeps the account**, and may add blocks to the ring. -/
theorem writer_step (inv : s.Counting blocks) {host : Host} (allocates : Allocates host s .writer)
    (step : writerStep host s = some t) : ∃ blocks', t.Counting blocks' := by
  cases pc : s.writer with
  | idle => simp [writerStep, pc] at step
  | testState => exact ⟨blocks, inv.writer_test pc step⟩
  | init => exact inv.writer_init pc step
  | setReady => exact ⟨blocks, inv.writer_setReady pc step⟩
  | testLow => exact ⟨blocks, inv.writer_low (.inl pc) step⟩
  | lowHit => exact ⟨blocks, inv.writer_low (.inr (.inl pc)) step⟩
  | clearLow => exact ⟨blocks, inv.writer_low (.inr (.inr pc)) step⟩
  | loadWp => exact ⟨blocks, inv.writer_load pc step⟩
  | size => exact ⟨blocks, inv.writer_size pc step⟩
  | copy n => exact ⟨blocks, inv.writer_copy pc step⟩
  | setBytes n => exact ⟨blocks, inv.writer_release pc step⟩
  | loadNext => exact ⟨blocks, inv.writer_next (.inl pc) step⟩
  | testNext next => exact ⟨blocks, inv.writer_next (.inr ⟨next, .inl pc⟩) step⟩
  | realloc next => exact ⟨blocks, inv.writer_next (.inr ⟨next, .inr pc⟩) step⟩
  | alloc next n => exact ⟨blocks, inv.writer_alloc pc (allocates (by rw [pc]; rfl)) step⟩
  | link next head tail added => exact inv.writer_link pc step
  | addBytes => exact ⟨blocks, (inv.writer_add pc step).1⟩
  | testHigh => exact ⟨blocks, inv.writer_end (.inl pc) step⟩
  | storeWp => exact ⟨blocks, inv.writer_end (.inr pc) step⟩

end Shared.Counting

/-! ## Runs -/

/-- A new ring has empty blocks and counts nothing. -/
theorem counting_start {host : Host} {s : Shared} (start : (ringSystem host).start s) :
    ∃ blocks, s.Counting blocks := by
  obtain ⟨align, high, minimum, flush, aligned, rfl⟩ := start
  obtain ⟨free, ⟨body, spare, count, ready, fresh⟩⟩ := createBuffer_shape
  have each := EachBlock.createBuffer (lasting_blocks ∅)
  have empty : ∀ x, createBuffer.mem.bytes x = 0 := fun x => (each x).1 (Finset.notMem_empty x)
  have noinit : createBuffer.state = .noinit := rfl
  have positions : createBuffer.rp = createBuffer.wp := body.layout.rp_eq_wp
  have unsized : createBuffer.blockSize = 0 := (fresh noinit).2
  have layout : Layout createBuffer.mem 0 createBuffer.wp createBuffer.wp [] free := by
    have layout := body.layout
    rwa [positions, unsized] at layout
  have capacity : createBuffer.size = free.length * 0 := by
    have capacity := body.capacity
    rwa [unsized] at capacity
  have counted : createBuffer.bytes = 0 := rfl
  have grows := body.grows
  clear body count ready fresh each
  generalize createBuffer = r at *
  refine ⟨free.toFinset, .of_layout layout spare positions capacity empty, empty _, trivial,
    ⟨grows, ?_, by rintro ⟨⟩, by rintro ⟨⟩,
      fun _ _ => ⟨free, spare, layout, rfl, positions, ?_⟩⟩, ?_, ?_⟩
  · rintro (isReady | setReady)
    · cases noinit.symm.trans isReady
    · cases setReady
  · exact fun inside => by cases inside
  · exact counted.trans_lt (Nat.two_pow_pos 64)
  · show r.bytes ≡ storedBytes r.mem [MOD 2 ^ 64]
    rw [storedBytes_empty empty, counted]

namespace Shared.Counting

variable {host : Host} {s t : Shared} {blocks : Finset Nat}

/-- A new call of `buf_write`. -/
theorem begin_write (inv : s.Counting blocks) (data : List UInt8) (idle : s.writer = .idle) :
    Shared.Counting { s with put := { data := data }, writer := .testState } blocks := by
  have empty : writerCounts s.ring s.put blocks .idle := idle ▸ inv.writer
  refine inv.goto rfl rfl rfl inv.ring.rp inv.ring.wp ⟨empty, rfl⟩ inv.reader
    ⟨inv.progress.grows, ?_, by rintro ⟨⟩, by rintro ⟨⟩, fun fresh _ => ?_⟩
    (uncounted_at idle rfl) rfl
  · rintro (ready | setReady)
    · exact inv.progress.sized (.inl ready)
    · cases setReady
  · exact inv.progress.unwritten fresh (by rw [idle]; rintro ⟨⟩)

/-- A new call of `buf_read`. -/
theorem begin_read (inv : s.Counting blocks) (request : Nat) (idle : s.reader = .idle) :
    Shared.Counting { s with get := { remaining := request }, reader := .loadRp } blocks := by
  refine inv.goto_reader trivial (fun _ inside => by cases inside) ?_
  simp [Shared.taken, idle]

/-- **Every step whose allocation finds memory keeps the account.** -/
theorem step {a : Act} (inv : s.Counting blocks) (allocates : Allocates host s a)
    (step : sharedStep host s a = some t) : ∃ blocks', t.Counting blocks' := by
  cases a with
  | write data =>
      simp only [sharedStep] at step
      split_ifs at step with idle
      cases step
      exact ⟨blocks, inv.begin_write data idle⟩
  | read request =>
      simp only [sharedStep] at step
      split_ifs at step with idle
      cases step
      exact ⟨blocks, inv.begin_read request idle⟩
  | writer => exact inv.writer_step allocates step
  | reader => exact ⟨blocks, inv.reader_step step⟩

end Shared.Counting

/-- The account holds wherever a run goes whose allocations find memory. -/
theorem counting_reach {host : Host} {ok : Shared → Act → Prop}
    (allocates : ∀ s a, ok s a → Allocates host s a) {s : Shared}
    (reached : (ringSystem host).ReachUnder ok s) : ∃ blocks, s.Counting blocks := by
  refine reached.invariant (fun _ => counting_start) fun s a t inv permitted step => ?_
  obtain ⟨blocks, inv⟩ := inv
  exact inv.step (allocates s a permitted) step

/-! ## The count and the size -/

/-- Only `buf_write` at its end adds to the count, and the ring does not shrink. -/
theorem writerStep_count {host : Host} {s t : Shared} (other : s.writer ≠ .addBytes)
    (step : writerStep host s = some t) :
    t.ring.bytes = s.ring.bytes ∧ s.ring.size ≤ t.ring.size := by
  cases pc : s.writer with
  | addBytes => exact absurd pc other
  | idle => simp [writerStep, pc] at step
  | init =>
      simp only [writerStep, pc, rbDataInit] at step
      split_ifs at step <;> cases step <;> exact ⟨rfl, Nat.le_add_right ..⟩
  | link next head tail added =>
      simp only [writerStep, pc, Option.some.injEq] at step
      subst step
      exact ⟨rfl, Nat.le_add_right ..⟩
  | size | testNext _ | testHigh =>
      simp only [writerStep, pc] at step
      split_ifs at step <;> cases step <;> exact ⟨rfl, Nat.le_refl _⟩
  | _ =>
      simp only [writerStep, pc, Option.some.injEq] at step
      subst step
      exact ⟨rfl, Nat.le_refl _⟩

/-- Only `buf_read` at its end subtracts from the count. -/
theorem readerStep_count {s t : Shared} (other : s.reader ≠ .subBytes)
    (step : readerStep s = some t) :
    t.ring.bytes = s.ring.bytes ∧ t.ring.size = s.ring.size := by
  cases pc : s.reader with
  | subBytes => exact absurd pc other
  | idle => simp [readerStep, pc] at step
  | loop | storeRp =>
      simp only [readerStep, pc] at step
      split_ifs at step <;> cases step <;> exact ⟨rfl, rfl⟩
  | _ =>
      simp only [readerStep, pc, Option.some.injEq] at step
      subst step
      exact ⟨rfl, rfl⟩

theorem le_of_modEq {a b n : Nat} (small : a < n) (same : a ≡ b [MOD n]) : a ≤ b := by
  have equal : a = b % n := (Nat.mod_eq_of_lt small).symm.trans same
  rw [equal]
  exact Nat.mod_le b n

/-- A step that meets the condition keeps the count within the size. -/
theorem Shared.Counting.within {host : Host} {s t : Shared} {blocks : Finset Nat} {a : Act}
    (inv : s.Counting blocks) (within : s.ring.bytes ≤ s.ring.size) (settles : Settles s a)
    (step : sharedStep host s a = some t) : t.ring.bytes ≤ t.ring.size := by
  cases a with
  | write data | read request =>
      simp only [sharedStep] at step
      split_ifs at step
      cases step
      exact within
  | writer =>
      by_cases pc : s.writer = .addBytes
      · obtain ⟨-, count, size, small⟩ := inv.writer_add pc step
        calc t.ring.bytes ≤ storedBytes s.ring.mem + s.taken := le_of_modEq small count
          _ ≤ s.ring.size := settles pc
          _ = t.ring.size := size.symm
      · obtain ⟨bytes, size⟩ := writerStep_count pc step
        rw [bytes]
        exact Nat.le_trans within size
  | reader =>
      by_cases pc : s.reader = .subBytes
      · obtain ⟨-, count, size, small⟩ := inv.reader_sub pc step
        have covered : s.uncounted ≤ storedBytes s.ring.mem := settles pc
        have rest : t.ring.bytes ≡ storedBytes s.ring.mem - s.uncounted [MOD 2 ^ 64] := by
          refine Nat.ModEq.add_right_cancel' s.uncounted ?_
          rwa [Nat.sub_add_cancel covered]
        calc t.ring.bytes ≤ storedBytes s.ring.mem - s.uncounted := le_of_modEq small rest
          _ ≤ storedBytes s.ring.mem := Nat.sub_le ..
          _ ≤ s.ring.size := inv.ring.stored_le
          _ = t.ring.size := size.symm
      · obtain ⟨bytes, size⟩ := readerStep_count pc step
        rw [bytes, size]
        exact within

/-- A step that does not meet the condition takes the count beyond the size, unless the numbers are
so large that they wrap around. -/
theorem Shared.Counting.exceeds {host : Host} {s t : Shared} {blocks : Finset Nat} {a : Act}
    (inv : s.Counting blocks)
    (small : s.ring.size + s.uncounted + storedBytes s.ring.mem + s.taken < 2 ^ 64)
    (unsettled : ¬ Settles s a) (step : sharedStep host s a = some t) :
    t.ring.size < t.ring.bytes := by
  cases a with
  | write data | read request => exact absurd trivial unsettled
  | writer =>
      obtain ⟨pc, more⟩ := Classical.not_imp.mp unsettled
      obtain ⟨-, count, size, -⟩ := inv.writer_add pc step
      have least := le_of_modEq (by omega) count.symm
      omega
  | reader =>
      obtain ⟨pc, more⟩ := Classical.not_imp.mp unsettled
      obtain ⟨-, count, size, -⟩ := inv.reader_sub pc step
      -- Without a wrap the bytes released would not exceed those stored.
      by_contra within
      have least := le_of_modEq (by omega) count
      omega

/-- **The byte count of a ring with a writer and a reader.** It is at most the size in every state
reached by steps that meet the condition: each allocation finds memory for a block, each addition
finds that the bytes stored and those taken by the read in progress fit into the ring, and each
subtraction finds that the blocks still store what the write in progress has released. A step that
settles the count too early or too late takes it beyond the size. -/
theorem count_within_size (host : Host) :
    (∀ s, (ringSystem host).ReachUnder (Counts host) s → s.ring.bytes ≤ s.ring.size) ∧
      ∀ s a t, (ringSystem host).ReachUnder (Allocates host) s →
        s.ring.size + s.uncounted + storedBytes s.ring.mem + s.taken < 2 ^ 64 →
        ¬ Settles s a → (ringSystem host).step s a = some t → t.ring.size < t.ring.bytes := by
  constructor
  · intro s reached
    have both : (∃ blocks, s.Counting blocks) ∧ s.ring.bytes ≤ s.ring.size := by
      refine reached.invariant (I := fun s => (∃ blocks, s.Counting blocks) ∧
        s.ring.bytes ≤ s.ring.size) ?_ ?_
      · rintro s start
        refine ⟨counting_start start, ?_⟩
        obtain ⟨align, high, minimum, flush, aligned, rfl⟩ := start
        exact Nat.zero_le _
      · rintro s a t ⟨⟨blocks, inv⟩, within⟩ ⟨allocates, settles⟩ step
        exact ⟨inv.step allocates step, inv.within within settles step⟩
    exact both.2
  · intro s a t reached small unsettled step
    obtain ⟨blocks, inv⟩ := counting_reach (fun _ _ => id) reached
    exact inv.exceeds small unsettled step

/-- A read of a byte whose write has returned. -/
theorem count_within_size_read : ∃ s, (ringSystem tightHost).ReachUnder (Counts tightHost) s ∧
    s.ring.bytes ≤ s.ring.size ∧ s.delivered = [7] := by
  let acts := [Act.write [7]] ++ List.replicate 17 Act.writer ++ [Act.read 1] ++
    List.replicate 9 Act.reader
  have run : ((ringSystem tightHost).execUnder (Counts tightHost) newShared acts).map
      (fun s => (s.writer, s.reader, s.delivered)) = some (.idle, .idle, [7]) := by decide +kernel
  obtain ⟨s, run, ends⟩ := Option.map_eq_some_iff.mp run
  have reached := (System.ReachUnder.start newShared_start).execUnder run
  refine ⟨s, reached, (count_within_size tightHost).1 s reached, ?_⟩
  simp only [Prod.mk.injEq] at ends
  exact ends.2.2

/-- **The count wraps around.** The reader takes the byte of a block that the writer has filled, and
subtracts it before the writer adds it. -/
theorem count_wraps : ∃ s, (ringSystem tightHost).Reach s ∧ s.ring.size = 1 ∧
    s.ring.bytes = 2 ^ 64 - 1 ∧ ¬ s.ring.bytes ≤ s.ring.size := by
  let acts := [Act.write [7]] ++ List.replicate 8 Act.writer ++ [Act.read 1] ++
    List.replicate 8 Act.reader
  have run : ((ringSystem tightHost).exec newShared acts).map
      (fun s => (s.ring.size, s.ring.bytes)) = some (1, 2 ^ 64 - 1) := by decide +kernel
  obtain ⟨s, run, ends⟩ := Option.map_eq_some_iff.mp run
  simp only [Prod.mk.injEq] at ends
  obtain ⟨size, bytes⟩ := ends
  exact ⟨s, (System.ReachUnder.start newShared_start).exec run, size, bytes, by omega⟩

end Bingewatch.Buffer.Threads
