import Mathlib.Algebra.Ring.Nat
import Bingewatch.Buffer.RingBuf

/-!
# The bytes a ring stores

Between calls the blocks of a ring buffer are laid out properly, the block at the write position is
empty, and the ring's count is the number of bytes stored (`Ring.Shape`). `Ring.Holds r q` says
that the ring stores the bytes `q`, oldest first.

`bufWrite_spec` and `bufRead_spec` say what the two calls do to such a ring: a write appends its
bytes to those stored, a read removes a prefix of them. The proofs follow the passes of the two
loops; a pass of the write loop fills a block and finds the next one, which is a new one when the
ring is full (`getNextBlock_spec`).
-/

set_option autoImplicit false

namespace Bingewatch.Buffer

open Foundation Machine

/-! ## The shape of a ring -/

/-- The bytes stored in a list of blocks, in order. -/
def contents (m : Mem UInt8) (blocks : List Nat) : List UInt8 :=
  blocks.flatMap fun x => (m.data x).take (m.bytes x)

@[simp] theorem contents_nil (m : Mem UInt8) : contents m [] = [] := rfl

@[simp] theorem contents_cons (m : Mem UInt8) (x : Nat) (blocks : List Nat) :
    contents m (x :: blocks) = (m.data x).take (m.bytes x) ++ contents m blocks := rfl

@[simp] theorem contents_append (m : Mem UInt8) (first second : List Nat) :
    contents m (first ++ second) = contents m first ++ contents m second := by
  simp [contents]

/-- The contents depend only on the data and the byte counts of the blocks. -/
theorem contents_congr {m m' : Mem UInt8} {blocks : List Nat}
    (data : ∀ x ∈ blocks, m'.data x = m.data x) (bytes : ∀ x ∈ blocks, m'.bytes x = m.bytes x) :
    contents m' blocks = contents m blocks := by
  unfold contents
  exact List.flatMap_congr fun x member => by rw [data x member, bytes x member]

/-- A change to a block outside the list leaves its contents alone. -/
theorem contents_modify {m : Mem UInt8} {blocks : List Nat} {x : Nat}
    {f : Block UInt8 → Block UInt8} (outside : x ∉ blocks) :
    contents (m.modify x f) blocks = contents m blocks := by
  have same : ∀ y ∈ blocks, (m.modify x f).block y = m.block y := fun y member =>
    Mem.modify_block_of_ne m f fun here => outside (here ▸ member)
  exact contents_congr (fun y member => congrArg Block.data (same y member))
    fun y member => congrArg Block.bytes (same y member)

/-- What holds of a ring at every pass of a call, with the positions the call has reached. -/
structure Ring.Body (r : Ring) (rp wp : Nat) (full free : List Nat) : Prop where
  layout : Layout r.mem r.blockSize rp wp full free
  stored : ∀ x ∈ full, r.mem.bytes x ≤ (r.mem.data x).length
  capacity : r.size = (full ++ free).length * r.blockSize
  grows : 0 < r.blockRealloc

/-- **The shape of a ring between calls.** The block at the write position is always empty, the
count is the number of bytes stored, and a ring that was never written holds nothing. -/
structure Ring.Shape (r : Ring) (full free : List Nat) : Prop where
  body : r.Body r.rp r.wp full free
  spare : free ≠ []
  count : r.bytes = (contents r.mem full).length
  ready : r.state = .ready → 0 < r.blockSize
  fresh : r.state = .noinit → full = [] ∧ r.blockSize = 0

/-- The ring stores exactly the bytes `q`, oldest first. -/
def Ring.Holds (r : Ring) (q : List UInt8) : Prop :=
  ∃ full free, r.Shape full free ∧ contents r.mem full = q

/-- What a ring stores depends neither on its descriptor sides and its flush flag, nor on its
settings, nor on how often memory was asked for. -/
theorem Ring.Holds.configure {r : Ring} {q : List UInt8} (holds : r.Holds q)
    (ioRead ioWrite : IoDescState) (flush : Bool)
    (blockAlign highWaterMark highWaterCount lowWaterMark minReturnSize allocs : Nat) :
    Ring.Holds
      { r with
        ioRead := ioRead, ioWrite := ioWrite, flush := flush, blockAlign := blockAlign
        highWaterMark := highWaterMark, highWaterCount := highWaterCount
        lowWaterMark := lowWaterMark, minReturnSize := minReturnSize, allocs := allocs } q := by
  obtain ⟨full, free, ⟨body, spare, count, ready, fresh⟩, stored⟩ := holds
  exact ⟨full, free, ⟨⟨body.layout, body.stored, body.capacity, body.grows⟩, spare, count, ready,
    fresh⟩, stored⟩

theorem Ring.Holds.sides {r : Ring} {q : List UInt8} (holds : r.Holds q)
    (ioRead ioWrite : IoDescState) (flush : Bool) :
    Ring.Holds { r with ioRead := ioRead, ioWrite := ioWrite, flush := flush } q :=
  holds.configure ioRead ioWrite flush r.blockAlign r.highWaterMark r.highWaterCount r.lowWaterMark
    r.minReturnSize r.allocs

/-- The count of a ring is the number of bytes it stores. -/
theorem Ring.Holds.bytes_eq {r : Ring} {q : List UInt8} (holds : r.Holds q) :
    r.bytes = q.length := by
  obtain ⟨full, free, shape, rfl⟩ := holds
  exact shape.count

/-- The size of a ring is the sum of the sizes of the blocks reachable in it. -/
theorem Ring.Holds.size_eq {r : Ring} {q : List UInt8} (holds : r.Holds q) :
    ∃ blocks : List Nat, blocks.Nodup ∧ (∀ x, x ∈ blocks ↔ ∃ k, r.mem.next^[k] r.rp = x) ∧
      r.size = (blocks.map r.mem.size).sum := by
  obtain ⟨full, free, shape, _⟩ := holds
  have layout := shape.body.layout
  have nonempty : full ++ free ≠ [] := by simp [shape.spare]
  refine ⟨full ++ free, layout.nodup, fun x => layout.mem_iff_reachable nonempty, ?_⟩
  have sizes : (full ++ free).map r.mem.size = List.replicate (full ++ free).length r.blockSize :=
    List.eq_replicate_iff.mpr ⟨List.length_map _, fun n member => by
      obtain ⟨x, inRing, rfl⟩ := List.mem_map.mp member
      exact layout.sizes x inRing⟩
  rw [sizes, List.sum_replicate_nat, shape.body.capacity]

/-- The blocks from `b` on, up to the one that leads back to `first`. -/
def walk (m : Mem UInt8) (first : Nat) : Nat → Nat → List Nat
  | 0, _ => []
  | fuel + 1, b => b :: if m.next b = first then [] else walk m first fuel (m.next b)

/-- The blocks of a ring, from the read position on. -/
def Ring.blocks (r : Ring) : List Nat := walk r.mem r.rp r.mem.brk r.rp

/-- The bytes stored in the blocks of a ring, from the read position on. -/
def Ring.content (r : Ring) : List UInt8 := contents r.mem r.blocks

theorem walk_eq {m : Mem UInt8} {first b : Nat} {l : List Nat} {fuel : Nat}
    (chain : Chain m.next b (b :: l) first) (inner : ∀ x ∈ l, x ≠ first)
    (short : (b :: l).length ≤ fuel) : walk m first fuel b = b :: l := by
  induction l generalizing b fuel with
  | nil =>
      obtain ⟨fuel, rfl⟩ : ∃ n, fuel = n + 1 := ⟨fuel - 1, by simp at short; omega⟩
      have back : m.next b = first := chain.2
      simp [walk, back]
  | cons c l ih =>
      obtain ⟨fuel, rfl⟩ : ∃ n, fuel = n + 1 := ⟨fuel - 1, by simp at short; omega⟩
      obtain ⟨-, tail⟩ := chain
      have step : m.next b = c := tail.1
      have rest : walk m first fuel c = c :: l := by
        rw [step] at tail
        exact ih tail (fun x member => inner x (List.mem_cons_of_mem _ member))
          (by simpa using short)
      simp [walk, step, inner c (List.mem_cons_self ..), rest]

theorem Ring.Shape.blocks_eq {r : Ring} {full free : List Nat} (shape : r.Shape full free) :
    r.blocks = full ++ free := by
  have layout := shape.body.layout
  obtain ⟨b, l, ring⟩ := List.exists_cons_of_ne_nil (l := full ++ free) (by simp [shape.spare])
  have chain := layout.ring
  have nodup := layout.nodup
  rw [ring] at chain nodup ⊢
  obtain rfl : r.rp = b := chain.1
  refine walk_eq chain (fun x member same => ?_)
    (length_le_of_nodup nodup fun x member => (layout.inside x (ring ▸ member)).2)
  exact (List.nodup_cons.mp nodup).1 (same ▸ member)

theorem contents_of_empty {m : Mem UInt8} {blocks : List Nat}
    (empty : ∀ x ∈ blocks, m.bytes x = 0) : contents m blocks = [] := by
  simp only [contents, List.flatMap_eq_nil_iff]
  intro x member
  rw [empty x member, List.take_zero]

/-- The bytes a ring stores are those in its blocks. -/
theorem Ring.Holds.content_eq {r : Ring} {q : List UInt8} (holds : r.Holds q) :
    r.content = q := by
  obtain ⟨full, free, shape, rfl⟩ := holds
  rw [Ring.content, shape.blocks_eq, contents_append,
    contents_of_empty shape.body.layout.empty, List.append_nil]

/-- The settings and the descriptor states of a ring, which reads and writes leave alone. -/
structure Ring.Keeps (r r' : Ring) : Prop where
  ioRead : r'.ioRead = r.ioRead
  ioWrite : r'.ioWrite = r.ioWrite
  flush : r'.flush = r.flush
  blockAlign : r'.blockAlign = r.blockAlign
  highWaterMark : r'.highWaterMark = r.highWaterMark
  lowWaterMark : r'.lowWaterMark = r.lowWaterMark
  minReturnSize : r'.minReturnSize = r.minReturnSize

/-- A new ring has the shape, with no block full. -/
theorem createBuffer_shape : ∃ free, createBuffer.Shape [] free := by
  obtain ⟨headEq, fresh⟩ := blockListAlloc_fresh ({} : Mem UInt8) (n := defaultRealloc)
    (by decide) (by decide)
  generalize listEq : blockListAlloc ({} : Mem UInt8) defaultRealloc = list at headEq fresh
  have split : List.range' 1 defaultRealloc = 1 :: List.range' 2 15 := rfl
  have head : list.2 = 1 := headEq
  have chain : Chain list.1.next 1 (1 :: List.range' 2 15) 0 := fresh.chain
  have inside : ∀ x ∈ 1 :: List.range' 2 15, 1 ≤ x ∧ x < list.1.brk := fresh.fresh
  obtain ⟨ring, brk, same⟩ := forgeRing_spec chain fresh.nodup inside
  have shape : createBuffer = { mem := forgeRing list.1 1, wp := 1, rp := 1 } := by
    simp only [createBuffer, listEq, head]
    rfl
  refine ⟨1 :: List.range' 2 15, ?_⟩
  rw [shape]
  refine ⟨⟨⟨rfl, ring, ?_, ?_, ?_, ?_, ?_⟩, ?_, by simp, by simp⟩, by simp, rfl, ?_, ?_⟩
  · exact fresh.nodup
  · intro x member
    have bound := inside x member
    exact ⟨by omega, brk ▸ bound.2⟩
  · intro x member
    exact (congrArg Block.size (same x)).trans (fresh.sizes x member)
  · intro x member
    cases member
  · intro x member
    exact (congrArg Block.bytes (same x)).trans (fresh.empty x member)
  · intro x member
    cases member
  · intro ready
    cases ready
  · exact fun _ => ⟨rfl, rfl⟩

/-! ## What a write does -/

section Write

variable {host : Host}

/-- The new blocks of `get_next_block`, when memory is left for one. -/
theorem allocBlocks_fresh {r : Ring} {n : Nat}
    (fits : r.blockSize < host.freeram r.allocs r.blockSize) (some : 0 < n)
    (allocated : 0 < r.mem.brk) (sized : 0 < r.blockSize) :
    ∃ (m : Mem UInt8) (head : Nat) (added : List Nat), added ≠ [] ∧
      FreshList r.mem m r.blockSize head added ∧
      r.allocBlocks host n =
        ({ r with mem := m, allocs := r.allocs + 1 }, head, added.length * r.blockSize) := by
  obtain ⟨added, length, fresh, bytes, _⟩ := blockDataFastalloc_fresh r.mem
    (host.freeram r.allocs r.blockSize) some allocated sized
  have nonempty : added ≠ [] := by
    rw [← List.length_pos_iff, length]
    exact blocksFitting_pos some sized fits
  refine ⟨_, _, added, nonempty, fresh nonempty, ?_⟩
  simp only [Ring.allocBlocks, bytes]

/-- The ring with the fields changed that growing changes. -/
def Ring.grown (r : Ring) (mem : Mem UInt8) (size blockRealloc allocs : Nat) : Ring :=
  { r with mem := mem, size := size, blockRealloc := blockRealloc, allocs := allocs }

/-- **`get_next_block` after a block was filled.** It steps to an empty block of the ring, which it
grows when there is none, and leaves the stored bytes alone. -/
theorem getNextBlock_spec (fits : host.Fits) {r : Ring} {rp b : Nat} {before free : List Nat}
    (body : r.Body rp (r.mem.next b) (before ++ [b]) free) (sized : 0 < r.blockSize) :
    ∃ (m : Mem UInt8) (size realloc allocs wp : Nat) (free' : List Nat),
      getNextBlock host r b = (r.grown m size realloc allocs, wp, false) ∧ free' ≠ [] ∧
      (r.grown m size realloc allocs).Body rp wp (before ++ [b]) free' ∧
      contents m (before ++ [b]) = contents r.mem (before ++ [b]) := by
  cases free with
  | cons x rest =>
      -- The next block is the first of the empty arc.
      have nextEq : r.mem.next b = x := body.layout.wp_eq
      have empty : r.mem.bytes x = 0 := body.layout.empty x (by simp)
      refine ⟨r.mem, r.size, r.blockRealloc, r.allocs, x, x :: rest, ?_, by simp, ?_, rfl⟩
      · simp [getNextBlock, nextEq, empty, Ring.grown]
      · rw [nextEq] at body
        exact body
  | nil =>
      -- The ring is full: the next block is the oldest one, and new blocks go in between.
      have toFirst : r.mem.next b ∈ before ++ [b] :=
        body.layout.wp_eq_rp ▸ body.layout.toWp.start_mem (by simp)
      have occupied : r.mem.bytes (r.mem.next b) ≠ 0 :=
        Nat.pos_iff_ne_zero.mp (body.layout.filled _ toFirst)
      have allocated : 0 < r.mem.brk := by
        have bound := body.layout.inside b (by simp)
        omega
      obtain ⟨m, head, added, nonempty, fresh, alloc⟩ := allocBlocks_fresh (r := r.doubleRealloc)
        (fits _ _) (n := r.blockRealloc * 2) (Nat.mul_pos body.grows Nat.two_pos) allocated sized
      obtain ⟨grown, linkEq, nextEq, _, same⟩ := body.layout.grow fresh nonempty
      rw [show m.next b = r.mem.next b from nextEq] at grown linkEq same
      refine ⟨Layout.spliced m b head (listTail m m.brk head) (r.mem.next b),
        r.size + added.length * r.blockSize, r.blockRealloc * 2, r.allocs + 1, head, added ++ [],
        ?_, by simpa using nonempty, ⟨grown, ?_, ?_, ?_⟩, ?_⟩
      · have some : added.length * r.blockSize ≠ 0 :=
          Nat.pos_iff_ne_zero.mp (Nat.mul_pos (List.length_pos_iff.mpr nonempty) sized)
        have reallocEq : r.doubleRealloc.blockRealloc = r.blockRealloc * 2 := rfl
        have sizeEq : r.doubleRealloc.blockSize = r.blockSize := rfl
        simp only [getNextBlock, if_neg occupied, reallocEq, alloc, sizeEq, if_neg some, Ring.link,
          linkEq]
        rfl
      · intro y member
        obtain ⟨data, bytes⟩ := same y (List.mem_append_left _ member)
        simp only [Ring.grown, data, bytes]
        exact body.stored y member
      · simp only [Ring.grown, body.capacity, List.append_nil, List.length_append, Nat.add_mul]
      · exact Nat.mul_pos body.grows Nat.two_pos
      · exact contents_congr (fun y member => (same y (List.mem_append_left _ member)).1)
          fun y member => (same y (List.mem_append_left _ member)).2

/-- One pass of the write loop: the bytes are copied and the block is full. -/
theorem Ring.Body.store {r : Ring} {rp b : Nat} {full rest : List Nat} {data : List UInt8}
    (body : r.Body rp b full (b :: rest)) (some : data ≠ []) :
    let m := (r.mem.modify b (storeData data)).modify b (setBytes data.length)
    Ring.Body { r with mem := m } rp (m.next b) (full ++ [b]) rest ∧
      contents m (full ++ [b]) = contents r.mem full ++ data := by
  intro m
  have notFull : b ∉ full := fun member =>
    (List.nodup_append.mp body.layout.nodup).2.2 b member b (by simp) rfl
  have copied : Layout (r.mem.modify b (storeData data)) r.blockSize rp b full (b :: rest) :=
    body.layout.modify rfl rfl (fun member => absurd member notFull)
      fun _ => body.layout.empty b (by simp)
  have filled := copied.fill (f := setBytes data.length) rfl rfl (List.length_pos_iff.mpr some)
  have atB : m.block b = { r.mem.block b with
      data := data ++ (r.mem.data b).drop data.length, bytes := data.length } := by
    simp [m, setBytes, storeData, Mem.data]
  have elsewhere : ∀ x ∈ full, m.block x = r.mem.block x := by
    intro x member
    have differ : x ≠ b := fun same => notFull (same ▸ member)
    simp [m, Mem.modify_block_of_ne _ _ differ]
  refine ⟨⟨?_, ?_, ?_, body.grows⟩, ?_⟩
  · have nextEq : m.next b = (r.mem.modify b (storeData data)).next b :=
      Mem.modify_field Block.next _ b _ rfl b
    rw [nextEq]
    exact filled
  · intro x member
    rcases List.mem_append.mp member with old | new
    · simpa [Mem.bytes, Mem.data, elsewhere x old] using body.stored x old
    · obtain rfl : x = b := by simpa using new
      simp [Mem.bytes, Mem.data, atB]
  · simpa [Nat.add_assoc] using body.capacity
  · have kept : contents m full = contents r.mem full :=
      contents_congr (fun x member => congrArg Block.data (elsewhere x member))
        fun x member => congrArg Block.bytes (elsewhere x member)
    simp [kept, Mem.data, Mem.bytes, atB]

/-- **The write loop appends its bytes to the contents.** -/
theorem bufWriteLoop_spec (fits : host.Fits) {fuel : Nat} {data : List UInt8} {r : Ring}
    {rp b : Nat} {full free : List Nat} (short : data.length ≤ fuel) (body : r.Body rp b full free)
    (spare : free ≠ []) (sized : 0 < r.blockSize) :
    ∃ (m : Mem UInt8) (size realloc allocs wp : Nat) (full' free' : List Nat),
      bufWriteLoop host fuel r b data = some (r.grown m size realloc allocs, wp) ∧
      free' ≠ [] ∧ (r.grown m size realloc allocs).Body rp wp full' free' ∧
      contents m full' = contents r.mem full ++ data := by
  induction fuel generalizing data r b full free with
  | zero =>
      obtain rfl : data = [] := List.length_eq_zero_iff.mp (Nat.le_zero.mp short)
      exact ⟨r.mem, r.size, r.blockRealloc, r.allocs, b, full, free, rfl, spare, body, by simp⟩
  | succ fuel ih =>
      cases data with
      | nil =>
          exact ⟨r.mem, r.size, r.blockRealloc, r.allocs, b, full, free, rfl, spare, body, by simp⟩
      | cons x xs =>
          obtain ⟨c, rest, rfl⟩ := List.exists_cons_of_ne_nil spare
          obtain rfl : b = c := body.layout.wp_eq
          have roomy : r.mem.size b = r.blockSize := body.layout.sizes b (by simp)
          generalize nEq : (if (x :: xs).length < r.mem.size b then (x :: xs).length
            else r.mem.size b) = n
          have within : n ≤ (x :: xs).length := by
            rw [← nEq]
            split <;> omega
          have positive : 0 < n := by
            rw [← nEq, roomy]
            split
            · simp
            · exact sized
          have taken : ((x :: xs).take n).length = n := List.length_take_of_le within
          have nonempty : (x :: xs).take n ≠ [] := by
            rw [← List.length_pos_iff, taken]
            exact positive
          obtain ⟨filled, stored⟩ := body.store nonempty
          rw [taken] at filled stored
          obtain ⟨m₁, size₁, realloc₁, allocs₁, wp₁, free₁, step, spare₁, body₁, kept₁⟩ :=
            getNextBlock_spec fits filled sized
          have shorter : ((x :: xs).drop n).length ≤ fuel := by
            simp only [List.length_drop, List.length_cons] at short ⊢
            omega
          obtain ⟨m₂, size₂, realloc₂, allocs₂, wp₂, full₂, free₂, loop, spare₂, body₂, kept₂⟩ :=
            ih shorter body₁ spare₁ sized
          refine ⟨m₂, size₂, realloc₂, allocs₂, wp₂, full₂, free₂, ?_, spare₂, body₂, ?_⟩
          · simp only [bufWriteLoop, nEq, step]
            exact loop
          · rw [kept₂]
            show contents m₁ (full ++ [b]) ++ _ = _
            rw [kept₁, stored, List.append_assoc, List.take_append_drop]

theorem alignedSize_pos {minBytes align : Nat} (some : 0 < minBytes) (aligned : 0 < align) :
    0 < alignedSize minBytes align := by
  unfold alignedSize
  split
  · next exact =>
      have split := Nat.div_add_mod minBytes align
      rw [exact, Nat.mul_comm] at split
      omega
  · exact Nat.mul_pos (Nat.succ_pos _) aligned

/-- `rb_data_init` on a ring without data: the blocks get the size of the first write, which fails
when it is empty. -/
theorem rbDataInit_layout (fits : host.Fits) {r : Ring} {free : List Nat} (n : Nat)
    (layout : Layout r.mem 0 r.wp r.wp [] free) (spare : free ≠ []) (aligned : 0 < r.blockAlign) :
    ∃ (m : Mem UInt8) (free' : List Nat), free' ≠ [] ∧
      Layout m (alignedSize n r.blockAlign) r.wp r.wp [] free' ∧
      rbDataInit host r n =
        ({ r with mem := m, blockSize := alignedSize n r.blockAlign,
                  size := r.size + free'.length * alignedSize n r.blockAlign,
                  allocs := r.allocs + 1 }, if n = 0 then .error else .success) := by
  obtain ⟨k, within, count, bytes, given, nothing⟩ := layout.give spare
    (alignedSize n r.blockAlign) (host.freeram r.allocs (alignedSize n r.blockAlign))
  have taken : (free.take k).length = k := List.length_take_of_le within
  simp only [rbDataInit]
  generalize blockDataFastalloc r.mem r.wp _ _ = filled at bytes given nothing
  by_cases empty : n = 0
  · have none : alignedSize n r.blockAlign = 0 := by simp [empty, alignedSize]
    rw [none, Nat.mul_zero] at bytes
    rw [none] at given
    rw [if_pos bytes, if_pos empty, none, bytes]
    rcases Nat.eq_zero_or_pos k with zero | positive
    · exact ⟨filled.1, free, spare, nothing zero, rfl⟩
    · refine ⟨filled.1, free.take k, ?_, given positive, rfl⟩
      rw [← List.length_pos_iff, taken]
      exact positive
  · have sized := alignedSize_pos (Nat.pos_of_ne_zero empty) aligned
    have positive : 0 < k := by
      rw [count sized]
      exact blocksFitting_pos (List.length_pos_iff.mpr spare) sized (fits _ _)
    have some : filled.2 ≠ 0 := by
      rw [bytes]
      exact Nat.pos_iff_ne_zero.mp (Nat.mul_pos positive sized)
    rw [if_neg some, if_neg empty]
    refine ⟨filled.1, free.take k, ?_, given positive, ?_⟩
    · rw [← List.length_pos_iff, taken]
      exact positive
    · rw [bytes, taken]

/-- **The first write gives the blocks their data.** -/
theorem ringDataInit_spec (fits : host.Fits) {r : Ring} {free : List Nat} {n : Nat}
    (shape : r.Shape [] free) (fresh : r.state = .noinit) (some : 0 < n)
    (aligned : 0 < r.blockAlign) :
    ∃ (r' : Ring) (free' : List Nat), ringDataInit host r n = (r', false) ∧ r'.Shape [] free' ∧
      r'.state = .ready ∧ r.Keeps r' ∧ r'.blockSize = alignedSize n r.blockAlign := by
  have layout := shape.body.layout
  have positions : r.rp = r.wp := layout.rp_eq_wp
  have zero : r.blockSize = 0 := (shape.fresh fresh).2
  rw [positions, zero] at layout
  obtain ⟨m, free', spare, given, result⟩ := rbDataInit_layout fits n layout shape.spare aligned
  have emptySize : r.size = 0 := by
    rw [shape.body.capacity, zero, Nat.mul_zero]
  rw [if_neg (Nat.pos_iff_ne_zero.mp some)] at result
  let r' : Ring :=
    { r with
      mem := m
      blockSize := alignedSize n r.blockAlign
      size := r.size + free'.length * alignedSize n r.blockAlign
      allocs := r.allocs + 1
      state := .ready }
  have init : ringDataInit host r n = (r', false) := by
    rw [ringDataInit, result]
    rfl
  refine ⟨r', free', init, ?_, rfl, ⟨rfl, rfl, rfl, rfl, rfl, rfl, rfl⟩, rfl⟩
  refine ⟨⟨?_, List.forall_mem_nil _, ?_, shape.body.grows⟩, spare, shape.count,
    fun _ => alignedSize_pos some aligned, by rintro ⟨⟩⟩
  · show Layout m _ r.rp r.wp _ _
    rw [positions]
    exact given
  · show r.size + free'.length * _ = _
    rw [emptySize, Nat.zero_add, List.nil_append]

/-- A write to an initialised ring without water marks appends its bytes. -/
theorem bufWriteReady_spec (fits : host.Fits) {r : Ring} {q data : List UInt8} (holds : r.Holds q)
    (isReady : r.state = .ready) (noLow : r.lowWaterMark = 0) (noHigh : r.highWaterMark = 0) :
    ∃ r', bufWriteReady host r data = some (r', .success, data.length) ∧ r'.Holds (q ++ data) ∧
      r'.state = .ready ∧ r.Keeps r' := by
  obtain ⟨full, free, shape, rfl⟩ := holds
  obtain ⟨m, size, realloc, allocs, wp, full', free', loop, spare, body, stored⟩ :=
    bufWriteLoop_spec fits (Nat.le_refl data.length) shape.body shape.spare (shape.ready isReady)
  refine ⟨{ r.grown m size realloc allocs with bytes := r.bytes + data.length, wp := wp },
    ?_, ⟨full', free', ⟨⟨body.layout, body.stored, body.capacity, body.grows⟩, spare, ?_,
      shape.ready, ?_⟩, stored⟩, isReady, ⟨rfl, rfl, rfl, rfl, rfl, rfl, rfl⟩⟩
  · simp [bufWriteReady, noLow, loop, finishWrite, Ring.grown, noHigh]
  · show r.bytes + data.length = (contents m full').length
    rw [stored, List.length_append, shape.count]
  · intro notReady
    have contradiction := isReady.symm.trans notReady
    cases contradiction

/-- **A write appends its bytes**, on a ring without water marks whose allocations succeed. The
first write must not be empty. -/
theorem bufWrite_spec (fits : host.Fits) {r : Ring} {q data : List UInt8} (holds : r.Holds q)
    (first : r.state = .noinit → data ≠ []) (aligned : 0 < r.blockAlign)
    (noLow : r.lowWaterMark = 0) (noHigh : r.highWaterMark = 0) :
    ∃ r', bufWrite host r data = some (r', .success, data.length) ∧ r'.Holds (q ++ data) ∧
      r'.state = .ready ∧ r.Keeps r' := by
  cases state : r.state with
  | ready =>
      simp only [bufWrite, state]
      exact bufWriteReady_spec fits holds state noLow noHigh
  | noinit =>
      obtain ⟨full, free, shape, rfl⟩ := holds
      obtain ⟨rfl, _⟩ := shape.fresh state
      obtain ⟨r₁, free₁, init, shape₁, state₁, keeps₁, _⟩ := ringDataInit_spec fits shape state
        (List.length_pos_iff.mpr (first state)) aligned
      obtain ⟨r₂, write, holds₂, state₂, keeps₂⟩ := bufWriteReady_spec fits ⟨[], free₁, shape₁, rfl⟩
        state₁ (keeps₁.lowWaterMark.trans noLow) (keeps₁.highWaterMark.trans noHigh)
      refine ⟨r₂, ?_, holds₂, state₂, ?_⟩
      · simp only [bufWrite, state, init]
        exact write
      · exact ⟨keeps₂.ioRead.trans keeps₁.ioRead, keeps₂.ioWrite.trans keeps₁.ioWrite,
          keeps₂.flush.trans keeps₁.flush, keeps₂.blockAlign.trans keeps₁.blockAlign,
          keeps₂.highWaterMark.trans keeps₁.highWaterMark,
          keeps₂.lowWaterMark.trans keeps₁.lowWaterMark,
          keeps₂.minReturnSize.trans keeps₁.minReturnSize⟩

end Write

/-! ## What a read does -/

/-- A partial read of a block: the bytes taken are the first, the rest stays. -/
theorem shift_take {data : List UInt8} {bytes n : Nat} (within : n ≤ bytes)
    (stored : bytes ≤ data.length) :
    ((data.drop n).take (bytes - n) ++ data.drop (bytes - n)).take (bytes - n) =
      (data.take bytes).drop n := by
  have length : ((data.drop n).take (bytes - n)).length = bytes - n :=
    List.length_take_of_le (by rw [List.length_drop]; omega)
  rw [List.take_append_of_le_length (by omega), List.take_of_length_le (by omega),
    List.drop_take]

/-- What taking `count` bytes from a run of full blocks leaves: the blocks of `done` are used up and
cleared, those of `left` hold the rest. Only blocks of the run change, and none of them its link or
size. -/
structure Drained (m : Mem UInt8) (b hole : Nat) (run : List Nat) (count : Nat) (m' : Mem UInt8)
    (b' : Nat) (done left : List Nat) : Prop where
  split : run = done ++ left
  toBlock : Chain m.next b done b'
  toHole : Chain m.next b' left hole
  brk : m'.brk = m.brk
  fields : ∀ x, m'.next x = m.next x ∧ m'.size x = m.size x
  others : ∀ x, x ∉ run → m'.block x = m.block x
  cleared : ∀ x ∈ done, m'.bytes x = 0
  stored : ∀ x ∈ left, 0 < m'.bytes x ∧ m'.bytes x ≤ (m'.data x).length
  rest : contents m' left = (contents m run).drop count

/-- Blocks that are the same hold the same. -/
theorem contents_same {m m' : Mem UInt8} {blocks : List Nat}
    (same : ∀ x ∈ blocks, m'.block x = m.block x) : contents m' blocks = contents m blocks :=
  contents_congr (fun x member => congrArg Block.data (same x member))
    fun x member => congrArg Block.bytes (same x member)

theorem Drained.refl {m : Mem UInt8} {b hole count : Nat} {run : List Nat}
    (chain : Chain m.next b run hole)
    (stored : ∀ x ∈ run, 0 < m.bytes x ∧ m.bytes x ≤ (m.data x).length)
    (nothing : count = 0 ∨ run = []) : Drained m b hole run count m b [] run := by
  refine ⟨rfl, rfl, chain, rfl, fun _ => ⟨rfl, rfl⟩, fun _ _ => rfl, by simp, stored, ?_⟩
  rcases nothing with rfl | rfl
  · exact List.drop_zero.symm
  · exact List.drop_nil.symm

/-- A block that is not exhausted: its rest moves to the front. -/
theorem Drained.partly {m : Mem UInt8} {b hole n : Nat} {rest : List Nat}
    (tail : Chain m.next (m.next b) rest hole) (nodup : (b :: rest).Nodup)
    (stored : ∀ x ∈ b :: rest, 0 < m.bytes x ∧ m.bytes x ≤ (m.data x).length)
    (partialRead : n < m.bytes b) :
    Drained m b hole (b :: rest) n ((m.modify b (shiftData n)).modify b (takeBytes n)) b []
      (b :: rest) := by
  obtain ⟨filled, held⟩ := stored b (by simp)
  have notRest := (List.nodup_cons.mp nodup).1
  have taken : ((m.data b).take (m.bytes b)).length = m.bytes b := List.length_take_of_le held
  generalize mEq : (m.modify b (shiftData n)).modify b (takeBytes n) = m'
  have atB : m'.block b = takeBytes n (shiftData n (m.block b)) := by
    simp [← mEq]
  have elsewhere : ∀ y, y ≠ b → m'.block y = m.block y := by
    intro y differ
    simp [← mEq, Mem.modify_block_of_ne _ _ differ]
  have bytesEq : m'.bytes b = m.bytes b - n := by
    simp [Mem.bytes, atB, takeBytes, shiftData]
  have dataEq : m'.data b =
      ((m.data b).drop n).take (m.bytes b - n) ++ (m.data b).drop (m.bytes b - n) := by
    simp [Mem.data, Mem.bytes, atB, takeBytes, shiftData]
  have restSame : ∀ y ∈ rest, m'.block y = m.block y := fun y member =>
    elsewhere y fun same => notRest (same ▸ member)
  have content : (m'.data b).take (m'.bytes b) = ((m.data b).take (m.bytes b)).drop n := by
    rw [bytesEq, dataEq]
    exact shift_take (by omega) held
  refine ⟨rfl, rfl, ⟨rfl, tail⟩, ?_, ?_, ?_, by simp, ?_, ?_⟩
  · rw [← mEq]
    rfl
  · intro y
    rw [← mEq]
    constructor
    · exact (Mem.modify_field Block.next _ b (takeBytes n) rfl y).trans
        (Mem.modify_field Block.next m b (shiftData n) rfl y)
    · exact (Mem.modify_field Block.size _ b (takeBytes n) rfl y).trans
        (Mem.modify_field Block.size m b (shiftData n) rfl y)
  · exact fun y notMember => elsewhere y fun same => notMember (by simp [same])
  · intro y member
    rcases List.mem_cons.mp member with rfl | later
    · rw [bytesEq, dataEq]
      simp only [List.length_append, List.length_take, List.length_drop]
      omega
    · simpa [Mem.bytes, Mem.data, restSame y later] using stored y (by simp [later])
  · rw [contents_cons, contents_cons, content, contents_same restSame,
      List.drop_append_of_le_length (by omega)]

/-- A block that is exhausted is cleared, and the bytes still wanted come from the blocks behind
it. -/
theorem Drained.cons {m m₁ m' : Mem UInt8} {b b' hole count : Nat} {rest done left : List Nat}
    (notRest : b ∉ rest) (held : m.bytes b ≤ (m.data b).length) (used : m.bytes b ≤ count)
    (clears : m.modify b (takeBytes (m.bytes b)) = m₁)
    (drained : Drained m₁ (m.next b) hole rest (count - m.bytes b) m' b' done left) :
    Drained m b hole (b :: rest) count m' b' (b :: done) left := by
  have taken : ((m.data b).take (m.bytes b)).length = m.bytes b := List.length_take_of_le held
  have links : ∀ y, m₁.next y = m.next y := by
    rw [← clears]
    exact Mem.modify_field Block.next m b _ rfl
  have sizes : ∀ y, m₁.size y = m.size y := by
    rw [← clears]
    exact Mem.modify_field Block.size m b _ rfl
  have cleared : m₁.bytes b = 0 := by
    simp [← clears, Mem.bytes, takeBytes]
  have elsewhere : ∀ y, y ≠ b → m₁.block y = m.block y := by
    intro y differ
    rw [← clears]
    exact Mem.modify_block_of_ne _ _ differ
  have restSame : ∀ y ∈ rest, m₁.block y = m.block y := fun y member =>
    elsewhere y fun same => notRest (same ▸ member)
  refine ⟨by rw [drained.split]; rfl, ⟨rfl, ?_⟩, ?_, ?_, ?_, ?_, ?_, drained.stored, ?_⟩
  · exact drained.toBlock.congr fun y _ => (links y).symm
  · exact drained.toHole.congr fun y _ => (links y).symm
  · rw [drained.brk, ← clears]
    rfl
  · exact fun y =>
      ⟨(drained.fields y).1.trans (links y), (drained.fields y).2.trans (sizes y)⟩
  · intro y notMember
    simp only [List.mem_cons, not_or] at notMember
    exact (drained.others y notMember.2).trans (elsewhere y notMember.1)
  · intro y member
    rcases List.mem_cons.mp member with rfl | later
    · exact (congrArg Block.bytes (drained.others y notRest)).trans cleared
    · exact drained.cleared y later
  · rw [drained.rest, contents_same restSame, contents_cons, List.drop_append, taken,
      List.drop_eq_nil_of_le (i := count) (by omega), List.nil_append]

/-- Full blocks that follow one another from `b` to an empty block. -/
structure FullRun (m : Mem UInt8) (b hole : Nat) (run : List Nat) : Prop where
  chain : Chain m.next b run hole
  nodup : run.Nodup
  outside : hole ∉ run
  empty : m.bytes hole = 0
  stored : ∀ x ∈ run, 0 < m.bytes x ∧ m.bytes x ≤ (m.data x).length

/-- The run behind a block that is exhausted. -/
theorem FullRun.clear {m m₁ : Mem UInt8} {b hole : Nat} {rest : List Nat}
    (full : FullRun m b hole (b :: rest)) (clears : m.modify b (takeBytes (m.bytes b)) = m₁) :
    FullRun m₁ (m₁.next b) hole rest ∧ contents m₁ rest = contents m rest := by
  obtain ⟨notRest, restNodup⟩ := List.nodup_cons.mp full.nodup
  have elsewhere : ∀ y, y ≠ b → m₁.block y = m.block y := by
    intro y differ
    rw [← clears]
    exact Mem.modify_block_of_ne _ _ differ
  have links : ∀ y, m₁.next y = m.next y := by
    rw [← clears]
    exact Mem.modify_field Block.next m b _ rfl
  have restSame : ∀ y ∈ rest, m₁.block y = m.block y := fun y member =>
    elsewhere y fun same => notRest (same ▸ member)
  refine ⟨⟨?_, restNodup, fun member => full.outside (List.mem_cons_of_mem _ member), ?_, ?_⟩,
    contents_same restSame⟩
  · rw [links]
    exact full.chain.2.congr fun y _ => links y
  · exact (congrArg Block.bytes (elsewhere hole fun same => full.outside (by simp [same]))).trans
      full.empty
  · intro y member
    simpa [Mem.bytes, Mem.data, restSame y member] using full.stored y (by simp [member])

/-- A loop that wants no more returns. -/
theorem bufReadLoop_zero (block : Bool) (align fuel : Nat) (m : Mem UInt8) (b : Nat)
    (out : List UInt8) : bufReadLoop block align fuel m b 0 out = some (m, b, out) := by
  cases fuel <;> rfl

/-- A pass over a block that holds more than is wanted. -/
theorem bufReadLoop_partly (block : Bool) (align fuel : Nat) {m : Mem UInt8} {b remaining : Nat}
    (out : List UInt8) (partialRead : remaining + 1 < m.bytes b) :
    bufReadLoop block align (fuel + 1) m b (remaining + 1) out =
      some ((m.modify b (shiftData (remaining + 1))).modify b (takeBytes (remaining + 1)), b,
        out ++ (m.data b).take (remaining + 1)) := by
  have filled : m.bytes b ≠ 0 := by omega
  simp only [bufReadLoop, if_neg filled, if_pos partialRead, bufReadLoop_zero]

/-- A pass over a block that it exhausts. -/
theorem bufReadLoop_clear (block : Bool) (align fuel : Nat) {m m₁ : Mem UInt8} {b remaining : Nat}
    (out : List UInt8) (filled : 0 < m.bytes b) (exhausts : ¬ remaining + 1 < m.bytes b)
    (clears : m.modify b (takeBytes (m.bytes b)) = m₁) :
    bufReadLoop block align (fuel + 1) m b (remaining + 1) out =
      bufReadLoop block align fuel m₁ (m₁.next b) (remaining + 1 - m.bytes b)
        (out ++ (m.data b).take (m.bytes b)) := by
  simp only [bufReadLoop, if_neg (Nat.pos_iff_ne_zero.mp filled), if_neg exhausts, clears]

/-- **The read loop on a run of full blocks that ends at an empty one.** It returns a prefix of
their contents, clears the blocks it exhausts, and stops at the first block it does not. -/
theorem bufReadLoop_run {hole fuel remaining : Nat} {m : Mem UInt8} {b : Nat}
    (out : List UInt8) {run : List Nat} (short : remaining ≤ fuel) (full : FullRun m b hole run) :
    ∃ (m' : Mem UInt8) (b' : Nat) (done left : List Nat),
      bufReadLoop false 1 fuel m b remaining out =
        some (m', b', out ++ (contents m run).take remaining) ∧
      Drained m b hole run remaining m' b' done left := by
  induction fuel generalizing remaining m b out run with
  | zero =>
      obtain rfl : remaining = 0 := Nat.le_zero.mp short
      exact ⟨m, b, [], run, by simp [bufReadLoop], .refl full.chain full.stored (Or.inl rfl)⟩
  | succ fuel ih =>
      cases remaining with
      | zero =>
          exact ⟨m, b, [], run, by simp [bufReadLoop], .refl full.chain full.stored (Or.inl rfl)⟩
      | succ remaining =>
          cases run with
          | nil =>
              obtain rfl : b = hole := full.chain
              refine ⟨m, b, [], [], ?_, .refl rfl full.stored (Or.inr rfl)⟩
              simp [bufReadLoop, full.empty, Nat.mod_one]
          | cons x rest =>
              obtain rfl : b = x := full.chain.1
              obtain ⟨filled, held⟩ := full.stored b (by simp)
              have taken : ((m.data b).take (m.bytes b)).length = m.bytes b :=
                List.length_take_of_le held
              by_cases partialRead : remaining + 1 < m.bytes b
              · refine ⟨_, b, [], b :: rest, ?_,
                  .partly full.chain.2 full.nodup full.stored partialRead⟩
                rw [bufReadLoop_partly false 1 fuel out partialRead, contents_cons,
                  List.take_append_of_le_length (by omega), List.take_take,
                  Nat.min_eq_left (by omega)]
              · generalize clears : m.modify b (takeBytes (m.bytes b)) = m₁
                obtain ⟨behind, same⟩ := full.clear clears
                obtain ⟨m', b', done, left, loop, drained⟩ :=
                  ih (out ++ (m.data b).take (m.bytes b))
                    (show remaining + 1 - m.bytes b ≤ fuel by omega) behind
                have link : m₁.next b = m.next b := by
                  rw [← clears]
                  exact Mem.modify_field Block.next m b _ rfl b
                rw [link] at drained
                refine ⟨m', b', b :: done, left, ?_,
                  .cons (List.nodup_cons.mp full.nodup).1 held (by omega) clears drained⟩
                rw [bufReadLoop_clear false 1 fuel out filled partialRead clears, loop, same,
                  contents_cons, List.append_assoc, List.take_append, taken,
                  List.take_of_length_le (i := remaining + 1) (by omega)]

/-- **The read loop with an alignment, or blocking.** It does what it does for single bytes, unless
it comes to the empty block with bytes still wanted: then it goes on for ever when it blocks, or
when what it has read is not aligned. -/
theorem bufReadLoop_align (block : Bool) (align fuel remaining : Nat) {hole b : Nat}
    {m : Mem UInt8} (out : List UInt8) {run : List Nat} (full : FullRun m b hole run) :
    bufReadLoop block align fuel m b remaining out =
      if remaining ≤ (contents m run).length ∨
          block = false ∧ (out.length + (contents m run).length) % align = 0 then
        bufReadLoop false 1 fuel m b remaining out
      else none := by
  induction fuel generalizing remaining m b out run with
  | zero =>
      cases remaining with
      | zero => simp [bufReadLoop]
      | succ remaining => simp [bufReadLoop]
  | succ fuel ih =>
      cases remaining with
      | zero => simp [bufReadLoop]
      | succ remaining =>
          cases run with
          | nil =>
              obtain rfl : b = hole := full.chain
              have again := ih (remaining + 1) out full
              have wanted : ¬ remaining + 1 ≤ 0 := by omega
              simp only [contents_nil, List.length_nil, Nat.add_zero, wanted, false_or] at again ⊢
              simp only [bufReadLoop, full.empty, if_true]
              cases block with
              | true => simpa using again
              | false =>
                  by_cases aligned : out.length % align = 0
                  · simp [aligned, Nat.mod_one]
                  · simpa [aligned] using again
          | cons x rest =>
              obtain rfl : b = x := full.chain.1
              obtain ⟨filled, held⟩ := full.stored b (by simp)
              have taken : ((m.data b).take (m.bytes b)).length = m.bytes b :=
                List.length_take_of_le held
              have length : (contents m (b :: rest)).length =
                  m.bytes b + (contents m rest).length := by
                rw [contents_cons, List.length_append, taken]
              by_cases partialRead : remaining + 1 < m.bytes b
              · rw [if_pos (.inl (by omega)), bufReadLoop_partly block align fuel out partialRead,
                  bufReadLoop_partly false 1 fuel out partialRead]
              · generalize clears : m.modify b (takeBytes (m.bytes b)) = m₁
                obtain ⟨behind, same⟩ := full.clear clears
                rw [bufReadLoop_clear block align fuel out filled partialRead clears,
                  bufReadLoop_clear false 1 fuel out filled partialRead clears, ih _ _ behind, same,
                  length, List.length_append, taken]
                simp only [Nat.sub_le_iff_le_add', Nat.add_assoc]

/-- The full blocks of a properly laid out ring with an empty one. -/
theorem Layout.fullRun {blockSize b wp : Nat} {m : Mem UInt8} {full free : List Nat}
    (layout : Layout m blockSize b wp full free) (spare : free ≠ [])
    (stored : ∀ x ∈ full, m.bytes x ≤ (m.data x).length) : FullRun m b wp full := by
  have wpFree : wp ∈ free := layout.toRp.start_mem spare
  have ringNodup := List.nodup_append.mp layout.nodup
  exact ⟨layout.toWp, ringNodup.1, fun member => ringNodup.2.2 wp member wp wpFree rfl,
    layout.empty wp wpFree, fun x member => ⟨layout.filled x member, stored x member⟩⟩

/-- **The read loop removes a prefix of the contents** of a properly laid out ring. -/
theorem bufReadLoop_spec {blockSize wp : Nat} {m : Mem UInt8} {b : Nat} {full free : List Nat}
    (remaining : Nat) (layout : Layout m blockSize b wp full free) (spare : free ≠ [])
    (stored : ∀ x ∈ full, m.bytes x ≤ (m.data x).length) :
    ∃ (m' : Mem UInt8) (b' : Nat) (full' free' : List Nat),
      bufReadLoop false 1 remaining m b remaining [] =
        some (m', b', (contents m full).take remaining) ∧
      Layout m' blockSize b' wp full' free' ∧ free' ≠ [] ∧
      (∀ x ∈ full', m'.bytes x ≤ (m'.data x).length) ∧
      contents m' full' = (contents m full).drop remaining ∧
      (full' ++ free').length = (full ++ free).length := by
  have wpFree : wp ∈ free := layout.toRp.start_mem spare
  have ringNodup := List.nodup_append.mp layout.nodup
  obtain ⟨m', b', done, run', loop, rfl, toB, toWp, brk, fields, others, zero, stored', left⟩ :=
    bufReadLoop_run [] (Nat.le_refl remaining) (layout.fullRun spare stored)
  rw [List.nil_append] at loop
  have perm : (run' ++ (free ++ done)).Perm (done ++ run' ++ free) := by
    rw [← List.append_assoc, List.append_assoc done]
    exact List.perm_append_comm
  refine ⟨m', b', run', free ++ done, loop, ⟨?_, ?_, ?_, ?_, ?_, ?_, ?_⟩, by simp [spare], ?_, left,
    perm.length_eq⟩
  · exact toWp.congr fun x _ => (fields x).1
  · exact (layout.toRp.trans toB).congr fun x _ => (fields x).1
  · exact perm.nodup_iff.mpr layout.nodup
  · intro x member
    rw [brk]
    exact layout.inside x (perm.mem_iff.mp member)
  · intro x member
    exact (fields x).2.trans (layout.sizes x (perm.mem_iff.mp member))
  · exact fun x member => (stored' x member).1
  · intro x member
    rcases List.mem_append.mp member with old | cleared
    · have same := others x fun inRun => ringNodup.2.2 x inRun x old rfl
      exact (congrArg Block.bytes same).trans (layout.empty x old)
    · exact zero x cleared
  · exact fun x member => (stored' x member).2

/-- What a read asks the blocks for: the request rounded down to the alignment, or nothing when the
ring holds less than its minimum. -/
def Ring.toRead (r : Ring) (request align : Nat) : Nat :=
  if r.minReturnSize > r.bytes then 0 else request - request % align

/-- **What a read does.** It removes and returns a prefix of the bytes stored, or goes on for ever:
when it asks for more than there is and blocks, or what there is is not aligned. On a stopped ring,
a read that returns nothing reports completion and disables reading. -/
theorem bufRead_general {r : Ring} {q : List UInt8} (holds : r.Holds q) (request : Nat)
    (block : Bool) (align : Nat) :
    let n := r.toRead request align
    ∃ r', r'.Holds (q.drop n) ∧ r'.state = r.state ∧ r.Keeps r' ∧
      bufRead r request block align =
        if n ≤ q.length ∨ block = false ∧ q.length % align = 0 then
          if r.flush ∧ q.take n = [] then
            some ({ r' with ioRead := .disabling }, .complete, q.take n)
          else some (r', .success, q.take n)
        else none := by
  intro n
  obtain ⟨full, free, shape, rfl⟩ := holds
  obtain ⟨m, b, full', free', loop, layout, spare, stored, rest, same⟩ :=
    bufReadLoop_spec n shape.body.layout shape.spare shape.body.stored
  let r' : Ring :=
    { r with
      mem := m
      bytes := r.bytes - ((contents r.mem full).take n).length
      rp := b }
  refine ⟨r', ⟨full', free', ⟨⟨layout, stored, ?_, shape.body.grows⟩, spare, ?_, shape.ready, ?_⟩,
    rest⟩, rfl, ⟨rfl, rfl, rfl, rfl, rfl, rfl, rfl⟩, ?_⟩
  · rw [same]
    exact shape.body.capacity
  · show r.bytes - _ = (contents m full').length
    rw [rest, shape.count, List.length_take, List.length_drop]
    omega
  · intro fresh
    obtain ⟨nothing, zero⟩ := shape.fresh fresh
    subst nothing
    refine ⟨?_, zero⟩
    cases full' with
    | nil => rfl
    | cons x xs =>
        -- A full block holds a byte, and there was none.
        have filled : 0 < m.bytes x := layout.filled x (by simp)
        have held : m.bytes x ≤ (m.data x).length := stored x (by simp)
        have length := congrArg List.length rest
        simp only [contents_cons, List.length_append, List.length_take_of_le held, contents_nil,
          List.drop_nil, List.length_nil] at length
        omega
  · have run := shape.body.layout.fullRun shape.spare shape.body.stored
    have loops : bufReadLoop block align n r.mem r.rp n [] =
        if n ≤ (contents r.mem full).length ∨
            block = false ∧ (contents r.mem full).length % align = 0 then
          some (m, b, (contents r.mem full).take n)
        else none := by
      rw [bufReadLoop_align block align n n [] run, loop, List.length_nil]
      simp only [Nat.zero_add]
    show (bufReadLoop block align n r.mem r.rp n []).map _ = _
    rw [loops]
    split
    · rw [Option.map_some]
      dsimp only
      by_cases finished : r.flush ∧ (contents r.mem full).take n = []
      · rw [if_pos finished, if_pos finished]
      · rw [if_neg finished, if_neg finished]
    · rfl

/-- **A read of single bytes removes and returns a prefix of the bytes stored.** -/
theorem bufRead_spec {r : Ring} {q : List UInt8} (holds : r.Holds q) (request : Nat)
    (unlimited : r.minReturnSize = 0) :
    ∃ r', r'.Holds (q.drop request) ∧ r'.state = r.state ∧ r.Keeps r' ∧
      bufRead r request false 1 =
        if r.flush ∧ q.take request = [] then
          some ({ r' with ioRead := .disabling }, .complete, q.take request)
        else some (r', .success, q.take request) := by
  have asked : r.toRead request 1 = request := by
    simp [Ring.toRead, unlimited, Nat.mod_one]
  obtain ⟨r', holds', state, keeps, read⟩ := bufRead_general holds request false 1
  rw [if_pos (.inr ⟨rfl, Nat.mod_one _⟩)] at read
  rw [asked] at holds' read
  exact ⟨r', holds', state, keeps, read⟩

end Bingewatch.Buffer
