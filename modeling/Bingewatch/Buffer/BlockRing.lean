import Bingewatch.Buffer.BlockList

/-!
# The layout of a ring of blocks

A ring of blocks that a writer fills and a reader empties has one shape: following the links from
the read position, first come the blocks that hold data, oldest first, then, from the write
position on, the empty ones, back to the read position. `Layout` states this for a store of blocks
and lists both arcs.

The operations of the buffers move the border between the arcs. Filling the block at the write
position moves it to the full arc (`Layout.fill`), clearing the block at the read position moves it
to the end of the empty arc (`Layout.drain`), and linking new blocks behind the last full block
puts them in front of the empty arc (`Layout.splice`). A ring with no empty block has both
positions at the same block; so does a ring with no full one.
-/

set_option autoImplicit false

namespace Bingewatch.Buffer

open Foundation

variable {α : Type}

/-- From `rp` the full blocks lead to `wp`, from there the empty ones lead back. -/
structure Layout (m : Mem α) (blockSize rp wp : Nat) (full free : List Nat) : Prop where
  toWp : Chain m.next rp full wp
  toRp : Chain m.next wp free rp
  nodup : (full ++ free).Nodup
  inside : ∀ x ∈ full ++ free, 0 < x ∧ x < m.brk
  sizes : ∀ x ∈ full ++ free, m.size x = blockSize
  filled : ∀ x ∈ full, 0 < m.bytes x
  empty : ∀ x ∈ free, m.bytes x = 0

namespace Layout

variable {m m' : Mem α} {blockSize rp wp : Nat} {full free : List Nat}

/-- The ring as one cycle from the read position. -/
theorem ring (layout : Layout m blockSize rp wp full free) : Chain m.next rp (full ++ free) rp :=
  layout.toWp.trans layout.toRp

/-- The blocks of the ring are the blocks reachable from the read position. -/
theorem mem_iff_reachable (layout : Layout m blockSize rp wp full free) (some : full ++ free ≠ [])
    {x : Nat} : x ∈ full ++ free ↔ ∃ k, m.next^[k] rp = x :=
  layout.ring.mem_iff_iterate some

/-- Links and sizes of the ring's blocks kept, and each block as full or as empty as before. -/
theorem congr (layout : Layout m blockSize rp wp full free) (brk : m.brk ≤ m'.brk)
    (next : ∀ x ∈ full ++ free, m'.next x = m.next x)
    (size : ∀ x ∈ full ++ free, m'.size x = m.size x)
    (filled : ∀ x ∈ full, 0 < m'.bytes x) (empty : ∀ x ∈ free, m'.bytes x = 0) :
    Layout m' blockSize rp wp full free where
  toWp := layout.toWp.congr fun x member => next x (List.mem_append_left _ member)
  toRp := layout.toRp.congr fun x member => next x (List.mem_append_right _ member)
  nodup := layout.nodup
  inside := fun x member =>
    ⟨(layout.inside x member).1, Nat.lt_of_lt_of_le (layout.inside x member).2 brk⟩
  sizes := fun x member => (size x member).trans (layout.sizes x member)
  filled := filled
  empty := empty

/-- Blocks outside the ring may change. -/
theorem frame (layout : Layout m blockSize rp wp full free) (brk : m.brk ≤ m'.brk)
    (same : ∀ x ∈ full ++ free, m'.block x = m.block x) :
    Layout m' blockSize rp wp full free := by
  refine layout.congr brk ?_ ?_ ?_ ?_
  · exact fun x member => congrArg Block.next (same x member)
  · exact fun x member => congrArg Block.size (same x member)
  · intro x member
    have kept : m'.bytes x = m.bytes x :=
      congrArg Block.bytes (same x (List.mem_append_left _ member))
    exact kept ▸ layout.filled x member
  · intro x member
    have kept : m'.bytes x = m.bytes x :=
      congrArg Block.bytes (same x (List.mem_append_right _ member))
    exact kept ▸ layout.empty x member

/-- Changing one block, its link and size kept. -/
theorem modify {x : Nat} {f : Block α → Block α} (layout : Layout m blockSize rp wp full free)
    (next : (f (m.block x)).next = m.next x) (size : (f (m.block x)).size = m.size x)
    (filled : x ∈ full → 0 < (f (m.block x)).bytes)
    (empty : x ∈ free → (f (m.block x)).bytes = 0) :
    Layout (m.modify x f) blockSize rp wp full free := by
  refine layout.congr (Nat.le_refl _) ?_ ?_ ?_ ?_
  · exact fun y _ => Mem.modify_field Block.next m x f next y
  · exact fun y _ => Mem.modify_field Block.size m x f size y
  · intro y member
    by_cases here : y = x
    · subst here
      simpa [Mem.bytes] using filled member
    · simpa [Mem.bytes, Mem.modify_block_of_ne _ _ here] using layout.filled y member
  · intro y member
    by_cases here : y = x
    · subst here
      simpa [Mem.bytes] using empty member
    · simpa [Mem.bytes, Mem.modify_block_of_ne _ _ here] using layout.empty y member

theorem wp_eq {x : Nat} {rest : List Nat} (layout : Layout m blockSize rp wp full (x :: rest)) :
    wp = x := layout.toRp.start_eq_head

theorem rp_eq {x : Nat} {rest : List Nat} (layout : Layout m blockSize rp wp (x :: rest) free) :
    rp = x := layout.toWp.start_eq_head

/-- With no empty block the write position is the read position. -/
theorem wp_eq_rp (layout : Layout m blockSize rp wp full []) : wp = rp := layout.toRp

/-- With no full block the read position is the write position. -/
theorem rp_eq_wp (layout : Layout m blockSize rp wp [] free) : rp = wp := layout.toWp

/-- **Filling the block at the write position.** -/
theorem fill {x : Nat} {rest : List Nat} {f : Block α → Block α}
    (layout : Layout m blockSize rp wp full (x :: rest))
    (next : (f (m.block x)).next = m.next x) (size : (f (m.block x)).size = m.size x)
    (filled : 0 < (f (m.block x)).bytes) :
    Layout (m.modify x f) blockSize rp (m.next x) (full ++ [x]) rest := by
  have links : ∀ y, (m.modify x f).next y = m.next y := Mem.modify_field Block.next m x f next
  have split : full ++ [x] ++ rest = full ++ x :: rest := by simp
  obtain ⟨start, tail⟩ := layout.toRp
  have xNotFull : x ∉ full := fun member =>
    (List.nodup_append.mp layout.nodup).2.2 x member x (by simp) rfl
  have xNotRest : x ∉ rest := (List.nodup_cons.mp (List.nodup_append.mp layout.nodup).2.1).1
  refine ⟨?_, ?_, ?_, ?_, ?_, ?_, ?_⟩
  · rw [chain_concat]
    have toX : Chain m.next rp full x := start ▸ layout.toWp
    exact ⟨toX.congr fun y _ => links y, links x⟩
  · exact tail.congr fun y _ => links y
  · rw [split]
    exact layout.nodup
  · rw [split]
    exact layout.inside
  · rw [split]
    intro y member
    exact (Mem.modify_field Block.size m x f size y).trans (layout.sizes y member)
  · intro y member
    rcases List.mem_append.mp member with old | new
    · have differ : y ≠ x := fun same => xNotFull (same ▸ old)
      simpa [Mem.bytes, Mem.modify_block_of_ne _ _ differ] using layout.filled y old
    · obtain rfl : y = x := by simpa using new
      simpa [Mem.bytes] using filled
  · intro y member
    have differ : y ≠ x := fun same => xNotRest (same ▸ member)
    simpa [Mem.bytes, Mem.modify_block_of_ne _ _ differ] using
      layout.empty y (List.mem_cons_of_mem _ member)

/-- **Clearing the block at the read position.** -/
theorem drain {x : Nat} {rest : List Nat} {f : Block α → Block α}
    (layout : Layout m blockSize rp wp (x :: rest) free)
    (next : (f (m.block x)).next = m.next x) (size : (f (m.block x)).size = m.size x)
    (empty : (f (m.block x)).bytes = 0) :
    Layout (m.modify x f) blockSize (m.next x) wp rest (free ++ [x]) := by
  have links : ∀ y, (m.modify x f).next y = m.next y := Mem.modify_field Block.next m x f next
  have perm : (rest ++ (free ++ [x])).Perm (x :: rest ++ free) := by
    have front : (rest ++ free ++ [x]).Perm (x :: (rest ++ free)) := List.perm_append_singleton ..
    rw [← List.append_assoc]
    exact front
  obtain ⟨start, tail⟩ := layout.toWp
  have xNot : x ∉ rest ++ free := (List.nodup_cons.mp layout.nodup).1
  refine ⟨?_, ?_, ?_, ?_, ?_, ?_, ?_⟩
  · exact tail.congr fun y _ => links y
  · rw [chain_concat]
    have toX : Chain m.next wp free x := start ▸ layout.toRp
    exact ⟨toX.congr fun y _ => links y, links x⟩
  · exact perm.nodup_iff.mpr layout.nodup
  · exact fun y member => layout.inside y (perm.mem_iff.mp member)
  · intro y member
    exact (Mem.modify_field Block.size m x f size y).trans
      (layout.sizes y (perm.mem_iff.mp member))
  · intro y member
    have differ : y ≠ x := fun same => xNot (same ▸ List.mem_append_left _ member)
    simpa [Mem.bytes, Mem.modify_block_of_ne _ _ differ] using
      layout.filled y (List.mem_cons_of_mem _ member)
  · intro y member
    rcases List.mem_append.mp member with old | new
    · have differ : y ≠ x := fun same => xNot (same ▸ List.mem_append_right _ old)
      simpa [Mem.bytes, Mem.modify_block_of_ne _ _ differ] using layout.empty y old
    · obtain rfl : y = x := by simpa using new
      simpa [Mem.bytes] using empty

/-- Link the list from `head` to `tail` between the block `x` and its successor: what the buffers
do to grow. -/
def spliced (m : Mem α) (x head tail next : Nat) : Mem α :=
  (m.modify x fun block => { block with next := head }).modify tail
    fun block => { block with next := next }

theorem spliced_field {β : Type} (field : Block α → β)
    (ignores : ∀ (block : Block α) (next : Nat), field { block with next := next } = field block)
    (m : Mem α) (x head tail next y : Nat) :
    field ((spliced m x head tail next).block y) = field (m.block y) := by
  unfold spliced
  rw [Mem.modify_field field _ _ _ (ignores _ _), Mem.modify_field field _ _ _ (ignores _ _)]

/-- The chain through `x` gets the list from `head` to `tail` between `x` and what followed. -/
theorem spliced_chain {before after init : List Nat} {start x wp stop head tail : Nat}
    (toWp : Chain m.next start (before ++ [x]) wp) (toStop : Chain m.next wp after stop)
    (ringNodup : (before ++ [x] ++ after).Nodup)
    (chain : Chain m.next head (init ++ [tail]) 0) (nodup : (init ++ [tail]).Nodup)
    (apart : ∀ y ∈ init ++ [tail], y ∉ before ++ [x] ++ after) :
    Chain (spliced m x head tail (m.next x)).next start (before ++ [x]) head ∧
      Chain (spliced m x head tail (m.next x)).next head (init ++ [tail] ++ after) stop := by
  have tailApart : tail ∉ before ++ [x] ++ after := apart tail (by simp)
  have tailNe : tail ≠ x := fun same => tailApart (by simp [same])
  have atTail : (spliced m x head tail (m.next x)).next tail = m.next x := by
    simp [spliced, Mem.next]
  have atX : (spliced m x head tail (m.next x)).next x = head := by
    simp [spliced, Mem.next, Mem.modify_block_of_ne _ _ tailNe.symm]
  have elsewhere : ∀ y, y ≠ x → y ≠ tail →
      (spliced m x head tail (m.next x)).next y = m.next y := by
    intro y notX notTail
    simp [spliced, Mem.next, Mem.modify_block_of_ne _ _ notTail, Mem.modify_block_of_ne _ _ notX]
  obtain ⟨initChain, _⟩ := chain_concat.mp chain
  obtain ⟨beforeChain, last⟩ := chain_concat.mp toWp
  have ringNodup := List.nodup_append.mp ringNodup
  have tailNotInit : tail ∉ init := fun member =>
    (List.nodup_append.mp nodup).2.2 tail member tail (by simp) rfl
  constructor
  · rw [chain_concat]
    refine ⟨beforeChain.congr fun y member => elsewhere y ?_ ?_, atX⟩
    · exact fun same => (List.nodup_append.mp ringNodup.1).2.2 y member y (by simp [same]) rfl
    · exact fun same => tailApart (by simp [← same, member])
  · rw [chain_append]
    refine ⟨wp, ?_, ?_⟩
    · rw [chain_concat]
      refine ⟨initChain.congr fun y member => elsewhere y ?_ ?_, by rw [atTail, last]⟩
      · exact fun same => apart y (by simp [member]) (by simp [same])
      · exact fun same => tailNotInit (same ▸ member)
    · refine toStop.congr fun y member => elsewhere y ?_ ?_
      · exact fun same => ringNodup.2.2 y (by simp [same]) y member rfl
      · exact fun same => tailApart (by simp [← same, member])

/-- **Linking new blocks behind the last full one.** The new blocks come first in the empty arc. -/
theorem splice {before : List Nat} {x head tail : Nat} {init : List Nat}
    (layout : Layout m blockSize rp wp (before ++ [x]) free)
    (chain : Chain m.next head (init ++ [tail]) 0) (nodup : (init ++ [tail]).Nodup)
    (apart : ∀ y ∈ init ++ [tail], y ∉ before ++ [x] ++ free)
    (inside : ∀ y ∈ init ++ [tail], 0 < y ∧ y < m.brk)
    (sizes : ∀ y ∈ init ++ [tail], m.size y = blockSize)
    (empty : ∀ y ∈ init ++ [tail], m.bytes y = 0) :
    Layout (spliced m x head tail (m.next x)) blockSize rp head (before ++ [x])
      (init ++ [tail] ++ free) := by
  have size : ∀ y, (spliced m x head tail (m.next x)).size y = m.size y :=
    spliced_field Block.size (fun _ _ => rfl) m x head tail (m.next x)
  have bytes : ∀ y, (spliced m x head tail (m.next x)).bytes y = m.bytes y :=
    spliced_field Block.bytes (fun _ _ => rfl) m x head tail (m.next x)
  obtain ⟨toHead, toRp⟩ :=
    spliced_chain layout.toWp layout.toRp layout.nodup chain nodup apart
  have perm : (before ++ [x] ++ (init ++ [tail] ++ free)).Perm
      (init ++ [tail] ++ (before ++ [x] ++ free)) :=
    List.perm_append_comm_assoc ..
  refine ⟨toHead, toRp, ?_, ?_, ?_, ?_, ?_⟩
  · rw [perm.nodup_iff, List.nodup_append]
    exact ⟨nodup, layout.nodup, fun y new z old same => apart y new (same ▸ old)⟩
  · intro y member
    have brk : (spliced m x head tail (m.next x)).brk = m.brk := rfl
    rw [brk]
    rcases List.mem_append.mp (perm.mem_iff.mp member) with new | old
    · exact inside y new
    · exact layout.inside y old
  · intro y member
    rw [size]
    rcases List.mem_append.mp (perm.mem_iff.mp member) with new | old
    · exact sizes y new
    · exact layout.sizes y old
  · intro y member
    rw [bytes]
    exact layout.filled y member
  · intro y member
    rw [bytes]
    rcases List.mem_append.mp member with new | old
    · exact empty y new
    · exact layout.empty y old

/-- **Growing a ring.** A newly allocated list linked behind the last full block comes first in the
empty arc; the blocks of the ring keep their data and their counts. -/
theorem grow {before added : List Nat} {x head : Nat}
    (layout : Layout m blockSize rp wp (before ++ [x]) free)
    (fresh : FreshList m m' blockSize head added) (some : added ≠ []) :
    let grown := spliced m' x head (listTail m' m'.brk head) (m'.next x)
    Layout grown blockSize rp head (before ++ [x]) (added ++ free) ∧ grown.next x = head ∧
      m'.next x = m.next x ∧ grown.brk = m'.brk ∧
      ∀ y ∈ before ++ [x] ++ free, grown.data y = m.data y ∧ grown.bytes y = m.bytes y := by
  intro grown
  have allocated : 0 < m.brk := by
    have bound := layout.inside x (by simp)
    omega
  obtain ⟨init, tail, rfl⟩ : ∃ init tail, added = init ++ [tail] :=
    ⟨added.dropLast, added.getLast some, (List.dropLast_append_getLast _).symm⟩
  have newInside : ∀ y ∈ init ++ [tail], 0 < y ∧ y < m'.brk := by
    intro y member
    have bound := fresh.fresh y member
    exact ⟨Nat.lt_of_lt_of_le allocated bound.1, bound.2⟩
  have apart : ∀ y ∈ init ++ [tail], y ∉ before ++ [x] ++ free := by
    intro y member inside
    have new := (fresh.fresh y member).1
    have bound := (layout.inside y inside).2
    omega
  have old : ∀ y ∈ before ++ [x] ++ free, m'.block y = m.block y := fun y member =>
    fresh.older y (layout.inside y member).2
  have tailEq : listTail m' m'.brk head = tail :=
    fresh.listTail_eq allocated (fun _ _ => rfl) rfl
  have kept : Layout m' blockSize rp wp (before ++ [x]) free := layout.frame fresh.grows old
  have differ : x ≠ tail := fun same => apart tail (by simp) (by simp [same])
  have shape : grown = spliced m' x head tail (m'.next x) := by rw [← tailEq]
  rw [shape]
  refine ⟨kept.splice fresh.chain fresh.nodup apart newInside fresh.sizes fresh.empty, ?_,
    congrArg Block.next (old x (by simp)), rfl, fun y member => ⟨?_, ?_⟩⟩
  · simp [spliced, Mem.next, Mem.modify_block_of_ne _ _ differ]
  · exact (spliced_field Block.data (fun _ _ => rfl) m' x head tail _ y).trans
      (congrArg Block.data (old y member))
  · exact (spliced_field Block.bytes (fun _ _ => rfl) m' x head tail _ y).trans
      (congrArg Block.bytes (old y member))

/-- **Giving the blocks of an empty ring their data.** The ring shrinks to the blocks that got
some. -/
theorem give {p : Nat} (layout : Layout m blockSize p p [] free) (spare : free ≠ [])
    (bytesPerBlock freeram : Nat) :
    let result := blockDataFastalloc m p bytesPerBlock freeram
    ∃ k, k ≤ free.length ∧
      (0 < bytesPerBlock → k = blocksFitting bytesPerBlock freeram free.length) ∧
      result.2 = k * bytesPerBlock ∧
      (0 < k → Layout result.1 bytesPerBlock p p [] (free.take k)) ∧
      (k = 0 → Layout result.1 blockSize p p [] free) := by
  intro result
  cases free with
  | nil => exact absurd rfl spare
  | cons x rest =>
  obtain rfl : p = x := layout.wp_eq
  obtain ⟨k, within, count, bytes, brk, others, linked, parts⟩ :=
    blockDataFastalloc_spec bytesPerBlock freeram layout.toRp layout.nodup layout.inside
      (Or.inr rfl)
  refine ⟨k, within, count, bytes, fun positive => ?_, ?_⟩
  · refine ⟨rfl, linked positive, layout.nodup.sublist (List.take_sublist ..), ?_, ?_, ?_, ?_⟩
    · intro y member
      have bound := layout.inside y (List.mem_of_mem_take member)
      exact ⟨bound.1, brk ▸ bound.2⟩
    · exact fun y member => (parts y member).1
    · intro y member
      cases member
    · exact fun y member => (parts y member).2.1
  · rintro rfl
    exact layout.frame (Nat.le_of_eq brk.symm) fun y _ => others y (by simp)

end Layout

/-! ## New rings -/

/-- A list of blocks allocated, given data and closed to a ring, and its first block. No failure of
`block_data_fastalloc` is seen: the ring consists of the blocks that got data. -/
def newRing (bytesPerBlock nBlocks freeram : Nat) : Mem α × Nat :=
  let (m, blocks) := blockListAlloc ({} : Mem α) nBlocks
  let (m, _) := blockDataFastalloc m blocks bytesPerBlock freeram
  (forgeRing m blocks, blocks)

/-- A new list closed to a ring is a ring of empty blocks. -/
theorem newRing_layout_of_fresh {bytesPerBlock nBlocks freeram size : Nat} {added : List Nat}
    (some : added ≠ [])
    (fresh : FreshList ({} : Mem α)
      (blockDataFastalloc (blockListAlloc ({} : Mem α) nBlocks).1
        (blockListAlloc ({} : Mem α) nBlocks).2 bytesPerBlock freeram).1 size
      (blockListAlloc ({} : Mem α) nBlocks).2 added) :
    Layout (newRing (α := α) bytesPerBlock nBlocks freeram).1 size
      (newRing (α := α) bytesPerBlock nBlocks freeram).2
      (newRing (α := α) bytesPerBlock nBlocks freeram).2 [] added := by
  generalize given : blockDataFastalloc (blockListAlloc ({} : Mem α) nBlocks).1
    (blockListAlloc ({} : Mem α) nBlocks).2 bytesPerBlock freeram = filled at fresh
  generalize head : (blockListAlloc ({} : Mem α) nBlocks).2 = buf at given fresh
  have shape : newRing (α := α) bytesPerBlock nBlocks freeram = (forgeRing filled.1 buf, buf) := by
    simp only [newRing, head, given]
  rw [shape]
  cases added with
  | nil => exact absurd rfl some
  | cons x rest =>
      obtain rfl : buf = x := fresh.chain.start_eq_head
      have inside : ∀ y ∈ buf :: rest, 0 < y ∧ y < filled.1.brk := fun y member =>
        ⟨(fresh.fresh y member).1, (fresh.fresh y member).2⟩
      obtain ⟨ring, brk, same⟩ := forgeRing_spec fresh.chain fresh.nodup inside
      refine ⟨rfl, ring, fresh.nodup, ?_, ?_, ?_, ?_⟩
      · intro y member
        exact ⟨(inside y member).1, brk.symm ▸ (inside y member).2⟩
      · intro y member
        exact (congrArg Block.size (same y)).trans (fresh.sizes y member)
      · intro y member
        cases member
      · intro y member
        exact (congrArg Block.bytes (same y)).trans (fresh.empty y member)

/-- **A new ring is a ring of empty blocks.** -/
theorem newRing_layout {bytesPerBlock nBlocks freeram : Nat} (positive : 0 < bytesPerBlock)
    (some : 0 < nBlocks) (fits : bytesPerBlock < freeram) :
    ∃ free, free ≠ [] ∧
      Layout (newRing (α := α) bytesPerBlock nBlocks freeram).1 bytesPerBlock
        (newRing (α := α) bytesPerBlock nBlocks freeram).2
        (newRing (α := α) bytesPerBlock nBlocks freeram).2 [] free := by
  obtain ⟨added, length, list, _⟩ := blockDataFastalloc_fresh ({} : Mem α) freeram some
    (show 0 < 1 from Nat.one_pos) positive
  have nonempty : added ≠ [] := by
    rw [← List.length_pos_iff, length]
    exact blocksFitting_pos some positive fits
  exact ⟨added, nonempty, newRing_layout_of_fresh nonempty (list nonempty)⟩

/-- Without memory for a block the ring has blocks of another size. -/
theorem newRing_layout_any {nBlocks : Nat} (bytesPerBlock freeram : Nat) (some : 0 < nBlocks) :
    ∃ size free, free ≠ [] ∧
      Layout (newRing (α := α) bytesPerBlock nBlocks freeram).1 size
        (newRing (α := α) bytesPerBlock nBlocks freeram).2
        (newRing (α := α) bytesPerBlock nBlocks freeram).2 [] free := by
  obtain ⟨size, added, nonempty, fresh⟩ := blockDataFastalloc_list ({} : Mem α) bytesPerBlock
    freeram some (show 0 < 1 from Nat.one_pos)
  exact ⟨size, added, nonempty, newRing_layout_of_fresh nonempty fresh⟩

section Empty

variable {m : Mem α}

theorem bytes_set_zero (zero : ∀ x, m.bytes x = 0) {a : Nat} {b : Block α} (empty : b.bytes = 0)
    (x : Nat) : (m.set a b).bytes x = 0 := by
  by_cases here : x = a
  · subst here
    simpa [Mem.bytes] using empty
  · rw [Mem.bytes, Mem.set_block_of_ne m b here]
    exact zero x

theorem blockListAllocLoop_zero (n : Nat) :
    ∀ (m : Mem α) (b : Nat), (∀ x, m.bytes x = 0) →
      ∀ x, (blockListAllocLoop n m b).bytes x = 0 := by
  induction n with
  | zero => exact fun _ _ zero => zero
  | succ n ih =>
      intro m b zero
      have fresh : ∀ x, Mem.bytes { m.set m.brk {} with brk := m.brk + 1 } x = 0 :=
        bytes_set_zero zero rfl
      simp only [blockListAllocLoop]
      apply ih _ _
      split
      · exact fresh
      · exact bytes_set_zero fresh (fresh b)

theorem fastallocPartition_zero (bytesPerBlock finalNext n : Nat) :
    ∀ (m : Mem α) (b : Nat), (∀ x, m.bytes x = 0) →
      ∀ x, (fastallocPartition bytesPerBlock finalNext n m b).bytes x = 0 := by
  induction n with
  | zero => exact fun _ _ zero => zero
  | succ n ih =>
      intro m b zero
      simp only [fastallocPartition]
      split
      · exact bytes_set_zero (bytes_set_zero zero rfl) (bytes_set_zero zero rfl b)
      · exact ih _ _ (bytes_set_zero zero rfl)

theorem forgeRingLoop_zero (first fuel : Nat) (zero : ∀ x, m.bytes x = 0) :
    ∀ b x, (forgeRingLoop m first fuel b).bytes x = 0 := by
  induction fuel with
  | zero => exact fun _ => zero
  | succ fuel ih =>
      intro b
      simp only [forgeRingLoop]
      split
      · exact bytes_set_zero zero (zero b)
      · split
        · exact zero
        · exact ih _

/-- No block of a new ring holds anything, nor does any other. -/
theorem newRing_bytes (bytesPerBlock nBlocks freeram x : Nat) :
    (newRing (α := α) bytesPerBlock nBlocks freeram).1.bytes x = 0 := by
  have list : ∀ x, (blockListAlloc ({} : Mem α) nBlocks).1.bytes x = 0 := by
    unfold blockListAlloc
    split
    · exact fun _ => rfl
    · exact blockListAllocLoop_zero nBlocks _ _ fun _ => rfl
  unfold newRing
  generalize blockListAlloc ({} : Mem α) nBlocks = allocated at list
  have filled : ∀ x, (blockDataFastalloc allocated.1 allocated.2 bytesPerBlock freeram).1.bytes x =
      0 := by
    unfold blockDataFastalloc
    split
    · exact list
    · split
      · exact list
      · exact fastallocPartition_zero _ _ _ _ _ list
  exact forgeRingLoop_zero _ _ filled _ x

end Empty

end Bingewatch.Buffer
