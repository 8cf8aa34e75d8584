import Mathlib.Data.List.Basic

/-!
# The segment table of a stream

A stream keeps its segments in a table that grows by ten entries at a time (`add_segment` in
`src/stream.c`). An entry is a pointer, but the memory for the table is requested in units of an
`int`.

Two quantities are always in step: the entries are enough for the segments, and the bytes requested
are four for each entry (`SegmentTable.Kept`). The bytes are enough for the pointers only as long as
the table is half empty: up to the fifth segment (`segments_fit_iff`).
-/

set_option autoImplicit false

namespace Bingewatch.Stream

variable {α : Type}

/-! ## The table -/

/-- `sizeof(int)`. -/
def sizeofInt : Nat := 4

/-- `sizeof(IO_SEGMENT)`, a pointer. -/
def sizeofSegment : Nat := 8

/-- A store into the table: its index, the segment, and the bytes that the table then has. -/
structure SegmentStore (α : Type) where
  index : Nat
  seg : α
  allocated : Nat
  deriving DecidableEq, Repr

/-- The store is inside the allocation. -/
def SegmentStore.Inside (store : SegmentStore α) : Prop :=
  (store.index + 1) * sizeofSegment ≤ store.allocated

/-- The fields of `struct io_stream_t` for the table: the number of segments, the entries, and for
`segments` the bytes last requested and the stores. -/
structure SegmentTable (α : Type) where
  nSegment : Nat := 0
  segmentLen : Nat := 0
  requested : Nat := 0
  stores : List (SegmentStore α) := []

/-- The part of `add_segment` that makes room for an entry. -/
def SegmentTable.grow (t : SegmentTable α) (i : Nat) : SegmentTable α :=
  if i ≥ t.segmentLen then
    { t with
      segmentLen := t.segmentLen + 10
      requested := sizeofInt * (t.segmentLen + 10) }
  else t

/-- `add_segment`. -/
def SegmentTable.addSegment (t : SegmentTable α) (seg : α) : SegmentTable α :=
  let i := t.nSegment
  let t := { t with nSegment := t.nSegment + 1 }
  let t := t.grow i
  { t with stores := t.stores ++ [{ index := i, seg := seg, allocated := t.requested }] }

/-- A call that adds to a stream, with the segments that it makes. -/
inductive AddCall (α : Type) where
  | addSrcSegment (src seg : α)
  | addSegment (seg : α)
  | addTeeSegment (seg : α)
  deriving DecidableEq, Repr

/-- The segments of a call. -/
def AddCall.segments : AddCall α → List α
  | .addSrcSegment src seg => [src, seg]
  | .addSegment seg => [seg]
  | .addTeeSegment seg => [seg]

/-- `io_stream_add_src_segment`, `io_stream_add_segment` and `io_stream_add_tee_segment`. -/
def SegmentTable.call (t : SegmentTable α) : AddCall α → SegmentTable α
  | .addSrcSegment src seg => (t.addSegment src).addSegment seg
  | .addSegment seg => t.addSegment seg
  | .addTeeSegment seg => t.addSegment seg

/-- The calls of a sequence, one after the other. -/
def SegmentTable.run (t : SegmentTable α) (calls : List (AddCall α)) : SegmentTable α :=
  calls.foldl SegmentTable.call t

/-! ## What is kept -/

/-- What `k` calls of `add_segment` leave: the entries are enough for them, four bytes are requested
for each entry, and the `i`-th store found four bytes for each of the entries that it needs. -/
structure SegmentTable.Kept (t : SegmentTable α) (k : Nat) : Prop where
  count : t.nSegment = k
  entries : t.segmentLen = (k + 9) / 10 * 10
  bytes : t.requested = sizeofInt * t.segmentLen
  indices : t.stores.map SegmentStore.index = List.range k
  allocated : ∀ store ∈ t.stores, store.allocated = sizeofInt * ((store.index + 10) / 10 * 10)

theorem SegmentTable.Kept.grow {t : SegmentTable α} {k : Nat} (kept : t.Kept k) (n : Nat) :
    SegmentTable.grow { t with nSegment := n } k =
      { t with
        nSegment := n
        segmentLen := (k + 10) / 10 * 10
        requested := sizeofInt * ((k + 10) / 10 * 10) } := by
  have entries := kept.entries
  have bytes := kept.bytes
  unfold SegmentTable.grow
  split
  · next full =>
      have full' : k ≥ t.segmentLen := full
      have longer : t.segmentLen + 10 = (k + 10) / 10 * 10 := by omega
      simp only [longer]
  · next room =>
      have room' : ¬k ≥ t.segmentLen := room
      have same : t.segmentLen = (k + 10) / 10 * 10 := by omega
      rw [same] at bytes
      rw [← bytes, ← same]

/-- **One segment.** -/
theorem SegmentTable.Kept.addSegment {t : SegmentTable α} {k : Nat} (kept : t.Kept k) (seg : α) :
    (t.addSegment seg).Kept (k + 1) := by
  have count := kept.count
  have grown := kept.grow (k + 1)
  simp only [SegmentTable.addSegment, count, grown]
  refine ⟨rfl, rfl, rfl, ?_, ?_⟩
  · rw [List.map_append, kept.indices, List.range_succ]
    rfl
  · intro store member
    rcases List.mem_append.mp member with earlier | here
    · exact kept.allocated store earlier
    · cases List.mem_singleton.mp here
      rfl

/-- **A sequence of calls.** -/
theorem SegmentTable.Kept.run {t : SegmentTable α} {k : Nat} (kept : t.Kept k)
    (calls : List (AddCall α)) :
    (t.run calls).Kept (k + (calls.flatMap AddCall.segments).length) := by
  induction calls generalizing t k with
  | nil => exact kept
  | cons c calls ih =>
      rw [List.flatMap_cons, List.length_append, ← Nat.add_assoc]
      refine ih ?_
      cases c with
      | addSrcSegment src seg => exact (kept.addSegment src).addSegment seg
      | addSegment seg => exact kept.addSegment seg
      | addTeeSegment seg => exact kept.addSegment seg

/-! ## When the table is large enough -/

/-- The bytes last requested are enough for the segments, and every store was inside. -/
def SegmentTable.Fits (t : SegmentTable α) : Prop :=
  t.nSegment * sizeofSegment ≤ t.requested ∧ ∀ store ∈ t.stores, store.Inside

/-- Table of the first `k` segments. -/
theorem SegmentTable.Kept.fits_iff {t : SegmentTable α} {k : Nat} (kept : t.Kept k) :
    t.Fits ↔ k ≤ 5 := by
  have entries := kept.entries
  unfold SegmentTable.Fits
  rw [kept.count, kept.bytes, entries]
  simp only [sizeofSegment, sizeofInt]
  refine ⟨fun fits => by omega, fun few => ⟨by omega, fun store member => ?_⟩⟩
  have index : store.index < k := by
    rw [← List.mem_range, ← kept.indices]
    exact List.mem_map_of_mem member
  rw [SegmentStore.Inside, kept.allocated store member]
  simp only [sizeofSegment, sizeofInt]
  omega

/-- **The segment table is large enough** exactly for up to five segments, however they are
added. -/
theorem segments_fit_iff (calls : List (AddCall α)) :
    (SegmentTable.run {} calls).nSegment = (calls.flatMap AddCall.segments).length ∧
      ((SegmentTable.run {} calls).Fits ↔ (calls.flatMap AddCall.segments).length ≤ 5) := by
  have empty : SegmentTable.Kept ({} : SegmentTable α) 0 :=
    ⟨rfl, rfl, rfl, rfl, List.forall_mem_nil _⟩
  have kept := empty.run calls
  rw [Nat.zero_add] at kept
  exact ⟨kept.count, kept.fits_iff⟩

/-- Three source segments make six entries, for which forty bytes were requested. -/
theorem sixth_segment_outside :
    let t := SegmentTable.run {} [.addSrcSegment 1 2, .addSrcSegment 3 4, .addSrcSegment 5 6]
    t.nSegment = 6 ∧ t.requested = 40 ∧ ¬t.Fits := by
  intro t
  refine ⟨rfl, rfl, fun fits => ?_⟩
  exact absurd fits.1 (by decide)

end Bingewatch.Stream
