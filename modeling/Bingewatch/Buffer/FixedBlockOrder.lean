import Bingewatch.Buffer.FixedBlock

/-!
# Order in the fixed block buffer

The reader of a fixed block buffer clears its block under the descriptor's lock and follows the
block's link after releasing it. In between a writer that has filled every other block may fill this
one as well, and then it links new blocks behind it: the reader follows the link to the new blocks
and leaves the data behind it unread.

In every run that keeps the two apart at this point, that is, in which the writer commits no block
that the reader has cleared and not yet left, the blocks between the positions hold the writes not
yet read, in order (`Buf.Inv`). The results of the non-empty reads are then the first writes, and
when both threads are between calls the block at the read position holds data whenever any block of
the ring does.
-/

set_option autoImplicit false

namespace Bingewatch.Buffer.FixedBlock

open Foundation

/-! ## The property -/

/-- The reads that returned data returned the first writes, one each, and between calls the block at
the read position holds data if any block of the ring does. -/
structure Buf.Ordered (s : Buf) : Prop where
  reads : s.nonemptyReads <+: s.written
  reachable : s.writer = .idle → s.reader = .idle →
    (∃ k, s.mem.bytes (s.mem.next^[k] s.rp) ≠ 0) → s.mem.bytes s.rp ≠ 0

/-- Writes of one byte up to a block, requests of at least a block, and memory for a block. -/
def InRange (s : Buf) : Act → Prop
  | .write data => 1 ≤ data.length ∧ data.length ≤ s.blockSize
  | .read request => s.blockSize ≤ request
  | .writer freeram => s.blockSize < freeram
  | .reader => True

instance (s : Buf) : ∀ a, Decidable (InRange s a)
  | .write data => inferInstanceAs (Decidable (1 ≤ data.length ∧ data.length ≤ s.blockSize))
  | .read request => inferInstanceAs (Decidable (s.blockSize ≤ request))
  | .writer freeram => inferInstanceAs (Decidable (s.blockSize < freeram))
  | .reader => inferInstanceAs (Decidable True)

/-- The reader has cleared the block `x` and has not followed its link. -/
def ReaderPc.leaving (x : Nat) : ReaderPc → Bool
  | .follow b _ => b == x
  | _ => false

/-- The writer does not stand before the commit of the block that the reader is leaving. -/
def Buf.apart (s : Buf) : Bool :=
  match s.writer with
  | .commit _ b => !s.reader.leaving b
  | _ => true

/-- The writer does not commit the block that the reader is leaving. -/
def Apart (s : Buf) : Act → Prop
  | .writer _ => s.apart = true
  | _ => True

instance (s : Buf) : ∀ a, Decidable (Apart s a)
  | .write _ => inferInstanceAs (Decidable True)
  | .read _ => inferInstanceAs (Decidable True)
  | .writer _ => inferInstanceAs (Decidable (s.apart = true))
  | .reader => inferInstanceAs (Decidable True)

/-! ## The invariant -/

/-- The bytes a block holds. -/
def content (m : Mem UInt8) (x : Nat) : List UInt8 := (m.data x).take (m.bytes x)

/-- The block from which the reader goes on: past the one it has cleared. -/
def Buf.readAt (s : Buf) : Nat :=
  match s.reader with
  | .follow b _ => s.mem.next b
  | .storeRp next _ => next
  | _ => s.rp

/-- What the reader has taken out of the ring and not yet returned. -/
def ReaderPc.pending : ReaderPc → List (List UInt8)
  | .follow _ out => [out]
  | .storeRp _ out => [out]
  | _ => []

/-- What the writer knows of its block. -/
def writerOk (m : Mem UInt8) (blockSize wp : Nat) : WriterPc → Prop
  | .idle => True
  | .loadWp data => 0 < data.length ∧ data.length ≤ blockSize
  | .testSize data b => b = wp ∧ 0 < data.length ∧ data.length ≤ blockSize
  | .copy data b => b = wp ∧ 0 < data.length ∧ data.length ≤ blockSize
  | .commit data b => b = wp ∧ (0 < data.length ∧ data.length ≤ blockSize) ∧
      data.length ≤ (m.data b).length ∧ (m.data b).take data.length = data

/-- What the reader knows of its block: from the test on it is the first full one, once cleared it
is the last empty one. -/
def readerOk (m : Mem UInt8) (blockSize rp : Nat) (full free : List Nat) : ReaderPc → Prop
  | .idle => True
  | .loadRp request => blockSize ≤ request
  | .testBytes request b => b = rp ∧ blockSize ≤ request
  | .loadBytes request b => full.head? = some b ∧ blockSize ≤ request
  | .copy request b n => full.head? = some b ∧ blockSize ≤ request ∧ n = m.bytes b
  | .clear b out => full.head? = some b ∧ out = content m b
  | .follow b out => free.getLast? = some b ∧ out ≠ []
  | .storeRp _ out => out ≠ []

/-- **The invariant of a fixed block buffer.** -/
structure Buf.Inv (s : Buf) (full free : List Nat) : Prop where
  layout : Layout s.mem s.blockSize s.readAt s.wp full free
  spare : free ≠ []
  sized : 0 < s.blockSize
  stored : ∀ x ∈ full, s.mem.bytes x ≤ (s.mem.data x).length ∧ s.mem.bytes x ≤ s.blockSize
  writerOk : writerOk s.mem s.blockSize s.wp s.writer
  readerOk : readerOk s.mem s.blockSize s.rp full free s.reader
  flow : s.written = s.nonemptyReads ++ s.reader.pending ++ full.map (content s.mem)

/-! ### Frames -/

/-- The reader's position moves only with the reader, except that it depends on the link it is about
to follow. -/
theorem readAt_frame {s t : Buf} (reader : t.reader = s.reader) (rp : t.rp = s.rp)
    (next : ∀ b out, s.reader = .follow b out → t.mem.next b = s.mem.next b) :
    t.readAt = s.readAt := by
  unfold Buf.readAt
  rw [reader, rp]
  cases pc : s.reader with
  | follow b out => exact next b out pc
  | _ => rfl

/-- What the reader knows stays true while the full blocks keep their bytes. -/
theorem readerOk_frame {m m' : Mem UInt8} {blockSize rp : Nat} {full free free' : List Nat}
    (more : List Nat) {pc : ReaderPc}
    (same : ∀ x ∈ full, m'.data x = m.data x ∧ m'.bytes x = m.bytes x)
    (last : ∀ b out, pc = .follow b out → free'.getLast? = free.getLast?)
    (ok : readerOk m blockSize rp full free pc) :
    readerOk m' blockSize rp (full ++ more) free' pc := by
  have front : ∀ b, full.head? = some b → b ∈ full ∧ (full ++ more).head? = some b := by
    intro b head
    exact ⟨List.mem_of_mem_head? head, by rw [List.head?_append, head]; rfl⟩
  cases pc with
  | idle => exact ok
  | loadRp request => exact ok
  | testBytes request b => exact ok
  | loadBytes request b => exact ⟨(front b ok.1).2, ok.2⟩
  | copy request b n =>
      obtain ⟨head, enough, count⟩ := ok
      exact ⟨(front b head).2, enough, count.trans (same b (front b head).1).2.symm⟩
  | clear b out =>
      obtain ⟨head, taken⟩ := ok
      refine ⟨(front b head).2, taken.trans ?_⟩
      rw [content, content, (same b (front b head).1).1, (same b (front b head).1).2]
  | follow b out => exact ⟨(last b out rfl).trans ok.1, ok.2⟩
  | storeRp next out => exact ok

theorem content_map_congr {m m' : Mem UInt8} {blocks : List Nat}
    (same : ∀ x ∈ blocks, m'.data x = m.data x ∧ m'.bytes x = m.bytes x) :
    blocks.map (content m') = blocks.map (content m) := by
  apply List.map_congr_left
  intro x member
  rw [content, content, (same x member).1, (same x member).2]

/-- The source links `x` before it looks for the last new block; the walk does not pass `x`. -/
theorem expand_eq_spliced {m : Mem UInt8} {blockSize x len freeram size : Nat}
    {added : List Nat} (next : Nat) (older : x < m.brk) (some : added ≠ []) :
    let list := blockListAlloc m (len / blockSize + 1)
    let filled := (blockDataFastalloc list.1 list.2 blockSize freeram).1
    FreshList m filled size list.2 added →
      expand m blockSize x next len freeram =
        Layout.spliced filled x list.2 (listTail filled filled.brk list.2) next := by
  intro list filled fresh
  have allocated : 0 < m.brk := Nat.lt_of_le_of_lt (Nat.zero_le x) older
  obtain ⟨init, tail, rfl⟩ : ∃ init tail, added = init ++ [tail] :=
    ⟨added.dropLast, added.getLast some, (List.dropLast_append_getLast _).symm⟩
  have linked : ∀ f, listTail (filled.modify x f) (filled.modify x f).brk list.2 = tail := by
    refine fun f => fresh.listTail_eq allocated (fun y later => ?_) rfl
    exact congrArg Block.next (Mem.modify_block_of_ne filled f (by omega))
  have plain : listTail filled filled.brk list.2 = tail :=
    fresh.listTail_eq allocated (fun _ _ => rfl) rfl
  rw [plain]
  have shape : expand m blockSize x next len freeram =
      (filled.modify x fun block => { block with next := list.2 }).modify
        (listTail (filled.modify x fun block => { block with next := list.2 })
          (filled.modify x fun block => { block with next := list.2 }).brk list.2)
        fun block => { block with next := next } := rfl
  rw [shape, linked]
  rfl

/-- **Expanding the ring.** The new blocks come behind `x`, the others keep their bytes. -/
theorem expand_spec {m : Mem UInt8} {blockSize rp wp x freeram : Nat} {before free : List Nat}
    (len : Nat) (layout : Layout m blockSize rp wp (before ++ [x]) free) (sized : 0 < blockSize)
    (fits : blockSize < freeram) :
    ∃ added, added ≠ [] ∧
      Layout (expand m blockSize x (m.next x) len freeram) blockSize rp
        ((expand m blockSize x (m.next x) len freeram).next x) (before ++ [x]) (added ++ free) ∧
      ∀ y ∈ before ++ [x] ++ free,
        (expand m blockSize x (m.next x) len freeram).data y = m.data y ∧
        (expand m blockSize x (m.next x) len freeram).bytes y = m.bytes y := by
  have older : x < m.brk := (layout.inside x (by simp)).2
  have allocated : 0 < m.brk := Nat.lt_of_le_of_lt (Nat.zero_le x) older
  have positive : 0 < len / blockSize + 1 := Nat.succ_pos _
  obtain ⟨added, length, list, _⟩ := blockDataFastalloc_fresh m freeram positive allocated sized
  have some : added ≠ [] := by
    rw [← List.length_pos_iff, length]
    exact blocksFitting_pos positive sized fits
  have fresh := list some
  have shape := expand_eq_spliced (m.next x) older some fresh
  obtain ⟨grown, link, kept, _, same⟩ := layout.grow fresh some
  rw [shape, ← kept]
  exact ⟨added, some, link.symm ▸ grown, same⟩

/-! ### The writer -/

namespace Buf.Inv

variable {s : Buf} {full free : List Nat}

/-- The write position is the first empty block. -/
theorem free_eq (inv : s.Inv full free) : ∃ rest, free = s.wp :: rest := by
  cases free with
  | nil => exact absurd rfl inv.spare
  | cons x rest => exact ⟨rest, by rw [inv.layout.wp_eq]⟩

theorem wp_notMem (inv : s.Inv full free) : s.wp ∉ full := by
  obtain ⟨rest, rfl⟩ := inv.free_eq
  exact fun member => (List.nodup_append.mp inv.layout.nodup).2.2 s.wp member s.wp (by simp) rfl

/-- A change to the writer's block leaves the full blocks alone. -/
theorem modify_wp (inv : s.Inv full free) (f : Block UInt8 → Block UInt8) :
    ∀ x ∈ full, (s.mem.modify s.wp f).data x = s.mem.data x ∧
      (s.mem.modify s.wp f).bytes x = s.mem.bytes x := by
  intro x member
  have other : x ≠ s.wp := fun same => inv.wp_notMem (same ▸ member)
  have block := Mem.modify_block_of_ne s.mem f other
  exact ⟨congrArg Block.data block, congrArg Block.bytes block⟩

/-- The writer moves on and changes nothing. -/
theorem goto_writer (inv : s.Inv full free) {pc : WriterPc}
    (ok : FixedBlock.writerOk s.mem s.blockSize s.wp pc) :
    Buf.Inv { s with writer := pc } full free :=
  ⟨inv.layout, inv.spare, inv.sized, inv.stored, ok, inv.readerOk, inv.flow⟩

/-- The writer copies its input to the block at the write position. -/
theorem copied (inv : s.Inv full free) {data : List UInt8}
    (range : 0 < data.length ∧ data.length ≤ s.blockSize) :
    Buf.Inv { s with mem := s.mem.modify s.wp (storeData data), writer := .commit data s.wp }
      full free := by
  obtain ⟨rest, freeEq⟩ := inv.free_eq
  have inFree : s.wp ∈ free := by simp [freeEq]
  have same := inv.modify_wp (storeData data)
  have next : ∀ x, (s.mem.modify s.wp (storeData data)).next x = s.mem.next x :=
    Mem.modify_field Block.next s.mem s.wp (storeData data) rfl
  have position := readAt_frame (s := s)
    (t := { s with mem := s.mem.modify s.wp (storeData data), writer := .commit data s.wp })
    rfl rfl fun b _ _ => next b
  refine ⟨?_, inv.spare, inv.sized, ?_, ?_, ?_, ?_⟩
  · rw [position]
    refine inv.layout.modify rfl rfl (fun inFull => absurd inFull inv.wp_notMem) fun _ => ?_
    exact inv.layout.empty s.wp inFree
  · intro x member
    rw [(same x member).1, (same x member).2]
    exact inv.stored x member
  · refine ⟨rfl, range, ?_, ?_⟩ <;> simp [Mem.data, storeData]
  · have reader := readerOk_frame [] same (fun _ _ _ => rfl) inv.readerOk
    rwa [List.append_nil] at reader
  · rw [content_map_congr same]
    exact inv.flow

/-- With one empty block left the write fills it, and new blocks come behind it. -/
theorem commit_expands (inv : s.Inv full [s.wp]) {data : List UInt8} {freeram : Nat}
    (some : 0 < data.length) (fits : s.blockSize < freeram) :
    let m := (commitWrite s data s.wp freeram).mem
    ∃ added, added ≠ [] ∧ Layout m s.blockSize s.readAt (m.next s.wp) (full ++ [s.wp]) added ∧
      ∀ x ∈ full ++ [s.wp], m.data x = s.mem.data x ∧
        m.bytes x = (s.mem.modify s.wp (setBytes data.length)).bytes x := by
  have filled := inv.layout.fill (f := setBytes data.length) rfl rfl some
  have links : ∀ x, (s.mem.modify s.wp (setBytes data.length)).next x = s.mem.next x :=
    Mem.modify_field Block.next s.mem s.wp (setBytes data.length) rfl
  have datas : ∀ x, (s.mem.modify s.wp (setBytes data.length)).data x = s.mem.data x :=
    Mem.modify_field Block.data s.mem s.wp (setBytes data.length) rfl
  have start : s.mem.next s.wp ∈ full ++ [s.wp] := by
    rw [filled.wp_eq_rp]
    exact filled.toWp.start_mem (by simp)
  have expands : (s.mem.modify s.wp (setBytes data.length)).bytes
      ((s.mem.modify s.wp (setBytes data.length)).next s.wp) ≠ 0 := by
    rw [links]
    exact Nat.pos_iff_ne_zero.mp (filled.filled _ start)
  obtain ⟨added, new, grown, same⟩ := expand_spec data.length filled inv.sized fits
  have shape : (commitWrite s data s.wp freeram).mem =
      expand (s.mem.modify s.wp (setBytes data.length)) s.blockSize s.wp
        ((s.mem.modify s.wp (setBytes data.length)).next s.wp) data.length freeram :=
    if_pos expands
  rw [List.append_nil] at grown same
  rw [shape]
  exact ⟨added, new, grown, fun x member =>
    ⟨(same x member).1.trans (datas x), (same x member).2⟩⟩

/-- With another empty block behind it the write fills the block at the write position only. -/
theorem commit_fills {y : Nat} {rest : List Nat} (inv : s.Inv full (s.wp :: y :: rest))
    {data : List UInt8} (freeram : Nat) (some : 0 < data.length) :
    (commitWrite s data s.wp freeram).mem = s.mem.modify s.wp (setBytes data.length) ∧
      Layout (s.mem.modify s.wp (setBytes data.length)) s.blockSize s.readAt (s.mem.next s.wp)
        (full ++ [s.wp]) (y :: rest) := by
  have filled := inv.layout.fill (f := setBytes data.length) rfl rfl some
  have empty : ¬ (s.mem.modify s.wp (setBytes data.length)).bytes
      ((s.mem.modify s.wp (setBytes data.length)).next s.wp) ≠ 0 := by
    rw [show (s.mem.modify s.wp (setBytes data.length)).next s.wp = s.mem.next s.wp from
      Mem.modify_field Block.next s.mem s.wp (setBytes data.length) rfl s.wp,
      filled.wp_eq, filled.empty y (by simp)]
    simp
  exact ⟨if_neg empty, filled⟩

/-- The blocks after the locked section: the block at the write position is full, and an empty one
follows. The reader's link is not touched, since the writer does not commit the block it is
leaving. -/
theorem commit_blocks (inv : s.Inv full free) {data : List UInt8} {freeram : Nat}
    (some : 0 < data.length) (apart : s.reader.leaving s.wp = false)
    (fits : s.blockSize < freeram) :
    let m := (commitWrite s data s.wp freeram).mem
    ∃ free', free' ≠ [] ∧ Layout m s.blockSize s.readAt (m.next s.wp) (full ++ [s.wp]) free' ∧
      (∀ x ∈ full ++ [s.wp], m.data x = s.mem.data x ∧
        m.bytes x = (s.mem.modify s.wp (setBytes data.length)).bytes x) ∧
      ∀ b out, s.reader = .follow b out →
        m.next b = s.mem.next b ∧ free'.getLast? = free.getLast? := by
  intro m
  obtain ⟨rest, rfl⟩ := inv.free_eq
  cases rest with
  | nil =>
      obtain ⟨added, new, grown, same⟩ := inv.commit_expands some fits
      refine ⟨added, new, grown, same, fun b out pc => ?_⟩
      have last := inv.readerOk
      rw [pc] at last apart
      obtain rfl : s.wp = b := by simpa [FixedBlock.readerOk] using last.1
      simp [ReaderPc.leaving] at apart
  | cons y rest =>
      obtain ⟨shape, filled⟩ := inv.commit_fills freeram some
      have links : ∀ x, m.next x = s.mem.next x := by
        intro x
        rw [show m = _ from shape]
        exact Mem.modify_field Block.next s.mem s.wp (setBytes data.length) rfl x
      have datas : ∀ x, m.data x = s.mem.data x := by
        intro x
        rw [show m = _ from shape]
        exact Mem.modify_field Block.data s.mem s.wp (setBytes data.length) rfl x
      refine ⟨y :: rest, by simp, ?_, fun x _ => ⟨datas x, by rw [← shape]⟩,
        fun b _ _ => ⟨links b, by rw [List.getLast?_cons_cons]⟩⟩
      rw [links, show m = _ from shape]
      exact filled

/-- **The locked section of a write.** -/
theorem committed (inv : s.Inv full free) {data : List UInt8} {freeram : Nat}
    (pc : s.writer = .commit data s.wp) (apart : s.reader.leaving s.wp = false)
    (fits : s.blockSize < freeram) :
    ∃ free', Buf.Inv (commitWrite s data s.wp freeram) (full ++ [s.wp]) free' := by
  obtain ⟨_, range, length, prefixed⟩ : FixedBlock.writerOk s.mem s.blockSize s.wp
    (.commit data s.wp) := pc ▸ inv.writerOk
  obtain ⟨free', spare, layout, same, follows⟩ := inv.commit_blocks range.1 apart fits
  obtain ⟨sameData, bytes⟩ := same s.wp (by simp)
  have count : (s.mem.modify s.wp (setBytes data.length)).bytes s.wp = data.length := by
    simp [Mem.bytes, setBytes]
  rw [count] at bytes
  have older : ∀ x ∈ full, (commitWrite s data s.wp freeram).mem.data x = s.mem.data x ∧
      (commitWrite s data s.wp freeram).mem.bytes x = s.mem.bytes x := by
    intro x member
    have kept := same x (List.mem_append_left _ member)
    exact ⟨kept.1, kept.2.trans (inv.modify_wp _ x member).2⟩
  refine ⟨free', ?_, spare, inv.sized, ?_, trivial, ?_, ?_⟩
  · have position : (commitWrite s data s.wp freeram).readAt = s.readAt :=
      readAt_frame rfl rfl fun b out leaving => (follows b out leaving).1
    rw [position]
    exact layout
  · intro x member
    rcases List.mem_append.mp member with old | new
    · rw [(older x old).1, (older x old).2]
      exact inv.stored x old
    · obtain rfl : x = s.wp := by simpa using new
      rw [sameData, bytes]
      exact ⟨length, range.2⟩
  · exact readerOk_frame [s.wp] older (fun b out leaving => (follows b out leaving).2) inv.readerOk
  · have last : content (commitWrite s data s.wp freeram).mem s.wp = data := by
      rw [content, sameData, bytes, prefixed]
    rw [List.map_append, content_map_congr older, List.map_singleton, last, ← List.append_assoc]
    exact congrArg (· ++ [data]) inv.flow

end Buf.Inv

theorem inv_writer {s t : Buf} {full free : List Nat} {freeram : Nat} (inv : s.Inv full free)
    (fits : s.blockSize < freeram) (apart : Apart s (.writer freeram))
    (step : writerStep s freeram = some t) : ∃ full free, t.Inv full free := by
  have ok := inv.writerOk
  unfold writerStep at step
  split at step
  · cases step
  · next data pc =>
      cases step
      rw [pc] at ok
      exact ⟨full, free, inv.goto_writer ⟨rfl, ok⟩⟩
  · next data b pc =>
      cases step
      rw [pc] at ok
      obtain ⟨rfl, range⟩ := ok
      obtain ⟨rest, rfl⟩ := inv.free_eq
      have size : s.mem.size s.wp = s.blockSize := inv.layout.sizes s.wp (by simp)
      have small : ¬ data.length > s.mem.size s.wp := by
        rw [size]
        exact Nat.not_lt.mpr range.2
      rw [if_neg small]
      exact ⟨full, _, inv.goto_writer ⟨rfl, range⟩⟩
  · next data b pc =>
      cases step
      rw [pc] at ok
      obtain ⟨rfl, range⟩ := ok
      exact ⟨full, free, inv.copied range⟩
  · next data b pc =>
      cases step
      rw [pc] at ok
      obtain ⟨rfl, _⟩ := ok
      have elsewhere : s.reader.leaving s.wp = false := by
        simpa [Apart, Buf.apart, pc] using apart
      obtain ⟨free', inv'⟩ := inv.committed pc elsewhere fits
      exact ⟨_, free', inv'⟩

/-! ### The reader -/

namespace Buf.Inv

variable {s : Buf} {full free : List Nat}

/-- The reader moves on within its block. -/
theorem goto_reader (inv : s.Inv full free) {pc : ReaderPc}
    (position : Buf.readAt { s with reader := pc } = s.readAt)
    (pending : pc.pending = s.reader.pending)
    (ok : FixedBlock.readerOk s.mem s.blockSize s.rp full free pc) :
    Buf.Inv { s with reader := pc } full free := by
  refine ⟨?_, inv.spare, inv.sized, inv.stored, inv.writerOk, ok, ?_⟩
  · rw [position]
    exact inv.layout
  · rw [pending]
    exact inv.flow

/-- A block at the read position that is not empty is the first full one. -/
theorem head_full (inv : s.Inv full free) (bytes : s.mem.bytes s.readAt ≠ 0) :
    full.head? = some s.readAt := by
  cases full with
  | nil =>
      obtain ⟨rest, rfl⟩ := inv.free_eq
      have here : s.readAt = s.wp := inv.layout.rp_eq_wp
      exact absurd (inv.layout.empty s.wp (by simp)) (here ▸ bytes)
  | cons x rest => rw [inv.layout.rp_eq, List.head?_cons]

/-- A full block holds some bytes. -/
theorem content_ne_nil (inv : s.Inv full free) {x : Nat} (member : x ∈ full) :
    content s.mem x ≠ [] := by
  have filled := inv.layout.filled x member
  have stored := (inv.stored x member).1
  intro none
  have length := congrArg List.length none
  rw [content, List.length_take, List.length_nil] at length
  omega

/-- **The reader clears its block.** -/
theorem cleared (inv : s.Inv full free) {b : Nat} {out : List UInt8} (bytes : UInt64)
    (pc : s.reader = .clear b out) :
    ∃ rest, full = b :: rest ∧
      Buf.Inv { s with mem := s.mem.modify b (setBytes 0), bytes := bytes, reader := .follow b out }
        rest (free ++ [b]) := by
  obtain ⟨head, taken⟩ : FixedBlock.readerOk s.mem s.blockSize s.rp full free (.clear b out) :=
    pc ▸ inv.readerOk
  obtain ⟨rest, rfl⟩ : ∃ rest, full = b :: rest := List.head?_eq_some_iff.mp head
  have notRest : b ∉ rest :=
    (List.nodup_cons.mp (List.nodup_append.mp inv.layout.nodup).1).1
  have same : ∀ x ∈ rest, (s.mem.modify b (setBytes 0)).data x = s.mem.data x ∧
      (s.mem.modify b (setBytes 0)).bytes x = s.mem.bytes x := by
    intro x member
    have other : x ≠ b := fun same => notRest (same ▸ member)
    have block := Mem.modify_block_of_ne s.mem (setBytes 0) other
    exact ⟨congrArg Block.data block, congrArg Block.bytes block⟩
  have links : (s.mem.modify b (setBytes 0)).next b = s.mem.next b :=
    Mem.modify_field Block.next s.mem b (setBytes 0) rfl b
  refine ⟨rest, rfl, ?_, by simp, inv.sized, ?_, ?_, ⟨by simp, ?_⟩, ?_⟩
  · have drained := inv.layout.drain (f := setBytes 0) rfl rfl rfl
    rw [← links] at drained
    exact drained
  · intro x member
    rw [(same x member).1, (same x member).2]
    exact inv.stored x (List.mem_cons_of_mem _ member)
  · have datas : ∀ x, (s.mem.modify b (setBytes 0)).data x = s.mem.data x :=
      Mem.modify_field Block.data s.mem b (setBytes 0) rfl
    have ok := inv.writerOk
    cases here : s.writer with
    | commit data x =>
        rw [here] at ok
        exact ⟨ok.1, ok.2.1, (datas x).symm ▸ ok.2.2.1, (datas x).symm ▸ ok.2.2.2⟩
    | _ =>
        rw [here] at ok
        exact ok
  · rw [taken]
    exact inv.content_ne_nil (by simp)
  · have flow := inv.flow
    rw [pc] at flow
    rw [content_map_congr same]
    show s.written = s.nonemptyReads ++ [out] ++ rest.map (content s.mem)
    simpa [ReaderPc.pending, ← taken] using flow

/-- **A read returns what it has taken.** -/
theorem returned (inv : s.Inv full free) {next : Nat} {out : List UInt8}
    (pc : s.reader = .storeRp next out) :
    Buf.Inv (Buf.finish { s with rp := next } out) full free := by
  have some : out ≠ [] := by
    have ok := inv.readerOk
    rwa [pc] at ok
  have reads : (Buf.finish { s with rp := next } out).nonemptyReads = s.nonemptyReads ++ [out] := by
    simp [Buf.nonemptyReads, Buf.finish, some]
  refine ⟨?_, inv.spare, inv.sized, inv.stored, inv.writerOk, trivial, ?_⟩
  · have layout := inv.layout
    rwa [Buf.readAt, pc] at layout
  · have flow := inv.flow
    rw [pc] at flow
    rw [reads]
    simpa [ReaderPc.pending, Buf.finish] using flow

/-- A read that finds an empty block returns nothing. -/
theorem returned_nothing (inv : s.Inv full free) {request b : Nat}
    (pc : s.reader = .testBytes request b) : Buf.Inv (s.finish []) full free := by
  have reads : (s.finish []).nonemptyReads = s.nonemptyReads := by
    simp [Buf.nonemptyReads, Buf.finish]
  refine ⟨?_, inv.spare, inv.sized, inv.stored, inv.writerOk, trivial, ?_⟩
  · have layout := inv.layout
    rwa [Buf.readAt, pc] at layout
  · have flow := inv.flow
    rw [pc] at flow
    rw [reads]
    exact flow

end Buf.Inv

theorem inv_reader {s t : Buf} {full free : List Nat} (inv : s.Inv full free)
    (step : readerStep s = some t) : ∃ full free, t.Inv full free := by
  have ok := inv.readerOk
  unfold readerStep at step
  split at step
  · cases step
  · next request pc =>
      cases step
      rw [pc] at ok
      refine ⟨full, free, inv.goto_reader ?_ ?_ ⟨rfl, ok⟩⟩
      · simp [Buf.readAt, pc]
      · simp [ReaderPc.pending, pc]
  · next request b pc =>
      cases step
      rw [pc] at ok
      split
      · exact ⟨full, free, inv.returned_nothing pc⟩
      · next filled =>
          obtain ⟨rfl, enough⟩ := ok
          have here : s.readAt = s.rp := by simp [Buf.readAt, pc]
          have head := inv.head_full (here.symm ▸ filled)
          refine ⟨full, free, inv.goto_reader ?_ ?_ ⟨here ▸ head, enough⟩⟩
          · rw [here]
            rfl
          · rw [pc]
            rfl
  · next request b pc =>
      cases step
      rw [pc] at ok
      refine ⟨full, free, inv.goto_reader ?_ ?_ ⟨ok.1, ok.2, rfl⟩⟩
      · simp [Buf.readAt, pc]
      · simp [ReaderPc.pending, pc]
  · next request b n pc =>
      cases step
      rw [pc] at ok
      obtain ⟨head, enough, rfl⟩ := ok
      have small := (inv.stored b (List.mem_of_mem_head? head)).2
      rw [if_pos (Nat.le_trans small enough)]
      refine ⟨full, free, inv.goto_reader ?_ ?_ ⟨head, rfl⟩⟩
      · simp [Buf.readAt, pc]
      · simp [ReaderPc.pending, pc]
  · next b out pc =>
      cases step
      obtain ⟨rest, _, inv'⟩ := inv.cleared (s.bytes - UInt64.ofNat (s.mem.bytes b)) pc
      exact ⟨rest, _, inv'⟩
  · next b out pc =>
      cases step
      rw [pc] at ok
      refine ⟨full, free, inv.goto_reader ?_ ?_ ok.2⟩
      · simp [Buf.readAt, pc]
      · simp [ReaderPc.pending, pc]
  · next next out pc =>
      cases step
      exact ⟨full, free, inv.returned pc⟩

/-! ## Runs -/

/-- A buffer of at least one byte has a block. -/
theorem blockCount_pos {bufBytes : Nat} (blockSize : Nat) (some : 1 ≤ bufBytes) :
    0 < if bufBytes / blockSize * blockSize < bufBytes then bufBytes / blockSize + 1
      else bufBytes / blockSize := by
  split
  · exact Nat.succ_pos _
  · next exact =>
      apply Nat.pos_of_ne_zero
      intro none
      rw [none, Nat.zero_mul] at exact
      omega

/-- A new buffer is a ring of empty blocks. -/
theorem inv_start {s : Buf} (start : fixedBlockSystem.start s) : ∃ full free, s.Inv full free := by
  obtain ⟨bufBytes, blockSize, freeram, some, sized, fits, rfl⟩ := start
  obtain ⟨free, spare, layout⟩ :=
    newRing_layout (α := UInt8) sized (blockCount_pos blockSize some) fits
  exact ⟨[], free, layout, spare, sized, (fun x member => by cases member), trivial, trivial, rfl⟩

/-- The invariant holds wherever a run goes that keeps writer and reader apart. -/
theorem inv_reach {s : Buf}
    (reached : fixedBlockSystem.ReachUnder (fun s a => InRange s a ∧ Apart s a) s) :
    ∃ full free, s.Inv full free := by
  refine reached.invariant (fun _ => inv_start) fun s a t inv permitted step => ?_
  obtain ⟨full, free, inv⟩ := inv
  obtain ⟨range, apart⟩ := permitted
  cases a with
  | write data =>
      simp only [fixedBlockSystem, bufStep] at step
      split at step
      · cases step
        exact ⟨full, free, inv.goto_writer range⟩
      · cases step
  | read request =>
      simp only [fixedBlockSystem, bufStep] at step
      split at step
      · next idle =>
          cases step
          refine ⟨full, free, inv.goto_reader ?_ ?_ range⟩
          · simp [Buf.readAt, idle]
          · simp [ReaderPc.pending, idle]
      · cases step
  | writer freeram => exact inv_writer inv range apart step
  | reader => exact inv_reader inv step

/-- With the invariant the reads are in order and the oldest write is at the read position. -/
theorem Buf.Inv.ordered {s : Buf} {full free : List Nat} (inv : s.Inv full free) : s.Ordered := by
  constructor
  · rw [inv.flow, List.append_assoc]
    exact List.prefix_append _ _
  · rintro _ idle ⟨k, holds⟩
    have here : s.readAt = s.rp := by simp [Buf.readAt, idle]
    have ring : full ++ free ≠ [] := by simp [inv.spare]
    have member := (inv.layout.mem_iff_reachable ring).mpr ⟨k, rfl⟩
    rw [here] at member
    have inFull := (List.mem_append.mp member).resolve_right fun inFree =>
      holds (inv.layout.empty _ inFree)
    have start := inv.layout.toWp.start_mem (List.ne_nil_of_mem inFull)
    rw [here] at start
    exact Nat.pos_iff_ne_zero.mp (inv.layout.filled s.rp start)

/-- **A write into the block the reader is leaving strands data.** The write has used the last empty
block, so new blocks come behind it, and the reader follows the link to them. -/
theorem Buf.Inv.strands {s : Buf} {full free : List Nat} (inv : s.Inv full free)
    {data out : List UInt8} {b freeram : Nat} (writer : s.writer = .commit data b)
    (reader : s.reader = .follow b out) (fits : s.blockSize < freeram) :
    ∃ t, fixedBlockSystem.execUnder InRange s [.writer freeram, .reader, .reader] = some t ∧
      ¬ t.Ordered := by
  obtain ⟨rfl, range, _⟩ : FixedBlock.writerOk s.mem s.blockSize s.wp (.commit data b) :=
    writer ▸ inv.writerOk
  obtain ⟨last, _⟩ : FixedBlock.readerOk s.mem s.blockSize s.rp full free (.follow s.wp out) :=
    reader ▸ inv.readerOk
  obtain ⟨rest, rfl⟩ := inv.free_eq
  obtain rfl : rest = [] := by
    cases rest with
    | nil => rfl
    | cons y rest =>
        have notMem := (List.nodup_cons.mp (List.nodup_append.mp inv.layout.nodup).2.1).1
        rw [List.getLast?_cons_cons] at last
        exact absurd (List.mem_of_getLast? last) notMem
  obtain ⟨added, new, grown, same⟩ := inv.commit_expands range.1 fits
  generalize committed : commitWrite s data s.wp freeram = u at grown same
  have idle : u.writer = .idle := by rw [← committed, commitWrite]
  have pc : u.reader = .follow s.wp out := by rw [← committed, ← reader, commitWrite]
  refine ⟨Buf.finish { u with rp := u.mem.next s.wp } out, ?_, fun ordered => ?_⟩
  · simp [System.execUnder, fixedBlockSystem, bufStep, writerStep, readerStep, writer, committed,
      pc, InRange, fits, Buf.finish]
  · -- The read position is the first new block; the block just written is further on.
    have ring : Chain u.mem.next (u.mem.next s.wp) (added ++ (full ++ [s.wp])) (u.mem.next s.wp) :=
      grown.toRp.trans grown.toWp
    obtain ⟨k, reaches⟩ := ring.exists_iterate_of_mem (x := s.wp) (by simp)
    have holds : u.mem.bytes s.wp ≠ 0 :=
      Nat.pos_iff_ne_zero.mp (grown.filled s.wp (by simp))
    have empty : u.mem.bytes (u.mem.next s.wp) = 0 :=
      grown.empty _ (grown.toRp.start_mem new)
    exact ordered.reachable idle rfl ⟨k, by simpa [Buf.finish, reaches] using holds⟩ empty

/-- **Order in the fixed block buffer.** In a run with writes of one byte up to a block and requests
of at least a block, in which the writer never commits the block that the reader has cleared and not
yet left, every non-empty read returns the write of its number, and between calls the oldest write
not yet read is at the read position. A commit of that block can be continued to a state in which
data is stranded. -/
theorem apart_ordered (s : Buf)
    (reached : fixedBlockSystem.ReachUnder (fun s a => InRange s a ∧ Apart s a) s) :
    s.Ordered ∧
      ∀ data out b freeram, s.writer = .commit data b → s.reader = .follow b out →
        s.blockSize < freeram →
        ∃ t, fixedBlockSystem.execUnder InRange s [.writer freeram, .reader, .reader] = some t ∧
          ¬ t.Ordered := by
  obtain ⟨full, free, inv⟩ := inv_reach reached
  exact ⟨inv.ordered, fun _ _ _ _ writer reader fits => inv.strands writer reader fits⟩

/-- One write and one read in a buffer of one block. -/
theorem apart_ordered_one : ∃ s,
    fixedBlockSystem.ReachUnder (fun s a => InRange s a ∧ Apart s a) s ∧ s.Ordered ∧
      s.nonemptyReads = [[7]] := by
  have run : (fixedBlockSystem.execUnder (fun s a => InRange s a ∧ Apart s a) (createBuffer 4 4 5)
      [.write [7], .writer 5, .writer 5, .writer 5, .writer 5, .read 4, .reader, .reader, .reader,
        .reader, .reader, .reader, .reader]).map Buf.nonemptyReads = some [[7]] := by decide
  obtain ⟨s, run, reads⟩ := Option.map_eq_some_iff.mp run
  have start : fixedBlockSystem.start (createBuffer 4 4 5) :=
    ⟨4, 4, 5, by decide, by decide, by decide, rfl⟩
  have reached := (System.ReachUnder.start start).execUnder run
  exact ⟨s, reached, (apart_ordered s reached).1, reads⟩

/-- **The reader loses its place.** A ring of two blocks: the reader clears the first one, the
writer fills the second one and then the first one again and links a new block behind it, and the
reader goes on to the new block. -/
theorem refilled_while_leaving : ∃ s, fixedBlockSystem.ReachUnder InRange s ∧ ¬ s.Ordered := by
  have run : (fixedBlockSystem.execUnder InRange (createBuffer 4 4 5)
      [.write [7], .writer 5, .writer 5, .writer 5, .writer 5,
        .read 4, .reader, .reader, .reader, .reader, .reader,
        .write [8], .writer 5, .writer 5, .writer 5, .writer 5,
        .write [9], .writer 5, .writer 5, .writer 5, .writer 5, .reader, .reader]).map
      (fun s => (s.writer, s.reader, s.mem.bytes s.rp, s.mem.bytes (s.mem.next s.rp))) =
      some (.idle, .idle, 0, 1) := by decide
  obtain ⟨s, run, ends⟩ := Option.map_eq_some_iff.mp run
  have start : fixedBlockSystem.start (createBuffer 4 4 5) :=
    ⟨4, 4, 5, by decide, by decide, by decide, rfl⟩
  refine ⟨s, (System.ReachUnder.start start).execUnder run, fun ordered => ?_⟩
  simp only [Prod.mk.injEq] at ends
  obtain ⟨writer, reader, empty, holds⟩ := ends
  exact ordered.reachable writer reader ⟨1, by simp [holds]⟩ empty

end Bingewatch.Buffer.FixedBlock
