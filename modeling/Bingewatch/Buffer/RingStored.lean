import Bingewatch.Buffer.RingBuf

/-!
# The bytes a ring counts

A block counts the bytes that were stored in it, so a read that adds up the counts of the blocks it
passes reports the number of bytes it has copied. `Backed` says the first, and every call keeps it,
also one that finds no memory; `bufReadLoop_backed` says the second.
-/

set_option autoImplicit false

namespace Bingewatch.Buffer

open Machine

/-! ## Properties of every block -/

/-- A property of blocks that new blocks have, and that linking and clearing a block keep. -/
structure Lasting {α : Type} (P : Nat → Block α → Prop) : Prop where
  new : ∀ x, P x {}
  relink : ∀ x block next, P x block → P x { block with next := next }
  clear : ∀ x block size, P x block → P x { block with data := [], bytes := 0, size := size }

/-- Every block has the property. -/
def EachBlock {α : Type} (P : Nat → Block α → Prop) (m : Mem α) : Prop := ∀ x, P x (m.block x)

namespace EachBlock

variable {α : Type} {P : Nat → Block α → Prop} {m : Mem α}

theorem modify (each : EachBlock P m) {b : Nat} {f : Block α → Block α}
    (kept : P b (f (m.block b))) : EachBlock P (m.modify b f) := by
  intro x
  by_cases here : x = b
  · subst here
    rwa [Mem.modify_block_self]
  · rw [Mem.modify_block_of_ne _ _ here]
    exact each x

theorem relink (lasting : Lasting P) (each : EachBlock P m) (b next : Nat) :
    EachBlock P (m.modify b fun block => { block with next := next }) :=
  each.modify (lasting.relink _ _ _ (each b))

theorem spliced (lasting : Lasting P) (each : EachBlock P m) (x head tail next : Nat) :
    EachBlock P (Layout.spliced m x head tail next) :=
  (each.relink lasting _ _).relink lasting _ _

theorem blockListAllocLoop (lasting : Lasting P) (n : Nat) :
    ∀ {m : Mem α} (b : Nat), EachBlock P m → EachBlock P (blockListAllocLoop n m b) := by
  induction n with
  | zero => exact fun _ each => each
  | succ n ih =>
      intro m b each
      have fresh : EachBlock P { m.set m.brk {} with brk := m.brk + 1 } := by
        intro x
        by_cases new : x = m.brk
        · subst new
          rw [Mem.set_block_self]
          exact lasting.new _
        · exact (Mem.set_block_of_ne m {} new) ▸ each x
      simp only [Buffer.blockListAllocLoop]
      apply ih
      split
      · exact fresh
      · exact fresh.relink lasting _ _

theorem blockListAlloc (lasting : Lasting P) (each : EachBlock P m) (n : Nat) :
    EachBlock P (blockListAlloc m n).1 := by
  unfold Buffer.blockListAlloc
  split
  · exact each
  · exact blockListAllocLoop lasting n 0 each

theorem forgeRingLoop (lasting : Lasting P) (each : EachBlock P m) (first fuel : Nat) :
    ∀ b, EachBlock P (forgeRingLoop m first fuel b) := by
  induction fuel with
  | zero => exact fun _ => each
  | succ fuel ih =>
      intro b
      unfold Buffer.forgeRingLoop
      split_ifs
      · exact each.relink lasting _ _
      · exact each
      · exact ih _

theorem fastallocPartition (lasting : Lasting P) (size finalNext n : Nat) :
    ∀ {m : Mem α} (b : Nat), EachBlock P m →
      EachBlock P (fastallocPartition size finalNext n m b) := by
  induction n with
  | zero => exact fun _ each => each
  | succ n ih =>
      intro m b each
      have cleared : EachBlock P (m.modify b fun block =>
          { block with data := [], bytes := 0, size := size }) :=
        each.modify (lasting.clear _ _ _ (each b))
      simp only [Buffer.fastallocPartition]
      split
      · exact cleared.relink lasting _ _
      · exact ih _ cleared

theorem blockDataFastalloc (lasting : Lasting P) (each : EachBlock P m) (b size freeram : Nat) :
    EachBlock P (blockDataFastalloc m b size freeram).1 := by
  unfold Buffer.blockDataFastalloc
  split_ifs
  · exact each
  · exact each
  · exact fastallocPartition lasting size _ _ b each

end EachBlock

section Rings

variable {P : Nat → Block UInt8 → Prop}

theorem EachBlock.createBuffer (lasting : Lasting P) : EachBlock P createBuffer.mem := by
  have nothing : EachBlock P ({} : Mem UInt8) := lasting.new
  exact (nothing.blockListAlloc lasting defaultRealloc).forgeRingLoop lasting _ _ _

theorem EachBlock.allocBlocks (lasting : Lasting P) {r : Ring} (each : EachBlock P r.mem)
    (host : Host) (n : Nat) : EachBlock P (r.allocBlocks host n).1.mem :=
  (each.blockListAlloc lasting n).blockDataFastalloc lasting _ _ _

theorem EachBlock.rbDataInit (lasting : Lasting P) {r : Ring} (each : EachBlock P r.mem)
    (host : Host) (n : Nat) : EachBlock P (rbDataInit host r n).1.mem := by
  have given := each.blockDataFastalloc lasting r.wp (alignedSize n r.blockAlign)
    (host.freeram r.allocs (alignedSize n r.blockAlign))
  simp only [Buffer.rbDataInit]
  split <;> exact given

end Rings

/-! ## Writing -/

/-- Every block holds at least the bytes that it counts. -/
def Backed (m : Mem UInt8) : Prop := ∀ x, m.bytes x ≤ (m.data x).length

/-- The blocks hold what they count, as a property of every block. -/
theorem lasting_backed :
    Lasting fun (_ : Nat) (block : Block UInt8) => block.bytes ≤ block.data.length where
  new := fun _ => Nat.le_refl _
  relink := fun _ _ _ held => held
  clear := fun _ _ _ _ => Nat.le_refl _

theorem createBuffer_backed : Backed createBuffer.mem := EachBlock.createBuffer lasting_backed

namespace Backed

variable {m : Mem UInt8}

theorem modify (backed : Backed m) {b : Nat} {f : Block UInt8 → Block UInt8}
    (kept : (f (m.block b)).bytes ≤ (f (m.block b)).data.length) : Backed (m.modify b f) :=
  EachBlock.modify (P := fun _ block => block.bytes ≤ block.data.length) backed kept

variable {host : Host} {r : Ring}

theorem getNextBlock (backed : Backed r.mem) (b : Nat) :
    Backed (getNextBlock host r b).1.mem := by
  have given : ∀ n, Backed (r.doubleRealloc.allocBlocks host n).1.mem :=
    EachBlock.allocBlocks lasting_backed (r := r.doubleRealloc) backed host
  simp only [Buffer.getNextBlock]
  split
  · exact backed
  · split
    · exact given _
    · exact EachBlock.spliced lasting_backed (given _) _ _ _ _

/-- A pass of the write loop counts what it has stored. -/
theorem stored (backed : Backed m) (b : Nat) (data : List UInt8) (n : Nat)
    (short : n ≤ data.length) :
    Backed ((m.modify b (storeData (data.take n))).modify b (setBytes n)) := by
  intro x
  by_cases here : x = b
  · subst here
    simp [Mem.bytes, Mem.data, setBytes, storeData]
    omega
  · simpa [Mem.bytes, Mem.data, Mem.modify_block_of_ne _ _ here] using backed x

theorem bufWriteLoop (fuel : Nat) :
    ∀ {r : Ring} {b : Nat} {data : List UInt8} {result : Ring × Nat}, Backed r.mem →
      bufWriteLoop host fuel r b data = some result → Backed result.1.mem := by
  induction fuel with
  | zero =>
      intro r b data result backed written
      cases data with
      | nil =>
          obtain rfl : (r, b) = result := by simpa [Buffer.bufWriteLoop] using written
          exact backed
      | cons x rest => cases written
  | succ fuel ih =>
      intro r b data result backed written
      cases data with
      | nil =>
          obtain rfl : (r, b) = result := by simpa [Buffer.bufWriteLoop] using written
          exact backed
      | cons x rest =>
          simp only [Buffer.bufWriteLoop] at written
          refine ih (getNextBlock (backed.stored b (x :: rest) _ ?_) b) written
          split <;> omega

theorem bufWriteReady (backed : Backed r.mem) {data : List UInt8} {r' : Ring} {status : IoStatus}
    {n : Nat} (written : bufWriteReady host r data = some (r', status, n)) : Backed r'.mem := by
  unfold Buffer.bufWriteReady at written
  split_ifs at written
  · obtain ⟨rfl, -⟩ : lowWaterMarkHit r = r' ∧ _ := by simpa using written
    unfold lowWaterMarkHit
    split <;> exact backed
  · simp only [Option.map_eq_some_iff, Prod.mk.injEq] at written
    obtain ⟨⟨r₁, b⟩, loop, rfl, -⟩ := written
    have kept : Backed r₁.mem := bufWriteLoop _ backed loop
    simp only [finishWrite]
    split <;> exact kept

theorem bufWrite (backed : Backed r.mem) {data : List UInt8} {r' : Ring} {status : IoStatus}
    {n : Nat} (written : bufWrite host r data = some (r', status, n)) : Backed r'.mem := by
  have init : Backed (ringDataInit host r data.length).1.mem := by
    simp only [ringDataInit]
    split <;> exact EachBlock.rbDataInit lasting_backed backed host data.length
  unfold Buffer.bufWrite at written
  split at written
  · exact bufWriteReady backed written
  · split at written
    · next r₁ failed =>
        obtain ⟨rfl, -⟩ : r₁ = r' ∧ _ := by simpa using written
        simpa [failed] using init
    · next r₁ succeeded => exact bufWriteReady (by simpa [succeeded] using init) written

end Backed

/-! ## Reading -/

/-- The variable `bytes_read` at the end of the loop of `buf_read`. -/
def bufReadCount (block : Bool) (align : Nat) :
    Nat → Mem UInt8 → Nat → (remaining bytesRead : Nat) → Option Nat
  | _, _, _, 0, bytesRead => some bytesRead
  | 0, _, _, _ + 1, _ => none
  | fuel + 1, m, b, remaining + 1, bytesRead =>
      let n := m.bytes b
      if n = 0 then
        if block then bufReadCount block align fuel m b (remaining + 1) bytesRead
        else if bytesRead % align ≠ 0 then
          bufReadCount block align fuel m b (remaining + 1) bytesRead
        else some bytesRead
      else if remaining + 1 < n then
        let n := remaining + 1
        let m := m.modify b (shiftData n)
        bufReadCount block align fuel (m.modify b (takeBytes n)) b 0 (bytesRead + n)
      else
        let m := m.modify b (takeBytes n)
        bufReadCount block align fuel m (m.next b) (remaining + 1 - n) (bytesRead + n)

theorem Backed.takeBytes {m : Mem UInt8} (backed : Backed m) (b n : Nat) :
    Backed (m.modify b (takeBytes n)) :=
  backed.modify (Nat.le_trans (Nat.sub_le ..) (backed b))

/-- The move of the rest of a block to its front. -/
theorem Backed.shiftData {m : Mem UInt8} (backed : Backed m) {b n : Nat} (less : n ≤ m.bytes b) :
    Backed (m.modify b (shiftData n)) := by
  have held : (m.block b).bytes ≤ (m.block b).data.length := backed b
  have less : n ≤ (m.block b).bytes := less
  refine backed.modify ?_
  simp only [Buffer.shiftData, List.length_append, List.length_take, List.length_drop]
  omega


/-- **The read loop counts the bytes it copies**, no more than were asked for. -/
theorem bufReadLoop_backed (block : Bool) (align fuel : Nat) :
    ∀ {m m' : Mem UInt8} {b b' remaining : Nat} {out out' : List UInt8}, Backed m →
      bufReadLoop block align fuel m b remaining out = some (m', b', out') →
      Backed m' ∧ bufReadCount block align fuel m b remaining out.length = some out'.length ∧
        out'.length ≤ out.length + remaining := by
  induction fuel with
  | zero =>
      intro m m' b b' remaining out out' backed loop
      cases remaining with
      | zero =>
          obtain ⟨rfl, -, rfl⟩ : m = m' ∧ b = b' ∧ out = out' := by
            simpa [bufReadLoop] using loop
          exact ⟨backed, rfl, Nat.le_refl _⟩
      | succ remaining => cases loop
  | succ fuel ih =>
      intro m m' b b' remaining out out' backed loop
      cases remaining with
      | zero =>
          obtain ⟨rfl, -, rfl⟩ : m = m' ∧ b = b' ∧ out = out' := by
            simpa [bufReadLoop] using loop
          exact ⟨backed, rfl, Nat.le_refl _⟩
      | succ remaining =>
          have held := backed b
          simp only [bufReadLoop] at loop
          simp only [bufReadCount]
          split_ifs at loop ⊢ with empty blocks odd more
          · exact ih backed loop
          · exact ih backed loop
          · obtain ⟨rfl, -, rfl⟩ : m = m' ∧ b = b' ∧ out = out' := by simpa using loop
            exact ⟨backed, rfl, Nat.le_add_right ..⟩
          · obtain ⟨rfl, -, rfl⟩ := by simpa only [Option.some.injEq, Prod.mk.injEq] using loop
            refine ⟨(backed.shiftData (Nat.le_of_lt more)).takeBytes _ _, ?_, ?_⟩
            · rw [List.length_append, List.length_take, Nat.min_eq_left (by omega)]
            · rw [List.length_append, List.length_take]
              omega
          · obtain ⟨kept, count, short⟩ := ih (backed.takeBytes b _) loop
            simp only [List.length_append, List.length_take] at count short
            refine ⟨kept, ?_, by omega⟩
            rwa [Nat.min_eq_left (by omega)] at count

end Bingewatch.Buffer
