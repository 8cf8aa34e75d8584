import Mathlib.Algebra.Ring.Nat
import Bingewatch.Sdr.RxMachine

/-!
# Buffered reads deliver the samples in order

Whatever the order in which the fill thread and the reader of a channel move, the samples the
hardware has produced are, in this order: those reported by earlier calls, those the current call
has collected, those in the full blocks from the read position on, and those in the block the fill
thread has not released yet. `Delivers` states this together with the layout of the ring; every step
keeps it (`delivers_reader`, `delivers_fill`).

`buffered_reads_in_order` reads off that the samples reported are a prefix of the samples produced
and that between calls the ring holds the rest. With the counter of `sdr_read_from_counter` as the
hardware, the reports are the sequence an unbuffered channel delivers.

A read that takes a part of a block moves the rest to the front with `memcpy`, which C leaves open
when more is left than was taken. The results hold where this does not happen, or with `memmove` in
its place; `overlap_loses_sample` is what a `memcpy` can do otherwise.
-/

set_option autoImplicit false

namespace Bingewatch.Sdr

open Foundation Machine Buffer

variable {α : Type}

/-! ## Samples in blocks -/

/-- The samples stored in a list of blocks, in order. -/
def samplesIn (m : Mem α) (blocks : List Nat) : List α :=
  blocks.flatMap fun x => (m.data x).take (samplesOf m x)

@[simp] theorem samplesIn_nil (m : Mem α) : samplesIn m [] = [] := rfl

@[simp] theorem samplesIn_cons (m : Mem α) (x : Nat) (blocks : List Nat) :
    samplesIn m (x :: blocks) = (m.data x).take (samplesOf m x) ++ samplesIn m blocks := rfl

theorem samplesIn_append (m : Mem α) (first second : List Nat) :
    samplesIn m (first ++ second) = samplesIn m first ++ samplesIn m second := by
  simp [samplesIn]

theorem samplesIn_congr {m m' : Mem α} {blocks : List Nat}
    (same : ∀ x ∈ blocks, m'.block x = m.block x) : samplesIn m' blocks = samplesIn m blocks := by
  unfold samplesIn
  apply List.flatMap_congr
  intro x member
  simp only [samplesOf, Mem.data, Mem.bytes, same x member]

theorem samplesIn_modify {m : Mem α} {blocks : List Nat} {x : Nat} {f : Block α → Block α}
    (outside : x ∉ blocks) : samplesIn (m.modify x f) blocks = samplesIn m blocks :=
  samplesIn_congr fun _ member =>
    Mem.modify_block_of_ne m f fun here => outside (here ▸ member)

/-- A block that was filled: whole samples, all of them stored, with a status under which the reader
hands them on. -/
structure BlockOk (b : Block α) : Prop where
  whole : b.bytes = b.bytes / sampleBytes * sampleBytes
  stored : b.bytes / sampleBytes ≤ b.data.length
  status : b.dRet = .success ∨ b.dRet = .databreak

/-- Taking `n` whole samples off a whole number of them. -/
theorem samples_sub {bytes : Nat} (n : Nat) (whole : bytes = bytes / sampleBytes * sampleBytes) :
    (bytes - n * sampleBytes) / sampleBytes = bytes / sampleBytes - n ∧
      bytes - n * sampleBytes = (bytes / sampleBytes - n) * sampleBytes := by
  constructor
  · rw [Nat.mul_comm n, Nat.sub_mul_div]
  · rw [Nat.sub_mul, ← whole]

theorem BlockOk.notError {b : Block α} (ok : BlockOk b) : b.dRet.isError = false := by
  rcases ok.status with ret | ret <;> rw [ret] <;> rfl

/-! ## Where the threads stand -/

/-- The reader works on the block at its position, which holds samples. -/
def ReaderPc.busy : ReaderPc → Bool
  | .testRet => true
  | .loadBytes => true
  | .switch _ => true
  | .copy _ => true
  | .testAll _ => true
  | .clear => true
  | .shrink _ => true
  | .shift _ => true
  | _ => false

/-- No fill thread runs. -/
def ReaderPc.alone : ReaderPc → Bool
  | .idle => true
  | .setFill => true
  | .create => true
  | _ => false

/-- The fill thread works on the block at its position, which is empty. -/
def FillPc.holding : FillPc → Bool
  | .hwRead => true
  | .storeRet _ _ => true
  | .testRet _ => true
  | .storeBytes _ => true
  | _ => false

/-- The block from which the reader goes on: past the one it has just cleared. -/
def Channel.readAt (s : Channel α) : Nat :=
  match s.reader with
  | .idle => s.rp
  | .setFill => s.rp
  | .create => s.rp
  | .loadRp => s.rp
  | .follow => s.mem.next s.call.rp
  | .stopFill => s.rp
  | .join => s.rp
  | _ => s.call.rp

/-- The block from which the fill thread goes on: past the one it has just filled. -/
def Channel.fillAt (s : Channel α) : Nat :=
  match s.fill with
  | .absent => s.wp
  | .start => s.wp
  | .follow => s.mem.next s.fillWp
  | .exited _ => s.wp
  | _ => s.fillWp

/-- What the reader knows of the block it works on. With a hardware that delivers samples it never
drops a block. -/
def readerOk (b : Block α) (call : ReadCall α) : ReaderPc → Prop
  | .switch n => n ≤ b.bytes / sampleBytes
  | .copy n => n ≤ b.bytes / sampleBytes
  | .testAll n => n ≤ b.bytes / sampleBytes
  | .shrink n => n < b.bytes / sampleBytes
  | .shift n => n + b.bytes / sampleBytes ≤ b.data.length
  | .copyLast _ => False
  | .dropBytes => False
  | .dropFollow => False
  | .dropRet => False
  | .storeRp => call.ret.isError = false
  | .stopFill => call.ret.isError = false
  | .join => call.ret.isError = false
  | _ => True

/-- What the fill thread knows of the block it works on. -/
def fillOk (b : Block α) : FillPc → Prop
  | .storeRet status n => (status = .success ∨ status = .databreak) ∧ 0 < n ∧ n ≤ b.data.length
  | .testRet n => (b.dRet = .success ∨ b.dRet = .databreak) ∧ 0 < n ∧ n ≤ b.data.length
  | .storeBytes n => (b.dRet = .success ∨ b.dRet = .databreak) ∧ 0 < n ∧ n ≤ b.data.length
  | .storeWp rval => rval.isError = false
  | .exited rval => rval.isError = false
  | _ => True

/-- The samples of the reader's block that it has not copied. -/
def headUnread (b : Block α) : ReaderPc → List α
  | .testAll n => (b.data.take (b.bytes / sampleBytes)).drop n
  | .shrink n => (b.data.take (b.bytes / sampleBytes)).drop n
  | .clear => []
  | .shift n => (b.data.drop n).take (b.bytes / sampleBytes)
  | _ => b.data.take (b.bytes / sampleBytes)

/-- The samples in the full blocks that the reader has not copied. -/
def Channel.unread (s : Channel α) (full : List Nat) : List α :=
  if s.reader.busy then headUnread (s.mem.block s.call.rp) s.reader ++ samplesIn s.mem full.tail
  else samplesIn s.mem full

/-- The samples the fill thread has read and not released. -/
def pending (b : Block α) : FillPc → List α
  | .storeRet _ n => b.data.take n
  | .testRet n => b.data.take n
  | .storeBytes n => b.data.take n
  | _ => []

/-- The samples the current call has copied. -/
def Channel.collected (s : Channel α) : List α :=
  if s.reader = .idle then [] else s.call.out

/-- The hardware answers with `IO_SUCCESS` or `IO_DATABREAK` and at least one sample. -/
def HwDelivers (s : Channel α) : Act α → Prop
  | .fill status samples =>
      s.fill = .hwRead → (status = .success ∨ status = .databreak) ∧ samples ≠ []
  | _ => True

/-- The rest of a block is moved to the front by a `memcpy` that leaves what it read. -/
def Moves (copy : Memcpy α) (n : Nat) (b : Block α) : Prop :=
  copy.moved (b.data.take (n + b.bytes / sampleBytes)) n =
    (b.data.take (n + b.bytes / sampleBytes)).drop n

/-- The reader makes no `memcpy` that leaves anything else. -/
def MovesRight (copy : Memcpy α) (s : Channel α) : Act α → Prop
  | .reader => ∀ n, s.reader = .shift n → Moves copy n (s.mem.block s.call.rp)
  | _ => True

/-- A reader that is about to move the rest of its block to the front has left no more samples there
than it has taken, so the areas of its `memcpy` do not overlap. -/
def Channel.movesApart (s : Channel α) : Bool :=
  match s.reader with
  | .shift n => samplesOf s.mem s.call.rp ≤ n
  | _ => true

/-- The reader makes no `memcpy` on areas that overlap. -/
def MovesApart (s : Channel α) : Act α → Prop
  | .reader => s.movesApart = true
  | _ => True

theorem Moves.eq {copy : Memcpy α} {n : Nat} {b : Block α} (moves : Moves copy n b) :
    copy.moved (b.data.take (n + b.bytes / sampleBytes)) n =
      (b.data.drop n).take (b.bytes / sampleBytes) := by
  rw [moves, List.drop_take, Nat.add_sub_cancel_left]

theorem movesRight_memmove (s : Channel α) (act : Act α) : MovesRight .memmove s act := by
  cases act with
  | reader => exact fun _ _ => rfl
  | _ => trivial

theorem MovesApart.right (copy : Memcpy α) {s : Channel α} {act : Act α}
    (apart : MovesApart s act) : MovesRight copy s act := by
  cases act with
  | reader =>
      intro n pc
      simp only [MovesApart, Channel.movesApart, pc, decide_eq_true_eq] at apart
      apply copy.moved_apart
      have few : (s.mem.block s.call.rp).bytes / sampleBytes ≤ n := apart
      rw [List.length_take]
      omega
  | _ => trivial

/-- **The invariant of a buffered channel.** -/
structure Channel.Delivers (s : Channel α) (blockSize : Nat) (full free : List Nat) : Prop where
  layout : Layout s.mem blockSize s.readAt s.fillAt full free
  ring : full ++ free ≠ []
  blocks : ∀ x ∈ full, BlockOk (s.mem.block x)
  busy : s.reader.busy = true → full ≠ []
  holding : s.fill.holding = true → free ≠ []
  readerOk : readerOk (s.mem.block s.call.rp) s.call s.reader
  fillOk : fillOk (s.mem.block s.fillWp) s.fill
  alone : s.fill = .absent ↔ s.reader.alone = true
  flow : s.produced = s.delivered ++ s.collected ++ s.unread full ++
    pending (s.mem.block s.fillWp) s.fill

/-! ### Frames -/

/-- The reader's position does not depend on the blocks' data. -/
theorem readAt_eq {s t : Channel α} (reader : t.reader = s.reader) (rp : t.rp = s.rp)
    (call : t.call = s.call) (next : ∀ x, t.mem.next x = s.mem.next x) : t.readAt = s.readAt := by
  simp only [Channel.readAt, reader, rp, call, next]

/-- Neither does the fill thread's. -/
theorem fillAt_eq {s t : Channel α} (fill : t.fill = s.fill) (wp : t.wp = s.wp)
    (fillWp : t.fillWp = s.fillWp) (next : ∀ x, t.mem.next x = s.mem.next x) :
    t.fillAt = s.fillAt := by
  simp only [Channel.fillAt, fill, wp, fillWp, next]

/-- The reader looks at its block only while it works on it. -/
theorem readerOk_frame {b b' : Block α} {call : ReadCall α} {pc : ReaderPc}
    (same : pc.busy = true → b' = b) (ok : readerOk b call pc) : readerOk b' call pc := by
  cases busy : pc.busy with
  | true => rwa [same busy]
  | false => cases pc <;> first | exact ok | cases busy

/-- So does the fill thread. -/
theorem fillOk_frame {b b' : Block α} {pc : FillPc} (same : pc.holding = true → b' = b)
    (ok : fillOk b pc) : fillOk b' pc := by
  cases holding : pc.holding with
  | true => rwa [same holding]
  | false => cases pc <;> first | exact ok | cases holding

theorem pending_frame {b b' : Block α} {pc : FillPc} (same : pc.holding = true → b' = b) :
    pending b' pc = pending b pc := by
  cases holding : pc.holding with
  | true => rw [same holding]
  | false => cases pc <;> first | rfl | cases holding

/-- A busy reader goes on from the block it works on. -/
theorem readAt_of_busy {s : Channel α} (busy : s.reader.busy = true) : s.readAt = s.call.rp := by
  cases pc : s.reader <;> simp_all [Channel.readAt, ReaderPc.busy]

/-- A fill thread that holds a block goes on from it. -/
theorem fillAt_of_holding {s : Channel α} (holding : s.fill.holding = true) :
    s.fillAt = s.fillWp := by
  cases pc : s.fill <;> simp_all [Channel.fillAt, FillPc.holding]

namespace Channel.Delivers

variable {s : Channel α} {blockSize : Nat} {full free : List Nat}

/-- The fill thread holds the first block of the empty arc. -/
theorem fillWp_mem (inv : s.Delivers blockSize full free) (holding : s.fill.holding = true) :
    s.fillWp ∈ free := by
  rw [← fillAt_of_holding holding]
  exact inv.layout.toRp.start_mem (inv.holding holding)

/-- A change to a full block does not reach the block the fill thread holds. -/
theorem fillBlock_modify (inv : s.Delivers blockSize full free) {x : Nat} (inFull : x ∈ full)
    (f : Block α → Block α) (holding : s.fill.holding = true) :
    (s.mem.modify x f).block s.fillWp = s.mem.block s.fillWp := by
  apply Mem.modify_block_of_ne s.mem f
  intro same
  exact (List.nodup_append.mp inv.layout.nodup).2.2 x inFull s.fillWp (inv.fillWp_mem holding)
    same.symm

/-- A busy reader works on the first full block. -/
theorem full_eq (inv : s.Delivers blockSize full free) (busy : s.reader.busy = true) :
    ∃ rest, full = s.call.rp :: rest := by
  cases full with
  | nil => exact absurd rfl (inv.busy busy)
  | cons x rest =>
      have start : s.readAt = x := inv.layout.rp_eq
      exact ⟨rest, by rw [← start, readAt_of_busy busy]⟩

/-- A block at the reader's position that is not empty is the first full one. -/
theorem full_ne_nil (inv : s.Delivers blockSize full free) (bytes : s.mem.bytes s.readAt ≠ 0) :
    full ≠ [] := by
  rintro rfl
  cases free with
  | nil => exact inv.ring rfl
  | cons x rest =>
      have atX : s.readAt = x := inv.layout.rp_eq_wp.trans inv.layout.wp_eq
      exact bytes (atX ▸ inv.layout.empty x (by simp))

/-- An empty block at the fill thread's position is the first empty one. -/
theorem free_ne_nil (inv : s.Delivers blockSize full free) (bytes : s.mem.bytes s.fillAt = 0) :
    free ≠ [] := by
  rintro rfl
  cases full with
  | nil => exact inv.ring rfl
  | cons x rest =>
      have atX : s.fillAt = x := inv.layout.wp_eq_rp.trans inv.layout.rp_eq
      have filled : 0 < s.mem.bytes x := inv.layout.filled x (by simp)
      rw [atX] at bytes
      omega

/-- The reader changes the block it works on, and the block stays full. -/
theorem change (inv : s.Delivers blockSize full free) {f : Block α → Block α} {pc : ReaderPc}
    (busy : s.reader.busy = true) (next : (f (s.mem.block s.call.rp)).next = s.mem.next s.call.rp)
    (size : (f (s.mem.block s.call.rp)).size = s.mem.size s.call.rp)
    (filled : 0 < (f (s.mem.block s.call.rp)).bytes) (ok : BlockOk (f (s.mem.block s.call.rp)))
    (goes : (∃ n, pc = .shift n) ∨ pc = .wait)
    (reads : Sdr.readerOk (f (s.mem.block s.call.rp)) s.call pc)
    (same : headUnread (f (s.mem.block s.call.rp)) pc =
      headUnread (s.mem.block s.call.rp) s.reader) :
    Delivers { s with mem := s.mem.modify s.call.rp f, reader := pc } blockSize full free := by
  obtain ⟨rest, fullEq⟩ := inv.full_eq busy
  have inFull : s.call.rp ∈ full := by simp [fullEq]
  have notRest : s.call.rp ∉ rest := by
    have nodup := (List.nodup_append.mp inv.layout.nodup).1
    rw [fullEq] at nodup
    exact (List.nodup_cons.mp nodup).1
  have links : ∀ x, (s.mem.modify s.call.rp f).next x = s.mem.next x :=
    Mem.modify_field Block.next s.mem s.call.rp f next
  have position : Channel.readAt { s with mem := s.mem.modify s.call.rp f, reader := pc } =
      s.readAt := by
    rw [readAt_of_busy busy]
    rcases goes with ⟨n, rfl⟩ | rfl <;> rfl
  have fillPosition : Channel.fillAt { s with mem := s.mem.modify s.call.rp f, reader := pc } =
      s.fillAt := fillAt_eq rfl rfl rfl links
  have fillBlock := inv.fillBlock_modify inFull f
  refine ⟨?_, inv.ring, ?_, fun _ => by simp [fullEq], inv.holding, ?_,
    fillOk_frame fillBlock inv.fillOk, ?_, ?_⟩
  · rw [position, fillPosition]
    refine inv.layout.modify next size (fun _ => filled) fun inFree => ?_
    exact absurd rfl ((List.nodup_append.mp inv.layout.nodup).2.2 _ inFull _ inFree)
  · intro x member
    by_cases here : x = s.call.rp
    · subst here
      simpa using ok
    · show BlockOk ((s.mem.modify s.call.rp f).block x)
      rw [Mem.modify_block_of_ne s.mem f here]
      exact inv.blocks x member
  · simpa using reads
  · have running : s.reader.alone = false := by
      cases here : s.reader <;> simp_all [ReaderPc.alone, ReaderPc.busy]
    have there : pc.alone = false := by rcases goes with ⟨n, rfl⟩ | rfl <;> rfl
    rw [there, ← running]
    exact inv.alone
  · have before := inv.flow
    have notIdle : s.reader ≠ .idle := fun idle => by simp [idle, ReaderPc.busy] at busy
    simp only [Channel.unread, busy, if_true, fullEq, List.tail_cons, Channel.collected,
      if_neg notIdle, ← same] at before
    have after : Channel.unread { s with mem := s.mem.modify s.call.rp f, reader := pc } full =
        headUnread (f (s.mem.block s.call.rp)) pc ++ samplesIn s.mem rest := by
      rw [← samplesIn_modify (f := f) notRest]
      rcases goes with ⟨n, rfl⟩ | rfl
      · simp [Channel.unread, ReaderPc.busy, fullEq]
      · simp [Channel.unread, ReaderPc.busy, fullEq, headUnread, samplesOf, Mem.data, Mem.bytes]
    have collected : Channel.collected { s with mem := s.mem.modify s.call.rp f, reader := pc } =
        s.call.out := by
      rcases goes with ⟨n, rfl⟩ | rfl <;> simp [Channel.collected]
    rw [after, collected]
    show s.produced = s.delivered ++ s.call.out ++ _ ++ pending _ s.fill
    rw [pending_frame fillBlock]
    exact before

end Channel.Delivers

/-! ### The reader -/

namespace Channel.Delivers

variable {s : Channel α} {blockSize : Nat} {full free : List Nat}

/-- The reader copies samples of its block. -/
theorem copied (inv : s.Delivers blockSize full free) {n : Nat} (pc : s.reader = .copy n) :
    Delivers
      { s with
        call :=
          { s.call with
            out := s.call.out ++ (s.mem.data s.call.rp).take n
            remaining := s.call.remaining - n }
        reader := .testAll n }
      blockSize full free := by
  obtain ⟨mem, rp, wp, doFill, fill, fillWp, reader, call, reports, produced⟩ := s
  obtain rfl : reader = .copy n := pc
  obtain ⟨layout, ring, blocks, busy, holding, reads, fills, alone, flow⟩ := inv
  have within : n ≤ (mem.block call.rp).bytes / sampleBytes := reads
  refine ⟨layout, ring, blocks, busy, holding, reads, fills, alone, ?_⟩
  have split : (mem.data call.rp).take n ++
      headUnread (mem.block call.rp) (.testAll n) = headUnread (mem.block call.rp) (.copy n) := by
    have front := List.take_append_drop n
      ((mem.block call.rp).data.take ((mem.block call.rp).bytes / sampleBytes))
    rwa [List.take_take, Nat.min_eq_left within] at front
  have before : produced = reports.flatMap Prod.snd ++ call.out ++
      (headUnread (mem.block call.rp) (.copy n) ++ samplesIn mem full.tail) ++
      pending (mem.block fillWp) fill := flow
  have after : produced = reports.flatMap Prod.snd ++
      (call.out ++ (mem.data call.rp).take n) ++
      (headUnread (mem.block call.rp) (.testAll n) ++ samplesIn mem full.tail) ++
      pending (mem.block fillWp) fill := by
    rw [← split] at before
    simpa only [List.append_assoc] using before
  exact after

/-- A block whose samples were all copied holds nothing for the reader. -/
theorem exhausted (inv : s.Delivers blockSize full free) {n : Nat} (pc : s.reader = .testAll n)
    (all : s.mem.bytes s.call.rp = n * sampleBytes) :
    Delivers { s with reader := .clear } blockSize full free := by
  obtain ⟨mem, rp, wp, doFill, fill, fillWp, reader, call, reports, produced⟩ := s
  obtain rfl : reader = .testAll n := pc
  obtain ⟨layout, ring, blocks, busy, holding, reads, fills, alone, flow⟩ := inv
  have count : (mem.block call.rp).bytes / sampleBytes = n := by
    rw [show (mem.block call.rp).bytes = n * sampleBytes from all,
      Nat.mul_div_cancel _ (by decide)]
  have nothing : headUnread (mem.block call.rp) (.testAll n) = [] := by
    simp [headUnread, count]
  refine ⟨layout, ring, blocks, busy, holding, trivial, fills, alone, ?_⟩
  have before := flow
  simp only [Channel.unread, ReaderPc.busy, if_true, nothing] at before
  exact before

/-- The reader empties its block, which is then the last of the empty arc. -/
theorem cleared (inv : s.Delivers blockSize full free) (pc : s.reader = .clear) :
    ∃ full free, Delivers
      { s with mem := s.mem.modify s.call.rp (setBytes 0), reader := .follow }
      blockSize full free := by
  obtain ⟨rest, rfl⟩ := inv.full_eq (by rw [pc]; rfl)
  have fillBlock := inv.fillBlock_modify (x := s.call.rp) (by simp) (setBytes 0)
  obtain ⟨mem, rp, wp, doFill, fill, fillWp, reader, call, reports, produced⟩ := s
  obtain rfl : reader = .clear := pc
  obtain ⟨layout, ring, blocks, busy, holding, reads, fills, alone, flow⟩ := inv
  have links : ∀ x, (mem.modify call.rp (setBytes 0)).next x = mem.next x :=
    Mem.modify_field Block.next mem call.rp (setBytes 0) rfl
  have notRest : call.rp ∉ rest := (List.nodup_cons.mp (List.nodup_append.mp layout.nodup).1).1
  refine ⟨rest, free ++ [call.rp], ?_, by simp, ?_, by rintro ⟨⟩, fun _ => by simp, trivial,
    fillOk_frame fillBlock fills, alone, ?_⟩
  · have drained := layout.drain (f := setBytes 0) rfl rfl rfl
    have position := fillAt_eq (s := ⟨mem, rp, wp, doFill, fill, fillWp, .clear, call, reports,
      produced⟩) (t := ⟨mem.modify call.rp (setBytes 0), rp, wp, doFill, fill, fillWp, .follow,
      call, reports, produced⟩) rfl rfl rfl links
    rw [position]
    show Layout _ blockSize ((mem.modify call.rp (setBytes 0)).next call.rp) _ _ _
    rw [links]
    exact drained
  · intro x member
    have differ : x ≠ call.rp := fun same => notRest (same ▸ member)
    show BlockOk ((mem.modify call.rp (setBytes 0)).block x)
    rw [Mem.modify_block_of_ne mem _ differ]
    exact blocks x (List.mem_cons_of_mem _ member)
  · have before := flow
    simp only [Channel.unread, ReaderPc.busy, if_true, headUnread, List.nil_append,
      List.tail_cons] at before
    simp only [Channel.unread, ReaderPc.busy, Bool.false_eq_true, if_false,
      pending_frame fillBlock, samplesIn_modify notRest]
    exact before

/-- The reader takes the samples it has copied off the count of its block. -/
theorem shrunk (inv : s.Delivers blockSize full free) {n : Nat} (pc : s.reader = .shrink n) :
    Delivers
      { s with
        mem := s.mem.modify s.call.rp fun b => { b with bytes := b.bytes - n * sampleBytes }
        reader := .shift n }
      blockSize full free := by
  have working : s.reader.busy = true := by rw [pc]; rfl
  obtain ⟨rest, rfl⟩ := inv.full_eq working
  have reads := inv.readerOk
  rw [pc] at reads
  have within : n < (s.mem.block s.call.rp).bytes / sampleBytes := reads
  obtain ⟨whole, stored, status⟩ := inv.blocks s.call.rp (by simp)
  obtain ⟨left, multiple⟩ := samples_sub n whole
  refine inv.change working rfl rfl ?_ ⟨?_, ?_, status⟩ (Or.inl ⟨n, rfl⟩) ?_ ?_
  · rw [multiple]
    exact Nat.mul_pos (by omega) (by decide)
  · exact multiple.trans (congrArg (· * sampleBytes) left.symm)
  · exact Nat.le_trans (Nat.le_of_eq left) (Nat.le_trans (Nat.sub_le _ _) stored)
  · have sum : n + ((s.mem.block s.call.rp).bytes - n * sampleBytes) / sampleBytes =
        (s.mem.block s.call.rp).bytes / sampleBytes := by omega
    exact Nat.le_trans (Nat.le_of_eq sum) stored
  · rw [pc]
    exact (congrArg (fun k => List.take k ((s.mem.block s.call.rp).data.drop n)) left).trans
      List.drop_take.symm

/-- The reader moves the samples it has left to the front of its block, which holds them there if
the `memcpy` leaves what it read. -/
theorem shifted {copy : Memcpy α} (inv : s.Delivers blockSize full free) {n : Nat}
    (pc : s.reader = .shift n) (moves : Moves copy n (s.mem.block s.call.rp)) :
    Delivers { s with mem := s.mem.modify s.call.rp (shiftSamples copy n), reader := .wait }
      blockSize full free := by
  have working : s.reader.busy = true := by rw [pc]; rfl
  obtain ⟨rest, rfl⟩ := inv.full_eq working
  have reads := inv.readerOk
  rw [pc] at reads
  have within : n + (s.mem.block s.call.rp).bytes / sampleBytes ≤
    (s.mem.block s.call.rp).data.length := reads
  obtain ⟨whole, stored, status⟩ := inv.blocks s.call.rp (by simp)
  have filled : 0 < s.mem.bytes s.call.rp := inv.layout.filled s.call.rp (by simp)
  have moved : (((s.mem.block s.call.rp).data.drop n).take
      ((s.mem.block s.call.rp).bytes / sampleBytes)).length =
      (s.mem.block s.call.rp).bytes / sampleBytes := by
    rw [List.length_take_of_le]
    rw [List.length_drop]
    omega
  refine inv.change working rfl rfl filled ⟨whole, ?_, status⟩ (Or.inr rfl) trivial ?_
  · simp only [shiftSamples, moves.eq, List.length_append, moved]
    omega
  · rw [pc]
    simp only [headUnread, shiftSamples, moves.eq]
    rw [List.take_append_of_le_length (Nat.le_of_eq moved.symm),
      List.take_of_length_le (Nat.le_of_eq moved)]

/-- The call returns and reports what it has collected. -/
theorem reported (inv : s.Delivers blockSize full free) (pc : s.reader = .join) {rval : IoStatus}
    (exited : s.fill = .exited rval) :
    Delivers
      { s with
        fill := .absent
        reader := .idle
        reports := s.reports ++ [(s.call.ret, s.call.out)] }
      blockSize full free := by
  obtain ⟨mem, rp, wp, doFill, fill, fillWp, reader, call, reports, produced⟩ := s
  obtain rfl : reader = .join := pc
  obtain rfl : fill = .exited rval := exited
  obtain ⟨layout, ring, blocks, busy, holding, reads, fills, alone, flow⟩ := inv
  refine ⟨layout, ring, blocks, by rintro ⟨⟩, by rintro ⟨⟩, trivial, trivial,
    ⟨fun _ => rfl, fun _ => rfl⟩, ?_⟩
  have before : produced = reports.flatMap Prod.snd ++ call.out ++ samplesIn mem full ++ [] := flow
  show produced = (reports ++ [(call.ret, call.out)]).flatMap Prod.snd ++ [] ++
    samplesIn mem full ++ []
  simpa using before

end Channel.Delivers

/-- **A step of the reader** keeps the order, if the `memcpy` it makes leaves what it read. -/
theorem delivers_reader {copy : Memcpy α} {s t : Channel α} {blockSize : Nat} {full free : List Nat}
    (inv : s.Delivers blockSize full free) (moves : MovesRight copy s .reader)
    (step : readerStep copy s = some t) : ∃ full free, t.Delivers blockSize full free := by
  have move := readerMove_of_step step
  have first := inv.full_eq
  obtain ⟨mem, rp, wp, doFill, fill, fillWp, reader, call, reports, produced⟩ := s
  have inv' := inv
  obtain ⟨layout, ring, blocks, busy, holding, reads, fills, alone, flow⟩ := inv'
  cases move with
  | setFill pc =>
      obtain rfl : reader = .setFill := pc
      exact ⟨full, free, layout, ring, blocks, busy, holding, reads, fills, alone, flow⟩
  | create pc =>
      obtain rfl : reader = .create := pc
      obtain rfl : fill = .absent := alone.mpr rfl
      exact ⟨full, free, layout, ring, blocks, busy, by rintro ⟨⟩, trivial, trivial,
        ⟨by rintro ⟨⟩, by rintro ⟨⟩⟩, flow⟩
  | loadRp pc =>
      obtain rfl : reader = .loadRp := pc
      exact ⟨full, free, layout, ring, blocks, busy, holding, trivial, fills, alone, flow⟩
  | served pc enough =>
      obtain rfl : reader = .wait := pc
      refine ⟨full, free, layout, ring, blocks, by rintro ⟨⟩, holding, ?_, fills, alone, flow⟩
      show IoStatus.isError _ = false
      split
      · rfl
      · next noError => simpa using noError
  | waits => exact ⟨full, free, inv⟩
  | finds pc needs filled =>
      obtain rfl : reader = .wait := pc
      have some : full ≠ [] := inv.full_ne_nil filled
      refine ⟨full, free, layout, ring, blocks, fun _ => some, holding, trivial, fills, alone, ?_⟩
      cases full with
      | nil => exact absurd rfl some
      | cons x rest =>
          obtain rfl : call.rp = x := layout.rp_eq
          exact flow
  | fails pc error =>
      obtain rfl : reader = .testRet := pc
      obtain ⟨rest, rfl⟩ := first rfl
      cases error.symm.trans (blocks call.rp (by simp)).notError
  | passes pc =>
      obtain rfl : reader = .testRet := pc
      exact ⟨full, free, layout, ring, blocks, busy, holding, trivial, fills, alone, flow⟩
  | loadBytes pc =>
      obtain rfl : reader = .loadBytes := pc
      exact ⟨full, free, layout, ring, blocks, busy, holding, Nat.min_le_left _ _, fills, alone,
        flow⟩
  | success pc | tolerates pc =>
      obtain rfl : reader = .switch _ := pc
      exact ⟨full, free, layout, ring, blocks, busy, holding, reads, fills, alone, flow⟩
  | breaks pc =>
      obtain rfl : reader = .switch _ := pc
      obtain ⟨rest, rfl⟩ := first rfl
      exact ⟨_, free, layout, ring, blocks, by rintro ⟨⟩, holding, rfl, fills, alone, flow⟩
  | ends pc noSuccess noBreak =>
      obtain rfl : reader = .switch _ := pc
      obtain ⟨rest, rfl⟩ := first rfl
      rcases (blocks call.rp (by simp)).status with status | status
      · exact absurd status noSuccess
      · exact absurd status noBreak
  | copy pc => exact ⟨full, free, inv.copied pc⟩
  | usesUp pc all => exact ⟨full, free, inv.exhausted pc all⟩
  | leaves pc partly =>
      rename_i n
      obtain rfl : reader = .testAll n := pc
      obtain ⟨rest, rfl⟩ := first rfl
      have within : n ≤ (mem.block call.rp).bytes / sampleBytes := reads
      have whole : mem.bytes call.rp = _ := (blocks call.rp (by simp)).whole
      refine ⟨_, free, layout, ring, blocks, busy, holding, ?_, fills, alone, flow⟩
      refine Nat.lt_of_le_of_ne within fun same => partly ?_
      exact whole.trans (congrArg (· * sampleBytes) same.symm)
  | clear pc => exact inv.cleared pc
  | follow pc =>
      obtain rfl : reader = .follow := pc
      exact ⟨full, free, layout, ring, blocks, by rintro ⟨⟩, holding, trivial, fills, alone, flow⟩
  | shrink pc => exact ⟨full, free, inv.shrunk pc⟩
  | shift pc => exact ⟨full, free, inv.shifted pc (moves _ pc)⟩
  | copyLast pc | dropBytes pc | dropFollow pc | dropRet pc =>
      rw [pc] at reads
      exact reads.elim
  | storeRp pc =>
      obtain rfl : reader = .storeRp := pc
      exact ⟨full, free, layout, ring, blocks, by rintro ⟨⟩, holding, reads, fills, alone, flow⟩
  | stopFill pc =>
      obtain rfl : reader = .stopFill := pc
      exact ⟨full, free, layout, ring, blocks, by rintro ⟨⟩, holding, reads, fills, alone, flow⟩
  | join pc exited =>
      obtain rfl : reader = .join := pc
      obtain rfl : fill = .exited _ := exited
      have success : IoStatus.isError _ = false := fills
      have noError : call.ret.isError = false := reads
      simp only [success, noError, Bool.false_eq_true, if_false]
      exact ⟨full, free, inv.reported rfl rfl⟩

/-! ### The fill thread -/

namespace Channel.Delivers

variable {s : Channel α} {blockSize : Nat} {full free : List Nat}

/-- A change to the block the fill thread holds does not reach the full blocks. -/
theorem fullBlock_modify (inv : s.Delivers blockSize full free) (holding : s.fill.holding = true)
    (f : Block α → Block α) {x : Nat} (member : x ∈ full) :
    (s.mem.modify s.fillWp f).block x = s.mem.block x := by
  apply Mem.modify_block_of_ne s.mem f
  intro same
  exact (List.nodup_append.mp inv.layout.nodup).2.2 x member s.fillWp (inv.fillWp_mem holding) same

/-- What the reader has not copied is not in the fill thread's block. -/
theorem unread_modify (inv : s.Delivers blockSize full free) (holding : s.fill.holding = true)
    (f : Block α → Block α) (t : Channel α) (mem : t.mem = s.mem.modify s.fillWp f)
    (reader : t.reader = s.reader) (call : t.call = s.call) : t.unread full = s.unread full := by
  have same : ∀ x ∈ full, (s.mem.modify s.fillWp f).block x = s.mem.block x :=
    fun x member => inv.fullBlock_modify holding f member
  simp only [Channel.unread, mem, reader, call]
  cases busy : s.reader.busy with
  | false => simp only [Bool.false_eq_true, if_false, samplesIn_congr same]
  | true =>
      obtain ⟨rest, rfl⟩ := inv.full_eq busy
      have tail : ∀ x ∈ rest, (s.mem.modify s.fillWp f).block x = s.mem.block x :=
        fun x member => same x (List.mem_cons_of_mem _ member)
      simp only [if_true, same s.call.rp (by simp), List.tail_cons, samplesIn_congr tail]

/-- The fill thread changes the block it holds, and the block stays empty. -/
theorem prepare (inv : s.Delivers blockSize full free) {f : Block α → Block α} {pc : FillPc}
    {produced : List α} (holding : s.fill.holding = true)
    (next : (f (s.mem.block s.fillWp)).next = s.mem.next s.fillWp)
    (size : (f (s.mem.block s.fillWp)).size = s.mem.size s.fillWp)
    (bytes : (f (s.mem.block s.fillWp)).bytes = s.mem.bytes s.fillWp) (goes : pc.holding = true)
    (fills : Sdr.fillOk (f (s.mem.block s.fillWp)) pc)
    (flow : produced = s.delivered ++ s.collected ++ s.unread full ++
      pending (f (s.mem.block s.fillWp)) pc) :
    Delivers { s with mem := s.mem.modify s.fillWp f, fill := pc, produced := produced } blockSize
      full free := by
  have inFree := inv.fillWp_mem holding
  have links : ∀ x, (s.mem.modify s.fillWp f).next x = s.mem.next x :=
    Mem.modify_field Block.next s.mem s.fillWp f next
  have position : Channel.fillAt { s with
      mem := s.mem.modify s.fillWp f, fill := pc, produced := produced } = s.fillAt := by
    rw [fillAt_of_holding holding]
    cases pc <;> first | rfl | cases goes
  have readPosition : Channel.readAt { s with
      mem := s.mem.modify s.fillWp f, fill := pc, produced := produced } = s.readAt :=
    readAt_eq rfl rfl rfl links
  refine ⟨?_, inv.ring, ?_, inv.busy, fun _ => inv.holding holding, ?_, ?_, ?_, ?_⟩
  · rw [position, readPosition]
    refine inv.layout.modify next size (fun inFull => ?_) fun _ => ?_
    · exact absurd rfl ((List.nodup_append.mp inv.layout.nodup).2.2 _ inFull _ inFree)
    · exact bytes.trans (inv.layout.empty s.fillWp inFree)
  · intro x member
    show BlockOk ((s.mem.modify s.fillWp f).block x)
    rw [inv.fullBlock_modify holding f member]
    exact inv.blocks x member
  · refine readerOk_frame (fun busy => ?_) inv.readerOk
    obtain ⟨rest, rfl⟩ := inv.full_eq busy
    exact inv.fullBlock_modify holding f (by simp)
  · simpa using fills
  · have running : s.fill ≠ .absent := fun absent => by simp [absent, FillPc.holding] at holding
    have there : pc ≠ .absent := fun absent => by simp [absent, FillPc.holding] at goes
    exact ⟨fun absent => absurd absent there, fun alone => absurd (inv.alone.mpr alone) running⟩
  · have unread := inv.unread_modify holding f
      { s with mem := s.mem.modify s.fillWp f, fill := pc, produced := produced } rfl rfl rfl
    rw [unread]
    show produced = s.delivered ++ s.collected ++ s.unread full ++
      pending ((s.mem.modify s.fillWp f).block s.fillWp) pc
    rw [Mem.modify_block_self]
    exact flow

/-- The fill thread moves without touching a block. -/
theorem goto (inv : s.Delivers blockSize full free) {pc : FillPc} {wp fillWp : Nat}
    (running : s.fill ≠ .absent) (stays : pc ≠ .absent)
    (position : Channel.fillAt { s with fill := pc, wp := wp, fillWp := fillWp } = s.fillAt)
    (holding : pc.holding = true → free ≠ [])
    (fills : Sdr.fillOk (s.mem.block fillWp) pc)
    (same : pending (s.mem.block fillWp) pc = pending (s.mem.block s.fillWp) s.fill) :
    Delivers { s with fill := pc, wp := wp, fillWp := fillWp } blockSize full free := by
  refine ⟨?_, inv.ring, inv.blocks, inv.busy, holding, inv.readerOk, fills, ?_, ?_⟩
  · rw [position]
    exact inv.layout
  · exact ⟨fun absent => absurd absent stays, fun alone => absurd (inv.alone.mpr alone) running⟩
  · show s.produced = _ ++ pending (s.mem.block fillWp) pc
    rw [same]
    exact inv.flow

/-- The fill thread releases the block it holds. -/
theorem release (inv : s.Delivers blockSize full free) {n : Nat} (pc : s.fill = .storeBytes n) :
    ∃ full free, Delivers
      { s with mem := s.mem.modify s.fillWp (setBytes (n * sampleBytes)), fill := .follow }
      blockSize full free := by
  have holding : s.fill.holding = true := by rw [pc]; rfl
  have fills := inv.fillOk
  rw [pc] at fills
  obtain ⟨status, positive, stored⟩ := fills
  have position : s.fillAt = s.fillWp := by simp [Channel.fillAt, pc]
  obtain ⟨rest, freeEq⟩ : ∃ rest, free = s.fillWp :: rest := by
    cases shape : free with
    | nil => exact absurd shape (inv.holding holding)
    | cons x rest =>
        have layout := inv.layout
        rw [shape] at layout
        exact ⟨rest, by rw [← layout.wp_eq, position]⟩
  subst freeEq
  generalize change : setBytes (α := α) (n * sampleBytes) = f
  have links : ∀ x, (s.mem.modify s.fillWp f).next x = s.mem.next x := by
    rw [← change]
    exact Mem.modify_field Block.next s.mem s.fillWp (setBytes (n * sampleBytes)) rfl
  have atWp : (s.mem.modify s.fillWp f).block s.fillWp =
      { s.mem.block s.fillWp with bytes := n * sampleBytes } := by
    rw [← change, Mem.modify_block_self]
    rfl
  have count : n * sampleBytes / sampleBytes = n := Nat.mul_div_cancel n (by decide)
  refine ⟨full ++ [s.fillWp], rest, ?_, by simp, ?_, fun _ => by simp, by rintro ⟨⟩, ?_, trivial,
    ?_, ?_⟩
  · have readPosition : Channel.readAt { s with mem := s.mem.modify s.fillWp f, fill := .follow } =
        s.readAt := readAt_eq rfl rfl rfl links
    rw [readPosition]
    show Layout _ blockSize s.readAt ((s.mem.modify s.fillWp f).next s.fillWp) _ _
    rw [links, ← change]
    apply inv.layout.fill rfl rfl
    exact Nat.mul_pos positive (by decide)
  · intro x member
    show BlockOk ((s.mem.modify s.fillWp f).block x)
    rcases List.mem_append.mp member with old | new
    · rw [inv.fullBlock_modify holding f old]
      exact inv.blocks x old
    · obtain rfl : x = s.fillWp := by simpa using new
      rw [atWp]
      refine ⟨?_, ?_, status⟩
      · show n * sampleBytes = n * sampleBytes / sampleBytes * sampleBytes
        rw [count]
      · show n * sampleBytes / sampleBytes ≤ _
        rw [count]
        exact stored
  · refine readerOk_frame (fun busy => ?_) inv.readerOk
    obtain ⟨tail, rfl⟩ := inv.full_eq busy
    exact inv.fullBlock_modify holding f (by simp)
  · have running : s.fill ≠ .absent := fun absent => by simp [absent] at pc
    exact ⟨(fun absent => nomatch absent), fun alone => absurd (inv.alone.mpr alone) running⟩
  · have released : samplesIn (s.mem.modify s.fillWp f) [s.fillWp] =
        (s.mem.block s.fillWp).data.take n := by
      simp only [samplesIn_cons, samplesIn_nil, List.append_nil, samplesOf, Mem.data, Mem.bytes,
        atWp, count]
    have unread : Channel.unread { s with mem := s.mem.modify s.fillWp f, fill := .follow }
        (full ++ [s.fillWp]) = s.unread full ++ (s.mem.block s.fillWp).data.take n := by
      have same := inv.unread_modify holding f
        { s with mem := s.mem.modify s.fillWp f, fill := .follow } rfl rfl rfl
      rw [← same, ← released]
      simp only [Channel.unread]
      cases busy : s.reader.busy with
      | false => simp only [Bool.false_eq_true, if_false, samplesIn_append]
      | true =>
          obtain ⟨tail, rfl⟩ := inv.full_eq busy
          simp only [if_true, List.cons_append, List.tail_cons, samplesIn_append,
            List.append_assoc]
    have before := inv.flow
    rw [pc] at before
    rw [unread]
    show s.produced = s.delivered ++ s.collected ++ (s.unread full ++ _) ++ []
    rw [List.append_nil, ← List.append_assoc]
    exact before

end Channel.Delivers

theorem delivers_fill {s t : Channel α} {blockSize : Nat} {full free : List Nat} {status : IoStatus}
    {samples : List α} (inv : s.Delivers blockSize full free)
    (delivers : HwDelivers s (.fill status samples)) (step : fillStep s status samples = some t) :
    ∃ full free, t.Delivers blockSize full free := by
  unfold fillStep at step
  cases pc : s.fill with
  | absent => simp [pc] at step
  | start =>
      simp only [pc, Option.some.injEq] at step
      subst step
      exact ⟨full, free, inv.goto (by simp [pc]) (by simp) (by simp [Channel.fillAt, pc])
        (by rintro ⟨⟩) trivial (by rw [pc]; rfl)⟩
  | testFill =>
      simp only [pc, Option.some.injEq] at step
      subst step
      refine ⟨full, free, inv.goto (by simp [pc]) (by split <;> simp) ?_ ?_ ?_ ?_⟩
      all_goals split <;> simp [Channel.fillAt, FillPc.holding, fillOk, pending, pc] <;> rfl
  | testBytes =>
      simp only [pc, Option.some.injEq] at step
      subst step
      split
      · next empty =>
          refine ⟨full, free, inv.goto (by simp [pc]) (by simp) (by simp [Channel.fillAt, pc]) ?_
            trivial (by rw [pc]; rfl)⟩
          refine fun _ => inv.free_ne_nil ?_
          simpa [Channel.fillAt, pc] using empty
      · exact ⟨full, free, inv.goto (by simp [pc]) (by simp) (by simp [Channel.fillAt, pc])
          (by rintro ⟨⟩) rfl (by rw [pc]; rfl)⟩
  | hwRead =>
      obtain ⟨ok, some⟩ := delivers pc
      have noError : status.isError = false := by rcases ok with rfl | rfl <;> rfl
      simp only [pc] at step
      split at step
      · simp only [noError, Bool.false_eq_true, if_false, Option.some.injEq] at step
        subst step
        refine ⟨full, free, inv.prepare (by rw [pc]; rfl) rfl rfl rfl rfl ⟨ok, ?_, ?_⟩ ?_⟩
        · exact List.length_pos_iff.mpr some
        · simp [storeData]
        · have before := inv.flow
          rw [pc] at before
          simp only [pending, List.append_nil] at before
          simp [pending, storeData, before]
      · cases step
  | storeRet status n =>
      have fills := inv.fillOk
      rw [pc] at fills
      simp only [pc, Option.some.injEq] at step
      subst step
      refine ⟨full, free, inv.prepare (by rw [pc]; rfl) rfl rfl rfl rfl fills ?_⟩
      have before := inv.flow
      rw [pc] at before
      exact before
  | testRet n =>
      have fills := inv.fillOk
      rw [pc] at fills
      have noError : (retOf s.mem s.fillWp).isError = false := by
        rcases fills.1 with ret | ret <;> rw [retOf, ret] <;> rfl
      simp only [pc, noError, Option.some.injEq] at step
      subst step
      exact ⟨full, free, inv.goto (by simp [pc]) (by simp) (by simp [Channel.fillAt, pc])
        (fun _ => inv.holding (by rw [pc]; rfl)) fills (by rw [pc]; rfl)⟩
  | storeBytes n =>
      simp only [pc, Option.some.injEq] at step
      subst step
      exact inv.release pc
  | follow =>
      simp only [pc, Option.some.injEq] at step
      subst step
      exact ⟨full, free, inv.goto (by simp [pc]) (by simp) (by simp [Channel.fillAt, pc])
        (by rintro ⟨⟩) trivial (by rw [pc]; rfl)⟩
  | storeWp rval =>
      have fills := inv.fillOk
      rw [pc] at fills
      simp only [pc, Option.some.injEq] at step
      subst step
      exact ⟨full, free, inv.goto (by simp [pc]) (by simp) (by simp [Channel.fillAt, pc])
        (by rintro ⟨⟩) fills (by rw [pc]; rfl)⟩
  | exited rval => simp [pc] at step

/-! ## Whole runs -/

/-- A new channel has delivered everything it produced, which is nothing. -/
theorem delivers_start {bytesPerBlock nBlocks freeram : Nat} (sized : sampleBytes ≤ bytesPerBlock)
    (some : 1 ≤ nBlocks) (fits : bytesPerBlock < freeram) :
    ∃ free, (blbInitRw (α := α) bytesPerBlock nBlocks freeram).Delivers bytesPerBlock [] free := by
  obtain ⟨free, nonempty, layout⟩ := newRing_layout (α := α) (Nat.lt_of_lt_of_le (by decide) sized)
    some fits
  exact ⟨free, layout, nonempty, by simp, by rintro ⟨⟩, by rintro ⟨⟩, trivial, trivial,
    ⟨fun _ => rfl, fun _ => rfl⟩, rfl⟩

theorem delivers_step {copy : Memcpy α} {s t : Channel α} {act : Act α} {blockSize : Nat}
    {full free : List Nat} (inv : s.Delivers blockSize full free) (delivers : HwDelivers s act)
    (moves : MovesRight copy s act) (step : (channelSystem copy).step s act = some t) :
    ∃ full free, t.Delivers blockSize full free := by
  cases act with
  | call nSamp =>
      obtain ⟨mem, rp, wp, doFill, fill, fillWp, reader, call, reports, produced⟩ := s
      obtain ⟨layout, ring, blocks, busy, holding, reads, fills, alone, flow⟩ := inv
      simp only [channelSystem, channelStep] at step
      split at step
      · next idle =>
          obtain rfl : reader = .idle := idle
          cases step
          exact ⟨full, free, layout, ring, blocks, by rintro ⟨⟩, holding, trivial, fills, alone,
            flow⟩
      · cases step
  | reader => exact delivers_reader inv moves step
  | fill status samples => exact delivers_fill inv delivers step

/-- The invariant holds along every run with a hardware that delivers samples and a `memcpy` that
leaves what it reads. -/
theorem delivers_reach {copy : Memcpy α} {s : Channel α} (reached : (channelSystem copy).ReachUnder
      (fun s act => HwDelivers s act ∧ MovesRight copy s act) s) :
    ∃ blockSize full free, s.Delivers blockSize full free := by
  refine reached.invariant (I := fun s => ∃ blockSize full free, s.Delivers blockSize full free)
    ?_ ?_
  · rintro s ⟨bytesPerBlock, nBlocks, freeram, sized, some, fits, rfl⟩
    obtain ⟨free, inv⟩ := delivers_start (α := α) sized some fits
    exact ⟨bytesPerBlock, [], free, inv⟩
  · rintro s act t ⟨blockSize, full, free, inv⟩ ⟨delivers, moves⟩ step
    exact ⟨blockSize, delivers_step inv delivers moves step⟩

theorem Channel.Delivers.delivered_prefix {s : Channel α} {blockSize : Nat} {full free : List Nat}
    (inv : s.Delivers blockSize full free) : s.delivered <+: s.produced :=
  ⟨s.collected ++ s.unread full ++ pending (s.mem.block s.fillWp) s.fill, by
    rw [inv.flow]
    simp only [List.append_assoc]⟩

/-- Empty blocks hold no samples. -/
theorem samplesIn_empty {m : Mem α} {blocks : List Nat} (empty : ∀ x ∈ blocks, m.bytes x = 0) :
    samplesIn m blocks = [] := by
  unfold samplesIn
  rw [List.flatMap_eq_nil_iff]
  intro x member
  simp [samplesOf, empty x member]

/-- The samples reported are those that came first, and between calls the ring holds, from the read
position on, those that were produced and not reported. -/
def Channel.InOrder (s : Channel α) : Prop :=
  s.delivered <+: s.produced ∧
    (s.reader = .idle → ∃ blocks : List Nat, blocks.Nodup ∧ Chain s.mem.next s.rp blocks s.rp ∧
      (∀ x, x ∈ blocks ↔ ∃ k, s.mem.next^[k] s.rp = x) ∧
      s.produced = s.delivered ++ samplesIn s.mem blocks)

theorem Channel.Delivers.inOrder {s : Channel α} {blockSize : Nat} {full free : List Nat}
    (inv : s.Delivers blockSize full free) : s.InOrder := by
  refine ⟨inv.delivered_prefix, fun idle => ?_⟩
  have atRp : s.readAt = s.rp := by simp [Channel.readAt, idle]
  have joined : s.fill = .absent := inv.alone.mpr (by rw [idle]; rfl)
  have ring : Chain s.mem.next s.rp (full ++ free) s.rp := atRp ▸ inv.layout.ring
  refine ⟨full ++ free, inv.layout.nodup, ring, fun x => ring.mem_iff_iterate inv.ring, ?_⟩
  have flow := inv.flow
  simp only [Channel.collected, Channel.unread, idle, joined, if_true, ReaderPc.busy,
    Bool.false_eq_true, if_false, pending, List.append_nil] at flow
  rw [samplesIn_append, samplesIn_empty inv.layout.empty, List.append_nil]
  exact flow

/-! ## The counter -/

/-- `sdr_read_from_counter`: the samples stored and the counter left behind. The counter wraps at
`0x1000000`, below which its values are exact as floats; each sample takes two passes of the loop.
-/
def sdrReadFromCounter : (nSamp counter : Nat) → List (Nat × Nat) × Nat
  | 0, counter => ([], counter)
  | nSamp + 1, counter =>
      let imaginary := (counter + 1) % 0x1000000
      let (rest, last) := sdrReadFromCounter nSamp ((imaginary + 1) % 0x1000000)
      ((counter, imaginary) :: rest, last)

/-- The samples of successive reads of an unbuffered channel. -/
def unbufferedReads : (requests : List Nat) → (counter : Nat) → List (Nat × Nat)
  | [], _ => []
  | nSamp :: requests, counter =>
      (sdrReadFromCounter nSamp counter).1 ++
        unbufferedReads requests (sdrReadFromCounter nSamp counter).2

/-- What the calls have delivered is what an unbuffered channel would deliver with the counter,
however its reads are cut. -/
def Channel.AsUnbuffered (start : Nat) (s : Channel (Nat × Nat)) : Prop :=
  ∀ requests : List Nat, requests.sum = s.delivered.length →
    s.delivered = unbufferedReads requests start

/-- The counter is the hardware of the channel: each call fills its block. -/
def CounterHw (start : Nat) (s : Channel (Nat × Nat)) : Act (Nat × Nat) → Prop
  | .fill status samples => s.fill = .hwRead → status = .success ∧
      samples = (sdrReadFromCounter (s.mem.size s.fillWp / sampleBytes)
        (sdrReadFromCounter s.produced.length start).2).1
  | _ => True

theorem sdrReadFromCounter_length (nSamp counter : Nat) :
    (sdrReadFromCounter nSamp counter).1.length = nSamp := by
  induction nSamp generalizing counter with
  | zero => rfl
  | succ n ih => simp [sdrReadFromCounter, ih]

/-- Two reads in a row are one read. -/
theorem sdrReadFromCounter_add (first second counter : Nat) :
    sdrReadFromCounter (first + second) counter =
      ((sdrReadFromCounter first counter).1 ++
        (sdrReadFromCounter second (sdrReadFromCounter first counter).2).1,
      (sdrReadFromCounter second (sdrReadFromCounter first counter).2).2) := by
  induction first generalizing counter with
  | zero => simp [sdrReadFromCounter]
  | succ n ih =>
      rw [Nat.succ_add]
      simp only [sdrReadFromCounter, ih, List.cons_append]

theorem unbufferedReads_eq (requests : List Nat) (counter : Nat) :
    unbufferedReads requests counter = (sdrReadFromCounter requests.sum counter).1 := by
  induction requests generalizing counter with
  | nil => rfl
  | cons nSamp requests ih =>
      rw [unbufferedReads, ih, List.sum_cons, sdrReadFromCounter_add]

/-- Only an answer of the hardware adds to what was produced. -/
theorem produced_eq {copy : Memcpy α} {s t : Channel α} {act : Act α}
    (step : (channelSystem copy).step s act = some t)
    (silent : ¬ ∃ status samples, act = .fill status samples ∧ s.fill = .hwRead) :
    t.produced = s.produced := by
  cases act with
  | call nSamp =>
      simp only [channelSystem, channelStep] at step
      split at step
      · cases step
        rfl
      · cases step
  | reader => cases readerMove_of_step step <;> rfl
  | fill status samples =>
      have other : s.fill ≠ .hwRead := fun pc => silent ⟨status, samples, rfl, pc⟩
      simp only [channelSystem, channelStep] at step
      unfold fillStep at step
      grind

/-- What a channel with the counter has produced is the counter's sequence. -/
theorem counter_reach {copy : Memcpy (Nat × Nat)} {start : Nat} {s : Channel (Nat × Nat)}
    (reached : (channelSystem copy).ReachUnder
      (fun s act => CounterHw start s act ∧ MovesRight copy s act) s) :
    (∃ blockSize full free, sampleBytes ≤ blockSize ∧ s.Delivers blockSize full free) ∧
      s.produced = (sdrReadFromCounter s.produced.length start).1 := by
  refine reached.invariant (I := fun s =>
    (∃ blockSize full free, sampleBytes ≤ blockSize ∧ s.Delivers blockSize full free) ∧
      s.produced = (sdrReadFromCounter s.produced.length start).1) ?_ ?_
  · rintro s ⟨bytesPerBlock, nBlocks, freeram, sized, some, fits, rfl⟩
    obtain ⟨free, inv⟩ := delivers_start (α := Nat × Nat) sized some fits
    exact ⟨⟨bytesPerBlock, [], free, sized, inv⟩, rfl⟩
  · rintro s act t ⟨⟨blockSize, full, free, sized, inv⟩, counted⟩ ⟨hardware, moves⟩ step
    have delivers : HwDelivers s act := by
      cases act with
      | call nSamp => trivial
      | reader => trivial
      | fill status samples =>
          intro pc
          obtain ⟨success, rfl⟩ := hardware pc
          refine ⟨Or.inl success, ?_⟩
          have inFree : s.fillWp ∈ free := inv.fillWp_mem (by rw [pc]; rfl)
          rw [← List.length_pos_iff, sdrReadFromCounter_length,
            inv.layout.sizes s.fillWp (List.mem_append_right _ inFree)]
          exact Nat.div_pos sized (by decide)
    refine ⟨?_, ?_⟩
    · obtain ⟨full', free', inv'⟩ := delivers_step inv delivers moves step
      exact ⟨blockSize, full', free', sized, inv'⟩
    · by_cases asked : ∃ status samples, act = .fill status samples ∧ s.fill = .hwRead
      · obtain ⟨status, samples, rfl, pc⟩ := asked
        obtain ⟨success, answer⟩ := hardware pc
        have produced : t.produced = s.produced ++ samples := by
          simp only [channelSystem, channelStep, fillStep, pc, success] at step
          split at step
          · cases step
            rfl
          · cases step
        have length : samples.length = s.mem.size s.fillWp / sampleBytes := by
          rw [answer, sdrReadFromCounter_length]
        rw [produced, List.length_append, sdrReadFromCounter_add, ← counted, length, ← answer]
      · rw [produced_eq step asked]
        exact counted

/-! ## Reads in order -/

theorem asUnbuffered_reach {copy : Memcpy (Nat × Nat)} {start : Nat} {s : Channel (Nat × Nat)}
    (reached : (channelSystem copy).ReachUnder
      (fun s act => CounterHw start s act ∧ MovesRight copy s act) s) : s.AsUnbuffered start := by
  intro requests total
  obtain ⟨⟨blockSize, full, free, _, inv⟩, counted⟩ := counter_reach reached
  obtain ⟨rest, split⟩ := inv.delivered_prefix
  have length : s.produced.length = s.delivered.length + rest.length := by
    rw [← split, List.length_append]
  rw [length, sdrReadFromCounter_add, ← split] at counted
  have parts := List.append_inj_left counted (sdrReadFromCounter_length ..).symm
  rw [unbufferedReads_eq, total]
  exact parts

/-- **Buffered reads deliver the hardware's samples in order, once**, whatever the `memcpy` of the
C library, along every run with a hardware that delivers samples in which no call leaves more in a
block than it has taken from it; with the counter as the hardware, the reports are what an
unbuffered channel delivers. With `memmove` in place of `memcpy` this holds along every run. -/
theorem buffered_reads_in_order (copy : Memcpy α) (copy' : Memcpy (Nat × Nat)) :
    (∀ s : Channel α, (channelSystem copy).ReachUnder
      (fun s act => HwDelivers s act ∧ MovesApart s act) s → s.InOrder) ∧
    (∀ (start : Nat) (s : Channel (Nat × Nat)), (channelSystem copy').ReachUnder
      (fun s act => CounterHw start s act ∧ MovesApart s act) s → s.AsUnbuffered start) ∧
    (∀ s : Channel α, (channelSystem .memmove).ReachUnder HwDelivers s → s.InOrder) ∧
    ∀ (start : Nat) (s : Channel (Nat × Nat)),
      (channelSystem .memmove).ReachUnder (CounterHw start) s → s.AsUnbuffered start := by
  refine ⟨fun s reached => ?_, fun start s reached => ?_, fun s reached => ?_,
    fun start s reached => ?_⟩
  · obtain ⟨blockSize, full, free, inv⟩ :=
      delivers_reach (reached.mono fun s act met => ⟨met.1, met.2.right copy⟩)
    exact inv.inOrder
  · exact asUnbuffered_reach (reached.mono fun s act met => ⟨met.1, met.2.right copy'⟩)
  · obtain ⟨blockSize, full, free, inv⟩ :=
      delivers_reach (reached.mono fun s act met => ⟨met, movesRight_memmove s act⟩)
    exact inv.inOrder
  · exact asUnbuffered_reach (reached.mono fun s act met => ⟨met, movesRight_memmove s act⟩)

instance [DecidableEq α] (s : Channel α) (act : Act α) : Decidable (HwDelivers s act) :=
  match act with
  | .call _ => inferInstanceAs (Decidable True)
  | .reader => inferInstanceAs (Decidable True)
  | .fill status samples => inferInstanceAs (Decidable
      (s.fill = .hwRead → (status = .success ∨ status = .databreak) ∧ samples ≠ []))

instance (s : Channel α) (act : Act α) : Decidable (MovesApart s act) :=
  match act with
  | .call _ => inferInstanceAs (Decidable True)
  | .fill _ _ => inferInstanceAs (Decidable True)
  | .reader => inferInstanceAs (Decidable (s.movesApart = true))

/-- One block of three samples. -/
def threeSamples : Channel Nat := blbInitRw 24 1 25

/-- A call for `nSamp` samples of this channel, with as many steps of its fill thread, which goes
first, as it takes to leave its loop. -/
def readOnce (nSamp fills : Nat) : List (Act Nat) :=
  [.call nSamp] ++ List.replicate 3 .reader ++ List.replicate fills (.fill .success [1, 2, 3]) ++
    List.replicate 12 .reader

/-- Of the three samples of a block the first call takes two, and the second one the third. -/
theorem buffered_reads_rest : ∃ s : Channel Nat,
    s.reports = [(.success, [1, 2]), (.success, [3])] ∧ s.produced = [1, 2, 3] ∧ s.InOrder := by
  have run : ((channelSystem Memcpy.backward).execUnder
      (fun s act => HwDelivers s act ∧ MovesApart s act) threeSamples
      (readOnce 2 11 ++ readOnce 1 4)).map (fun s => (s.reports, s.produced)) =
        some ([(.success, [1, 2]), (.success, [3])], [1, 2, 3]) := by
    decide +kernel
  obtain ⟨s, exec, shape⟩ := Option.map_eq_some_iff.mp run
  obtain ⟨reports, produced⟩ := Prod.mk.inj shape
  have start : (channelSystem (α := Nat) Memcpy.backward).start threeSamples :=
    ⟨24, 1, 25, by decide, by decide, by decide, rfl⟩
  exact ⟨s, reports, produced,
    (buffered_reads_in_order Memcpy.backward Memcpy.memmove).1 s (.execUnder (.start start) exec)⟩

/-- The first call takes one sample, and a `memcpy` that copies backward puts the third one in both
places that are left: the second call returns it twice, and the second sample never comes. -/
theorem overlap_loses_sample :
    ¬ ∀ (copy : Memcpy Nat) (s : Channel Nat), (channelSystem copy).ReachUnder HwDelivers s →
      s.InOrder := by
  intro ordered
  have run : ((channelSystem Memcpy.backward).execUnder HwDelivers threeSamples
      (readOnce 1 11 ++ readOnce 2 4)).map (fun s => (s.reports, s.produced)) =
        some ([(.success, [1]), (.success, [3, 3])], [1, 2, 3]) := by
    decide +kernel
  obtain ⟨s, exec, shape⟩ := Option.map_eq_some_iff.mp run
  obtain ⟨reports, produced⟩ := Prod.mk.inj shape
  have start : (channelSystem (α := Nat) Memcpy.backward).start threeSamples :=
    ⟨24, 1, 25, by decide, by decide, by decide, rfl⟩
  have first := (ordered .backward s (.execUnder (.start start) exec)).1
  rw [Channel.delivered, reports, produced] at first
  exact absurd first (by decide)

end Bingewatch.Sdr
