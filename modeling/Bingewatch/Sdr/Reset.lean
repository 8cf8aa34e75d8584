import Bingewatch.Sdr.Delivery
import Bingewatch.Sdr.Protocol

/-!
# A reset discards what is buffered

`sdrrx_reset` (`src/sdr/sdr-rx-machine.c`) stops the stream of a channel, and then empties the ring
of blocks (`blb_rw_empty`). In the states `SDR_CHAN_NOINIT` and `SDR_CHAN_RESET` it returns at once
and empties nothing.

A session is a channel with its state, its mode and its ring, and any sequence of reads, resets and
changes of the buffering; a buffered read goes on step by step beside its fill thread. Every sample
carries a stamp, the number of resets that had returned zero when `hw_read` delivered it.
`reset_discards_buffered` says that no read delivers a sample with an older stamp, and that in the
two states in which a reset empties nothing there is nothing to empty.
-/

set_option autoImplicit false

namespace Bingewatch.Sdr

open Foundation Machine Buffer

/-! ## Sessions -/

section Model

variable {α ν β : Type}

/-- The loop of `blb_empty`, which begins at `blb`. -/
def blbEmptyLoop (blb : Nat) : (fuel : Nat) → Mem α → Nat → Mem α
  | 0, m, _ => m
  | fuel + 1, m, b =>
      let m := m.modify b (setBytes 0)
      let b := m.next b
      if b = 0 ∨ b = blb then m else blbEmptyLoop blb fuel m b

/-- `blb_empty`. The walk visits a block only once, so the number of blocks bounds its length. -/
def blbEmpty (m : Mem α) (blb : Nat) : Mem α := blbEmptyLoop blb m.brk m blb

/-- `struct blb_rw_t`: the first block of the ring, and the ring with the threads that use it. -/
structure BlbRw (β : Type) where
  buf : Nat
  channel : Channel (Nat × β)

/-- `blb_init_rw`. -/
def newBlbRw (bytesPerBlock nBlocks freeram : Nat) : BlbRw β where
  buf := (blbInitRw (α := Nat × β) bytesPerBlock nBlocks freeram).rp
  channel := blbInitRw bytesPerBlock nBlocks freeram

/-- `blb_rw_empty`. -/
def blbRwEmpty (rw : BlbRw β) : BlbRw β :=
  { rw with
    channel :=
      { rw.channel with mem := blbEmpty rw.channel.mem rw.buf, rp := rw.buf, wp := rw.buf } }

/-- A channel with its ring, the number of resets that returned zero, and for each read that
returned the number of resets before it and the samples it delivered. -/
structure Session (ν β : Type) where
  chan : RxChannel ν
  buffer : Option (BlbRw β) := none
  resets : Nat := 0
  reads : List (Nat × List (Nat × β)) := []

/-- A read that begins, with the answers of the driver and, in unbuffered mode, the samples of
`hw_read`; a step of the read or of its fill thread; or another call. -/
inductive SessionAct (β : Type) where
  | read (bytes : Nat) (answers : ReadAnswers) (samples : List β)
  | reader
  | fill (status : IoStatus) (samples : List β)
  | reset (answer : IoStatus)
  | enableBuffering (bytesPerBlock nBlocks freeram : Nat)
  | disableBuffering

namespace Session

/-- No read is running. -/
def Idle (s : Session ν β) : Prop := ∀ rw, s.buffer = some rw → rw.channel.reader = .idle

instance (s : Session ν β) : Decidable s.Idle :=
  match shape : s.buffer with
  | none => .isTrue fun rw here => by rw [shape] at here; cases here
  | some rw => decidable_of_iff (rw.channel.reader = .idle)
      ⟨fun idle rw' here => by rw [shape] at here; cases here; exact idle, fun all => all rw shape⟩

/-- The samples get the stamp of the session. -/
def stamp (s : Session ν β) (samples : List β) : List (Nat × β) :=
  samples.map fun x => (s.resets, x)

/-- A read returns with these samples. -/
def returns (s : Session ν β) (samples : List (Nat × β)) : Session ν β :=
  { s with reads := s.reads ++ [(s.resets, samples)] }

/-- `sdrrx_read` up to the call of `read_from_buffer`, or to its end. -/
def read (copy : Memcpy (Nat × β)) (s : Session ν β) (bytes : Nat) (answers : ReadAnswers)
    (samples : List β) : Option (Session ν β) :=
  match s.chan.prepare answers with
  | (chan, _, false) => some ({ s with chan := chan }.returns [])
  | (chan, _, true) =>
      match chan.mode with
      | .unbuffered =>
          if samples.length ≤ bytes / sampleBytes then
            some ({ s with chan := chan }.returns
              (if answers.hwRead.1.isError then [] else s.stamp samples))
          else none
      | .buffered => s.buffer.bind fun rw =>
          (channelStep copy rw.channel (.call (bytes / sampleBytes))).map fun c =>
            { s with chan := chan, buffer := some { rw with channel := c } }
      | .error => some ({ s with chan := chan }.returns [])

/-- A step of the buffered read that is running, and of its return. -/
def advance (copy : Memcpy (Nat × β)) (s : Session ν β) (act : Act (Nat × β)) :
    Option (Session ν β) :=
  s.buffer.bind fun rw => (channelStep copy rw.channel act).map fun c =>
    { s with
      buffer := some { rw with channel := c }
      reads := s.reads ++
        (c.reports.drop rw.channel.reports.length).map fun report => (s.resets, report.2) }

/-- What `sdrrx_reset` does to the ring. -/
def resetBuffer (chan : RxChannel ν) (answer : IoStatus) (buffer : Option (BlbRw β)) :
    Option (BlbRw β) :=
  match chan.state with
  | .noinit => buffer
  | .reset => buffer
  | _ => if answer.isError then buffer else buffer.map blbRwEmpty

/-- `sdrrx_reset`. -/
def reset (s : Session ν β) (answer : IoStatus) : Session ν β :=
  let (chan, _, ret) := s.chan.sdrrxReset answer
  { s with
    chan := chan
    buffer := resetBuffer s.chan answer s.buffer
    resets := if ret = 0 then s.resets + 1 else s.resets }

/-- A step of a session: calls do not overlap. `sdrrx_enable_buffering` needs a block, else
`forge_ring` goes to the null pointer. -/
def step (copy : Memcpy (Nat × β)) (s : Session ν β) : SessionAct β → Option (Session ν β)
  | .read bytes answers samples => if s.Idle then s.read copy bytes answers samples else none
  | .reader => s.advance copy .reader
  | .fill status samples => s.advance copy (.fill status (s.stamp samples))
  | .reset answer => if s.Idle then some (s.reset answer) else none
  | .enableBuffering bytesPerBlock nBlocks freeram =>
      if s.Idle ∧ 0 < nBlocks then
        some
          { s with
            chan := { s.chan with mode := .buffered }
            buffer := some (newBlbRw bytesPerBlock nBlocks freeram) }
      else none
  | .disableBuffering =>
      if s.Idle then
        some { s with chan := { s.chan with mode := .unbuffered }, buffer := none }
      else none

end Session

/-- Sessions of a new channel. -/
def sessionSystem (ν : Type) (copy : Memcpy (Nat × β)) : System (Session ν β) (SessionAct β) where
  start := fun s => ∃ freq rate bandwidth ppm,
    s = { chan := newChannel freq rate bandwidth ppm .unbuffered }
  step := Session.step copy

/-- Every sample of a read was delivered by the hardware after the last reset before the read. -/
def Session.DeliversFresh (s : Session ν β) : Prop :=
  ∀ read ∈ s.reads, ∀ sample ∈ read.2, read.1 ≤ sample.1

/-- Where a reset empties nothing, all blocks of the ring are empty and the two positions are the
same. -/
def Session.EmptyUnstarted (s : Session ν β) : Prop :=
  s.chan.state = .noinit ∨ s.chan.state = .reset → ∀ rw, s.buffer = some rw →
    (∀ k, rw.channel.mem.bytes (rw.channel.mem.next^[k] rw.buf) = 0) ∧
      rw.channel.rp = rw.channel.wp

end Model

/-! ## What the blocks hold -/

section Holds

variable {α : Type} {P : α → Prop}

/-- The reader works on the block at its position, which is not empty. -/
def ReaderPc.working : ReaderPc → Bool
  | .testRet => true
  | .loadBytes => true
  | .switch _ => true
  | .copy _ => true
  | .testAll _ => true
  | .clear => true
  | .shrink _ => true
  | .shift _ => true
  | .copyLast _ => true
  | .dropBytes => true
  | _ => false

/-- The fill thread has loaded its position. -/
def FillPc.started : FillPc → Bool
  | .absent => false
  | .start => false
  | _ => true

/-- The samples a block holds have the property. -/
def BlockHolds (P : α → Prop) (b : Block α) : Prop :=
  ∀ a ∈ b.data.take (b.bytes / sampleBytes), P a

/-- What the reader knows of the block it works on. Between the two steps that move the rest of a
block to its front, the samples that are moved have the property too. -/
def readerHolds (P : α → Prop) (b : Block α) : ReaderPc → Prop
  | .switch n => n ≤ b.bytes / sampleBytes
  | .copy n => n ≤ b.bytes / sampleBytes
  | .testAll n => n ≤ b.bytes / sampleBytes
  | .shrink n => n * sampleBytes < b.bytes
  | .shift n => ∀ a ∈ b.data.take (n + b.bytes / sampleBytes), P a
  | .copyLast n => n ≤ b.bytes / sampleBytes
  | _ => True

/-- What the fill thread has stored has the property. -/
def fillHolds (P : α → Prop) (b : Block α) : FillPc → Prop
  | .storeRet _ n => ∀ a ∈ b.data.take n, P a
  | .testRet n => ∀ a ∈ b.data.take n, P a
  | .storeBytes n => ∀ a ∈ b.data.take n, P a
  | _ => True

/-- The links of a ring of blocks. -/
structure Linked (m : Mem α) (buf : Nat) (ring : List Nat) : Prop where
  chain : Chain m.next buf ring buf
  some : ring ≠ []
  nodup : ring.Nodup
  inside : ∀ x ∈ ring, 0 < x ∧ x < m.brk

/-- Everything in the ring has the property, and so has what the threads carry. -/
structure Channel.Holds (P : α → Prop) (buf : Nat) (ring : List Nat) (s : Channel α) : Prop where
  linked : Linked s.mem buf ring
  blocks : ∀ x, BlockHolds P (s.mem.block x)
  filled : ∀ x, s.mem.bytes x ≠ 0 → x ∈ ring
  wp : s.wp ∈ ring
  fillWp : s.fill.started = true → s.fillWp ∈ ring
  holding : s.fill.holding = true → s.mem.bytes s.fillWp = 0
  working : s.reader.working = true → s.mem.bytes s.call.rp ≠ 0
  reads : readerHolds P (s.mem.block s.call.rp) s.reader
  fills : fillHolds P (s.mem.block s.fillWp) s.fill
  out : s.reader ≠ .idle → ∀ a ∈ s.call.out, P a
  alone : s.fill = .absent ↔ s.reader.alone = true

theorem Linked.modify {m : Mem α} {buf x : Nat} {ring : List Nat} (linked : Linked m buf ring)
    {f : Block α → Block α} (next : (f (m.block x)).next = m.next x) :
    Linked (m.modify x f) buf ring where
  chain := linked.chain.congr fun y _ => Mem.modify_field Block.next m x f next y
  some := linked.some
  nodup := linked.nodup
  inside := linked.inside

theorem blockHolds_modify {m : Mem α} {x : Nat} {f : Block α → Block α}
    (blocks : ∀ y, BlockHolds P (m.block y)) (changed : BlockHolds P (f (m.block x))) (y : Nat) :
    BlockHolds P ((m.modify x f).block y) := by
  by_cases here : y = x
  · subst here
    simpa using changed
  · rw [Mem.modify_block_of_ne m f here]
    exact blocks y

/-- The rest of a block is moved to its front: whatever the `memcpy` leaves there, it copied from
the block. -/
theorem blockHolds_shift (copy : Memcpy α) {b : Block α} {n : Nat}
    (holds : ∀ a ∈ b.data.take (n + b.bytes / sampleBytes), P a) :
    BlockHolds P (shiftSamples copy n b) := by
  intro a member
  simp only [shiftSamples] at member
  generalize b.bytes / sampleBytes = left at holds member
  apply holds
  rcases Nat.lt_or_ge b.data.length (n + left) with short | long
  · -- No sample behind the ones that are moved.
    rcases List.mem_append.mp (List.mem_of_mem_take member) with moved | stays
    · exact copy.mem_of_mem_moved moved
    · rw [List.take_of_length_le (Nat.le_of_lt short)]
      exact List.mem_of_mem_drop stays
  · have length : (copy.moved (b.data.take (n + left)) n).length = left := by
      rw [copy.length_moved, List.length_take]
      omega
    rw [List.take_left' length] at member
    exact copy.mem_of_mem_moved member

/-- Fewer bytes of a block. -/
theorem blockHolds_of_le {b b' : Block α} (holds : BlockHolds P b) (data : b'.data = b.data)
    (bytes : b'.bytes ≤ b.bytes) : BlockHolds P b' := by
  intro a member
  rw [data] at member
  exact holds a (List.take_subset_take_left _ (Nat.div_le_div_right bytes) member)

/-- What was copied and the rest make up what a block held. -/
theorem blockHolds_rest {b : Block α} {n : Nat} (holds : BlockHolds P b)
    (some : n * sampleBytes < b.bytes) :
    ∀ a ∈ b.data.take (n + (b.bytes - n * sampleBytes) / sampleBytes), P a := by
  have within : n ≤ b.bytes / sampleBytes :=
    (Nat.le_div_iff_mul_le (by decide)).mpr (Nat.le_of_lt some)
  rw [Nat.mul_comm n, Nat.sub_mul_div, Nat.add_sub_cancel' within]
  exact holds

theorem blockHolds_of_empty {b : Block α} (empty : b.bytes = 0) : BlockHolds P b := by
  simp [BlockHolds, empty]

theorem fillHolds_of_off {b : Block α} {pc : FillPc} (off : pc.holding = false) :
    fillHolds P b pc := by
  cases pc <;> trivial

theorem readerHolds_of_off {b : Block α} {pc : ReaderPc} (off : pc.working = false) :
    readerHolds P b pc := by
  cases pc <;> trivial

/-- The fill thread looks at its block only while it holds it. -/
theorem fillHolds_frame {b b' : Block α} {pc : FillPc} (same : pc.holding = true → b' = b)
    (holds : fillHolds P b pc) : fillHolds P b' pc := by
  cases holding : pc.holding with
  | true => rwa [same holding]
  | false => exact fillHolds_of_off holding

/-- The reader looks at its block only while it works on it. -/
theorem readerHolds_frame {b b' : Block α} {pc : ReaderPc} (same : pc.working = true → b' = b)
    (holds : readerHolds P b pc) : readerHolds P b' pc := by
  cases working : pc.working with
  | true => rwa [same working]
  | false => exact readerHolds_of_off working

namespace Channel.Holds

variable {buf : Nat} {ring : List Nat} {s : Channel α}

/-- The reader moves on without touching a block. -/
theorem turn (inv : s.Holds P buf ring) {pc : ReaderPc} {call : ReadCall α} {rp : Nat}
    {doFill : Bool} (alone : pc.alone = s.reader.alone)
    (working : pc.working = true → s.mem.bytes call.rp ≠ 0)
    (reads : readerHolds P (s.mem.block call.rp) pc) (out : ∀ a ∈ call.out, P a) :
    Holds P buf ring { s with rp := rp, doFill := doFill, reader := pc, call := call } where
  linked := inv.linked
  blocks := inv.blocks
  filled := inv.filled
  wp := inv.wp
  fillWp := inv.fillWp
  holding := inv.holding
  working := working
  reads := reads
  fills := inv.fills
  out := fun _ => out
  alone := by
    rw [alone]
    exact inv.alone

/-- A call begins or ends, or its fill thread does: no thread holds a block. -/
theorem threads (inv : s.Holds P buf ring) {fill : FillPc} {pc : ReaderPc} {call : ReadCall α}
    {reports : List (IoStatus × List α)} (alone : fill = .absent ↔ pc.alone = true)
    (unstarted : fill.started = false) (free : fill.holding = false) (off : pc.working = false)
    (out : pc ≠ .idle → ∀ a ∈ call.out, P a) :
    Holds P buf ring { s with fill := fill, reader := pc, call := call, reports := reports } where
  linked := inv.linked
  blocks := inv.blocks
  filled := inv.filled
  wp := inv.wp
  fillWp := fun started => absurd started (by simp [unstarted])
  holding := fun holding => absurd holding (by simp [free])
  working := fun works => absurd works (by simp [off])
  reads := readerHolds_of_off off
  fills := fillHolds_of_off free
  out := out
  alone := alone

/-- The reader moves on and works on no block. -/
theorem rest (inv : s.Holds P buf ring) {pc : ReaderPc} {call : ReadCall α} {rp : Nat}
    {doFill : Bool} (alone : pc.alone = s.reader.alone) (off : pc.working = false)
    (out : ∀ a ∈ call.out, P a) :
    Holds P buf ring { s with rp := rp, doFill := doFill, reader := pc, call := call } :=
  inv.turn alone (fun works => absurd works (by simp [off])) (readerHolds_of_off off) out

/-- The reader changes the block it works on: the block stays linked where it is. -/
theorem alter (inv : s.Holds P buf ring) {f : Block α → Block α} {pc : ReaderPc}
    (works : s.reader.working = true)
    (next : (f (s.mem.block s.call.rp)).next = s.mem.next s.call.rp)
    (holds : BlockHolds P (f (s.mem.block s.call.rp))) (alone : pc.alone = false)
    (working : pc.working = true → (f (s.mem.block s.call.rp)).bytes ≠ 0)
    (reads : readerHolds P (f (s.mem.block s.call.rp)) pc) :
    Holds P buf ring { s with mem := s.mem.modify s.call.rp f, reader := pc } := by
  have full := inv.working works
  have apart : s.fill.holding = true → s.fillWp ≠ s.call.rp := by
    intro holding same
    exact full (same ▸ inv.holding holding)
  have running : s.reader.alone = false := by
    cases here : s.reader <;> simp_all [ReaderPc.alone, ReaderPc.working]
  have carries : s.reader ≠ .idle := by
    intro idle
    simp [idle, ReaderPc.working] at works
  exact {
    linked := inv.linked.modify next
    blocks := blockHolds_modify inv.blocks holds
    filled := by
      intro x bytes
      by_cases here : x = s.call.rp
      · exact here ▸ inv.filled s.call.rp full
      · rw [Mem.bytes, Mem.modify_block_of_ne s.mem f here] at bytes
        exact inv.filled x bytes
    wp := inv.wp
    fillWp := inv.fillWp
    holding := by
      intro holding
      show (s.mem.modify s.call.rp f).bytes s.fillWp = 0
      rw [Mem.bytes, Mem.modify_block_of_ne s.mem f (apart holding)]
      exact inv.holding holding
    working := by
      intro works
      simpa [Mem.bytes] using working works
    reads := by simpa using reads
    fills := fillHolds_frame
      (fun holding => Mem.modify_block_of_ne s.mem f (apart holding)) inv.fills
    out := fun _ => inv.out carries
    alone := by
      rw [alone, ← running]
      exact inv.alone }

/-- The samples that the reader copies from its block. -/
theorem out_append (inv : s.Holds P buf ring) {n : Nat} (running : s.reader ≠ .idle)
    (within : n ≤ (s.mem.block s.call.rp).bytes / sampleBytes) :
    ∀ a ∈ s.call.out ++ (s.mem.data s.call.rp).take n, P a := by
  intro a member
  rcases List.mem_append.mp member with earlier | copied
  · exact inv.out running a earlier
  · exact inv.blocks s.call.rp a (List.take_subset_take_left _ within copied)

end Channel.Holds

/-- **A step of the reader.** -/
theorem holds_reader {copy : Memcpy α} {buf : Nat} {ring : List Nat} {s t : Channel α}
    (inv : s.Holds P buf ring) (step : readerStep copy s = some t) : t.Holds P buf ring := by
  have reads := inv.reads
  have out (running : s.reader ≠ .idle) := inv.out running
  have filled (works : s.reader.working = true) := inv.working works
  cases readerMove_of_step step with
  | waits => exact inv
  | create pc =>
      exact inv.threads (by simp [ReaderPc.alone]) rfl rfl rfl fun _ => out (by simp [pc])
  | finds pc needs filled =>
      exact inv.turn (by rw [pc]; rfl) (fun _ => filled) trivial (out (by simp [pc]))
  | fails pc | passes pc | usesUp pc =>
      exact inv.turn (by rw [pc]; rfl) (fun _ => filled (by rw [pc]; rfl)) trivial
        (out (by simp [pc]))
  | loadBytes pc =>
      exact inv.turn (by rw [pc]; rfl) (fun _ => filled (by rw [pc]; rfl)) (Nat.min_le_left _ _)
        (out (by simp [pc]))
  | success pc | tolerates pc | ends pc =>
      rw [pc] at reads
      exact inv.turn (by rw [pc]; rfl) (fun _ => filled (by rw [pc]; rfl)) reads
        (out (by simp [pc]))
  | copy pc | copyLast pc =>
      rw [pc] at reads
      exact inv.turn (by rw [pc]; rfl) (fun _ => filled (by rw [pc]; rfl)) (by trivial)
        (inv.out_append (by simp [pc]) reads)
  | leaves pc partly =>
      rename_i n
      rw [pc] at reads
      refine inv.turn (by rw [pc]; rfl) (fun _ => filled (by rw [pc]; rfl)) ?_ (out (by simp [pc]))
      have within : n * sampleBytes ≤ (s.mem.block s.call.rp).bytes :=
        Nat.le_trans (Nat.mul_le_mul_right _ reads) (Nat.div_mul_le_self _ _)
      exact Nat.lt_of_le_of_ne within (Ne.symm partly)
  | clear pc | dropBytes pc =>
      exact inv.alter (by rw [pc]; rfl) rfl (blockHolds_of_empty rfl) rfl (by rintro ⟨⟩) trivial
  | shrink pc =>
      rename_i n
      rw [pc] at reads
      have some : n * sampleBytes < (s.mem.block s.call.rp).bytes := reads
      exact inv.alter (by rw [pc]; rfl) rfl
        (blockHolds_of_le (inv.blocks s.call.rp) rfl (Nat.sub_le _ _)) rfl
        (fun _ => Nat.sub_ne_zero_of_lt some) (blockHolds_rest (inv.blocks s.call.rp) some)
  | shift pc =>
      rw [pc] at reads
      exact inv.alter (by rw [pc]; rfl) rfl (blockHolds_shift copy reads) rfl
        (fun _ => filled (by rw [pc]; rfl)) trivial
  | join pc =>
      exact inv.threads (by simp [ReaderPc.alone]) rfl rfl rfl fun busy => absurd rfl busy
  | setFill pc | loadRp pc | served pc | breaks pc | follow pc | dropFollow pc | dropRet pc
  | storeRp pc | stopFill pc => exact inv.rest (by rw [pc]; rfl) rfl (out (by simp [pc]))

namespace Channel.Holds

variable {buf : Nat} {ring : List Nat} {s : Channel α}

/-- The fill thread changes the block it holds: the block stays linked where it is. -/
theorem change (inv : s.Holds P buf ring) {f : Block α → Block α} {pc : FillPc}
    {produced : List α} (held : s.fill.holding = true)
    (next : (f (s.mem.block s.fillWp)).next = s.mem.next s.fillWp)
    (holds : BlockHolds P (f (s.mem.block s.fillWp))) (stays : pc ≠ .absent)
    (empty : pc.holding = true → (f (s.mem.block s.fillWp)).bytes = 0)
    (fills : fillHolds P (f (s.mem.block s.fillWp)) pc) :
    Holds P buf ring
      { s with mem := s.mem.modify s.fillWp f, fill := pc, produced := produced } := by
  have running : s.fill ≠ .absent := by
    intro absent
    simp [absent, FillPc.holding] at held
  have inRing : s.fillWp ∈ ring := by
    apply inv.fillWp
    cases pc : s.fill <;> simp_all [FillPc.holding, FillPc.started]
  have readerBlock : s.reader.working = true →
      (s.mem.modify s.fillWp f).block s.call.rp = s.mem.block s.call.rp := by
    intro works
    apply Mem.modify_block_of_ne s.mem f
    intro same
    exact inv.working works (same ▸ inv.holding held)
  exact {
    linked := inv.linked.modify next
    blocks := blockHolds_modify inv.blocks holds
    filled := by
      intro x bytes
      by_cases here : x = s.fillWp
      · exact here ▸ inRing
      · rw [Mem.bytes, Mem.modify_block_of_ne s.mem f here] at bytes
        exact inv.filled x bytes
    wp := inv.wp
    fillWp := fun _ => inRing
    holding := by
      intro holding
      simpa [Mem.bytes] using empty holding
    working := by
      intro works
      show ((s.mem.modify s.fillWp f).block s.call.rp).bytes ≠ 0
      rw [readerBlock works]
      exact inv.working works
    reads := readerHolds_frame readerBlock inv.reads
    fills := by simpa using fills
    out := inv.out
    alone :=
      ⟨fun absent => absurd absent stays, fun alone => absurd (inv.alone.mpr alone) running⟩ }

/-- The fill thread moves on without touching a block. -/
theorem goto (inv : s.Holds P buf ring) {pc : FillPc} {wp fillWp : Nat} (running : s.fill ≠ .absent)
    (stays : pc ≠ .absent) (wpIn : wp ∈ ring) (fillWpIn : fillWp ∈ ring)
    (holding : pc.holding = true → s.mem.bytes fillWp = 0)
    (fills : fillHolds P (s.mem.block fillWp) pc) :
    Holds P buf ring { s with fill := pc, wp := wp, fillWp := fillWp } where
  linked := inv.linked
  blocks := inv.blocks
  filled := inv.filled
  wp := wpIn
  fillWp := fun _ => fillWpIn
  holding := holding
  working := inv.working
  reads := inv.reads
  fills := fills
  out := inv.out
  alone :=
    ⟨fun absent => absurd absent stays, fun alone => absurd (inv.alone.mpr alone) running⟩

/-- The fill thread moves on and holds no block. -/
theorem leave (inv : s.Holds P buf ring) {pc : FillPc} {wp fillWp : Nat}
    (running : s.fill ≠ .absent) (stays : pc ≠ .absent) (wpIn : wp ∈ ring)
    (fillWpIn : fillWp ∈ ring) (off : pc.holding = false) :
    Holds P buf ring { s with fill := pc, wp := wp, fillWp := fillWp } :=
  inv.goto running stays wpIn fillWpIn (fun holding => absurd holding (by simp [off]))
    (fillHolds_of_off off)

end Channel.Holds

/-- **A step of the fill thread**, with samples that have the property. -/
theorem holds_fill {buf : Nat} {ring : List Nat} {s t : Channel α} {status : IoStatus}
    {samples : List α} (inv : s.Holds P buf ring) (fresh : ∀ a ∈ samples, P a)
    (step : fillStep s status samples = some t) : t.Holds P buf ring := by
  have fills := inv.fills
  unfold fillStep at step
  cases pc : s.fill with
  | absent => simp [pc] at step
  | start =>
      simp only [pc, Option.some.injEq] at step
      subst step
      exact inv.leave (by simp [pc]) (by simp) inv.wp inv.wp rfl
  | testFill =>
      have inRing := inv.fillWp (by rw [pc]; rfl)
      simp only [pc, Option.some.injEq] at step
      subst step
      split
      · exact inv.leave (by simp [pc]) (by simp) inv.wp inRing rfl
      · exact inv.leave (by simp [pc]) (by simp) inv.wp inRing rfl
  | testBytes =>
      have inRing := inv.fillWp (by rw [pc]; rfl)
      simp only [pc, Option.some.injEq] at step
      subst step
      split
      · next empty =>
          exact inv.goto (by simp [pc]) (by simp) inv.wp inRing (fun _ => empty) trivial
      · exact inv.leave (by simp [pc]) (by simp) inv.wp inRing rfl
  | hwRead =>
      have held : s.fill.holding = true := by rw [pc]; rfl
      have empty : (s.mem.block s.fillWp).bytes = 0 := inv.holding held
      simp only [pc] at step
      split at step
      · cases step
        refine inv.change held rfl (blockHolds_of_empty empty) (by simp) (fun _ => empty) ?_
        show ∀ a ∈ (samples ++ _).take samples.length, P a
        rw [List.take_left]
        exact fresh
      · cases step
  | storeRet status n =>
      have held : s.fill.holding = true := by rw [pc]; rfl
      rw [pc] at fills
      simp only [pc, Option.some.injEq] at step
      subst step
      exact inv.change held rfl (inv.blocks s.fillWp) (by simp) (fun _ => inv.holding held) fills
  | testRet n =>
      have held : s.fill.holding = true := by rw [pc]; rfl
      have inRing := inv.fillWp (by rw [pc]; rfl)
      rw [pc] at fills
      simp only [pc, Option.some.injEq] at step
      subst step
      split
      · exact inv.leave (by simp [pc]) (by simp) inv.wp inRing rfl
      · exact inv.goto (by simp [pc]) (by simp) inv.wp inRing (fun _ => inv.holding held) fills
  | storeBytes n =>
      have held : s.fill.holding = true := by rw [pc]; rfl
      rw [pc] at fills
      have count : n * sampleBytes / sampleBytes = n := Nat.mul_div_cancel n (by decide)
      simp only [pc, Option.some.injEq] at step
      subst step
      refine inv.change held rfl ?_ (by simp) (by rintro ⟨⟩) trivial
      show ∀ a ∈ (s.mem.block s.fillWp).data.take (n * sampleBytes / sampleBytes), P a
      rw [count]
      exact fills
  | follow =>
      have inRing := inv.fillWp (by rw [pc]; rfl)
      simp only [pc, Option.some.injEq] at step
      subst step
      exact inv.leave (by simp [pc]) (by simp) inv.wp (inv.linked.chain.next_mem inRing) rfl
  | storeWp rval =>
      have inRing := inv.fillWp (by rw [pc]; rfl)
      simp only [pc, Option.some.injEq] at step
      subst step
      exact inv.leave (by simp [pc]) (by simp) inRing inRing rfl
  | exited rval => simp [pc] at step

theorem holds_call {copy : Memcpy α} {buf : Nat} {ring : List Nat} {s t : Channel α} {nSamp : Nat}
    (inv : s.Holds P buf ring) (step : channelStep copy s (.call nSamp) = some t) :
    t.Holds P buf ring := by
  simp only [channelStep] at step
  split at step
  · next idle =>
      have joined : s.fill = .absent := inv.alone.mpr (by rw [idle]; rfl)
      cases step
      exact inv.threads (by simp [joined, ReaderPc.alone]) (by rw [joined]; rfl)
        (by rw [joined]; rfl) rfl fun _ => List.forall_mem_nil _
  · cases step

theorem fillStep_reports {s t : Channel α} {status : IoStatus} {samples : List α}
    (step : fillStep s status samples = some t) : t.reports = s.reports := by
  unfold fillStep at step
  split at step
  all_goals first | cases step; rfl | (split at step <;> cases step; rfl) | cases step

/-- What a step of the reader reports: nothing, or what the call has copied. -/
theorem readerStep_reports {copy : Memcpy α} {s t : Channel α} (step : readerStep copy s = some t) :
    t.reports = s.reports ∨ ∃ ret samples, t.reports = s.reports ++ [(ret, samples)] ∧
      s.reader = .join ∧ samples ⊆ s.call.out := by
  cases readerMove_of_step step with
  | join pc =>
      have part (error : Bool) : (if error then [] else s.call.out) ⊆ s.call.out := by
        cases error <;> simp
      exact Or.inr ⟨_, _, rfl, pc, part _⟩
  | _ => exact Or.inl rfl

/-- What a step reports. -/
theorem holds_reports {copy : Memcpy α} {buf : Nat} {ring : List Nat} {s t : Channel α}
    {act : Act α} (inv : s.Holds P buf ring) (step : channelStep copy s act = some t) :
    ∀ report ∈ t.reports.drop s.reports.length, ∀ a ∈ report.2, P a := by
  have nothing (same : t.reports = s.reports) :
      ∀ report ∈ t.reports.drop s.reports.length, ∀ a ∈ report.2, P a := by
    rw [same, List.drop_length]
    exact List.forall_mem_nil _
  cases act with
  | call nSamp =>
      simp only [channelStep] at step
      split at step <;> cases step
      exact nothing rfl
  | fill status samples => exact nothing (fillStep_reports step)
  | reader =>
      rcases readerStep_reports step with same | ⟨ret, samples, reports, pc, copied⟩
      · exact nothing same
      · rw [reports, List.drop_left]
        intro report member a inReport
        obtain rfl := List.mem_singleton.mp member
        exact inv.out (by simp [pc]) a (copied inReport)

/-- **A step of a channel** to which the hardware delivers samples with the property. -/
theorem holds_step {copy : Memcpy α} {buf : Nat} {ring : List Nat} {s t : Channel α} {act : Act α}
    (inv : s.Holds P buf ring)
    (fresh : ∀ status samples, act = .fill status samples → ∀ a ∈ samples, P a)
    (step : channelStep copy s act = some t) : t.Holds P buf ring := by
  cases act with
  | call nSamp => exact holds_call inv step
  | reader => exact holds_reader inv step
  | fill status samples => exact holds_fill inv (fresh status samples rfl) step

/-- Between two calls only a call is possible. -/
theorem call_of_idle {copy : Memcpy α} {buf : Nat} {ring : List Nat} {s t : Channel α} {act : Act α}
    (inv : s.Holds P buf ring) (idle : s.reader = .idle) (step : channelStep copy s act = some t) :
    ∃ nSamp, act = .call nSamp := by
  have joined : s.fill = .absent := inv.alone.mpr (by rw [idle]; rfl)
  cases act with
  | call nSamp => exact ⟨nSamp, rfl⟩
  | reader => simp [channelStep, readerStep, idle] at step
  | fill status samples => simp [channelStep, fillStep, joined] at step

/-! ### Empty rings -/

/-- A ring without samples holds nothing that lacks the property. -/
theorem holds_of_empty {buf : Nat} {ring : List Nat} {s : Channel α}
    (linked : Linked s.mem buf ring) (empty : ∀ x, s.mem.bytes x = 0) (wp : s.wp ∈ ring)
    (idle : s.reader = .idle) (joined : s.fill = .absent) : s.Holds P buf ring where
  linked := linked
  blocks := fun x => blockHolds_of_empty (empty x)
  filled := fun x some => absurd (empty x) some
  wp := wp
  fillWp := by
    rw [joined]
    rintro ⟨⟩
  holding := fun _ => empty s.fillWp
  working := by
    rw [idle]
    rintro ⟨⟩
  reads := by
    rw [idle]
    trivial
  fills := by
    rw [joined]
    trivial
  out := fun running => absurd idle running
  alone := by simp [idle, joined, ReaderPc.alone]

/-- The loop clears the blocks that are still ahead of it and changes no other. -/
theorem blbEmptyLoop_eq {blb : Nat} {rest : List Nat} {fuel b : Nat} {m : Mem α}
    (chain : Chain m.next b rest blb) (some : rest ≠ []) (inner : ∀ x ∈ rest.tail, x ≠ blb)
    (nonnull : ∀ x ∈ rest, x ≠ 0) (short : rest.length ≤ fuel) :
    let done := blbEmptyLoop blb fuel m b
    done.brk = m.brk ∧ (∀ x, done.next x = m.next x) ∧ (∀ x ∈ rest, done.bytes x = 0) ∧
      ∀ x, x ∉ rest → done.bytes x = m.bytes x := by
  induction rest generalizing fuel b m with
  | nil => exact absurd rfl some
  | cons x rest ih =>
      obtain ⟨rfl, chain⟩ := chain
      obtain ⟨fuel, rfl⟩ : ∃ k, fuel = k + 1 := Nat.exists_eq_succ_of_ne_zero (by
        rintro rfl
        simp at short)
      have links : ∀ y, (m.modify b (setBytes 0)).next y = m.next y :=
        Mem.modify_field Block.next m b (setBytes 0) rfl
      have here : (m.modify b (setBytes 0)).bytes b = 0 := by simp [Mem.bytes, setBytes]
      have others (y : Nat) (other : y ≠ b) :
          (m.modify b (setBytes 0)).bytes y = m.bytes y := by
        rw [Mem.bytes, Mem.modify_block_of_ne m _ other, Mem.bytes]
      simp only [blbEmptyLoop, links]
      by_cases last : rest = []
      · subst last
        have back : m.next b = blb := chain
        rw [if_pos (Or.inr back)]
        refine ⟨rfl, links, ?_, ?_⟩
        · intro y member
          obtain rfl := List.mem_singleton.mp member
          exact here
        · intro y outside
          exact others y (by simpa using outside)
      · have ahead : m.next b ∈ rest := chain.start_mem last
        have goesOn : ¬ (m.next b = 0 ∨ m.next b = blb) := by
          rintro (null | back)
          · exact nonnull _ (List.mem_cons_of_mem _ ahead) null
          · exact inner _ ahead back
        rw [if_neg goesOn]
        obtain ⟨brk, next, cleared, kept⟩ := ih (chain.congr fun y _ => links y) last
          (fun y member => inner y (List.mem_of_mem_tail member))
          (fun y member => nonnull y (List.mem_cons_of_mem _ member))
          (Nat.le_of_succ_le_succ short)
        refine ⟨brk, fun y => (next y).trans (links y), ?_, ?_⟩
        · intro y member
          by_cases later : y ∈ rest
          · exact cleared y later
          · obtain rfl : y = b := by simpa [later] using member
            rw [kept y later, here]
        · intro y outside
          obtain ⟨other, later⟩ : y ≠ b ∧ y ∉ rest := by simpa using outside
          rw [kept y later, others y other]

/-- `blb_empty` clears the whole ring. -/
theorem blbEmpty_eq {buf : Nat} {ring : List Nat} {m : Mem α} (linked : Linked m buf ring) :
    Linked (blbEmpty m buf) buf ring ∧ (∀ x ∈ ring, (blbEmpty m buf).bytes x = 0) ∧
      ∀ x, x ∉ ring → (blbEmpty m buf).bytes x = m.bytes x := by
  obtain ⟨chain, some, nodup, inside⟩ := linked
  have inner : ∀ x ∈ ring.tail, x ≠ buf := by
    cases ring with
    | nil => exact List.forall_mem_nil _
    | cons y ring =>
        obtain ⟨rfl, -⟩ := chain
        intro x member same
        exact (List.nodup_cons.mp nodup).1 (same ▸ member)
  have short : ring.length ≤ m.brk := length_le_of_nodup nodup fun x member => (inside x member).2
  obtain ⟨brk, next, cleared, kept⟩ := blbEmptyLoop_eq chain some inner
    (fun x member => Nat.pos_iff_ne_zero.mp (inside x member).1) short
  refine ⟨⟨chain.congr fun x _ => next x, some, nodup, fun x member => ?_⟩, cleared, kept⟩
  exact ⟨(inside x member).1, brk ▸ (inside x member).2⟩

/-- After `blb_rw_empty` no block of the ring holds a sample. -/
theorem blbRwEmpty_empty {β : Type} {Q : Nat × β → Prop} {rw : BlbRw β} {ring : List Nat}
    (inv : rw.channel.Holds Q rw.buf ring) (x : Nat) : (blbRwEmpty rw).channel.mem.bytes x = 0 := by
  obtain ⟨-, cleared, kept⟩ := blbEmpty_eq inv.linked
  by_cases member : x ∈ ring
  · exact cleared x member
  · refine (kept x member).trans ?_
    by_contra some
    exact member (inv.filled x some)

end Holds

/-! ## Sessions deliver fresh samples -/

section Sessions

variable {ν β : Type} {copy : Memcpy (Nat × β)} {s t : Session ν β}

/-- **The invariant of a session.** The ring holds fresh samples only, and none as long as the
channel is not started. -/
structure Session.Fresh (s : Session ν β) : Prop where
  delivers : s.DeliversFresh
  buffer : ∀ rw, s.buffer = some rw →
    ∃ ring, rw.channel.Holds (fun sample => s.resets ≤ sample.1) rw.buf ring
  unstarted : s.chan.state = .noinit ∨ s.chan.state = .reset → ∀ rw, s.buffer = some rw →
    rw.channel.reader = .idle ∧ (∀ x, rw.channel.mem.bytes x = 0) ∧ rw.channel.rp = rw.channel.wp

/-- The states in which a reset goes on to the driver. -/
theorem not_unstarted {chan : RxChannel ν} (started : chan.state = .ready ∨ chan.state = .error) :
    ¬ (chan.state = .noinit ∨ chan.state = .reset) := by
  rcases started with ready | error
  · simp [ready]
  · simp [error]

theorem prepare_started {chan chan' : RxChannel ν} {answers : ReadAnswers}
    {events : List (Event ν)} (started : chan.prepare answers = (chan', events, true)) :
    chan'.state = .ready := by
  unfold RxChannel.prepare RxChannel.start at started
  cases state : chan.state with
  | error => simp [state] at started
  | ready =>
      simp only [state, Prod.mk.injEq] at started
      exact started.1 ▸ state
  | reset =>
      simp only [state] at started
      split at started <;> cases started
      rfl
  | noinit =>
      simp only [state] at started
      split at started
      · cases started
      · split at started <;> cases started
        rfl

theorem prepare_failed {chan chan' : RxChannel ν} {answers : ReadAnswers}
    {events : List (Event ν)} (failed : chan.prepare answers = (chan', events, false)) :
    chan' = chan := by
  unfold RxChannel.prepare RxChannel.start at failed
  cases state : chan.state with
  | error =>
      simp only [state, Prod.mk.injEq] at failed
      exact failed.1.symm
  | ready => simp [state] at failed
  | reset =>
      simp only [state] at failed
      split at failed <;> cases failed
      rfl
  | noinit =>
      simp only [state] at failed
      split at failed
      · cases failed
        rfl
      · split at failed <;> cases failed
        rfl

namespace Session.Fresh

/-- A read returns with fresh samples; it has started the channel or left it as it was. -/
theorem returned (inv : s.Fresh) {chan : RxChannel ν} {samples : List (Nat × β)}
    (state : chan = s.chan ∨ chan.state = .ready)
    (fresh : ∀ sample ∈ samples, s.resets ≤ sample.1) :
    ({ s with chan := chan }.returns samples).Fresh where
  delivers := by
    intro read member
    rcases List.mem_append.mp member with earlier | new
    · exact inv.delivers read earlier
    · obtain rfl := List.mem_singleton.mp new
      exact fresh
  buffer := inv.buffer
  unstarted := by
    rcases state with rfl | ready
    · exact inv.unstarted
    · exact fun unstarted => absurd unstarted (not_unstarted (Or.inl ready))

/-- `sdrrx_read` up to the buffered read. -/
theorem read (inv : s.Fresh) {bytes : Nat} {answers : ReadAnswers} {samples : List β}
    (step : s.read copy bytes answers samples = some t) : t.Fresh := by
  unfold Session.read at step
  split at step
  · next chan events failed =>
      cases step
      exact inv.returned (Or.inl (prepare_failed failed)) (List.forall_mem_nil _)
  · next chan events started =>
      have ready := prepare_started started
      split at step
      · split at step
        · cases step
          refine inv.returned (Or.inr ready) ?_
          split
          · exact List.forall_mem_nil _
          · intro sample member
            obtain ⟨x, -, rfl⟩ := List.mem_map.mp member
            exact Nat.le_refl _
        · cases step
      · obtain ⟨rw, buffer, called⟩ := Option.bind_eq_some_iff.mp step
        obtain ⟨c, begins, rfl⟩ := Option.map_eq_some_iff.mp called
        refine ⟨inv.delivers, ?_, ?_⟩
        · rintro _ ⟨⟩
          obtain ⟨ring, holds⟩ := inv.buffer rw buffer
          exact ⟨ring, holds_call holds begins⟩
        · exact fun unstarted => absurd unstarted (not_unstarted (Or.inl ready))
      · cases step
        exact inv.returned (Or.inr ready) (List.forall_mem_nil _)

/-- A step of a buffered read. -/
theorem advance (inv : s.Fresh) {act : Act (Nat × β)} (running : ∀ nSamp, act ≠ .call nSamp)
    (fresh : ∀ status samples, act = .fill status samples → ∀ a ∈ samples, s.resets ≤ a.1)
    (step : s.advance copy act = some t) : t.Fresh := by
  obtain ⟨rw, buffer, stepped⟩ := Option.bind_eq_some_iff.mp step
  obtain ⟨c, moved, rfl⟩ := Option.map_eq_some_iff.mp stepped
  obtain ⟨ring, holds⟩ := inv.buffer rw buffer
  refine ⟨?_, ?_, ?_⟩
  · intro read member
    rcases List.mem_append.mp member with earlier | new
    · exact inv.delivers read earlier
    · obtain ⟨report, reported, rfl⟩ := List.mem_map.mp new
      exact holds_reports holds moved report reported
  · rintro _ ⟨⟩
    exact ⟨ring, holds_step holds fresh moved⟩
  · intro unstarted
    obtain ⟨nSamp, call⟩ := call_of_idle holds (inv.unstarted unstarted rw buffer).1 moved
    exact absurd call (running nSamp)

/-- A reset that returns at once: there was nothing in the ring, and so nothing that is old now. -/
theorem reset_unstarted (inv : s.Fresh)
    (unstarted : s.chan.state = .noinit ∨ s.chan.state = .reset) :
    Session.Fresh { s with resets := s.resets + 1 } where
  delivers := inv.delivers
  buffer := by
    intro rw buffer
    obtain ⟨ring, holds⟩ := inv.buffer rw buffer
    obtain ⟨idle, empty, -⟩ := inv.unstarted unstarted rw buffer
    exact ⟨ring, holds_of_empty holds.linked empty holds.wp idle
      (holds.alone.mpr (by rw [idle]; rfl))⟩
  unstarted := inv.unstarted

/-- A reset that empties the ring. -/
theorem reset_started (inv : s.Fresh) (idle : s.Idle) (chan : RxChannel ν) :
    Session.Fresh
      { s with chan := chan, buffer := s.buffer.map blbRwEmpty, resets := s.resets + 1 } where
  delivers := inv.delivers
  buffer := by
    intro rw' buffer'
    obtain ⟨rw, buffer, rfl⟩ := Option.map_eq_some_iff.mp buffer'
    obtain ⟨ring, holds⟩ := inv.buffer rw buffer
    have linked := (blbEmpty_eq holds.linked).1
    exact ⟨ring, holds_of_empty linked (blbRwEmpty_empty holds)
      (linked.chain.start_mem linked.some) (idle rw buffer)
      (holds.alone.mpr (by rw [idle rw buffer]; rfl))⟩
  unstarted := by
    intro _ rw' buffer'
    obtain ⟨rw, buffer, rfl⟩ := Option.map_eq_some_iff.mp buffer'
    obtain ⟨ring, holds⟩ := inv.buffer rw buffer
    exact ⟨idle rw buffer, blbRwEmpty_empty holds, rfl⟩

/-- A reset that fails leaves the ring and puts the channel in error. -/
theorem reset_failed (inv : s.Fresh) {chan : RxChannel ν} (error : chan.state = .error) :
    Session.Fresh { s with chan := chan } where
  delivers := inv.delivers
  buffer := inv.buffer
  unstarted := fun unstarted => absurd unstarted (not_unstarted (Or.inr error))

/-- `sdrrx_reset`, between two reads. -/
theorem reset (inv : s.Fresh) (idle : s.Idle) (answer : IoStatus) : (s.reset answer).Fresh := by
  have returns (unstarted : s.chan.state = .noinit ∨ s.chan.state = .reset)
      (same : s.reset answer = { s with resets := s.resets + 1 }) : (s.reset answer).Fresh := by
    rw [same]
    exact inv.reset_unstarted unstarted
  have stops (stopped : s.reset answer =
      if answer.isError then { s with chan := s.chan.channelReset answer }
      else
        { s with
          chan := s.chan.channelReset answer
          buffer := s.buffer.map blbRwEmpty
          resets := s.resets + 1 }) : (s.reset answer).Fresh := by
    rw [stopped]
    split
    · next failed => exact inv.reset_failed (by simp [RxChannel.channelReset, failed])
    · exact inv.reset_started idle _
  cases state : s.chan.state with
  | noinit =>
      apply returns (Or.inl state)
      simp [Session.reset, Session.resetBuffer, RxChannel.sdrrxReset, state]
  | reset =>
      apply returns (Or.inr state)
      simp [Session.reset, Session.resetBuffer, RxChannel.sdrrxReset, state]
  | ready =>
      apply stops
      cases failed : answer.isError <;>
        simp [Session.reset, Session.resetBuffer, RxChannel.sdrrxReset, state, failed]
  | error =>
      apply stops
      cases failed : answer.isError <;>
        simp [Session.reset, Session.resetBuffer, RxChannel.sdrrxReset, state, failed]

/-- A channel gets a new ring. -/
theorem enabled (inv : s.Fresh) {nBlocks : Nat} (bytesPerBlock freeram : Nat) (some : 0 < nBlocks) :
    Session.Fresh
      { s with
        chan := { s.chan with mode := .buffered }
        buffer := Option.some (newBlbRw bytesPerBlock nBlocks freeram) } where
  delivers := inv.delivers
  buffer := by
    rintro _ ⟨⟩
    obtain ⟨size, ring, nonempty, layout⟩ :=
      newRing_layout_any (α := Nat × β) bytesPerBlock freeram some
    exact ⟨ring, holds_of_empty ⟨layout.toRp, nonempty, layout.nodup, layout.inside⟩
      (newRing_bytes bytesPerBlock nBlocks freeram) (layout.toRp.start_mem nonempty) rfl rfl⟩
  unstarted := by
    rintro _ _ ⟨⟩
    exact ⟨rfl, newRing_bytes bytesPerBlock nBlocks freeram, rfl⟩

theorem disabled (inv : s.Fresh) :
    Session.Fresh { s with chan := { s.chan with mode := .unbuffered }, buffer := none } where
  delivers := inv.delivers
  buffer := by rintro _ ⟨⟩
  unstarted := by rintro _ _ ⟨⟩

end Session.Fresh

/-- **A step of a session.** -/
theorem fresh_step {act : SessionAct β} (inv : s.Fresh) (step : s.step copy act = some t) :
    t.Fresh := by
  cases act with
  | read bytes answers samples =>
      simp only [Session.step] at step
      split at step
      · exact inv.read step
      · cases step
  | reader => exact inv.advance (by simp) (by simp) step
  | fill status samples =>
      refine inv.advance (by simp) ?_ step
      rintro _ _ ⟨⟩ sample member
      obtain ⟨x, -, rfl⟩ := List.mem_map.mp member
      exact Nat.le_refl _
  | reset answer =>
      simp only [Session.step] at step
      split at step
      · next idle =>
          cases step
          exact inv.reset idle answer
      · cases step
  | enableBuffering bytesPerBlock nBlocks freeram =>
      simp only [Session.step] at step
      split at step
      · next can =>
          cases step
          exact inv.enabled bytesPerBlock freeram can.2
      · cases step
  | disableBuffering =>
      simp only [Session.step] at step
      split at step
      · cases step
        exact inv.disabled
      · cases step

theorem fresh_reach (reached : (sessionSystem ν copy).Reach s) : s.Fresh := by
  refine reached.invariant (I := Session.Fresh) ?_ ?_
  · rintro s ⟨freq, rate, bandwidth, ppm, rfl⟩
    exact ⟨List.forall_mem_nil _, by rintro _ ⟨⟩, by rintro _ _ ⟨⟩⟩
  · intro s act t inv _ step
    exact fresh_step inv step

/-- **A reset discards what is buffered.** Along every session, whatever the order of the reads, the
resets and the changes of the buffering, the steps of the threads, the sizes of the rings, the
answers of the driver and the `memcpy` of the C library: every sample that a read delivers was
delivered by a call of `hw_read` after the last reset that returned zero, and in the states
`SDR_CHAN_NOINIT` and `SDR_CHAN_RESET` all blocks of the ring are empty and the two positions are
the same. -/
theorem reset_discards_buffered (copy : Memcpy (Nat × β)) (s : Session ν β)
    (reached : (sessionSystem ν copy).Reach s) : s.DeliversFresh ∧ s.EmptyUnstarted := by
  have inv := fresh_reach reached
  refine ⟨inv.delivers, fun unstarted rw buffer => ?_⟩
  obtain ⟨-, empty, same⟩ := inv.unstarted unstarted rw buffer
  exact ⟨fun k => empty _, same⟩

/-- The read of one sample, with a hardware that fills the one block of the ring with two. -/
def sampleRead (x y : Bool) : List (SessionAct Bool) :=
  let answers : ReadAnswers :=
    { channelSet := .success
      channelStart := .success
      hwRead := (.success, 0)
      fill := []
      buffered := (.success, 0) }
  let fill : SessionAct Bool := .fill .success [x, y]
  [.read sampleBytes answers []] ++ List.replicate 4 .reader ++ List.replicate 8 fill ++
    List.replicate 11 .reader ++ List.replicate 2 fill ++ [.reader]

/-- A read leaves a sample in the ring. The read after the reset does not deliver it. -/
theorem reset_discards_sample :
    ∃ s, (sessionSystem Bool (.backward : Memcpy (Nat × Bool))).Reach s ∧
      s.reads = [(0, [(0, true)]), (1, [(1, false)])] ∧ s.DeliversFresh ∧ s.EmptyUnstarted := by
  let new : Session Bool Bool := { chan := newChannel true true true true .unbuffered }
  let calls : List (SessionAct Bool) :=
    [SessionAct.enableBuffering 16 1 17] ++ sampleRead true true ++ [SessionAct.reset .success] ++
      sampleRead false false
  have ends : ((sessionSystem Bool .backward).exec new calls).map (·.reads) =
      some [(0, [(0, true)]), (1, [(1, false)])] := by
    decide +kernel
  obtain ⟨s, run, reads⟩ := Option.map_eq_some_iff.mp ends
  have reached : (sessionSystem Bool .backward).Reach s :=
    .exec (.start ⟨true, true, true, true, rfl⟩) run
  exact ⟨s, reached, reads, reset_discards_buffered .backward s reached⟩

end Sessions

end Bingewatch.Sdr
