import Mathlib.Algebra.Ring.Nat
import Bingewatch.Buffer.FixedBlockOrder

/-!
# The fixed block buffer is a message queue

When the calls on a fixed block buffer do not overlap, each of them runs to its end on the state the
last one has left. `bufWrite` and `bufRead` are these whole calls. Every write is a message; a read
takes the oldest message out, returns it if the request is large enough for it and drops it
otherwise.

`fixed_block_message_queue` compares the buffer with the queue over every sequence of calls and says
that `ring->bytes` is the length of the pending messages.
-/

set_option autoImplicit false

namespace Bingewatch.Buffer.FixedBlock

open Foundation

/-! ## Whole calls -/

/-- `struct fbbiom_args`, without the flags. -/
structure FbbArgs where
  bufBytes : Nat
  blockBytes : Nat
  align : Nat
  deriving DecidableEq, Repr

/-- `DEFAULT_BUF_BYTES`. -/
def defaultBufBytes : Nat := 100 * (1024 * 1024)

/-- `DEFAULT_BLK_BYTES`. -/
def defaultBlkBytes : Nat := 1024 * 1024

/-- `DEFAULT_ALIGN`. -/
def defaultAlign : Nat := 4

/-- `sanitize_args`: defaults for zeros and for an alignment that is no power of two below `2^16`,
and a block size rounded up to the alignment. -/
def sanitizeArgs (args : FbbArgs) : FbbArgs :=
  let bufBytes := if args.bufBytes = 0 then defaultBufBytes else args.bufBytes
  let blockBytes := if args.blockBytes = 0 then defaultBlkBytes else args.blockBytes
  let align := if args.align = 0 then defaultAlign else args.align
  let align := if (List.range 16).any fun i => 1 <<< i = align then align else defaultAlign
  let adjust := (align - (blockBytes &&& (align - 1))) &&& (align - 1)
  { bufBytes := bufBytes, blockBytes := blockBytes + adjust, align := align }

/-- `create_buffer` with its arguments sanitized. -/
def newBuffer (args : FbbArgs) (freeram : Nat) : Buf :=
  createBuffer (sanitizeArgs args).bufBytes (sanitizeArgs args).blockBytes freeram

/-- A whole call of `buf_write`. -/
def bufWrite (s : Buf) (data : List UInt8) (freeram : Nat) : Buf :=
  if data.length > s.mem.size s.wp then s
  else commitWrite { s with mem := s.mem.modify s.wp (storeData data) } data s.wp freeram

/-- A whole call of `buf_read`, with the bytes it returns. -/
def bufRead (s : Buf) (request : Nat) : Buf × List UInt8 :=
  let b := s.rp
  if s.mem.bytes b = 0 then (s, [])
  else
    let bytes := s.mem.bytes b
    let out := if request ≥ bytes then (s.mem.data b).take bytes else []
    let m := s.mem.modify b (setBytes 0)
    ({ s with mem := m, bytes := s.bytes - UInt64.ofNat bytes, rp := m.next b }, out)

/-- The whole calls are the threads' steps, run to the end one after the other. -/
theorem bufWrite_steps {s : Buf} {data : List UInt8} {freeram : Nat} (idle : s.writer = .idle)
    (fits : data.length ≤ s.mem.size s.wp) :
    fixedBlockSystem.exec s
      [.write data, .writer freeram, .writer freeram, .writer freeram, .writer freeram] =
        some (bufWrite s data freeram) := by
  have short : ¬ data.length > s.mem.size s.wp := by omega
  simp [System.exec, fixedBlockSystem, bufStep, idle, writerStep, bufWrite, short, commitWrite]

theorem bufRead_steps {s : Buf} {request : Nat} (idle : s.reader = .idle)
    (filled : s.mem.bytes s.rp ≠ 0) :
    fixedBlockSystem.exec s
      [.read request, .reader, .reader, .reader, .reader, .reader, .reader, .reader] =
        some (Buf.finish (bufRead s request).1 (bufRead s request).2) := by
  simp [System.exec, fixedBlockSystem, bufStep, idle, readerStep, bufRead, filled, Buf.finish]

/-- A call: a write with the free memory it meets, or a read. -/
inductive Call where
  | write (data : List UInt8) (freeram : Nat)
  | read (request : Nat)
  deriving DecidableEq, Repr

/-- What a call returns. -/
inductive Answer where
  | wrote
  | got (out : List UInt8)
  deriving DecidableEq, Repr

/-- What a call does to the buffer. -/
def Buf.call (s : Buf) : Call → Option (Buf × Answer)
  | .write data freeram => some (bufWrite s data freeram, .wrote)
  | .read request => some ((bufRead s request).1, .got (bufRead s request).2)

/-- What a call does to the pending messages of a queue, oldest first. -/
def queueCall (pending : List (List UInt8)) : Call → Option (List (List UInt8) × Answer)
  | .write data _ => some (pending ++ [data], .wrote)
  | .read request =>
      match pending with
      | [] => some ([], .got [])
      | message :: rest =>
          some (rest, .got (if message.length ≤ request then message else []))

/-- Messages of one byte up to a block, and memory for a block. -/
def Call.InRange (blockSize : Nat) : Call → Prop
  | .write data freeram => 1 ≤ data.length ∧ data.length ≤ blockSize ∧ blockSize < freeram
  | .read _ => True

instance Call.decidableInRange (blockSize : Nat) : (c : Call) → Decidable (c.InRange blockSize)
  | .write data freeram =>
      inferInstanceAs
        (Decidable (1 ≤ data.length ∧ data.length ≤ blockSize ∧ blockSize < freeram))
  | .read _ => inferInstanceAs (Decidable True)

/-! ## The messages in the blocks -/

/-- The buffer between two calls, with the pending messages as the only ones ever written. -/
def Buf.between (s : Buf) (pending : List (List UInt8)) : Buf :=
  { s with writer := .idle, reader := .idle, written := pending, returned := [] }

/-- The total length of messages. -/
def totalLength (pending : List (List UInt8)) : Nat := (pending.map List.length).sum

/-- The full blocks hold the pending messages in order, and `ring->bytes` is their length. -/
structure Buf.Holds (s : Buf) (pending : List (List UInt8)) : Prop where
  blocks : ∃ full free, (s.between pending).Inv full free
  count : s.bytes = UInt64.ofNat (totalLength pending)

theorem Buf.Holds.write {s : Buf} {pending : List (List UInt8)} {data : List UInt8} {freeram : Nat}
    (holds : s.Holds pending) (range : 1 ≤ data.length ∧ data.length ≤ s.blockSize)
    (fits : s.blockSize < freeram) :
    (bufWrite s data freeram).Holds (pending ++ [data]) ∧
      (bufWrite s data freeram).blockSize = s.blockSize := by
  obtain ⟨full, free, inv⟩ := holds.blocks
  have room : ¬ data.length > s.mem.size s.wp := by
    obtain ⟨rest, rfl⟩ := inv.free_eq
    have size : s.mem.size s.wp = s.blockSize := inv.layout.sizes s.wp (by simp [Buf.between])
    omega
  obtain ⟨free', committed⟩ := (inv.copied range).committed rfl rfl fits
  rw [bufWrite, if_neg room]
  refine ⟨⟨⟨_, free', committed⟩, ?_⟩, rfl⟩
  simp [commitWrite, holds.count, totalLength]

theorem Buf.Holds.read_empty {s : Buf} (holds : s.Holds []) (request : Nat) :
    bufRead s request = (s, []) := by
  obtain ⟨full, free, inv⟩ := holds.blocks
  have none : full = [] := by
    have flow := inv.flow
    simpa [Buf.between, Buf.nonemptyReads, ReaderPc.pending] using flow.symm
  subst none
  obtain ⟨rest, rfl⟩ := inv.free_eq
  have here : s.rp = s.wp := inv.layout.rp_eq_wp
  have empty : s.mem.bytes s.rp = 0 := by
    rw [here]
    exact inv.layout.empty s.wp (by simp [Buf.between])
  simp [bufRead, empty]

/-- A read takes the oldest message out of the ring, whether or not the request is large enough. -/
theorem Buf.Holds.read_message {s : Buf} {message : List UInt8} {pending : List (List UInt8)}
    (holds : s.Holds (message :: pending)) (request : Nat) :
    (bufRead s request).1.Holds pending ∧ (bufRead s request).1.blockSize = s.blockSize ∧
      (bufRead s request).2 = if message.length ≤ request then message else [] := by
  obtain ⟨full, free, inv⟩ := holds.blocks
  have flow : message :: pending = full.map (content s.mem) := by
    simpa [Buf.between, Buf.nonemptyReads, ReaderPc.pending] using inv.flow
  obtain ⟨b, rest, rfl, first, others⟩ : ∃ b rest, full = b :: rest ∧
      message = content s.mem b ∧ pending = rest.map (content s.mem) := by
    cases full with
    | nil => simp at flow
    | cons b rest => exact ⟨b, rest, rfl, by simpa using flow⟩
  have start : s.rp = b := inv.layout.rp_eq
  have filled : s.mem.bytes b ≠ 0 := Nat.pos_iff_ne_zero.mp (inv.layout.filled b (by simp))
  have stored : s.mem.bytes b ≤ (s.mem.data b).length := (inv.stored b (by simp)).1
  have length : message.length = s.mem.bytes b := by
    rw [first, content, List.length_take]
    omega
  have reading : Buf.Inv { s.between (message :: pending) with reader := .clear b message }
      (b :: rest) free :=
    ⟨inv.layout, inv.spare, inv.sized, inv.stored, inv.writerOk, ⟨rfl, first⟩, inv.flow⟩
  obtain ⟨rest', same, cleared⟩ := reading.cleared (s.bytes - UInt64.ofNat (s.mem.bytes b)) rfl
  obtain rfl : rest = rest' := (List.cons.inj same).2
  have taken : bufRead s request =
      ({ s with
          mem := s.mem.modify b (setBytes 0)
          bytes := s.bytes - UInt64.ofNat (s.mem.bytes b)
          rp := (s.mem.modify b (setBytes 0)).next b },
        if request ≥ s.mem.bytes b then (s.mem.data b).take (s.mem.bytes b) else []) := by
    simp only [bufRead, start, if_neg filled]
  rw [taken]
  refine ⟨⟨⟨rest, free ++ [b], cleared.layout, cleared.spare, cleared.sized, cleared.stored,
    trivial, trivial, ?_⟩, ?_⟩, rfl, ?_⟩
  · have left : message :: pending = message :: rest.map (content (s.mem.modify b (setBytes 0))) :=
      cleared.flow
    exact (List.cons.inj left).2
  · have count : totalLength (message :: pending) = s.mem.bytes b + totalLength pending := by
      simp [totalLength, length]
    simp only [holds.count, count, UInt64.ofNat_add]
    rw [UInt64.add_comm, UInt64.add_sub_cancel]
  · rw [length, first]
    rfl

/-- **One call.** -/
theorem Buf.Holds.call {s : Buf} {pending : List (List UInt8)} {c : Call} (holds : s.Holds pending)
    (range : c.InRange s.blockSize) :
    ∃ t pending' answer, s.call c = some (t, answer) ∧
      queueCall pending c = some (pending', answer) ∧
      t.Holds pending' ∧ t.blockSize = s.blockSize := by
  cases c with
  | write data freeram =>
      obtain ⟨wrote, size⟩ := holds.write ⟨range.1, range.2.1⟩ range.2.2
      exact ⟨_, _, _, rfl, rfl, wrote, size⟩
  | read request =>
      cases pending with
      | nil =>
          have nothing := holds.read_empty request
          refine ⟨s, [], .got [], ?_, rfl, holds, rfl⟩
          simp only [Buf.call, nothing]
      | cons message pending =>
          obtain ⟨left, size, out⟩ := holds.read_message request
          refine ⟨_, pending, .got (if message.length ≤ request then message else []), ?_, rfl,
            left, size⟩
          simp only [Buf.call, out]

/-- **A whole run.** -/
theorem Buf.Holds.run {s : Buf} {pending : List (List UInt8)} (holds : s.Holds pending)
    (calls : List Call) (range : ∀ c ∈ calls, c.InRange s.blockSize) :
    ∃ t pending' log, runCalls Buf.call s calls = some (t, log) ∧
      runCalls queueCall pending calls = some (pending', log) ∧ t.Holds pending' := by
  induction calls generalizing s pending with
  | nil => exact ⟨s, pending, [], rfl, rfl, holds⟩
  | cons c calls ih =>
      obtain ⟨t, next, answer, called, queued, holds', size⟩ := holds.call (range c (by simp))
      obtain ⟨u, last, log, run, queue, ends⟩ := ih holds' fun c member =>
        size ▸ range c (by simp [member])
      refine ⟨u, last, (c, answer) :: log, ?_, ?_, ends⟩
      · simp [runCalls, called, run]
      · simp [runCalls, queued, queue]

theorem sanitizeArgs_positive (args : FbbArgs) :
    1 ≤ (sanitizeArgs args).bufBytes ∧ 1 ≤ (sanitizeArgs args).blockBytes := by
  have defaults : 1 ≤ defaultBufBytes ∧ 1 ≤ defaultBlkBytes := by decide
  simp only [sanitizeArgs]
  constructor
  · split <;> omega
  · split <;> omega

theorem holds_new {args : FbbArgs} {freeram : Nat}
    (fits : (sanitizeArgs args).blockBytes < freeram) :
    (newBuffer args freeram).Holds [] ∧
      (newBuffer args freeram).blockSize = (sanitizeArgs args).blockBytes := by
  obtain ⟨buffer, block⟩ := sanitizeArgs_positive args
  obtain ⟨full, free, inv⟩ := inv_start (s := newBuffer args freeram)
    ⟨_, _, freeram, buffer, block, fits, rfl⟩
  exact ⟨⟨⟨full, free, inv⟩, rfl⟩, rfl⟩

/-- **The fixed block buffer is a message queue.** For every buffer and block size and every
sequence of writes of one byte up to a block and reads of any size, with memory for a block at
every allocation, the buffer answers every call as the queue of messages does, and `ring->bytes` is
the total length of the pending messages. -/
theorem fixed_block_message_queue (args : FbbArgs) (freeram : Nat) (calls : List Call)
    (fits : (sanitizeArgs args).blockBytes < freeram)
    (range : ∀ c ∈ calls, c.InRange (sanitizeArgs args).blockBytes) :
    ∃ s pending log, runCalls Buf.call (newBuffer args freeram) calls = some (s, log) ∧
      runCalls queueCall [] calls = some (pending, log) ∧
      s.bytes = UInt64.ofNat (totalLength pending) := by
  obtain ⟨holds, size⟩ := holds_new fits
  obtain ⟨s, pending, log, run, queue, ends⟩ := holds.run calls (by rwa [size])
  exact ⟨s, pending, log, run, queue, ends.count⟩

/-- A buffer of one block that grows, and a read whose request is too small for its message. -/
theorem fixed_block_message_queue_grown :
    ∃ s, runCalls Buf.call (newBuffer ⟨2, 10, 0⟩ 100)
        [.write [1, 2] 100, .write [3] 100, .read 1, .read 20] =
          some (s, [(.write [1, 2] 100, .wrote), (.write [3] 100, .wrote), (.read 1, .got []),
            (.read 20, .got [3])]) ∧ s.bytes = 0 := by
  obtain ⟨s, pending, log, run, queue, count⟩ :=
    fixed_block_message_queue ⟨2, 10, 0⟩ 100
      [.write [1, 2] 100, .write [3] 100, .read 1, .read 20] (by decide) (by decide)
  cases queue
  exact ⟨s, run, count⟩

end Bingewatch.Buffer.FixedBlock
