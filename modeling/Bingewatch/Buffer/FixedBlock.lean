import Bingewatch.Foundation.Transition
import Bingewatch.Buffer.BlockRing

/-!
# The fixed block buffer

A fixed block buffer (`src/buf/fixed-block-buf.c`) is a ring of blocks in which every write fills
one block and every read empties one. A writer holds `wlock` during `buf_write` and a reader holds
`rlock` during `buf_read`; what they share beside the blocks is guarded by the lock of the
descriptor, but the reader follows the link of the block it has emptied outside that lock.

The model has one writer and one reader and takes one step for each section under the descriptor's
lock and for each other access to a shared field. Calls come from `machine_desc_read` and
`machine_desc_write`, which ask for an alignment of one byte.
-/

set_option autoImplicit false

namespace Bingewatch.Buffer.FixedBlock

open Foundation

/-! ## The state -/

/-- Where the writer stands in `buf_write`; `b` is the block at the write position. -/
inductive WriterPc where
  | idle
  | loadWp (data : List UInt8)
  | testSize (data : List UInt8) (b : Nat)
  | copy (data : List UInt8) (b : Nat)
  | commit (data : List UInt8) (b : Nat)
  deriving DecidableEq, Repr

/-- Where the reader stands in `buf_read`; `b` is the block at the read position and `out` is what
the caller gets. -/
inductive ReaderPc where
  | idle
  | loadRp (request : Nat)
  | testBytes (request b : Nat)
  | loadBytes (request b : Nat)
  | copy (request b n : Nat)
  | clear (b : Nat) (out : List UInt8)
  | follow (b : Nat) (out : List UInt8)
  | storeRp (next : Nat) (out : List UInt8)
  deriving DecidableEq, Repr

/-- `struct ring_t`, its two threads, the writes taken so far and the results of the reads. -/
structure Buf where
  mem : Mem UInt8
  rp : Nat
  wp : Nat
  blockSize : Nat
  bytes : UInt64 := 0
  writer : WriterPc := .idle
  reader : ReaderPc := .idle
  written : List (List UInt8) := []
  returned : List (List UInt8) := []

/-- The results of the reads that returned data. -/
def Buf.nonemptyReads (s : Buf) : List (List UInt8) := s.returned.filter fun out => !out.isEmpty

/-- `create_buffer`, for sizes that `sanitize_args` accepts. -/
def createBuffer (bufBytes blockSize freeram : Nat) : Buf :=
  let blockCount := bufBytes / blockSize
  let blockCount := if blockCount * blockSize < bufBytes then blockCount + 1 else blockCount
  let (m, blocks) := newRing blockSize blockCount freeram
  { mem := m, rp := blocks, wp := blocks, blockSize := blockSize }

/-! ## The steps -/

/-- The part of the locked section of `buf_write` that expands the ring behind `b`. -/
def expand (m : Mem UInt8) (blockSize b next len freeram : Nat) : Mem UInt8 :=
  let (m, add) := blockListAlloc m (len / blockSize + 1)
  let (m, _) := blockDataFastalloc m add blockSize freeram
  let m := m.modify b fun block => { block with next := add }
  m.modify (listTail m m.brk add) fun block => { block with next := next }

/-- The locked section of `buf_write`. -/
def commitWrite (s : Buf) (data : List UInt8) (b freeram : Nat) : Buf :=
  let m := s.mem.modify b (setBytes data.length)
  let next := m.next b
  let m := if m.bytes next ≠ 0 then expand m s.blockSize b next data.length freeram else m
  { s with
    mem := m
    bytes := s.bytes + UInt64.ofNat data.length
    wp := m.next b
    writer := .idle
    written := s.written ++ [data] }

/-- A step of `buf_write`, with the free memory that an allocation finds. An input longer than a
block is dropped with a warning. -/
def writerStep (s : Buf) (freeram : Nat) : Option Buf :=
  match s.writer with
  | .idle => none
  | .loadWp data => some { s with writer := .testSize data s.wp }
  | .testSize data b =>
      some { s with writer := if data.length > s.mem.size b then .idle else .copy data b }
  | .copy data b =>
      some { s with mem := s.mem.modify b (storeData data), writer := .commit data b }
  | .commit data b => some (commitWrite s data b freeram)

/-- The call returns with the bytes `out`. -/
def Buf.finish (s : Buf) (out : List UInt8) : Buf :=
  { s with reader := .idle, returned := s.returned ++ [out] }

/-- A step of `buf_read`. With an alignment of one byte no byte is held back; a block that does not
fit the request is dropped with a warning. -/
def readerStep (s : Buf) : Option Buf :=
  match s.reader with
  | .idle => none
  | .loadRp request => some { s with reader := .testBytes request s.rp }
  | .testBytes request b =>
      some (if s.mem.bytes b = 0 then s.finish [] else { s with reader := .loadBytes request b })
  | .loadBytes request b => some { s with reader := .copy request b (s.mem.bytes b) }
  | .copy request b n =>
      some { s with reader := .clear b (if request ≥ n then (s.mem.data b).take n else []) }
  | .clear b out =>
      some
        { s with
          mem := s.mem.modify b (setBytes 0)
          bytes := s.bytes - UInt64.ofNat (s.mem.bytes b)
          reader := .follow b out }
  | .follow b out => some { s with reader := .storeRp (s.mem.next b) out }
  | .storeRp next out => some (Buf.finish { s with rp := next } out)

/-- A new call, or a step of a thread. -/
inductive Act where
  | write (data : List UInt8)
  | read (request : Nat)
  | writer (freeram : Nat)
  | reader
  deriving DecidableEq, Repr

/-- A step of the buffer. Each thread begins a call when its last one has returned. -/
def bufStep (s : Buf) : Act → Option Buf
  | .write data => if s.writer = .idle then some { s with writer := .loadWp data } else none
  | .read request => if s.reader = .idle then some { s with reader := .loadRp request } else none
  | .writer freeram => writerStep s freeram
  | .reader => readerStep s

/-- A buffer of at least one byte, in blocks of at least one byte, and memory for a block. -/
def fixedBlockSystem : System Buf Act where
  start := fun s => ∃ bufBytes blockSize freeram, 1 ≤ bufBytes ∧ 1 ≤ blockSize ∧
    blockSize < freeram ∧ s = createBuffer bufBytes blockSize freeram
  step := bufStep

end Bingewatch.Buffer.FixedBlock
