import Mathlib.Algebra.Ring.Nat
import Bingewatch.Foundation.Transition
import Bingewatch.Buffer.RingBuf

/-!
# A writer and a reader on one ring

`buf_write` holds `wlock` and `buf_read` holds `rlock`, so a ring buffer has at most one writer and
one reader at work, but these two run side by side. They share the blocks and the ring's counters;
the descriptor's lock covers short sections only, and `get_next_block` drops it between the look at
the next block and the linking of new ones.

The model takes one step for each section under the descriptor's lock, each copy and each other
access to a shared field, in program order. The data of new blocks is allocated in one step: nobody
else knows them yet. Calls come from `machine_desc_read` and `machine_desc_write`, which do not
block and ask for an alignment of one byte.
-/

set_option autoImplicit false

namespace Bingewatch.Buffer.Threads

open Foundation Machine

/-! ## The state -/

/-- Where the writer stands in `buf_write` and `get_next_block`. -/
inductive WriterPc where
  | idle
  | testState
  | init
  | setReady
  | testLow
  | lowHit
  | clearLow
  | loadWp
  | size
  | copy (n : Nat)
  | setBytes (n : Nat)
  | loadNext
  | testNext (next : Nat)
  | realloc (next : Nat)
  | alloc (next nBlocks : Nat)
  | link (next head tail added : Nat)
  | addBytes
  | testHigh
  | storeWp
  deriving DecidableEq, Repr

/-- Where the reader stands in `buf_read`. -/
inductive ReaderPc where
  | idle
  | loadRp
  | loadFlush
  | testMin
  | loop
  | copy (n : Nat) (partialRead : Bool)
  | move (n : Nat)
  | take (n : Nat) (partialRead : Bool)
  | subBytes
  | storeRp
  deriving DecidableEq, Repr

/-- The local variables of a write; `data` are the bytes that remain. -/
structure WriteCall where
  b : Nat := 0
  data : List UInt8 := []
  written : Nat := 0

/-- The local variables of a read; `out` are the bytes copied so far. -/
structure ReadCall where
  b : Nat := 0
  remaining : Nat := 0
  out : List UInt8 := []
  flush : Bool := false

/-- A ring with its two threads, the bytes of the writes it took, and the results of its reads. -/
structure Shared where
  ring : Ring
  writer : WriterPc := .idle
  put : WriteCall := {}
  reader : ReaderPc := .idle
  get : ReadCall := {}
  written : List UInt8 := []
  reports : List (IoStatus × List UInt8) := []

/-- The bytes returned by the reads so far. -/
def Shared.delivered (s : Shared) : List UInt8 := s.reports.flatMap Prod.snd

/-- The lock `rlock` is free: no read is between its first and its last step. -/
def ReaderPc.outside : ReaderPc → Bool
  | .idle => true
  | .loadRp => true
  | _ => false

/-! ## The steps -/

/-- Addition of `size_t` values. -/
def sizeAdd (a b : Nat) : Nat := (a + b) % 2 ^ 64

/-- Subtraction of `size_t` values. -/
def sizeSub (a b : Nat) : Nat := (a + (2 ^ 64 - b % 2 ^ 64)) % 2 ^ 64

/-- A step of `buf_write`. `rb_data_init` takes `rlock` too, so it waits for the reader. The result
of `get_next_block` is ignored: without memory the loop goes on with the same block. -/
def writerStep (host : Host) (s : Shared) : Option Shared :=
  let r := s.ring
  let c := s.put
  match s.writer with
  | .idle => none
  | .testState => some { s with writer := if r.state = .noinit then .init else .testLow }
  | .init =>
      if s.reader.outside then
        let (r, status) := rbDataInit host r c.data.length
        some { s with ring := r, writer := if status.isError then .idle else .setReady }
      else none
  | .setReady => some { s with ring := { r with state := .ready }, writer := .testLow }
  | .testLow => some { s with writer := if r.lowWaterMark ≠ 0 then .lowHit else .loadWp }
  | .lowHit => some { s with writer := if r.bytes < r.lowWaterMark then .clearLow else .idle }
  | .clearLow => some { s with ring := { r with lowWaterMark := 0 }, writer := .idle }
  | .loadWp =>
      some { s with put := { c with b := r.wp }, writer := .size, written := s.written ++ c.data }
  | .size =>
      if c.data = [] then some { s with writer := .addBytes }
      else
        let n := if c.data.length < r.mem.size c.b then c.data.length else r.mem.size c.b
        some { s with writer := .copy n }
  | .copy n =>
      some
        { s with
          ring := { r with mem := r.mem.modify c.b (storeData (c.data.take n)) }
          put := { c with data := c.data.drop n, written := c.written + n }
          writer := .setBytes n }
  | .setBytes n =>
      some { s with ring := { r with mem := r.mem.modify c.b (setBytes n) }, writer := .loadNext }
  | .loadNext => some { s with writer := .testNext (r.mem.next c.b) }
  | .testNext next =>
      if r.mem.bytes next = 0 then some { s with put := { c with b := next }, writer := .size }
      else some { s with writer := .realloc next }
  | .realloc next =>
      some { s with ring := r.doubleRealloc, writer := .alloc next r.doubleRealloc.blockRealloc }
  | .alloc next nBlocks =>
      let (r, head, added) := r.allocBlocks host nBlocks
      some
        { s with
          ring := r
          writer :=
            if added = 0 then .size
            else .link next head (listTail r.mem r.mem.brk head) added }
  | .link next head tail added =>
      let r := r.link c.b head tail next added
      some { s with ring := r, put := { c with b := r.mem.next c.b }, writer := .size }
  | .addBytes =>
      some { s with ring := { r with bytes := sizeAdd r.bytes c.written }, writer := .testHigh }
  | .testHigh =>
      if r.highWaterMark ≠ 0 ∧ r.bytes ≥ r.highWaterMark then
        some { s with ring := highWaterMarkHit host r, writer := .storeWp }
      else some { s with writer := .storeWp }
  | .storeWp => some { s with ring := { r with wp := c.b }, writer := .idle }

/-- A step of `buf_read`. -/
def readerStep (s : Shared) : Option Shared :=
  let r := s.ring
  let c := s.get
  match s.reader with
  | .idle => none
  | .loadRp => some { s with get := { c with b := r.rp }, reader := .loadFlush }
  | .loadFlush => some { s with get := { c with flush := r.flush }, reader := .testMin }
  | .testMin =>
      let remaining := if r.minReturnSize > r.bytes then 0 else c.remaining
      some { s with get := { c with remaining := remaining }, reader := .loop }
  | .loop =>
      if c.remaining = 0 then some { s with reader := .subBytes }
      else
        let n := r.mem.bytes c.b
        if n = 0 then some { s with reader := .subBytes }
        else if c.remaining < n then some { s with reader := .copy c.remaining true }
        else some { s with reader := .copy n false }
  | .copy n partialRead =>
      some
        { s with
          get :=
            { c with out := c.out ++ (r.mem.data c.b).take n, remaining := c.remaining - n }
          reader := if partialRead then .move n else .take n false }
  | .move n =>
      some { s with ring := { r with mem := r.mem.modify c.b (shiftData n) },
                    reader := .take n true }
  | .take n partialRead =>
      let m := r.mem.modify c.b (takeBytes n)
      some
        { s with
          ring := { r with mem := m }
          get := { c with b := if partialRead then c.b else m.next c.b }
          reader := .loop }
  | .subBytes =>
      some { s with ring := { r with bytes := sizeSub r.bytes c.out.length }, reader := .storeRp }
  | .storeRp =>
      let r := { r with rp := c.b }
      if c.flush ∧ c.out = [] then
        some { s with ring := { r with ioRead := .disabling }, reader := .idle,
                      reports := s.reports ++ [(.complete, c.out)] }
      else some { s with ring := r, reader := .idle, reports := s.reports ++ [(.success, c.out)] }

/-- A new call, or a step of a thread. -/
inductive Act where
  | write (data : List UInt8)
  | read (request : Nat)
  | writer
  | reader
  deriving DecidableEq, Repr

/-- A step of the two threads. Each begins a call when its last one has returned. -/
def sharedStep (host : Host) (s : Shared) : Act → Option Shared
  | .write data =>
      if s.writer = .idle then some { s with put := { data := data }, writer := .testState }
      else none
  | .read request =>
      if s.reader = .idle then some { s with get := { remaining := request }, reader := .loadRp }
      else none
  | .writer => writerStep host s
  | .reader => readerStep s

/-- A new ring with any settings. -/
def ringSystem (host : Host) : System Shared Act where
  start := fun s => ∃ align highWaterMark minReturnSize flush, 0 < align ∧
    s =
      { ring :=
          { createBuffer with
            blockAlign := align
            highWaterMark := highWaterMark
            minReturnSize := minReturnSize
            flush := flush } }
  step := sharedStep host

end Bingewatch.Buffer.Threads
