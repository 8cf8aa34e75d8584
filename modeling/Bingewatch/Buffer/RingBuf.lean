import Bingewatch.Buffer.BlockRing

/-!
# The ring buffer

A ring buffer (`src/buf/ring-buf.c`) is a ring of blocks with a read position and a write position.
Its blocks get their data at the first write, whose length decides the block size. A write copies
its bytes block by block and, when the next block still holds data, links new blocks behind the
current one; a read copies out of the block at the read position, moves the rest of a block it did
not exhaust to the front, and steps on from a block it did.

The calls are modelled as they run without interference. A call that keeps looping without effect
does not return, and its model is `none`.
-/

set_option autoImplicit false

namespace Bingewatch.Buffer

open Foundation Machine

/-! ## The ring descriptor -/

/-- What the calls learn from the system: the free memory reported when blocks of a given size are
given data for the `call`-th time, and the low water mark `high_water_mark_hit` computes in floating
point from its count and the high mark. -/
structure Host where
  freeram : (call size : Nat) → Nat
  lowWater : (count mark : Nat) → Nat

/-- Allocations succeed, for at least one block each. -/
def Host.Fits (host : Host) : Prop := ∀ call size, size < host.freeram call size

/-- `enum rb_state_e`. -/
inductive RbState where
  | noinit
  | ready
  deriving DecidableEq, Repr

/-- `struct ring_t`, with the states of its two descriptor sides and its blocks. `allocs` counts
the calls of `block_data_fastalloc`. -/
structure Ring where
  ioRead : IoDescState := .enabled
  ioWrite : IoDescState := .enabled
  mem : Mem UInt8
  size : Nat := 0
  bytes : Nat := 0
  wp : Nat
  rp : Nat
  flush : Bool := false
  blockSize : Nat := 0
  blockAlign : Nat := 1048576
  blockRealloc : Nat := 16
  highWaterMark : Nat := 0
  highWaterCount : Nat := 0
  lowWaterMark : Nat := 0
  minReturnSize : Nat := 0
  state : RbState := .noinit
  allocs : Nat := 0

/-- `DEFAULT_REALLOC`, the number of blocks of a new ring. -/
def defaultRealloc : Nat := 16

/-- `create_buffer`: a ring of block descriptors that have no data yet. -/
def createBuffer : Ring :=
  let (m, blocks) := blockListAlloc ({} : Mem UInt8) defaultRealloc
  { mem := forgeRing m blocks, wp := blocks, rp := blocks, blockRealloc := defaultRealloc }

/-- `high_water_mark_hit`. -/
def highWaterMarkHit (host : Host) (r : Ring) : Ring :=
  { r with
    highWaterCount := r.highWaterCount + 1
    lowWaterMark := host.lowWater (r.highWaterCount + 1) r.highWaterMark }

/-- `low_water_mark_hit`. -/
def lowWaterMarkHit (r : Ring) : Ring :=
  if r.bytes < r.lowWaterMark then { r with lowWaterMark := 0 } else r

/-! ## Writing -/

/-- The block size of `rb_data_init`: the first write's length, rounded up to the alignment. The
source divides in floating point, exactly for lengths below 2⁵³. -/
def alignedSize (minBytes align : Nat) : Nat :=
  if minBytes % align = 0 then minBytes / align * align else (minBytes / align + 1) * align

/-- `rb_data_init`. -/
def rbDataInit (host : Host) (r : Ring) (minBytes : Nat) : Ring × IoStatus :=
  let blockSize := alignedSize minBytes r.blockAlign
  let (mem, bytes) := blockDataFastalloc r.mem r.wp blockSize (host.freeram r.allocs blockSize)
  let r := { r with mem := mem, blockSize := blockSize, size := r.size + bytes,
                    allocs := r.allocs + 1 }
  if bytes = 0 then (r, .error) else (r, .success)

/-- `ring_data_init`; the flag is true when the call fails. -/
def ringDataInit (host : Host) (r : Ring) (bytes : Nat) : Ring × Bool :=
  let (r, status) := rbDataInit host r bytes
  if status.isError then (r, true) else ({ r with state := .ready }, false)

/-- The first locked section of `get_next_block` behind the emptiness test. -/
def Ring.doubleRealloc (r : Ring) : Ring := { r with blockRealloc := r.blockRealloc * 2 }

/-- The unlocked part of `get_next_block`: new blocks, their head and the bytes they add. -/
def Ring.allocBlocks (host : Host) (r : Ring) (nBlocks : Nat) : Ring × Nat × Nat :=
  let (mem, head) := blockListAlloc r.mem nBlocks
  let (mem, added) := blockDataFastalloc mem head r.blockSize (host.freeram r.allocs r.blockSize)
  ({ r with mem := mem, allocs := r.allocs + 1 }, head, added)

/-- The last locked section of `get_next_block`: link the new blocks between `b` and `next`. -/
def Ring.link (r : Ring) (b head tail next added : Nat) : Ring :=
  { r with mem := Layout.spliced r.mem b head tail next, size := r.size + added }

/-- `get_next_block`: the block after `b`, a new one when the next block still holds data. The flag
is true when no memory is left; `b` is then unchanged. -/
def getNextBlock (host : Host) (r : Ring) (b : Nat) : Ring × Nat × Bool :=
  let next := r.mem.next b
  if r.mem.bytes next = 0 then (r, next, false)
  else
    let r := r.doubleRealloc
    let (r, head, added) := r.allocBlocks host r.blockRealloc
    if added = 0 then (r, b, true)
    else
      let r := r.link b head (listTail r.mem r.mem.brk head) next added
      (r, r.mem.next b, false)

/-- The loop of `buf_write`. Every pass over a block with room takes at least one byte, so a call
that returns makes no more passes than it has bytes. The result of `get_next_block` is ignored. -/
def bufWriteLoop (host : Host) : Nat → Ring → Nat → List UInt8 → Option (Ring × Nat)
  | _, r, b, [] => some (r, b)
  | 0, _, _, _ :: _ => none
  | fuel + 1, r, b, x :: rest =>
      let data := x :: rest
      let n := if data.length < r.mem.size b then data.length else r.mem.size b
      let r := { r with mem := r.mem.modify b (storeData (data.take n)) }
      let r := { r with mem := r.mem.modify b (setBytes n) }
      let (r, b, _) := getNextBlock host r b
      bufWriteLoop host fuel r b (data.drop n)

/-- The end of `buf_write` and of `rb_release_write_block`: count the bytes, look at the high water
mark, move the write position. -/
def finishWrite (host : Host) (r : Ring) (b written : Nat) : Ring :=
  let r := { r with bytes := r.bytes + written }
  let r := if r.highWaterMark ≠ 0 ∧ r.bytes ≥ r.highWaterMark then highWaterMarkHit host r else r
  { r with wp := b }

/-- `buf_write` on an initialised ring. -/
def bufWriteReady (host : Host) (r : Ring) (data : List UInt8) : Option (Ring × IoStatus × Nat) :=
  if r.lowWaterMark ≠ 0 then some (lowWaterMarkHit r, .nodata, 0)
  else
    (bufWriteLoop host data.length r r.wp data).map fun (r, b) =>
      (finishWrite host r b data.length, .success, data.length)

/-- `buf_write`: the new ring, the status, and the byte count reported. When the first write finds
no memory the count stays as the caller set it. -/
def bufWrite (host : Host) (r : Ring) (data : List UInt8) : Option (Ring × IoStatus × Nat) :=
  match r.state with
  | .ready => bufWriteReady host r data
  | .noinit =>
      match ringDataInit host r data.length with
      | (r, true) => some (r, .error, data.length)
      | (r, false) => bufWriteReady host r data

/-! ## Reading -/

/-- The `memmove` of a partial read: the rest of the stored bytes moves to the front. -/
def shiftData (n : Nat) (b : Block UInt8) : Block UInt8 :=
  { b with data := (b.data.drop n).take (b.bytes - n) ++ b.data.drop (b.bytes - n) }

/-- The locked section of one pass of `buf_read`, without the step to the next block. -/
def takeBytes (n : Nat) (b : Block UInt8) : Block UInt8 := { b with bytes := b.bytes - n }

/-- The loop of `buf_read`: the blocks, the position and the bytes read. A pass that finds the block
empty ends the loop, unless the caller blocks or the bytes read so far are not aligned. -/
def bufReadLoop (block : Bool) (align : Nat) :
    Nat → Mem UInt8 → Nat → Nat → List UInt8 → Option (Mem UInt8 × Nat × List UInt8)
  | _, m, b, 0, out => some (m, b, out)
  | 0, _, _, _ + 1, _ => none
  | fuel + 1, m, b, remaining + 1, out =>
      let n := m.bytes b
      if n = 0 then
        if block then bufReadLoop block align fuel m b (remaining + 1) out
        else if out.length % align ≠ 0 then bufReadLoop block align fuel m b (remaining + 1) out
        else some (m, b, out)
      else if remaining + 1 < n then
        let n := remaining + 1
        let out := out ++ (m.data b).take n
        let m := m.modify b (shiftData n)
        bufReadLoop block align fuel (m.modify b (takeBytes n)) b 0 out
      else
        let out := out ++ (m.data b).take n
        let m := m.modify b (takeBytes n)
        bufReadLoop block align fuel m (m.next b) (remaining + 1 - n) out

/-- `buf_read`: the new ring, the status, and the bytes stored for the caller. The request is first
rounded down to the alignment. -/
def bufRead (r : Ring) (request : Nat) (block : Bool) (align : Nat) :
    Option (Ring × IoStatus × List UInt8) :=
  let remaining := request - request % align
  let remaining := if r.minReturnSize > r.bytes then 0 else remaining
  (bufReadLoop block align remaining r.mem r.rp remaining []).map fun (m, b, out) =>
    let r' := { r with mem := m, bytes := r.bytes - out.length, rp := b }
    if r.flush ∧ out = [] then ({ r' with ioRead := .disabling }, .complete, out)
    else (r', .success, out)

/-! ## The calls of the machine -/

/-- `machine_desc_write` on a ring buffer. -/
def machineDescWrite (host : Host) (r : Ring) (data : List UInt8) :
    Option (Ring × IoStatus × Nat) :=
  machineDescIo (fun r => some r.ioWrite) (fun r state => { r with ioWrite := state }) 0 data.length
    (fun r => bufWrite host r data) r

/-- `machine_desc_read` on a ring buffer: it does not block and asks for single bytes. -/
def machineDescRead (r : Ring) (request : Nat) : Option (Ring × IoStatus × List UInt8) :=
  machineDescIo (fun r => some r.ioRead) (fun r state => { r with ioRead := state }) [] []
    (fun r => bufRead r request false 1) r

/-- `stop_buffer`: no more writes, and reads until the ring is empty. -/
def stopBuffer (r : Ring) : Ring := { r with ioWrite := .disabling, flush := true }

end Bingewatch.Buffer
