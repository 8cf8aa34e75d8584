import Bingewatch.Foundation.Transition
import Bingewatch.Buffer.RingStored
import Bingewatch.Buffer.HandleQueue
import Bingewatch.File.Machine
import Bingewatch.Filter.ReadFilters
import Bingewatch.Stream.State
import Bingewatch.Stream.Segment

/-!
# What a segment reads from its source

`segment_run` sets the byte count to the length of its buffer, reads, and hands as many bytes of the
buffer to `write_to_dest` as the count then says; only after an error it hands over nothing. So a
read that forgets the count makes the segment write a buffer full of old bytes.

The source is a ring buffer, a handle queue or a file machine under a stack of read filters. Other
threads may stop it, write to it or read from it, a timer may run out, and filters may be switched
or added, between any two passes of the loop. `handed_are_stored` says that a segment writes exactly
what its reads store in every run in which no read is answered by a time limiter that has run out,
by a byte count limiter without a direction or by a handle queue that is empty and stopped, and that
each such read makes it write old bytes.
-/

set_option autoImplicit false

namespace Bingewatch.Stream

open Foundation Machine Bingewatch.Filter
open Buffer (Ring Backed createBuffer)
open Buffer.HandleQueue (Memex Hq HqEntry hqEntrySize)
open File (World FileDesc Env)

/-! ## The source -/

/-- What the machines meet outside: the system of a ring buffer and of a file machine, and the bytes
of the variable that `queue_read` pops an entry into. -/
structure Outside (κ : Type) where
  ringHost : Buffer.Host
  fileHost : File.Host κ
  image : Option HqEntry → Vector UInt8 hqEntrySize

/-- The machine under the filters. A file machine comes with the states of its two sides. -/
inductive Terminal (X : Memex HqEntry) (κ : Type) where
  | ring (r : Ring)
  | queue (q : Hq X)
  | file (ioRead ioWrite : IoDescState) (w : World κ) (fd : FileDesc)

variable {X : Memex HqEntry} {κ : Type} [DecidableEq κ]

namespace Terminal

/-- `buf_read`, with the count it reports. -/
def readRing (r : Ring) (bytes : Nat) : Option (Ring × Report) :=
  let remaining := if r.minReturnSize > r.bytes then 0 else bytes
  (Buffer.bufRead r bytes false 1).bind fun (r', status, out) =>
    (Buffer.bufReadCount false 1 remaining r.mem r.rp remaining 0).map fun count =>
      (r', { status := status, bytes := count, stored := out })

/-- `queue_read`: the entry is copied to the caller's buffer when one was counted. -/
def readQueue (o : Outside κ) (q : Hq X) (bytes : Nat) : Hq X × Report :=
  let (q, status, count, entry) := Buffer.HandleQueue.queueRead q bytes
  (q,
    { status := status
      bytes := count
      stored := if status = .success ∧ 0 < count then (o.image entry).toList else [] })

/-- `file_read`. A machine that is not set to read resets the count, and the other errors leave
it. -/
def readFile (o : Outside κ) (env : Env) (w : World κ) (fd : FileDesc) (bytes : Nat) :
    Option (World κ × FileDesc × Report) :=
  (File.fileRead o.fileHost env w fd bytes).map fun (w, fd', status, out) =>
    let unset := if fd.flags.read then bytes else 0
    (w, fd',
      { status := status
        bytes := if status.isError then unset else out.length
        stored := out })

/-- The read function of the machine. -/
def read (o : Outside κ) (env : Env) : Terminal X κ → Nat → Option (Terminal X κ × Report)
  | .ring r, bytes => (readRing r bytes).map fun (r, report) => (.ring r, report)
  | .queue q, bytes => some (.queue (readQueue o q bytes).1, (readQueue o q bytes).2)
  | .file ioRead ioWrite w fd, bytes =>
      (readFile o env w fd bytes).map fun (w, fd, report) => (.file ioRead ioWrite w fd, report)

/-- The state of the read side. -/
def ioRead : Terminal X κ → IoDescState
  | .ring r => r.ioRead
  | .queue q => q.ioRead
  | .file ioRead _ _ _ => ioRead

def setIoRead (t : Terminal X κ) (state : IoDescState) : Terminal X κ :=
  match t with
  | .ring r => .ring { r with ioRead := state }
  | .queue q => .queue { q with ioRead := state }
  | .file _ ioWrite w fd => .file state ioWrite w fd

/-- The stop function of the machine: `stop_buffer`, `stop_queue` or `machine_disable_read`. -/
def stop : Terminal X κ → Terminal X κ
  | .ring r => .ring (Buffer.stopBuffer r)
  | .queue q => .queue (Buffer.HandleQueue.stopQueue q)
  | .file _ ioWrite w fd => .file .disabling ioWrite w fd

/-- `machine_desc_write` of the machine, as another thread calls it. -/
def write (o : Outside κ) (env : Env) (tv : Nat × Nat) (data : List UInt8) :
    Terminal X κ → Option (Terminal X κ)
  | .ring r => (Buffer.machineDescWrite o.ringHost r data).map fun (r, _) => .ring r
  | .queue q => (Buffer.HandleQueue.machineDescWrite q data tv).map fun (q, _) => .queue q
  | .file ioRead ioWrite w fd =>
      (machineDescIo (fun s => some s.1) (fun s state => (state, s.2)) 0 data.length
          (fun s : IoDescState × World κ × FileDesc =>
            (File.fileWrite o.fileHost env s.2.1 s.2.2 data).map fun (w, fd, status, out) =>
              ((s.1, w, fd), status, out.length))
          (ioWrite, w, fd)).map fun ((ioWrite, w, fd), _) => .file ioRead ioWrite w fd

/-- The read is answered without the byte count being set: the queue has room for an entry, finds
none and is stopped. -/
def forgets : Terminal X κ → Nat → Bool
  | .queue q, bytes =>
      decide (hqEntrySize ≤ bytes) && (X.pop q.list).ok && decide ((X.pop q.list).count = 0) &&
        q.flush
  | _, _ => false

/-- A machine as its create function leaves it, with any settings. -/
def Created : Terminal X κ → Prop
  | .ring r => ∃ align realloc high minimum, r = { createBuffer with
      blockAlign := align, blockRealloc := realloc, highWaterMark := high,
      minReturnSize := minimum }
  | .queue q => ∃ arg, q = Buffer.HandleQueue.createQueue X arg
  | .file ioRead ioWrite _ fd =>
      ioRead = .enabled ∧ ioWrite = .enabled ∧ fd.fr = none ∧ fd.fw = none

end Terminal

/-- A machine with its read filters. -/
structure Source (X : Memex HqEntry) (κ : Type) where
  filters : List ReadFilter
  terminal : Terminal X κ

namespace Source

/-- `machine_desc_read`. -/
def read (o : Outside κ) (env : Env) (s : Source X κ) (bytes : Nat) :
    Option (Source X κ × Report) :=
  (machineDescIo (fun s => some s.terminal.ioRead)
      (fun s state => { s with terminal := s.terminal.setIoRead state }) (0, []) (bytes, [])
      (fun s : Source X κ =>
        (callFilters (Terminal.read o env) s.filters s.terminal bytes).map
          fun ((filters, terminal), report) =>
            (⟨filters, terminal⟩, report.status, report.bytes, report.stored)) s).map
    fun (s, status, count, stored) => (s, { status := status, bytes := count, stored := stored })

/-- The filters are called: the read side is neither disabled nor stopped. -/
def Calls (s : Source X κ) : Prop :=
  s.terminal.ioRead = .enabled ∨ s.terminal.ioRead = .error

instance (s : Source X κ) : Decidable s.Calls := inferInstanceAs (Decidable (_ ∨ _))

/-- A read into a buffer of the given length is going to be answered without the byte count being
set. -/
def forgets (s : Source X κ) (bytes : Nat) : Bool :=
  decide s.Calls && forgetful Terminal.forgets s.filters s.terminal bytes

/-- `run_timer` of a time limiter comes to its end. -/
def expire (s : Source X κ) (i : Nat) : Option (Source X κ) :=
  match s.filters[i]? with
  | some ⟨enabled, direction, .timeLimiter .running⟩ =>
      some { s with filters := s.filters.set i ⟨enabled, direction, .timeLimiter .done⟩ }
  | _ => none

/-- `io_filter_enable` and `io_filter_disable`. -/
def setEnabled (s : Source X κ) (i : Nat) (enabled : Bool) : Source X κ :=
  { s with filters := s.filters.modify i fun f => { f with enabled := enabled } }

end Source

/-! ## The loop of the segment -/

/-- One read of the segment: what it reported, and what was then handed to `write_to_dest`. -/
structure SegmentRead where
  report : Report
  handed : List UInt8
  deriving DecidableEq, Repr

/-- The bytes handed over are those stored by the read, and none after an error. -/
def SegmentRead.Exact (read : SegmentRead) : Prop :=
  read.handed = if read.report.status.isError then [] else read.report.stored

instance (read : SegmentRead) : Decidable read.Exact := inferInstanceAs (Decidable (_ = _))

/-- The variables of `segment_run`, with the reads it has made. -/
structure Reader (X : Memex HqEntry) (κ : Type) where
  source : Source X κ
  buf : List UInt8
  running : Bool := true
  doComplete : Bool := false
  reads : List SegmentRead := []

/-- What happens next: a pass of the loop, which meets the state of the stream, the system, and the
results of the writes to the outputs; or something that other threads do to the source. -/
inductive SourceAct where
  | pass (state : StreamState) (env : Env) (wrote : WriteResult) (wrote1 : Option WriteResult)
  | stop
  | write (data : List UInt8) (tv : Nat × Nat) (env : Env)
  | read (bytes : Nat) (env : Env)
  | expire (i : Nat)
  | setEnabled (i : Nat) (enabled : Bool)
  | addFilter (addme : ReadFilter) (others : List ReadFilter)

namespace Reader

/-- `stop_segment`. -/
def stopSegment (s : Reader X κ) : Reader X κ :=
  { s with
    source := { s.source with terminal := s.source.terminal.stop }
    running := false
    doComplete := false }

/-- What `read_from_source` makes of the report of a read: the segment and the byte count. -/
def readFromSource (s : Reader X κ) (report : Report) : Reader X κ × Nat :=
  match report.status with
  | .complete => ({ s with doComplete := true }, report.bytes)
  | .error => (s.stopSegment, 0)
  | _ => (s, report.bytes)

/-- What a `write_to_dest` leaves in the segment. -/
def afterWrite (s : Reader X κ) (result : WriteResult) : Reader X κ :=
  let s := if result.doComplete then { s with doComplete := true } else s
  if result.stopSegment then s.stopSegment else s

/-- The part of a pass behind the read. -/
def handOver (s : Reader X κ) (report : Report) (wrote : WriteResult)
    (wrote1 : Option WriteResult) : Reader X κ :=
  let s := { s with buf := report.stored ++ s.buf.drop report.stored.length }
  let (s, bytes) := s.readFromSource report
  let s := { s with reads := s.reads ++ [{ report := report, handed := s.buf.take bytes }] }
  if bytes = 0 then s
  else
    let s := s.afterWrite wrote
    if wrote.written = 0 then s
    else
      match wrote1 with
      | some wrote1 => s.afterWrite wrote1
      | none => s

/-- The pass comes to its read. -/
def Comes (s : Reader X κ) (state : StreamState) : Prop :=
  s.running = true ∧ state ≠ .ready ∧ s.doComplete = false ∧ state.isRunning = true

instance (s : Reader X κ) (state : StreamState) : Decidable (s.Comes state) :=
  inferInstanceAs (Decidable (_ ∧ _))

/-- A pass of the loop of `segment_run`. -/
def pass (o : Outside κ) (s : Reader X κ) (state : StreamState) (env : Env) (wrote : WriteResult)
    (wrote1 : Option WriteResult) : Option (Reader X κ) :=
  if s.running = false then none
  else if state = .ready then some s
  else if s.doComplete then some s.stopSegment
  else if state.isRunning = false then some { s with running := false }
  else
    (s.source.read o env s.buf.length).map fun (source, report) =>
      { s with source := source }.handOver report wrote wrote1

def step (o : Outside κ) (s : Reader X κ) : SourceAct → Option (Reader X κ)
  | .pass state env wrote wrote1 => s.pass o state env wrote wrote1
  | .stop => some { s with source := { s.source with terminal := s.source.terminal.stop } }
  | .write data tv env =>
      (s.source.terminal.write o env tv data).map fun terminal =>
        { s with source := { s.source with terminal := terminal } }
  | .read bytes env =>
      (s.source.read o env bytes).map fun (source, _) => { s with source := source }
  | .expire i => (s.source.expire i).map fun source => { s with source := source }
  | .setEnabled i enabled => some { s with source := s.source.setEnabled i enabled }
  | .addFilter addme others =>
      some { s with source := { s.source with
        filters := addReadFilter addme others s.source.filters } }

end Reader

/-- A segment with a new source under any stack of filters, and a buffer with any content. -/
def readerSystem (o : Outside κ) : System (Reader X κ) SourceAct where
  start := fun s => ∃ terminal filters buf, terminal.Created ∧
    s = { source := { filters := filters, terminal := terminal }, buf := buf }
  step := Reader.step o

/-- The read of a pass is not answered without the byte count being set. -/
def Counted (s : Reader X κ) : SourceAct → Prop
  | .pass state _ _ _ => s.Comes state → s.source.forgets s.buf.length = false
  | _ => True

instance (s : Reader X κ) : (act : SourceAct) → Decidable (Counted s act)
  | .pass state _ _ _ =>
      inferInstanceAs (Decidable (s.Comes state → s.source.forgets s.buf.length = false))
  | .stop => .isTrue trivial
  | .write _ _ _ => .isTrue trivial
  | .read _ _ => .isTrue trivial
  | .expire _ => .isTrue trivial
  | .setEnabled _ _ => .isTrue trivial
  | .addFilter _ _ => .isTrue trivial

/-! ## Reports of the source -/

namespace Terminal

/-- The blocks of a ring hold what they count. -/
def Sound : Terminal X κ → Prop
  | .ring r => Backed r.mem
  | _ => True

omit [DecidableEq κ] in
theorem Created.sound {t : Terminal X κ} (created : t.Created) : t.Sound := by
  cases t with
  | ring r =>
      obtain ⟨align, realloc, high, minimum, rfl⟩ := created
      exact Buffer.createBuffer_backed
  | queue q => trivial
  | file ioRead ioWrite w fd => trivial

theorem readRing_honest {r r' : Ring} {bytes : Nat} {report : Report} (backed : Backed r.mem)
    (called : readRing r bytes = some (r', report)) :
    report.Honest bytes false ∧ Backed r'.mem := by
  simp only [readRing, Buffer.bufRead, Nat.mod_one, Nat.sub_zero, Option.bind_eq_some_iff,
    Option.map_eq_some_iff, Prod.mk.injEq] at called
  obtain ⟨⟨r₁, status, out⟩, ⟨⟨m, b, out'⟩, loop, finished⟩, count, counted, rfl, rfl⟩ := called
  obtain ⟨kept, exact, short⟩ := Buffer.bufReadLoop_backed false 1 _ backed loop
  obtain ⟨mem, same⟩ : r₁.mem = m ∧ out = out' := by
    split_ifs at finished <;> (cases finished; exact ⟨rfl, rfl⟩)
  have number : count = out'.length := Option.some.inj (counted.symm.trans exact)
  refine ⟨Report.honest_of_counted ?_ fun _ => by rw [number, same], ?_⟩
  · have limited : (if r.minReturnSize > r.bytes then 0 else bytes) ≤ bytes := by
      split <;> omega
    simp only [List.length_nil, Nat.zero_add] at short
    exact same ▸ Nat.le_trans short limited
  · rw [mem]
    exact kept

omit [DecidableEq κ] in
theorem readQueue_honest (o : Outside κ) (q : Hq X) (bytes : Nat) :
    (readQueue o q bytes).2.Honest bytes ((.queue q : Terminal X κ).forgets bytes) := by
  by_cases small : bytes < hqEntrySize
  · have forgot : (.queue q : Terminal X κ).forgets bytes = false := by
      simp [forgets, Nat.not_le.mpr small]
    simp only [readQueue, Buffer.HandleQueue.queueRead, if_pos small, forgot]
    exact Report.honest_of_counted (Nat.zero_le _) fun _ => rfl
  · have room : hqEntrySize ≤ bytes := Nat.not_lt.mp small
    by_cases failed : (X.pop q.list).ok = false
    · have forgot : (.queue q : Terminal X κ).forgets bytes = false := by simp [forgets, failed]
      simp only [readQueue, Buffer.HandleQueue.queueRead, if_neg small, if_pos failed, forgot]
      exact Report.honest_of_counted (Nat.zero_le _) fun _ => rfl
    · by_cases counted : (X.pop q.list).count > 0
      · have forgot : (.queue q : Terminal X κ).forgets bytes = false := by
          simp [forgets, Nat.pos_iff_ne_zero.mp counted]
        have entry : 0 < hqEntrySize := by decide
        simp only [readQueue, Buffer.HandleQueue.queueRead, if_neg small, if_neg failed,
          if_pos counted, forgot, entry, and_self, if_true]
        refine Report.honest_of_counted ?_ fun _ => ?_
        · simpa using room
        · simp
      · by_cases flush : q.flush = true
        · have forgot : (.queue q : Terminal X κ).forgets bytes = true := by
            simp [forgets, room, failed, flush]
            omega
          simp only [readQueue, Buffer.HandleQueue.queueRead, if_neg small, if_neg failed,
            if_neg counted, if_pos flush, forgot]
          refine ⟨Nat.zero_le _, fun impossible => (by cases impossible), fun _ =>
            ⟨rfl, ?_, Nat.le_refl _, rfl⟩⟩
          exact Nat.lt_of_lt_of_le (by decide) room
        · have forgot : (.queue q : Terminal X κ).forgets bytes = false := by
            simp [forgets, flush]
          simp only [readQueue, Buffer.HandleQueue.queueRead, if_neg small, if_neg failed,
            if_neg counted, if_neg flush, forgot]
          exact Report.honest_of_counted (Nat.zero_le _) fun _ => rfl

omit [DecidableEq κ] in
/-- A stream gives no more bytes than it is asked for, and none with an error. -/
theorem fread_short (w : World κ) (f bytes : Nat) : (w.fread f bytes).2.2.length ≤ bytes := by
  unfold World.fread
  split
  · exact Nat.zero_le _
  · split
    · split
      · split
        · exact List.length_take_le ..
        · exact Nat.zero_le _
      · exact Nat.zero_le _
    · exact Nat.zero_le _

theorem readFile_honest {o : Outside κ} {env : Env} {w w' : World κ} {fd fd' : FileDesc}
    {bytes : Nat} {report : Report}
    (called : readFile o env w fd bytes = some (w', fd', report)) : report.Honest bytes false := by
  simp only [readFile, Option.map_eq_some_iff, Prod.mk.injEq] at called
  obtain ⟨⟨w₁, fd₁, status, out⟩, answered, -, -, rfl⟩ := called
  refine Report.honest_of_counted ?_ fun calm => by simp only at calm; simp [calm]
  unfold File.fileRead at answered
  split at answered
  · obtain ⟨-, -, -, rfl⟩ := by simpa using answered
    exact Nat.zero_le _
  · simp only [Option.map_eq_some_iff] at answered
    obtain ⟨⟨w₂, fd₂, opened⟩, -, result⟩ := answered
    split at result
    · obtain ⟨-, -, -, rfl⟩ := by simpa only [Prod.mk.injEq] using result
      exact fread_short ..
    · obtain ⟨-, -, -, rfl⟩ := by simpa only [Prod.mk.injEq] using result
      exact Nat.zero_le _

/-- **The machine reports what it stores**, except for a queue that is empty and stopped. -/
theorem read_honest {o : Outside κ} {env : Env} {t : Terminal X κ} (sound : t.Sound) :
    HonestCalls (t.read o env) t.forgets := by
  intro bytes t' report called
  cases t with
  | ring r =>
      simp only [read, Option.map_eq_some_iff, Prod.mk.injEq] at called
      obtain ⟨⟨r', report'⟩, answered, -, rfl⟩ := called
      exact (readRing_honest sound answered).1
  | queue q =>
      simp only [read, Option.some.injEq, Prod.mk.injEq] at called
      exact called.2 ▸ readQueue_honest o q bytes
  | file ioRead ioWrite w fd =>
      simp only [read, Option.map_eq_some_iff, Prod.mk.injEq] at called
      obtain ⟨⟨w', fd', report'⟩, answered, -, rfl⟩ := called
      exact readFile_honest answered

/-! ## Every call keeps the blocks of a ring sound -/

theorem Sound.read {o : Outside κ} {env : Env} {t t' : Terminal X κ} {bytes : Nat}
    {report : Report} (sound : t.Sound) (called : t.read o env bytes = some (t', report)) :
    t'.Sound := by
  cases t with
  | ring r =>
      simp only [Terminal.read, Option.map_eq_some_iff, Prod.mk.injEq] at called
      obtain ⟨⟨r', report'⟩, answered, rfl, -⟩ := called
      exact (readRing_honest sound answered).2
  | queue q =>
      simp only [Terminal.read, Option.some.injEq, Prod.mk.injEq] at called
      exact called.1 ▸ trivial
  | file ioRead ioWrite w fd =>
      simp only [Terminal.read, Option.map_eq_some_iff, Prod.mk.injEq] at called
      obtain ⟨⟨w', fd', report'⟩, answered, rfl, -⟩ := called
      trivial

omit [DecidableEq κ] in
theorem Sound.setIoRead {t : Terminal X κ} (sound : t.Sound) (state : IoDescState) :
    (t.setIoRead state).Sound := by
  cases t <;> exact sound

omit [DecidableEq κ] in
theorem Sound.stop {t : Terminal X κ} (sound : t.Sound) : t.stop.Sound := by
  cases t <;> exact sound

theorem Sound.write {o : Outside κ} {env : Env} {tv : Nat × Nat} {data : List UInt8}
    {t t' : Terminal X κ} (sound : t.Sound) (called : t.write o env tv data = some t') :
    t'.Sound := by
  cases t with
  | ring r =>
      simp only [Terminal.write, Buffer.machineDescWrite, Option.map_eq_some_iff] at called
      obtain ⟨⟨r', status, n⟩, answered, rfl⟩ := called
      rcases machineDescIo_cases answered with ⟨-, written⟩ | ⟨-, rfl | ⟨state, rfl⟩, -⟩
      · exact Backed.bufWrite sound written
      · exact sound
      · exact sound
  | queue q =>
      simp only [Terminal.write, Option.map_eq_some_iff] at called
      obtain ⟨-, -, rfl⟩ := called
      trivial
  | file ioRead ioWrite w fd =>
      simp only [Terminal.write, Option.map_eq_some_iff] at called
      obtain ⟨-, -, rfl⟩ := called
      trivial

end Terminal

/-- **The report of the source can be trusted unless the count is forgotten.** -/
theorem Source.read_honest {o : Outside κ} {env : Env} {s s' : Source X κ} {bytes : Nat}
    {report : Report} (sound : s.terminal.Sound) (called : s.read o env bytes = some (s', report)) :
    report.Honest bytes (s.forgets bytes) ∧ s'.terminal.Sound := by
  simp only [Source.read, Option.map_eq_some_iff, Prod.mk.injEq] at called
  obtain ⟨⟨s₁, status, count, stored⟩, answered, rfl, rfl⟩ := called
  rcases machineDescIo_cases answered with ⟨calls, filtered⟩ | ⟨idle, side, reported⟩
  · simp only [Option.map_eq_some_iff, Prod.mk.injEq] at filtered
    obtain ⟨⟨⟨filters, terminal⟩, report⟩, filtered, rfl, rfl, rfl, rfl⟩ := filtered
    have calls : s.Calls := by simpa [Source.Calls] using calls
    have forgot : s.forgets bytes = forgetful Terminal.forgets s.filters s.terminal bytes := by
      simp [Source.forgets, calls]
    rw [forgot]
    exact ⟨callFilters_honest (Terminal.read_honest sound) s.filters _ _ _ filtered,
      callFilters_machine (fun _ _ _ _ => Terminal.Sound.read) sound filtered⟩
  · have idle : ¬ s.Calls := by simpa [Source.Calls] using idle
    have forgot : s.forgets bytes = false := by simp [Source.forgets, idle]
    rw [forgot]
    refine ⟨Report.honest_of_counted ?_ ?_, ?_⟩
    · rcases reported with ⟨-, same⟩ | ⟨-, same⟩ <;> cases same <;> exact Nat.zero_le _
    · rcases reported with ⟨failed, -⟩ | ⟨-, same⟩
      · intro calm
        simp [failed, IoStatus.isError] at calm
      · cases same
        exact fun _ => rfl
    · rcases side with rfl | ⟨state, rfl⟩
      · exact sound
      · exact sound.setIoRead state

/-! ## Runs of the segment -/

/-- What holds in every run: the ring is sound and the buffer keeps its length. -/
structure Reader.Inv (s : Reader X κ) (buflen : Nat) : Prop where
  sound : s.source.terminal.Sound
  length : s.buf.length = buflen

/-- What the calls behind a read leave of the segment. -/
structure Reader.Frame (s t : Reader X κ) : Prop where
  sound : s.source.terminal.Sound → t.source.terminal.Sound
  buf : t.buf = s.buf
  reads : t.reads = s.reads

namespace Reader

omit [DecidableEq κ]

theorem Frame.refl (s : Reader X κ) : s.Frame s := ⟨id, rfl, rfl⟩

theorem Frame.trans {s t u : Reader X κ} (first : s.Frame t) (second : t.Frame u) : s.Frame u :=
  ⟨second.sound ∘ first.sound, second.buf.trans first.buf, second.reads.trans first.reads⟩

theorem stopSegment_frame (s : Reader X κ) : s.Frame s.stopSegment :=
  ⟨Terminal.Sound.stop, rfl, rfl⟩

theorem readFromSource_frame (s : Reader X κ) (report : Report) :
    s.Frame (s.readFromSource report).1 := by
  unfold readFromSource
  split
  · exact ⟨id, rfl, rfl⟩
  · exact s.stopSegment_frame
  · exact .refl s

theorem afterWrite_frame (s : Reader X κ) (result : WriteResult) :
    s.Frame (s.afterWrite result) := by
  have completed : s.Frame (if result.doComplete then { s with doComplete := true } else s) := by
    split
    · exact ⟨id, rfl, rfl⟩
    · exact .refl s
  simp only [afterWrite]
  split
  · exact completed.trans (stopSegment_frame _)
  · exact completed

/-- The count that `read_from_source` leaves: none after an error. -/
theorem readFromSource_bytes (s : Reader X κ) (report : Report) :
    (s.readFromSource report).2 = if report.status.isError then 0 else report.bytes := by
  unfold readFromSource
  cases report.status <;> rfl

/-- A read whose report can be trusted is handed over exactly when the count is not forgotten. -/
theorem exact_iff {buf : List UInt8} {report : Report} {forgot : Bool}
    (honest : report.Honest buf.length forgot) :
    ({ report := report
       handed := (report.stored ++ buf.drop report.stored.length).take
        (if report.status.isError then 0 else report.bytes) } : SegmentRead).Exact ↔
      forgot = false := by
  unfold SegmentRead.Exact
  cases forgot with
  | false =>
      cases failed : report.status.isError with
      | true => simp
      | false => simp [honest.counted rfl failed]
  | true =>
      obtain ⟨calm, positive, short, nothing⟩ := honest.stale rfl
      have room : buf ≠ [] := by
        rintro rfl
        simp only [List.length_nil] at short
        omega
      simp [calm, nothing, room]
      omega

/-- The part of a pass behind the read. -/
theorem handOver_spec {s : Reader X κ} {buflen : Nat} {report : Report} {forgot : Bool}
    (inv : s.Inv buflen) (honest : report.Honest buflen forgot) (wrote : WriteResult)
    (wrote1 : Option WriteResult) :
    (s.handOver report wrote wrote1).Inv buflen ∧
      ∃ read : SegmentRead, (s.handOver report wrote wrote1).reads = s.reads ++ [read] ∧
        (read.Exact ↔ forgot = false) := by
  let filled : Reader X κ := { s with buf := report.stored ++ s.buf.drop report.stored.length }
  let read : SegmentRead :=
    { report := report
      handed := (filled.readFromSource report).1.buf.take (filled.readFromSource report).2 }
  let recorded : Reader X κ :=
    { (filled.readFromSource report).1 with
      reads := (filled.readFromSource report).1.reads ++ [read] }
  have frame := filled.readFromSource_frame report
  have same : recorded.Frame (s.handOver report wrote wrote1) := by
    cases wrote1 with
    | none =>
        simp only [handOver]
        split_ifs
        · exact .refl _
        · exact afterWrite_frame _ _
        · exact afterWrite_frame _ _
    | some wrote1 =>
        simp only [handOver]
        split_ifs
        · exact .refl _
        · exact afterWrite_frame _ _
        · exact (afterWrite_frame _ _).trans (afterWrite_frame _ _)
  have exact : read.Exact ↔ forgot = false := by
    have exact := exact_iff (inv.length ▸ honest : report.Honest s.buf.length forgot)
    rw [← filled.readFromSource_bytes report] at exact
    simp only [read, frame.buf]
    exact exact
  refine ⟨⟨same.sound (frame.sound inv.sound), ?_⟩, read, ?_, exact⟩
  · rw [same.buf]
    have fits := honest.fits
    have length := inv.length
    show (filled.readFromSource report).1.buf.length = buflen
    rw [frame.buf]
    simp only [filled, List.length_append, List.length_drop]
    omega
  · rw [same.reads]
    show (filled.readFromSource report).1.reads ++ [read] = s.reads ++ [read]
    rw [frame.reads]

end Reader

/-- A pass that does not come to its read makes none. -/
theorem Reader.pass_idle {o : Outside κ} {s t : Reader X κ} {state : StreamState} {env : Env}
    {wrote : WriteResult} {wrote1 : Option WriteResult} (idle : ¬ s.Comes state)
    (passed : s.pass o state env wrote wrote1 = some t) : s.Frame t := by
  unfold Reader.pass at passed
  split_ifs at passed with left ready completed stopped
  · cases passed
    exact .refl _
  · cases passed
    exact s.stopSegment_frame
  · cases passed
    exact ⟨id, rfl, rfl⟩
  · refine absurd ⟨?_, ready, ?_, ?_⟩ idle
    · simpa using left
    · simpa using completed
    · simpa using stopped

/-- A pass that comes to its read. -/
theorem Reader.pass_comes {o : Outside κ} {s t : Reader X κ} {buflen : Nat} {state : StreamState}
    {env : Env} {wrote : WriteResult} {wrote1 : Option WriteResult} (inv : s.Inv buflen)
    (comes : s.Comes state) (passed : s.pass o state env wrote wrote1 = some t) :
    t.Inv buflen ∧ ∃ read : SegmentRead, t.reads = s.reads ++ [read] ∧
      (read.Exact ↔ s.source.forgets buflen = false) := by
  obtain ⟨running, notReady, goesOn, isRunning⟩ := comes
  rw [Reader.pass, if_neg (by simp [running]), if_neg notReady, if_neg (by simp [goesOn]),
    if_neg (by simp [isRunning]), Option.map_eq_some_iff] at passed
  obtain ⟨⟨source, report⟩, answered, rfl⟩ := passed
  rw [inv.length] at answered
  obtain ⟨honest, sound⟩ := Source.read_honest inv.sound answered
  have inv' : Reader.Inv { s with source := source } buflen := ⟨sound, inv.length⟩
  exact Reader.handOver_spec inv' honest wrote wrote1

/-- What other threads do to the source is no read of the segment. -/
theorem Reader.step_other {o : Outside κ} {s t : Reader X κ} {act : SourceAct}
    (other : ∀ state env wrote wrote1, act ≠ .pass state env wrote wrote1)
    (step : s.step o act = some t) : s.Frame t := by
  cases act with
  | pass state env wrote wrote1 => exact absurd rfl (other state env wrote wrote1)
  | stop =>
      cases step
      exact ⟨Terminal.Sound.stop, rfl, rfl⟩
  | write data tv env =>
      obtain ⟨terminal, written, rfl⟩ := Option.map_eq_some_iff.mp step
      exact ⟨fun sound => sound.write written, rfl, rfl⟩
  | read bytes env =>
      obtain ⟨⟨source, report⟩, answered, rfl⟩ := Option.map_eq_some_iff.mp step
      exact ⟨fun sound => (Source.read_honest sound answered).2, rfl, rfl⟩
  | expire i =>
      obtain ⟨source, expired, rfl⟩ := Option.map_eq_some_iff.mp step
      refine ⟨fun sound => ?_, rfl, rfl⟩
      unfold Source.expire at expired
      split at expired
      · cases expired
        exact sound
      · cases expired
  | setEnabled i enabled =>
      cases step
      exact ⟨id, rfl, rfl⟩
  | addFilter addme others =>
      cases step
      exact ⟨id, rfl, rfl⟩

omit [DecidableEq κ] in
theorem Reader.Frame.inv {s t : Reader X κ} {buflen : Nat} (frame : s.Frame t)
    (inv : s.Inv buflen) : t.Inv buflen :=
  ⟨frame.sound inv.sound, by rw [frame.buf]; exact inv.length⟩

/-- **One step.** The reads it adds are exact if and only if the count is not forgotten. -/
theorem Reader.step_spec {o : Outside κ} {s t : Reader X κ} {buflen : Nat} {act : SourceAct}
    (inv : s.Inv buflen) (step : s.step o act = some t) :
    t.Inv buflen ∧ ∃ new, t.reads = s.reads ++ new ∧
      (Counted s act ↔ ∀ read ∈ new, read.Exact) := by
  cases act with
  | pass state env wrote wrote1 =>
      by_cases comes : s.Comes state
      · obtain ⟨inv', read, recorded, exact⟩ := Reader.pass_comes inv comes step
        refine ⟨inv', [read], recorded, ?_⟩
        simp [Counted, comes, exact, inv.length]
      · have frame := Reader.pass_idle comes step
        exact ⟨frame.inv inv, [], by simp [frame.reads], by simp [Counted, comes]⟩
  | stop | write | read | expire | setEnabled | addFilter =>
      have frame := Reader.step_other (by simp) step
      exact ⟨frame.inv inv, [], by simp [frame.reads], by simp [Counted]⟩

theorem readerSystem_start {o : Outside κ} {s : Reader X κ} (start : (readerSystem o).start s) :
    (∃ buflen, s.Inv buflen) ∧ s.reads = [] := by
  obtain ⟨terminal, filters, buf, created, rfl⟩ := start
  exact ⟨⟨buf.length, created.sound, rfl⟩, rfl⟩

/-- **A segment writes exactly the bytes its reads store, in every run in which no read forgets the
byte count; and each read that forgets it makes the segment write bytes that were not stored.** -/
theorem handed_are_stored (o : Outside κ) :
    (∀ s : Reader X κ, (readerSystem o).ReachUnder Counted s → ∀ read ∈ s.reads, read.Exact) ∧
      ∀ (s t : Reader X κ) (act : SourceAct), (readerSystem o).Reach s →
        (readerSystem o).step s act = some t →
        ∃ new, t.reads = s.reads ++ new ∧ (Counted s act ↔ ∀ read ∈ new, read.Exact) := by
  constructor
  · intro s reached
    refine (reached.invariant
      (I := fun s => (∃ buflen, s.Inv buflen) ∧ ∀ read ∈ s.reads, read.Exact) ?_ ?_).2
    · intro s start
      obtain ⟨inv, none⟩ := readerSystem_start start
      exact ⟨inv, by simp [none]⟩
    · rintro s act t ⟨⟨buflen, inv⟩, exact⟩ counted step
      obtain ⟨inv', new, added, iff⟩ := Reader.step_spec inv step
      refine ⟨⟨buflen, inv'⟩, ?_⟩
      intro read member
      rw [added] at member
      rcases List.mem_append.mp member with old | recent
      · exact exact read old
      · exact iff.mp counted read recent
  · intro s t act reached step
    obtain ⟨buflen, inv⟩ : ∃ buflen, s.Inv buflen := by
      refine reached.invariant (I := fun s => ∃ buflen, s.Inv buflen)
        (fun s start => (readerSystem_start start).1) ?_
      rintro s act t ⟨buflen, inv⟩ - step
      exact ⟨buflen, (Reader.step_spec inv step).1⟩
    exact (Reader.step_spec inv step).2

section Runs

open Buffer.HandleQueue (listMemex createQueue)

/-- A system with plenty of memory and one place on its disk. -/
def plainOutside : Outside Unit where
  ringHost := { freeram := fun _ size => size * 64 + 1, lowWater := fun _ _ => 0 }
  fileHost := { resolve := fun _ _ => none }
  image := fun _ => Vector.replicate hqEntrySize 1

/-- A segment that reads from a new handle queue into a buffer of 64 bytes. -/
def queueReader (filters : List ReadFilter) : Reader (listMemex HqEntry) Unit where
  source := { filters := filters, terminal := .queue (createQueue (listMemex HqEntry) none) }
  buf := List.replicate 64 7

theorem queueReader_start (filters : List ReadFilter) :
    (readerSystem plainOutside).start (queueReader filters) :=
  ⟨.queue (createQueue (listMemex HqEntry) none), filters, _, ⟨none, rfl⟩, rfl⟩

/-- An entry is written, the queue is stopped and read through a byte counter and a time limiter
whose timer is running. -/
theorem handed_are_stored_entry :
    ∃ t : Reader (listMemex HqEntry) Unit,
      (readerSystem plainOutside).execUnder Counted
          (queueReader [createByteCounterFilter 16, createTimeLimitFilter])
          [.write [1, 2] (0, 0) {}, .stop, .pass .running {} { written := 40 } none] = some t ∧
        t.reads.length = 1 ∧ ∀ read ∈ t.reads, read.Exact := by
  have run : ∃ t : Reader (listMemex HqEntry) Unit,
      (readerSystem plainOutside).execUnder Counted
          (queueReader [createByteCounterFilter 16, createTimeLimitFilter])
          [.write [1, 2] (0, 0) {}, .stop, .pass .running {} { written := 40 } none] = some t ∧
        t.reads.length = 1 := ⟨_, rfl, rfl⟩
  obtain ⟨t, run, one⟩ := run
  exact ⟨t, run, one, (handed_are_stored plainOutside).1 t
    (System.ReachUnder.execUnder (.start (queueReader_start _)) run)⟩

/-- A queue that is stopped while it is empty: the segment writes the 64 bytes it finds in its
buffer. -/
theorem stopped_queue_hands_stale :
    ¬ ∀ s : Reader (listMemex HqEntry) Unit, (readerSystem plainOutside).Reach s →
      ∀ read ∈ s.reads, read.Exact := by
  intro always
  have run : ∃ t : Reader (listMemex HqEntry) Unit,
      (readerSystem plainOutside).exec (queueReader [])
          [.stop, .pass .running {} { written := 64 } none] = some t ∧
        t.reads = [⟨⟨.complete, 64, []⟩, List.replicate 64 7⟩] := ⟨_, rfl, rfl⟩
  obtain ⟨t, run, reads⟩ := run
  have exact := always t (System.ReachUnder.exec (.start (queueReader_start [])) run)
    ⟨⟨.complete, 64, []⟩, List.replicate 64 7⟩ (by simp [reads])
  exact absurd exact (by decide)

end Runs

end Bingewatch.Stream
