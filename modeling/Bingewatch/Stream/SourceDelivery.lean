import Bingewatch.Foundation.Refinement
import Bingewatch.Stream.SourceSegment

/-!
# A stream with a source segment delivers its source

Every run of `sourceStream` is followed by a run of the chain of byte queues that `Delivering` is
about. The source segment acquires its block unseen; when the source fills the block, the first
segment of the chain of queues makes its read; the release is the write of what was read. `Stage`
says how far the two first segments can be apart.

An empty block that is released in mid-stream would put what follows out of the reader's sight, so
the source has to give at least one byte with every read but the one that reports completion. The
empty block of that last read is never passed by a reader (`Mode.ended`).
-/

set_option autoImplicit false

namespace Bingewatch.Stream

open Foundation Machine Buffer

/-! ## How far the two are apart -/

/-- How the first ring stands to its queue: in order, with an acquired block, or with nothing more
to come. -/
inductive Mode where
  | free
  | held (b : Nat) (data : List UInt8)
  | ended

/-- What holds of the first ring in each mode. -/
def Mode.Fits : Mode → Ring → ByteQueue → Prop
  | .free => Simulates
  | .held b data => fun r q => Held r q b data
  | .ended => Drains

/-- What holds of all rings: those behind the first are always in order. -/
def Mode.Matched (mode : Mode) : Nat → Ring → ByteQueue → Prop
  | 0 => mode.Fits
  | _ + 1 => Simulates

theorem Mode.matched_behind (mode mode' : Mode) (j : Nat) (behind : j ≠ 0) :
    mode.Matched j = mode'.Matched j := by
  cases j with
  | zero => exact absurd rfl behind
  | succ j => rfl

/-- Every call that the segments behind the first make is answered alike. -/
theorem Mode.answering {hosts : Nat → Host} (fits : ∀ i, (hosts i).Fits) (mode : Mode) :
    Answering hosts mode.Matched where
  read := fun {i r b request} related asks => by
    cases i with
    | zero =>
        cases mode with
        | free =>
            obtain ⟨r', call, sim, _⟩ := Simulates.read (hosts 0) related asks
            exact ⟨r', call, sim⟩
        | held b data => exact Held.read (hosts 0) related asks
        | ended => exact Drains.read (hosts 0) related asks
    | succ i =>
        obtain ⟨r', call, sim, _⟩ := Simulates.read (hosts (i + 1)) related asks
        exact ⟨r', call, sim⟩
  write := fun {i r b data} related carries => by
    obtain ⟨r', call, sim, _⟩ := Simulates.write (fits (i + 1)) data related fun _ _ => carries
    exact ⟨r', call, sim⟩
  stop := fun {i r b} related => by
    cases i with
    | zero =>
        cases mode with
        | free => exact Simulates.stop related
        | held b data => exact Held.stop related
        | ended => exact Drains.stop related
    | succ i => exact Simulates.stop related

/-- The source segment has nothing more to write. -/
def SegmentLoop.closing (loop : SegmentLoop) : Bool :=
  match loop.pc with
  | .top => loop.doComplete
  | .complete => true
  | _ => loop.leaving || loop.pc == .stopIn

/-- Where the source segment stands, the segment beside it in the chain of queues, and how far they
are apart: that segment reads only when the block is filled, and when there is nothing to write it
is back at the top of its loop while the block is still to be released. -/
inductive Stage : Option Nat → SegmentLoop → SegmentLoop → Mode → Nat → Prop where
  | outside {l : SegmentLoop} (idle : l.pc ≠ .write) : Stage none l l .free 0
  | acquired {l : SegmentLoop} {b : Nat} (pc : l.pc = .read) : Stage (some b) l l (.held b []) 0
  | filled {l : SegmentLoop} {b : Nat} (pc : l.pc = .write) (carries : l.chunk ≠ []) :
      Stage (some b) l l (.held b l.chunk) 0
  | nothing {l : SegmentLoop} {b : Nat} (pc : l.pc = .write) (empty : l.chunk = [])
      (ends : l.doComplete = true) : Stage (some b) l { l with pc := .top } (.held b []) 1
  | ended {l : SegmentLoop} (closing : l.closing = true) : Stage none l l .ended 0

theorem Stage.le_one {block : Option Nat} {l l' : SegmentLoop} {mode : Mode} {k : Nat}
    (stage : Stage block l l' mode k) : k ≤ 1 := by
  cases stage with
  | nothing => exact Nat.le_refl 1
  | _ => exact Nat.zero_le 1

/-- A stream with a source segment and the chain of queues beside it. -/
def Accompanied (s : SourceStream) (q : Pipeline ByteQueue) : Prop :=
  ∃ l l' mode k, s.pipe.loops[0]? = some l ∧ q.loops[0]? = some l' ∧ Stage s.block l l' mode k ∧
    Beside mode.Matched k s.pipe q

/-- Outside its reading and writing the source segment moves as any first segment does. -/
theorem Pipeline.segmentRun_first {β : Type} {chain : Chain β} {p p' : Pipeline β}
    {loop : SegmentLoop} {choice : Choice} (here : p.loops[0]? = some loop)
    (notRead : loop.pc ≠ .read) (notWrite : loop.pc ≠ .write)
    (step : p.segmentRun chain 0 loop choice = some p') :
    ∃ new, p'.loops[0]? = some new ∧ new.pc ≠ .write ∧
      (loop.closing = true → new.closing = true) := by
  have within : 0 < p.loops.length := (List.getElem?_eq_some_iff.mp here).1
  have set : ∀ {p₁ : Pipeline β} {new : SegmentLoop}, p₁.loops = p.loops → new.pc ≠ .write →
      (loop.closing = true → new.closing = true) →
      ∃ l, (p₁.setLoop 0 new).loops[0]? = some l ∧ l.pc ≠ .write ∧
        (loop.closing = true → l.closing = true) := by
    intro p₁ new loops idle closing
    exact ⟨new, by simp [Pipeline.setLoop, loops, within], idle, closing⟩
  have control_set : ∀ {act : Act} {new : SegmentLoop},
      (p.control act).map (fun p => p.setLoop 0 new) = some p' → new.pc ≠ .write →
      (loop.closing = true → new.closing = true) →
      ∃ l, p'.loops[0]? = some l ∧ l.pc ≠ .write ∧ (loop.closing = true → l.closing = true) := by
    intro act new step idle closing
    obtain ⟨p₁, moved, rfl⟩ := Option.map_eq_some_iff.mp step
    obtain ⟨stream, _, rfl⟩ := Option.map_eq_some_iff.mp moved
    exact set rfl idle closing
  unfold Pipeline.segmentRun at step
  cases pc : loop.pc with
  | start =>
      rw [pc] at step
      exact control_set step (by simp) (by simp [SegmentLoop.closing, SegmentLoop.leaving, pc])
  | top =>
      simp only [pc] at step
      split at step
      · cases step
        exact ⟨loop, here, notWrite, id⟩
      · split at step
        · cases step
          exact set rfl (by simp) (by simp [SegmentLoop.closing])
        · next running =>
            have open' : loop.closing = false := by simpa [SegmentLoop.closing, pc] using running
            split at step
            · cases step
              exact set rfl (by simp) (by simp [open'])
            · exact control_set step (by simp) (by simp [open'])
  | read => exact absurd pc notRead
  | write => exact absurd pc notWrite
  | fail =>
      rw [pc] at step
      exact control_set step (by simp) (by simp [SegmentLoop.closing, SegmentLoop.leaving])
  | complete =>
      rw [pc] at step
      exact control_set step (by simp) (by simp [SegmentLoop.closing, SegmentLoop.leaving])
  | stopIn =>
      rw [pc] at step
      cases step
      exact set rfl (by simp) (by simp [SegmentLoop.closing, SegmentLoop.leaving])
  | stopOut =>
      rw [pc] at step
      obtain ⟨p₁, stop, rfl⟩ := Option.map_eq_some_iff.mp step
      exact set (Pipeline.stopMachine_loops stop) (by simp)
        (by simp [SegmentLoop.closing, SegmentLoop.leaving])
  | clear =>
      rw [pc] at step
      exact control_set step (by simp) (by simp [SegmentLoop.closing, SegmentLoop.leaving])
  | leave =>
      rw [pc] at step
      obtain ⟨stream, _, rfl⟩ := Option.map_eq_some_iff.mp step
      exact ⟨loop, here, notWrite, id⟩

section Refinement

variable {hosts : Nat → Host} {buflen : Nat → Nat} {bytes : List UInt8} {n : Nat}

/-- The reads of the chain of queues: that of the source may ask for everything. -/
def abstractLen (buflen : Nat → Nat) (bytes : List UInt8) : Nat → Nat
  | 0 => bytes.length
  | i + 1 => buflen (i + 1)

/-- The chain of queues that accompanies the stream. -/
def abstractStream (buflen : Nat → Nat) (bytes : List UInt8) (n : Nat) :
    System (Pipeline ByteQueue) PipelineAct :=
  pipelineSystem (queueChain (abstractLen buflen bytes)) bytes (List.replicate n {})

/-- A step of a segment in its loop. -/
theorem abstractStream_active {q q' : Pipeline ByteQueue} {i : Nat} {choice : Choice}
    {thread : SegmentThread} {loop : SegmentLoop} (there : q.stream.segments[i]? = some thread)
    (active : thread.pc = .active) (here : q.loops[i]? = some loop)
    (step : q.segmentRun (queueChain (abstractLen buflen bytes)) i loop choice = some q') :
    (abstractStream buflen bytes n).step q (.segment i choice) = some q' := by
  simp only [abstractStream, pipelineSystem, there, Option.bind_some, active, here, step]

theorem abstractLen_behind (bytes : List UInt8) (i : Nat) :
    abstractLen buflen bytes (i + 1) = buflen (i + 1) := rfl

namespace Accompanied

variable {s s' : SourceStream} {q : Pipeline ByteQueue}

/-- A step of the threads of the stream. -/
theorem control (accompanied : Accompanied s q) {act : Act} (step : s.control act = some s') :
    ∃ q', q.control act = some q' ∧ Accompanied s' q' := by
  obtain ⟨l, l', mode, k, here, there, stage, beside⟩ := accompanied
  obtain ⟨p, moved, rfl⟩ := Option.map_eq_some_iff.mp step
  obtain ⟨q', moved', beside'⟩ := beside.control moved
  refine ⟨q', moved', l, l', mode, k, ?_, ?_, stage, beside'⟩
  · obtain ⟨_, _, rfl⟩ := Option.map_eq_some_iff.mp moved
    exact here
  · obtain ⟨_, _, rfl⟩ := Option.map_eq_some_iff.mp moved'
    exact there

/-- A step of a segment behind the first. -/
theorem segmentRun (bytes : List UInt8) (fits : ∀ i, (hosts i).Fits)
    (positive : ∀ i, 0 < buflen (i + 1)) (accompanied : Accompanied s q) {i : Nat}
    {loop : SegmentLoop} {choice : Choice}
    {p : Pipeline Ring}
    (step : s.pipe.segmentRun (ringChain hosts buflen) (i + 1) loop choice = some p) :
    ∃ q', q.segmentRun (queueChain (abstractLen buflen bytes)) (i + 1) loop choice = some q' ∧
      Accompanied { s with pipe := p } q' := by
  obtain ⟨l, l', mode, k, here, there, stage, beside⟩ := accompanied
  obtain ⟨q', step', beside'⟩ := beside.segmentRun (mode.answering fits)
    (abstractLen_behind bytes) positive (fun first => absurd first (by simp)) step
  refine ⟨q', step', l, l', mode, k, ?_, ?_, stage, beside'⟩
  · rw [Pipeline.segmentRun_elsewhere (by simp) step, here]
  · rw [Pipeline.segmentRun_elsewhere (by simp) step', there]

/-- A step in which the source segment moves as any first segment does. -/
theorem segmentRun_first (bytes : List UInt8) (fits : ∀ i, (hosts i).Fits)
    (positive : ∀ i, 0 < buflen (i + 1)) {l : SegmentLoop} {mode : Mode} {choice : Choice}
    {p : Pipeline Ring}
    (here : s.pipe.loops[0]? = some l) (beside : Beside mode.Matched 0 s.pipe q)
    (notRead : l.pc ≠ .read) (notWrite : l.pc ≠ .write)
    (stays : ∀ new : SegmentLoop, new.pc ≠ .write →
      (l.closing = true → new.closing = true) → Stage s.block new new mode 0)
    (step : s.pipe.segmentRun (ringChain hosts buflen) 0 l choice = some p) :
    ∃ q', q.segmentRun (queueChain (abstractLen buflen bytes)) 0 l choice = some q' ∧
      Accompanied { s with pipe := p } q' := by
  obtain ⟨q', step', beside'⟩ := beside.segmentRun (mode.answering fits)
    (abstractLen_behind bytes) positive (fun _ => ⟨notRead, notWrite⟩) step
  obtain ⟨new, found, idle, closing⟩ := Pipeline.segmentRun_first here notRead notWrite step
  refine ⟨q', step', new, new, mode, 0, found, ?_, stays new idle closing, beside'⟩
  rw [← beside'.loops 0 (Nat.le_refl 0), found]

/-- The source segment acquires a block. The chain of queues does not see it. -/
theorem acquireBlock (fits : ∀ i, (hosts i).Fits) {l : SegmentLoop} {r : Ring} (initBytes : Nat)
    (here : s.pipe.loops[0]? = some l) (pc : l.pc = .read) (found : s.pipe.buffers[0]? = some r)
    (beside : Beside Mode.free.Matched 0 s.pipe q) :
    Accompanied (s.acquireBlock (hosts 0) initBytes r l) q := by
  obtain ⟨b, there, sim⟩ := beside.buffer found
  have sim : Simulates r b := sim
  rcases acquired : rbAcquireWriteBlock (hosts 0) r initBytes with ⟨r', status, block⟩
  obtain ⟨rfl, w, rfl, held⟩ := sim.acquire (fits 0) acquired
  have result : s.acquireBlock (hosts 0) initBytes r l =
      { pipe := { s.pipe with buffers := s.pipe.buffers.set 0 r' }, block := some w } := by
    simp [SourceStream.acquireBlock, acquired, IoStatus.isError]
  have held : (Mode.held w []).Matched 0 r' b := held
  rw [result]
  exact ⟨l, l, .held w [], 0, here, (beside.loops 0 (Nat.le_refl 0)).symm.trans here,
    .acquired pc, beside.setRing there held (Mode.matched_behind _ _)⟩

/-- Both segments have new variables. -/
theorem goto {mode : Mode} {k k' : Nat} {p : Pipeline Ring} {q' : Pipeline ByteQueue}
    {l l' : SegmentLoop} {block : Option Nat} (beside : Beside mode.Matched k p q')
    (some : 0 < p.loops.length) (behind : k ≤ 1) (same : k' = 0 → l = l')
    (stage : Stage block l l' mode k') :
    Accompanied { pipe := p.setLoop 0 l, block := block } (q'.setLoop 0 l') := by
  have some' : 0 < q'.loops.length := beside.count ▸ some
  refine ⟨l, l', mode, k', by simp [Pipeline.setLoop, some], by simp [Pipeline.setLoop, some'],
    stage, ⟨beside.stream, by simp [Pipeline.setLoop, beside.count], fun i later => ?_,
      beside.source, beside.sink, beside.places, beside.related⟩⟩
  cases i with
  | zero => simp [Pipeline.setLoop, some, some', same (Nat.le_zero.mp later)]
  | succ i =>
      simp only [Pipeline.setLoop, ne_eq, Nat.zero_ne_add_one, not_false_eq_true,
        List.getElem?_set_ne]
      exact beside.loops (i + 1) (by omega)

/-- The read that the chain of queues makes of its source. -/
theorem segmentRun_read {l : SegmentLoop} {choice : Choice} (pc : l.pc = .read)
    (asked : choice.size ≤ bytes.length) (given : choice.size ≤ q.source.length ∧
      (choice.complete = true → choice.size = q.source.length)) :
    q.segmentRun (queueChain (abstractLen buflen bytes)) 0 l choice =
      some (Pipeline.setLoop { q with source := q.source.drop choice.size } 0
        { l with
          doComplete := l.doComplete || choice.complete
          chunk := q.source.take choice.size
          pc := if q.source.take choice.size = [] then .top else .write }) := by
  have read : q.readInput (queueChain (abstractLen buflen bytes)) 0 choice =
      some ({ q with source := q.source.drop choice.size },
        if choice.complete then .complete else .success, q.source.take choice.size) :=
    if_pos ⟨asked, given⟩
  have status :
      (if choice.complete = true then IoStatus.complete else .success).isError = false := by
    cases choice.complete <;> rfl
  have complete : ((if choice.complete = true then IoStatus.complete else .success) ==
      IoStatus.complete) = choice.complete := by
    cases choice.complete <;> rfl
  simp only [Pipeline.segmentRun, pc, read, Option.map_some, SegmentLoop.afterRead, status,
    complete, Bool.false_eq_true, if_false]

/-- The source fills the acquired block. The chain of queues makes its read. -/
theorem readBlock (buflen : Nat → Nat) (inv : Delivering bytes q) {l : SegmentLoop} {r : Ring}
    {w : Nat}
    {choice : Choice} (here : s.pipe.loops[0]? = some l) (pc : l.pc = .read)
    (found : s.pipe.buffers[0]? = some r) (block : s.block = some w)
    (beside : Beside (Mode.held w []).Matched 0 s.pipe q)
    (gives : 0 < choice.size ∨ choice.complete = true)
    (step : s.readBlock r w l choice = some s') :
    ∃ q', q.segmentRun (queueChain (abstractLen buflen bytes)) 0 l choice = some q' ∧
      Accompanied s' q' := by
  obtain ⟨b, there, held⟩ := beside.buffer found
  have held : Held r b w [] := held
  have known : q.source.length ≤ bytes.length := by
    rw [← inv.whole]
    exact (suffix_flow q.cell _).length_le
  have within : 0 < s.pipe.loops.length := (List.getElem?_eq_some_iff.mp here).1
  simp only [SourceStream.readBlock, beside.source, block] at step
  split at step
  · next given =>
      cases step
      refine ⟨_, segmentRun_read pc (Nat.le_trans given.2.1 known) given.2, ?_⟩
      have length : (q.source.take choice.size).length = choice.size :=
        List.length_take_of_le given.2.1
      generalize q.source.take choice.size = data at length
      have filled := held.store data (by rw [length]; exact given.1)
      have moved : Beside (Mode.held w []).Matched 0
          { s.pipe with source := q.source.drop choice.size }
          { q with source := q.source.drop choice.size } :=
        ⟨beside.stream, beside.count, beside.loops, rfl, beside.sink, beside.places,
          beside.related⟩
      have filled : (Mode.held w data).Matched 0
          { r with mem := r.mem.modify w (storeData data) } b := filled
      have stored := moved.setRing there filled (Mode.matched_behind _ _)
      by_cases nothing : data = []
      · subst nothing
        have complete : choice.complete = true := by
          refine gives.resolve_left fun some => ?_
          simp at length
          omega
        let new : SegmentLoop :=
          { pc := .write, doComplete := l.doComplete || choice.complete, chunk := [] }
        have stage : Stage (some w) new { new with pc := .top } (.held w []) 1 :=
          .nothing rfl rfl (by simp [new, complete])
        rw [if_pos rfl]
        exact goto stored within (Nat.zero_le 1) (by simp) stage
      · rw [if_neg nothing]
        exact goto stored within (Nat.zero_le 1) (fun _ => rfl) (.filled rfl nothing)
  · cases step

/-- The source segment releases a block with bytes. The chain of queues writes them and finds
nothing left to write. -/
theorem releaseBlock (fits : ∀ i, (hosts i).Fits) (inv : Delivering bytes q ∧ StoppedLast q)
    {l : SegmentLoop} {r : Ring} {w : Nat} (choice : Choice) {thread : SegmentThread}
    (here : s.pipe.loops[0]? = some l) (pc : l.pc = .write) (carries : l.chunk ≠ [])
    (found : s.pipe.buffers[0]? = some r) (there : q.stream.segments[0]? = some thread)
    (active : thread.pc = .active) (beside : Beside (Mode.held w l.chunk).Matched 0 s.pipe q) :
    (abstractStream buflen bytes n).Follows q (Accompanied (s.releaseBlock (hosts 0) r l)) := by
  obtain ⟨b, queue, held⟩ := beside.buffer found
  have held : Held r b w l.chunk := held
  have first : q.loops[0]? = some l := (beside.loops 0 (Nat.le_refl 0)).symm.trans here
  have within : 0 < s.pipe.loops.length := (List.getElem?_eq_some_iff.mp here).1
  have within' : 0 < q.loops.length := (List.getElem?_eq_some_iff.mp first).1
  have running : b.stopped = false := by
    by_contra stopped
    have leaving := inv.2 0 b l queue (by simpa using stopped) first
    simp [SegmentLoop.leaving, pc] at leaving
  have sim := held.release (fits 0) carries running
  obtain ⟨x, rest, chunk⟩ := List.exists_cons_of_ne_nil carries
  -- The queue takes the whole chunk.
  let taken : ByteQueue := { b with content := b.content ++ l.chunk }
  have answer : b.call (.write l.chunk) = (taken, .wrote .success l.chunk.length) := by
    simp [ByteQueue.call, running, taken]
  let q₁ := Pipeline.setLoop { q with buffers := q.buffers.set 0 taken } 0 { l with chunk := [] }
  have write : q.segmentRun (queueChain (abstractLen buflen bytes)) 0 l choice = some q₁ := by
    have wrote : q.writeOutput (queueChain (abstractLen buflen bytes)) 0 l.chunk choice =
        some ({ q with buffers := q.buffers.set 0 taken }, .success, l.chunk.length) := by
      simp [Pipeline.writeOutput, queue, Pipeline.callBuffer, queueChain, answer]
    rw [chunk] at wrote
    simp [Pipeline.segmentRun, pc, chunk, wrote, SegmentLoop.afterWrite, writePass, q₁]
  have back : q₁.segmentRun (queueChain (abstractLen buflen bytes)) 0 { l with chunk := [] }
      choice = some (q₁.setLoop 0 { l with chunk := [], pc := .top }) := by
    simp [Pipeline.segmentRun, pc]
  have first' : q₁.loops[0]? = some { l with chunk := [] } := by
    simp [q₁, Pipeline.setLoop, within']
  refine .step (abstractStream_active there active first write)
    (.one (abstractStream_active there active first' back) ?_)
  have again : q₁.setLoop 0 { l with chunk := [], pc := .top } =
      Pipeline.setLoop { q with buffers := q.buffers.set 0 taken } 0
        { l with chunk := [], pc := .top } := by
    simp [q₁, Pipeline.setLoop]
  rw [again]
  rw [answer] at sim
  have sim : Mode.free.Matched 0 (rbReleaseWriteBlock (hosts 0) r l.chunk.length) taken := sim
  exact goto (beside.setBuffer sim (Mode.matched_behind _ _)) within (Nat.zero_le 1)
    (fun _ => rfl) (.outside (by simp))

/-- The source segment releases an empty block. The chain of queues is past that. -/
theorem releaseNothing (fits : ∀ i, (hosts i).Fits) {l : SegmentLoop} {r : Ring} {w : Nat}
    (here : s.pipe.loops[0]? = some l) (first : q.loops[0]? = some { l with pc := .top })
    (empty : l.chunk = []) (ends : l.doComplete = true) (found : s.pipe.buffers[0]? = some r)
    (beside : Beside (Mode.held w []).Matched 1 s.pipe q) :
    Accompanied (s.releaseBlock (hosts 0) r l) q := by
  obtain ⟨b, queue, held⟩ := beside.buffer found
  have held : Held r b w [] := held
  have within : 0 < s.pipe.loops.length := (List.getElem?_eq_some_iff.mp here).1
  have drains : Mode.ended.Matched 0 (rbReleaseWriteBlock (hosts 0) r l.chunk.length) b := by
    rw [empty]
    exact held.release_nothing (fits 0)
  have unchanged : q.setLoop 0 { l with chunk := [], pc := .top } = q := by
    obtain ⟨inside, same⟩ := List.getElem?_eq_some_iff.mp first
    rw [Pipeline.setLoop, ← empty, ← same, List.set_getElem_self]
  rw [← unchanged]
  exact goto (beside.setRing queue drains (Mode.matched_behind _ _)) within (Nat.le_refl 1)
    (fun _ => rfl) (.ended (by simp [SegmentLoop.closing, ends]))

/-- A step of `segment_run_source`. -/
theorem segmentRunSource (fits : ∀ i, (hosts i).Fits) (positive : ∀ i, 0 < buflen (i + 1))
    (inv : Delivering bytes q ∧ StoppedLast q) (accompanied : Accompanied s q) {l : SegmentLoop}
    {choice : Choice} {thread : SegmentThread} (here : s.pipe.loops[0]? = some l)
    (there : q.stream.segments[0]? = some thread) (active : thread.pc = .active)
    (gives : 0 < choice.size ∨ choice.complete = true)
    (step : s.segmentRunSource hosts buflen l choice = some s') :
    (abstractStream buflen bytes n).Follows q (Accompanied s') := by
  obtain ⟨l₀, l', mode, k, here₀, first, stage, beside⟩ := accompanied
  obtain rfl : l = l₀ := Option.some.inj (here.symm.trans here₀)
  have one : ∀ {q' : Pipeline ByteQueue} {s' : SourceStream}, q.loops[0]? = some l →
      q.segmentRun (queueChain (abstractLen buflen bytes)) 0 l choice = some q' →
      Accompanied s' q' → (abstractStream buflen bytes n).Follows q (Accompanied s') :=
    fun first moved accompanied =>
      .one (abstractStream_active there active first moved) accompanied
  generalize blockEq : s.block = block at stage
  unfold SourceStream.segmentRunSource at step
  cases stage with
  | outside idle =>
      cases pc : l.pc with
      | read =>
          simp only [pc, blockEq] at step
          obtain ⟨r, found, step⟩ := Option.bind_eq_some_iff.mp step
          cases step
          exact .stay (acquireBlock fits (buflen 0) here pc found beside)
      | write => exact absurd pc idle
      | _ =>
          simp only [pc] at step
          obtain ⟨p, moved, rfl⟩ := Option.map_eq_some_iff.mp step
          obtain ⟨q', moved', accompanied⟩ := segmentRun_first bytes fits positive here
            beside (by simp [pc]) idle (fun new idle _ => blockEq ▸ .outside idle) moved
          exact one first moved' accompanied
  | acquired pc =>
      simp only [pc, blockEq] at step
      obtain ⟨r, found, step⟩ := Option.bind_eq_some_iff.mp step
      obtain ⟨q', moved', accompanied⟩ := readBlock buflen inv.1 here pc found blockEq
        beside gives step
      exact one first moved' accompanied
  | filled pc carries =>
      simp only [pc] at step
      obtain ⟨r, found, rfl⟩ := Option.map_eq_some_iff.mp step
      exact releaseBlock fits inv choice here pc carries found there active beside
  | nothing pc empty ends =>
      simp only [pc] at step
      obtain ⟨r, found, rfl⟩ := Option.map_eq_some_iff.mp step
      exact .stay (releaseNothing fits here first empty ends found beside)
  | ended closing =>
      cases pc : l.pc with
      | read => simp [SegmentLoop.closing, SegmentLoop.leaving, pc] at closing
      | write => simp [SegmentLoop.closing, SegmentLoop.leaving, pc] at closing
      | _ =>
          simp only [pc] at step
          obtain ⟨p, moved, rfl⟩ := Option.map_eq_some_iff.mp step
          obtain ⟨q', moved', accompanied⟩ := segmentRun_first bytes fits positive here
            beside (by simp [pc]) (by simp [pc])
            (fun new _ closes => blockEq ▸ .ended (closes closing)) moved
          exact one first moved' accompanied

end Accompanied

/-- **Every run of a stream with a source segment is followed by a run of the chain of queues**, as
long as the source gives something with every read but its last. -/
theorem source_stream_refines (fits : ∀ i, (hosts i).Fits) (positive : ∀ i, 0 < buflen (i + 1))
    {aligns : List Nat} (aligned : ∀ align ∈ aligns, 0 < align) {s : SourceStream}
    (reached : (sourceStream hosts buflen bytes (newRings aligns)).ReachUnder Gives s) :
    ∃ q, (abstractStream buflen bytes aligns.length).Reach q ∧ Accompanied s q := by
  refine reached.refines (fun s start => ?_) fun s act s' q reach accompanied gives step => ?_
  · subst start
    refine ⟨_, rfl, {}, {}, .free, 0, by simp [newRings], by simp, .outside (by simp), ?_⟩
    refine ⟨by simp [newRings], by simp [newRings], by simp [newRings], rfl, rfl,
      by simp [newRings], fun i r b here there => ?_⟩
    obtain ⟨align, member, rfl⟩ : ∃ align ∈ aligns,
        { createBuffer with blockAlign := align } = r := by
      have placed : r ∈ newRings aligns := List.mem_of_getElem? here
      simpa [newRings] using placed
    have empty : b ∈ List.replicate aligns.length ({} : ByteQueue) := List.mem_of_getElem? there
    obtain rfl : b = {} := List.eq_of_mem_replicate empty
    have sim : Simulates { createBuffer with blockAlign := align } {} :=
      simulates_start (aligned align member)
    cases i <;> exact sim
  · have inv := delivering_reach reach
    have stream : s.pipe.stream = q.stream := by
      obtain ⟨_, _, _, _, _, _, _, beside⟩ := accompanied
      exact beside.stream
    cases act with
    | main =>
        obtain ⟨q', moved, accompanied'⟩ := accompanied.control step
        exact .one (b := .main) moved accompanied'
    | segment i choice =>
        obtain ⟨thread, there, step⟩ := Option.bind_eq_some_iff.mp step
        have there' : q.stream.segments[i]? = some thread := stream ▸ there
        cases pc : thread.pc with
        | active =>
            rw [pc] at step
            obtain ⟨loop, here, step⟩ := Option.bind_eq_some_iff.mp step
            cases i with
            | zero =>
                exact accompanied.segmentRunSource fits positive inv here there' pc gives step
            | succ i =>
                obtain ⟨p, moved, rfl⟩ := Option.map_eq_some_iff.mp step
                obtain ⟨q', moved', accompanied'⟩ :=
                  accompanied.segmentRun bytes fits positive moved
                have here' : q.loops[i + 1]? = some loop := by
                  obtain ⟨_, _, _, k, _, _, stage, beside⟩ := accompanied
                  have near := stage.le_one
                  rw [← beside.loops (i + 1) (by omega), here]
                exact .one (abstractStream_active there' pc here' moved') accompanied'
        | _ =>
            rw [pc] at step
            obtain ⟨q', moved, accompanied'⟩ := accompanied.control step
            have step' : (abstractStream buflen bytes aligns.length).step q (.segment i choice) =
                some q' := by
              simpa only [abstractStream, pipelineSystem, there', Option.bind_some, pc] using moved
            exact .one step' accompanied'

end Refinement

/-- **A stream with a source segment delivers its source.** With new ring buffers whose allocations
succeed, and a source each of whose reads gives at least one byte or reports completion: whatever
the sizes of these reads and in whatever order the threads move, the sink holds a prefix of the
bytes of the source, all of them once every segment has left its loop, and every segment has left
when the stream is about to be set to `STOPPED`. -/
theorem source_stream_delivers (hosts : Nat → Host) (fits : ∀ i, (hosts i).Fits)
    (aligns : List Nat) (aligned : ∀ align ∈ aligns, 0 < align) (buflen : Nat → Nat)
    (positive : ∀ i, 0 < buflen (i + 1)) (bytes : List UInt8) (s : SourceStream)
    (reached : (sourceStream hosts buflen bytes (newRings aligns)).ReachUnder Gives s) :
    s.pipe.sink <+: bytes ∧
      (s.pipe.stream.main = .setStopped → s.block = none ∧ s.pipe.AllLeft ∧
        s.pipe.sink = bytes) := by
  obtain ⟨q, reach, l, l', mode, k, here, first, stage, beside⟩ :=
    source_stream_refines fits positive aligned reached
  have inv := (delivering_reach reach).1
  refine ⟨beside.sink ▸ inv.sink_prefix, fun last => ?_⟩
  have left := inv.allLeft (beside.stream ▸ last)
  have gone : l'.pc = .leave := left l' (List.mem_of_getElem? first)
  have together : s.block = none ∧ k = 0 := by
    generalize s.block = block at stage
    cases stage with
    | outside _ => exact ⟨rfl, rfl⟩
    | acquired pc => cases pc.symm.trans gone
    | filled pc _ => cases pc.symm.trans gone
    | nothing _ _ _ => cases gone
    | ended _ => exact ⟨rfl, rfl⟩
  obtain ⟨free, rfl⟩ := together
  refine ⟨free, fun loop member => ?_, beside.sink.trans (inv.sink_eq left)⟩
  obtain ⟨i, found⟩ := List.getElem?_of_mem member
  exact left loop (List.mem_of_getElem? ((beside.loops i (Nat.zero_le i)).symm.trans found))

/-- A source segment that reads two bytes and completes, and a second segment that drains the ring
behind it. -/
theorem source_stream_delivers_pair :
    ∃ s, (sourceStream (fun _ => roomyHost) (fun _ => 4) [7, 8] (newRings [1])).ReachUnder Gives s ∧
      s.pipe.stream.main = .setStopped ∧ s.block = none ∧ s.pipe.AllLeft ∧
      s.pipe.sink = [7, 8] := by
  let stream := sourceStream (fun _ => roomyHost) (fun _ => 4) [7, 8] (newRings [1])
  let start : SourceStream :=
    { pipe :=
        { stream := { segments := [{}, {}], stops := [] }
          loops := [{}, {}]
          source := [7, 8]
          buffers := newRings [1] } }
  let all : Choice := { size := 2, complete := true }
  let acts := List.replicate 5 PipelineAct.main ++ List.replicate 14 (PipelineAct.segment 0 all) ++
    List.replicate 15 (PipelineAct.segment 1 all) ++ List.replicate 8 PipelineAct.main
  have ends : (stream.execUnder Gives start acts).map (·.pipe.stream.main) = some .setStopped := by
    decide +kernel
  obtain ⟨s, run, last⟩ := Option.map_eq_some_iff.mp ends
  have reached : stream.ReachUnder Gives s := .execUnder (.start rfl) run
  exact ⟨s, reached, last, (source_stream_delivers (fun _ => roomyHost) (fun _ => roomyHost_fits)
    [1] (by simp) (fun _ => 4) (by simp) [7, 8] s reached).2 last⟩

end Bingewatch.Stream
