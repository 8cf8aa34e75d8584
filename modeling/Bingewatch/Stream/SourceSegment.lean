import Bingewatch.Buffer.RingHeld
import Bingewatch.Stream.Delivery

/-!
# A stream that begins with a source segment

`io_stream_add_src_segment` puts a ring buffer of its own behind the source. The first segment runs
`segment_run_source`, which has no buffer: it acquires the block at the write position of that ring,
lets the source store its bytes there, and releases the block, while the second segment may read
from the ring between any two of these steps. The other segments run `segment_run`.

Two chains whose buffers answer alike run alike (`Beside.segmentRun`), and in a chain of byte queues
a buffer is stopped only by the segment that writes to it (`StoppedLast`).
-/

set_option autoImplicit false

namespace Bingewatch.Stream

open Foundation Machine Buffer

/-! ## The source segment -/

/-- A stream whose first segment is a source segment, and the block this segment has acquired. -/
structure SourceStream where
  pipe : Pipeline Ring
  block : Option Nat := none

namespace SourceStream

/-- `rb_acquire_write_block` in `segment_run_source`. Without a block the loop begins again. -/
def acquireBlock (host : Host) (initBytes : Nat) (s : SourceStream) (r : Ring)
    (loop : SegmentLoop) : SourceStream :=
  let (r, status, block) := rbAcquireWriteBlock host r initBytes
  let pipe := { s.pipe with buffers := s.pipe.buffers.set 0 r }
  if status.isError then { pipe := pipe.setLoop 0 { loop with pc := .fail } }
  else
    match block with
    | none => { pipe := pipe.setLoop 0 { loop with pc := .top } }
    | some b => { pipe := pipe, block := some b }

/-- `read_from_source` into the block `b`, whose size is the length of the request. The source gives
its next bytes, and reports completion only with the last of them. -/
def readBlock (s : SourceStream) (r : Ring) (b : Nat) (loop : SegmentLoop) (choice : Choice) :
    Option SourceStream :=
  if choice.size ≤ r.mem.size b ∧ choice.size ≤ s.pipe.source.length ∧
      (choice.complete = true → choice.size = s.pipe.source.length) then
    let data := s.pipe.source.take choice.size
    let pipe :=
      { s.pipe with
        source := s.pipe.source.drop choice.size
        buffers := s.pipe.buffers.set 0 { r with mem := r.mem.modify b (storeData data) } }
    some
      { s with
        pipe := pipe.setLoop 0
          { loop with doComplete := loop.doComplete || choice.complete, chunk := data
                      pc := .write } }
  else none

/-- `rb_release_write_block` in `segment_run_source`, with the count of the bytes read. -/
def releaseBlock (host : Host) (s : SourceStream) (r : Ring) (loop : SegmentLoop) : SourceStream :=
  let r := rbReleaseWriteBlock host r loop.chunk.length
  let pipe := { s.pipe with buffers := s.pipe.buffers.set 0 r }
  { pipe := pipe.setLoop 0 { loop with chunk := [], pc := .top } }

/-- A step of `segment_run_source`. Its loop begins and ends like that of `segment_run`. -/
def segmentRunSource (hosts : Nat → Host) (buflen : Nat → Nat) (s : SourceStream)
    (loop : SegmentLoop) (choice : Choice) : Option SourceStream :=
  match loop.pc with
  | .read =>
      s.pipe.buffers[0]?.bind fun r =>
        match s.block with
        | none => some (s.acquireBlock (hosts 0) (buflen 0) r loop)
        | some b => s.readBlock r b loop choice
  | .write => s.pipe.buffers[0]?.map fun r => s.releaseBlock (hosts 0) r loop
  | _ =>
      (s.pipe.segmentRun (ringChain hosts buflen) 0 loop choice).map fun pipe =>
        { s with pipe := pipe }

/-- A step of the threads of the stream. -/
def control (s : SourceStream) (act : Act) : Option SourceStream :=
  (s.pipe.control act).map fun pipe => { s with pipe := pipe }

end SourceStream

/-- The stream with its threads, from the bytes in the source and the ring buffers it is given. -/
def sourceStream (hosts : Nat → Host) (buflen : Nat → Nat) (bytes : List UInt8)
    (rings : List Ring) : System SourceStream PipelineAct where
  start := fun s => s =
    { pipe :=
        { stream := { segments := List.replicate (rings.length + 1) {}, stops := [] }
          loops := List.replicate (rings.length + 1) {}
          source := bytes
          buffers := rings } }
  step := fun s act =>
    match act with
    | .main => s.control .main
    | .segment i choice =>
        s.pipe.stream.segments[i]?.bind fun thread =>
          match thread.pc with
          | .active =>
              s.pipe.loops[i]?.bind fun loop =>
                match i with
                | 0 => s.segmentRunSource hosts buflen loop choice
                | i + 1 =>
                    (s.pipe.segmentRun (ringChain hosts buflen) (i + 1) loop choice).map
                      fun pipe => { s with pipe := pipe }
          | _ => s.control (.segment i .go)

/-- The source gives at least one byte unless it reports completion. -/
def Gives (_ : SourceStream) : PipelineAct → Prop
  | .segment 0 choice => 0 < choice.size ∨ choice.complete = true
  | _ => True

instance (s : SourceStream) (act : PipelineAct) : Decidable (Gives s act) := by
  unfold Gives
  split <;> infer_instance

/-! ## Chains whose buffers answer alike -/

/-- How the rings of a chain stand to the queues in their places, such that each call a segment
makes is answered alike. The segment that writes to the first ring is not one of those meant
here. -/
structure Answering (hosts : Nat → Host) (S : Nat → Ring → ByteQueue → Prop) : Prop where
  read : ∀ {i r b request}, S i r b → 0 < request →
    ∃ r', r.call (hosts i) (.read request) = some (r', (b.call (.read request)).2) ∧
      S i r' (b.call (.read request)).1
  write : ∀ {i r b data}, S (i + 1) r b → data ≠ [] →
    ∃ r', r.call (hosts (i + 1)) (.write data) = some (r', (b.call (.write data)).2) ∧
      S (i + 1) r' (b.call (.write data)).1
  stop : ∀ {i r b}, S i r b → S i (stopBuffer r) (b.call .stop).1

/-- Two chains at work stand beside each other: their buffers are related by `S`, and from the
`k`-th on their segments are at the same place. -/
structure Beside (S : Nat → Ring → ByteQueue → Prop) (k : Nat) (p : Pipeline Ring)
    (q : Pipeline ByteQueue) : Prop where
  stream : p.stream = q.stream
  count : p.loops.length = q.loops.length
  loops : ∀ i, k ≤ i → p.loops[i]? = q.loops[i]?
  source : p.source = q.source
  sink : p.sink = q.sink
  places : p.buffers.length = q.buffers.length
  related : ∀ (i : Nat) (r : Ring) (b : ByteQueue), p.buffers[i]? = some r →
    q.buffers[i]? = some b → S i r b

namespace Beside

variable {hosts : Nat → Host} {buflen : Nat → Nat} {S : Nat → Ring → ByteQueue → Prop}
  {k i : Nat} {p p' : Pipeline Ring} {q : Pipeline ByteQueue}

theorem control (beside : Beside S k p q) {act : Act} (step : p.control act = some p') :
    ∃ q', q.control act = some q' ∧ Beside S k p' q' := by
  obtain ⟨stream, moved, rfl⟩ := Option.map_eq_some_iff.mp step
  refine ⟨{ q with stream := stream }, ?_, ?_⟩
  · rw [Pipeline.control, ← beside.stream, moved, Option.map_some]
  · exact ⟨rfl, beside.count, beside.loops, beside.source, beside.sink, beside.places,
      beside.related⟩

/-- Both chains give the `i`-th segment the same variables. -/
theorem setLoop (beside : Beside S k p q) (i : Nat) (loop : SegmentLoop) :
    Beside S k (p.setLoop i loop) (q.setLoop i loop) where
  stream := beside.stream
  count := by simp [Pipeline.setLoop, beside.count]
  loops := fun j later => by
    simp [Pipeline.setLoop, List.getElem?_set, beside.loops j later, beside.count]
  source := beside.source
  sink := beside.sink
  places := beside.places
  related := beside.related

/-- The buffers of the two chains stand in the same places. -/
theorem buffer (beside : Beside S k p q) {r : Ring} (here : p.buffers[i]? = some r) :
    ∃ b, q.buffers[i]? = some b ∧ S i r b := by
  have within : i < q.buffers.length := by
    rw [← beside.places]
    exact (List.getElem?_eq_some_iff.mp here).1
  obtain ⟨b, there⟩ : ∃ b, q.buffers[i]? = some b := ⟨_, List.getElem?_eq_getElem within⟩
  exact ⟨b, there, beside.related i r b here there⟩

theorem no_buffer (beside : Beside S k p q) (here : p.buffers[i]? = none) :
    q.buffers[i]? = none := by
  rw [List.getElem?_eq_none_iff] at here ⊢
  rw [← beside.places]
  exact here

/-- New buffers in one place, and perhaps another relation there. -/
theorem setBuffer {S' : Nat → Ring → ByteQueue → Prop} (beside : Beside S k p q) {r : Ring}
    {b : ByteQueue} (here : S' i r b) (elsewhere : ∀ j, j ≠ i → S' j = S j) :
    Beside S' k { p with buffers := p.buffers.set i r }
      { q with buffers := q.buffers.set i b } where
  stream := beside.stream
  count := beside.count
  loops := beside.loops
  source := beside.source
  sink := beside.sink
  places := by simp [beside.places]
  related := fun j r' b' hereR thereB => by
    by_cases same : j = i
    · subst same
      obtain rfl : r' = r := by grind
      obtain rfl : b' = b := by grind
      exact here
    · rw [elsewhere j same]
      exact beside.related j r' b' (by grind) (by grind)

/-- A new ring in one place. -/
theorem setRing {S' : Nat → Ring → ByteQueue → Prop} (beside : Beside S k p q) {r : Ring}
    {b : ByteQueue} (there : q.buffers[i]? = some b) (here : S' i r b)
    (elsewhere : ∀ j, j ≠ i → S' j = S j) :
    Beside S' k { p with buffers := p.buffers.set i r } q := by
  have unchanged : ({ q with buffers := q.buffers.set i b } : Pipeline ByteQueue) = q := by
    obtain ⟨within, rfl⟩ := List.getElem?_eq_some_iff.mp there
    rw [List.set_getElem_self]
  have moved := beside.setBuffer here elsewhere
  rw [unchanged] at moved
  exact moved

/-- A call on a ring answers as the call on the queue in its place. -/
theorem callBuffer (beside : Beside S k p q) (buflen' : Nat → Nat) {r : Ring} {b : ByteQueue}
    {request : Call}
    {answer : Answer}
    (answers : ∃ r', r.call (hosts i) request = some (r', (b.call request).2) ∧
      S i r' (b.call request).1)
    (call : p.callBuffer (ringChain hosts buflen) i r request = some (p', answer)) :
    ∃ q', q.callBuffer (queueChain buflen') i b request = some (q', answer) ∧
      Beside S k p' q' := by
  obtain ⟨r', called, related⟩ := answers
  have made : { p with buffers := p.buffers.set i r' } = p' ∧ (b.call request).2 = answer := by
    simpa [Pipeline.callBuffer, ringChain, called] using call
  obtain ⟨rfl, rfl⟩ := made
  exact ⟨_, rfl, beside.setBuffer related fun _ _ => rfl⟩

/-- A segment behind the first reads from its buffer. -/
theorem readInput (answering : Answering hosts S) (beside : Beside S k p q)
    {buflen' : Nat → Nat} (same : buflen' (i + 1) = buflen (i + 1))
    (positive : 0 < buflen (i + 1)) {choice : Choice}
    {status : IoStatus} {out : List UInt8}
    (read : p.readInput (ringChain hosts buflen) (i + 1) choice = some (p', status, out)) :
    ∃ q', q.readInput (queueChain buflen') (i + 1) choice = some (q', status, out) ∧
      Beside S k p' q' := by
  obtain ⟨r, here, read⟩ := Option.bind_eq_some_iff.mp read
  obtain ⟨b, there, related⟩ := beside.buffer here
  obtain ⟨⟨p'', answer⟩, call, read⟩ := Option.bind_eq_some_iff.mp read
  obtain ⟨q', call', beside'⟩ :=
    beside.callBuffer buflen' (answering.read related positive) call
  cases answer with
  | got status' out' =>
      simp only [Option.some.injEq, Prod.mk.injEq] at read
      obtain ⟨rfl, rfl, rfl⟩ := read
      refine ⟨q', ?_, beside'⟩
      simp only [Pipeline.readInput, there, Option.bind_some]
      show (q.callBuffer (queueChain buflen') i b (.read (buflen' (i + 1)))).bind _ = _
      rw [same]
      exact Option.bind_eq_some_iff.mpr ⟨_, call', rfl⟩
  | wrote _ _ => cases read
  | stopped => cases read

/-- A segment behind the first writes to its buffer or to the sink. -/
theorem writeOutput (answering : Answering hosts S) (beside : Beside S k p q)
    (buflen' : Nat → Nat) {data : List UInt8} (carries : data ≠ []) {choice : Choice}
    {status : IoStatus} {count : Nat}
    (write : p.writeOutput (ringChain hosts buflen) (i + 1) data choice =
      some (p', status, count)) :
    ∃ q', q.writeOutput (queueChain buflen') (i + 1) data choice = some (q', status, count) ∧
      Beside S k p' q' := by
  simp only [Pipeline.writeOutput] at write
  split at write
  · next r here =>
      obtain ⟨b, there, related⟩ := beside.buffer here
      obtain ⟨⟨p'', answer⟩, call, write⟩ := Option.bind_eq_some_iff.mp write
      obtain ⟨q', call', beside'⟩ :=
        beside.callBuffer buflen' (answering.write related carries) call
      cases answer with
      | wrote status' count' =>
          simp only [Option.some.injEq, Prod.mk.injEq] at write
          obtain ⟨rfl, rfl, rfl⟩ := write
          refine ⟨q', ?_, beside'⟩
          simp only [Pipeline.writeOutput, there]
          exact Option.bind_eq_some_iff.mpr ⟨_, call', rfl⟩
      | got _ _ => cases write
      | stopped => cases write
  · next here =>
      split at write
      · next taken =>
          simp only [Option.some.injEq, Prod.mk.injEq] at write
          obtain ⟨rfl, rfl, rfl⟩ := write
          refine ⟨{ q with sink := q.sink ++ data.take choice.size }, ?_, ?_⟩
          · simp only [Pipeline.writeOutput, beside.no_buffer here, if_pos taken]
          · exact ⟨beside.stream, beside.count, beside.loops, beside.source, by rw [beside.sink],
              beside.places, beside.related⟩
      · cases write

/-- A segment stops a machine. -/
theorem stopMachine (answering : Answering hosts S) (beside : Beside S k p q)
    (buflen' : Nat → Nat) (stop : p.stopMachine (ringChain hosts buflen) i = some p') :
    ∃ q', q.stopMachine (queueChain buflen') i = some q' ∧ Beside S k p' q' := by
  simp only [Pipeline.stopMachine] at stop
  split at stop
  · next r here =>
      obtain ⟨b, there, related⟩ := beside.buffer here
      obtain ⟨⟨p'', answer⟩, call, rfl⟩ := Option.map_eq_some_iff.mp stop
      obtain ⟨q', call', beside'⟩ := beside.callBuffer buflen'
        ⟨stopBuffer r, rfl, answering.stop related⟩ call
      refine ⟨q', ?_, beside'⟩
      simp only [Pipeline.stopMachine, there]
      exact Option.map_eq_some_iff.mpr ⟨_, call', rfl⟩
  · next here =>
      cases stop
      exact ⟨q, by simp only [Pipeline.stopMachine, beside.no_buffer here], beside⟩

/-- A control step followed by a change of the segment's own variables. -/
theorem control_setLoop (beside : Beside S k p q) {act : Act} {loop : SegmentLoop}
    (step : (p.control act).map (fun p => p.setLoop i loop) = some p') :
    ∃ q', (q.control act).map (fun q => q.setLoop i loop) = some q' ∧ Beside S k p' q' := by
  obtain ⟨p₁, moved, rfl⟩ := Option.map_eq_some_iff.mp step
  obtain ⟨q₁, moved', beside'⟩ := beside.control moved
  exact ⟨q₁.setLoop i loop, by rw [moved', Option.map_some], beside'.setLoop i loop⟩

/-- **A step of `segment_run`** in the one chain is one in the other. -/
theorem segmentRun (answering : Answering hosts S) {buflen' : Nat → Nat}
    (same : ∀ i, buflen' (i + 1) = buflen (i + 1))
    (positive : ∀ i, 0 < buflen (i + 1)) (beside : Beside S k p q) {loop : SegmentLoop}
    {choice : Choice} (noSource : i = 0 → loop.pc ≠ .read ∧ loop.pc ≠ .write)
    (step : p.segmentRun (ringChain hosts buflen) i loop choice = some p') :
    ∃ q', q.segmentRun (queueChain buflen') i loop choice = some q' ∧ Beside S k p' q' := by
  have state : q.stream.state = p.stream.state := by rw [beside.stream]
  unfold Pipeline.segmentRun at step ⊢
  cases pc : loop.pc with
  | start =>
      rw [pc] at step
      exact beside.control_setLoop step
  | top =>
      simp only [pc, state] at step ⊢
      split at step
      · next ready =>
          cases step
          exact ⟨q, if_pos ready, beside⟩
      · next started =>
          rw [if_neg started]
          split at step
          · next ends =>
              cases step
              exact ⟨_, if_pos ends, beside.setLoop i _⟩
          · next goesOn =>
              rw [if_neg goesOn]
              split at step
              · next running =>
                  cases step
                  exact ⟨_, if_pos running, beside.setLoop i _⟩
              · next stopped =>
                  rw [if_neg stopped]
                  exact beside.control_setLoop step
  | read =>
      obtain ⟨i, rfl⟩ : ∃ j, i = j + 1 := Nat.exists_eq_succ_of_ne_zero fun first =>
        (noSource first).1 pc
      rw [pc] at step
      obtain ⟨⟨p₁, status, out⟩, read, rfl⟩ := Option.map_eq_some_iff.mp step
      obtain ⟨q₁, read', beside'⟩ := beside.readInput answering (same i) (positive i) read
      exact ⟨_, by simp only [read', Option.map_some], beside'.setLoop (i + 1) _⟩
  | write =>
      obtain ⟨i, rfl⟩ : ∃ j, i = j + 1 := Nat.exists_eq_succ_of_ne_zero fun first =>
        (noSource first).2 pc
      simp only [pc] at step ⊢
      cases chunk : loop.chunk with
      | nil =>
          rw [chunk] at step
          cases step
          exact ⟨_, rfl, beside.setLoop (i + 1) _⟩
      | cons x rest =>
          rw [chunk] at step
          obtain ⟨⟨p₁, status, count⟩, write, rfl⟩ := Option.map_eq_some_iff.mp step
          obtain ⟨q₁, write', beside'⟩ := beside.writeOutput answering buflen' (by simp) write
          exact ⟨_, by simp only [write', Option.map_some], beside'.setLoop (i + 1) _⟩
  | fail =>
      rw [pc] at step
      exact beside.control_setLoop step
  | complete =>
      rw [pc] at step
      exact beside.control_setLoop step
  | stopIn =>
      simp only [pc] at step ⊢
      cases i with
      | zero =>
          cases step
          exact ⟨_, rfl, beside.setLoop 0 _⟩
      | succ i =>
          obtain ⟨p₁, stop, rfl⟩ := Option.map_eq_some_iff.mp step
          obtain ⟨q₁, stop', beside'⟩ := beside.stopMachine answering buflen' stop
          exact ⟨_, by simp only [stop', Option.map_some], beside'.setLoop (i + 1) _⟩
  | stopOut =>
      rw [pc] at step
      obtain ⟨p₁, stop, rfl⟩ := Option.map_eq_some_iff.mp step
      obtain ⟨q₁, stop', beside'⟩ := beside.stopMachine answering buflen' stop
      exact ⟨_, by simp only [stop', Option.map_some], beside'.setLoop i _⟩
  | clear =>
      rw [pc] at step
      exact beside.control_setLoop step
  | leave =>
      rw [pc] at step
      exact beside.control step

end Beside

/-! ## What a segment changes -/

namespace Pipeline

variable {β : Type} {chain : Chain β} {p p' : Pipeline β} {i : Nat}

theorem callBuffer_loops {b : β} {request : Call} {answer : Answer}
    (call : p.callBuffer chain i b request = some (p', answer)) : p'.loops = p.loops := by
  obtain ⟨_, _, made⟩ := Option.map_eq_some_iff.mp call
  cases made
  rfl

theorem readInput_loops {choice : Choice} {status : IoStatus} {out : List UInt8}
    (read : p.readInput chain i choice = some (p', status, out)) : p'.loops = p.loops := by
  cases i with
  | zero =>
      simp only [readInput] at read
      split at read
      · cases read
        rfl
      · cases read
  | succ i =>
      obtain ⟨b, _, read⟩ := Option.bind_eq_some_iff.mp read
      obtain ⟨⟨p₁, answer⟩, call, read⟩ := Option.bind_eq_some_iff.mp read
      cases answer with
      | got _ _ =>
          cases read
          exact callBuffer_loops call
      | wrote _ _ => cases read
      | stopped => cases read

theorem writeOutput_loops {data : List UInt8} {choice : Choice} {status : IoStatus} {count : Nat}
    (write : p.writeOutput chain i data choice = some (p', status, count)) :
    p'.loops = p.loops := by
  simp only [writeOutput] at write
  split at write
  · obtain ⟨⟨p₁, answer⟩, call, write⟩ := Option.bind_eq_some_iff.mp write
    cases answer with
    | wrote _ _ =>
        cases write
        exact callBuffer_loops call
    | got _ _ => cases write
    | stopped => cases write
  · split at write
    · cases write
      rfl
    · cases write

theorem stopMachine_loops (stop : p.stopMachine chain i = some p') : p'.loops = p.loops := by
  simp only [stopMachine] at stop
  split at stop
  · obtain ⟨⟨p₁, answer⟩, call, rfl⟩ := Option.map_eq_some_iff.mp stop
    exact callBuffer_loops call
  · cases stop
    rfl

/-- A step of a segment changes no variables but its own. -/
theorem segmentRun_loops {loop : SegmentLoop} {choice : Choice}
    (step : p.segmentRun chain i loop choice = some p') :
    p'.loops = p.loops ∨ ∃ new, p'.loops = p.loops.set i new := by
  have set : ∀ {p₁ : Pipeline β} (new : SegmentLoop), p₁.loops = p.loops →
      (p₁.setLoop i new).loops = p.loops ∨
        ∃ new', (p₁.setLoop i new).loops = p.loops.set i new' :=
    fun new loops => Or.inr ⟨new, by rw [setLoop, loops]⟩
  have control_set : ∀ {act : Act} (new : SegmentLoop),
      (p.control act).map (fun p => p.setLoop i new) = some p' →
      p'.loops = p.loops ∨ ∃ new', p'.loops = p.loops.set i new' := by
    intro act new step
    obtain ⟨p₁, moved, rfl⟩ := Option.map_eq_some_iff.mp step
    obtain ⟨stream, _, rfl⟩ := Option.map_eq_some_iff.mp moved
    exact set new rfl
  unfold segmentRun at step
  cases pc : loop.pc with
  | top =>
      simp only [pc] at step
      split at step
      · cases step
        exact Or.inl rfl
      · split at step
        · cases step
          exact set _ rfl
        · split at step
          · cases step
            exact set _ rfl
          · exact control_set _ step
  | read =>
      rw [pc] at step
      obtain ⟨⟨p₁, status, out⟩, read, rfl⟩ := Option.map_eq_some_iff.mp step
      exact set _ (readInput_loops read)
  | write =>
      simp only [pc] at step
      split at step
      · cases step
        exact set _ rfl
      · obtain ⟨⟨p₁, status, count⟩, write, rfl⟩ := Option.map_eq_some_iff.mp step
        exact set _ (writeOutput_loops write)
  | stopIn =>
      simp only [pc] at step
      split at step
      · cases step
        exact set _ rfl
      · obtain ⟨p₁, stop, rfl⟩ := Option.map_eq_some_iff.mp step
        exact set _ (stopMachine_loops stop)
  | stopOut =>
      rw [pc] at step
      obtain ⟨p₁, stop, rfl⟩ := Option.map_eq_some_iff.mp step
      exact set _ (stopMachine_loops stop)
  | leave =>
      rw [pc] at step
      obtain ⟨stream, _, rfl⟩ := Option.map_eq_some_iff.mp step
      exact Or.inl rfl
  | _ =>
      rw [pc] at step
      exact control_set _ step

/-- The variables of the other segments stay. -/
theorem segmentRun_elsewhere {loop : SegmentLoop} {choice : Choice} {j : Nat} (other : j ≠ i)
    (step : p.segmentRun chain i loop choice = some p') : p'.loops[j]? = p.loops[j]? := by
  rcases segmentRun_loops step with same | ⟨new, set⟩
  · rw [same]
  · rw [set, List.getElem?_set_ne (Ne.symm other)]

end Pipeline

/-! ## When a buffer is stopped -/

/-- The segment has come to stopping its output, or is past it. -/
def SegmentLoop.leaving (loop : SegmentLoop) : Bool :=
  match loop.pc with
  | .stopOut => true
  | .clear => true
  | .leave => true
  | _ => false

/-- A buffer is stopped only when the segment that writes to it is leaving. -/
def StoppedLast (p : Pipeline ByteQueue) : Prop :=
  ∀ (i : Nat) (b : ByteQueue) (loop : SegmentLoop), p.buffers[i]? = some b → b.stopped = true →
    p.loops[i]? = some loop → loop.leaving = true

namespace StoppedLast

variable {buflen : Nat → Nat} {p p' : Pipeline ByteQueue} {i : Nat} {loop new : SegmentLoop}

theorem control (inv : StoppedLast p) {act : Act} (step : p.control act = some p') :
    StoppedLast p' := by
  obtain ⟨stream, _, rfl⟩ := Option.map_eq_some_iff.mp step
  exact inv

/-- A segment that was not leaving may go anywhere, one that was goes on leaving. -/
theorem setLoop (inv : StoppedLast p) (here : p.loops[i]? = some loop)
    (leaves : loop.leaving = true → new.leaving = true) :
    StoppedLast (p.setLoop i new) := by
  intro j b other there stopped found
  by_cases same : j = i
  · subst same
    have within : j < p.loops.length := (List.getElem?_eq_some_iff.mp here).1
    obtain rfl : new = other := by
      rw [Pipeline.setLoop, List.getElem?_set_self within] at found
      exact Option.some.inj found
    exact leaves (inv j b loop there stopped here)
  · rw [Pipeline.setLoop, List.getElem?_set_ne (Ne.symm same)] at found
    exact inv j b other there stopped found

/-- A call on the `i`-th buffer, which stops it only if its segment is leaving. -/
theorem callBuffer (inv : StoppedLast p) {b : ByteQueue} {request : Call} {answer : Answer}
    (here : p.buffers[i]? = some b)
    (stops : (b.call request).1.stopped = true → b.stopped = true ∨
      ∀ loop, p.loops[i]? = some loop → loop.leaving = true)
    (call : p.callBuffer (queueChain buflen) i b request = some (p', answer)) :
    StoppedLast p' := by
  obtain ⟨rfl, _⟩ := Pipeline.callBuffer_queue call
  intro j c other there stopped found
  by_cases same : j = i
  · subst same
    obtain rfl : (b.call request).1 = c := by grind
    rcases stops stopped with before | leaves
    · exact inv j b other here before found
    · exact leaves other found
  · exact inv j c other (by grind) stopped found

theorem readInput (inv : StoppedLast p) {choice : Choice} {status : IoStatus} {out : List UInt8}
    (read : p.readInput (queueChain buflen) i choice = some (p', status, out)) :
    StoppedLast p' := by
  cases i with
  | zero =>
      simp only [Pipeline.readInput] at read
      split at read
      · cases read
        exact inv
      · cases read
  | succ i =>
      obtain ⟨b, here, read⟩ := Option.bind_eq_some_iff.mp read
      obtain ⟨⟨p₁, answer⟩, call, read⟩ := Option.bind_eq_some_iff.mp read
      have kept := inv.callBuffer here (fun stopped => Or.inl ?_) call
      · cases answer with
        | got status' out' =>
            cases read
            exact kept
        | wrote _ _ => cases read
        | stopped => cases read
      · obtain ⟨_, _, _, _, same, _⟩ :=
          Pipeline.byteQueue_read b ((queueChain buflen).buflen (i + 1))
        exact same.symm.trans stopped

theorem writeOutput (inv : StoppedLast p) {data : List UInt8} {choice : Choice}
    {status : IoStatus} {count : Nat}
    (write : p.writeOutput (queueChain buflen) i data choice = some (p', status, count)) :
    StoppedLast p' := by
  simp only [Pipeline.writeOutput] at write
  split at write
  · next b here =>
      obtain ⟨⟨p₁, answer⟩, call, write⟩ := Option.bind_eq_some_iff.mp write
      have kept := inv.callBuffer here (fun stopped => Or.inl ?_) call
      · cases answer with
        | wrote status' count' =>
            cases write
            exact kept
        | got _ _ => cases write
        | stopped => cases write
      · simp only [ByteQueue.call] at stopped
        split at stopped
        · assumption
        · exact stopped
  · split at write
    · cases write
      exact inv
    · cases write

theorem stopMachine (inv : StoppedLast p)
    (leaves : ∀ b, p.buffers[i]? = some b → b.stopped = true ∨
      ∀ loop, p.loops[i]? = some loop → loop.leaving = true)
    (stop : p.stopMachine (queueChain buflen) i = some p') :
    StoppedLast p' := by
  simp only [Pipeline.stopMachine] at stop
  split at stop
  · next b here =>
      obtain ⟨⟨p₁, answer⟩, call, rfl⟩ := Option.map_eq_some_iff.mp stop
      exact inv.callBuffer here (fun _ => leaves b here) call
  · cases stop
    exact inv

/-- A step of a segment. The segment behind a buffer stops it only when it is dry, that is when it
was stopped before. -/
theorem segmentRun (inv : StoppedLast p) (ok : LoopOk p i loop) (here : p.loops[i]? = some loop)
    {choice : Choice} (step : p.segmentRun (queueChain buflen) i loop choice = some p') :
    StoppedLast p' := by
  have goes : ∀ {p₁ : Pipeline ByteQueue} {new : SegmentLoop}, StoppedLast p₁ → p₁.loops = p.loops →
      (loop.leaving = true → new.leaving = true) → StoppedLast (p₁.setLoop i new) :=
    fun inv₁ loops leaves => inv₁.setLoop (loops ▸ here) leaves
  have control_setLoop : ∀ {act : Act} {new : SegmentLoop},
      (p.control act).map (fun p => p.setLoop i new) = some p' →
      (loop.leaving = true → new.leaving = true) → StoppedLast p' := by
    intro act new step leaves
    obtain ⟨p₁, moved, rfl⟩ := Option.map_eq_some_iff.mp step
    obtain ⟨stream, _, rfl⟩ := Option.map_eq_some_iff.mp moved
    exact goes inv rfl leaves
  unfold Pipeline.segmentRun at step
  cases pc : loop.pc with
  | start =>
      rw [pc] at step
      exact control_setLoop step (by simp [SegmentLoop.leaving, pc])
  | top =>
      simp only [pc] at step
      split at step
      · cases step
        exact inv
      · split at step
        · cases step
          exact goes inv rfl (by simp [SegmentLoop.leaving, pc])
        · split at step
          · cases step
            exact goes inv rfl (by simp [SegmentLoop.leaving, pc])
          · exact control_setLoop step (by simp [SegmentLoop.leaving])
  | read =>
      rw [pc] at step
      obtain ⟨⟨p₁, status, out⟩, read, rfl⟩ := Option.map_eq_some_iff.mp step
      exact goes (inv.readInput read) (Pipeline.readInput_loops read)
        (by simp [SegmentLoop.leaving, pc])
  | write =>
      simp only [pc] at step
      cases chunk : loop.chunk with
      | nil =>
          rw [chunk] at step
          cases step
          exact goes inv rfl (by simp [SegmentLoop.leaving, pc])
      | cons x rest =>
          rw [chunk] at step
          obtain ⟨⟨p₁, status, count⟩, write, rfl⟩ := Option.map_eq_some_iff.mp step
          exact goes (inv.writeOutput write) (Pipeline.writeOutput_loops write)
            (by simp [SegmentLoop.leaving, pc])
  | fail => exact absurd pc ok.noFail
  | complete =>
      rw [pc] at step
      exact control_setLoop step (by simp [SegmentLoop.leaving, pc])
  | stopIn =>
      simp only [pc] at step
      have dry := ok.dry (by simp [SegmentLoop.ended, pc])
      cases i with
      | zero =>
          cases step
          exact goes inv rfl (by simp [SegmentLoop.leaving])
      | succ i =>
          obtain ⟨p₁, stop, rfl⟩ := Option.map_eq_some_iff.mp step
          exact goes (inv.stopMachine (fun b there => Or.inl (dry b there).1) stop)
            (Pipeline.stopMachine_loops stop) (by simp [SegmentLoop.leaving])
  | stopOut =>
      rw [pc] at step
      obtain ⟨p₁, stop, rfl⟩ := Option.map_eq_some_iff.mp step
      have leaves : ∀ other, p.loops[i]? = some other → other.leaving = true := by
        intro other found
        obtain rfl : loop = other := Option.some.inj (here.symm.trans found)
        rw [SegmentLoop.leaving, pc]
      exact goes (inv.stopMachine (fun _ _ => Or.inr leaves) stop)
        (Pipeline.stopMachine_loops stop) (by simp [SegmentLoop.leaving])
  | clear =>
      rw [pc] at step
      exact control_setLoop step (by simp [SegmentLoop.leaving])
  | leave =>
      rw [pc] at step
      exact inv.control step

end StoppedLast

/-- What holds in every state that the chain of queues reaches. -/
theorem delivering_reach {buflen : Nat → Nat} {bytes : List UInt8} {queues : Nat}
    {p : Pipeline ByteQueue}
    (reached : (pipelineSystem (queueChain buflen) bytes (List.replicate queues {})).Reach p) :
    Delivering bytes p ∧ StoppedLast p := by
  refine reached.invariant (I := fun p => Delivering bytes p ∧ StoppedLast p)
    (fun p start => ⟨delivering_start p start, ?_⟩)
    fun p act p' inv _ step => ⟨inv.1.step step, ?_⟩
  · obtain rfl := start
    intro i b loop there stopped _
    obtain rfl : b = {} := List.eq_of_mem_replicate (List.mem_of_getElem? there)
    cases stopped
  · cases act with
    | main => exact inv.2.control step
    | segment i choice =>
        obtain ⟨thread, there, step⟩ := Option.bind_eq_some_iff.mp step
        cases pc : thread.pc with
        | active =>
            rw [pc] at step
            obtain ⟨loop, here, step⟩ := Option.bind_eq_some_iff.mp step
            exact inv.2.segmentRun (inv.1.loop i loop here) here step
        | _ =>
            rw [pc] at step
            exact inv.2.control step

end Bingewatch.Stream
