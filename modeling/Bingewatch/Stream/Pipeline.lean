import Bingewatch.Stream.State
import Bingewatch.Stream.Segment
import Bingewatch.Buffer.RingQueue

/-!
# A linear stream

A stream built with `io_stream_add_segment` is a chain: the first segment reads the source, each
segment hands its chunks to the buffer that the next one reads, and the last one writes to the sink.
The model puts the loop of every segment (`segment_run` in `src/segment.c`) beside the threads of
`streamSystem`: each call of a machine and each access to the state of the stream is one step, and
any thread may take the next one.

The chain is modelled once for any kind of buffer. `ringChain` is the chain of the source, with a
ring buffer between each two segments; `queueChain` has a byte queue in each of these places, and
`ring_chain_simulated` leads every run of the first beside a run of the second.
-/

set_option autoImplicit false

namespace Bingewatch.Stream

open Foundation Machine Buffer

/-! ## Segments -/

/-- Where a segment's thread stands in `segment_run`, outside the callbacks. The four places from
`complete` or `fail` on are those of `stop_segment`. -/
inductive LoopPc where
  | start
  | top
  | read
  | write
  | fail
  | complete
  | stopIn
  | stopOut
  | clear
  | leave
  deriving DecidableEq, Repr

/-- The variables of `segment_run`: the completion flag, and the bytes `write_to_dest` still has to
hand on. -/
structure SegmentLoop where
  pc : LoopPc := .start
  doComplete : Bool := false
  chunk : List UInt8 := []
  deriving DecidableEq, Repr

/-- The rest of the loop after a read: `read_from_source`, and the test for no bytes. -/
def SegmentLoop.afterRead (loop : SegmentLoop) (status : IoStatus) (bytes : List UInt8) :
    SegmentLoop :=
  if status.isError then { loop with pc := .fail }
  else
    { loop with
      doComplete := loop.doComplete || status == .complete
      chunk := bytes
      pc := if bytes = [] then .top else .write }

/-- The rest of a pass of `write_to_dest` after its write. -/
def SegmentLoop.afterWrite (loop : SegmentLoop) (status : IoStatus) (count : Nat) : SegmentLoop :=
  match writePass status with
  | .complete => { loop with doComplete := true, chunk := [], pc := .top }
  | .fail => { loop with chunk := [], pc := .fail }
  | .goOn => { loop with chunk := loop.chunk.drop count }

/-! ## The chain -/

/-- What a chain is built from: the length of each segment's own buffer, and what a call does to the
buffers between the segments. -/
structure Chain (β : Type) where
  buflen : Nat → Nat
  call : Nat → β → Call → Option (β × Answer)

/-- A chain at work: the threads and the state of the stream, the loops of the segments, what is
left in the source, the buffers, and what the sink has taken. -/
structure Pipeline (β : Type) where
  stream : IoStream
  loops : List SegmentLoop
  source : List UInt8
  buffers : List β
  sink : List UInt8 := []

/-- What the source or the sink answers to a call: how many bytes it gives or takes, and whether the
source reports completion. -/
structure Choice where
  size : Nat := 0
  complete : Bool := false
  deriving DecidableEq, Repr

/-- One step of one thread. -/
inductive PipelineAct where
  | main
  | segment (i : Nat) (choice : Choice)
  deriving DecidableEq, Repr

namespace Pipeline

variable {β : Type}

/-- A step of the threads of the stream. -/
def control (p : Pipeline β) (act : Act) : Option (Pipeline β) :=
  (streamSystem.step p.stream act).map fun stream => { p with stream := stream }

/-- The `i`-th segment goes on with the given variables. -/
def setLoop (p : Pipeline β) (i : Nat) (loop : SegmentLoop) : Pipeline β :=
  { p with loops := p.loops.set i loop }

/-- A call on the `i`-th buffer. -/
def callBuffer (chain : Chain β) (p : Pipeline β) (i : Nat) (b : β) (request : Call) :
    Option (Pipeline β × Answer) :=
  (chain.call i b request).map fun (b, answer) => ({ p with buffers := p.buffers.set i b }, answer)

/-- The read of the `i`-th segment. The source gives the next bytes, no more than were asked for,
and reports completion only with the last of them. -/
def readInput (chain : Chain β) (p : Pipeline β) (i : Nat) (choice : Choice) :
    Option (Pipeline β × IoStatus × List UInt8) :=
  match i with
  | 0 =>
      if choice.size ≤ chain.buflen 0 ∧ choice.size ≤ p.source.length ∧
          (choice.complete = true → choice.size = p.source.length) then
        some ({ p with source := p.source.drop choice.size },
          if choice.complete then .complete else .success, p.source.take choice.size)
      else none
  | i + 1 =>
      p.buffers[i]?.bind fun b =>
        (callBuffer chain p i b (.read (chain.buflen (i + 1)))).bind fun (p, answer) =>
          match answer with
          | .got status bytes => some (p, status, bytes)
          | _ => none

/-- A write of the `i`-th segment. The sink takes some of the bytes, at least one. -/
def writeOutput (chain : Chain β) (p : Pipeline β) (i : Nat) (data : List UInt8)
    (choice : Choice) : Option (Pipeline β × IoStatus × Nat) :=
  match p.buffers[i]? with
  | some b =>
      (callBuffer chain p i b (.write data)).bind fun (p, answer) =>
        match answer with
        | .wrote status count => some (p, status, count)
        | _ => none
  | none =>
      if 0 < choice.size ∧ choice.size ≤ data.length then
        some ({ p with sink := p.sink ++ data.take choice.size }, .success, choice.size)
      else none

/-- Stop the `i`-th buffer. Where there is none the machine is the source or the sink, which its
segment never calls again. -/
def stopMachine (chain : Chain β) (p : Pipeline β) (i : Nat) : Option (Pipeline β) :=
  match p.buffers[i]? with
  | some b => (callBuffer chain p i b .stop).map fun (p, _) => p
  | none => some p

/-- A step of the `i`-th segment in `segment_run`. -/
def segmentRun (chain : Chain β) (p : Pipeline β) (i : Nat) (loop : SegmentLoop)
    (choice : Choice) : Option (Pipeline β) :=
  let goto (pc : LoopPc) (p : Pipeline β) : Pipeline β := p.setLoop i { loop with pc := pc }
  match loop.pc with
  | .start => (p.control (.segment i (.flag true))).map (goto .top)
  | .top =>
      if p.stream.state = .ready then some p
      else if loop.doComplete then some (goto .complete p)
      else if p.stream.state.isRunning then some (goto .read p)
      else (p.control (.segment i (.flag false))).map (goto .leave)
  | .read =>
      (p.readInput chain i choice).map fun (p, status, bytes) =>
        p.setLoop i (loop.afterRead status bytes)
  | .write =>
      match loop.chunk with
      | [] => some (goto .top p)
      | x :: rest =>
          (p.writeOutput chain i (x :: rest) choice).map fun (p, status, count) =>
            p.setLoop i (loop.afterWrite status count)
  | .fail => (p.control (.segment i .error)).map (goto .stopIn)
  | .complete => (p.control (.segment i .complete)).map (goto .stopIn)
  | .stopIn =>
      match i with
      | 0 => some (goto .stopOut p)
      | i + 1 => (p.stopMachine chain i).map (goto .stopOut)
  | .stopOut => (p.stopMachine chain i).map (goto .clear)
  | .clear =>
      (p.control (.segment i (.flag false))).map fun p =>
        p.setLoop i { loop with doComplete := false, pc := .leave }
  | .leave => p.control (.segment i .leave)

end Pipeline

/-- The chain with its threads, from the bytes in the source and the buffers it is given: one
segment more than there are buffers. A segment that is in a callback goes on there. -/
def pipelineSystem {β : Type} (chain : Chain β) (bytes : List UInt8) (buffers : List β) :
    System (Pipeline β) PipelineAct where
  start := fun p => p =
    { stream := { segments := List.replicate (buffers.length + 1) {}, stops := [] }
      loops := List.replicate (buffers.length + 1) {}
      source := bytes
      buffers := buffers }
  step := fun p act =>
    match act with
    | .main => p.control .main
    | .segment i choice =>
        p.stream.segments[i]?.bind fun thread =>
          match thread.pc with
          | .active => p.loops[i]?.bind fun loop => p.segmentRun chain i loop choice
          | _ => p.control (.segment i .go)

/-- All segments have left their loops. -/
def Pipeline.AllLeft {β : Type} (p : Pipeline β) : Prop :=
  ∀ loop ∈ p.loops, loop.pc = .leave

instance {β : Type} (p : Pipeline β) : Decidable p.AllLeft :=
  inferInstanceAs (Decidable (∀ loop ∈ p.loops, loop.pc = .leave))

/-! ## Two kinds of buffers -/

/-- The chain of the source, with ring buffers, each on its own host. -/
def ringChain (hosts : Nat → Host) (buflen : Nat → Nat) : Chain Ring where
  buflen := buflen
  call := fun i r request => r.call (hosts i) request

/-- New ring buffers with the given alignments. -/
def newRings (aligns : List Nat) : List Ring :=
  aligns.map fun align => { createBuffer with blockAlign := align }

/-- The same chain with byte queues. -/
def queueChain (buflen : Nat → Nat) : Chain ByteQueue where
  buflen := buflen
  call := fun _ q request => some (q.call request)

/-- The calls a segment makes: its writes carry something and its reads ask for something. -/
def SegmentCall : Call → Prop
  | .write data => data ≠ []
  | .read request => 0 < request
  | .stop => True

/-- One call of a segment, on a ring and on the queue it simulates. -/
theorem simulates_call {host : Host} (fits : host.Fits) {r : Ring} {b : ByteQueue}
    (sim : Simulates r b) (request : Call) (asks : SegmentCall request) :
    ∃ r', r.call host request = some (r', (b.call request).2) ∧
      Simulates r' (b.call request).1 := by
  cases request with
  | write data =>
      obtain ⟨r', call, sim', _⟩ := sim.write fits data fun _ _ => asks
      exact ⟨r', call, sim'⟩
  | read request =>
      obtain ⟨r', call, sim', _⟩ := sim.read host asks
      exact ⟨r', call, sim'⟩
  | stop => exact ⟨stopBuffer r, rfl, sim.stop⟩

/-- Two chains at work stand alike: only their buffers differ, and those of the first simulate
those of the second. -/
structure Alike (p : Pipeline Ring) (q : Pipeline ByteQueue) : Prop where
  stream : p.stream = q.stream
  loops : p.loops = q.loops
  source : p.source = q.source
  sink : p.sink = q.sink
  places : p.buffers.length = q.buffers.length
  simulated : ∀ (i : Nat) (r : Ring) (b : ByteQueue), p.buffers[i]? = some r →
    q.buffers[i]? = some b → Simulates r b

namespace Alike

variable {hosts : Nat → Host} {buflen : Nat → Nat} {p p' : Pipeline Ring}
  {q : Pipeline ByteQueue}

theorem control (alike : Alike p q) {act : Act} (step : p.control act = some p') :
    ∃ q', q.control act = some q' ∧ Alike p' q' := by
  obtain ⟨stream, moved, rfl⟩ := Option.map_eq_some_iff.mp step
  refine ⟨{ q with stream := stream }, ?_, ?_⟩
  · rw [Pipeline.control, ← alike.stream, moved, Option.map_some]
  · exact ⟨rfl, alike.loops, alike.source, alike.sink, alike.places, alike.simulated⟩

theorem setLoop (alike : Alike p q) (i : Nat) (loop : SegmentLoop) :
    Alike (p.setLoop i loop) (q.setLoop i loop) where
  stream := alike.stream
  loops := by rw [Pipeline.setLoop, Pipeline.setLoop, alike.loops]
  source := alike.source
  sink := alike.sink
  places := alike.places
  simulated := alike.simulated

/-- The buffers of the two chains stand in the same places. -/
theorem buffer (alike : Alike p q) {i : Nat} {r : Ring} (here : p.buffers[i]? = some r) :
    ∃ b, q.buffers[i]? = some b ∧ Simulates r b := by
  have within : i < q.buffers.length := by
    rw [← alike.places]
    exact (List.getElem?_eq_some_iff.mp here).1
  obtain ⟨b, there⟩ : ∃ b, q.buffers[i]? = some b := ⟨_, List.getElem?_eq_getElem within⟩
  exact ⟨b, there, alike.simulated i r b here there⟩

theorem no_buffer (alike : Alike p q) {i : Nat} (here : p.buffers[i]? = none) :
    q.buffers[i]? = none := by
  rw [List.getElem?_eq_none_iff] at here ⊢
  rw [← alike.places]
  exact here

/-- A call on a ring answers as the call on the queue in its place. -/
theorem callBuffer (fits : ∀ i, (hosts i).Fits) (alike : Alike p q) {i : Nat} {r : Ring}
    {b : ByteQueue} (here : p.buffers[i]? = some r) (there : q.buffers[i]? = some b)
    {request : Call} {answer : Answer}
    (call : p.callBuffer (ringChain hosts buflen) i r request = some (p', answer))
    (asks : SegmentCall request) :
    ∃ q', q.callBuffer (queueChain buflen) i b request = some (q', answer) ∧
      Alike p' q' := by
  obtain ⟨r', answers, sim⟩ :=
    simulates_call (fits i) (alike.simulated i r b here there) request asks
  have made : p' = { p with buffers := p.buffers.set i r' } ∧ answer = (b.call request).2 := by
    simp only [Pipeline.callBuffer, ringChain, answers, Option.map_some, Option.some.injEq,
      Prod.mk.injEq] at call
    exact ⟨call.1.symm, call.2.symm⟩
  obtain ⟨rfl, rfl⟩ := made
  refine ⟨{ q with buffers := q.buffers.set i (b.call request).1 }, rfl, alike.stream, alike.loops,
    alike.source, alike.sink, ?_, fun j s c hereS thereC => ?_⟩
  · simpa using alike.places
  · by_cases same : j = i
    · obtain rfl : s = r' := by grind
      obtain rfl : c = (b.call request).1 := by grind
      exact sim
    · exact alike.simulated j s c (by grind) (by grind)

theorem readInput (fits : ∀ i, (hosts i).Fits) (positive : ∀ i, 0 < buflen i) (alike : Alike p q)
    {i : Nat} {choice : Choice} {status : IoStatus} {out : List UInt8}
    (read : p.readInput (ringChain hosts buflen) i choice = some (p', status, out)) :
    ∃ q', q.readInput (queueChain buflen) i choice = some (q', status, out) ∧
      Alike p' q' := by
  cases i with
  | zero =>
      simp only [Pipeline.readInput] at read
      split at read
      · next given =>
          simp only [Option.some.injEq, Prod.mk.injEq] at read
          obtain ⟨rfl, rfl, rfl⟩ := read
          refine ⟨{ q with source := q.source.drop choice.size }, ?_, ?_⟩
          · rw [alike.source] at given ⊢
            exact if_pos given
          · exact ⟨alike.stream, alike.loops, by rw [alike.source], alike.sink, alike.places,
              alike.simulated⟩
      · cases read
  | succ i =>
      obtain ⟨r, here, read⟩ := Option.bind_eq_some_iff.mp read
      obtain ⟨b, there, _⟩ := alike.buffer here
      obtain ⟨⟨p'', answer⟩, call, read⟩ := Option.bind_eq_some_iff.mp read
      obtain ⟨q', call', alike'⟩ := alike.callBuffer fits here there call (positive (i + 1))
      cases answer with
      | got status' out' =>
          simp only [Option.some.injEq, Prod.mk.injEq] at read
          obtain ⟨rfl, rfl, rfl⟩ := read
          refine ⟨q', ?_, alike'⟩
          simp only [Pipeline.readInput, there, Option.bind_some]
          exact Option.bind_eq_some_iff.mpr ⟨_, call', rfl⟩
      | wrote _ _ => cases read
      | stopped => cases read

theorem writeOutput (fits : ∀ i, (hosts i).Fits) (alike : Alike p q) {i : Nat}
    {data : List UInt8} (carries : data ≠ []) {choice : Choice} {status : IoStatus} {count : Nat}
    (write : p.writeOutput (ringChain hosts buflen) i data choice =
      some (p', status, count)) :
    ∃ q', q.writeOutput (queueChain buflen) i data choice =
      some (q', status, count) ∧ Alike p' q' := by
  simp only [Pipeline.writeOutput] at write
  split at write
  · next r here =>
      obtain ⟨b, there, _⟩ := alike.buffer here
      obtain ⟨⟨p'', answer⟩, call, write⟩ := Option.bind_eq_some_iff.mp write
      obtain ⟨q', call', alike'⟩ := alike.callBuffer fits here there call carries
      cases answer with
      | wrote status' count' =>
          simp only [Option.some.injEq, Prod.mk.injEq] at write
          obtain ⟨rfl, rfl, rfl⟩ := write
          refine ⟨q', ?_, alike'⟩
          simp only [Pipeline.writeOutput, there]
          exact Option.bind_eq_some_iff.mpr ⟨_, call', rfl⟩
      | got _ _ => cases write
      | stopped => cases write
  · next here =>
      split at write
      · next taken =>
          simp only [Option.some.injEq, Prod.mk.injEq] at write
          obtain ⟨rfl, rfl, rfl⟩ := write
          refine ⟨{ q with sink := q.sink ++ data.take choice.size }, ?_, ?_⟩
          · simp only [Pipeline.writeOutput, alike.no_buffer here, if_pos taken]
          · exact ⟨alike.stream, alike.loops, alike.source, by rw [alike.sink], alike.places,
              alike.simulated⟩
      · cases write

theorem stopMachine (fits : ∀ i, (hosts i).Fits) (alike : Alike p q) {i : Nat}
    (stop : p.stopMachine (ringChain hosts buflen) i = some p') :
    ∃ q', q.stopMachine (queueChain buflen) i = some q' ∧ Alike p' q' := by
  simp only [Pipeline.stopMachine] at stop
  split at stop
  · next r here =>
      obtain ⟨b, there, _⟩ := alike.buffer here
      obtain ⟨⟨p'', answer⟩, call, rfl⟩ := Option.map_eq_some_iff.mp stop
      obtain ⟨q', call', alike'⟩ := alike.callBuffer fits here there call trivial
      refine ⟨q', ?_, alike'⟩
      simp only [Pipeline.stopMachine, there]
      exact Option.map_eq_some_iff.mpr ⟨_, call', rfl⟩
  · next here =>
      cases stop
      exact ⟨q, by simp only [Pipeline.stopMachine, alike.no_buffer here], alike⟩

/-- A control step followed by a change of the segment's own variables. -/
theorem control_setLoop (alike : Alike p q) {act : Act} {i : Nat} {loop : SegmentLoop}
    (step : (p.control act).map (fun p => p.setLoop i loop) = some p') :
    ∃ q', (q.control act).map (fun q => q.setLoop i loop) = some q' ∧ Alike p' q' := by
  obtain ⟨p₁, moved, rfl⟩ := Option.map_eq_some_iff.mp step
  obtain ⟨q₁, moved', alike'⟩ := alike.control moved
  exact ⟨q₁.setLoop i loop, by rw [moved', Option.map_some], alike'.setLoop i loop⟩

theorem segmentRun (fits : ∀ i, (hosts i).Fits) (positive : ∀ i, 0 < buflen i) (alike : Alike p q)
    {i : Nat} {loop : SegmentLoop} {choice : Choice}
    (step : p.segmentRun (ringChain hosts buflen) i loop choice = some p') :
    ∃ q', q.segmentRun (queueChain buflen) i loop choice = some q' ∧
      Alike p' q' := by
  have state : q.stream.state = p.stream.state := by rw [alike.stream]
  unfold Pipeline.segmentRun at step ⊢
  cases pc : loop.pc with
  | start =>
      rw [pc] at step
      exact alike.control_setLoop step
  | top =>
      simp only [pc, state] at step ⊢
      split at step
      · next ready =>
          cases step
          exact ⟨q, if_pos ready, alike⟩
      · next started =>
          rw [if_neg started]
          split at step
          · next ends =>
              cases step
              exact ⟨_, if_pos ends, alike.setLoop i _⟩
          · next goesOn =>
              rw [if_neg goesOn]
              split at step
              · next running =>
                  cases step
                  exact ⟨_, if_pos running, alike.setLoop i _⟩
              · next stopped =>
                  rw [if_neg stopped]
                  exact alike.control_setLoop step
  | read =>
      rw [pc] at step
      obtain ⟨⟨p₁, status, out⟩, read, rfl⟩ := Option.map_eq_some_iff.mp step
      obtain ⟨q₁, read', alike'⟩ := alike.readInput fits positive read
      exact ⟨_, by simp only [read', Option.map_some], alike'.setLoop i _⟩
  | write =>
      simp only [pc] at step ⊢
      cases chunk : loop.chunk with
      | nil =>
          rw [chunk] at step
          cases step
          exact ⟨_, rfl, alike.setLoop i _⟩
      | cons x rest =>
          rw [chunk] at step
          obtain ⟨⟨p₁, status, count⟩, write, rfl⟩ := Option.map_eq_some_iff.mp step
          obtain ⟨q₁, write', alike'⟩ := alike.writeOutput fits (by simp) write
          exact ⟨_, by simp only [write', Option.map_some], alike'.setLoop i _⟩
  | fail =>
      rw [pc] at step
      exact alike.control_setLoop step
  | complete =>
      rw [pc] at step
      exact alike.control_setLoop step
  | stopIn =>
      simp only [pc] at step ⊢
      cases i with
      | zero =>
          cases step
          exact ⟨_, rfl, alike.setLoop 0 _⟩
      | succ i =>
          obtain ⟨p₁, stop, rfl⟩ := Option.map_eq_some_iff.mp step
          obtain ⟨q₁, stop', alike'⟩ := alike.stopMachine fits stop
          exact ⟨_, by simp only [stop', Option.map_some], alike'.setLoop (i + 1) _⟩
  | stopOut =>
      rw [pc] at step
      obtain ⟨p₁, stop, rfl⟩ := Option.map_eq_some_iff.mp step
      obtain ⟨q₁, stop', alike'⟩ := alike.stopMachine fits stop
      exact ⟨_, by simp only [stop', Option.map_some], alike'.setLoop i _⟩
  | clear =>
      rw [pc] at step
      exact alike.control_setLoop step
  | leave =>
      rw [pc] at step
      exact alike.control step

end Alike

/-- **Every run of a chain of ring buffers is a run of the chain of byte queues.** -/
theorem ring_chain_simulated {hosts : Nat → Host} {aligns : List Nat} {buflen : Nat → Nat}
    {bytes : List UInt8} (fits : ∀ i, (hosts i).Fits) (aligned : ∀ align ∈ aligns, 0 < align)
    (positive : ∀ i, 0 < buflen i) {p : Pipeline Ring}
    (reached : (pipelineSystem (ringChain hosts buflen) bytes (newRings aligns)).Reach p) :
    ∃ q, (pipelineSystem (queueChain buflen) bytes
      (List.replicate aligns.length {})).Reach q ∧ Alike p q := by
  refine reached.simulate (fun p start => ?_) fun p act p' q alike step => ?_
  · subst start
    refine ⟨_, rfl, ?_, ?_, rfl, rfl, ?_, fun i r b here there => ?_⟩
    · simp [newRings]
    · simp [newRings]
    · simp [newRings]
    · obtain ⟨align, member, rfl⟩ : ∃ align ∈ aligns,
          r = { createBuffer with blockAlign := align } := by
        have placed : r ∈ aligns.map fun align => { createBuffer with blockAlign := align } :=
          List.mem_of_getElem? here
        obtain ⟨align, member, same⟩ := List.mem_map.mp placed
        exact ⟨align, member, same.symm⟩
      have empty : b ∈ List.replicate aligns.length ({} : ByteQueue) := List.mem_of_getElem? there
      obtain rfl : b = {} := List.eq_of_mem_replicate empty
      exact simulates_start (aligned align member)
  · cases act with
    | main => exact alike.control step
    | segment i choice =>
        obtain ⟨thread, here, step⟩ := Option.bind_eq_some_iff.mp step
        have there : q.stream.segments[i]? = some thread := by rw [← alike.stream, here]
        simp only [pipelineSystem, there, Option.bind_some]
        cases pc : thread.pc with
        | active =>
            rw [pc] at step
            obtain ⟨loop, found, step⟩ := Option.bind_eq_some_iff.mp step
            have found' : q.loops[i]? = some loop := by rw [← alike.loops, found]
            obtain ⟨q', step', alike'⟩ := alike.segmentRun fits positive step
            exact ⟨q', by simp only [found', Option.bind_some, step'], alike'⟩
        | _ =>
            rw [pc] at step
            exact alike.control step

end Bingewatch.Stream
