import Bingewatch.Stream.Pipeline

/-!
# A chain of rings beside a chain of queues

`ring_chain_simulated` leads every run of the chain of the source beside a run of the chain of byte
queues. Here is the other direction as well: a thread of one chain can take a step exactly when the
same thread of the other can, and then the two stand alike again. What is shown of a schedule of the
one then holds of the same schedule of the other.
-/

set_option autoImplicit false

namespace Bingewatch.Stream

open Foundation Machine Buffer

namespace Alike

variable {hosts : Nat → Host} {buflen : Nat → Nat} {p : Pipeline Ring} {q : Pipeline ByteQueue}
  {i : Nat}

theorem control_beside (alike : Alike p q) (act : Act) :
    Option.Rel Alike (p.control act) (q.control act) := by
  simp only [Pipeline.control, alike.stream]
  cases streamSystem.step q.stream act with
  | none => exact .none
  | some stream =>
      exact .some ⟨rfl, alike.loops, alike.source, alike.sink, alike.places, alike.simulated⟩

/-- A call on a ring returns, as the call on the queue in its place does. -/
theorem callBuffer_beside (fits : ∀ i, (hosts i).Fits) (alike : Alike p q) {r : Ring}
    {b : ByteQueue} (here : p.buffers[i]? = some r) (there : q.buffers[i]? = some b)
    {request : Call} (asks : SegmentCall request) :
    Foundation.Alike Alike (p.callBuffer (ringChain hosts buflen) i r request)
      (q.callBuffer (queueChain buflen) i b request) := by
  obtain ⟨r', answers, -⟩ :=
    simulates_call (fits i) (alike.simulated i r b here there) request asks
  have call : p.callBuffer (ringChain hosts buflen) i r request =
      some ({ p with buffers := p.buffers.set i r' }, (b.call request).2) := by
    simp only [Pipeline.callBuffer, ringChain, answers, Option.map_some]
  obtain ⟨q', call', alike'⟩ := alike.callBuffer fits here there call asks
  rw [call, call']
  exact .some ⟨alike', rfl⟩

theorem readInput_beside (fits : ∀ i, (hosts i).Fits) (positive : ∀ i, 0 < buflen i)
    (alike : Alike p q) (i : Nat) (choice : Choice) :
    Foundation.Alike Alike (p.readInput (ringChain hosts buflen) i choice)
      (q.readInput (queueChain buflen) i choice) := by
  cases i with
  | zero =>
      by_cases given : choice.size ≤ buflen 0 ∧ choice.size ≤ q.source.length ∧
          (choice.complete = true → choice.size = q.source.length)
      · have ring : p.readInput (ringChain hosts buflen) 0 choice = _ :=
          if_pos (alike.source ▸ given)
        have queue : q.readInput (queueChain buflen) 0 choice = _ := if_pos given
        rw [ring, queue, alike.source]
        exact .some ⟨⟨alike.stream, alike.loops, rfl, alike.sink, alike.places, alike.simulated⟩,
          rfl⟩
      · have ring : p.readInput (ringChain hosts buflen) 0 choice = _ :=
          if_neg (alike.source ▸ given)
        have queue : q.readInput (queueChain buflen) 0 choice = _ := if_neg given
        rw [ring, queue]
        exact .none
  | succ i =>
      simp only [Pipeline.readInput]
      cases here : p.buffers[i]? with
      | none =>
          rw [alike.no_buffer here]
          exact .none
      | some r =>
          obtain ⟨b, there, -⟩ := alike.buffer here
          rw [there, Option.bind_some, Option.bind_some]
          have asks : SegmentCall (.read (buflen (i + 1))) := positive (i + 1)
          refine rel_bind (alike.callBuffer_beside fits here there asks) ?_
          rintro ⟨p', answer⟩ ⟨q', _⟩ ⟨alike', rfl⟩
          cases answer with
          | got status out => exact .some ⟨alike', rfl⟩
          | _ => exact .none

theorem writeOutput_beside (fits : ∀ i, (hosts i).Fits) (alike : Alike p q) (i : Nat)
    {data : List UInt8} (carries : data ≠ []) (choice : Choice) :
    Foundation.Alike Alike (p.writeOutput (ringChain hosts buflen) i data choice)
      (q.writeOutput (queueChain buflen) i data choice) := by
  simp only [Pipeline.writeOutput]
  cases here : p.buffers[i]? with
  | none =>
      rw [alike.no_buffer here]
      simp only [alike.sink]
      split
      · exact .some ⟨⟨alike.stream, alike.loops, alike.source, rfl, alike.places, alike.simulated⟩,
          rfl⟩
      · exact .none
  | some r =>
      obtain ⟨b, there, -⟩ := alike.buffer here
      rw [there]
      refine rel_bind (alike.callBuffer_beside fits here there carries) ?_
      rintro ⟨p', answer⟩ ⟨q', _⟩ ⟨alike', rfl⟩
      cases answer with
      | wrote status count => exact .some ⟨alike', rfl⟩
      | _ => exact .none

theorem stopMachine_beside (fits : ∀ i, (hosts i).Fits) (alike : Alike p q) (i : Nat) :
    Option.Rel Alike (p.stopMachine (ringChain hosts buflen) i)
      (q.stopMachine (queueChain buflen) i) := by
  simp only [Pipeline.stopMachine]
  cases here : p.buffers[i]? with
  | none =>
      rw [alike.no_buffer here]
      exact .some alike
  | some r =>
      obtain ⟨b, there, -⟩ := alike.buffer here
      rw [there]
      exact rel_map (alike.callBuffer_beside fits here there trivial) fun _ _ alike' => alike'.1

theorem segmentRun_beside (fits : ∀ i, (hosts i).Fits) (positive : ∀ i, 0 < buflen i)
    (alike : Alike p q) (i : Nat) (loop : SegmentLoop) (choice : Choice) :
    Option.Rel Alike (p.segmentRun (ringChain hosts buflen) i loop choice)
      (q.segmentRun (queueChain buflen) i loop choice) := by
  have turn : ∀ (act : Act) (new : SegmentLoop), Option.Rel Alike
      ((p.control act).map fun p => p.setLoop i new)
      ((q.control act).map fun q => q.setLoop i new) := fun act new =>
    rel_map (alike.control_beside act) fun _ _ alike' => alike'.setLoop i new
  unfold Pipeline.segmentRun
  cases pc : loop.pc with
  | start => exact turn _ _
  | top =>
      simp only [alike.stream]
      split
      · exact .some alike
      · split
        · exact .some (alike.setLoop i _)
        · split
          · exact .some (alike.setLoop i _)
          · exact turn _ _
  | read =>
      refine rel_map (alike.readInput_beside fits positive i choice) ?_
      rintro ⟨p', result⟩ ⟨q', _⟩ ⟨alike', rfl⟩
      exact alike'.setLoop i _
  | write =>
      cases chunk : loop.chunk with
      | nil => exact .some (alike.setLoop i _)
      | cons x rest =>
          refine rel_map (alike.writeOutput_beside fits i (by simp) choice) ?_
          rintro ⟨p', result⟩ ⟨q', _⟩ ⟨alike', rfl⟩
          exact alike'.setLoop i _
  | fail => exact turn _ _
  | complete => exact turn _ _
  | stopIn =>
      cases i with
      | zero => exact .some (alike.setLoop 0 _)
      | succ i =>
          exact rel_map (alike.stopMachine_beside fits i) fun _ _ alike' => alike'.setLoop _ _
  | stopOut =>
      exact rel_map (alike.stopMachine_beside fits i) fun _ _ alike' => alike'.setLoop _ _
  | clear => exact turn _ _
  | leave => exact alike.control_beside _

/-- **The two chains move side by side**: a thread of one can take a step exactly when the same
thread of the other can. -/
theorem step_beside (fits : ∀ i, (hosts i).Fits) (positive : ∀ i, 0 < buflen i)
    (alike : Alike p q) {bytes : List UInt8} {rings : List Ring} {queues : List ByteQueue}
    (act : PipelineAct) :
    Option.Rel Alike ((pipelineSystem (ringChain hosts buflen) bytes rings).step p act)
      ((pipelineSystem (queueChain buflen) bytes queues).step q act) := by
  cases act with
  | main => exact alike.control_beside .main
  | segment i choice =>
      simp only [pipelineSystem, alike.stream]
      cases q.stream.segments[i]? with
      | none => exact .none
      | some thread =>
          simp only [Option.bind_some]
          cases pc : thread.pc with
          | active =>
              simp only [alike.loops]
              cases q.loops[i]? with
              | none => exact .none
              | some loop => exact alike.segmentRun_beside fits positive i loop choice
          | _ => exact alike.control_beside _

end Alike

end Bingewatch.Stream
