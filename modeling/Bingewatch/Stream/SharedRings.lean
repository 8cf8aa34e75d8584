import Bingewatch.Buffer.RingTurns
import Bingewatch.Stream.Delivery

/-!
# A linear stream whose rings are really shared

The chain of `Stream.Pipeline` takes each call of a machine in one step. In the code the segment
that writes to a ring and the one that reads from it are at work on the same blocks at the same
time. Here the rings between the segments are `Threads.Shared`: every access of `buf_read`,
`buf_write` and `stop_buffer` to a ring is a step of its own, and the threads take these steps in
any order.

Each state of such a chain mirrors one of a chain of byte queues (`Mirrored`), in which a segment in
the middle of a write still holds what the reader cannot see yet. A turn either leaves this second
chain as it is, or is a read in it, or a write of a part of what the segment holds, so the conveyor
of `Delivering` is kept. The one thing that can go wrong is the reader that empties a block
while the writer of the same ring links new blocks behind it; `ApartRings` says that it does not.
-/

set_option autoImplicit false

namespace Bingewatch.Stream

open Foundation Machine Buffer Buffer.Threads

/-! ## The chain -/

/-- A ring buffer between two segments, and those of them that are between the two stores of
`stop_buffer`. -/
structure Port where
  ring : Shared
  stopping : List Nat := []

/-- A turn of `stop_buffer`, called by the given segment; the flag is true when it returns. -/
def Port.stopTurn (b : Port) (i : Nat) : Port × Bool :=
  if i ∈ b.stopping then
    ({ ring := b.ring.setFlush, stopping := b.stopping.erase i }, true)
  else ({ ring := b.ring.disableWriting, stopping := i :: b.stopping }, false)

/-- What the steps outside the rings need of a chain: the lengths of the segments' buffers. -/
def openChain (buflen : Nat → Nat) : Chain Port where
  buflen := buflen
  call := fun _ _ _ => none

namespace Pipeline

/-- The `i`-th buffer is now the given one. -/
def setBuffer {β : Type} (p : Pipeline β) (i : Nat) (b : β) : Pipeline β :=
  { p with buffers := p.buffers.set i b }

/-- A turn of the read of the `i`-th segment. A call goes on until it has an answer. -/
def readTurn (buflen : Nat → Nat) (p : Pipeline Port) (i : Nat) (choice : Choice) :
    Option (Pipeline Port × Option (IoStatus × List UInt8)) :=
  match i with
  | 0 => (p.readInput (openChain buflen) 0 choice).map fun (p, answer) => (p, some answer)
  | i + 1 =>
      p.buffers[i]?.bind fun b =>
        (b.ring.readTurn (buflen (i + 1))).map fun (s, answer) =>
          (p.setBuffer i { b with ring := s }, answer)

/-- A turn of a write of the `i`-th segment. -/
def writeTurn (hosts : Nat → Host) (buflen : Nat → Nat) (p : Pipeline Port) (i : Nat)
    (data : List UInt8) (choice : Choice) :
    Option (Pipeline Port × Option (IoStatus × Nat)) :=
  match p.buffers[i]? with
  | some b =>
      (b.ring.writeTurn (hosts i) data).map fun (s, answer) =>
        (p.setBuffer i { b with ring := s }, answer)
  | none =>
      (p.writeOutput (openChain buflen) i data choice).map fun (p, answer) => (p, some answer)

/-- A turn of the given segment's stop of the `k`-th buffer. -/
def stopTurn (p : Pipeline Port) (k i : Nat) : Pipeline Port × Bool :=
  match p.buffers[k]? with
  | some b => (p.setBuffer k (b.stopTurn i).1, (b.stopTurn i).2)
  | none => (p, true)

/-- A turn of the `i`-th segment in `segment_run`. -/
def segmentTurn (hosts : Nat → Host) (buflen : Nat → Nat) (p : Pipeline Port) (i : Nat)
    (loop : SegmentLoop) (choice : Choice) : Option (Pipeline Port) :=
  let goto (pc : LoopPc) (p : Pipeline Port) : Pipeline Port := p.setLoop i { loop with pc := pc }
  match loop.pc with
  | .read =>
      (p.readTurn buflen i choice).map fun (p, answer) =>
        match answer with
        | some (status, bytes) => p.setLoop i (loop.afterRead status bytes)
        | none => p
  | .write =>
      match loop.chunk with
      | [] => some (goto .top p)
      | x :: rest =>
          (p.writeTurn hosts buflen i (x :: rest) choice).map fun (p, answer) =>
            match answer with
            | some (status, count) => p.setLoop i (loop.afterWrite status count)
            | none => p
  | .stopIn =>
      match i with
      | 0 => some (goto .stopOut p)
      | k + 1 =>
          let (p, done) := p.stopTurn k (k + 1)
          some (if done then goto .stopOut p else p)
  | .stopOut =>
      let (p, done) := p.stopTurn i i
      some (if done then goto .clear p else p)
  | _ => p.segmentRun (openChain buflen) i loop choice

end Pipeline

/-- New shared rings with the given alignments. -/
def newPorts (aligns : List Nat) : List Port :=
  aligns.map fun align => { ring := { ring := { createBuffer with blockAlign := align } } }

/-- The chain with its threads, each access to a ring a step of its own. -/
def sharedSystem (hosts : Nat → Host) (buflen : Nat → Nat) (bytes : List UInt8)
    (aligns : List Nat) : System (Pipeline Port) PipelineAct where
  start := (pipelineSystem (openChain buflen) bytes (newPorts aligns)).start
  step := fun p act =>
    match act with
    | .main => p.control .main
    | .segment i choice =>
        p.stream.segments[i]?.bind fun thread =>
          match thread.pc with
          | .active => p.loops[i]?.bind fun loop => p.segmentTurn hosts buflen i loop choice
          | _ => p.control (.segment i .go)

/-- No segment's read leaves the block behind which the writer of its ring is about to link. -/
def ApartRings (p : Pipeline Port) : PipelineAct → Prop
  | .main => True
  | .segment 0 _ => True
  | .segment (i + 1) _ => ∀ b ∈ p.buffers[i]?, Threads.Apart b.ring .reader

instance (p : Pipeline Port) : ∀ act, Decidable (ApartRings p act)
  | .main => inferInstanceAs (Decidable True)
  | .segment 0 _ => inferInstanceAs (Decidable True)
  | .segment (i + 1) _ =>
      inferInstanceAs (Decidable (∀ b ∈ p.buffers[i]?, Threads.Apart b.ring .reader))

/-! ## The chain of queues it mirrors -/

/-- What the `i`-th segment still holds of its chunk: in the middle of a write to a ring, what the
reader of this ring cannot see yet. -/
def Pipeline.heldAt (p : Pipeline Port) (i : Nat) (chunk : List UInt8) : List UInt8 :=
  match p.buffers[i]? with
  | some b => b.ring.held chunk
  | none => chunk

/-- A ring and its queue, at a segment with the given variables that writes to it. -/
structure PortMirrored (b : Port) (loop : SegmentLoop) (c : ByteQueue) : Prop where
  sharing : Sharing b.ring loop.chunk c
  writes : b.ring.writer ≠ .idle → loop.pc = .write ∧ loop.chunk ≠ []
  stopping : b.stopping ≠ [] → b.ring.Silenced

/-- **A chain of shared rings as a chain of queues.** -/
structure Mirrored (p : Pipeline Port) (q : Pipeline ByteQueue) : Prop where
  stream : q.stream = p.stream
  source : q.source = p.source
  sink : q.sink = p.sink
  places : q.buffers.length = p.buffers.length
  count : q.loops.length = p.loops.length
  loops : ∀ (i : Nat) (loop : SegmentLoop), p.loops[i]? = some loop →
    q.loops[i]? = some { loop with chunk := p.heldAt i loop.chunk }
  rings : ∀ (i : Nat) (b : Port) (loop : SegmentLoop) (c : ByteQueue), p.buffers[i]? = some b →
    p.loops[i]? = some loop → q.buffers[i]? = some c → PortMirrored b loop c

/-- A writer that is not at work holds the whole chunk. -/
theorem held_of_idle {s : Shared} (idle : s.writer = .idle) (chunk : List UInt8) :
    s.held chunk = chunk := by
  rw [Shared.held, idle]
  rfl

theorem heldAt_of_idle {p : Pipeline Port} {i : Nat}
    (idle : ∀ b, p.buffers[i]? = some b → b.ring.writer = .idle) (chunk : List UInt8) :
    p.heldAt i chunk = chunk := by
  unfold Pipeline.heldAt
  split
  · next b here => exact held_of_idle (idle b here) chunk
  · rfl

namespace Mirrored

variable {hosts : Nat → Host} {buflen : Nat → Nat} {p p' : Pipeline Port}
  {q : Pipeline ByteQueue} {i : Nat} {loop : SegmentLoop}

/-- The buffers of the two chains stand in the same places. -/
theorem queue (mirrored : Mirrored p q) {b : Port} (here : p.buffers[i]? = some b) :
    ∃ c, q.buffers[i]? = some c := by
  have within := (List.getElem?_eq_some_iff.mp here).1
  rw [← mirrored.places] at within
  exact ⟨_, List.getElem?_eq_getElem within⟩

theorem no_queue (mirrored : Mirrored p q) (last : p.buffers[i]? = none) :
    q.buffers[i]? = none := by
  rw [List.getElem?_eq_none_iff] at last ⊢
  rw [mirrored.places]
  exact last

/-- A segment that does not write has no writer at work. -/
theorem writer_idle (mirrored : Mirrored p q) (found : p.loops[i]? = some loop)
    (pc : loop.pc ≠ .write) {b : Port} (here : p.buffers[i]? = some b) :
    b.ring.writer = .idle := by
  obtain ⟨c, there⟩ := mirrored.queue here
  by_contra busy
  exact pc ((mirrored.rings i b loop c here found there).writes busy).1

/-- It has the same variables in both chains. -/
theorem loop_eq (mirrored : Mirrored p q) (found : p.loops[i]? = some loop)
    (pc : loop.pc ≠ .write) :
    q.loops[i]? = some loop := by
  rw [mirrored.loops i loop found, heldAt_of_idle fun b here => mirrored.writer_idle found pc here]

/-- A step of the threads of the stream. -/
theorem control (mirrored : Mirrored p q) {act : Act} (step : p.control act = some p') :
    ∃ q', q.control act = some q' ∧ Mirrored p' q' := by
  obtain ⟨stream, moved, rfl⟩ := Option.map_eq_some_iff.mp step
  refine ⟨{ q with stream := stream }, ?_, ?_⟩
  · rw [Pipeline.control, mirrored.stream, moved, Option.map_some]
  · exact ⟨rfl, mirrored.source, mirrored.sink, mirrored.places, mirrored.count, mirrored.loops,
      mirrored.rings⟩

/-- A segment goes on with other variables; its writer, if it has one, is not at work. -/
theorem setLoop (mirrored : Mirrored p q) (new : SegmentLoop)
    (idle : ∀ b, p.buffers[i]? = some b → b.ring.writer = .idle) :
    Mirrored (p.setLoop i new) (q.setLoop i new) := by
  refine ⟨mirrored.stream, mirrored.source, mirrored.sink, mirrored.places, ?_,
    fun j loop found => ?_,
    fun j b loop c here found there => ?_⟩
  · simpa [Pipeline.setLoop] using mirrored.count
  · by_cases same : j = i
    · subst same
      have within : j < p.loops.length := by
        simpa [Pipeline.setLoop] using (List.getElem?_eq_some_iff.mp found).1
      obtain rfl : new = loop :=
        Option.some.inj ((List.getElem?_set_self within).symm.trans found)
      have holds : (p.setLoop j new).heldAt j new.chunk = new.chunk := heldAt_of_idle idle _
      rw [holds]
      exact List.getElem?_set_self (mirrored.count.symm ▸ within)
    · have before : p.loops[j]? = some loop := by
        rw [← found]
        exact (List.getElem?_set_ne (Ne.symm same)).symm
      exact (List.getElem?_set_ne (Ne.symm same)).trans (mirrored.loops j loop before)
  · by_cases same : j = i
    · subst same
      have within : j < p.loops.length := by
        simpa [Pipeline.setLoop] using (List.getElem?_eq_some_iff.mp found).1
      have rest := idle b here
      have old := mirrored.rings j b _ c here (List.getElem?_eq_getElem within) there
      exact ⟨old.sharing.next_input rest _, fun busy => absurd rest busy, old.stopping⟩
    · have before : p.loops[j]? = some loop := by
        rw [← found]
        exact (List.getElem?_set_ne (Ne.symm same)).symm
      exact mirrored.rings j b loop c here before there

/-- A turn on a ring, after which the segment that writes to it may hold less. -/
theorem setBuffer (mirrored : Mirrored p q) {b b' : Port} {c : ByteQueue}
    (here : p.buffers[i]? = some b) (found : p.loops[i]? = some loop)
    (after : PortMirrored b' loop c) :
    Mirrored (p.setBuffer i b')
      ((q.setBuffer i c).setLoop i { loop with chunk := b'.ring.held loop.chunk }) := by
  have within : i < p.buffers.length := (List.getElem?_eq_some_iff.mp here).1
  have withinLoops : i < p.loops.length := (List.getElem?_eq_some_iff.mp found).1
  refine ⟨mirrored.stream, mirrored.source, mirrored.sink, ?_, ?_, fun j other there => ?_,
    fun j d other e place there queue => ?_⟩
  · simpa [Pipeline.setBuffer, Pipeline.setLoop] using mirrored.places
  · simpa [Pipeline.setBuffer, Pipeline.setLoop] using mirrored.count
  · by_cases same : j = i
    · subst same
      obtain rfl : loop = other := Option.some.inj (found.symm.trans there)
      have holds : (p.setBuffer j b').heldAt j loop.chunk = b'.ring.held loop.chunk := by
        have now : (p.setBuffer j b').buffers[j]? = some b' := List.getElem?_set_self within
        simp only [Pipeline.heldAt, now]
      rw [holds]
      exact List.getElem?_set_self (mirrored.count.symm ▸ withinLoops)
    · have elsewhere : (p.setBuffer i b').heldAt j other.chunk = p.heldAt j other.chunk := by
        have now : (p.setBuffer i b').buffers[j]? = p.buffers[j]? :=
          List.getElem?_set_ne (Ne.symm same)
        simp only [Pipeline.heldAt, now]
      rw [elsewhere]
      exact (List.getElem?_set_ne (Ne.symm same)).trans (mirrored.loops j other there)
  · by_cases same : j = i
    · subst same
      obtain rfl : loop = other := Option.some.inj (found.symm.trans there)
      obtain rfl : b' = d := Option.some.inj ((List.getElem?_set_self within).symm.trans place)
      have now : (q.buffers.set j c)[j]? = some c :=
        List.getElem?_set_self (mirrored.places.symm ▸ within)
      obtain rfl : c = e := Option.some.inj (now.symm.trans queue)
      exact after
    · have before : p.buffers[j]? = some d := by
        rw [← place]
        exact (List.getElem?_set_ne (Ne.symm same)).symm
      have queued : q.buffers[j]? = some e := by
        rw [← queue]
        exact (List.getElem?_set_ne (Ne.symm same)).symm
      exact mirrored.rings j d other e before there queued

/-- A turn on a ring that leaves what the writing segment holds alone. -/
theorem setBuffer_held (mirrored : Mirrored p q) {b b' : Port} {c : ByteQueue}
    (here : p.buffers[i]? = some b) (found : p.loops[i]? = some loop)
    (after : PortMirrored b' loop c) (held : b'.ring.held loop.chunk = b.ring.held loop.chunk) :
    Mirrored (p.setBuffer i b') (q.setBuffer i c) := by
  have mirrored' := mirrored.setBuffer here found after
  have loops : q.loops.set i { loop with chunk := b'.ring.held loop.chunk } = q.loops := by
    have now := mirrored.loops i loop found
    simp only [Pipeline.heldAt, here] at now
    obtain ⟨within, same⟩ := List.getElem?_eq_some_iff.mp now
    rw [held, ← same]
    exact List.set_getElem_self within
  have unchanged : (q.setBuffer i c).setLoop i { loop with chunk := b'.ring.held loop.chunk } =
      q.setBuffer i c := by
    rw [Pipeline.setLoop, Pipeline.setBuffer, loops]
  exact unchanged ▸ mirrored'

/-- A turn on a ring that leaves its queue alone as well. -/
theorem setBuffer_same (mirrored : Mirrored p q) {b b' : Port} {c : ByteQueue}
    (here : p.buffers[i]? = some b) (there : q.buffers[i]? = some c)
    (found : p.loops[i]? = some loop) (after : PortMirrored b' loop c)
    (held : b'.ring.held loop.chunk = b.ring.held loop.chunk) :
    Mirrored (p.setBuffer i b') q := by
  have queues : q.buffers.set i c = q.buffers := by
    obtain ⟨within, rfl⟩ := List.getElem?_eq_some_iff.mp there
    exact List.set_getElem_self within
  have unchanged : q.setBuffer i c = q := by
    rw [Pipeline.setBuffer, queues]
  exact unchanged ▸ mirrored.setBuffer_held here found after held

/-! ### The segments -/

/-- The read of the source. -/
theorem read_source (mirrored : Mirrored p q) {choice : Choice} {status : IoStatus}
    {out : List UInt8}
    (read : p.readInput (openChain buflen) 0 choice = some (p', status, out)) :
    status.isError = false ∧ ∃ q', q.readInput (queueChain buflen) 0 choice =
      some (q', status, out) ∧ Mirrored p' q' ∧ p'.loops = p.loops ∧ p'.buffers = p.buffers := by
  simp only [Pipeline.readInput] at read
  split at read
  · next given =>
      simp only [Option.some.injEq, Prod.mk.injEq] at read
      obtain ⟨rfl, rfl, rfl⟩ := read
      refine ⟨by cases choice.complete <;> rfl, { q with source := q.source.drop choice.size },
        ?_, ⟨mirrored.stream, by rw [mirrored.source], mirrored.sink, mirrored.places,
          mirrored.count, mirrored.loops, mirrored.rings⟩, rfl, rfl⟩
      rw [← mirrored.source] at given ⊢
      exact if_pos given
  · cases read

/-- A write to the sink. -/
theorem write_sink (mirrored : Mirrored p q) (last : p.buffers[i]? = none) {data : List UInt8}
    {choice : Choice} {status : IoStatus} {count : Nat}
    (write : p.writeOutput (openChain buflen) i data choice = some (p', status, count)) :
    ∃ q', q.writeOutput (queueChain buflen) i data choice = some (q', status, count) ∧
      Mirrored p' q' ∧ p'.loops = p.loops ∧ p'.buffers = p.buffers := by
  simp only [Pipeline.writeOutput, last] at write
  split at write
  · next taken =>
      simp only [Option.some.injEq, Prod.mk.injEq] at write
      obtain ⟨rfl, rfl, rfl⟩ := write
      refine ⟨{ q with sink := q.sink ++ data.take choice.size }, ?_, ⟨mirrored.stream,
        mirrored.source, by rw [mirrored.sink], mirrored.places, mirrored.count, mirrored.loops,
        mirrored.rings⟩, rfl, rfl⟩
      simp only [Pipeline.writeOutput, mirrored.no_queue last, if_pos taken]
  · cases write

/-- The segment that writes to a ring. -/
theorem loop_of_buffer (mirrored : Mirrored p q) {bytes : List UInt8} (inv : Delivering bytes q)
    {b : Port} (here : p.buffers[i]? = some b) : ∃ loop, p.loops[i]? = some loop := by
  have within := (List.getElem?_eq_some_iff.mp here).1
  have places := inv.places
  have := mirrored.places
  have := mirrored.count
  exact ⟨_, List.getElem?_eq_getElem (by omega)⟩

end Mirrored

/-- A chain of queues that delivers its source and is mirrored by the chain of rings. -/
def Follows (bytes : List UInt8) (p : Pipeline Port) : Prop :=
  ∃ q, Mirrored p q ∧ Delivering bytes q

namespace Mirrored

variable {hosts : Nat → Host} {buflen : Nat → Nat} {p p' : Pipeline Port}
  {q : Pipeline ByteQueue} {i : Nat} {loop : SegmentLoop} {bytes : List UInt8}

/-- The thread of the `i`-th segment has not ended. -/
def Working (q : Pipeline ByteQueue) (i : Nat) : Prop :=
  ∀ thread, q.stream.segments[i]? = some thread → thread.pc ≠ .exited

/-- A turn of a read on a ring. -/
theorem read_ring (mirrored : Mirrored p q) (inv : Delivering bytes q)
    (positive : ∀ i, 0 < buflen i) (running : Working q (i + 1))
    (found : p.loops[i + 1]? = some loop) (pc : loop.pc = .read) {b : Port}
    (here : p.buffers[i]? = some b) (apart : Threads.Apart b.ring .reader) {s : Shared}
    {answer : Option (IoStatus × List UInt8)}
    (turn : b.ring.readTurn (buflen (i + 1)) = some (s, answer)) :
    (answer = none → Follows bytes (p.setBuffer i { b with ring := s })) ∧
      ∀ status out, answer = some (status, out) → Follows bytes
        ((p.setBuffer i { b with ring := s }).setLoop (i + 1) (loop.afterRead status out)) := by
  obtain ⟨writer, there⟩ := mirrored.loop_of_buffer inv here
  obtain ⟨c, queue⟩ := mirrored.queue here
  have old := mirrored.rings i b writer c here there queue
  obtain ⟨sameWriter, held, silenced, spec⟩ := old.sharing.readTurn apart (positive (i + 1)) turn
  have after : ∀ c', Sharing s writer.chunk c' →
      PortMirrored { b with ring := s } writer c' := fun c' sharing =>
    ⟨sharing, fun busy => old.writes (sameWriter ▸ busy),
      fun stops => silenced (old.stopping stops)⟩
  cases spec with
  | goesOn sharing =>
      refine ⟨fun _ => ⟨q, ?_, inv⟩, by simp⟩
      exact mirrored.setBuffer_same here queue there (after c sharing) (held _)
  | @returns status out rest noError front sharing ends =>
      refine ⟨by simp, ?_⟩
      rintro status' out' ⟨⟩
      let q₁ := q.setBuffer i { c with content := rest }
      obtain ⟨touches, before, now, placed⟩ : q.Touches q₁ (2 * (i + 1)) ∧
          q.cell (2 * (i + 1)) = c.content ∧ q₁.cell (2 * (i + 1)) = rest ∧
          q₁.buffers[i]? = some { c with content := rest } :=
        Pipeline.touches_buffer _ queue fun stopped empty =>
          ⟨stopped, (List.append_eq_nil_iff.mp (front.symm.trans empty)).2⟩
      have reads : q.ReadSpec q₁ (i + 1) status out := by
        refine ⟨touches, ?_, noError, fun complete d place => ?_⟩
        · rw [before, now, front]
        · obtain rfl := Option.some.inj (placed.symm.trans place)
          exact ends complete
      refine ⟨_, ?_, inv.read (mirrored.loop_eq found (by simp [pc])) running pc reads⟩
      refine (mirrored.setBuffer_held here there (after _ sharing) (held _)).setLoop _ ?_
      intro d place
      have same : (p.setBuffer i { b with ring := s }).buffers[i + 1]? = p.buffers[i + 1]? :=
        List.getElem?_set_ne (Nat.ne_of_lt (Nat.lt_succ_self i))
      exact mirrored.writer_idle found (by simp [pc]) (same.symm.trans place)

/-- A turn of a write to a ring. -/
theorem write_ring (fits : ∀ i, (hosts i).Fits) (mirrored : Mirrored p q)
    (inv : Delivering bytes q) (running : Working q i) (found : p.loops[i]? = some loop)
    (pc : loop.pc = .write) (carries : loop.chunk ≠ []) {b : Port} (here : p.buffers[i]? = some b)
    {s : Shared} {answer : Option (IoStatus × Nat)}
    (turn : b.ring.writeTurn (hosts i) loop.chunk = some (s, answer)) :
    (answer = none → Follows bytes (p.setBuffer i { b with ring := s })) ∧
      ∀ status count, answer = some (status, count) → Follows bytes
        ((p.setBuffer i { b with ring := s }).setLoop i (loop.afterWrite status count)) := by
  obtain ⟨c, queue⟩ := mirrored.queue here
  have old := mirrored.rings i b loop c here found queue
  obtain ⟨silenced, spec⟩ := old.sharing.writeTurn (fits i) carries turn
  have after : ∀ c', Sharing s loop.chunk c' → PortMirrored { b with ring := s } loop c' :=
    fun c' sharing => ⟨sharing, fun _ => ⟨pc, carries⟩, fun stops => silenced (old.stopping stops)⟩
  have now := mirrored.loops i loop found
  simp only [Pipeline.heldAt, here] at now
  cases spec with
  | @goesOn piece held sharing silent =>
      refine ⟨fun _ => ?_, by simp⟩
      let q₁ := q.setBuffer i { c with content := c.content ++ piece }
      obtain ⟨touches, before, stored, _⟩ : q.Touches q₁ (2 * (i + 1)) ∧
          q.cell (2 * (i + 1)) = c.content ∧ q₁.cell (2 * (i + 1)) = c.content ++ piece ∧
          q₁.buffers[i]? = some { c with content := c.content ++ piece } :=
        Pipeline.touches_buffer _ queue fun stopped empty =>
          ⟨stopped, by rw [silent stopped, List.append_nil, empty]⟩
      have writes : q.WriteSpec q₁ i (b.ring.held loop.chunk) .success piece.length := by
        refine ⟨touches, ?_, rfl⟩
        rw [before, stored, held, List.take_left]
      have delivering := inv.write now running pc writes
      have goes : SegmentLoop.afterWrite { loop with chunk := b.ring.held loop.chunk } .success
          piece.length = { loop with chunk := s.held loop.chunk } := by
        show SegmentLoop.mk _ _ _ = _
        rw [held, List.drop_left]
      rw [goes] at delivering
      exact ⟨_, mirrored.setBuffer here found (after _ sharing), delivering⟩
  | @returns count idle left sharing =>
      refine ⟨by simp, ?_⟩
      rintro status' count' ⟨⟩
      have goes : loop.afterWrite .success count =
          { loop with chunk := b.ring.held loop.chunk } := by
        show SegmentLoop.mk _ _ _ = _
        rw [left]
      rw [goes]
      refine ⟨q, ?_, inv⟩
      -- The segment now has what it held before the write returned, as the other chain says.
      have idleAt : ∀ d, (p.setBuffer i { b with ring := s }).buffers[i]? = some d →
          d.ring.writer = .idle := by
        intro d place
        have within := (List.getElem?_eq_some_iff.mp here).1
        obtain rfl := Option.some.inj ((List.getElem?_set_self within).symm.trans place)
        exact idle
      have mirrored' := (mirrored.setBuffer here found (after c sharing)).setLoop
        { loop with chunk := b.ring.held loop.chunk } idleAt
      have same : ((q.setBuffer i c).setLoop i { loop with chunk := s.held loop.chunk }).setLoop i
          { loop with chunk := b.ring.held loop.chunk } = q := by
        obtain ⟨within, looped⟩ := List.getElem?_eq_some_iff.mp now
        obtain ⟨place, rfl⟩ := List.getElem?_eq_some_iff.mp queue
        simp only [Pipeline.setLoop, Pipeline.setBuffer, List.set_set, ← looped,
          List.set_getElem_self]
      exact same ▸ mirrored'

/-- A turn of `stop_buffer`. The segment that stops a ring is not writing to it, and neither is the
one that does when the ring is stopped from its other side. -/
theorem stop_ring (mirrored : Mirrored p q) {k : Nat} {b : Port} (here : p.buffers[k]? = some b)
    (found : p.loops[k]? = some loop) (idle : b.ring.writer = .idle) {c : ByteQueue}
    (queue : q.buffers[k]? = some c) :
    ((b.stopTurn i).2 = false → Mirrored (p.setBuffer k (b.stopTurn i).1) q) ∧
      ((b.stopTurn i).2 = true →
        Mirrored (p.setBuffer k (b.stopTurn i).1) (q.setBuffer k { c with stopped := true })) := by
  have old := mirrored.rings k b loop c here found queue
  unfold Port.stopTurn
  split
  · next member =>
      refine ⟨by simp, fun _ => mirrored.setBuffer_held here found ⟨?_, old.writes, ?_⟩ rfl⟩
      · exact old.sharing.setFlush idle (old.stopping (List.ne_nil_of_mem member))
      · exact fun _ => old.stopping (List.ne_nil_of_mem member)
  · exact ⟨fun _ => mirrored.setBuffer_same here queue found
      ⟨old.sharing.disableWriting, old.writes, fun _ => .inl rfl⟩ rfl, by simp⟩

/-- A control step followed by a change of the segment's own variables. -/
theorem control_setLoop (mirrored : Mirrored p q) {act : Act} {new : SegmentLoop}
    (idle : ∀ b, p.buffers[i]? = some b → b.ring.writer = .idle)
    (step : (p.control act).map (fun p => p.setLoop i new) = some p') :
    ∃ q', (q.control act).map (fun q => q.setLoop i new) = some q' ∧ Mirrored p' q' := by
  obtain ⟨p₁, moved, rfl⟩ := Option.map_eq_some_iff.mp step
  obtain ⟨q₁, moved', mirrored'⟩ := mirrored.control moved
  obtain ⟨stream, _, rfl⟩ := Option.map_eq_some_iff.mp moved
  exact ⟨q₁.setLoop i new, by rw [moved', Option.map_some], mirrored'.setLoop new idle⟩

/-- The steps of a segment that call no machine are steps of the chain of queues. -/
theorem segmentRun (mirrored : Mirrored p q) (found : p.loops[i]? = some loop) {choice : Choice}
    (quiet : loop.pc ≠ .read ∧ loop.pc ≠ .write ∧ loop.pc ≠ .stopIn ∧ loop.pc ≠ .stopOut)
    (step : p.segmentRun (openChain buflen) i loop choice = some p') :
    ∃ q', q.segmentRun (queueChain buflen) i loop choice = some q' ∧ Mirrored p' q' := by
  have idle : ∀ b, p.buffers[i]? = some b → b.ring.writer = .idle := fun b here =>
    mirrored.writer_idle found quiet.2.1 here
  unfold Pipeline.segmentRun at step ⊢
  cases pc : loop.pc with
  | start | fail | complete | clear =>
      rw [pc] at step
      exact mirrored.control_setLoop idle step
  | leave =>
      rw [pc] at step
      exact mirrored.control step
  | top =>
      simp only [pc, mirrored.stream] at step ⊢
      split at step
      · next ready =>
          cases step
          exact ⟨q, if_pos ready, mirrored⟩
      · next started =>
          rw [if_neg started]
          split at step
          · next ends =>
              cases step
              exact ⟨_, if_pos ends, mirrored.setLoop _ idle⟩
          · next goesOn =>
              rw [if_neg goesOn]
              split at step
              · next running =>
                  cases step
                  exact ⟨_, if_pos running, mirrored.setLoop _ idle⟩
              · next stopped =>
                  rw [if_neg stopped]
                  exact mirrored.control_setLoop idle step
  | read => exact absurd pc quiet.1
  | write => exact absurd pc quiet.2.1
  | stopIn => exact absurd pc quiet.2.2.1
  | stopOut => exact absurd pc quiet.2.2.2

/-- A turn of the stop of the `k`-th buffer, after which the segment goes on or stays. -/
theorem stopTurn (buflen : Nat → Nat) (mirrored : Mirrored p q) (inv : Delivering bytes q)
    {k : Nat} {next : SegmentLoop} (idle : ∀ b, p.buffers[k]? = some b → b.ring.writer = .idle)
    (own : ∀ b, p.buffers[i]? = some b → b.ring.writer = .idle)
    (follows : ∀ q', q.stopMachine (queueChain buflen) k = some q' →
      Delivering bytes (q'.setLoop i next)) :
    Follows bytes (if (p.stopTurn k i).2 then (p.stopTurn k i).1.setLoop i next
      else (p.stopTurn k i).1) := by
  unfold Pipeline.stopTurn
  split
  · next b here =>
      obtain ⟨writer, there⟩ := mirrored.loop_of_buffer inv here
      obtain ⟨c, queue⟩ := mirrored.queue here
      obtain ⟨stays, stops⟩ := mirrored.stop_ring (i := i) here there (idle b here) queue
      cases done : (b.stopTurn i).2 with
      | false => exact ⟨q, stays done, inv⟩
      | true =>
          refine ⟨_, (stops done).setLoop next fun d place => ?_, follows _ ?_⟩
          · by_cases same : k = i
            · subst same
              have within := (List.getElem?_eq_some_iff.mp here).1
              obtain rfl := Option.some.inj ((List.getElem?_set_self within).symm.trans place)
              have rest := idle b here
              unfold Port.stopTurn
              split <;> exact rest
            · exact own d ((List.getElem?_set_ne same).symm.trans place)
          · simp only [Pipeline.stopMachine, queue]
            rfl
  · next last =>
      refine ⟨_, mirrored.setLoop next own, follows q ?_⟩
      simp only [Pipeline.stopMachine, mirrored.no_queue last]

/-- **A turn of a segment.** -/
theorem segmentTurn (fits : ∀ i, (hosts i).Fits) (positive : ∀ i, 0 < buflen i)
    (mirrored : Mirrored p q) (inv : Delivering bytes q) {thread : SegmentThread}
    (there : p.stream.segments[i]? = some thread) (active : thread.pc = .active)
    (found : p.loops[i]? = some loop) {choice : Choice} (apart : ApartRings p (.segment i choice))
    (step : p.segmentTurn hosts buflen i loop choice = some p') : Follows bytes p' := by
  have there' : q.stream.segments[i]? = some thread := mirrored.stream ▸ there
  have running : Working q i := by
    intro other same exited
    obtain rfl : thread = other := Option.some.inj (there'.symm.trans same)
    cases active.symm.trans exited
  unfold Pipeline.segmentTurn at step
  cases pc : loop.pc with
  | read =>
      simp only [pc] at step
      cases i with
      | zero =>
          obtain ⟨⟨p₁, answer⟩, turn, rfl⟩ := Option.map_eq_some_iff.mp step
          obtain ⟨⟨p₂, status, out⟩, read, same⟩ := Option.map_eq_some_iff.mp turn
          obtain ⟨rfl, rfl⟩ : p₂ = p₁ ∧ some (status, out) = answer := Prod.mk.inj same
          obtain ⟨noError, q₁, read', mirrored', loops, buffers⟩ := mirrored.read_source read
          have found' := mirrored.loop_eq found (by simp [pc])
          have step' : q.segmentRun (queueChain buflen) 0 loop choice =
              some (q₁.setLoop 0 (loop.afterRead status out)) := by
            simp only [Pipeline.segmentRun, pc, read', Option.map_some]
          refine ⟨_, mirrored'.setLoop _ fun b here => ?_,
            inv.segmentRun there' active found' step'⟩
          exact mirrored.writer_idle found (by simp [pc]) (buffers ▸ here)
      | succ i =>
          obtain ⟨⟨p₁, answer⟩, turn, rfl⟩ := Option.map_eq_some_iff.mp step
          obtain ⟨b, here, turn⟩ := Option.bind_eq_some_iff.mp turn
          obtain ⟨⟨s, answer'⟩, taken, same⟩ := Option.map_eq_some_iff.mp turn
          obtain ⟨rfl, rfl⟩ : p.setBuffer i { b with ring := s } = p₁ ∧ answer' = answer :=
            Prod.mk.inj same
          obtain ⟨goesOn, returns⟩ :=
            mirrored.read_ring inv positive running found pc here (apart b here) taken
          cases answer' with
          | none => exact goesOn rfl
          | some report => exact returns report.1 report.2 rfl
  | write =>
      simp only [pc] at step
      cases chunk : loop.chunk with
      | nil =>
          rw [chunk] at step
          cases step
          have idle : ∀ b, p.buffers[i]? = some b → b.ring.writer = .idle := by
            intro b here
            obtain ⟨c, queue⟩ := mirrored.queue here
            by_contra busy
            exact ((mirrored.rings i b loop c here found queue).writes busy).2 chunk
          have found' : q.loops[i]? = some loop := by
            rw [mirrored.loops i loop found, heldAt_of_idle idle]
          have step' : q.segmentRun (queueChain buflen) i loop choice =
              some (q.setLoop i { pc := .top, doComplete := loop.doComplete }) := by
            simp only [Pipeline.segmentRun, pc, chunk]
          exact ⟨_, mirrored.setLoop _ idle, inv.segmentRun there' active found' step'⟩
      | cons x rest =>
          rw [chunk] at step
          obtain ⟨⟨p₁, answer⟩, turn, rfl⟩ := Option.map_eq_some_iff.mp step
          unfold Pipeline.writeTurn at turn
          split at turn
          · next b here =>
              obtain ⟨⟨s, answer'⟩, taken, same⟩ := Option.map_eq_some_iff.mp turn
              obtain ⟨rfl, rfl⟩ : p.setBuffer i { b with ring := s } = p₁ ∧ answer' = answer :=
                Prod.mk.inj same
              rw [← chunk] at taken
              obtain ⟨goesOn, returns⟩ :=
                mirrored.write_ring fits inv running found pc (by simp [chunk]) here taken
              cases answer' with
              | none => exact goesOn rfl
              | some report => exact returns report.1 report.2 rfl
          · next last =>
              obtain ⟨⟨p₂, status, count⟩, write, same⟩ := Option.map_eq_some_iff.mp turn
              obtain ⟨rfl, rfl⟩ : p₂ = p₁ ∧ some (status, count) = answer := Prod.mk.inj same
              obtain ⟨q₁, write', mirrored', loops, buffers⟩ := mirrored.write_sink last write
              have found' : q.loops[i]? = some loop := by
                rw [mirrored.loops i loop found]
                simp only [Pipeline.heldAt, last]
              have step' : q.segmentRun (queueChain buflen) i loop choice =
                  some (q₁.setLoop i (loop.afterWrite status count)) := by
                simp only [Pipeline.segmentRun, pc, chunk, write', Option.map_some]
              refine ⟨_, mirrored'.setLoop _ fun b here => ?_,
                inv.segmentRun there' active found' step'⟩
              rw [buffers, last] at here
              cases here
  | stopIn =>
      have found' := mirrored.loop_eq found (by simp [pc])
      simp only [pc] at step
      cases i with
      | zero =>
          cases step
          have step' : q.segmentRun (queueChain buflen) 0 loop choice =
              some (q.setLoop 0 { loop with pc := .stopOut }) := by
            simp only [Pipeline.segmentRun, pc]
          exact ⟨_, mirrored.setLoop _ fun b here => mirrored.writer_idle found (by simp [pc]) here,
            inv.segmentRun there' active found' step'⟩
      | succ k =>
          cases step
          have dry : q.Dry (k + 1) := (inv.loop (k + 1) loop found').dry
            (by simp [SegmentLoop.ended, pc])
          refine mirrored.stopTurn buflen inv (fun b here => ?_)
            (fun b here => mirrored.writer_idle found (by simp [pc]) here) fun q' stop => ?_
          · obtain ⟨writer, place⟩ := mirrored.loop_of_buffer inv here
            obtain ⟨c, queue⟩ := mirrored.queue here
            exact ((mirrored.rings k b writer c here place queue).sharing.silent
              (dry c queue).1).1
          · have step' : q.segmentRun (queueChain buflen) (k + 1) loop choice =
                some (q'.setLoop (k + 1) { loop with pc := .stopOut }) := by
              simp only [Pipeline.segmentRun, pc, stop, Option.map_some]
            exact inv.segmentRun there' active found' step'
  | stopOut =>
      have found' := mirrored.loop_eq found (by simp [pc])
      have idle : ∀ b, p.buffers[i]? = some b → b.ring.writer = .idle := fun b here =>
        mirrored.writer_idle found (by simp [pc]) here
      simp only [pc] at step
      cases step
      refine mirrored.stopTurn buflen inv idle idle fun q' stop => ?_
      have step' : q.segmentRun (queueChain buflen) i loop choice =
          some (q'.setLoop i { loop with pc := .clear }) := by
        simp only [Pipeline.segmentRun, pc, stop, Option.map_some]
      exact inv.segmentRun there' active found' step'
  | _ =>
      rw [pc] at step
      have found' := mirrored.loop_eq found (by simp [pc])
      obtain ⟨q', step', mirrored'⟩ := mirrored.segmentRun found (by simp [pc]) step
      exact ⟨q', mirrored', inv.segmentRun there' active found' step'⟩

end Mirrored

/-! ## Delivery -/

section Delivery

variable {hosts : Nat → Host} {buflen : Nat → Nat} {bytes : List UInt8} {aligns : List Nat}
  {p p' : Pipeline Port}

theorem follows_step (fits : ∀ i, (hosts i).Fits) (positive : ∀ i, 0 < buflen i)
    (follows : Follows bytes p) {act : PipelineAct} (apart : ApartRings p act)
    (step : (sharedSystem hosts buflen bytes aligns).step p act = some p') : Follows bytes p' := by
  obtain ⟨q, mirrored, inv⟩ := follows
  have outside : ∀ {act : Act}, p.control act = some p' → Orderly p.stream act →
      (∀ i, act ≠ .segment i .leave) → Follows bytes p' := by
    intro act moved orderly stays
    obtain ⟨q', moved', mirrored'⟩ := mirrored.control moved
    refine ⟨q', mirrored', inv.control moved' ?_ fun i _ leave => absurd leave (stays i)⟩
    rw [mirrored.stream]
    exact orderly
  cases act with
  | main => exact outside step trivial (by simp)
  | segment i choice =>
      obtain ⟨thread, there, step⟩ := Option.bind_eq_some_iff.mp step
      cases pc : thread.pc with
      | active =>
          rw [pc] at step
          obtain ⟨loop, found, step⟩ := Option.bind_eq_some_iff.mp step
          exact mirrored.segmentTurn fits positive inv there pc found apart step
      | _ =>
          rw [pc] at step
          exact outside step trivial (by simp)

/-- New rings are empty queues, and the segments have nothing yet. -/
theorem follows_start (aligned : ∀ align ∈ aligns, 0 < align)
    (start : (sharedSystem hosts buflen bytes aligns).start p) : Follows bytes p := by
  obtain rfl := start
  have queues : (pipelineSystem (queueChain buflen) bytes (List.replicate aligns.length {})).start
      { stream := { segments := List.replicate (aligns.length + 1) {}, stops := [] }
        loops := List.replicate (aligns.length + 1) {}
        source := bytes
        buffers := List.replicate aligns.length {} } := by
    show _ = _
    rw [List.length_replicate]
  have fresh : ∀ (i : Nat) (b : Port), (newPorts aligns)[i]? = some b →
      ∃ align ∈ aligns, b = { ring := { ring := { createBuffer with blockAlign := align } } } := by
    intro i b here
    obtain ⟨align, member, same⟩ := List.mem_map.mp (List.mem_of_getElem? here)
    exact ⟨align, member, same.symm⟩
  refine ⟨_, ⟨?_, rfl, rfl, ?_, ?_, fun i loop found => ?_, fun i b loop c here found queue => ?_⟩,
    delivering_start _ queues⟩
  · simp [newPorts]
  · simp [newPorts]
  · simp [newPorts]
  · obtain rfl : loop = {} := List.eq_of_mem_replicate (List.mem_of_getElem? found)
    rw [heldAt_of_idle fun b here => ?_]
    · simpa [newPorts] using found
    · obtain ⟨align, _, rfl⟩ := fresh i b here
      rfl
  · obtain ⟨align, member, rfl⟩ := fresh i b here
    obtain rfl : c = {} := List.eq_of_mem_replicate (List.mem_of_getElem? queue)
    exact ⟨sharing_start (aligned align member) _, fun busy => absurd rfl busy, by simp⟩

/-- **A linear stream delivers its source through rings that are really shared.** With every access
of the segments' reads, writes and stops to the rings between them a step of its own, whatever
pieces the source gives and the sink takes and in whatever order the threads move: as long as no
reader leaves the block behind which the writer of its ring is about to link new blocks, the sink
holds a prefix of the bytes of the source, all of them once every segment has left its loop, and
every segment has left when the stream is about to be set to `STOPPED`. -/
theorem shared_pipeline_delivers (hosts : Nat → Host) (fits : ∀ i, (hosts i).Fits)
    (aligns : List Nat) (aligned : ∀ align ∈ aligns, 0 < align) (buflen : Nat → Nat)
    (positive : ∀ i, 0 < buflen i) (bytes : List UInt8) (p : Pipeline Port)
    (reached : (sharedSystem hosts buflen bytes aligns).ReachUnder ApartRings p) :
    p.sink <+: bytes ∧ (p.AllLeft → p.sink = bytes) ∧
      (p.stream.main = .setStopped → p.AllLeft) := by
  obtain ⟨q, mirrored, inv⟩ : Follows bytes p :=
    reached.invariant (fun _ => follows_start aligned) fun _ _ _ follows apart step =>
      follows_step fits positive follows apart step
  refine ⟨?_, fun left => ?_, fun last loop member => ?_⟩
  · rw [← mirrored.sink]
    exact inv.sink_prefix
  · rw [← mirrored.sink]
    refine inv.sink_eq fun loop member => ?_
    obtain ⟨i, here⟩ := List.getElem?_of_mem member
    have within : i < p.loops.length := mirrored.count ▸ (List.getElem?_eq_some_iff.mp here).1
    have found := List.getElem?_eq_getElem within
    have gone : p.loops[i].pc = .leave := left _ (List.mem_of_getElem? found)
    rw [Option.some.inj (here.symm.trans (mirrored.loops i _ found))]
    exact gone
  · obtain ⟨i, found⟩ := List.getElem?_of_mem member
    have here := mirrored.loops i loop found
    rw [← mirrored.stream] at last
    have gone := inv.allLeft last _ (List.mem_of_getElem? here)
    exact gone

end Delivery

/-- A chain of two segments that move in turn: the second reads from the ring between them while the
first writes to it and makes it grow. -/
theorem shared_pipeline_delivers_interleaved :
    ∃ p, (sharedSystem (fun _ => tightHost) (fun _ => 2) [7, 8, 9] [1]).ReachUnder ApartRings p ∧
      p.stream.main = .setStopped ∧ p.AllLeft ∧ p.sink = [7, 8, 9] := by
  let chain := sharedSystem (fun _ => tightHost) (fun _ => 2) [7, 8, 9] [1]
  let start : Pipeline Port :=
    { stream := { segments := [{}, {}], stops := [] }
      loops := [{}, {}]
      source := [7, 8, 9]
      buffers := newPorts [1] }
  let first := PipelineAct.segment 0 { size := 2, complete := true }
  let second := PipelineAct.segment 1 { size := 1 }
  let acts := List.replicate 5 PipelineAct.main ++ List.replicate 3 (.segment 0 { size := 1 }) ++
    (List.replicate 50 [first, second]).flatten ++ List.replicate 15 second ++
    List.replicate 8 PipelineAct.main
  have ends : (chain.execUnder ApartRings start acts).map (·.stream.main) = some .setStopped := by
    decide +kernel
  obtain ⟨p, run, last⟩ := Option.map_eq_some_iff.mp ends
  have reached : chain.ReachUnder ApartRings p := .execUnder (.start rfl) run
  obtain ⟨_, whole, left⟩ := shared_pipeline_delivers (fun _ => tightHost)
    (fun _ => tightHost_fits) [1] (by simp) (fun _ => 2) (by simp) [7, 8, 9] p reached
  exact ⟨p, reached, last, left last, whole (left last)⟩

end Bingewatch.Stream
