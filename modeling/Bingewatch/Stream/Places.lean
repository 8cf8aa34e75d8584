import Bingewatch.Stream.Delivery

/-!
# Where the threads of a linear stream are

`Delivering` says what the machines of a chain hold. Here is where its threads can be: which of them
is in `callback_complete` and has the lock, which buffers were stopped, and which readers were told
of it. `Hop` says once what a step of a segment can be in a stream that nobody stops and in which no
call fails, and every invariant is derived from that.

A segment stops the buffer it writes to when it is about to leave, and the next one is told by the
buffer. So the segments complete in the order of the chain, and no two of them are in a callback at
the same time.
-/

set_option autoImplicit false

namespace Bingewatch.Stream

open Foundation Machine Buffer

/-! ## What a step of a segment does -/

namespace Pipeline

/-- The `i`-th segment's thread becomes another. -/
def withThread {β : Type} (p : Pipeline β) (i : Nat) (thread : SegmentThread) : Pipeline β :=
  { p with stream := { p.stream with segments := p.stream.segments.set i thread } }

/-- The flags of the `j`-th buffer: it was stopped, and it has told its reader. -/
def stops (p : Pipeline ByteQueue) (j : Nat) : Option Bool :=
  p.buffers[j]?.map fun b => b.stopped

def told (p : Pipeline ByteQueue) (j : Nat) : Option Bool :=
  p.buffers[j]?.map fun b => b.completed

end Pipeline

/-- The steps of a segment in its loop, when nobody stops the stream and no call fails. -/
inductive Hop (buflen : Nat → Nat) (choice : Choice) (p : Pipeline ByteQueue) (i : Nat)
    (thread : SegmentThread) (loop : SegmentLoop) : Pipeline ByteQueue → Prop where
  | start (pc : loop.pc = .start) :
      Hop buflen choice p i thread loop
        ((p.withThread i { thread with running := true }).setLoop i { loop with pc := .top })
  | ready (pc : loop.pc = .top) (state : p.stream.state = .ready) :
      Hop buflen choice p i thread loop p
  | ends (pc : loop.pc = .top) (begun : Begun p.stream) (complete : loop.doComplete = true) :
      Hop buflen choice p i thread loop (p.setLoop i { loop with pc := .complete })
  | asks (pc : loop.pc = .top) (begun : Begun p.stream) (incomplete : loop.doComplete = false) :
      Hop buflen choice p i thread loop (p.setLoop i { loop with pc := .read })
  | read (pc : loop.pc = .read) {p₁ : Pipeline ByteQueue} {status : IoStatus} {out : List UInt8}
      (read : p.readInput (queueChain buflen) i choice = some (p₁, status, out)) :
      Hop buflen choice p i thread loop (p₁.setLoop i (loop.afterRead status out))
  | handed (pc : loop.pc = .write) (nothing : loop.chunk = []) :
      Hop buflen choice p i thread loop (p.setLoop i { loop with pc := .top })
  | write (pc : loop.pc = .write) (holds : loop.chunk ≠ []) {p₁ : Pipeline ByteQueue}
      {status : IoStatus} {count : Nat}
      (write : p.writeOutput (queueChain buflen) i loop.chunk choice = some (p₁, status, count)) :
      Hop buflen choice p i thread loop (p₁.setLoop i (loop.afterWrite status count))
  | callback (pc : loop.pc = .complete) (free : p.stream.lock = none) :
      Hop buflen choice p i thread loop
        (({ p with stream := { p.stream with lock := some i } }.withThread i
          { thread with pc := .completeRead }).setLoop i { loop with pc := .stopIn })
  | stopIn (pc : loop.pc = .stopIn) {p₁ : Pipeline ByteQueue}
      (stop : i = 0 ∧ p₁ = p ∨ ∃ j, i = j + 1 ∧ p.stopMachine (queueChain buflen) j = some p₁) :
      Hop buflen choice p i thread loop (p₁.setLoop i { loop with pc := .stopOut })
  | stopOut (pc : loop.pc = .stopOut) {p₁ : Pipeline ByteQueue}
      (stop : p.stopMachine (queueChain buflen) i = some p₁) :
      Hop buflen choice p i thread loop (p₁.setLoop i { loop with pc := .clear })
  | clear (pc : loop.pc = .clear) :
      Hop buflen choice p i thread loop
        ((p.withThread i { thread with running := false }).setLoop i
          { loop with doComplete := false, pc := .leave })
  | leave (pc : loop.pc = .leave) :
      Hop buflen choice p i thread loop (p.withThread i { thread with pc := .exited })

section Hops

variable {buflen : Nat → Nat} {choice : Choice} {bytes : List UInt8} {p p' : Pipeline ByteQueue}
  {i : Nat} {thread : SegmentThread} {loop : SegmentLoop}

/-- A thread in its loop sets its running flag, or leaves. -/
theorem control_flag (there : p.stream.segments[i]? = some thread) (active : thread.pc = .active)
    (running : Bool) : p.control (.segment i (.flag running)) =
      some (p.withThread i { thread with running := running }) := by
  simp only [Pipeline.control, streamSystem, there, Option.bind_some, segmentStep, active]
  rfl

theorem control_leave (there : p.stream.segments[i]? = some thread) (active : thread.pc = .active) :
    p.control (.segment i .leave) = some (p.withThread i { thread with pc := .exited }) := by
  simp only [Pipeline.control, streamSystem, there, Option.bind_some, segmentStep, active]
  rfl

/-- A thread in its loop calls `callback_complete`, when the lock is free. -/
theorem control_complete (there : p.stream.segments[i]? = some thread)
    (active : thread.pc = .active) : p.control (.segment i .complete) =
      if p.stream.lock = none then
        some ({ p with stream := { p.stream with lock := some i } }.withThread i
          { thread with pc := .completeRead })
      else none := by
  simp only [Pipeline.control, streamSystem, there, Option.bind_some, segmentStep, active]
  by_cases free : p.stream.lock = none
  · simp only [free, if_true]
    rfl
  · simp only [free, if_false]
    rfl

/-- **A step of a segment in its loop** is a hop. -/
theorem hop_of_step (inv : Delivering bytes p) (there : p.stream.segments[i]? = some thread)
    (active : thread.pc = .active) (here : p.loops[i]? = some loop)
    (step : p.segmentRun (queueChain buflen) i loop choice = some p') :
    Hop buflen choice p i thread loop p' := by
  have calm := calm_reach inv.orderly
  have ok := inv.loop i loop here
  unfold Pipeline.segmentRun at step
  cases pc : loop.pc with
  | start =>
      simp only [pc, control_flag there active, Option.map_some, Option.some.injEq] at step
      exact step ▸ .start pc
  | top =>
      simp only [pc] at step
      split at step
      · next ready =>
          cases step
          exact .ready pc ready
      · next notReady =>
          obtain ⟨isRunning, begun⟩ := calm.isRunning there active notReady
          rw [isRunning] at step
          split at step
          · next complete =>
              cases step
              exact .ends pc begun complete
          · next incomplete =>
              cases step
              exact .asks pc begun (by simpa using incomplete)
  | read =>
      rw [pc] at step
      obtain ⟨⟨p₁, status, out⟩, read, rfl⟩ := Option.map_eq_some_iff.mp step
      exact .read pc read
  | write =>
      simp only [pc] at step
      cases chunk : loop.chunk with
      | nil =>
          rw [chunk] at step
          cases step
          have hop : Hop buflen choice p i thread loop (p.setLoop i { loop with pc := .top }) :=
            .handed pc chunk
          simpa only [chunk] using hop
      | cons x rest =>
          rw [chunk] at step
          obtain ⟨⟨p₁, status, count⟩, write, rfl⟩ := Option.map_eq_some_iff.mp step
          exact .write pc (by simp [chunk]) (by rw [chunk]; exact write)
  | fail => exact absurd pc ok.noFail
  | complete =>
      simp only [pc, control_complete there active] at step
      split at step
      · next free =>
          cases step
          exact .callback pc free
      · cases step
  | stopIn =>
      simp only [pc] at step
      cases i with
      | zero =>
          cases step
          exact .stopIn pc (.inl ⟨rfl, rfl⟩)
      | succ i =>
          obtain ⟨p₁, stop, rfl⟩ := Option.map_eq_some_iff.mp step
          exact .stopIn pc (.inr ⟨i, rfl, stop⟩)
  | stopOut =>
      rw [pc] at step
      obtain ⟨p₁, stop, rfl⟩ := Option.map_eq_some_iff.mp step
      exact .stopOut pc stop
  | clear =>
      simp only [pc, control_flag there active, Option.map_some, Option.some.injEq] at step
      exact step ▸ .clear pc
  | leave =>
      simp only [pc, control_leave there active, Option.some.injEq] at step
      exact step ▸ .leave pc

end Hops

/-! ## The flags of the buffers -/

namespace Pipeline

variable {buflen : Nat → Nat} {choice : Choice} {p p₁ : Pipeline ByteQueue} {i : Nat}

/-- A call on one buffer. -/
theorem flags_set {b : ByteQueue} (here : p.buffers[i]? = some b) (new : ByteQueue) (j : Nat) :
    let p₁ : Pipeline ByteQueue := { p with buffers := p.buffers.set i new }
    (p₁.stops j = if j = i then some new.stopped else p.stops j) ∧
      (p₁.told j = if j = i then some new.completed else p.told j) := by
  have within := (List.getElem?_eq_some_iff.mp here).1
  by_cases same : j = i
  · subst same
    simp [stops, told, List.getElem?_set_self within]
  · simp [stops, told, same, List.getElem?_set_ne (Ne.symm same)]

theorem stops_of_some {b : ByteQueue} (here : p.buffers[i]? = some b) :
    p.stops i = some b.stopped := by
  rw [stops, here, Option.map_some]

theorem told_of_some {b : ByteQueue} (here : p.buffers[i]? = some b) :
    p.told i = some b.completed := by
  rw [told, here, Option.map_some]

/-- What a queue answers to a read, and to a write. -/
theorem call_read_flags (b : ByteQueue) (request : Nat) : ∃ status out,
    (b.call (.read request)).2 = .got status out ∧
      (b.call (.read request)).1.stopped = b.stopped ∧
      ((b.call (.read request)).1.completed = true → b.completed = true ∨ status = .complete) := by
  simp only [ByteQueue.call]
  split
  · exact ⟨_, _, rfl, rfl, Or.inl⟩
  · split
    · exact ⟨_, _, rfl, rfl, fun _ => .inr rfl⟩
    · exact ⟨_, _, rfl, rfl, Or.inl⟩

theorem call_write_flags (b : ByteQueue) (data : List UInt8) : ∃ status count,
    (b.call (.write data)).2 = .wrote status count ∧
      (b.call (.write data)).1.stopped = b.stopped ∧
      (b.call (.write data)).1.completed = b.completed := by
  simp only [ByteQueue.call]
  split <;> exact ⟨_, _, rfl, rfl, rfl⟩

/-- A read stops nothing, and tells only a reader that gets `IO_COMPLETE`. -/
theorem readInput_flags {status : IoStatus} {out : List UInt8}
    (read : p.readInput (queueChain buflen) i choice = some (p₁, status, out)) (j : Nat) :
    p₁.stops j = p.stops j ∧
      (p₁.told j = some true → p.told j = some true ∨ i = j + 1 ∧ status = .complete) := by
  cases i with
  | zero =>
      simp only [readInput] at read
      split at read
      · cases read
        exact ⟨rfl, Or.inl⟩
      · cases read
  | succ i =>
      obtain ⟨b, here, read⟩ := Option.bind_eq_some_iff.mp read
      obtain ⟨⟨p₂, answer⟩, call, read⟩ := Option.bind_eq_some_iff.mp read
      obtain ⟨rfl, rfl⟩ := callBuffer_queue call
      obtain ⟨status', out', answers, stopped, completed⟩ :=
        call_read_flags b ((queueChain buflen).buflen (i + 1))
      simp only [answers, Option.some.injEq, Prod.mk.injEq] at read
      obtain ⟨rfl, rfl, rfl⟩ := read
      obtain ⟨stops, told⟩ := flags_set here
        (b.call (.read ((queueChain buflen).buflen (i + 1)))).1 j
      rw [stops, told]
      by_cases same : j = i
      · subst same
        simp only [if_true, stops_of_some here, told_of_some here, stopped, true_and,
          Option.some.injEq]
        exact completed
      · simp only [if_neg same, true_and]
        exact Or.inl

/-- A write changes no flag. -/
theorem writeOutput_flags {data : List UInt8} {status : IoStatus} {count : Nat}
    (write : p.writeOutput (queueChain buflen) i data choice = some (p₁, status, count)) (j : Nat) :
    p₁.stops j = p.stops j ∧ p₁.told j = p.told j := by
  simp only [writeOutput] at write
  split at write
  · next b here =>
      obtain ⟨⟨p₂, answer⟩, call, write⟩ := Option.bind_eq_some_iff.mp write
      obtain ⟨rfl, rfl⟩ := callBuffer_queue call
      obtain ⟨status', count', answers, stopped, completed⟩ := call_write_flags b data
      simp only [answers, Option.some.injEq, Prod.mk.injEq] at write
      obtain ⟨rfl, rfl, rfl⟩ := write
      obtain ⟨stops, told⟩ := flags_set here (b.call (.write data)).1 j
      rw [stops, told]
      by_cases same : j = i
      · subst same
        simp [stops_of_some here, told_of_some here, stopped, completed]
      · simp [same]
  · split at write
    · cases write
      exact ⟨rfl, rfl⟩
    · cases write

/-- A stop stops one buffer. -/
theorem stopMachine_flags (stop : p.stopMachine (queueChain buflen) i = some p₁) (j : Nat) :
    (p₁.stops j = if j = i then (p.stops j).map fun _ => true else p.stops j) ∧
      p₁.told j = p.told j := by
  simp only [stopMachine] at stop
  split at stop
  · next b here =>
      obtain ⟨⟨p₂, answer⟩, call, rfl⟩ := Option.map_eq_some_iff.mp stop
      obtain ⟨rfl, rfl⟩ := callBuffer_queue call
      have flags := flags_set here { b with stopped := true } j
      have stops := stops_of_some here
      have told := told_of_some here
      refine ⟨flags.1.trans ?_, flags.2.trans ?_⟩
      · by_cases same : j = i
        · subst same
          simp [stops]
        · simp [same]
      · by_cases same : j = i
        · subst same
          simp [told]
        · simp [same]
  · next here =>
      cases stop
      refine ⟨?_, rfl⟩
      by_cases same : j = i
      · subst same
        simp [stops, here]
      · simp [same]

end Pipeline

/-! ## Where the threads are -/

/-- A segment's thread and its loop fit together and fit the stream. A thread is in a callback only
between `complete` and `stopIn`; a stream that is `RUNNING` has no segment behind its callback; and
a thread that was not started has not been passed by the stream's own thread. -/
structure PlaceOk (s : IoStream) (i : Nat) (thread : SegmentThread) (loop : SegmentLoop) :
    Prop where
  asks : loop.pc = .read → loop.doComplete = false
  early : ¬Begun s → loop.pc = .start ∨ loop.pc = .top
  calls : thread.pc.locked = true → loop.pc = .stopIn
  running : s.state = .running → loop.pc ≠ .stopOut ∧ loop.pc ≠ .clear ∧ loop.pc ≠ .leave ∧
    (loop.pc = .stopIn → thread.pc = .completeRead ∨ thread.pc = .completeWrite .finishing)
  flag : loop.pc = .leave → thread.running = false
  idle : thread.pc = .idle → s.main = .setReady ∨ ∃ k, k ≤ i ∧ s.main = .starting k

/-- What holds beside `Delivering`: a buffer is stopped exactly when the segment that writes to it
is about to leave or has left, its reader knows when it was told, and who holds the lock is in a
callback. -/
structure Advancing (p : Pipeline ByteQueue) : Prop where
  place : ∀ (i : Nat) (thread : SegmentThread) (loop : SegmentLoop),
    p.stream.segments[i]? = some thread → p.loops[i]? = some loop → PlaceOk p.stream i thread loop
  closed : ∀ (i : Nat) (flag : Bool) (loop : SegmentLoop), p.stops i = some flag →
    p.loops[i]? = some loop → (flag = true ↔ loop.pc = .clear ∨ loop.pc = .leave)
  told : ∀ (i : Nat) (loop : SegmentLoop), p.told i = some true → p.loops[i + 1]? = some loop →
    loop.ended = true
  holder : ∀ k, p.stream.lock = some k → ∃ thread, p.stream.segments[k]? = some thread ∧
    thread.pc.locked = true

section Advance

variable {buflen : Nat → Nat} {choice : Choice} {bytes : List UInt8} {p p' : Pipeline ByteQueue}
  {i : Nat} {thread thread' : SegmentThread} {loop loop' : SegmentLoop}

theorem PlaceOk.congr {s t : IoStream} (ok : PlaceOk s i thread loop) (state : t.state = s.state)
    (main : t.main = s.main) : PlaceOk t i thread loop := by
  have begun : Begun t ↔ Begun s := by rw [Begun, Begun, state]
  exact ⟨ok.asks, fun fresh => ok.early (fun now => fresh (begun.mpr now)), ok.calls,
    fun running => ok.running (state ▸ running), ok.flag, fun idle => main ▸ ok.idle idle⟩

/-- What is to show of a step of the `i`-th segment. -/
theorem Advancing.local (adv : Advancing p)
    (segments : ∀ j, p'.stream.segments[j]? = if j = i then some thread' else
      p.stream.segments[j]?)
    (loops : ∀ j, p'.loops[j]? = if j = i then some loop' else p.loops[j]?)
    (others : ∀ j thread loop, PlaceOk p.stream j thread loop → PlaceOk p'.stream j thread loop)
    (place : PlaceOk p'.stream i thread' loop')
    (stops : ∀ j, j ≠ i → p'.stops j = p.stops j)
    (closed : ∀ flag, p'.stops i = some flag →
      (flag = true ↔ loop'.pc = .clear ∨ loop'.pc = .leave))
    (told : ∀ j, p'.told j = some true → i ≠ j + 1 → p.told j = some true)
    (ended : ∀ j, p'.told j = some true → i = j + 1 → loop'.ended = true)
    (holder : ∀ k, p'.stream.lock = some k → k = i ∧ thread'.pc.locked = true ∨
      k ≠ i ∧ p.stream.lock = some k) : Advancing p' := by
  refine ⟨fun j other found there here => ?_, fun j flag found there here => ?_,
    fun j found tells here => ?_, fun k held => ?_⟩
  · rw [segments] at there
    rw [loops] at here
    by_cases same : j = i
    · subst same
      rw [if_pos rfl] at there here
      cases there
      cases here
      exact place
    · rw [if_neg same] at there here
      exact others j other found (adv.place j other found there here)
  · rw [loops] at here
    by_cases same : j = i
    · subst same
      rw [if_pos rfl] at here
      cases here
      exact closed flag there
    · rw [if_neg same] at here
      rw [stops j same] at there
      exact adv.closed j flag found there here
  · rw [loops] at here
    by_cases same : i = j + 1
    · rw [if_pos same.symm] at here
      cases here
      exact ended j tells same
    · rw [if_neg (Ne.symm same)] at here
      exact adv.told j found (told j tells same) here
  · rcases holder k held with ⟨rfl, locked⟩ | ⟨other, held⟩
    · exact ⟨thread', by rw [segments, if_pos rfl], locked⟩
    · obtain ⟨found, there, locked⟩ := adv.holder k held
      exact ⟨found, by rw [segments, if_neg other, there], locked⟩

/-- A thread in its loop, at a place that a stream in this state can see. -/
theorem PlaceOk.active {s : IoStream} (active : thread.pc = .active)
    (asks : loop.pc = .read → loop.doComplete = false)
    (early : ¬Begun s → loop.pc = .start ∨ loop.pc = .top)
    (running : s.state = .running → loop.pc ≠ .stopIn ∧ loop.pc ≠ .stopOut ∧ loop.pc ≠ .clear ∧
      loop.pc ≠ .leave)
    (flag : loop.pc = .leave → thread.running = false) : PlaceOk s i thread loop where
  asks := asks
  early := early
  calls := fun locked => by simp [active, SegmentPc.locked] at locked
  running := fun now =>
    ⟨(running now).2.1, (running now).2.2.1, (running now).2.2.2, fun pc =>
      absurd pc (running now).1⟩
  flag := flag
  idle := fun idle => by cases active.symm.trans idle

theorem Pipeline.setLoop_loops (within : i < p.loops.length) (j : Nat) :
    (p.setLoop i loop').loops[j]? = if j = i then some loop' else p.loops[j]? := by
  by_cases same : j = i
  · subst same
    rw [if_pos rfl]
    exact List.getElem?_set_self within
  · rw [if_neg same]
    exact List.getElem?_set_ne (Ne.symm same)

theorem Pipeline.withThread_segments (within : i < p.stream.segments.length) (j : Nat) :
    (p.withThread i thread').stream.segments[j]? =
      if j = i then some thread' else p.stream.segments[j]? := by
  by_cases same : j = i
  · subst same
    rw [if_pos rfl]
    exact List.getElem?_set_self within
  · rw [if_neg same]
    exact List.getElem?_set_ne (Ne.symm same)

/-- Who holds the lock is not in its loop. -/
theorem Advancing.holder_ne (adv : Advancing p) (there : p.stream.segments[i]? = some thread)
    (active : thread.pc = .active) {k : Nat} (held : p.stream.lock = some k) : k ≠ i := by
  rintro rfl
  obtain ⟨other, found, locked⟩ := adv.holder k held
  obtain rfl : thread = other := Option.some.inj (there.symm.trans found)
  simp [active, SegmentPc.locked] at locked

/-- The segment calls a machine, or none, and goes on in its loop. -/
theorem Advancing.call (adv : Advancing p) (there : p.stream.segments[i]? = some thread)
    (here : p.loops[i]? = some loop) (active : thread.pc = .active) {p₁ : Pipeline ByteQueue}
    (stream : p₁.stream = p.stream) (loops : p₁.loops = p.loops)
    (place : PlaceOk p.stream i thread loop') (stops : ∀ j, j ≠ i → p₁.stops j = p.stops j)
    (closed : ∀ flag, p₁.stops i = some flag →
      (flag = true ↔ loop'.pc = .clear ∨ loop'.pc = .leave))
    (told : ∀ j, p₁.told j = some true → p.told j = some true ∨ i = j + 1 ∧ loop'.ended = true)
    (ended : loop.ended = true → loop'.ended = true) : Advancing (p₁.setLoop i loop') := by
  refine adv.local (fun j => ?_) (fun j => ?_) (fun _ _ _ ok => ok.congr ?_ ?_)
    (place.congr ?_ ?_) stops closed (fun j tells other => ?_) (fun j tells same => ?_)
    fun k held => ?_
  · have same : (p₁.setLoop i loop').stream = p.stream := stream
    by_cases here : j = i
    · rw [same, if_pos here, here, there]
    · rw [same, if_neg here]
  · rw [Pipeline.setLoop_loops (loops ▸ (List.getElem?_eq_some_iff.mp here).1), loops]
  · exact congrArg IoStream.state stream
  · exact congrArg IoStream.main stream
  · exact congrArg IoStream.state stream
  · exact congrArg IoStream.main stream
  · rcases told j tells with before | ⟨same, -⟩
    · exact before
    · exact absurd same other
  · rcases told j tells with before | ⟨-, now⟩
    · subst same
      exact ended (adv.told j loop before here)
    · exact now
  · have held : p.stream.lock = some k := stream ▸ held
    exact .inr ⟨adv.holder_ne there active held, held⟩

/-- The segment's thread becomes another, and its loop goes on. -/
theorem Advancing.turn (adv : Advancing p) (there : p.stream.segments[i]? = some thread)
    (here : p.loops[i]? = some loop) (active : thread.pc = .active)
    (leaving : loop'.pc = .clear ∨ loop'.pc = .leave ↔ loop.pc = .clear ∨ loop.pc = .leave)
    (ended : loop.ended = true → loop'.ended = true)
    (place : PlaceOk p.stream i thread' loop') :
    Advancing ((p.withThread i thread').setLoop i loop') := by
  refine adv.local (Pipeline.withThread_segments (List.getElem?_eq_some_iff.mp there).1)
    (fun j => Pipeline.setLoop_loops (List.getElem?_eq_some_iff.mp here).1 j)
    (fun _ _ _ ok => ok.congr rfl rfl) (place.congr rfl rfl) (fun _ _ => rfl)
    (fun flag stops => ?_) (fun _ tells _ => tells) (fun j tells same => ?_)
    fun k held => .inr ⟨adv.holder_ne there active held, held⟩
  · rw [leaving]
    exact adv.closed i flag loop stops here
  · subst same
    exact ended (adv.told j loop tells here)

/-- Stopping a dry input changes nothing. -/
theorem Pipeline.Dry.stops {j : Nat} (dry : p.Dry (j + 1)) :
    (p.stops j).map (fun _ => true) = p.stops j := by
  cases here : p.buffers[j]? with
  | none => simp [Pipeline.stops, here]
  | some b => simp [Pipeline.stops, here, (dry b here).1]

theorem PlaceOk.begun {s : IoStream} (ok : PlaceOk s i thread loop) (notStart : loop.pc ≠ .start)
    (notTop : loop.pc ≠ .top) : Begun s := by
  by_contra fresh
  exact (ok.early fresh).elim notStart notTop

/-! ### The hops -/

/-- A call that changes no flag, after which the segment is at `top`, `read`, `write` or
`complete`. -/
theorem Advancing.goesOn (adv : Advancing p) (there : p.stream.segments[i]? = some thread)
    (active : thread.pc = .active) (here : p.loops[i]? = some loop) {p₁ : Pipeline ByteQueue}
    (stream : p₁.stream = p.stream) (loops : p₁.loops = p.loops)
    (stops : ∀ j, p₁.stops j = p.stops j)
    (told : ∀ j, p₁.told j = some true → p.told j = some true ∨ i = j + 1 ∧ loop'.ended = true)
    (notClear : loop.pc ≠ .clear) (notLeave : loop.pc ≠ .leave)
    (place : loop'.pc = .top ∨ (loop'.pc = .read ∧ loop'.doComplete = false ∨ loop'.pc = .write ∨
      loop'.pc = .complete) ∧ Begun p.stream)
    (ended : loop.ended = true → loop'.ended = true) : Advancing (p₁.setLoop i loop') := by
  refine adv.call there here active stream loops (.active active ?_ ?_ ?_ ?_)
    (fun j _ => stops j) (fun flag now => ?_) told ended
  · grind
  · grind
  · grind
  · grind
  · rw [stops] at now
    rw [adv.closed i flag loop now here]
    grind

/-- The segment goes on without a call. -/
theorem Advancing.movesTo (adv : Advancing p) (there : p.stream.segments[i]? = some thread)
    (active : thread.pc = .active) (here : p.loops[i]? = some loop) (notClear : loop.pc ≠ .clear)
    (notLeave : loop.pc ≠ .leave)
    (place : loop'.pc = .top ∨ (loop'.pc = .read ∧ loop'.doComplete = false ∨ loop'.pc = .write ∨
      loop'.pc = .complete) ∧ Begun p.stream)
    (ended : loop.ended = true → loop'.ended = true) : Advancing (p.setLoop i loop') :=
  adv.goesOn there active here rfl rfl (fun _ => rfl) (fun _ => .inl) notClear notLeave place ended

/-- The read of the input. -/
theorem Advancing.reads (adv : Advancing p) (there : p.stream.segments[i]? = some thread)
    (active : thread.pc = .active) (here : p.loops[i]? = some loop) (pc : loop.pc = .read)
    {p₁ : Pipeline ByteQueue} {status : IoStatus} {out : List UInt8}
    (read : p.readInput (queueChain buflen) i choice = some (p₁, status, out)) :
    Advancing (p₁.setLoop i (loop.afterRead status out)) := by
  have begun := (adv.place i thread loop there here).begun (by simp [pc]) (by simp [pc])
  have spec := Pipeline.readInput_spec read
  have flags := Pipeline.readInput_flags read
  have after : loop.afterRead status out =
      { pc := if out = [] then .top else .write
        doComplete := loop.doComplete || status == .complete
        chunk := out } := by
    simp [SegmentLoop.afterRead, spec.noError]
  rw [after]
  refine adv.goesOn there active here spec.touches.stream spec.touches.loops
    (fun j => (flags j).1) (fun j now => ?_) (by simp [pc]) (by simp [pc]) ?_ ?_
  · rcases (flags j).2 now with before | ⟨same, rfl⟩
    · exact .inl before
    · exact .inr ⟨same, by simp [SegmentLoop.ended]⟩
  · by_cases empty : out = []
    · exact .inl (if_pos empty)
    · exact .inr ⟨.inr (.inl (if_neg empty)), begun⟩
  · intro ended
    have flag : loop.doComplete = true := by simpa [SegmentLoop.ended, pc] using ended
    simp [SegmentLoop.ended, flag]

/-- The write of the chunk. -/
theorem Advancing.writes (adv : Advancing p) (there : p.stream.segments[i]? = some thread)
    (active : thread.pc = .active) (here : p.loops[i]? = some loop) (pc : loop.pc = .write)
    (within : i ≤ p.buffers.length) {p₁ : Pipeline ByteQueue} {status : IoStatus} {count : Nat}
    (write : p.writeOutput (queueChain buflen) i loop.chunk choice = some (p₁, status, count)) :
    Advancing (p₁.setLoop i (loop.afterWrite status count)) := by
  have begun := (adv.place i thread loop there here).begun (by simp [pc]) (by simp [pc])
  have spec := Pipeline.writeOutput_spec within write
  have flags := Pipeline.writeOutput_flags write
  have after : loop.afterWrite status count = { loop with chunk := loop.chunk.drop count } := by
    simp only [SegmentLoop.afterWrite, spec.goesOn]
  rw [after]
  exact adv.goesOn there active here spec.touches.stream spec.touches.loops
    (fun j => (flags j).1) (fun j now => .inl ((flags j).2 ▸ now)) (by simp [pc]) (by simp [pc])
    (.inr ⟨.inr (.inl pc), begun⟩) id

/-- The segment takes the lock for its callback. -/
theorem Advancing.locks (adv : Advancing p) (there : p.stream.segments[i]? = some thread)
    (here : p.loops[i]? = some loop) (pc : loop.pc = .complete) :
    Advancing (({ p with stream := { p.stream with lock := some i } }.withThread i
      { thread with pc := .completeRead }).setLoop i { loop with pc := .stopIn }) := by
  have begun := (adv.place i thread loop there here).begun (by simp [pc]) (by simp [pc])
  refine adv.local (Pipeline.withThread_segments (List.getElem?_eq_some_iff.mp there).1)
    (Pipeline.setLoop_loops (List.getElem?_eq_some_iff.mp here).1)
    (fun _ _ _ ok => ok.congr rfl rfl) ?_ (fun _ _ => rfl) (fun flag stops => ?_)
    (fun _ tells _ => tells) (fun j _ _ => by simp [SegmentLoop.ended]) fun k held => ?_
  · refine ⟨by simp, fun fresh => absurd begun fresh, fun _ => rfl, fun _ => ?_, by simp, by simp⟩
    exact ⟨by simp, by simp, by simp, fun _ => .inl rfl⟩
  · rw [adv.closed i flag loop stops here, pc]
    simp
  · obtain rfl : i = k := Option.some.inj held
    exact .inl ⟨rfl, rfl⟩

/-- The segment stops the machine it reads from: the buffer was stopped before, since the segment
has seen its end. -/
theorem Advancing.stopsInput (adv : Advancing p) (there : p.stream.segments[i]? = some thread)
    (active : thread.pc = .active) (here : p.loops[i]? = some loop) (pc : loop.pc = .stopIn)
    (dry : p.Dry i) {p₁ : Pipeline ByteQueue}
    (stop : i = 0 ∧ p₁ = p ∨ ∃ j, i = j + 1 ∧ p.stopMachine (queueChain buflen) j = some p₁) :
    Advancing (p₁.setLoop i { loop with pc := .stopOut }) := by
  have old := adv.place i thread loop there here
  have begun := old.begun (by simp [pc]) (by simp [pc])
  have notRunning : p.stream.state ≠ .running := by
    intro now
    rcases (old.running now).2.2.2 pc with wrong | wrong <;> cases active.symm.trans wrong
  obtain ⟨stream, loops, stops, told⟩ : p₁.stream = p.stream ∧ p₁.loops = p.loops ∧
      (∀ j, p₁.stops j = p.stops j) ∧ ∀ j, p₁.told j = p.told j := by
    rcases stop with ⟨-, rfl⟩ | ⟨j, rfl, stop⟩
    · exact ⟨rfl, rfl, fun _ => rfl, fun _ => rfl⟩
    · have spec := (Pipeline.stopMachine_spec stop).1
      have flags := Pipeline.stopMachine_flags stop
      refine ⟨spec.stream, spec.loops, fun k => ?_, fun k => (flags k).2⟩
      rw [(flags k).1]
      split
      · next found => rw [found, dry.stops]
      · rfl
  refine adv.call there here active stream loops
    (.active active (by simp) (fun fresh => absurd begun fresh) (fun now => absurd now notRunning)
      (by simp))
    (fun j _ => stops j) (fun flag now => ?_) (fun j now => .inl (told j ▸ now))
    (by simp [SegmentLoop.ended])
  rw [stops] at now
  rw [adv.closed i flag loop now here, pc]
  simp

/-- The segment stops the machine it writes to. -/
theorem Advancing.stopsOutput (adv : Advancing p) (there : p.stream.segments[i]? = some thread)
    (active : thread.pc = .active) (here : p.loops[i]? = some loop) (pc : loop.pc = .stopOut)
    {p₁ : Pipeline ByteQueue} (stop : p.stopMachine (queueChain buflen) i = some p₁) :
    Advancing (p₁.setLoop i { loop with pc := .clear }) := by
  have old := adv.place i thread loop there here
  have begun := old.begun (by simp [pc]) (by simp [pc])
  have notRunning : p.stream.state ≠ .running := fun now => (old.running now).1 pc
  have spec := (Pipeline.stopMachine_spec stop).1
  have flags := Pipeline.stopMachine_flags stop
  refine adv.call there here active spec.stream spec.loops
    (.active active (by simp) (fun fresh => absurd begun fresh) (fun now => absurd now notRunning)
      (by simp))
    (fun j other => by rw [(flags j).1, if_neg other]) (fun flag now => ?_)
    (fun j now => .inl ((flags j).2 ▸ now)) (by simp [SegmentLoop.ended])
  rw [(flags i).1, if_pos rfl] at now
  obtain ⟨_, -, rfl⟩ := Option.map_eq_some_iff.mp now
  simp

/-- The segment clears its flags. -/
theorem Advancing.clears (adv : Advancing p) (there : p.stream.segments[i]? = some thread)
    (active : thread.pc = .active) (here : p.loops[i]? = some loop) (pc : loop.pc = .clear) :
    Advancing ((p.withThread i { thread with running := false }).setLoop i
      { loop with doComplete := false, pc := .leave }) := by
  have old := adv.place i thread loop there here
  have begun := old.begun (by simp [pc]) (by simp [pc])
  have notRunning : p.stream.state ≠ .running := fun now => (old.running now).2.1 pc
  exact adv.turn there here active (by simp [pc]) (by simp [SegmentLoop.ended])
    (.active active (by simp) (fun fresh => absurd begun fresh) (fun now => absurd now notRunning)
      (by simp))

/-- The thread of the segment ends. -/
theorem Advancing.leaves (adv : Advancing p) (there : p.stream.segments[i]? = some thread)
    (active : thread.pc = .active) (here : p.loops[i]? = some loop) (pc : loop.pc = .leave) :
    Advancing (p.withThread i { thread with pc := .exited }) := by
  have old := adv.place i thread loop there here
  have same : (p.withThread i { thread with pc := .exited }).setLoop i loop =
      p.withThread i { thread with pc := .exited } := by
    obtain ⟨within, rfl⟩ := List.getElem?_eq_some_iff.mp here
    simp [Pipeline.setLoop, Pipeline.withThread]
  rw [← same]
  refine adv.turn there here active Iff.rfl id ⟨old.asks, old.early, by simp [SegmentPc.locked],
    fun now => ?_, old.flag, by simp⟩
  exact absurd pc (old.running now).2.2.1

/-- **A hop** keeps the threads in their places. -/
theorem Advancing.hop (adv : Advancing p) (inv : Delivering bytes p)
    (there : p.stream.segments[i]? = some thread) (active : thread.pc = .active)
    (here : p.loops[i]? = some loop) (hop : Hop buflen choice p i thread loop p') :
    Advancing p' := by
  cases hop with
  | start pc =>
      exact adv.turn there here active (by simp [pc]) (by simp [SegmentLoop.ended, pc])
        (.active active (by simp) (by simp) (by simp) (by simp))
  | ready => exact adv
  | ends pc begun complete =>
      exact adv.movesTo there active here (by simp [pc]) (by simp [pc]) (.inr ⟨by simp, begun⟩)
        (by simp [SegmentLoop.ended])
  | asks pc begun incomplete =>
      exact adv.movesTo there active here (by simp [pc]) (by simp [pc])
        (.inr ⟨.inl ⟨rfl, incomplete⟩, begun⟩) (by simp [SegmentLoop.ended, pc, incomplete])
  | read pc read => exact adv.reads there active here pc read
  | handed pc nothing =>
      exact adv.movesTo there active here (by simp [pc]) (by simp [pc]) (.inl rfl)
        (by simp [SegmentLoop.ended, pc])
  | write pc holds write =>
      have within : i ≤ p.buffers.length := by
        have := (List.getElem?_eq_some_iff.mp here).1
        have := inv.places
        omega
      exact adv.writes there active here pc within write
  | callback pc free => exact adv.locks there here pc
  | stopIn pc stop =>
      have dry := (inv.loop i loop here).dry (by simp [SegmentLoop.ended, pc])
      exact adv.stopsInput there active here pc dry stop
  | stopOut pc stop => exact adv.stopsOutput there active here pc stop
  | clear pc => exact adv.clears there active here pc
  | leave pc => exact adv.leaves there active here pc

/-- The state and the stream's own thread move on, in a way that the segment can see. -/
theorem PlaceOk.later {s t : IoStream} (ok : PlaceOk s i thread loop)
    (early : ¬Begun t → ¬Begun s) (running : t.state = .running → s.state = .running)
    (idle : thread.pc = .idle → t.main = .setReady ∨ ∃ k, k ≤ i ∧ t.main = .starting k) :
    PlaceOk t i thread loop :=
  ⟨ok.asks, fun fresh => ok.early (early fresh), ok.calls, fun now => ok.running (running now),
    ok.flag, idle⟩

/-! ### The callbacks and the stream's own thread -/

/-- The thread goes on in its callback, or leaves it and the lock. -/
theorem Advancing.inCallback (adv : Advancing p) (there : p.stream.segments[i]? = some thread)
    (here : p.loops[i]? = some loop) (locked : thread.pc.locked = true)
    (holds : p.stream.lock = some i) (stream : IoStream) (notIdle : thread'.pc ≠ .idle)
    (main : stream.main = p.stream.main) (segments : stream.segments = p.stream.segments)
    (state : stream.state = p.stream.state ∨ stream.state = .finishing)
    (lock : thread'.pc.locked = true ∧ stream.lock = p.stream.lock ∨ stream.lock = none)
    (running : stream.state = .running →
      thread'.pc = .completeRead ∨ thread'.pc = .completeWrite .finishing) :
    Advancing ({ p with stream := stream }.withThread i thread') := by
  have old := adv.place i thread loop there here
  have pc := old.calls locked
  have begun : Begun p.stream := old.begun (by simp [pc]) (by simp [pc])
  have states : (¬Begun stream → ¬Begun p.stream) ∧
      (stream.state = .running → p.stream.state = .running) := by
    rcases state with same | finishing
    · exact ⟨fun fresh now => fresh (by rwa [Begun, same]), fun now => same ▸ now⟩
    · exact ⟨fun fresh => absurd ⟨by simp [finishing], by simp [finishing]⟩ fresh,
        fun now => by cases finishing.symm.trans now⟩
  have loops : ∀ j, p.loops[j]? = if j = i then some loop else p.loops[j]? := by
    intro j
    by_cases same : j = i
    · rw [if_pos same, same, here]
    · rw [if_neg same]
  have threads : ∀ j, ({ p with stream := stream }.withThread i thread').stream.segments[j]? =
      if j = i then some thread' else p.stream.segments[j]? := by
    intro j
    rw [← segments]
    exact Pipeline.withThread_segments
      (segments ▸ (List.getElem?_eq_some_iff.mp there).1) j
  refine adv.local threads loops (fun j other found ok => ?_) ?_ (fun _ _ => rfl)
    (fun flag stops => adv.closed i flag loop stops here) (fun _ tells _ => tells)
    (fun j tells same => adv.told j loop tells (same ▸ here)) fun k held => ?_
  · refine ok.later states.1 states.2 fun idle => ?_
    rcases ok.idle idle with first | ⟨k, le, at_k⟩
    · exact .inl (main.trans first)
    · exact .inr ⟨k, le, main.trans at_k⟩
  · refine ⟨old.asks, fun fresh => absurd begun (states.1 fresh), fun _ => pc, fun now => ?_,
      fun left => ?_, fun idle => absurd idle notIdle⟩
    · exact ⟨by simp [pc], by simp [pc], by simp [pc], fun _ => running now⟩
    · cases pc.symm.trans left
  · rcases lock with ⟨still, same⟩ | free
    · have held : stream.lock = some k := held
      rw [same, holds] at held
      exact .inl ⟨(Option.some.inj held).symm, still⟩
    · cases free.symm.trans held

/-- **A step of a callback** keeps the threads in their places. -/
theorem Advancing.callback (adv : Advancing p) (inv : Delivering bytes p)
    (there : p.stream.segments[i]? = some thread) (here : p.loops[i]? = some loop)
    (step : p.control (.segment i .go) = some p') : Advancing p' := by
  have calm := calm_reach inv.orderly
  have orderly := calm.places i thread there
  have old := adv.place i thread loop there here
  have holds : thread.pc.locked = true → p.stream.lock = some i :=
    (calm.inv.segment i thread there).holder
  simp only [Pipeline.control, streamSystem, there, Option.bind_some] at step
  obtain ⟨stream, moved, rfl⟩ := Option.map_eq_some_iff.mp step
  cases pc : thread.pc with
  | completeRead =>
      have locked : thread.pc.locked = true := by simp [pc, SegmentPc.locked]
      rw [pc] at orderly
      simp only [segmentStep, pc] at moved
      split at moved
      · next new sets =>
          obtain rfl := callbackComplete_begun orderly sets
          cases moved
          exact adv.inCallback there here locked (holds locked) p.stream (by simp)
            rfl rfl (.inl rfl) (.inl ⟨rfl, rfl⟩) fun _ => .inr rfl
      · next nothing =>
          cases moved
          have notRunning : p.stream.state ≠ .running := by
            intro now
            simp [callbackComplete, now] at nothing
          exact adv.inCallback there here locked (holds locked) p.stream (by simp)
            rfl rfl (.inl rfl) (.inl ⟨rfl, rfl⟩) fun now => absurd now notRunning
  | completeWrite new =>
      have locked : thread.pc.locked = true := by simp [pc, SegmentPc.locked]
      rw [pc] at orderly
      obtain rfl : new = .finishing := orderly
      simp only [segmentStep, pc, Option.some.injEq] at moved
      subst moved
      exact adv.inCallback there here locked (holds locked)
        { p.stream with state := .finishing } (by simp) rfl rfl (.inr rfl)
        (.inl ⟨rfl, rfl⟩) (by simp)
  | unlock =>
      have locked : thread.pc.locked = true := by simp [pc, SegmentPc.locked]
      simp only [segmentStep, pc, Option.some.injEq] at moved
      subst moved
      have notRunning : p.stream.state ≠ .running := by
        intro now
        rcases (old.running now).2.2.2 (old.calls locked) with wrong | wrong <;>
          cases pc.symm.trans wrong
      exact adv.inCallback there here locked (holds locked)
        { p.stream with lock := none } (by simp) rfl rfl (.inl rfl) (.inr rfl)
        fun now => absurd now notRunning
  | errorRead =>
      rw [pc] at orderly
      exact orderly.elim
  | errorWrite state =>
      rw [pc] at orderly
      exact orderly.elim
  | errorStatus =>
      rw [pc] at orderly
      exact orderly.elim
  | _ => simp [segmentStep, pc] at moved

/-- The segments keep their threads, and see another state and another place of the stream's own
thread. -/
theorem Advancing.mainMoves (adv : Advancing p) {stream : IoStream}
    (segments : stream.segments = p.stream.segments) (lock : stream.lock = p.stream.lock)
    (ok : ∀ j thread loop, j < p.stream.segments.length → PlaceOk p.stream j thread loop →
      PlaceOk stream j thread loop) : Advancing { p with stream := stream } := by
  refine ⟨fun j thread loop there here => ?_, adv.closed, adv.told, fun k held => ?_⟩
  · have there : p.stream.segments[j]? = some thread := segments ▸ there
    exact ok j thread loop (List.getElem?_eq_some_iff.mp there).1
      (adv.place j thread loop there here)
  · have held : p.stream.lock = some k := lock ▸ held
    obtain ⟨thread, there, locked⟩ := adv.holder k held
    exact ⟨thread, segments ▸ there, locked⟩

/-- A thread that was not started yet is one that the stream's own thread comes to. -/
theorem PlaceOk.idle_starting {s : IoStream} (ok : PlaceOk s i thread loop)
    (idle : thread.pc = .idle) {k : Nat} (main : s.main = .starting k) : k ≤ i := by
  rcases ok.idle idle with wrong | ⟨k', le, found⟩
  · cases main.symm.trans wrong
  · obtain rfl : k = k' := by simpa using main.symm.trans found
    exact le

/-- The stream's own thread starts the `k`-th segment. -/
theorem Advancing.starts (adv : Advancing p) (ready : p.stream.state = .ready)
    (threads : p.loops.length = p.stream.segments.length) {k : Nat}
    (main : p.stream.main = .starting k) {seg : SegmentThread}
    (started : p.stream.segments[k]? = some seg) :
    Advancing { p with stream := { p.stream with
      segments := p.stream.segments.set k { seg with pc := .active }
      main := .starting (k + 1) } } := by
  have fresh : ¬Begun p.stream := fun begun => begun.2 ready
  have within := (List.getElem?_eq_some_iff.mp started).1
  refine ⟨fun j thread loop there here => ?_, adv.closed, adv.told, fun m held => ?_⟩
  · by_cases same : j = k
    · subst same
      obtain rfl : { seg with pc := .active } = thread := by
        have set : (p.stream.segments.set j { seg with pc := .active })[j]? =
            some { seg with pc := .active } := List.getElem?_set_self within
        exact Option.some.inj (set.symm.trans there)
      have old := adv.place j seg loop started here
      refine .active rfl old.asks (fun _ => old.early fresh) (fun now => ?_) old.flag
      cases ready.symm.trans now
    · have there : p.stream.segments[j]? = some thread := by
        rw [← there]
        exact (List.getElem?_set_ne (Ne.symm same)).symm
      have old := adv.place j thread loop there here
      refine old.later (fun _ => fresh) id fun idle => .inr ⟨k + 1, ?_, rfl⟩
      have le := old.idle_starting idle main
      omega
  · obtain ⟨thread, there, locked⟩ := adv.holder m held
    -- No callback is under way before the stream was set running.
    have other : m ≠ k := by
      rintro rfl
      have within := (List.getElem?_eq_some_iff.mp there).1
      rw [← threads] at within
      have old := adv.place m thread _ there (List.getElem?_eq_getElem within)
      rcases old.early fresh with wrong | wrong <;> cases (old.calls locked).symm.trans wrong
    exact ⟨thread, (List.getElem?_set_ne (Ne.symm other)).trans there, locked⟩

/-- **A step of the stream's own thread** keeps the threads in their places. -/
theorem Advancing.main (adv : Advancing p) (inv : Delivering bytes p)
    (step : p.control .main = some p') : Advancing p' := by
  obtain ⟨stream, moved, rfl⟩ := Option.map_eq_some_iff.mp step
  have calm := calm_reach inv.orderly
  have moved : mainStep p.stream = some stream := moved
  unfold mainStep at moved
  cases pc : p.stream.main with
  | setReady =>
      have state := calm.inv.state
      rw [pc] at moved state
      cases moved
      have fresh : ¬Begun p.stream := fun begun => begun.1 state
      exact adv.mainMoves rfl rfl fun j thread loop _ ok =>
        ok.later (fun _ => fresh) (by simp) fun _ => .inr ⟨0, Nat.zero_le j, rfl⟩
  | starting k =>
      simp only [pc] at moved
      split at moved
      · next seg started =>
          cases moved
          exact adv.starts (calm.ready (.inl ⟨k, pc⟩)) inv.threads pc started
      · next none_left =>
          cases moved
          have all := List.getElem?_eq_none_iff.mp none_left
          refine adv.mainMoves rfl rfl fun j thread loop within ok =>
            ok.later id id fun idle => ?_
          have le := ok.idle_starting idle pc
          omega
  | setRunning =>
      simp only [pc, Option.some.injEq] at moved
      subst moved
      have fresh : ¬Begun p.stream := fun begun => begun.2 (calm.ready (.inr pc))
      refine adv.mainMoves rfl rfl fun j thread loop _ ok => ?_
      have early := ok.early fresh
      refine ⟨ok.asks, fun _ => early, ok.calls, fun _ => ?_, ok.flag, fun idle => ?_⟩
      · rcases early with now | now <;> simp [now]
      · rcases ok.idle idle with wrong | ⟨k, -, wrong⟩ <;> cases pc.symm.trans wrong
  | setStopped =>
      simp only [pc, Option.some.injEq] at moved
      subst moved
      refine adv.mainMoves rfl rfl fun j thread loop _ ok =>
        ok.later (fun fresh => ?_) (by simp) fun idle => ?_
      · exact absurd ⟨by simp, by simp⟩ fresh
      · rcases ok.idle idle with wrong | ⟨k, -, wrong⟩ <;> cases pc.symm.trans wrong
  | exited => simp [pc] at moved
  | _ =>
      obtain ⟨segments, lock, same⟩ : stream.segments = p.stream.segments ∧
          stream.lock = p.stream.lock ∧ stream.state = p.stream.state := by
        simp only [pc] at moved
        grind
      refine adv.mainMoves segments lock fun j thread loop _ ok =>
        ok.later (fun fresh now => fresh (by rwa [Begun, same])) (fun now => same ▸ now)
          fun idle => ?_
      rcases ok.idle idle with wrong | ⟨k, -, wrong⟩ <;> cases pc.symm.trans wrong

end Advance

end Bingewatch.Stream
