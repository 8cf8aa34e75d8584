import Bingewatch.Foundation.Routes
import Bingewatch.Stream.Branches

/-!
# Every branch delivers the source

When each machine of a stream is read by one segment and written by one, every route from the source
to a sink is a conveyor of its own (`Foundation.Routes`): a read of a segment with two outputs moves
the bytes onto both branches at once, and each of them hands its copy on. Completion travels along
the branches as it does along a chain, so in the end every sink has everything.
-/

set_option autoImplicit false

namespace Bingewatch.Stream

open Foundation Machine Buffer

/-! ## The routes of a stream -/

/-- The output of a segment on one of its sides. -/
def Wires.outlet (wires : Wires) : Bool → Option Outlet
  | false => some wires.out
  | true => wires.out1

/-- The machine a segment reads, on behalf of its output on one side. -/
def ReadsFrom (plan : List Wires) (hop : Nat × Bool) (m : Option Outlet) : Prop :=
  ∃ wires, plan[hop.1]? = some wires ∧ m = wires.input.map Outlet.ring

def WritesTo (plan : List Wires) (hop : Nat × Bool) (m : Outlet) : Prop :=
  ∃ wires, plan[hop.1]? = some wires ∧ wires.outlet hop.2 = some m

/-- Each machine is read by one segment and written by one, on one side. -/
structure Wired (plan : List Wires) : Prop where
  reader : ∀ (i j : Nat) (v w : Wires), plan[i]? = some v → plan[j]? = some w →
    v.input = w.input → i = j
  writer : ∀ (g h : Nat × Bool) (m : Outlet), WritesTo plan g m → WritesTo plan h m → g = h

/-- A route leads from the source to the `k`-th sink. -/
def Fed (plan : List Wires) (k : Nat) : Prop :=
  ∃ hops, Route (ReadsFrom plan) (WritesTo plan) hops (.sink k)

/-- What a machine holds: the content of a ring, or what a sink has taken. -/
def contentOf (q : Nat → ByteQueue) (sinks : List (List UInt8)) : Outlet → List UInt8
  | .ring i => (q i).content
  | .sink i => (sinks[i]?).getD []

/-- New machines hold nothing. -/
theorem contentOf_new (sinks : Nat) (m : Outlet) :
    contentOf (fun _ => {}) (List.replicate sinks []) m = [] := by
  cases m with
  | ring i => rfl
  | sink k =>
      rw [contentOf, List.getElem?_replicate]
      split <;> rfl

/-- What the sinks hold when one of them has taken more. -/
theorem contentOf_take {q : Nat → ByteQueue} {sinks : List (List UInt8)} {k : Nat}
    {taken : List UInt8} (here : sinks[k]? = some taken) (more : List UInt8) :
    contentOf q (sinks.set k (taken ++ more)) (.sink k) = contentOf q sinks (.sink k) ++ more := by
  rw [contentOf, contentOf, List.getElem?_set_self (List.getElem?_eq_some_iff.mp here).1, here]
  rfl

theorem contentOf_take_other {q : Nat → ByteQueue} {sinks : List (List UInt8)} {k : Nat}
    {new : List UInt8} {m : Outlet} (other : m ≠ .sink k) :
    contentOf q (sinks.set k new) m = contentOf q sinks m := by
  cases m with
  | ring j => rfl
  | sink j =>
      have differs : k ≠ j := fun same => other (congrArg Outlet.sink same.symm)
      rw [contentOf, contentOf, List.getElem?_set_ne differs]

/-- What a segment still has to hand to its output on one side. -/
def BranchLoop.pending (loop : BranchLoop) : Bool → List UInt8
  | false =>
      match loop.pc with
      | .write => loop.rest
      | _ => []
  | true =>
      match loop.pc with
      | .write => loop.chunk
      | .write1 => loop.rest
      | _ => []

/-- What the segments hold for their outputs. -/
def pendingAt (loops : List BranchLoop) (hop : Nat × Bool) : List UInt8 :=
  (loops[hop.1]?.map fun loop => loop.pending hop.2).getD []

/-! ## The invariant -/

/-- The segment has seen the end of its input. -/
def BranchLoop.ended (loop : BranchLoop) : Bool :=
  loop.doComplete ||
    match loop.pc with
    | .complete => true
    | .stopIn => true
    | .stopOut => true
    | .stopOut1 => true
    | .clear => true
    | .leave => true
    | _ => false

/-- A source or ring that is empty and stays so. -/
def Drained (source : List UInt8) (q : Nat → ByteQueue) : Option Nat → Prop
  | none => source = []
  | some i => (q i).stopped = true ∧ (q i).content = []

/-- A segment at work. -/
structure BranchOk (p : Branches) (q : Nat → ByteQueue) (wires : Wires) (loop : BranchLoop) :
    Prop where
  begun : loop.pc = .complete → Begun p.stream
  noFail : loop.pc ≠ .fail
  counted : loop.pc = .write → loop.chunk ≠ [] ∧ loop.rest = loop.chunk.drop loop.wrBytes
  dry : loop.ended = true → Drained p.source q wires.input

/-- What holds along every run: the rings simulate queues, and along every route from the source to
a sink everything is on its way. -/
structure Branching (plan : List Wires) (bytes : List UInt8) (p : Branches)
    (q : Nat → ByteQueue) : Prop where
  orderly : streamSystem.ReachUnder Orderly p.stream
  threads : p.loops.length = p.stream.segments.length
  count : p.loops.length = plan.length
  simulated : ∀ (i : Nat) (r : Ring), p.rings[i]? = some r → Simulates r (q i)
  loop : ∀ (i : Nat) (wires : Wires) (loop : BranchLoop), plan[i]? = some wires →
    p.loops[i]? = some loop → BranchOk p q wires loop
  left : ∀ (i : Nat) (thread : SegmentThread) (loop : BranchLoop),
    p.stream.segments[i]? = some thread → p.loops[i]? = some loop → thread.pc = .exited →
      loop.pc = .leave
  whole : ∀ (hops : List ((Nat × Bool) × Outlet)) (k : Nat),
    Route (ReadsFrom plan) (WritesTo plan) hops (.sink k) →
      ahead (contentOf q p.sinks) (pendingAt p.loops) hops ++ p.source = bytes

/-! ## Calls -/

/-- A call of a segment: the threads stay, the rings simulate queues, and what is drained stays so.
-/
structure Serves (p p' : Branches) (q q' : Nat → ByteQueue) : Prop where
  stream : p'.stream = p.stream
  loops : p'.loops = p.loops
  simulated : ∀ (i : Nat) (r : Ring), p'.rings[i]? = some r → Simulates r (q' i)
  drained : ∀ input, Drained p.source q input → Drained p'.source q' input

/-- A call that touches only one queue. -/
def setQueue (q : Nat → ByteQueue) (i : Nat) (b : ByteQueue) : Nat → ByteQueue :=
  fun j => if j = i then b else q j

@[simp] theorem setQueue_same (q : Nat → ByteQueue) (i : Nat) (b : ByteQueue) :
    setQueue q i b i = b := if_pos rfl

theorem setQueue_other {q : Nat → ByteQueue} {i j : Nat} {b : ByteQueue} (other : j ≠ i) :
    setQueue q i b j = q j := if_neg other

section Calls

variable {hosts : Nat → Host} {p p' : Branches} {q : Nat → ByteQueue} {wires : Wires}

/-- A call on a queue leaves a drained queue as it is. -/
theorem queue_drained {b : ByteQueue} (request : Call) (stopped : b.stopped = true)
    (empty : b.content = []) :
    (b.call request).1.stopped = true ∧ (b.call request).1.content = [] := by
  cases request with
  | write data => simp [ByteQueue.call, stopped, empty]
  | read request =>
      simp only [ByteQueue.call]
      split
      · exact ⟨stopped, empty⟩
      · split
        · exact ⟨stopped, empty⟩
        · exact ⟨stopped, by rw [empty, List.drop_nil]⟩
  | stop => exact ⟨rfl, empty⟩

theorem callRing_spec (fits : ∀ i, (hosts i).Fits)
    (simulated : ∀ (i : Nat) (r : Ring), p.rings[i]? = some r → Simulates r (q i)) {i : Nat}
    {request : Call} {answer : Answer}
    (call : p.callRing hosts i request = some (p', answer)) (asks : SegmentCall request) :
    Serves p p' q (setQueue q i ((q i).call request).1) ∧
      answer = ((q i).call request).2 ∧ p'.source = p.source ∧ p'.sinks = p.sinks := by
  obtain ⟨r, here, call⟩ := Option.bind_eq_some_iff.mp call
  obtain ⟨r', answers, sim⟩ := simulates_call (fits i) (simulated i r here) request asks
  rw [answers, Option.map_some, Option.some.injEq, Prod.mk.injEq] at call
  obtain ⟨rfl, rfl⟩ := call
  refine ⟨⟨rfl, rfl, fun j s place => ?_, fun input dry => ?_⟩, rfl, rfl, rfl⟩
  · by_cases same : j = i
    · subst same
      have within := (List.getElem?_eq_some_iff.mp here).1
      obtain rfl := Option.some.inj ((List.getElem?_set_self within).symm.trans place)
      rw [setQueue_same]
      exact sim
    · rw [setQueue_other same]
      exact simulated j s ((List.getElem?_set_ne (Ne.symm same)).symm.trans place)
  · cases input with
    | none => exact dry
    | some j =>
        by_cases same : j = i
        · subst same
          show (setQueue q j _ j).stopped = true ∧ (setQueue q j _ j).content = []
          rw [setQueue_same]
          exact queue_drained request dry.1 dry.2
        · show (setQueue q i _ j).stopped = true ∧ (setQueue q i _ j).content = []
          rw [setQueue_other same]
          exact dry

/-- What a read does: the bytes come from the front of the input, and completion is reported only by
an input that is drained from then on. -/
structure BranchRead (p p' : Branches) (q q' : Nat → ByteQueue) (wires : Wires)
    (status : IoStatus) (out : List UInt8) : Prop where
  serves : Serves p p' q q'
  sinks : p'.sinks = p.sinks
  noError : status.isError = false
  ends : status = .complete → Drained p'.source q' wires.input
  source : wires.input = none → p.source = out ++ p'.source ∧ q' = q
  ring : ∀ r, wires.input = some r → (q r).content = out ++ (q' r).content ∧
    (∀ j, j ≠ r → (q' j).content = (q j).content) ∧ p'.source = p.source

theorem readInput_spec (fits : ∀ i, (hosts i).Fits)
    (simulated : ∀ (i : Nat) (r : Ring), p.rings[i]? = some r → Simulates r (q i))
    (positive : 0 < wires.buflen) {choice : Choice} {status : IoStatus} {out : List UInt8}
    (read : p.readInput hosts wires choice = some (p', status, out)) :
    ∃ q', BranchRead p p' q q' wires status out := by
  unfold Branches.readInput at read
  split at read
  · next input =>
      split at read
      · next given =>
          simp only [Option.some.injEq, Prod.mk.injEq] at read
          obtain ⟨rfl, rfl, rfl⟩ := read
          refine ⟨q, ⟨rfl, rfl, simulated, fun other dry => ?_⟩, rfl, ?_, fun ends => ?_,
            fun _ => ⟨(List.take_append_drop choice.size p.source).symm, rfl⟩, ?_⟩
          · cases other with
            | none =>
                have nothing : p.source = [] := dry
                exact (congrArg (List.drop choice.size) nothing).trans List.drop_nil
            | some j => exact dry
          · cases choice.complete <;> rfl
          · have complete : choice.complete = true := by
              by_contra running
              simp [running] at ends
            rw [input]
            exact List.drop_eq_nil_of_le (Nat.le_of_eq (given.2.2 complete).symm)
          · intro r some
            cases input.symm.trans some
      · cases read
  · next i input =>
      obtain ⟨⟨p₁, answer⟩, call, read⟩ := Option.bind_eq_some_iff.mp read
      obtain ⟨serves, rfl, source, sinks⟩ := callRing_spec fits simulated call positive
      obtain ⟨status', out', answers, front, stopped, noError, ends⟩ :=
        Pipeline.byteQueue_read (q i) wires.buflen
      simp only [answers, Option.some.injEq, Prod.mk.injEq] at read
      obtain ⟨rfl, rfl, rfl⟩ := read
      refine ⟨_, serves, sinks, noError, fun complete => ?_, fun last => ?_, fun r here => ?_⟩
      · rw [input]
        show (setQueue q i _ i).stopped = true ∧ (setQueue q i _ i).content = []
        rw [setQueue_same]
        exact queue_drained _ (ends complete).1 (ends complete).2
      · cases input.symm.trans last
      · obtain rfl : i = r := Option.some.inj (input.symm.trans here)
        refine ⟨?_, fun j other => ?_, source⟩
        · rw [setQueue_same]
          exact front
        · rw [setQueue_other other]

/-- What a write does: the output gets the bytes it counts, and the loop of `write_to_dest` goes
on. -/
structure BranchWrite (p p' : Branches) (q q' : Nat → ByteQueue) (out : Outlet)
    (data : List UInt8) (status : IoStatus) (count : Nat) : Prop where
  serves : Serves p p' q q'
  source : p'.source = p.source
  back : contentOf q' p'.sinks out = contentOf q p.sinks out ++ data.take count
  elsewhere : ∀ m, m ≠ out → contentOf q' p'.sinks m = contentOf q p.sinks m
  goesOn : writePass status = .goOn
  within : count ≤ data.length

theorem writeOutput_spec (fits : ∀ i, (hosts i).Fits)
    (simulated : ∀ (i : Nat) (r : Ring), p.rings[i]? = some r → Simulates r (q i))
    {out : Outlet} {data : List UInt8} (carries : data ≠ []) {choice : Choice}
    {status : IoStatus} {count : Nat}
    (write : p.writeOutput hosts out data choice = some (p', status, count)) :
    ∃ q', BranchWrite p p' q q' out data status count := by
  cases out with
  | ring i =>
      obtain ⟨⟨p₁, answer⟩, call, write⟩ := Option.bind_eq_some_iff.mp write
      obtain ⟨serves, rfl, source, sinks⟩ := callRing_spec fits simulated call carries
      have elsewhere : ∀ m, m ≠ Outlet.ring i →
          contentOf (setQueue q i ((q i).call (.write data)).1) p₁.sinks m =
            contentOf q p.sinks m := by
        intro m other
        cases m with
        | ring j =>
            have differs : j ≠ i := fun same => other (congrArg Outlet.ring same)
            rw [contentOf, contentOf, setQueue_other differs]
        | sink k => rw [contentOf, contentOf, sinks]
      cases stopped : (q i).stopped with
      | true =>
          have answers : (q i).call (.write data) = (q i, .wrote .success 0) := by
            simp [ByteQueue.call, stopped]
          simp only [answers, Option.some.injEq, Prod.mk.injEq] at write
          obtain ⟨rfl, rfl, rfl⟩ := write
          refine ⟨_, serves, source, ?_, elsewhere, rfl, Nat.zero_le _⟩
          rw [contentOf, contentOf, setQueue_same, answers, List.take_zero, List.append_nil]
      | false =>
          have answers : (q i).call (.write data) =
              ({ q i with content := (q i).content ++ data }, .wrote .success data.length) := by
            simp [ByteQueue.call, stopped]
          simp only [answers, Option.some.injEq, Prod.mk.injEq] at write
          obtain ⟨rfl, rfl, rfl⟩ := write
          refine ⟨_, serves, source, ?_, elsewhere, rfl, Nat.le_refl _⟩
          rw [contentOf, contentOf, setQueue_same, answers, List.take_length]
  | sink k =>
      obtain ⟨taken, here, write⟩ := Option.bind_eq_some_iff.mp write
      split at write
      · next given =>
          simp only [Option.some.injEq, Prod.mk.injEq] at write
          obtain ⟨rfl, rfl, rfl⟩ := write
          exact ⟨q, ⟨rfl, rfl, simulated, fun _ dry => dry⟩, rfl, contentOf_take here _,
            fun m other => contentOf_take_other other, rfl, given.2⟩
      · cases write

/-- A stop empties nothing. -/
theorem stopRing_spec (fits : ∀ i, (hosts i).Fits)
    (simulated : ∀ (i : Nat) (r : Ring), p.rings[i]? = some r → Simulates r (q i))
    {m : Option Nat} (stop : p.stopRing hosts m = some p') :
    ∃ q', Serves p p' q q' ∧ p'.source = p.source ∧
      contentOf q' p'.sinks = contentOf q p.sinks := by
  cases m with
  | none =>
      cases stop
      exact ⟨q, ⟨rfl, rfl, simulated, fun _ dry => dry⟩, rfl, rfl⟩
  | some i =>
      obtain ⟨⟨p₁, answer⟩, call, rfl⟩ := Option.map_eq_some_iff.mp stop
      obtain ⟨serves, -, source, sinks⟩ := callRing_spec fits simulated call trivial
      refine ⟨_, serves, source, funext fun m => ?_⟩
      cases m with
      | ring j =>
          by_cases same : j = i
          · subst same
            rw [contentOf, contentOf, setQueue_same]
            rfl
          · rw [contentOf, contentOf, setQueue_other same]
      | sink k => rw [contentOf, contentOf, sinks]

end Calls

/-! ## What a segment holds -/

section Pending

variable {loops : List BranchLoop} {i : Nat} {loop new : BranchLoop} {side : Bool}

theorem pendingAt_here (here : loops[i]? = some loop) :
    pendingAt loops (i, side) = loop.pending side := by
  rw [pendingAt, here]
  rfl

theorem pendingAt_set_self (here : loops[i]? = some loop) :
    pendingAt (loops.set i new) (i, side) = new.pending side :=
  pendingAt_here (List.getElem?_set_self (List.getElem?_eq_some_iff.mp here).1)

theorem pendingAt_set_other {g : Nat × Bool} (other : g.1 ≠ i) :
    pendingAt (loops.set i new) g = pendingAt loops g := by
  rw [pendingAt, pendingAt, List.getElem?_set_ne (Ne.symm other)]

/-- A segment that is not writing holds nothing. -/
theorem pending_idle (first : loop.pc ≠ .write) (second : loop.pc ≠ .write1) :
    loop.pending side = [] := by
  cases side <;> simp only [BranchLoop.pending]

theorem pending_goto {wires : Wires} (first : loop.pc ≠ .write) (second : loop.pc ≠ .write1)
    (first' : new.pc ≠ .write) (second' : new.pc ≠ .write1) (side : Bool) (m : Outlet)
    (_ : wires.outlet side = some m) : new.pending side = loop.pending side :=
  (pending_idle first' second').trans (pending_idle first second).symm

end Pending

/-- Whoever reads the same machine is the same segment. -/
theorem Wired.same_reader {plan : List Wires} (sound : Wired plan) {i j : Nat} {v w : Wires}
    (first : plan[i]? = some v) (second : plan[j]? = some w)
    (same : v.input.map Outlet.ring = w.input.map Outlet.ring) : i = j := by
  refine sound.reader i j v w first second ?_
  cases input : v.input <;> cases input' : w.input <;> simp_all

section Passes

variable {loop : BranchLoop} {status : IoStatus} {count : Nat}

/-- A read that does not fail. -/
theorem afterRead_eq (loop : BranchLoop) (out : List UInt8) (noError : status.isError = false) :
    loop.afterRead status out =
      { pc := if out = [] then .top else .write
        doComplete := loop.doComplete || status == .complete
        chunk := out, rest := out, wrBytes := 0 } := by
  simp [BranchLoop.afterRead, noError]

/-- A pass of `write_to_dest` after which it goes on. -/
theorem afterWrite_eq (goesOn : writePass status = .goOn) (second : Bool) :
    loop.afterWrite second status count =
      { loop with rest := loop.rest.drop count, wrBytes := loop.wrBytes + count } := by
  simp only [BranchLoop.afterWrite, goesOn]

theorem afterWrite1_eq (goesOn : writePass status = .goOn) :
    loop.afterWrite1 status count =
      { loop with rest := loop.rest.drop count, wrBytes := loop.wrBytes + count } := by
  simp only [BranchLoop.afterWrite1, goesOn]

/-- An output that took the whole chunk counted something. -/
theorem wrBytes_ne_zero (carries : loop.chunk ≠ [])
    (rest : loop.rest = loop.chunk.drop loop.wrBytes) (done : loop.rest = []) :
    loop.wrBytes ≠ 0 := by
  intro none
  rw [none, List.drop_zero, done] at rest
  exact carries rest.symm

end Passes

/-! ## Steps -/

namespace Branching

variable {plan : List Wires} {bytes : List UInt8} {hosts : Nat → Host} {p p' p₁ : Branches}
  {q q' : Nat → ByteQueue} {i : Nat} {wires : Wires} {loop new : BranchLoop}

/-- A step of the threads of the stream. -/
theorem control (inv : Branching plan bytes p q) {act : Act} (step : p.control act = some p')
    (orderly : Orderly p.stream act)
    (leaves : ∀ (i : Nat) (loop : BranchLoop), act = .segment i .leave →
      p.loops[i]? = some loop → loop.pc = .leave) :
    Branching plan bytes p' q := by
  obtain ⟨stream, moved, rfl⟩ := Option.map_eq_some_iff.mp step
  have calm := calm_reach inv.orderly
  refine ⟨.step inv.orderly orderly moved, inv.threads.trans (streamStep_length moved).symm,
    inv.count, inv.simulated, fun i wires loop wired here => ?_,
    fun i thread loop there here exited => ?_, inv.whole⟩
  · have old := inv.loop i wires loop wired here
    exact ⟨fun pc => calm.begun orderly moved (old.begun pc), old.noFail, old.counted, old.dry⟩
  · rcases streamStep_exited moved there exited with before | leave
    · exact inv.left i thread loop before here exited
    · exact leaves i loop leave here

/-- A call of a segment, after which it goes on with other variables. -/
theorem advance (inv : Branching plan bytes p q) (wired : plan[i]? = some wires)
    (here : p.loops[i]? = some loop) (serves : Serves p p₁ q q')
    (running : ∀ thread, p.stream.segments[i]? = some thread → thread.pc ≠ .exited)
    (ok : BranchOk p₁ q' wires new)
    (whole : ∀ (hops : List ((Nat × Bool) × Outlet)) (k : Nat),
      Route (ReadsFrom plan) (WritesTo plan) hops (.sink k) →
        ahead (contentOf q' p₁.sinks) (pendingAt (p.loops.set i new)) hops ++ p₁.source =
          ahead (contentOf q p.sinks) (pendingAt p.loops) hops ++ p.source) :
    Branching plan bytes (p₁.setLoop i new) q' := by
  have within : i < p.loops.length := (List.getElem?_eq_some_iff.mp here).1
  have loops : (p₁.setLoop i new).loops = p.loops.set i new := by
    rw [Branches.setLoop, serves.loops]
  have stream : (p₁.setLoop i new).stream = p.stream := serves.stream
  have length : (p₁.setLoop i new).loops.length = p.loops.length := by rw [loops, List.length_set]
  refine ⟨stream ▸ inv.orderly, ?_, length.trans inv.count, serves.simulated,
    fun j other loop' place found => ?_, fun j thread loop' there found exited => ?_,
    fun hops k route => ?_⟩
  · rw [length, stream]
    exact inv.threads
  · rw [loops] at found
    by_cases same : j = i
    · subst same
      obtain rfl : new = loop' := by
        rw [List.getElem?_set_self within] at found
        exact Option.some.inj found
      obtain rfl : wires = other := Option.some.inj (wired.symm.trans place)
      exact ⟨ok.begun, ok.noFail, ok.counted, ok.dry⟩
    · rw [List.getElem?_set_ne (Ne.symm same)] at found
      have old := inv.loop j other loop' place found
      exact ⟨fun pc => stream ▸ old.begun pc, old.noFail, old.counted,
        fun ended => serves.drained _ (old.dry ended)⟩
  · rw [stream] at there
    rw [loops] at found
    by_cases same : j = i
    · subst same
      exact absurd exited (running thread there)
    · rw [List.getElem?_set_ne (Ne.symm same)] at found
      exact inv.left j thread loop' there found exited
  · rw [loops]
    exact (whole hops k route).trans (inv.whole hops k route)

/-- The segment goes on with other variables and holds what it held for its outputs. -/
theorem goesOn (inv : Branching plan bytes p q) (wired : plan[i]? = some wires)
    (here : p.loops[i]? = some loop) (serves : Serves p p₁ q q')
    (running : ∀ thread, p.stream.segments[i]? = some thread → thread.pc ≠ .exited)
    (ok : BranchOk p₁ q' wires new) (source : p₁.source = p.source)
    (contents : contentOf q' p₁.sinks = contentOf q p.sinks)
    (pending : ∀ side m, wires.outlet side = some m → new.pending side = loop.pending side) :
    Branching plan bytes (p₁.setLoop i new) q' := by
  refine inv.advance wired here serves running ok fun hops k route => ?_
  rw [source]
  refine congrArg (· ++ p.source) (route.ahead_congr ?_)
  rintro ⟨j, side⟩ m ⟨other, place, out⟩
  refine ⟨congrFun contents m, ?_⟩
  by_cases same : j = i
  · obtain rfl := same
    obtain rfl : wires = other := Option.some.inj (wired.symm.trans place)
    rw [pendingAt_set_self here, pendingAt_here here]
    exact pending side m out
  · exact pendingAt_set_other same

/-- The segment only goes on with other variables. -/
theorem setLoop (inv : Branching plan bytes p q) (wired : plan[i]? = some wires)
    (here : p.loops[i]? = some loop)
    (running : ∀ thread, p.stream.segments[i]? = some thread → thread.pc ≠ .exited)
    (ok : BranchOk p q wires new)
    (pending : ∀ side m, wires.outlet side = some m → new.pending side = loop.pending side) :
    Branching plan bytes (p.setLoop i new) q :=
  inv.goesOn wired here ⟨rfl, rfl, inv.simulated, fun _ dry => dry⟩ running ok rfl rfl pending

/-- A step of the threads after which the segment goes on with other variables. -/
theorem control_setLoop (inv : Branching plan bytes p q) (wired : plan[i]? = some wires)
    (here : p.loops[i]? = some loop)
    (running : ∀ thread, p.stream.segments[i]? = some thread → thread.pc ≠ .exited)
    {move : SegmentMove}
    (step : (p.control (.segment i move)).map (fun p => p.setLoop i new) = some p')
    (stays : move ≠ .leave) (orderly : Orderly p.stream (.segment i move))
    (ok : ∀ p₁ : Branches, p₁.source = p.source → BranchOk p₁ q wires new)
    (pending : ∀ side m, wires.outlet side = some m → new.pending side = loop.pending side) :
    Branching plan bytes p' q := by
  obtain ⟨p₁, moved, rfl⟩ := Option.map_eq_some_iff.mp step
  have inv₁ : Branching plan bytes p₁ q := inv.control moved orderly fun j other leave _ => by
    cases leave
    exact absurd rfl stays
  obtain ⟨stream, streamStep, rfl⟩ := Option.map_eq_some_iff.mp moved
  refine inv₁.setLoop wired here (fun thread there exited => ?_) (ok _ rfl) pending
  rcases streamStep_exited streamStep there exited with before | leave
  · exact running thread before exited
  · cases leave
    exact absurd rfl stays

/-- A read. -/
theorem read (inv : Branching plan bytes p q) (sound : Wired plan)
    (wired : plan[i]? = some wires) (here : p.loops[i]? = some loop)
    (running : ∀ thread, p.stream.segments[i]? = some thread → thread.pc ≠ .exited)
    (pc : loop.pc = .read) {status : IoStatus} {out : List UInt8}
    (spec : BranchRead p p₁ q q' wires status out) :
    Branching plan bytes (p₁.setLoop i (loop.afterRead status out)) q' := by
  have old := inv.loop i wires loop wired here
  have after := afterRead_eq loop out spec.noError
  -- The segment held nothing, and now holds the bytes for both of its outputs.
  have before : ∀ side, pendingAt p.loops (i, side) = [] := fun side => by
    rw [pendingAt_here here]
    cases side <;> simp [BranchLoop.pending, pc]
  have holds : ∀ side, pendingAt (p.loops.set i (loop.afterRead status out)) (i, side) = out := by
    intro side
    rw [pendingAt_set_self here, after]
    by_cases empty : out = [] <;> cases side <;> simp [BranchLoop.pending, empty]
  have ok : BranchOk p₁ q' wires (loop.afterRead status out) := by
    rw [after]
    refine ⟨?_, ?_, fun writes => ?_, fun ended => ?_⟩
    · split <;> simp
    · split <;> simp
    · refine ⟨fun empty => ?_, rfl⟩
      simp [show out = [] from empty] at writes
    · have complete : loop.doComplete = true ∨ status = .complete := by
        by_cases empty : out = [] <;> simpa [BranchLoop.ended, empty] using ended
      rcases complete with flag | complete
      · exact spec.serves.drained _ (old.dry (by simp [BranchLoop.ended, flag]))
      · exact spec.ends complete
  -- Only this segment reads its input.
  have readers : ∀ (g : Nat × Bool), ReadsFrom plan g (wires.input.map Outlet.ring) → g.1 = i := by
    rintro g ⟨other, place, input⟩
    exact sound.same_reader place wired input.symm
  refine inv.advance wired here spec.serves running ok fun hops k route => ?_
  cases input : wires.input with
  | none =>
      obtain ⟨front, rfl⟩ := spec.source input
      rw [spec.sinks]
      refine route.ahead_source front (fun g reading => ?_) fun g m reading => ?_
      · obtain ⟨j, side⟩ := g
        obtain rfl : j = i := readers (j, side) (by rw [input]; exact reading)
        exact ⟨before side, holds side⟩
      · refine pendingAt_set_other fun same => ?_
        obtain ⟨other, place, its⟩ := reading
        rw [same] at place
        obtain rfl : wires = other := Option.some.inj (wired.symm.trans place)
        simp [input] at its
  | some r =>
      obtain ⟨front, elsewhere, source⟩ := spec.ring r input
      rw [source]
      refine congrArg (· ++ p.source) ((route.ahead_read (r := .ring r) front (fun m other => ?_)
        (fun g reading => ?_) fun g m reading other => ?_).2 (by simp))
      · cases m with
        | ring j => exact elsewhere j fun same => other (congrArg Outlet.ring same)
        | sink k => rw [contentOf, contentOf, spec.sinks]
      · obtain ⟨j, side⟩ := g
        obtain rfl : j = i := readers (j, side) (by rw [input]; exact reading)
        exact ⟨before side, holds side⟩
      · refine pendingAt_set_other fun same => ?_
        obtain ⟨its, place, reads⟩ := reading
        rw [same] at place
        obtain rfl : wires = its := Option.some.inj (wired.symm.trans place)
        exact other (by rw [reads, input]; rfl)

/-- A write to the output on one side. -/
theorem write (inv : Branching plan bytes p q) (sound : Wired plan)
    (wired : plan[i]? = some wires) (here : p.loops[i]? = some loop)
    (running : ∀ thread, p.stream.segments[i]? = some thread → thread.pc ≠ .exited)
    {side : Bool} {out : Outlet} (leads : wires.outlet side = some out) {data : List UInt8}
    {status : IoStatus} {count : Nat} (spec : BranchWrite p p₁ q q' out data status count)
    (ok : BranchOk p₁ q' wires new)
    (front : loop.pending side = data.take count ++ new.pending side)
    (beside : new.pending (!side) = loop.pending (!side)) :
    Branching plan bytes (p₁.setLoop i new) q' := by
  refine inv.advance wired here spec.serves running ok fun hops k route => ?_
  rw [spec.source]
  have mine : WritesTo plan (i, side) out := ⟨wires, wired, leads⟩
  refine congrArg (· ++ p.source) (route.ahead_write (h := (i, side)) spec.back ?_ spec.elsewhere
    ?_ fun g m writes => ⟨?_, ?_⟩)
  · rw [pendingAt_here here, pendingAt_set_self here]
    exact front
  · rintro ⟨j, other⟩ differs
    by_cases same : j = i
    · obtain rfl := same
      obtain rfl : other = !side := by
        cases other <;> cases side <;> simp_all
      rw [pendingAt_set_self here, pendingAt_here here]
      exact beside
    · exact pendingAt_set_other same
  · rintro rfl
    obtain ⟨other, place, its⟩ := writes
    obtain rfl : wires = other := Option.some.inj (wired.symm.trans place)
    exact Option.some.inj (its.symm.trans leads)
  · rintro rfl
    exact sound.writer _ _ _ writes mine

/-- The segment, which is past its loop, stops a machine. -/
theorem stop (inv : Branching plan bytes p q) (wired : plan[i]? = some wires)
    (here : p.loops[i]? = some loop)
    (running : ∀ thread, p.stream.segments[i]? = some thread → thread.pc ≠ .exited)
    {m : Option Nat} (stop : p.stopRing hosts m = some p₁) (fits : ∀ i, (hosts i).Fits)
    (ended : loop.ended = true) (first : loop.pc ≠ .write) (second : loop.pc ≠ .write1)
    (next : new.pc = .stopOut ∨ new.pc = .stopOut1 ∨ new.pc = .clear) :
    ∃ q', Branching plan bytes (p₁.setLoop i new) q' := by
  have old := inv.loop i wires loop wired here
  obtain ⟨q', serves, source, contents⟩ := stopRing_spec fits inv.simulated stop
  have goes : new.pc ≠ .complete ∧ new.pc ≠ .fail ∧ new.pc ≠ .write ∧ new.pc ≠ .write1 := by
    rcases next with pc | pc | pc <;> simp [pc]
  refine ⟨q', inv.goesOn wired here serves running ⟨fun pc => absurd pc goes.1, goes.2.1,
    fun pc => absurd pc goes.2.2.1, fun _ => serves.drained _ (old.dry ended)⟩ source contents
    (pending_goto first second goes.2.2.1 goes.2.2.2)⟩

/-- After the first output has the chunk, the second output gets it, where there is one. -/
theorem afterFirst (inv : Branching plan bytes p q) (wired : plan[i]? = some wires)
    (here : p.loops[i]? = some loop)
    (running : ∀ thread, p.stream.segments[i]? = some thread → thread.pc ≠ .exited)
    (pc : loop.pc = .write) (done : loop.rest = []) :
    Branching plan bytes (p.setLoop i (loop.afterFirst wires.out1.isSome)) q := by
  have old := inv.loop i wires loop wired here
  obtain ⟨carries, rest⟩ := old.counted pc
  have dry : loop.doComplete = true → Drained p.source q wires.input := fun flag =>
    old.dry (by simp [BranchLoop.ended, flag])
  have counted := wrBytes_ne_zero carries rest done
  unfold BranchLoop.afterFirst
  split
  · refine inv.setLoop wired here running ⟨by simp, by simp, by simp, fun ended => ?_⟩ ?_
    · exact dry (by simpa [BranchLoop.ended] using ended)
    · intro side m out
      cases side <;> simp [BranchLoop.pending, pc, done]
  · next single =>
      refine inv.setLoop wired here running ⟨by simp, by simp, by simp, fun ended => ?_⟩ ?_
      · exact dry (by simpa [BranchLoop.ended] using ended)
      · intro side m out
        cases side with
        | false => simp [BranchLoop.pending, pc, done]
        | true =>
            have second : wires.out1 = some m := out
            exact absurd ⟨counted, by rw [second]; rfl⟩ single

/-- A step of a segment in its loop. -/
theorem segmentRun (inv : Branching plan bytes p q) (sound : Wired plan)
    (fits : ∀ i, (hosts i).Fits) (positive : 0 < wires.buflen) {choice : Choice}
    {thread : SegmentThread} (there : p.stream.segments[i]? = some thread)
    (active : thread.pc = .active) (wired : plan[i]? = some wires)
    (here : p.loops[i]? = some loop)
    (step : p.segmentRun hosts i wires loop choice = some p') :
    ∃ q', Branching plan bytes p' q' := by
  have calm := calm_reach inv.orderly
  have old := inv.loop i wires loop wired here
  have running : ∀ other, p.stream.segments[i]? = some other → other.pc ≠ .exited := by
    intro other found exited
    obtain rfl : thread = other := Option.some.inj (there.symm.trans found)
    cases active.symm.trans exited
  unfold Branches.segmentRun at step
  cases pc : loop.pc with
  | start =>
      rw [pc] at step
      refine ⟨q, inv.control_setLoop wired here running step (by simp) trivial
        (fun p₁ source => ⟨by simp, by simp, by simp, fun ended => ?_⟩)
        (pending_goto (by simp [pc]) (by simp [pc]) (by simp) (by simp))⟩
      rw [source]
      exact old.dry (by simpa [BranchLoop.ended, pc] using ended)
  | top =>
      simp only [pc] at step
      split at step
      · cases step
        exact ⟨q, inv⟩
      · next notReady =>
          obtain ⟨isRunning, begun⟩ := calm.isRunning there active notReady
          split at step
          · next complete =>
              cases step
              refine ⟨q, inv.setLoop wired here running ⟨fun _ => begun, by simp, by simp,
                fun _ => ?_⟩ (pending_goto (by simp [pc]) (by simp [pc]) (by simp) (by simp))⟩
              exact old.dry (by simp [BranchLoop.ended, complete])
          · next incomplete =>
              cases step
              refine ⟨q, inv.setLoop wired here running ⟨by simp, by simp, by simp,
                fun ended => ?_⟩ (pending_goto (by simp [pc]) (by simp [pc]) (by simp) (by simp))⟩
              exact absurd (by simpa [BranchLoop.ended] using ended) incomplete
  | read =>
      rw [pc] at step
      obtain ⟨⟨p₁, status, out⟩, read, rfl⟩ := Option.map_eq_some_iff.mp step
      obtain ⟨q', spec⟩ := readInput_spec fits inv.simulated positive read
      exact ⟨q', inv.read sound wired here running pc spec⟩
  | write =>
      simp only [pc] at step
      obtain ⟨carries, rest⟩ := old.counted pc
      split at step
      · next done =>
          cases step
          exact ⟨q, inv.afterFirst wired here running pc done⟩
      · next holds =>
          obtain ⟨⟨p₁, status, count⟩, write, rfl⟩ := Option.map_eq_some_iff.mp step
          obtain ⟨q', spec⟩ := writeOutput_spec fits inv.simulated holds write
          rw [afterWrite_eq spec.goesOn]
          have first : wires.outlet false = some wires.out := rfl
          refine ⟨q', inv.write sound wired here running first spec
            ⟨by simp [pc], by simp [pc], fun _ => ⟨carries, ?_⟩, fun ended => ?_⟩ ?_ ?_⟩
          · rw [rest, List.drop_drop]
          · exact spec.serves.drained _ (old.dry ended)
          · simp [BranchLoop.pending, pc]
          · simp [BranchLoop.pending, pc]
  | write1 =>
      simp only [pc] at step
      split at step
      · next done =>
          cases step
          refine ⟨q, inv.setLoop wired here running ⟨by simp, by simp, by simp,
            fun ended => ?_⟩ fun side m out => ?_⟩
          · exact old.dry (by simpa [BranchLoop.ended, pc] using ended)
          · cases side <;> simp [BranchLoop.pending, pc, done]
      · next holds =>
          obtain ⟨out, second, step⟩ := Option.bind_eq_some_iff.mp step
          obtain ⟨⟨p₁, status, count⟩, write, rfl⟩ := Option.map_eq_some_iff.mp step
          obtain ⟨q', spec⟩ := writeOutput_spec fits inv.simulated holds write
          rw [afterWrite1_eq spec.goesOn]
          have leads : wires.outlet true = some out := second
          refine ⟨q', inv.write sound wired here running leads spec
            ⟨by simp [pc], by simp [pc], by simp [pc], fun ended => ?_⟩ ?_ ?_⟩
          · exact spec.serves.drained _ (old.dry ended)
          · simp [BranchLoop.pending, pc]
          · simp [BranchLoop.pending, pc]
  | fail => exact absurd pc old.noFail
  | complete =>
      rw [pc] at step
      refine ⟨q, inv.control_setLoop wired here running step (by simp) (old.begun pc)
        (fun p₁ source => ⟨by simp, by simp, by simp, fun _ => ?_⟩)
        (pending_goto (by simp [pc]) (by simp [pc]) (by simp) (by simp))⟩
      rw [source]
      exact old.dry (by simp [BranchLoop.ended, pc])
  | stopIn =>
      rw [pc] at step
      obtain ⟨p₁, stop, rfl⟩ := Option.map_eq_some_iff.mp step
      exact inv.stop wired here running stop fits (by simp [BranchLoop.ended, pc])
        (by simp [pc]) (by simp [pc]) (by simp)
  | stopOut =>
      rw [pc] at step
      obtain ⟨p₁, stop, rfl⟩ := Option.map_eq_some_iff.mp step
      exact inv.stop wired here running stop fits (by simp [BranchLoop.ended, pc])
        (by simp [pc]) (by simp [pc]) (by simp)
  | stopOut1 =>
      rw [pc] at step
      obtain ⟨p₁, stop, rfl⟩ := Option.map_eq_some_iff.mp step
      exact inv.stop wired here running stop fits (by simp [BranchLoop.ended, pc])
        (by simp [pc]) (by simp [pc]) (by simp)
  | clear =>
      rw [pc] at step
      refine ⟨q, inv.control_setLoop wired here running step (by simp) trivial
        (fun p₁ source => ⟨by simp, by simp, by simp, fun _ => ?_⟩)
        (pending_goto (by simp [pc]) (by simp [pc]) (by simp) (by simp))⟩
      rw [source]
      exact old.dry (by simp [BranchLoop.ended, pc])
  | leave =>
      rw [pc] at step
      refine ⟨q, inv.control step trivial ?_⟩
      intro j other leave found
      cases leave
      obtain rfl : loop = other := Option.some.inj (here.symm.trans found)
      exact pc

theorem step {aligns : List Nat} {sinks : Nat} {act : PipelineAct}
    (inv : Branching plan bytes p q) (sound : Wired plan) (fits : ∀ i, (hosts i).Fits)
    (positive : ∀ wires ∈ plan, 0 < wires.buflen)
    (step : (branchesSystem hosts plan bytes aligns sinks).step p act = some p') :
    ∃ q', Branching plan bytes p' q' := by
  cases act with
  | main => exact ⟨q, inv.control step trivial (by simp)⟩
  | segment i choice =>
      obtain ⟨thread, there, step⟩ := Option.bind_eq_some_iff.mp step
      cases pc : thread.pc with
      | active =>
          rw [pc] at step
          obtain ⟨wires, wired, step⟩ := Option.bind_eq_some_iff.mp step
          obtain ⟨loop, here, step⟩ := Option.bind_eq_some_iff.mp step
          have asks := positive wires (List.mem_of_getElem? wired)
          exact inv.segmentRun sound fits asks there pc wired here step
      | _ =>
          rw [pc] at step
          exact ⟨q, inv.control step trivial (by simp)⟩

/-- What a sink has taken is a prefix of the source. -/
theorem sink_prefix (inv : Branching plan bytes p q) {hops : List ((Nat × Bool) × Outlet)}
    {k : Nat} (route : Route (ReadsFrom plan) (WritesTo plan) hops (.sink k)) :
    (p.sinks[k]?).getD [] <+: bytes := by
  rw [← inv.whole hops k route]
  have front : contentOf q p.sinks (.sink k) <+: ahead (contentOf q p.sinks) (pendingAt p.loops)
      hops := route.prefix_ahead
  exact front.trans (List.prefix_append _ _)

/-- Once all segments have left, a sink has everything. -/
theorem sink_eq (inv : Branching plan bytes p q) (left : p.AllLeft)
    {hops : List ((Nat × Bool) × Outlet)} {k : Nat}
    (route : Route (ReadsFrom plan) (WritesTo plan) hops (.sink k)) :
    (p.sinks[k]?).getD [] = bytes := by
  have gone : ∀ (i : Nat) (wires : Wires), plan[i]? = some wires →
      ∃ loop : BranchLoop, p.loops[i]? = some loop ∧ loop.pc = .leave ∧
        Drained p.source q wires.input := by
    intro i wires wired
    have within : i < p.loops.length := by
      rw [inv.count]
      exact (List.getElem?_eq_some_iff.mp wired).1
    have here := List.getElem?_eq_getElem within
    have pc := left _ (List.mem_of_getElem? here)
    exact ⟨_, here, pc, (inv.loop i wires _ wired here).dry (by simp [BranchLoop.ended, pc])⟩
  have source : p.source = [] := by
    obtain ⟨h, wires, wired, input⟩ := route.source
    obtain ⟨-, -, -, dry⟩ := gone _ _ wired
    cases none : wires.input with
    | none =>
        rw [none] at dry
        exact dry
    | some r => simp [none] at input
  have all := inv.whole hops k route
  rw [source, List.append_nil] at all
  rw [← all]
  show contentOf q p.sinks (.sink k) = _
  refine (route.ahead_drained (fun g m writes => ?_) fun g m reads => ?_).symm
  · obtain ⟨wires, wired, -⟩ := writes
    obtain ⟨loop, here, pc, -⟩ := gone _ _ wired
    rw [← Prod.eta g, pendingAt_here here]
    exact pending_idle (by simp [pc]) (by simp [pc])
  · obtain ⟨wires, wired, input⟩ := reads
    obtain ⟨-, -, -, dry⟩ := gone _ _ wired
    obtain ⟨r, ring, rfl⟩ := Option.map_eq_some_iff.mp input.symm
    rw [ring] at dry
    exact dry.2

/-- The stream's own thread is about to set `STOPPED` only after all segments have left. -/
theorem allLeft (inv : Branching plan bytes p q) (last : p.stream.main = .setStopped) :
    p.AllLeft := by
  intro loop member
  obtain ⟨i, here⟩ := List.getElem?_of_mem member
  have within : i < p.stream.segments.length := by
    rw [← inv.threads]
    exact (List.getElem?_eq_some_iff.mp here).1
  have there := List.getElem?_eq_getElem within
  have joined := ((calm_reach inv.orderly).inv.segment i _ there).joined (by rw [last]; trivial)
  exact inv.left i _ loop there here joined

end Branching

/-- A new stream: nothing is under way yet. -/
theorem branching_start {hosts : Nat → Host} {plan : List Wires} {bytes : List UInt8}
    {aligns : List Nat} {sinks : Nat} (aligned : ∀ align ∈ aligns, 0 < align) (p : Branches)
    (start : (branchesSystem hosts plan bytes aligns sinks).start p) :
    Branching plan bytes p fun _ => {} := by
  obtain rfl := start
  refine ⟨.start ⟨_, 0, rfl⟩, by simp, by simp, fun i r here => ?_,
    fun i wires loop wired here => ?_, fun i thread loop there here exited => ?_,
    fun hops k route => ?_⟩
  · obtain ⟨align, member, rfl⟩ := List.mem_map.mp (List.mem_of_getElem? here)
    exact simulates_start (aligned align member)
  · obtain rfl : loop = {} := List.eq_of_mem_replicate (List.mem_of_getElem? here)
    exact ⟨by simp, by simp, by simp, by simp [BranchLoop.ended]⟩
  · obtain rfl : thread = {} := List.eq_of_mem_replicate (List.mem_of_getElem? there)
    cases exited
  · have nothing : ∀ h, pendingAt (List.replicate plan.length {}) h = [] := by
      rintro ⟨i, side⟩
      rw [pendingAt, List.getElem?_replicate]
      split <;> cases side <;> rfl
    rw [ahead_nothing (contentOf_new sinks) nothing]
    rfl

/-- **A stream with branches delivers its source to every sink.** The segments, each with one or two
outputs, are wired in any way in which each machine is read by one segment and written by one, with
new ring buffers whose allocations succeed. Whatever pieces the source gives and the sinks take and
in whatever order the threads move: each sink that a route leads to holds a prefix of the bytes of
the source, all of them once every segment has left its loop, and every segment has left when the
stream is about to be set to `STOPPED`. -/
theorem branches_deliver (hosts : Nat → Host) (fits : ∀ i, (hosts i).Fits) (plan : List Wires)
    (sound : Wired plan) (positive : ∀ wires ∈ plan, 0 < wires.buflen) (aligns : List Nat)
    (aligned : ∀ align ∈ aligns, 0 < align) (sinks : Nat) (bytes : List UInt8) (p : Branches)
    (reached : (branchesSystem hosts plan bytes aligns sinks).Reach p) :
    (∀ k, Fed plan k → (p.sinks[k]?).getD [] <+: bytes) ∧
      (p.AllLeft → ∀ k, Fed plan k → (p.sinks[k]?).getD [] = bytes) ∧
      (p.stream.main = .setStopped → p.AllLeft) := by
  obtain ⟨q, inv⟩ : ∃ q, Branching plan bytes p q := by
    refine reached.invariant (I := fun p => ∃ q, Branching plan bytes p q)
      (fun s start => ⟨_, branching_start aligned s start⟩) fun s act t held _ step => ?_
    obtain ⟨q, inv⟩ := held
    exact inv.step sound fits positive step
  refine ⟨fun k fed => ?_, fun left k fed => ?_, inv.allLeft⟩
  · obtain ⟨hops, route⟩ := fed
    exact inv.sink_prefix route
  · obtain ⟨hops, route⟩ := fed
    exact inv.sink_eq left route

/-- A tee that copies the source to a sink and to a ring, and a segment from there to a second
sink. -/
def teePlan : List Wires :=
  [{ input := none, out := .ring 0, out1 := some (.sink 0), buflen := 4 },
    { input := some 0, out := .sink 1, buflen := 4 }]

theorem teePlan_wired : Wired teePlan := by
  have two : ∀ (i : Nat) (w : Wires), teePlan[i]? = some w →
      i = 0 ∧ w = { input := none, out := .ring 0, out1 := some (.sink 0), buflen := 4 } ∨
        i = 1 ∧ w = { input := some 0, out := .sink 1, buflen := 4 } := by
    intro i w place
    match i with
    | 0 => exact Or.inl ⟨rfl, (Option.some.inj place).symm⟩
    | 1 => exact Or.inr ⟨rfl, (Option.some.inj place).symm⟩
    | i + 2 => cases place
  constructor
  · intro i j v w first second same
    rcases two i v first with ⟨rfl, rfl⟩ | ⟨rfl, rfl⟩ <;>
      rcases two j w second with ⟨rfl, rfl⟩ | ⟨rfl, rfl⟩ <;> simp_all
  · rintro ⟨i, side⟩ ⟨j, side'⟩ m ⟨v, place, out⟩ ⟨w, place', out'⟩
    have same : v.outlet side = w.outlet side' := out.trans out'.symm
    rcases two i v place with ⟨rfl, rfl⟩ | ⟨rfl, rfl⟩ <;>
      rcases two j w place' with ⟨rfl, rfl⟩ | ⟨rfl, rfl⟩ <;>
        cases side <;> cases side' <;> first | rfl | cases same

/-- Both sinks are fed. -/
theorem teePlan_fed : Fed teePlan 0 ∧ Fed teePlan 1 := by
  constructor
  · exact ⟨_, .first (h := (0, true)) ⟨_, rfl, rfl⟩ ⟨_, rfl, rfl⟩⟩
  · exact ⟨_, .next (h := (1, false)) (.first (h := (0, false)) ⟨_, rfl, rfl⟩ ⟨_, rfl, rfl⟩)
      ⟨_, rfl, rfl⟩ ⟨_, rfl, rfl⟩⟩

/-- The tee hands two bytes on and completes, the second segment drains the ring, and the stream is
about to stop: both sinks have the bytes. -/
theorem branches_deliver_tee :
    ∃ p, (branchesSystem (fun _ => roomyHost) teePlan [7, 8] [1] 2).Reach p ∧
      p.stream.main = .setStopped ∧ p.AllLeft ∧ (p.sinks[0]?).getD [] = [7, 8] ∧
        (p.sinks[1]?).getD [] = [7, 8] := by
  let system := branchesSystem (fun _ => roomyHost) teePlan [7, 8] [1] 2
  let start : Branches :=
    { stream := { segments := [{}, {}], stops := [] }
      loops := [{}, {}]
      source := [7, 8]
      rings := newRings [1]
      sinks := [[], []] }
  let all : Choice := { size := 2, complete := true }
  let acts := List.replicate 5 PipelineAct.main ++ List.replicate 17 (PipelineAct.segment 0 all) ++
    List.replicate 16 (PipelineAct.segment 1 all) ++ List.replicate 8 PipelineAct.main
  have ends : (system.exec start acts).map (·.stream.main) = some .setStopped := by
    decide +kernel
  obtain ⟨p, run, last⟩ := Option.map_eq_some_iff.mp ends
  have reached : system.Reach p := .exec (.start rfl) run
  obtain ⟨_, whole, left⟩ := branches_deliver (fun _ => roomyHost) (fun _ => roomyHost_fits)
    teePlan teePlan_wired (by decide) [1] (by simp) 2 [7, 8] p reached
  exact ⟨p, reached, last, left last, whole (left last) 0 teePlan_fed.1,
    whole (left last) 1 teePlan_fed.2⟩

end Bingewatch.Stream
