import Bingewatch.Stream.BranchDelivery

/-!
# A stream with branches that breaks down

Here the source and the sinks of a stream with branches may fail at any call, a sink may report
completion before it has taken everything, and any number of callers may be in
`stop_stream_internal` at any time. A tee whose first output completes early leaves its second
output without the chunk, and a segment that stops leaves what its ring holds to nobody.

What has left each machine is kept beside the stream as a history (`Kept`): what has entered the
output of a segment is a prefix of what has left its input, and as long as the segment writes to the
output again it is all of that but what the segment holds. So along every route each sink holds a
prefix of the source, whichever of the other branches break down.
-/

set_option autoImplicit false

namespace Bingewatch.Stream

open Foundation Machine Buffer

/-! ## The disturbed stream -/

/-- A step of the undisturbed stream; a read of the source by the `i`-th segment that fails and
loses some bytes; a write of the `i`-th segment to a sink that takes some of the bytes and reports
completion or an error; and a step of a caller of `stop_stream_internal`. -/
inductive BranchAct where
  | turn (act : PipelineAct)
  | sourceFails (i lost : Nat)
  | sinkEnds (i size : Nat) (status : IoStatus)
  | stop (k : Nat)
  deriving DecidableEq, Repr

/-- The output a segment is writing to. -/
def BranchLoop.writing (loop : BranchLoop) : Option Bool :=
  match loop.pc with
  | .write => some false
  | .write1 => some true
  | _ => none

/-- The rest of a pass of `write_to_dest` that ends it. -/
def BranchLoop.afterEnd (loop : BranchLoop) (second : Bool) (status : IoStatus) :
    Bool → BranchLoop
  | false => loop.afterWrite second status 0
  | true => loop.afterWrite1 status 0

namespace Branches

/-- The `i`-th segment in `read_from_source`, when a read of the source fails. -/
def sourceFails (plan : List Wires) (p : Branches) (i lost : Nat) : Option Branches :=
  p.stream.segments[i]?.bind fun thread =>
    plan[i]?.bind fun wires =>
      p.loops[i]?.bind fun loop =>
        if thread.pc = .active ∧ loop.pc = .read ∧ wires.input = none then
          some ({ p with source := p.source.drop lost }.setLoop i (loop.afterRead .error []))
        else none

/-- The `i`-th segment in `write_to_dest`, when a sink reports completion or an error. The bytes it
took are not counted. -/
def sinkEnds (plan : List Wires) (p : Branches) (i size : Nat) (status : IoStatus) :
    Option Branches :=
  p.stream.segments[i]?.bind fun thread =>
    plan[i]?.bind fun wires =>
      p.loops[i]?.bind fun loop =>
        loop.writing.bind fun side =>
          match wires.outlet side with
          | some (.sink k) =>
              p.sinks[k]?.bind fun taken =>
                if thread.pc = .active ∧ loop.rest ≠ [] ∧ writePass status ≠ .goOn then
                  some ({ p with sinks := p.sinks.set k (taken ++ loop.rest.take size) }.setLoop i
                    (loop.afterEnd wires.out1.isSome status side))
                else none
          | _ => none

end Branches

/-- The stream with its disturbances, and with any number of callers of `stop_stream_internal`. -/
def brokenSystem (hosts : Nat → Host) (plan : List Wires) (bytes : List UInt8)
    (aligns : List Nat) (sinks : Nat) : System Branches BranchAct where
  start := fun p => ∃ stops, p =
    { stream :=
        { segments := List.replicate plan.length {}
          stops := List.replicate stops .read }
      loops := List.replicate plan.length {}
      source := bytes
      rings := newRings aligns
      sinks := List.replicate sinks [] }
  step := fun p act =>
    match act with
    | .turn act => (branchesSystem hosts plan bytes aligns sinks).step p act
    | .sourceFails i lost => p.sourceFails plan i lost
    | .sinkEnds i size status => p.sinkEnds plan i size status
    | .stop k => p.control (.stop k)

/-! ## Histories -/

/-- The segment reads again, unless the stream stops it. -/
def BranchLoop.asks (loop : BranchLoop) : Bool :=
  match loop.pc with
  | .start => !loop.doComplete
  | .top => !loop.doComplete
  | .read => !loop.doComplete
  | .write => !loop.doComplete
  | .write1 => !loop.doComplete
  | _ => false

/-- The segment writes to its output on this side again, unless the stream stops it. -/
def BranchLoop.live (loop : BranchLoop) (side : Bool) : Bool :=
  match loop.pc with
  | .start => !loop.doComplete
  | .top => !loop.doComplete
  | .read => !loop.doComplete
  | .write => true
  | .write1 => side || !loop.doComplete
  | _ => false

/-- A segment reads only while it has not seen the end of its input, and writes a chunk. -/
structure BranchLoop.Sound (loop : BranchLoop) : Prop where
  reads : loop.pc = .read → loop.doComplete = false
  counted : loop.pc = .write → loop.chunk ≠ [] ∧ loop.rest = loop.chunk.drop loop.wrBytes

/-- What has entered a machine: what has left it and what it holds. -/
def entered (gone : Option Outlet → List UInt8) (content : Outlet → List UInt8) (m : Outlet) :
    List UInt8 :=
  gone (some m) ++ content m

/-- What has entered an output stands to what has left the input as the segment's variables say. -/
structure HandedOn (before after : List UInt8) (loop : BranchLoop) (side : Bool) : Prop where
  order : after <+: before
  all : loop.live side = true → after ++ loop.pending side = before

/-- What holds in every state, with what has left the source and the machines so far. -/
structure Kept (plan : List Wires) (bytes : List UInt8) (p : Branches) (q : Nat → ByteQueue)
    (gone : Option Outlet → List UInt8) : Prop where
  count : p.loops.length = plan.length
  simulated : ∀ (i : Nat) (r : Ring), p.rings[i]? = some r → Simulates r (q i)
  sound : ∀ (i : Nat) (loop : BranchLoop), p.loops[i]? = some loop → loop.Sound
  hop : ∀ (i : Nat) (wires : Wires) (loop : BranchLoop) (side : Bool) (m : Outlet),
    plan[i]? = some wires → p.loops[i]? = some loop → wires.outlet side = some m →
      HandedOn (gone (wires.input.map .ring)) (entered gone (contentOf q p.sinks) m) loop side
  source : gone none <+: bytes
  more : ∀ (i : Nat) (wires : Wires) (loop : BranchLoop), plan[i]? = some wires →
    p.loops[i]? = some loop → wires.input = none → loop.asks = true →
      gone none ++ p.source = bytes
  sinks : ∀ k, gone (some (.sink k)) = []

section Breaking

variable {hosts : Nat → Host} {plan : List Wires} {bytes : List UInt8} {p p' p₁ : Branches}
  {q q' : Nat → ByteQueue} {gone gone' : Option Outlet → List UInt8} {i : Nat} {wires : Wires}
  {loop new : BranchLoop}

/-- Along every route what has entered the far end is a prefix of the source. -/
theorem Kept.entered_prefix (kept : Kept plan bytes p q gone)
    {hops : List ((Nat × Bool) × Outlet)} {o : Outlet}
    (route : Route (ReadsFrom plan) (WritesTo plan) hops o) :
    entered gone (contentOf q p.sinks) o <+: bytes := by
  have handed : ∀ (h : Nat × Bool) (input : Option Outlet) (m : Outlet),
      ReadsFrom plan h input → WritesTo plan h m →
        entered gone (contentOf q p.sinks) m <+: gone input := by
    rintro ⟨i, side⟩ input m ⟨wires, wired, rfl⟩ ⟨other, place, out⟩
    obtain rfl : wires = other := Option.some.inj (wired.symm.trans place)
    have within : i < p.loops.length := kept.count ▸ (List.getElem?_eq_some_iff.mp wired).1
    exact (kept.hop i wires _ side m wired (List.getElem?_eq_getElem within) out).order
  induction route with
  | first reading out => exact (handed _ _ _ reading out).trans kept.source
  | next route input out ih =>
      have left := handed _ _ _ input out
      exact (left.trans (List.prefix_append _ _)).trans ih

/-- A step of the `i`-th segment, by what it does to its own input and outputs. -/
theorem Kept.advance (kept : Kept plan bytes p q gone) (sound : Wired plan)
    (wired : plan[i]? = some wires) (here : p.loops[i]? = some loop) (loops : p₁.loops = p.loops)
    (simulated : ∀ (i : Nat) (r : Ring), p₁.rings[i]? = some r → Simulates r (q' i))
    (ok : new.Sound)
    (mine : ∀ side m, wires.outlet side = some m →
      HandedOn (gone' (wires.input.map .ring)) (entered gone' (contentOf q' p₁.sinks) m) new side)
    (outputs : ∀ m, (∀ side, wires.outlet side ≠ some m) →
      entered gone' (contentOf q' p₁.sinks) m = entered gone (contentOf q p.sinks) m)
    (inputs : ∀ input, input ≠ wires.input.map Outlet.ring → gone' input = gone input)
    (source : gone' none <+: bytes)
    (more : wires.input = none → new.asks = true → gone' none ++ p₁.source = bytes)
    (stays : wires.input ≠ none → p₁.source = p.source) :
    Kept plan bytes (p₁.setLoop i new) q' gone' := by
  have within := (List.getElem?_eq_some_iff.mp here).1
  have set : ∀ j other, (p₁.setLoop i new).loops[j]? = some other →
      j = i ∧ other = new ∨ j ≠ i ∧ p.loops[j]? = some other := by
    intro j other found
    rw [Branches.setLoop, loops] at found
    by_cases same : j = i
    · subst same
      rw [List.getElem?_set_self within] at found
      exact Or.inl ⟨rfl, (Option.some.inj found).symm⟩
    · rw [List.getElem?_set_ne (Ne.symm same)] at found
      exact Or.inr ⟨same, found⟩
  have apart : ∀ (j : Nat) (other : Wires), j ≠ i → plan[j]? = some other →
      other.input.map Outlet.ring ≠ wires.input.map Outlet.ring := by
    intro j other differs place same
    exact differs (sound.same_reader place wired same)
  have length : (p₁.setLoop i new).loops.length = p.loops.length := by
    rw [Branches.setLoop, loops, List.length_set]
  refine ⟨length.trans kept.count, simulated, fun j other found => ?_,
    fun j other loop' side m place found out => ?_,
    source, fun j other loop' place found first asks => ?_, fun k => ?_⟩
  · rcases set j other found with ⟨rfl, rfl⟩ | ⟨-, before⟩
    · exact ok
    · exact kept.sound j other before
  · rcases set j loop' found with ⟨rfl, rfl⟩ | ⟨differs, before⟩
    · obtain rfl : wires = other := Option.some.inj (wired.symm.trans place)
      exact mine side m out
    · have old := kept.hop j other loop' side m place before out
      have same := outputs m fun side' out' =>
        differs (congrArg Prod.fst (sound.writer (j, side) (i, side') m ⟨other, place, out⟩
          ⟨wires, wired, out'⟩))
      show HandedOn (gone' _) (entered gone' (contentOf q' p₁.sinks) m) loop' side
      rw [same, inputs _ (apart j other differs place)]
      exact old
  · rcases set j loop' found with ⟨rfl, rfl⟩ | ⟨differs, before⟩
    · obtain rfl : wires = other := Option.some.inj (wired.symm.trans place)
      exact more first asks
    · have beside := apart j other differs place
      rw [first] at beside
      have notFirst : wires.input ≠ none := fun none => beside (by rw [none])
      show gone' none ++ p₁.source = bytes
      rw [inputs none beside, stays notFirst]
      exact kept.more j other loop' place before first asks
  · rw [inputs]
    · exact kept.sinks k
    · cases wires.input <;> simp

/-- The segment goes on, and holds what it held for an output that it writes to again. -/
theorem Kept.goesOn (kept : Kept plan bytes p q gone) (sound : Wired plan)
    (wired : plan[i]? = some wires) (here : p.loops[i]? = some loop) (loops : p₁.loops = p.loops)
    (simulated : ∀ (i : Nat) (r : Ring), p₁.rings[i]? = some r → Simulates r (q' i))
    (ok : new.Sound) (source : p₁.source = p.source)
    (contents : contentOf q' p₁.sinks = contentOf q p.sinks)
    (asks : new.asks = true → loop.asks = true)
    (goes : ∀ side m, wires.outlet side = some m → new.live side = true →
      loop.live side = true ∧ new.pending side = loop.pending side) :
    Kept plan bytes (p₁.setLoop i new) q' gone := by
  refine kept.advance sound wired here loops simulated ok (fun side m out => ?_)
    (fun m _ => by rw [contents]) (fun _ _ => rfl) kept.source (fun first more => ?_)
    fun _ => source
  · have old := kept.hop i wires loop side m wired here out
    rw [contents]
    refine ⟨old.order, fun live => ?_⟩
    obtain ⟨before, pending⟩ := goes side m out live
    rw [pending]
    exact old.all before
  · rw [source]
    exact kept.more i wires loop wired here first (asks more)

/-- A write to the output on one side, which may be the last one. -/
theorem Kept.write (kept : Kept plan bytes p q gone) (sound : Wired plan)
    (wired : plan[i]? = some wires) (here : p.loops[i]? = some loop) (loops : p₁.loops = p.loops)
    (simulated : ∀ (i : Nat) (r : Ring), p₁.rings[i]? = some r → Simulates r (q' i))
    (ok : new.Sound) (source : p₁.source = p.source) (asks : new.asks = true → loop.asks = true)
    {side : Bool} {out : Outlet} (leads : wires.outlet side = some out) {items rest : List UInt8}
    (back : contentOf q' p₁.sinks out = contentOf q p.sinks out ++ items)
    (elsewhere : ∀ m, m ≠ out → contentOf q' p₁.sinks m = contentOf q p.sinks m)
    (live : loop.live side = true) (front : loop.pending side = items ++ rest)
    (goes : new.live side = true → new.pending side = rest)
    (beside : new.live (!side) = true →
      loop.live (!side) = true ∧ new.pending (!side) = loop.pending (!side)) :
    Kept plan bytes (p₁.setLoop i new) q' gone := by
  have same : ∀ m, m ≠ out →
      entered gone (contentOf q' p₁.sinks) m = entered gone (contentOf q p.sinks) m := by
    intro m other
    rw [entered, entered, elsewhere m other]
  refine kept.advance sound wired here loops simulated ok (fun side' m out' => ?_)
    (fun m others => same m fun at_ => others side (at_ ▸ leads)) (fun _ _ => rfl) kept.source
    (fun first more => ?_) fun _ => source
  · have old := kept.hop i wires loop side' m wired here out'
    by_cases this : side' = side
    · subst this
      obtain rfl : out = m := Option.some.inj (leads.symm.trans out')
      have all := old.all live
      rw [front, entered, ← List.append_assoc, List.append_assoc (gone _), ← back] at all
      exact ⟨⟨rest, all⟩, fun again => by rw [goes again]; exact all⟩
    · obtain rfl : side' = !side := by cases side <;> cases side' <;> simp_all
      have other : m ≠ out := by
        rintro rfl
        exact this (congrArg Prod.snd (sound.writer (i, !side) (i, side) m ⟨wires, wired, out'⟩
          ⟨wires, wired, leads⟩))
      rw [same m other]
      refine ⟨old.order, fun again => ?_⟩
      obtain ⟨before, pending⟩ := beside again
      rw [pending]
      exact old.all before
  · rw [source]
    exact kept.more i wires loop wired here first (asks more)

/-- What has left the machines after a read. -/
def leaving (gone : Option Outlet → List UInt8) (input : Option Outlet) (out : List UInt8) :
    Option Outlet → List UInt8 :=
  fun m => if m = input then gone input ++ out else gone m

/-- A read. -/
theorem Kept.read (kept : Kept plan bytes p q gone) (sound : Wired plan)
    (wired : plan[i]? = some wires) (here : p.loops[i]? = some loop) (pc : loop.pc = .read)
    {status : IoStatus} {out : List UInt8} (spec : BranchRead p p₁ q q' wires status out) :
    Kept plan bytes (p₁.setLoop i (loop.afterRead status out)) q'
      (leaving gone (wires.input.map .ring) out) := by
  have running := (kept.sound i loop here).reads pc
  have after := afterRead_eq loop out spec.noError
  have ok : (loop.afterRead status out).Sound := by
    rw [after]
    by_cases empty : out = [] <;> exact ⟨by simp [empty], by simp [empty]⟩
  have own : leaving gone (wires.input.map .ring) out (wires.input.map .ring) =
      gone (wires.input.map .ring) ++ out := if_pos rfl
  have others : ∀ m, m ≠ wires.input.map Outlet.ring →
      leaving gone (wires.input.map .ring) out m = gone m := fun m other => if_neg other
  -- What enters the machines does not change.
  have same : ∀ m, entered (leaving gone (wires.input.map .ring) out) (contentOf q' p₁.sinks) m =
      entered gone (contentOf q p.sinks) m := by
    intro m
    unfold entered
    cases input : wires.input with
    | none =>
        obtain ⟨-, rfl⟩ := spec.source input
        rw [← input, others _ (by simp [input]), spec.sinks]
    | some r =>
        obtain ⟨front, elsewhere, -⟩ := spec.ring r input
        by_cases its : m = .ring r
        · subst its
          have named : some (Outlet.ring r) = wires.input.map Outlet.ring := by rw [input]; rfl
          rw [← input, named, own, ← named, List.append_assoc]
          exact congrArg _ front.symm
        · rw [← input, others _ (by simpa [input] using its)]
          cases m with
          | ring j =>
              exact congrArg _ (elsewhere j fun at_ => its (congrArg Outlet.ring at_))
          | sink k => rw [contentOf, contentOf, spec.sinks]
  refine kept.advance sound wired here spec.serves.loops spec.serves.simulated ok
    (fun side m leads => ?_) (fun m _ => same m) others ?_ (fun first _ => ?_) fun notFirst => ?_
  · have old := kept.hop i wires loop side m wired here leads
    have all := old.all (by simp [BranchLoop.live, pc, running])
    rw [pending_idle (by simp [pc]) (by simp [pc]), List.append_nil] at all
    rw [same m, own, all]
    refine ⟨List.prefix_append _ _, fun _ => congrArg _ ?_⟩
    rw [after]
    by_cases empty : out = [] <;> cases side <;> simp [BranchLoop.pending, empty]
  · cases input : wires.input with
    | none =>
        have more :=
          kept.more i wires loop wired here input (by simp [BranchLoop.asks, pc, running])
        rw [(spec.source input).1, ← List.append_assoc] at more
        rw [input] at own
        exact ⟨p₁.source, (congrArg (· ++ p₁.source) own).trans more⟩
    | some r =>
        rw [← input, others none (by simp [input])]
        exact kept.source
  · have more := kept.more i wires loop wired here first (by simp [BranchLoop.asks, pc, running])
    rw [(spec.source first).1, ← List.append_assoc] at more
    rw [first] at own
    rw [first]
    exact (congrArg (· ++ p₁.source) own).trans more
  · obtain ⟨r, input⟩ := Option.ne_none_iff_exists'.mp notFirst
    exact (spec.ring r input).2.2

/-- A step that moves no bytes, to a place where the segment holds none. -/
theorem Kept.goto (kept : Kept plan bytes p q gone) (sound : Wired plan)
    (wired : plan[i]? = some wires) (here : p.loops[i]? = some loop) (loops : p₁.loops = p.loops)
    (simulated : ∀ (i : Nat) (r : Ring), p₁.rings[i]? = some r → Simulates r (q' i))
    (ok : new.Sound) (source : p₁.source = p.source)
    (contents : contentOf q' p₁.sinks = contentOf q p.sinks)
    (asks : new.asks = true → loop.asks = true)
    (live : ∀ side, new.live side = true → loop.live side = true)
    (first : loop.pc ≠ .write) (second : loop.pc ≠ .write1) (first' : new.pc ≠ .write)
    (second' : new.pc ≠ .write1) : Kept plan bytes (p₁.setLoop i new) q' gone :=
  kept.goesOn sound wired here loops simulated ok source contents asks fun side m out again =>
    ⟨live side again, pending_goto first second first' second' side m out⟩

/-- A step of the threads, after which the segment goes on. -/
theorem Kept.control_goto (kept : Kept plan bytes p q gone) (sound : Wired plan)
    (wired : plan[i]? = some wires) (here : p.loops[i]? = some loop) {act : Act}
    (step : (p.control act).map (fun p => p.setLoop i new) = some p') (ok : new.Sound)
    (asks : new.asks = true → loop.asks = true)
    (live : ∀ side, new.live side = true → loop.live side = true)
    (first : loop.pc ≠ .write) (second : loop.pc ≠ .write1) (first' : new.pc ≠ .write)
    (second' : new.pc ≠ .write1) : Kept plan bytes p' q gone := by
  obtain ⟨p₁, moved, rfl⟩ := Option.map_eq_some_iff.mp step
  obtain ⟨stream, -, rfl⟩ := Option.map_eq_some_iff.mp moved
  exact kept.goto sound wired here rfl kept.simulated ok rfl rfl asks live first second first'
    second'

/-- The segment, which is past its loop, stops a machine. -/
theorem Kept.stop (kept : Kept plan bytes p q gone) (sound : Wired plan)
    (fits : ∀ i, (hosts i).Fits) (wired : plan[i]? = some wires) (here : p.loops[i]? = some loop)
    {m : Option Nat} (stop : p.stopRing hosts m = some p₁) (first : loop.pc ≠ .write)
    (second : loop.pc ≠ .write1) (next : new.pc = .stopOut ∨ new.pc = .stopOut1 ∨ new.pc = .clear) :
    ∃ q' gone', Kept plan bytes (p₁.setLoop i new) q' gone' := by
  obtain ⟨q', serves, source, contents⟩ := stopRing_spec fits kept.simulated stop
  refine ⟨q', gone, kept.goto sound wired here serves.loops serves.simulated ?_ source contents
    ?_ ?_ first second ?_ ?_⟩
  · rcases next with pc | pc | pc <;> exact ⟨by simp [pc], by simp [pc]⟩
  · rcases next with pc | pc | pc <;> simp [BranchLoop.asks, pc]
  · rcases next with pc | pc | pc <;> simp [BranchLoop.live, pc]
  · rcases next with pc | pc | pc <;> simp [pc]
  · rcases next with pc | pc | pc <;> simp [pc]

/-- The first output has the chunk. -/
theorem Kept.afterFirst (kept : Kept plan bytes p q gone) (sound : Wired plan)
    (wired : plan[i]? = some wires) (here : p.loops[i]? = some loop) (pc : loop.pc = .write)
    (done : loop.rest = []) :
    Kept plan bytes (p.setLoop i (loop.afterFirst wires.out1.isSome)) q gone := by
  obtain ⟨carries, rest⟩ := (kept.sound i loop here).counted pc
  have counted := wrBytes_ne_zero carries rest done
  unfold BranchLoop.afterFirst
  split
  · refine kept.goesOn sound wired here rfl kept.simulated ⟨by simp, by simp⟩ rfl rfl
      (by simp [BranchLoop.asks, pc]) fun side m out _ => ⟨by simp [BranchLoop.live, pc], ?_⟩
    cases side <;> simp [BranchLoop.pending, pc, done]
  · next single =>
      refine kept.goesOn sound wired here rfl kept.simulated ⟨by simp, by simp⟩ rfl rfl
        (by simp [BranchLoop.asks, pc]) fun side m out _ => ⟨by simp [BranchLoop.live, pc], ?_⟩
      cases side with
      | false => simp [BranchLoop.pending, pc, done]
      | true =>
          have second : wires.out1 = some m := out
          exact absurd ⟨counted, by rw [second]; rfl⟩ single

/-- **A step of a segment in its loop**, whatever the stream is doing. -/
theorem Kept.segmentRun (kept : Kept plan bytes p q gone) (sound : Wired plan)
    (fits : ∀ i, (hosts i).Fits) (positive : 0 < wires.buflen) {choice : Choice}
    (wired : plan[i]? = some wires) (here : p.loops[i]? = some loop)
    (step : p.segmentRun hosts i wires loop choice = some p') :
    ∃ q' gone', Kept plan bytes p' q' gone' := by
  have old := kept.sound i loop here
  unfold Branches.segmentRun at step
  cases pc : loop.pc with
  | start =>
      rw [pc] at step
      exact ⟨q, gone, kept.control_goto sound wired here step ⟨by simp, by simp⟩
        (by simp [BranchLoop.asks, pc]) (by simp [BranchLoop.live, pc]) (by simp [pc])
        (by simp [pc]) (by simp) (by simp)⟩
  | top =>
      simp only [pc] at step
      split at step
      · cases step
        exact ⟨q, gone, kept⟩
      · split at step
        · cases step
          exact ⟨q, gone, kept.goto sound wired here rfl kept.simulated ⟨by simp, by simp⟩ rfl rfl
            (by simp [BranchLoop.asks]) (by simp [BranchLoop.live]) (by simp [pc]) (by simp [pc])
            (by simp) (by simp)⟩
        · next incomplete =>
            split at step
            · cases step
              exact ⟨q, gone, kept.goto sound wired here rfl kept.simulated
                ⟨fun _ => by simpa using incomplete, by simp⟩ rfl rfl
                (by simp [BranchLoop.asks, pc]) (by simp [BranchLoop.live, pc]) (by simp [pc])
                (by simp [pc]) (by simp) (by simp)⟩
            · exact ⟨q, gone, kept.control_goto sound wired here step ⟨by simp, by simp⟩
                (by simp [BranchLoop.asks]) (by simp [BranchLoop.live]) (by simp [pc])
                (by simp [pc]) (by simp) (by simp)⟩
  | read =>
      rw [pc] at step
      obtain ⟨⟨p₁, status, out⟩, read, rfl⟩ := Option.map_eq_some_iff.mp step
      obtain ⟨q', spec⟩ := readInput_spec fits kept.simulated positive read
      exact ⟨q', _, kept.read sound wired here pc spec⟩
  | write =>
      simp only [pc] at step
      obtain ⟨carries, rest⟩ := old.counted pc
      split at step
      · next done =>
          cases step
          exact ⟨q, gone, kept.afterFirst sound wired here pc done⟩
      · next holds =>
          obtain ⟨⟨p₁, status, count⟩, write, rfl⟩ := Option.map_eq_some_iff.mp step
          obtain ⟨q', spec⟩ := writeOutput_spec fits kept.simulated holds write
          have first : wires.outlet false = some wires.out := rfl
          have front : loop.pending false = loop.rest.take count ++ loop.rest.drop count := by
            simp [BranchLoop.pending, pc]
          rw [afterWrite_eq spec.goesOn]
          refine ⟨q', gone, kept.write sound wired here spec.serves.loops spec.serves.simulated
            ⟨by simp [pc], fun _ => ⟨carries, by rw [rest, List.drop_drop]⟩⟩ spec.source
            (by simp [BranchLoop.asks, pc]) first spec.back spec.elsewhere
            (by simp [BranchLoop.live, pc]) front ?_ ?_⟩
          · simp [BranchLoop.pending, pc]
          · simp [BranchLoop.pending, BranchLoop.live, pc]
  | write1 =>
      simp only [pc] at step
      split at step
      · next done =>
          cases step
          refine ⟨q, gone, kept.goesOn sound wired here rfl kept.simulated ⟨by simp, by simp⟩ rfl
            rfl (by simp [BranchLoop.asks, pc]) fun side m out again => ⟨?_, ?_⟩⟩
          · have running : loop.doComplete = false := by simpa [BranchLoop.live] using again
            simp [BranchLoop.live, pc, running]
          · cases side <;> simp [BranchLoop.pending, pc, done]
      · next holds =>
          obtain ⟨out, second, step⟩ := Option.bind_eq_some_iff.mp step
          obtain ⟨⟨p₁, status, count⟩, write, rfl⟩ := Option.map_eq_some_iff.mp step
          obtain ⟨q', spec⟩ := writeOutput_spec fits kept.simulated holds write
          have leads : wires.outlet true = some out := second
          have front : loop.pending true = loop.rest.take count ++ loop.rest.drop count := by
            simp [BranchLoop.pending, pc]
          rw [afterWrite1_eq spec.goesOn]
          refine ⟨q', gone, kept.write sound wired here spec.serves.loops spec.serves.simulated
            ⟨by simp [pc], by simp [pc]⟩ spec.source (by simp [BranchLoop.asks, pc]) leads
            spec.back spec.elsewhere (by simp [BranchLoop.live, pc]) front ?_ ?_⟩
          · simp [BranchLoop.pending, pc]
          · simp [BranchLoop.pending, BranchLoop.live, pc]
  | leave =>
      rw [pc] at step
      obtain ⟨stream, -, rfl⟩ := Option.map_eq_some_iff.mp step
      exact ⟨q, gone, kept.count, kept.simulated, kept.sound, kept.hop, kept.source, kept.more,
        kept.sinks⟩
  | stopIn =>
      rw [pc] at step
      obtain ⟨p₁, stop, rfl⟩ := Option.map_eq_some_iff.mp step
      exact kept.stop sound fits wired here stop (by simp [pc]) (by simp [pc]) (by simp)
  | stopOut =>
      rw [pc] at step
      obtain ⟨p₁, stop, rfl⟩ := Option.map_eq_some_iff.mp step
      exact kept.stop sound fits wired here stop (by simp [pc]) (by simp [pc]) (by simp)
  | stopOut1 =>
      rw [pc] at step
      obtain ⟨p₁, stop, rfl⟩ := Option.map_eq_some_iff.mp step
      exact kept.stop sound fits wired here stop (by simp [pc]) (by simp [pc]) (by simp)
  | _ =>
      rw [pc] at step
      exact ⟨q, gone, kept.control_goto sound wired here step ⟨by simp, by simp⟩
        (by simp [BranchLoop.asks]) (by simp [BranchLoop.live]) (by simp [pc]) (by simp [pc])
        (by simp) (by simp)⟩

/-- A read of the source that fails: the segment writes nothing more. -/
theorem Kept.sourceFails (kept : Kept plan bytes p q gone) (sound : Wired plan) {lost : Nat}
    (step : p.sourceFails plan i lost = some p') : Kept plan bytes p' q gone := by
  obtain ⟨thread, there, step⟩ := Option.bind_eq_some_iff.mp step
  obtain ⟨wires, wired, step⟩ := Option.bind_eq_some_iff.mp step
  obtain ⟨loop, here, step⟩ := Option.bind_eq_some_iff.mp step
  split at step
  · next reads =>
      cases step
      have after : loop.afterRead .error [] = { loop with pc := .fail } := rfl
      rw [after]
      refine kept.advance sound wired here rfl kept.simulated ⟨by simp, by simp⟩
        (fun side m out => ?_) (fun _ _ => rfl) (fun _ _ => rfl) kept.source (fun _ asks => ?_)
        fun notFirst => absurd reads.2.2 notFirst
      · have old := kept.hop i wires loop side m wired here out
        exact ⟨old.order, fun live => by simp [BranchLoop.live] at live⟩
      · simp [BranchLoop.asks] at asks
  · cases step

/-- After a pass that ends `write_to_dest` the segment is done with this output, and holds what it
held for the other one if it still writes there. -/
theorem afterEnd_spec {side second : Bool} {status : IoStatus} (writes : loop.writing = some side)
    (ends : writePass status ≠ .goOn) :
    (loop.afterEnd second status side).Sound ∧
      (loop.afterEnd second status side).asks = false ∧
      (loop.afterEnd second status side).live side = false ∧
      ((loop.afterEnd second status side).live (!side) = true →
        loop.live (!side) = true ∧
          (loop.afterEnd second status side).pending (!side) = loop.pending (!side)) := by
  cases side with
  | false =>
      have pc : loop.pc = .write := by
        cases pc : loop.pc <;> simp_all [BranchLoop.writing]
      cases pass : writePass status with
      | goOn => exact absurd pass ends
      | fail =>
          simp only [BranchLoop.afterEnd, BranchLoop.afterWrite, pass]
          exact ⟨⟨by simp, by simp⟩, rfl, rfl, by simp [BranchLoop.live]⟩
      | complete =>
          simp only [BranchLoop.afterEnd, BranchLoop.afterWrite, BranchLoop.afterFirst, pass]
          split
          · refine ⟨⟨by simp, by simp⟩, rfl, rfl, fun _ => ⟨?_, ?_⟩⟩
            · simp [BranchLoop.live, pc]
            · simp [BranchLoop.pending, pc]
          · exact ⟨⟨by simp, by simp⟩, rfl, rfl, by simp [BranchLoop.live]⟩
  | true =>
      have pc : loop.pc = .write1 := by
        cases pc : loop.pc <;> simp_all [BranchLoop.writing]
      cases pass : writePass status with
      | goOn => exact absurd pass ends
      | fail =>
          simp only [BranchLoop.afterEnd, BranchLoop.afterWrite1, pass]
          exact ⟨⟨by simp, by simp⟩, rfl, rfl, by simp [BranchLoop.live]⟩
      | complete =>
          simp only [BranchLoop.afterEnd, BranchLoop.afterWrite1, pass]
          exact ⟨⟨by simp, by simp⟩, rfl, rfl, by simp [BranchLoop.live]⟩

/-- A segment in `write_to_dest` holds the rest of the chunk for the output at hand. -/
theorem pending_writing {side : Bool} (writes : loop.writing = some side) :
    loop.pending side = loop.rest ∧ loop.live side = true := by
  cases pc : loop.pc <;> cases side <;>
    simp_all [BranchLoop.writing, BranchLoop.pending, BranchLoop.live]

/-- A write to a sink that ends `write_to_dest`. -/
theorem Kept.sinkEnds (kept : Kept plan bytes p q gone) (sound : Wired plan) {size : Nat}
    {status : IoStatus} (step : p.sinkEnds plan i size status = some p') :
    Kept plan bytes p' q gone := by
  obtain ⟨thread, there, step⟩ := Option.bind_eq_some_iff.mp step
  obtain ⟨wires, wired, step⟩ := Option.bind_eq_some_iff.mp step
  obtain ⟨loop, here, step⟩ := Option.bind_eq_some_iff.mp step
  obtain ⟨side, writes, step⟩ := Option.bind_eq_some_iff.mp step
  split at step
  · next k leads =>
      obtain ⟨taken, place, step⟩ := Option.bind_eq_some_iff.mp step
      split at step
      · next ends =>
          cases step
          obtain ⟨ok, asks, done, beside⟩ := afterEnd_spec writes ends.2.2
          obtain ⟨pending, live⟩ := pending_writing writes
          have front : loop.pending side = loop.rest.take size ++ loop.rest.drop size := by
            rw [pending, List.take_append_drop]
          exact kept.write sound wired here rfl kept.simulated ok rfl
            (fun more => by simp [asks] at more) leads (contentOf_take place _)
            (fun m other => contentOf_take_other other) live front
            (fun more => by simp [done] at more) beside
      · cases step
  · cases step

/-- A step of the threads of the stream. -/
theorem Kept.control (kept : Kept plan bytes p q gone) {act : Act}
    (step : p.control act = some p') : Kept plan bytes p' q gone := by
  obtain ⟨stream, -, rfl⟩ := Option.map_eq_some_iff.mp step
  exact ⟨kept.count, kept.simulated, kept.sound, kept.hop, kept.source, kept.more, kept.sinks⟩

theorem Kept.step (kept : Kept plan bytes p q gone) (sound : Wired plan)
    (fits : ∀ i, (hosts i).Fits) (positive : ∀ wires ∈ plan, 0 < wires.buflen)
    {aligns : List Nat} {sinks : Nat} {act : BranchAct}
    (step : (brokenSystem hosts plan bytes aligns sinks).step p act = some p') :
    ∃ q' gone', Kept plan bytes p' q' gone' := by
  cases act with
  | turn act =>
      cases act with
      | main => exact ⟨q, gone, kept.control step⟩
      | segment i choice =>
          obtain ⟨thread, there, step⟩ := Option.bind_eq_some_iff.mp step
          cases pc : thread.pc with
          | active =>
              rw [pc] at step
              obtain ⟨wires, wired, step⟩ := Option.bind_eq_some_iff.mp step
              obtain ⟨loop, here, step⟩ := Option.bind_eq_some_iff.mp step
              exact kept.segmentRun sound fits (positive wires (List.mem_of_getElem? wired)) wired
                here step
          | _ =>
              rw [pc] at step
              exact ⟨q, gone, kept.control step⟩
  | sourceFails i lost => exact ⟨q, gone, kept.sourceFails sound step⟩
  | sinkEnds i size status => exact ⟨q, gone, kept.sinkEnds sound step⟩
  | stop k => exact ⟨q, gone, kept.control step⟩

/-- Nothing has left a machine of a new stream. -/
theorem kept_start {aligns : List Nat} (aligned : ∀ align ∈ aligns, 0 < align) {sinks : Nat}
    (start : (brokenSystem hosts plan bytes aligns sinks).start p) :
    Kept plan bytes p (fun _ => {}) fun _ => [] := by
  obtain ⟨stops, rfl⟩ := start
  have new : ∀ (i : Nat) (loop : BranchLoop),
      (List.replicate plan.length ({} : BranchLoop))[i]? = some loop → loop = {} :=
    fun i loop here => List.eq_of_mem_replicate (List.mem_of_getElem? here)
  refine ⟨List.length_replicate, fun i r here => ?_, fun i loop here => ?_,
    fun i wires loop side m wired here out => ?_, List.nil_prefix, fun _ _ _ _ _ _ _ => rfl,
    fun _ => rfl⟩
  · obtain ⟨align, member, rfl⟩ := List.mem_map.mp (List.mem_of_getElem? here)
    exact simulates_start (aligned align member)
  · obtain rfl := new i loop here
    exact ⟨fun _ => rfl, by simp⟩
  · obtain rfl := new i loop here
    have empty : entered (fun _ => []) (contentOf (fun _ => {}) (List.replicate sinks [])) m = [] :=
      contentOf_new sinks m
    rw [empty]
    exact ⟨List.prefix_rfl, fun _ => by cases side <;> rfl⟩

end Breaking

/-- **A stream with branches that breaks down keeps a prefix on every branch.** Whatever reads of
the source fail, whatever writes to a sink fail or complete early, whenever the stream is stopped
and in whatever order the threads move, each sink that a route leads to holds a prefix of the bytes
of the source. -/
theorem branches_keep_prefix (hosts : Nat → Host) (fits : ∀ i, (hosts i).Fits)
    (plan : List Wires) (sound : Wired plan) (positive : ∀ wires ∈ plan, 0 < wires.buflen)
    (aligns : List Nat) (aligned : ∀ align ∈ aligns, 0 < align) (sinks : Nat) (bytes : List UInt8)
    (p : Branches) (reached : (brokenSystem hosts plan bytes aligns sinks).Reach p) (k : Nat)
    (fed : Fed plan k) : (p.sinks[k]?).getD [] <+: bytes := by
  obtain ⟨q, gone, kept⟩ : ∃ q gone, Kept plan bytes p q gone := by
    refine reached.invariant (I := fun p => ∃ q gone, Kept plan bytes p q gone)
      (fun s start => ⟨_, _, kept_start aligned start⟩) fun s act t held _ step => ?_
    obtain ⟨q, gone, kept⟩ := held
    exact kept.step sound fits positive step
  obtain ⟨hops, route⟩ := fed
  have front := kept.entered_prefix route
  rw [entered, kept.sinks k, List.nil_append] at front
  exact front

/-- The sink on the second output of the tee fails when it has taken one byte; the other branch has
both all the same. -/
theorem branches_keep_prefix_fails :
    ∃ p, (brokenSystem (fun _ => roomyHost) teePlan [7, 8] [1] 2).Reach p ∧
      p.sinks = [[7], [7, 8]] ∧ (p.sinks[0]?).getD [] <+: [7, 8] := by
  let system := brokenSystem (fun _ => roomyHost) teePlan [7, 8] [1] 2
  let start : Branches :=
    { stream := { segments := [{}, {}], stops := [] }
      loops := [{}, {}]
      source := [7, 8]
      rings := newRings [1]
      sinks := [[], []] }
  let all : Choice := { size := 2, complete := true }
  let acts := List.replicate 5 (BranchAct.turn .main) ++
    List.replicate 5 (BranchAct.turn (.segment 0 all)) ++ [.sinkEnds 0 1 .error] ++
    List.replicate 4 (BranchAct.turn (.segment 1 all))
  have ends : (system.exec start acts).map (·.sinks) = some [[7], [7, 8]] := by decide +kernel
  obtain ⟨p, run, last⟩ := Option.map_eq_some_iff.mp ends
  have reached : system.Reach p := .exec (.start ⟨0, rfl⟩) run
  exact ⟨p, reached, last, branches_keep_prefix (fun _ => roomyHost) (fun _ => roomyHost_fits)
    teePlan teePlan_wired (by decide) [1] (by simp) 2 [7, 8] p reached 0 teePlan_fed.1⟩

end Bingewatch.Stream
