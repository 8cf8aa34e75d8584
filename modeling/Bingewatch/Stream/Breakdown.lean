import Bingewatch.Stream.Beside
import Bingewatch.Stream.Delivery
import Bingewatch.Stream.SourceSegment
import Bingewatch.Stream.Status

/-!
# A linear stream that breaks down

`pipelineSystem` is a stream whose source and sink never fail and that nobody stops. Here they may
fail at any call, the sink may report completion before it has taken everything, and any number of
callers may be in `stop_stream_internal` at any time. A read that fails stops its segment, which
loses the bytes the source gave; a write that fails or completes makes `write_to_dest` give up the
rest of the chunk.

A segment that gives up its chunk never reads or writes again, so it cuts the chain: nothing that
stands before it comes past it any more. `breakdown_keeps_prefix` says that the sink holds a prefix
of the source all the same, and `loss_is_reported` that the status of the stream tells when it is
not all of it.
-/

set_option autoImplicit false

namespace Bingewatch.Stream

open Foundation Machine Buffer

/-! ## The disturbed chain -/

/-- A step of the undisturbed chain; a read of the source that fails and loses some bytes; a write
to the sink that takes some of the bytes and reports completion or an error; and a step of a caller
of `stop_stream_internal`. -/
inductive DisturbedAct where
  | turn (act : PipelineAct)
  | sourceFails (lost : Nat)
  | sinkEnds (size : Nat) (status : IoStatus)
  | stop (k : Nat)
  deriving DecidableEq, Repr

namespace Pipeline

variable {β : Type}

/-- The first segment in `read_from_source`, when the read fails. -/
def sourceFails (p : Pipeline β) (lost : Nat) : Option (Pipeline β) :=
  p.stream.segments[0]?.bind fun thread =>
    p.loops[0]?.bind fun loop =>
      if thread.pc = .active ∧ loop.pc = .read then
        some ({ p with source := p.source.drop lost }.setLoop 0 (loop.afterRead .error []))
      else none

/-- The last segment in `write_to_dest`, when the sink reports completion or an error. The bytes it
took are not counted. -/
def sinkEnds (p : Pipeline β) (size : Nat) (status : IoStatus) : Option (Pipeline β) :=
  p.stream.segments[p.buffers.length]?.bind fun thread =>
    p.loops[p.buffers.length]?.bind fun loop =>
      if thread.pc = .active ∧ loop.pc = .write ∧ loop.chunk ≠ [] ∧ writePass status ≠ .goOn then
        some ({ p with sink := p.sink ++ loop.chunk.take size }.setLoop p.buffers.length
          (loop.afterWrite status 0))
      else none

end Pipeline

/-- The chain with its disturbances, and with any number of callers of `stop_stream_internal`. -/
def disturbedSystem {β : Type} (chain : Chain β) (bytes : List UInt8) (buffers : List β) :
    System (Pipeline β) DisturbedAct where
  start := fun p => ∃ stops, p =
    { stream :=
        { segments := List.replicate (buffers.length + 1) {}
          stops := List.replicate stops .read }
      loops := List.replicate (buffers.length + 1) {}
      source := bytes
      buffers := buffers }
  step := fun p act =>
    match act with
    | .turn act => (pipelineSystem chain bytes buffers).step p act
    | .sourceFails lost => p.sourceFails lost
    | .sinkEnds size status => p.sinkEnds size status
    | .stop k => p.control (.stop k)

/-! ## A segment that is done with its bytes -/

/-- The segment holds nothing, and never reads or writes again. -/
def SegmentLoop.Spent (loop : SegmentLoop) : Prop :=
  loop.chunk = [] ∧
    match loop.pc with
    | .start => False
    | .read => False
    | .top => loop.doComplete = true
    | .write => loop.doComplete = true
    | _ => True

/-- A segment holds bytes only while it writes, and reads only while it has not seen the end of its
input. -/
structure SegmentLoop.Sound (loop : SegmentLoop) : Prop where
  holds : loop.chunk ≠ [] → loop.pc = .write
  asks : loop.pc = .read → loop.doComplete = false

/-- What a step of the `i`-th segment does to the bytes under way: they go one cell on, or stay, and
stay where the segment is spent. -/
structure Carries (p p' : Pipeline ByteQueue) (i : Nat) (loop : SegmentLoop) : Prop where
  places : p'.buffers.length = p.buffers.length
  loops : ∃ new : SegmentLoop, p'.loops = p.loops.set i new ∧ new.Sound ∧ (loop.Spent → new.Spent)
  cells : p'.cell = p.cell ∨
    ¬loop.Spent ∧ (Moves p.cell p'.cell (2 * i) ∨ Moves p.cell p'.cell (2 * i + 1))

section Carrying

variable {buflen : Nat → Nat} {choice : Choice} {p p' : Pipeline ByteQueue} {i : Nat}
  {loop : SegmentLoop}

/-- The segment goes on with the same chunk. -/
theorem cell_setLoop_same (here : p.loops[i]? = some loop) {new : SegmentLoop}
    (chunk : new.chunk = loop.chunk) : (p.setLoop i new).cell = p.cell := by
  funext k
  by_cases own : k = 2 * i + 1
  · subst own
    rw [Pipeline.cell_setLoop_chunk (List.getElem?_eq_some_iff.mp here).1, Pipeline.cell_chunk,
      Pipeline.chunkAt, here, chunk]
    rfl
  · exact Pipeline.cell_setLoop own

/-- A step that moves no bytes. -/
theorem carries_quiet (here : p.loops[i]? = some loop) {p₁ : Pipeline ByteQueue}
    (loops : p₁.loops = p.loops) (places : p₁.buffers.length = p.buffers.length)
    (cell : p₁.cell = p.cell) {new : SegmentLoop} (chunk : new.chunk = loop.chunk)
    (sound : new.Sound) (spent : loop.Spent → new.Spent) :
    Carries p (p₁.setLoop i new) i loop where
  places := places
  loops := ⟨new, by rw [Pipeline.setLoop, loops], sound, spent⟩
  cells := .inl ((cell_setLoop_same (loops ▸ here) chunk).trans cell)

/-- A step of the threads, after which the segment goes on. -/
theorem carries_control (here : p.loops[i]? = some loop) {act : Act} {new : SegmentLoop}
    (step : (p.control act).map (fun p => p.setLoop i new) = some p')
    (chunk : new.chunk = loop.chunk) (sound : new.Sound) (spent : loop.Spent → new.Spent) :
    Carries p p' i loop := by
  obtain ⟨p₁, moved, rfl⟩ := Option.map_eq_some_iff.mp step
  obtain ⟨stream, -, rfl⟩ := Option.map_eq_some_iff.mp moved
  have loops : ({ p with stream := stream } : Pipeline ByteQueue).loops = p.loops := rfl
  exact carries_quiet here loops rfl rfl chunk sound spent

/-- A read. -/
theorem carries_read (here : p.loops[i]? = some loop) (sound : loop.Sound) (pc : loop.pc = .read)
    {p₁ : Pipeline ByteQueue} {status : IoStatus} {out : List UInt8}
    (spec : p.ReadSpec p₁ i status out) :
    Carries p (p₁.setLoop i (loop.afterRead status out)) i loop := by
  have within := (List.getElem?_eq_some_iff.mp here).1
  have nothing : loop.chunk = [] := by
    by_contra holds
    cases pc.symm.trans (sound.holds holds)
  have reads : ¬loop.Spent := by simp [SegmentLoop.Spent, pc]
  have after : loop.afterRead status out =
      { pc := if out = [] then .top else .write
        doComplete := loop.doComplete || status == .complete
        chunk := out } := by
    simp [SegmentLoop.afterRead, spec.noError]
  rw [after]
  refine ⟨spec.touches.places, ⟨_, by rw [Pipeline.setLoop, spec.touches.loops], ⟨?_, ?_⟩,
    fun spent => absurd spent reads⟩,
    .inr ⟨reads, .inl ⟨⟨out, ?_, ?_⟩, fun k notIn notChunk => ?_⟩⟩⟩
  · intro holds
    exact if_neg holds
  · by_cases empty : out = [] <;> simp [empty]
  · rw [Pipeline.cell_setLoop (by omega)]
    exact spec.front
  · have length : i < p₁.loops.length := spec.touches.loops.symm ▸ within
    rw [Pipeline.cell_setLoop_chunk length, Pipeline.cell_chunk, Pipeline.chunkAt, here]
    simp [nothing]
  · rw [Pipeline.cell_setLoop notChunk]
    exact spec.touches.elsewhere k notIn

/-- Bytes of the chunk go to what the segment writes to. -/
theorem moves_write (here : p.loops[i]? = some loop) {p₁ : Pipeline ByteQueue} {count : Nat}
    (touches : p.Touches p₁ (2 * (i + 1)))
    (back : p₁.cell (2 * (i + 1)) = p.cell (2 * (i + 1)) ++ loop.chunk.take count)
    {new : SegmentLoop} (chunk : new.chunk = loop.chunk.drop count) :
    Moves p.cell (p₁.setLoop i new).cell (2 * i + 1) := by
  have within := (List.getElem?_eq_some_iff.mp here).1
  refine ⟨⟨loop.chunk.take count, ?_, ?_⟩, fun k notChunk notOut => ?_⟩
  · have length : i < p₁.loops.length := touches.loops.symm ▸ within
    rw [Pipeline.cell_setLoop_chunk length, Pipeline.cell_chunk, Pipeline.chunkAt, here, chunk]
    exact (List.take_append_drop count loop.chunk).symm
  · rw [Pipeline.cell_setLoop (by omega)]
    exact back
  · rw [Pipeline.cell_setLoop notChunk]
    exact touches.elsewhere k notOut

/-- A write. -/
theorem carries_write (here : p.loops[i]? = some loop) (pc : loop.pc = .write)
    (holds : loop.chunk ≠ []) {p₁ : Pipeline ByteQueue} {status : IoStatus} {count : Nat}
    (spec : p.WriteSpec p₁ i loop.chunk status count) :
    Carries p (p₁.setLoop i (loop.afterWrite status count)) i loop := by
  have after : loop.afterWrite status count = { loop with chunk := loop.chunk.drop count } := by
    simp only [SegmentLoop.afterWrite, spec.goesOn]
  have notSpent : ¬loop.Spent := fun spent => holds spent.1
  rw [after]
  refine ⟨spec.touches.places, ⟨{ loop with chunk := loop.chunk.drop count },
    by rw [Pipeline.setLoop, spec.touches.loops],
    ⟨fun _ => pc, fun reads => by cases pc.symm.trans reads⟩, fun spent => absurd spent notSpent⟩,
    .inr ⟨notSpent, .inr ?_⟩⟩
  exact moves_write here spec.touches spec.back rfl

/-- **A step of a segment in its loop** carries bytes on, whatever the stream is doing. -/
theorem segmentRun_carries (here : p.loops[i]? = some loop) (sound : loop.Sound)
    (within : i ≤ p.buffers.length)
    (step : p.segmentRun (queueChain buflen) i loop choice = some p') : Carries p p' i loop := by
  have still : p.loops = p.loops.set i loop := by
    obtain ⟨below, found⟩ := List.getElem?_eq_some_iff.mp here
    rw [← found, List.set_getElem_self]
  have quiet : ∀ {pc : LoopPc} {doComplete : Bool}, loop.pc ≠ .write → pc ≠ .read →
      SegmentLoop.Sound { loop with pc := pc, doComplete := doComplete } := fun idle other =>
    ⟨fun holds => absurd (sound.holds holds) idle, fun reads => absurd reads other⟩
  unfold Pipeline.segmentRun at step
  cases pc : loop.pc with
  | start =>
      rw [pc] at step
      refine carries_control here step rfl (quiet (by simp [pc]) (by simp)) fun spent => ?_
      simp [SegmentLoop.Spent, pc] at spent
  | top =>
      simp only [pc] at step
      split at step
      · cases step
        exact ⟨rfl, ⟨loop, still, sound, id⟩, .inl rfl⟩
      · split at step
        · cases step
          exact carries_quiet here rfl rfl rfl rfl (quiet (by simp [pc]) (by simp))
            fun spent => ⟨spent.1, trivial⟩
        · next incomplete =>
            have notSpent : ¬loop.Spent := by
              simp [SegmentLoop.Spent, pc, incomplete]
            split at step
            · cases step
              refine carries_quiet here rfl rfl rfl rfl ⟨fun holds => ?_, fun _ => ?_⟩
                fun spent => absurd spent notSpent
              · cases pc.symm.trans (sound.holds holds)
              · simpa using incomplete
            · exact carries_control here step rfl (quiet (by simp [pc]) (by simp))
                fun spent => absurd spent notSpent
  | read =>
      rw [pc] at step
      obtain ⟨⟨p₁, status, out⟩, read, rfl⟩ := Option.map_eq_some_iff.mp step
      exact carries_read here sound pc (Pipeline.readInput_spec read)
  | write =>
      simp only [pc] at step
      cases chunk : loop.chunk with
      | nil =>
          rw [chunk] at step
          cases step
          refine carries_quiet here rfl rfl rfl chunk.symm ⟨by simp, by simp⟩ fun spent => ?_
          have complete : loop.doComplete = true := by
            simpa [SegmentLoop.Spent, pc, chunk] using spent
          exact ⟨rfl, complete⟩
      | cons x rest =>
          rw [chunk] at step
          obtain ⟨⟨p₁, status, count⟩, write, rfl⟩ := Option.map_eq_some_iff.mp step
          refine carries_write here pc (by simp [chunk]) ?_
          rw [chunk]
          exact Pipeline.writeOutput_spec within write
  | fail =>
      rw [pc] at step
      exact carries_control here step rfl (quiet (by simp [pc]) (by simp)) fun spent =>
        ⟨spent.1, trivial⟩
  | complete =>
      rw [pc] at step
      exact carries_control here step rfl (quiet (by simp [pc]) (by simp)) fun spent =>
        ⟨spent.1, trivial⟩
  | stopIn =>
      simp only [pc] at step
      cases i with
      | zero =>
          cases step
          exact carries_quiet here rfl rfl rfl rfl (quiet (by simp [pc]) (by simp)) fun spent =>
            ⟨spent.1, trivial⟩
      | succ i =>
          obtain ⟨p₁, stop, rfl⟩ := Option.map_eq_some_iff.mp step
          obtain ⟨touches, cell⟩ := Pipeline.stopMachine_spec stop
          exact carries_quiet here touches.loops touches.places cell rfl
            (quiet (by simp [pc]) (by simp)) fun spent => ⟨spent.1, trivial⟩
  | stopOut =>
      rw [pc] at step
      obtain ⟨p₁, stop, rfl⟩ := Option.map_eq_some_iff.mp step
      obtain ⟨touches, cell⟩ := Pipeline.stopMachine_spec stop
      exact carries_quiet here touches.loops touches.places cell rfl
        (quiet (by simp [pc]) (by simp)) fun spent => ⟨spent.1, trivial⟩
  | clear =>
      rw [pc] at step
      exact carries_control here step rfl (quiet (by simp [pc]) (by simp)) fun spent =>
        ⟨spent.1, trivial⟩
  | leave =>
      rw [pc] at step
      obtain ⟨stream, -, rfl⟩ := Option.map_eq_some_iff.mp step
      exact ⟨rfl, ⟨loop, still, sound, id⟩, .inl rfl⟩

end Carrying

/-! ## The sink holds a prefix -/

/-- What holds in every state of a disturbed chain: from some cell on, what is under way is a prefix
of the source; and when that is not the source itself, the segment before the cell is spent. -/
structure Intact (bytes : List UInt8) (p : Pipeline ByteQueue) : Prop where
  places : p.buffers.length + 1 = p.loops.length
  sound : ∀ (i : Nat) (loop : SegmentLoop), p.loops[i]? = some loop → loop.Sound
  cut : ∃ k n, k + n = 2 * p.loops.length ∧ flow (fun j => p.cell (k + j)) n <+: bytes ∧
    (k = 0 ∨ ∃ i loop, k = 2 * (i + 1) ∧ p.loops[i]? = some loop ∧ loop.Spent)

section Disturbed

variable {buflen : Nat → Nat} {bytes : List UInt8} {p p' : Pipeline ByteQueue} {i : Nat}
  {loop : SegmentLoop}

theorem intact_start {queues : Nat} (p : Pipeline ByteQueue)
    (start : (disturbedSystem (queueChain buflen) bytes (List.replicate queues {})).start p) :
    Intact bytes p := by
  obtain ⟨stops, rfl⟩ := start
  refine ⟨by simp, fun i loop here => ?_, 0, _, Nat.zero_add _, ?_, .inl rfl⟩
  · obtain rfl : loop = {} := by grind
    exact ⟨by simp, by simp⟩
  · simp only [Nat.zero_add]
    rw [flow_eq_first]
    · exact List.prefix_rfl
    · intro k positive _
      rcases Pipeline.cell_kind k with rfl | ⟨j, rfl⟩ | ⟨j, rfl⟩
      · omega
      · rw [Pipeline.cell_chunk, Pipeline.chunkAt]
        grind
      · rw [Pipeline.cell_store, Pipeline.storeAt]
        grind

/-- The loops after a segment went on. -/
theorem set_loops {loops : List SegmentLoop} {new : SegmentLoop} {j : Nat} {other : SegmentLoop}
    (found : (loops.set i new)[j]? = some other) :
    j = i ∧ other = new ∨ loops[j]? = some other := by
  by_cases same : j = i
  · subst same
    have within : j < loops.length := by
      have within := (List.getElem?_eq_some_iff.mp found).1
      rwa [List.length_set] at within
    rw [List.getElem?_set_self within] at found
    exact .inl ⟨rfl, (Option.some.inj found).symm⟩
  · rw [List.getElem?_set_ne (Ne.symm same)] at found
    exact .inr found

/-- Bytes are carried on. -/
theorem Intact.carries (inv : Intact bytes p) (here : p.loops[i]? = some loop)
    (carries : Carries p p' i loop) : Intact bytes p' := by
  have within := (List.getElem?_eq_some_iff.mp here).1
  obtain ⟨new, loops, sound, spent⟩ := carries.loops
  have length : p'.loops.length = p.loops.length := by rw [loops, List.length_set]
  obtain ⟨k, n, sum, inside, at_k⟩ := inv.cut
  refine ⟨by rw [carries.places, length, inv.places], fun j other found => ?_, k, n,
    by rw [length, sum], ?_, ?_⟩
  · rw [loops] at found
    rcases set_loops found with ⟨-, rfl⟩ | old
    · exact sound
    · exact inv.sound j other old
  · rcases carries.cells with same | ⟨notSpent, moves⟩
    · rwa [same]
    · have apart : ∀ j, j = 2 * i ∨ j = 2 * i + 1 → j + 1 ≠ k := by
        rintro j near rfl
        rcases at_k with zero | ⟨c, cutter, place, found, cut⟩
        · omega
        · obtain rfl : i = c := by omega
          obtain rfl : loop = cutter := Option.some.inj (here.symm.trans found)
          exact notSpent cut
      rcases moves with moves | moves
      · rwa [moves.beyond (apart _ (.inl rfl)) (by omega)]
      · rwa [moves.beyond (apart _ (.inr rfl)) (by omega)]
  · rcases at_k with zero | ⟨c, cutter, place, found, cut⟩
    · exact .inl zero
    · right
      by_cases same : c = i
      · subst same
        obtain rfl : loop = cutter := Option.some.inj (here.symm.trans found)
        exact ⟨c, new, place, by rw [loops, List.getElem?_set_self within], spent cut⟩
      · exact ⟨c, cutter, place, by rw [loops, List.getElem?_set_ne (Ne.symm same), found], cut⟩

/-- **A cut.** A segment gives up what it has: what stands behind it stays as it is. -/
theorem Intact.give_up (inv : Intact bytes p) (here : p.loops[i]? = some loop)
    (places : p'.buffers.length = p.buffers.length) {new : SegmentLoop}
    (loops : p'.loops = p.loops.set i new) (sound : new.Sound) (spent : new.Spent)
    (behind : ∀ k, 2 * (i + 1) ≤ k → p'.cell k = p.cell k) : Intact bytes p' := by
  have within := (List.getElem?_eq_some_iff.mp here).1
  have length : p'.loops.length = p.loops.length := by rw [loops, List.length_set]
  have mine : p'.loops[i]? = some new := by rw [loops, List.getElem?_set_self within]
  obtain ⟨k, n, sum, inside, at_k⟩ := inv.cut
  refine ⟨by rw [places, length, inv.places], fun j other found => ?_, ?_⟩
  · rw [loops] at found
    rcases set_loops found with ⟨-, rfl⟩ | old
    · exact sound
    · exact inv.sound j other old
  · by_cases before : k ≤ 2 * (i + 1)
    · -- The cut is at this segment now.
      obtain ⟨d, place⟩ : ∃ d, k + d = 2 * (i + 1) := ⟨2 * (i + 1) - k, by omega⟩
      obtain ⟨m, rest⟩ : ∃ m, d + m = n := ⟨n - d, by omega⟩
      refine ⟨2 * (i + 1), m, by omega, ?_, .inr ⟨i, new, rfl, mine, spent⟩⟩
      have later := beyond_prefix (fun j => p.cell (k + j)) d m
      rw [rest] at later
      have same : flow (fun j => p'.cell (2 * (i + 1) + j)) m =
          flow (fun j => p.cell (k + (d + j))) m := by
        refine flow_congr fun j _ => ?_
        rw [behind _ (Nat.le_add_right _ _), ← place, Nat.add_assoc]
      rw [same]
      exact later.trans inside
    · refine ⟨k, n, by rw [length, sum], ?_, ?_⟩
      · rwa [flow_congr fun j _ => behind (k + j) (by omega)]
      · rcases at_k with zero | ⟨c, cutter, place, found, cut⟩
        · exact .inl zero
        · have other : c ≠ i := by omega
          exact .inr ⟨c, cutter, place, by rw [loops, List.getElem?_set_ne (Ne.symm other), found],
            cut⟩

/-- A step of the threads of the stream. -/
theorem Intact.control (inv : Intact bytes p) {act : Act} (step : p.control act = some p') :
    Intact bytes p' := by
  obtain ⟨stream, -, rfl⟩ := Option.map_eq_some_iff.mp step
  exact ⟨inv.places, inv.sound, inv.cut⟩

/-- A step of the undisturbed chain. -/
theorem Intact.turn (inv : Intact bytes p) {queues : List ByteQueue} {act : PipelineAct}
    (step : (pipelineSystem (queueChain buflen) bytes queues).step p act = some p') :
    Intact bytes p' := by
  cases act with
  | main => exact inv.control step
  | segment i choice =>
      obtain ⟨thread, there, step⟩ := Option.bind_eq_some_iff.mp step
      cases pc : thread.pc with
      | active =>
          rw [pc] at step
          obtain ⟨loop, here, step⟩ := Option.bind_eq_some_iff.mp step
          have within : i ≤ p.buffers.length := by
            have places := inv.places
            have within := (List.getElem?_eq_some_iff.mp here).1
            omega
          exact inv.carries here (segmentRun_carries here (inv.sound i loop here) within step)
      | _ =>
          rw [pc] at step
          exact inv.control step

/-- The source fails. -/
theorem Intact.sourceFails (inv : Intact bytes p) {lost : Nat}
    (step : p.sourceFails lost = some p') : Intact bytes p' := by
  obtain ⟨thread, there, step⟩ := Option.bind_eq_some_iff.mp step
  obtain ⟨loop, here, step⟩ := Option.bind_eq_some_iff.mp step
  split at step
  · next reads =>
      cases step
      have nothing : loop.chunk = [] := by
        by_contra holds
        cases reads.2.symm.trans ((inv.sound 0 loop here).holds holds)
      have after : loop.afterRead .error [] = { loop with pc := .fail } := rfl
      refine inv.give_up here rfl rfl ?_ ?_ fun k behind => ?_
      · rw [after]
        exact ⟨fun holds => absurd nothing holds, by simp⟩
      · rw [after]
        exact ⟨nothing, trivial⟩
      · rw [Pipeline.cell_setLoop (by omega)]
        rcases Pipeline.cell_kind k with rfl | ⟨j, rfl⟩ | ⟨j, rfl⟩
        · omega
        · rw [Pipeline.cell_chunk, Pipeline.cell_chunk]
          exact Pipeline.chunkAt_congr rfl
        · rw [Pipeline.cell_store, Pipeline.cell_store]
          rfl
  · cases step

/-- The sink gets some bytes. -/
theorem touches_sink (p : Pipeline ByteQueue) (more : List UInt8) :
    p.Touches { p with sink := p.sink ++ more } (2 * (p.buffers.length + 1)) ∧
      ({ p with sink := p.sink ++ more } : Pipeline ByteQueue).cell (2 * (p.buffers.length + 1)) =
        p.cell (2 * (p.buffers.length + 1)) ++ more := by
  refine ⟨⟨rfl, rfl, rfl, fun k other => ?_, fun j dry => ?_⟩, ?_⟩
  · rcases Pipeline.cell_kind k with rfl | ⟨j, rfl⟩ | ⟨j, rfl⟩
    · rfl
    · rw [Pipeline.cell_chunk, Pipeline.cell_chunk]
      exact Pipeline.chunkAt_congr rfl
    · have notLast : j ≠ p.buffers.length := by omega
      rw [Pipeline.cell_store, Pipeline.cell_store, Pipeline.storeAt, Pipeline.storeAt]
      simp only [if_neg notLast]
  · cases j with
    | zero => exact dry
    | succ j => exact dry
  · have last : p.buffers[p.buffers.length]? = none := List.getElem?_eq_none (Nat.le_refl _)
    rw [Pipeline.cell_store, Pipeline.cell_store, Pipeline.storeAt, Pipeline.storeAt]
    simp only [last, if_true]

/-- The sink completes or fails: it takes some bytes of the chunk, and the rest is given up. -/
theorem Intact.sinkEnds (inv : Intact bytes p) {size : Nat} {status : IoStatus}
    (step : p.sinkEnds size status = some p') : Intact bytes p' := by
  obtain ⟨thread, there, step⟩ := Option.bind_eq_some_iff.mp step
  obtain ⟨loop, here, step⟩ := Option.bind_eq_some_iff.mp step
  split at step
  · next writes =>
      obtain ⟨-, pc, holds, ends⟩ := writes
      cases step
      let last := p.buffers.length
      let rest : SegmentLoop := { loop with chunk := loop.chunk.drop size }
      let p₁ : Pipeline ByteQueue := { p with sink := p.sink ++ loop.chunk.take size }
      obtain ⟨touches, back⟩ := touches_sink p (loop.chunk.take size)
      have notSpent : ¬loop.Spent := fun spent => holds spent.1
      have moved : Intact bytes (p₁.setLoop last rest) := inv.carries here
        { places := rfl
          loops := ⟨rest, rfl, ⟨fun _ => pc, fun reads => by cases pc.symm.trans reads⟩,
            fun spent => absurd spent notSpent⟩
          cells := .inr ⟨notSpent, .inr (moves_write here touches back rfl)⟩ }
      have within := (List.getElem?_eq_some_iff.mp here).1
      have mine : (p₁.setLoop last rest).loops[last]? = some rest := List.getElem?_set_self within
      have set : (p₁.setLoop last (loop.afterWrite status 0)).loops =
          (p₁.setLoop last rest).loops.set last (loop.afterWrite status 0) :=
        (List.set_set ..).symm
      refine moved.give_up mine rfl set ?_ ?_ fun k behind => ?_
      · unfold SegmentLoop.afterWrite
        split
        · exact ⟨by simp, by simp⟩
        · exact ⟨by simp, by simp⟩
        · next goesOn => exact absurd goesOn ends
      · unfold SegmentLoop.afterWrite
        split
        · exact ⟨rfl, rfl⟩
        · exact ⟨rfl, trivial⟩
        · next goesOn => exact absurd goesOn ends
      · rw [Pipeline.cell_setLoop (by omega), Pipeline.cell_setLoop (by omega)]
  · cases step

/-- **One step** of the disturbed chain. -/
theorem Intact.step (inv : Intact bytes p) {queues : List ByteQueue} {act : DisturbedAct}
    (step : (disturbedSystem (queueChain buflen) bytes queues).step p act = some p') :
    Intact bytes p' := by
  cases act with
  | turn act =>
      have step : (pipelineSystem (queueChain buflen) bytes queues).step p act = some p' := step
      exact inv.turn step
  | sourceFails lost => exact inv.sourceFails step
  | sinkEnds size status => exact inv.sinkEnds step
  | stop k => exact inv.control step

/-- The sink is beyond every cut. -/
theorem Intact.sink_prefix (inv : Intact bytes p) : p.sink <+: bytes := by
  obtain ⟨k, n, sum, inside, -⟩ := inv.cut
  have last : p.cell (2 * p.loops.length) = p.sink := by
    have here : p.buffers[p.buffers.length]? = none := List.getElem?_eq_none (Nat.le_refl _)
    rw [← inv.places, Pipeline.cell_store, Pipeline.storeAt, here]
    exact if_pos rfl
  rw [← last, ← sum]
  exact (prefix_flow (fun j => p.cell (k + j)) n).trans inside

end Disturbed

/-! ## The chain of the source -/

section Rings

variable {hosts : Nat → Host} {buflen : Nat → Nat} {bytes : List UInt8} {aligns : List Nat}
  {p p' : Pipeline Ring} {q : Pipeline ByteQueue}

/-- Disturbances strike both chains alike. -/
theorem Alike.sourceFails_beside (alike : Alike p q) (lost : Nat) :
    Option.Rel Alike (p.sourceFails lost) (q.sourceFails lost) := by
  simp only [Pipeline.sourceFails, alike.stream, alike.loops]
  cases q.stream.segments[0]? with
  | none => exact .none
  | some thread =>
      cases q.loops[0]? with
      | none => exact .none
      | some loop =>
          simp only [Option.bind_some]
          by_cases reads : thread.pc = .active ∧ loop.pc = .read
          · rw [if_pos reads, if_pos reads]
            refine .some (Alike.setLoop ?_ 0 _)
            exact ⟨rfl, rfl, congrArg _ alike.source, alike.sink, alike.places, alike.simulated⟩
          · rw [if_neg reads, if_neg reads]
            exact .none

theorem Alike.sinkEnds_beside (alike : Alike p q) (size : Nat) (status : IoStatus) :
    Option.Rel Alike (p.sinkEnds size status) (q.sinkEnds size status) := by
  simp only [Pipeline.sinkEnds, alike.stream, alike.loops, alike.places]
  cases q.stream.segments[q.buffers.length]? with
  | none => exact .none
  | some thread =>
      cases q.loops[q.buffers.length]? with
      | none => exact .none
      | some loop =>
          simp only [Option.bind_some]
          by_cases writes : thread.pc = .active ∧ loop.pc = .write ∧ loop.chunk ≠ [] ∧
              writePass status ≠ .goOn
          · rw [if_pos writes, if_pos writes]
            refine .some (Alike.setLoop ?_ _ _)
            exact ⟨rfl, rfl, alike.source, congrArg (· ++ _) alike.sink, alike.places,
              alike.simulated⟩
          · rw [if_neg writes, if_neg writes]
            exact .none

theorem Alike.disturbed_beside (fits : ∀ i, (hosts i).Fits) (positive : ∀ i, 0 < buflen i)
    (alike : Alike p q) {rings : List Ring} {queues : List ByteQueue} (act : DisturbedAct) :
    Option.Rel Alike ((disturbedSystem (ringChain hosts buflen) bytes rings).step p act)
      ((disturbedSystem (queueChain buflen) bytes queues).step q act) := by
  cases act with
  | turn act =>
      have beside : Option.Rel Alike
          ((pipelineSystem (ringChain hosts buflen) bytes rings).step p act)
          ((pipelineSystem (queueChain buflen) bytes queues).step q act) :=
        alike.step_beside fits positive act
      exact beside
  | sourceFails lost => exact alike.sourceFails_beside lost
  | sinkEnds size status => exact alike.sinkEnds_beside size status
  | stop k => exact alike.control_beside _

/-- New rings stand like new queues. -/
theorem alike_start (aligned : ∀ align ∈ aligns, 0 < align)
    (start : (disturbedSystem (ringChain hosts buflen) bytes (newRings aligns)).start p) :
    ∃ q, (disturbedSystem (queueChain buflen) bytes (List.replicate aligns.length {})).start q ∧
      Alike p q := by
  obtain ⟨stops, rfl⟩ := start
  refine ⟨_, ⟨stops, rfl⟩, ?_, ?_, rfl, rfl, ?_, fun i r b here there => ?_⟩
  · simp [newRings]
  · simp [newRings]
  · simp [newRings]
  · have placed : r ∈ aligns.map fun align => { createBuffer with blockAlign := align } :=
      List.mem_of_getElem? here
    obtain ⟨align, member, rfl⟩ := List.mem_map.mp placed
    have empty : b ∈ List.replicate aligns.length ({} : ByteQueue) := List.mem_of_getElem? there
    obtain rfl : b = {} := List.eq_of_mem_replicate empty
    exact simulates_start (aligned align member)

/-- **The rule for a disturbed chain of rings.** What holds of a new chain of queues, and is kept by
its permitted steps, holds of a chain of queues that stands like the chain of rings. -/
theorem disturbed_invariant (ok : DisturbedAct → Prop) {I : Pipeline ByteQueue → Prop}
    (fits : ∀ i, (hosts i).Fits) (aligned : ∀ align ∈ aligns, 0 < align)
    (positive : ∀ i, 0 < buflen i)
    (initial : ∀ q, (disturbedSystem (queueChain buflen) bytes
      (List.replicate aligns.length {})).start q → I q)
    (preserved : ∀ q act q', I q → ok act → (disturbedSystem (queueChain buflen) bytes
      (List.replicate aligns.length {})).step q act = some q' → I q')
    (reached : (disturbedSystem (ringChain hosts buflen) bytes (newRings aligns)).ReachUnder
      (fun _ => ok) p) : ∃ q, Alike p q ∧ I q := by
  refine reached.invariant (I := fun p => ∃ q, Alike p q ∧ I q) (fun p start => ?_)
    fun p act p' before permitted step => ?_
  · obtain ⟨q, first, alike⟩ := alike_start aligned start
    exact ⟨q, alike, initial q first⟩
  · obtain ⟨q, alike, inv⟩ := before
    have beside : Option.Rel Alike
        ((disturbedSystem (ringChain hosts buflen) bytes (newRings aligns)).step p act)
        ((disturbedSystem (queueChain buflen) bytes
          (List.replicate aligns.length {})).step q act) :=
      alike.disturbed_beside fits positive act
    rw [step] at beside
    cases moved : (disturbedSystem (queueChain buflen) bytes
        (List.replicate aligns.length {})).step q act with
    | none =>
        rw [moved] at beside
        cases beside
    | some q' =>
        rw [moved] at beside
        cases beside with
        | some alike' => exact ⟨q', alike', preserved q act q' inv permitted moved⟩

end Rings

/-- **A broken stream keeps a prefix.** In a chain of segments with new ring buffers between them,
whose allocations succeed, whatever reads of the source and writes to the sink fail, however early
the sink completes, whoever stops the stream and in whatever order the threads move: the sink holds
a prefix of the bytes of the source. -/
theorem breakdown_keeps_prefix (hosts : Nat → Host) (fits : ∀ i, (hosts i).Fits) (aligns : List Nat)
    (aligned : ∀ align ∈ aligns, 0 < align) (buflen : Nat → Nat) (positive : ∀ i, 0 < buflen i)
    (bytes : List UInt8) (p : Pipeline Ring)
    (reached : (disturbedSystem (ringChain hosts buflen) bytes (newRings aligns)).Reach p) :
    p.sink <+: bytes := by
  obtain ⟨q, alike, inv⟩ := disturbed_invariant (fun _ => True) fits aligned positive
    intact_start (fun q act q' inv _ step => Intact.step inv step) reached
  rw [alike.sink]
  exact inv.sink_prefix

/-- A chain of two segments: one byte comes to the sink, the source fails, and somebody stops the
stream. -/
theorem breakdown_keeps_prefix_stopped :
    ∃ p, (disturbedSystem (ringChain (fun _ => roomyHost) fun _ => 4) [7, 8]
        (newRings [1])).Reach p ∧
      p.stream.state = .done ∧ p.sink = [7] ∧ p.sink <+: [7, 8] := by
  let chain := disturbedSystem (ringChain (fun _ => roomyHost) fun _ => 4) [7, 8] (newRings [1])
  let start : Pipeline Ring :=
    { stream := { segments := [{}, {}], stops := [.read] }
      loops := [{}, {}]
      source := [7, 8]
      buffers := newRings [1] }
  let one : Choice := { size := 1 }
  let turns : List PipelineAct := List.replicate 5 .main ++ List.replicate 6 (.segment 0 one) ++
    List.replicate 5 (.segment 1 one)
  let acts : List DisturbedAct := turns.map .turn ++ [.sourceFails 1, .stop 0, .stop 0]
  have ends : (chain.exec start acts).map (fun p => (p.stream.state, p.sink)) =
      some (.done, [7]) := by
    decide +kernel
  obtain ⟨p, run, last⟩ := Option.map_eq_some_iff.mp ends
  have reached : chain.Reach p := .exec (.start ⟨1, rfl⟩) run
  obtain ⟨state, sink⟩ := Prod.mk.inj last
  exact ⟨p, reached, state, sink, breakdown_keeps_prefix (fun _ => roomyHost)
    (fun _ => roomyHost_fits) [1] (by simp) (fun _ => 4) (by simp) [7, 8] p reached⟩

/-! ## A loss is reported -/

/-- The disturbances of a stream that nobody stops and whose sink never completes: calls fail. -/
def FailsOnly : DisturbedAct → Prop
  | .sinkEnds _ status => status.isError = true
  | .stop _ => False
  | _ => True

instance (act : DisturbedAct) : Decidable (FailsOnly act) := by
  cases act <;> unfold FailsOnly <;> infer_instance

/-- A segment has met an error and is still to call `callback_error`. -/
def Failing (p : Pipeline ByteQueue) : Prop :=
  ∃ (i : Nat) (thread : SegmentThread) (loop : SegmentLoop), p.stream.segments[i]? = some thread ∧
    p.loops[i]? = some loop ∧ loop.pc = .fail ∧ thread.pc ≠ .exited

/-- What holds in every state of a stream that nobody stops and whose sink never completes: all
bytes are still there, or a segment has called `callback_error`, or is about to. -/
def Accounted (bytes : List UInt8) (p : Pipeline ByteQueue) : Prop :=
  ∃ trace, StatusInv trace p.stream ∧ (Delivering bytes p ∨ Reported trace ∨ Failing p)

section Reports

variable {buflen : Nat → Nat} {bytes : List UInt8} {queues : List ByteQueue}
  {p p' : Pipeline ByteQueue} {i : Nat} {loop : SegmentLoop} {trace : List Act}

/-- What a step of a segment does to the threads: a segment that has met an error calls
`callback_error`, and one whose thread ends has left its loop. -/
theorem segmentRun_stream {choice : Choice} (within : i ≤ p.buffers.length)
    (step : p.segmentRun (queueChain buflen) i loop choice = some p') :
    p'.stream = p.stream ∧ loop.pc ≠ .fail ∨
      ∃ move, streamSystem.step p.stream (.segment i move) = some p'.stream ∧
        (loop.pc = .fail → move = .error) ∧ (move = .leave → loop.pc = .leave) := by
  have turn : ∀ {move : SegmentMove} {new : SegmentLoop},
      (p.control (.segment i move)).map (fun p => p.setLoop i new) = some p' →
      streamSystem.step p.stream (.segment i move) = some p'.stream := by
    intro move new step
    obtain ⟨p₁, control, rfl⟩ := Option.map_eq_some_iff.mp step
    obtain ⟨stream, moved, rfl⟩ := Option.map_eq_some_iff.mp control
    exact moved
  unfold Pipeline.segmentRun at step
  cases pc : loop.pc with
  | start =>
      rw [pc] at step
      exact .inr ⟨_, turn step, by simp, by simp⟩
  | top =>
      simp only [pc] at step
      split at step
      · cases step
        exact .inl ⟨rfl, by simp⟩
      · split at step
        · cases step
          exact .inl ⟨rfl, by simp⟩
        · split at step
          · cases step
            exact .inl ⟨rfl, by simp⟩
          · exact .inr ⟨_, turn step, by simp, by simp⟩
  | read =>
      rw [pc] at step
      obtain ⟨⟨p₁, status, out⟩, read, rfl⟩ := Option.map_eq_some_iff.mp step
      exact .inl ⟨(Pipeline.readInput_spec read).touches.stream, by simp⟩
  | write =>
      simp only [pc] at step
      cases chunk : loop.chunk with
      | nil =>
          rw [chunk] at step
          cases step
          exact .inl ⟨rfl, by simp⟩
      | cons x rest =>
          rw [chunk] at step
          obtain ⟨⟨p₁, status, count⟩, write, rfl⟩ := Option.map_eq_some_iff.mp step
          exact .inl ⟨(Pipeline.writeOutput_spec within write).touches.stream, by simp⟩
  | fail =>
      rw [pc] at step
      exact .inr ⟨_, turn step, fun _ => rfl, by simp⟩
  | complete =>
      rw [pc] at step
      exact .inr ⟨_, turn step, by simp, by simp⟩
  | stopIn =>
      simp only [pc] at step
      cases i with
      | zero =>
          cases step
          exact .inl ⟨rfl, by simp⟩
      | succ i =>
          obtain ⟨p₁, stop, rfl⟩ := Option.map_eq_some_iff.mp step
          exact .inl ⟨(Pipeline.stopMachine_spec stop).1.stream, by simp⟩
  | stopOut =>
      rw [pc] at step
      obtain ⟨p₁, stop, rfl⟩ := Option.map_eq_some_iff.mp step
      exact .inl ⟨(Pipeline.stopMachine_spec stop).1.stream, by simp⟩
  | clear =>
      rw [pc] at step
      exact .inr ⟨_, turn step, by simp, by simp⟩
  | leave =>
      rw [pc] at step
      obtain ⟨stream, moved, rfl⟩ := Option.map_eq_some_iff.mp step
      exact .inr ⟨_, moved, by simp, fun _ => rfl⟩

/-- A step of the threads keeps a trace of what was called. -/
theorem statusInv_step {s t : IoStream} {act : Act} (inv : StatusInv trace s)
    (step : streamSystem.step s act = some t) : StatusInv (trace ++ [act]) t := by
  cases act with
  | main => exact statusInv_main inv step
  | segment i move =>
      obtain ⟨seg, thread, step⟩ := Option.bind_eq_some_iff.mp step
      exact statusInv_segment inv thread step
  | stop k =>
      obtain ⟨pc, caller, step⟩ := Option.bind_eq_some_iff.mp step
      exact statusInv_stop inv caller step

/-- A failing segment goes on failing while the others move. -/
theorem Failing.stays {thread : SegmentThread} (there : p.stream.segments[i]? = some thread)
    (here : p.loops[i]? = some loop) (pc : loop.pc = .fail) (present : thread.pc ≠ .exited)
    {act : Act} (step : streamSystem.step p.stream act = some p'.stream)
    (other : act ≠ .segment i .leave) (loops : p'.loops[i]? = p.loops[i]?) : Failing p' := by
  have within := (List.getElem?_eq_some_iff.mp there).1
  rw [← streamStep_length step] at within
  refine ⟨i, _, loop, List.getElem?_eq_getElem within, by rw [loops, here], pc, fun exited => ?_⟩
  rcases streamStep_exited step (List.getElem?_eq_getElem within) exited with before | leave
  · obtain rfl : thread = p'.stream.segments[i] := Option.some.inj (there.symm.trans before)
    exact present exited
  · exact other leave

/-- A step of the threads that is not a segment's own. -/
theorem Accounted.control (inv : Accounted bytes p) {act : Act} (step : p.control act = some p')
    (delivers : Delivering bytes p → Delivering bytes p')
    (other : ∀ i, act ≠ .segment i .leave) : Accounted bytes p' := by
  obtain ⟨trace, status, holds⟩ := inv
  obtain ⟨stream, moved, rfl⟩ := Option.map_eq_some_iff.mp step
  refine ⟨trace ++ [act], statusInv_step status moved, ?_⟩
  rcases holds with delivering | reported | ⟨i, thread, loop, there, here, pc, present⟩
  · exact .inl (delivers delivering)
  · exact .inr (.inl (reported.snoc act))
  · have failing : Failing { p with stream := stream } :=
      Failing.stays there here pc present moved (other i) rfl
    exact .inr (.inr failing)

/-- A step of the undisturbed chain. -/
theorem Accounted.turn (inv : Accounted bytes p) (places : p.buffers.length + 1 = p.loops.length)
    {act : PipelineAct}
    (step : (pipelineSystem (queueChain buflen) bytes queues).step p act = some p') :
    Accounted bytes p' := by
  have delivers : Delivering bytes p → Delivering bytes p' := fun delivering =>
    delivering.step step
  cases act with
  | main => exact inv.control step delivers (by simp)
  | segment j choice =>
      obtain ⟨thread, there, step⟩ := Option.bind_eq_some_iff.mp step
      cases active : thread.pc with
      | active =>
          rw [active] at step
          obtain ⟨loop, here, step⟩ := Option.bind_eq_some_iff.mp step
          have within : j ≤ p.buffers.length := by
            have within := (List.getElem?_eq_some_iff.mp here).1
            omega
          obtain ⟨trace, status, holds⟩ := inv
          rcases segmentRun_stream within step with ⟨same, goesOn⟩ | ⟨move, moved, fails, leaves⟩
          · refine ⟨trace, same ▸ status, holds.imp delivers (Or.imp_right ?_)⟩
            rintro ⟨i, other, failing, found, at_i, pc, present⟩
            have elsewhere : i ≠ j := by
              rintro rfl
              obtain rfl : loop = failing := Option.some.inj (here.symm.trans at_i)
              exact goesOn pc
            exact ⟨i, other, failing, by rw [same, found],
              by rw [Pipeline.segmentRun_elsewhere elsewhere step, at_i], pc, present⟩
          · refine ⟨trace ++ [.segment j move], statusInv_step status moved, ?_⟩
            rcases holds with delivering | reported | ⟨i, other, failing, found, at_i, pc, present⟩
            · exact .inl (delivers delivering)
            · exact .inr (.inl (reported.snoc _))
            · by_cases same : i = j
              · subst same
                obtain rfl : loop = failing := Option.some.inj (here.symm.trans at_i)
                rw [fails pc]
                exact .inr (.inl ⟨i, List.mem_append_right _ (List.mem_singleton_self _)⟩)
              · refine .inr (.inr (Failing.stays found at_i pc present moved ?_
                  (Pipeline.segmentRun_elsewhere same step)))
                simp [Ne.symm same]
      | _ =>
          rw [active] at step
          exact inv.control step delivers (by simp)

/-- The source fails: the first segment is to call `callback_error`. -/
theorem Accounted.sourceFails (inv : Accounted bytes p) {lost : Nat}
    (step : p.sourceFails lost = some p') : Accounted bytes p' := by
  obtain ⟨trace, status, -⟩ := inv
  obtain ⟨thread, there, step⟩ := Option.bind_eq_some_iff.mp step
  obtain ⟨loop, here, step⟩ := Option.bind_eq_some_iff.mp step
  split at step
  · next reads =>
      cases step
      refine ⟨trace, status, .inr (.inr ⟨0, thread, loop.afterRead .error [], there,
        List.getElem?_set_self (List.getElem?_eq_some_iff.mp here).1, rfl, ?_⟩)⟩
      simp [reads.1]
  · cases step

/-- The sink fails: the last segment is to call it. -/
theorem Accounted.sinkFails (inv : Accounted bytes p) {size : Nat} {status : IoStatus}
    (fails : status.isError = true) (step : p.sinkEnds size status = some p') :
    Accounted bytes p' := by
  obtain rfl : status = .error := by cases status <;> simp_all [IoStatus.isError]
  obtain ⟨trace, inv, -⟩ := inv
  obtain ⟨thread, there, step⟩ := Option.bind_eq_some_iff.mp step
  obtain ⟨loop, here, step⟩ := Option.bind_eq_some_iff.mp step
  split at step
  · next writes =>
      cases step
      refine ⟨trace, inv, .inr (.inr ⟨p.buffers.length, thread, loop.afterWrite .error 0, there,
        List.getElem?_set_self (List.getElem?_eq_some_iff.mp here).1, rfl, ?_⟩)⟩
      simp [writes.1]
  · cases step

/-- **One step** of a stream that nobody stops and whose sink never completes. -/
theorem Accounted.step (inv : Accounted bytes p) (places : p.buffers.length + 1 = p.loops.length)
    {act : DisturbedAct} (permitted : FailsOnly act)
    (step : (disturbedSystem (queueChain buflen) bytes queues).step p act = some p') :
    Accounted bytes p' := by
  cases act with
  | turn act =>
      have step : (pipelineSystem (queueChain buflen) bytes queues).step p act = some p' := step
      exact inv.turn places step
  | sourceFails lost => exact inv.sourceFails step
  | sinkEnds size status => exact inv.sinkFails permitted step
  | stop k => exact permitted.elim

theorem accounted_start {queues : Nat} (p : Pipeline ByteQueue)
    (start : (disturbedSystem (queueChain buflen) bytes (List.replicate queues {})).start p) :
    Accounted bytes p := by
  obtain ⟨stops, rfl⟩ := start
  refine ⟨[], statusInv_start _ ⟨_, stops, rfl⟩, .inl ?_⟩
  -- The stop requests are the only thing that is not there in an undisturbed stream.
  let calmStart : Pipeline ByteQueue :=
    { stream := { segments := List.replicate (queues + 1) {}, stops := [] }
      loops := List.replicate (queues + 1) {}
      source := bytes
      buffers := List.replicate queues {} }
  have first : (pipelineSystem (queueChain buflen) bytes (List.replicate queues {})).start
      calmStart := by
    simp [pipelineSystem, calmStart]
  have calm := delivering_start calmStart first
  rw [List.length_replicate]
  refine ⟨.start ⟨_, stops, rfl⟩, calm.threads, calm.places, fun i loop here => ?_, calm.left,
    calm.whole⟩
  have ok := calm.loop i loop here
  exact ⟨ok.begun, ok.noFail, ok.holds, ok.dry⟩

/-- When the stream's own thread has joined all segments, they have left. -/
theorem Accounted.sink_eq (inv : Accounted bytes p)
    (ended : p.stream.main = .setStopped ∨ p.stream.main = .exited) :
    p.sink = bytes ∨ p.stream.status ≠ .success := by
  obtain ⟨trace, status, holds⟩ := inv
  have exited : ∀ (i : Nat) (thread : SegmentThread), p.stream.segments[i]? = some thread →
      thread.pc = .exited := fun i thread there =>
    status.joined i thread there (by rcases ended with last | last <;> rw [last] <;> trivial)
  rcases holds with delivering | reported | ⟨i, thread, loop, there, -, -, present⟩
  · refine .inl (delivering.sink_eq fun loop member => ?_)
    obtain ⟨i, here⟩ := List.getElem?_of_mem member
    have within : i < p.stream.segments.length :=
      delivering.threads ▸ (List.getElem?_eq_some_iff.mp here).1
    have there := List.getElem?_eq_getElem within
    exact delivering.left i _ loop there here (exited i _ there)
  · refine .inr ((status.reported reported).resolve_right ?_)
    rintro ⟨thread, member, reporting⟩
    obtain ⟨i, there⟩ := List.getElem?_of_mem member
    rw [exited i thread there] at reporting
    cases reporting
  · exact absurd (exited i thread there) present

end Reports

/-- **No silent loss.** In a chain of segments with new ring buffers between them, whose allocations
succeed, which nobody stops and whose sink never completes: whatever reads of the source and writes
to the sink fail and in whatever order the threads move, when the stream is about to be set to
`STOPPED` and from then on the sink holds all bytes of the source, or the status of the stream is
not success. -/
theorem loss_is_reported (hosts : Nat → Host) (fits : ∀ i, (hosts i).Fits) (aligns : List Nat)
    (aligned : ∀ align ∈ aligns, 0 < align) (buflen : Nat → Nat) (positive : ∀ i, 0 < buflen i)
    (bytes : List UInt8) (p : Pipeline Ring)
    (reached : (disturbedSystem (ringChain hosts buflen) bytes (newRings aligns)).ReachUnder
      (fun _ => FailsOnly) p)
    (ended : p.stream.main = .setStopped ∨ p.stream.main = .exited) :
    p.sink = bytes ∨ p.stream.status ≠ .success := by
  obtain ⟨q, alike, inv, -⟩ := disturbed_invariant FailsOnly
    (I := fun q => Accounted bytes q ∧ Intact bytes q) fits aligned positive
    (fun q start => ⟨accounted_start q start, intact_start q start⟩)
    (fun q act q' inv permitted step =>
      ⟨inv.1.step inv.2.places permitted step, inv.2.step step⟩) reached
  rw [alike.sink, alike.stream]
  exact inv.sink_eq (alike.stream ▸ ended)

/-- A chain of two segments, whose sink fails after the first byte. -/
theorem loss_is_reported_sink :
    ∃ p, (disturbedSystem (ringChain (fun _ => roomyHost) fun _ => 4) [7, 8]
        (newRings [1])).ReachUnder (fun _ => FailsOnly) p ∧
      p.stream.main = .setStopped ∧ p.sink = [7] ∧
        (p.sink = [7, 8] ∨ p.stream.status ≠ .success) := by
  let chain := disturbedSystem (ringChain (fun _ => roomyHost) fun _ => 4) [7, 8] (newRings [1])
  let start : Pipeline Ring :=
    { stream := { segments := [{}, {}], stops := [] }
      loops := [{}, {}]
      source := [7, 8]
      buffers := newRings [1] }
  let all : Choice := { size := 2, complete := true }
  let before : List PipelineAct := List.replicate 5 .main ++ List.replicate 14 (.segment 0 all) ++
    List.replicate 3 (.segment 1 all)
  let after : List PipelineAct := List.replicate 8 (.segment 1 all) ++ List.replicate 8 .main
  let acts : List DisturbedAct := before.map .turn ++ .sinkEnds 1 .error :: after.map .turn
  have ends : (chain.execUnder (fun _ => FailsOnly) start acts).map
      (fun p => (p.stream.main, p.sink)) = some (.setStopped, [7]) := by
    decide +kernel
  obtain ⟨p, run, last⟩ := Option.map_eq_some_iff.mp ends
  have reached : chain.ReachUnder (fun _ => FailsOnly) p := .execUnder (.start ⟨0, rfl⟩) run
  obtain ⟨main, sink⟩ := Prod.mk.inj last
  exact ⟨p, reached, main, sink, loss_is_reported (fun _ => roomyHost) (fun _ => roomyHost_fits) [1]
    (by simp) (fun _ => 4) (by simp) [7, 8] p reached (.inl main)⟩

end Bingewatch.Stream
