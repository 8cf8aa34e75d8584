import Bingewatch.Stream.BranchDelivery
import Bingewatch.Stream.Tee

/-!
# The tees of a stream

A segment with two outputs is modelled twice: `Stream.Tee` is its loop alone, between machines that
answer as they like, and `Stream.Branches` sets it to work among the other segments. Here the two
meet. What a segment does in its loop is a step of a tee or none at all, so in every run of a stream
each of its segments with two outputs stands as a tee that was reached, and what is proved of the
tee holds of the segment.
-/

set_option autoImplicit false

namespace Bingewatch.Stream

open Foundation Machine Buffer

/-! ## Standing alike -/

/-- Where a tee stands that does what the segment does. -/
def BranchPc.tee : BranchPc → TeePc
  | .start => .top
  | .top => .top
  | .read => .read
  | .write => .write
  | .write1 => .write1
  | _ => .left

/-- A tee leaves `write_to_dest` with the last write, the segment with the test behind it. -/
def BranchLoop.settle (loop : BranchLoop) : BranchLoop :=
  if loop.rest = [] then
    match loop.pc with
    | .write => loop.afterFirst true
    | .write1 => { loop with pc := .top }
    | _ => loop
  else loop

/-- The tee has the variables of the segment. -/
structure BranchLoop.Resembles (loop : BranchLoop) (t : Tee) : Prop where
  pc : t.pc = loop.pc.tee
  doComplete : t.pc ≠ .left → t.doComplete = loop.doComplete
  writes : t.pc = .write ∨ t.pc = .write1 →
    t.chunk = loop.chunk ∧ t.rest = loop.rest ∧ t.wrBytes = loop.wrBytes

section Loops

variable {loop : BranchLoop} {t : Tee} {status : IoStatus} {count : Nat} {bytes : List UInt8}

/-- Only in `write_to_dest` is there anything to settle. -/
theorem settle_idle (first : loop.pc ≠ .write) (second : loop.pc ≠ .write1) :
    loop.settle = loop := by
  unfold BranchLoop.settle
  split <;> simp only

theorem settle_busy (holds : loop.rest ≠ []) : loop.settle = loop := if_neg holds

/-- After the first output the segment is at rest, or has the whole chunk before it. -/
theorem settle_afterFirst (carries : loop.chunk ≠ []) :
    (loop.afterFirst true).settle = loop.afterFirst true := by
  unfold BranchLoop.afterFirst
  split
  · exact settle_busy carries
  · exact settle_idle (by simp) (by simp)

/-- Past the loop a tee has nothing more to show. -/
theorem resembles_left (left : t.pc = .left) (past : loop.pc.tee = .left) : loop.Resembles t := by
  refine ⟨left.trans past.symm, fun within => absurd left within, fun writes => ?_⟩
  rcases writes with writes | writes <;> cases left.symm.trans writes

theorem BranchLoop.Resembles.afterFirst (alike : loop.Resembles t) (writing : loop.pc = .write) :
    (loop.afterFirst true).Resembles t.afterFirst := by
  have pc : t.pc = .write := by rw [alike.pc, writing]; rfl
  have flag := alike.doComplete (by simp [pc])
  obtain ⟨chunk, -, counted⟩ := alike.writes (Or.inl pc)
  unfold BranchLoop.afterFirst Tee.afterFirst
  by_cases none : loop.wrBytes = 0
  · rw [if_neg (by simp [none]), if_pos (counted.trans none)]
    exact ⟨rfl, fun _ => flag, by simp⟩
  · rw [if_pos ⟨none, rfl⟩, if_neg (fun zero => none (counted.symm.trans zero))]
    exact ⟨rfl, fun _ => flag, fun _ => ⟨chunk, chunk, rfl⟩⟩

theorem BranchLoop.Resembles.afterRead (alike : loop.Resembles t) (reading : loop.pc = .read) :
    (loop.afterRead status bytes).settle.Resembles (t.afterRead status bytes) := by
  have pc : t.pc = .read := by rw [alike.pc, reading]; rfl
  have flag := alike.doComplete (by simp [pc])
  unfold BranchLoop.afterRead Tee.afterRead
  split
  · rw [settle_idle (by simp) (by simp)]
    exact resembles_left rfl rfl
  · by_cases none : bytes = []
    · rw [if_pos none, if_pos none, settle_idle (by simp) (by simp)]
      exact ⟨rfl, fun _ => by rw [flag], by simp⟩
    · rw [if_neg none, if_neg none, settle_busy none]
      exact ⟨rfl, fun _ => by rw [flag], fun _ => ⟨rfl, rfl, rfl⟩⟩

/-- A pass for the first output. -/
theorem BranchLoop.Resembles.writeFirst (alike : loop.Resembles t) (writing : loop.pc = .write)
    (carries : loop.chunk ≠ []) :
    (loop.afterWrite true status count).settle.Resembles (t.writeFirst status count) := by
  have pc : t.pc = .write := by rw [alike.pc, writing]; rfl
  have flag := alike.doComplete (by simp [pc])
  obtain ⟨chunk, rest, counted⟩ := alike.writes (Or.inl pc)
  unfold BranchLoop.afterWrite Tee.writeFirst
  cases writePass status with
  | complete =>
      have carried : ({ loop with doComplete := true } : BranchLoop).chunk ≠ [] := carries
      simp only
      rw [settle_afterFirst carried]
      refine BranchLoop.Resembles.afterFirst ⟨?_, fun _ => rfl, fun _ => ⟨chunk, rest, counted⟩⟩
        writing
      rw [writing]
      exact pc
  | fail =>
      rw [settle_idle (by simp) (by simp)]
      exact resembles_left rfl rfl
  | goOn =>
      simp only
      have goes : BranchLoop.Resembles
          { loop with rest := loop.rest.drop count, wrBytes := loop.wrBytes + count }
          { t with
            accepted := t.accepted ++ t.rest.take count
            rest := t.rest.drop count, wrBytes := t.wrBytes + count } :=
        ⟨alike.pc, fun _ => flag, fun _ => ⟨chunk, by rw [rest], by rw [counted]⟩⟩
      by_cases done : loop.rest.drop count = []
      · rw [BranchLoop.settle, if_pos done, if_pos (by rw [rest]; exact done)]
        simp only [writing]
        exact goes.afterFirst writing
      · rw [settle_busy done, if_neg (by rw [rest]; exact done)]
        exact goes

/-- A pass for the second output. -/
theorem BranchLoop.Resembles.writeSecond (alike : loop.Resembles t) (writing : loop.pc = .write1) :
    (loop.afterWrite1 status count).settle.Resembles (t.writeSecond status count) := by
  have pc : t.pc = .write1 := by rw [alike.pc, writing]; rfl
  have flag := alike.doComplete (by simp [pc])
  obtain ⟨chunk, rest, counted⟩ := alike.writes (Or.inr pc)
  unfold BranchLoop.afterWrite1 Tee.writeSecond
  cases writePass status with
  | complete =>
      rw [settle_idle (by simp) (by simp)]
      exact ⟨rfl, fun _ => rfl, by simp⟩
  | fail =>
      rw [settle_idle (by simp) (by simp)]
      exact resembles_left rfl rfl
  | goOn =>
      simp only
      by_cases done : loop.rest.drop count = []
      · rw [BranchLoop.settle, if_pos done, if_pos (by rw [rest]; exact done)]
        simp only [writing]
        exact ⟨rfl, fun _ => flag, by simp⟩
      · rw [settle_busy done, if_neg (by rw [rest]; exact done)]
        exact ⟨alike.pc, fun _ => flag, fun _ => ⟨chunk, by rw [rest], by rw [counted]⟩⟩

end Loops

/-! ## Running alike -/

/-- A tee follows: it takes a step or none. -/
def Tee.Follows (t t' : Tee) : Prop :=
  t' = t ∨ ∃ act, teeStep t act = some t'

section Runs

variable {hosts : Nat → Host} {plan : List Wires} {bytes : List UInt8} {p p' p₁ : Branches}
  {q : Nat → ByteQueue} {i : Nat} {wires : Wires} {loop new : BranchLoop} {t : Tee}

theorem setLoop_here (same : p₁.loops = p.loops) (here : p.loops[i]? = some loop) :
    (p₁.setLoop i new).loops[i]? = some new := by
  have within : i < p₁.loops.length := by
    rw [same]
    exact (List.getElem?_eq_some_iff.mp here).1
  exact List.getElem?_set_self within

theorem setLoop_elsewhere {j : Nat} (other : j ≠ i) :
    (p.setLoop i new).loops[j]? = p.loops[j]? := List.getElem?_set_ne (Ne.symm other)

theorem control_loops {act : Act} (step : p.control act = some p') : p'.loops = p.loops := by
  obtain ⟨stream, -, rfl⟩ := Option.map_eq_some_iff.mp step
  rfl

theorem callRing_loops {m : Nat} {request : Call} {answer : Answer}
    (call : p.callRing hosts m request = some (p', answer)) : p'.loops = p.loops := by
  obtain ⟨r, -, call⟩ := Option.bind_eq_some_iff.mp call
  obtain ⟨made, -, same⟩ := Option.map_eq_some_iff.mp call
  cases same
  rfl

theorem readInput_loops {choice : Choice} {status : IoStatus} {out : List UInt8}
    (read : p.readInput hosts wires choice = some (p', status, out)) : p'.loops = p.loops := by
  unfold Branches.readInput at read
  split at read
  · split at read
    · cases read
      rfl
    · cases read
  · obtain ⟨⟨p₁, answer⟩, call, read⟩ := Option.bind_eq_some_iff.mp read
    have same := callRing_loops call
    dsimp only at read
    split at read <;> cases read
    exact same

theorem writeOutput_loops {out : Outlet} {data : List UInt8} {choice : Choice}
    {status : IoStatus} {count : Nat}
    (write : p.writeOutput hosts out data choice = some (p', status, count)) :
    p'.loops = p.loops := by
  cases out with
  | ring m =>
      obtain ⟨⟨p₁, answer⟩, call, write⟩ := Option.bind_eq_some_iff.mp write
      have same := callRing_loops call
      dsimp only at write
      split at write <;> cases write
      exact same
  | sink k =>
      obtain ⟨taken, -, write⟩ := Option.bind_eq_some_iff.mp write
      split at write <;> cases write
      rfl

theorem stopRing_loops {m : Option Nat} (stop : p.stopRing hosts m = some p') :
    p'.loops = p.loops := by
  cases m with
  | none =>
      cases stop
      rfl
  | some m =>
      obtain ⟨⟨p₁, answer⟩, call, rfl⟩ := Option.map_eq_some_iff.mp stop
      exact callRing_loops call

/-- A step of a segment leaves the variables of the others alone. -/
theorem segmentRun_elsewhere {choice : Choice}
    (step : p.segmentRun hosts i wires loop choice = some p') {j : Nat} (other : j ≠ i) :
    p'.loops[j]? = p.loops[j]? := by
  have goes : ∀ {p₁ : Branches} (new : BranchLoop), p₁.loops = p.loops →
      (p₁.setLoop i new).loops[j]? = p.loops[j]? := fun new same => by
    rw [setLoop_elsewhere other, same]
  unfold Branches.segmentRun at step
  cases pc : loop.pc with
  | top =>
      simp only [pc] at step
      split_ifs at step with ready complete running
      · cases step
        rfl
      · cases step
        exact goes _ rfl
      · cases step
        exact goes _ rfl
      · obtain ⟨p₁, moved, rfl⟩ := Option.map_eq_some_iff.mp step
        exact goes _ (control_loops moved)
  | read =>
      rw [pc] at step
      obtain ⟨⟨p₁, status, out⟩, read, rfl⟩ := Option.map_eq_some_iff.mp step
      exact goes _ (readInput_loops read)
  | write =>
      simp only [pc] at step
      split at step
      · cases step
        exact goes _ rfl
      · obtain ⟨⟨p₁, status, count⟩, write, rfl⟩ := Option.map_eq_some_iff.mp step
        exact goes _ (writeOutput_loops write)
  | write1 =>
      simp only [pc] at step
      split at step
      · cases step
        exact goes _ rfl
      · obtain ⟨out, -, step⟩ := Option.bind_eq_some_iff.mp step
        obtain ⟨⟨p₁, status, count⟩, write, rfl⟩ := Option.map_eq_some_iff.mp step
        exact goes _ (writeOutput_loops write)
  | start =>
      rw [pc] at step
      obtain ⟨p₁, moved, rfl⟩ := Option.map_eq_some_iff.mp step
      exact goes _ (control_loops moved)
  | fail =>
      rw [pc] at step
      obtain ⟨p₁, moved, rfl⟩ := Option.map_eq_some_iff.mp step
      exact goes _ (control_loops moved)
  | complete =>
      rw [pc] at step
      obtain ⟨p₁, moved, rfl⟩ := Option.map_eq_some_iff.mp step
      exact goes _ (control_loops moved)
  | clear =>
      rw [pc] at step
      obtain ⟨p₁, moved, rfl⟩ := Option.map_eq_some_iff.mp step
      exact goes _ (control_loops moved)
  | leave =>
      rw [pc] at step
      rw [control_loops step]
  | _ =>
      rw [pc] at step
      obtain ⟨p₁, stop, rfl⟩ := Option.map_eq_some_iff.mp step
      exact goes _ (stopRing_loops stop)

/-- The look of a tee at the top of its loop. -/
theorem Tee.follows_look (top : t.pc = .top) (state : StreamState) : t.Follows (t.look state) :=
  Or.inr ⟨.look state, if_pos top⟩

/-- A segment past its loop stays there. -/
theorem goes_past (alike : loop.Resembles t) (past : loop.pc.tee = .left)
    (past' : new.pc.tee = .left) : new.settle.Resembles t := by
  have idle : new.settle = new :=
    settle_idle (fun pc => by simp [pc, BranchPc.tee] at past')
      fun pc => by simp [pc, BranchPc.tee] at past'
  rw [idle]
  exact resembles_left (alike.pc.trans past) past'

/-- A step of a segment with two outputs in its loop. -/
theorem Branching.segment_tee (inv : Branching plan bytes p q) (fits : ∀ i, (hosts i).Fits)
    (positive : 0 < wires.buflen) {choice : Choice} (wired : plan[i]? = some wires)
    (two : wires.out1.isSome = true) (here : p.loops[i]? = some loop)
    (step : p.segmentRun hosts i wires loop choice = some p') (alike : loop.settle.Resembles t) :
    ∃ new t', p'.loops[i]? = some new ∧ t.Follows t' ∧ new.settle.Resembles t' := by
  have old := inv.loop i wires loop wired here
  have idle : loop.pc ≠ .write → loop.pc ≠ .write1 → loop.Resembles t := fun first second =>
    settle_idle first second ▸ alike
  unfold Branches.segmentRun at step
  cases pc : loop.pc with
  | start =>
      rw [pc] at step
      obtain ⟨p₁, moved, rfl⟩ := Option.map_eq_some_iff.mp step
      have same := idle (by simp [pc]) (by simp [pc])
      refine ⟨_, t, setLoop_here (control_loops moved) here, Or.inl rfl, ?_⟩
      rw [settle_idle (by simp) (by simp)]
      have top : t.pc = .top := by rw [same.pc, pc]; rfl
      exact ⟨top, fun _ => same.doComplete (by simp [top]), by simp [top]⟩
  | top =>
      simp only [pc] at step
      have same := idle (by simp [pc]) (by simp [pc])
      have top : t.pc = .top := by rw [same.pc, pc]; rfl
      have flag := same.doComplete (by simp [top])
      split at step
      · cases step
        exact ⟨loop, t, here, Or.inl rfl, alike⟩
      · next notReady =>
          have looks := t.follows_look top p.stream.state
          rw [Tee.look, if_neg notReady, flag] at looks
          split at step
          · next complete =>
              cases step
              rw [if_pos complete] at looks
              refine ⟨_, _, setLoop_here rfl here, looks, ?_⟩
              rw [settle_idle (by simp) (by simp)]
              exact resembles_left rfl rfl
          · next incomplete =>
              rw [if_neg incomplete] at looks
              split at step
              · next running =>
                  cases step
                  rw [if_pos running] at looks
                  refine ⟨_, _, setLoop_here rfl here, looks, ?_⟩
                  rw [settle_idle (by simp) (by simp)]
                  exact ⟨rfl, fun _ => rfl, by simp⟩
              · next stopped =>
                  rw [if_neg stopped] at looks
                  obtain ⟨p₁, moved, rfl⟩ := Option.map_eq_some_iff.mp step
                  refine ⟨_, _, setLoop_here (control_loops moved) here, looks, ?_⟩
                  rw [settle_idle (by simp) (by simp)]
                  exact resembles_left rfl rfl
  | read =>
      rw [pc] at step
      obtain ⟨⟨p₁, status, out⟩, read, rfl⟩ := Option.map_eq_some_iff.mp step
      obtain ⟨q', spec⟩ := readInput_spec fits inv.simulated positive read
      have same := idle (by simp [pc]) (by simp [pc])
      have reading : t.pc = .read := by rw [same.pc, pc]; rfl
      exact ⟨_, _, setLoop_here spec.serves.loops here,
        Or.inr ⟨.read status out, if_pos reading⟩, same.afterRead pc⟩
  | write =>
      simp only [pc, two] at step
      have carries := (old.counted pc).1
      split at step
      · next done =>
          cases step
          refine ⟨_, t, setLoop_here rfl here, Or.inl rfl, ?_⟩
          rw [BranchLoop.settle, if_pos done] at alike
          simp only [pc] at alike
          rw [settle_afterFirst carries]
          exact alike
      · next holds =>
          rw [settle_busy holds] at alike
          have writing : t.pc = .write := by rw [alike.pc, pc]; rfl
          have rest := (alike.writes (Or.inl writing)).2.1
          obtain ⟨⟨p₁, status, count⟩, write, rfl⟩ := Option.map_eq_some_iff.mp step
          obtain ⟨q', spec⟩ := writeOutput_spec fits inv.simulated holds write
          refine ⟨_, _, setLoop_here spec.serves.loops here, Or.inr ⟨.write status count, ?_⟩,
            alike.writeFirst pc carries⟩
          rw [teeStep, if_pos (by rw [rest]; exact spec.within), writing]
  | write1 =>
      simp only [pc] at step
      split at step
      · next done =>
          cases step
          refine ⟨_, t, setLoop_here rfl here, Or.inl rfl, ?_⟩
          rw [BranchLoop.settle, if_pos done] at alike
          simp only [pc] at alike
          rw [settle_idle (by simp) (by simp)]
          exact alike
      · next holds =>
          rw [settle_busy holds] at alike
          have writing : t.pc = .write1 := by rw [alike.pc, pc]; rfl
          have rest := (alike.writes (Or.inr writing)).2.1
          obtain ⟨out, -, step⟩ := Option.bind_eq_some_iff.mp step
          obtain ⟨⟨p₁, status, count⟩, write, rfl⟩ := Option.map_eq_some_iff.mp step
          obtain ⟨q', spec⟩ := writeOutput_spec fits inv.simulated holds write
          refine ⟨_, _, setLoop_here spec.serves.loops here, Or.inr ⟨.write status count, ?_⟩,
            alike.writeSecond pc⟩
          rw [teeStep, if_pos (by rw [rest]; exact spec.within), writing]
  | fail => exact absurd pc old.noFail
  | complete =>
      rw [pc] at step
      obtain ⟨p₁, moved, rfl⟩ := Option.map_eq_some_iff.mp step
      exact ⟨_, t, setLoop_here (control_loops moved) here, Or.inl rfl,
        goes_past (idle (by simp [pc]) (by simp [pc])) (by rw [pc]; rfl) rfl⟩
  | clear =>
      rw [pc] at step
      obtain ⟨p₁, moved, rfl⟩ := Option.map_eq_some_iff.mp step
      exact ⟨_, t, setLoop_here (control_loops moved) here, Or.inl rfl,
        goes_past (idle (by simp [pc]) (by simp [pc])) (by rw [pc]; rfl) rfl⟩
  | leave =>
      rw [pc] at step
      have same := control_loops step
      exact ⟨loop, t, same ▸ here, Or.inl rfl, alike⟩
  | _ =>
      rw [pc] at step
      obtain ⟨p₁, stop, rfl⟩ := Option.map_eq_some_iff.mp step
      obtain ⟨q', serves, -⟩ := stopRing_spec fits inv.simulated stop
      exact ⟨_, t, setLoop_here serves.loops here, Or.inl rfl,
        goes_past (idle (by simp [pc]) (by simp [pc])) (by rw [pc]; rfl) rfl⟩

/-- Every segment with two outputs stands as a tee that was reached. -/
def Teeing (plan : List Wires) (p : Branches) : Prop :=
  ∀ (i : Nat) (wires : Wires) (loop : BranchLoop), plan[i]? = some wires →
    wires.out1.isSome = true → p.loops[i]? = some loop →
      ∃ t, teeSystem.Reach t ∧ loop.settle.Resembles t

theorem Tee.Follows.reach {t' : Tee} (follows : t.Follows t') (reached : teeSystem.Reach t) :
    teeSystem.Reach t' := by
  rcases follows with rfl | ⟨act, step⟩
  · exact reached
  · exact .step reached trivial step

theorem teeing_start {aligns : List Nat} {sinks : Nat}
    (start : (branchesSystem hosts plan bytes aligns sinks).start p) : Teeing plan p := by
  obtain rfl := start
  intro i wires loop _ _ here
  obtain rfl : loop = {} := List.eq_of_mem_replicate (List.mem_of_getElem? here)
  exact ⟨{}, .start rfl, rfl, fun _ => rfl, by simp⟩

theorem Teeing.step {aligns : List Nat} {sinks : Nat} {act : PipelineAct} (teeing : Teeing plan p)
    (inv : Branching plan bytes p q) (fits : ∀ i, (hosts i).Fits)
    (positive : ∀ wires ∈ plan, 0 < wires.buflen)
    (step : (branchesSystem hosts plan bytes aligns sinks).step p act = some p') :
    Teeing plan p' := by
  have stays : p'.loops = p.loops → Teeing plan p' := fun same i wires loop wired two here =>
    teeing i wires loop wired two (same ▸ here)
  cases act with
  | main => exact stays (control_loops step)
  | segment i choice =>
      obtain ⟨thread, there, step⟩ := Option.bind_eq_some_iff.mp step
      cases pc : thread.pc with
      | active =>
          rw [pc] at step
          obtain ⟨wires, wired, step⟩ := Option.bind_eq_some_iff.mp step
          obtain ⟨loop, here, step⟩ := Option.bind_eq_some_iff.mp step
          intro j other new place two found
          by_cases same : j = i
          · subst same
            obtain rfl : wires = other := Option.some.inj (wired.symm.trans place)
            obtain ⟨t, reached, alike⟩ := teeing j wires loop wired two here
            obtain ⟨new', t', now, follows, alike'⟩ := inv.segment_tee fits
              (positive wires (List.mem_of_getElem? wired)) wired two here step alike
            obtain rfl : new' = new := Option.some.inj (now.symm.trans found)
            exact ⟨t', follows.reach reached, alike'⟩
          · rw [segmentRun_elsewhere step same] at found
            exact teeing j other new place two found
      | _ =>
          rw [pc] at step
          exact stays (control_loops step)

end Runs

/-- **A segment with two outputs is a tee.** In every state of a stream with branches, each segment
with two outputs has the variables of a tee in a state that a run of `teeSystem` reaches. -/
theorem segments_tee (hosts : Nat → Host) (fits : ∀ i, (hosts i).Fits) (plan : List Wires)
    (sound : Wired plan) (positive : ∀ wires ∈ plan, 0 < wires.buflen) (aligns : List Nat)
    (aligned : ∀ align ∈ aligns, 0 < align) (sinks : Nat) (bytes : List UInt8) (p : Branches)
    (reached : (branchesSystem hosts plan bytes aligns sinks).Reach p) : Teeing plan p := by
  suffices both : (∃ q, Branching plan bytes p q) ∧ Teeing plan p from both.2
  refine reached.invariant (I := fun p => (∃ q, Branching plan bytes p q) ∧ Teeing plan p)
    (fun s start => ⟨⟨_, branching_start aligned s start⟩, teeing_start start⟩)
    fun s act t held _ step => ?_
  obtain ⟨⟨q, inv⟩, teeing⟩ := held
  exact ⟨inv.step sound fits positive step, teeing.step inv fits positive step⟩

end Bingewatch.Stream
