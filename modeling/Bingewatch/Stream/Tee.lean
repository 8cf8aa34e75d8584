import Mathlib.Data.List.Infix
import Bingewatch.Foundation.Transition
import Bingewatch.Stream.State
import Bingewatch.Stream.Segment

/-!
# A segment with two outputs

A tee (`segment_create_1_2`) hands every chunk first to one output and then to the other, by
`write_to_dest`. The count that the first `write_to_dest` reports leaves out what the destination
accepted in the call that reported completion, and `segment_run` goes on to the second output only
if that count is not zero.

The model takes one step for each call on a machine: the source and the outputs answer as they
like, with any status and any number of the bytes. `tee_outputs_agree` says that the outputs see the
same stream in every run in which the first output does not complete with the first bytes it accepts
of a chunk, and that each such completion breaks it.
-/

set_option autoImplicit false

namespace Bingewatch.Stream

open Foundation Machine

/-! ## The loop -/

/-- Where the thread of a tee stands in `segment_run`: at the top of the loop, before the read, in
`write_to_dest` for one of the outputs, or past the loop. -/
inductive TeePc where
  | top
  | read
  | write
  | write1
  | left
  deriving DecidableEq, Repr

/-- The variables of `segment_run` and of `write_to_dest` in it: the chunk (`buf` and `src_bytes`),
its part that is not yet written (`ptr` and `remaining`) and `wr_bytes`; and, over the whole run,
the bytes accepted by the first output and those offered to the second. -/
structure Tee where
  pc : TeePc := .top
  doComplete : Bool := false
  chunk : List UInt8 := []
  rest : List UInt8 := []
  wrBytes : Nat := 0
  accepted : List UInt8 := []
  offered : List UInt8 := []
  deriving DecidableEq, Repr

/-- What the thread meets: the state of the stream, the answer of the source, or the answer of the
output that is being written: a status and the number of bytes accepted. -/
inductive TeeAct where
  | look (state : StreamState)
  | read (status : IoStatus) (bytes : List UInt8)
  | write (status : IoStatus) (count : Nat)
  deriving DecidableEq, Repr

/-- The top of the loop. Completion stops the segment, which leaves the loop. -/
def Tee.look (s : Tee) (state : StreamState) : Tee :=
  if state = .ready then s
  else if s.doComplete then { s with doComplete := false, pc := .left }
  else if state.isRunning then { s with pc := .read }
  else { s with pc := .left }

/-- `read_from_source` and the test for no bytes. -/
def Tee.afterRead (s : Tee) (status : IoStatus) (bytes : List UInt8) : Tee :=
  if status.isError then { s with doComplete := false, pc := .left }
  else
    let s := { s with doComplete := s.doComplete || status == IoStatus.complete }
    if bytes = [] then { s with pc := .top }
    else { s with chunk := bytes, rest := bytes, wrBytes := 0, pc := .write }

/-- `segment_run` after `write_to_dest` has handed the chunk to the first output: nothing counted,
or the chunk goes to the second output. -/
def Tee.afterFirst (s : Tee) : Tee :=
  if s.wrBytes = 0 then { s with pc := .top }
  else { s with rest := s.chunk, wrBytes := 0, offered := s.offered ++ s.chunk, pc := .write1 }

/-- A pass of `write_to_dest` for the first output. -/
def Tee.writeFirst (s : Tee) (status : IoStatus) (count : Nat) : Tee :=
  let s := { s with accepted := s.accepted ++ s.rest.take count }
  match writePass status with
  | .complete => { s with doComplete := true }.afterFirst
  | .fail => { s with doComplete := false, wrBytes := 0, pc := .left }
  | .goOn =>
      let s := { s with rest := s.rest.drop count, wrBytes := s.wrBytes + count }
      if s.rest = [] then s.afterFirst else s

/-- A pass of `write_to_dest` for the second output. -/
def Tee.writeSecond (s : Tee) (status : IoStatus) (count : Nat) : Tee :=
  match writePass status with
  | .complete => { s with doComplete := true, pc := .top }
  | .fail => { s with doComplete := false, wrBytes := 0, pc := .left }
  | .goOn =>
      let s := { s with rest := s.rest.drop count, wrBytes := s.wrBytes + count }
      if s.rest = [] then { s with pc := .top } else s

/-- A step of the thread. An output accepts no more than it is offered. -/
def teeStep (s : Tee) : TeeAct → Option Tee
  | .look state => if s.pc = .top then some (s.look state) else none
  | .read status bytes => if s.pc = .read then some (s.afterRead status bytes) else none
  | .write status count =>
      if count ≤ s.rest.length then
        match s.pc with
        | .write => some (s.writeFirst status count)
        | .write1 => some (s.writeSecond status count)
        | _ => none
      else none

/-- A tee from the start of its loop on. -/
def teeSystem : System Tee TeeAct where
  start := fun s => s = {}
  step := teeStep

/-- No write returns an error. -/
def NoWriteError : TeeAct → Prop
  | .write status _ => status ≠ .error
  | _ => True

/-- The first output does not report completion together with the first bytes it accepts of the
chunk. -/
def CountsCompletion (s : Tee) : TeeAct → Prop
  | .write status count =>
      ¬ (s.pc = .write ∧ writePass status = .complete ∧ s.wrBytes = 0 ∧ 0 < count)
  | _ => True

instance NoWriteError.decidable : (a : TeeAct) → Decidable (NoWriteError a)
  | .write status _ => inferInstanceAs (Decidable (status ≠ .error))
  | .look _ => inferInstanceAs (Decidable True)
  | .read _ _ => inferInstanceAs (Decidable True)

instance CountsCompletion.decidable (s : Tee) : (a : TeeAct) → Decidable (CountsCompletion s a)
  | .write status count =>
      inferInstanceAs (Decidable
        (¬ (s.pc = .write ∧ writePass status = .complete ∧ s.wrBytes = 0 ∧ 0 < count)))
  | .look _ => inferInstanceAs (Decidable True)
  | .read _ _ => inferInstanceAs (Decidable True)

/-! ## The two streams -/

/-- What both outputs have seen. Between chunks the first output has accepted what the second was
offered, unless completion was asked for; in `write_to_dest` for the first output it has accepted
the counted part of the chunk in addition. -/
def Tee.Same (s : Tee) : Prop :=
  match s.pc with
  | .read => s.accepted = s.offered ∧ s.doComplete = false
  | .write =>
      s.accepted = s.offered ++ s.chunk.take s.wrBytes ∧ s.rest = s.chunk.drop s.wrBytes ∧
        s.rest ≠ []
  | _ => s.accepted <+: s.offered ∧ (s.doComplete = false → s.pc ≠ .left → s.accepted = s.offered)

/-- The first output has accepted a part of the chunk, at least one byte of it counted. -/
theorem Tee.same_afterFirst {s : Tee} (counted : s.wrBytes ≠ 0)
    (accepted : s.accepted <+: s.offered ++ s.chunk)
    (all : s.doComplete = false → s.accepted = s.offered ++ s.chunk) : s.afterFirst.Same := by
  rw [Tee.afterFirst, if_neg counted]
  exact ⟨accepted, fun running _ => all running⟩

theorem take_append_take {data : List UInt8} (m n : Nat) :
    data.take m ++ (data.drop m).take n = data.take (m + n) := by
  rw [List.take_add]

theorem Tee.Same.look {s : Tee} (same : s.Same) (top : s.pc = .top) (state : StreamState) :
    (s.look state).Same := by
  simp only [Tee.Same, top] at same
  unfold Tee.look
  split_ifs with ready completed running
  · simpa only [Tee.Same, top] using same
  · exact ⟨same.1, fun _ left => absurd rfl left⟩
  · have running : s.doComplete = false := by simpa using completed
    exact ⟨same.2 running (by simp), running⟩
  · exact ⟨same.1, fun _ left => absurd rfl left⟩

theorem Tee.Same.afterRead {s : Tee} (same : s.Same) (reading : s.pc = .read) (status : IoStatus)
    (bytes : List UInt8) : (s.afterRead status bytes).Same := by
  simp only [Tee.Same, reading] at same
  unfold Tee.afterRead
  split_ifs with failed none
  · exact ⟨same.1 ▸ List.prefix_refl _, fun _ left => absurd rfl left⟩
  · exact ⟨same.1 ▸ List.prefix_refl _, fun _ _ => same.1⟩
  · simpa [Tee.Same, none] using same.1

/-- A pass for the first output that counts what it accepts, or accepts nothing. -/
theorem Tee.Same.writeFirst {s : Tee} {status : IoStatus} {count : Nat} (same : s.Same)
    (writing : s.pc = .write) (calm : status ≠ .error)
    (counts : CountsCompletion s (.write status count)) : (s.writeFirst status count).Same := by
  simp only [Tee.Same, writing] at same
  obtain ⟨accepted, rest, some⟩ := same
  have more : s.accepted ++ s.rest.take count = s.offered ++ s.chunk.take (s.wrBytes + count) := by
    rw [accepted, rest, List.append_assoc, take_append_take]
  simp only [Tee.writeFirst]
  cases pass : writePass status with
  | complete =>
      simp only
      by_cases counted : s.wrBytes = 0
      · have nothing : count = 0 := by
          by_contra positive
          exact counts ⟨writing, pass, counted, Nat.pos_of_ne_zero positive⟩
        rw [Tee.afterFirst, if_pos counted]
        refine ⟨?_, by simp⟩
        simp [accepted, counted, nothing]
      · apply Tee.same_afterFirst
        · exact counted
        · simp only [more]
          exact List.prefix_append_right_inj _ |>.mpr (List.take_prefix _ _)
        · simp
  | fail =>
      cases status <;> simp [writePass] at pass calm
  | goOn =>
      simp only
      split_ifs with done
      · have whole : s.chunk.length ≤ s.wrBytes + count := by
          rw [rest, List.drop_drop, List.drop_eq_nil_iff] at done
          omega
        have all : s.accepted ++ s.rest.take count = s.offered ++ s.chunk := by
          rw [more, List.take_of_length_le whole]
        apply Tee.same_afterFirst
        · intro zero
          have empty : s.chunk = [] := by
            apply List.eq_nil_of_length_eq_zero
            simp only at zero
            omega
          exact some (by simp [rest, empty])
        · simp only [all]
          exact List.prefix_refl _
        · exact fun _ => all
      · simp only [Tee.Same, writing]
        refine ⟨more, ?_, done⟩
        rw [rest, List.drop_drop]

theorem Tee.Same.writeSecond {s : Tee} {status : IoStatus} {count : Nat} (same : s.Same)
    (writing : s.pc = .write1) : (s.writeSecond status count).Same := by
  simp only [Tee.Same, writing] at same
  simp only [Tee.writeSecond]
  split
  · exact ⟨same.1, by simp⟩
  · exact ⟨same.1, fun _ left => absurd rfl left⟩
  · split_ifs
    · exact ⟨same.1, fun running _ => same.2 running (by simp)⟩
    · simpa only [Tee.Same, writing] using same

/-- **One step.** -/
theorem Tee.Same.step {s t : Tee} {a : TeeAct} (same : s.Same) (calm : NoWriteError a)
    (counts : CountsCompletion s a) (step : teeStep s a = some t) : t.Same := by
  cases a with
  | look state =>
      simp only [teeStep] at step
      split at step
      · next top =>
          cases step
          exact same.look top state
      · cases step
  | read status bytes =>
      simp only [teeStep] at step
      split at step
      · next reading =>
          cases step
          exact same.afterRead reading status bytes
      · cases step
  | write status count =>
      simp only [teeStep] at step
      split at step
      · split at step
        · next writing =>
            cases step
            exact same.writeFirst writing calm counts
        · next writing =>
            cases step
            exact same.writeSecond writing
        · cases step
      · cases step

/-- A completion that is not counted ends the iteration with bytes that the second output was never
offered. -/
theorem Tee.Same.uncounted {s t : Tee} {a : TeeAct} (same : s.Same)
    (uncounted : ¬ CountsCompletion s a) (step : teeStep s a = some t) :
    t.pc = .top ∧ ¬ t.accepted <+: t.offered := by
  cases a with
  | look state => exact absurd trivial uncounted
  | read status bytes => exact absurd trivial uncounted
  | write status count =>
      obtain ⟨writing, pass, zero, positive⟩ := not_not.mp uncounted
      simp only [Tee.Same, writing] at same
      simp only [teeStep, writing] at step
      split at step
      · next few =>
          cases step
          have after : s.writeFirst status count =
              { s with
                accepted := s.accepted ++ s.rest.take count
                doComplete := true
                pc := .top } := by
            simp [Tee.writeFirst, pass, Tee.afterFirst, zero]
          rw [after]
          refine ⟨rfl, fun within => ?_⟩
          have length := within.length_le
          have taken : (s.rest.take count).length = count := List.length_take_of_le few
          simp only [List.length_append, same.1, zero, List.take_zero, List.length_nil, taken]
            at length
          omega
      · cases step

/-- **Both outputs of a tee see the same stream** in every run without write errors in which no
completion goes uncounted: at the end of every iteration the bytes accepted by the first output are
a prefix of those offered to the second. A completion that is not counted breaks it at the end of
that iteration. -/
theorem tee_outputs_agree (s : Tee)
    (reached : teeSystem.ReachUnder (fun s a => NoWriteError a ∧ CountsCompletion s a) s) :
    (s.pc = .top → s.accepted <+: s.offered) ∧
    ∀ a t, ¬ CountsCompletion s a → teeSystem.step s a = some t →
      t.pc = .top ∧ ¬ t.accepted <+: t.offered := by
  have same : s.Same := by
    apply reached.invariant
    · rintro s rfl
      exact ⟨List.prefix_refl _, fun _ _ => rfl⟩
    · intro s a t same permitted step
      exact same.step permitted.1 permitted.2 step
  refine ⟨fun top => ?_, fun a t uncounted step => same.uncounted uncounted step⟩
  simp only [Tee.Same, top] at same
  exact same.1

/-- A chunk that both outputs take, with a first output that completes at its second write. -/
theorem tee_outputs_agree_late_completion :
    ∃ s, teeSystem.ReachUnder (fun s a => NoWriteError a ∧ CountsCompletion s a) s ∧
      s.pc = .top ∧ s.accepted = [1, 2] ∧ s.accepted <+: s.offered := by
  have run : teeSystem.execUnder (fun s a => NoWriteError a ∧ CountsCompletion s a) {}
      [.look .running, .read .success [1, 2, 3], .write .success 1, .write .complete 1,
        .write .success 3] =
      some
        { doComplete := true
          chunk := [1, 2, 3]
          wrBytes := 3
          accepted := [1, 2]
          offered := [1, 2, 3] } := by decide
  have reached := System.ReachUnder.execUnder (.start rfl) run
  exact ⟨_, reached, rfl, rfl, (tee_outputs_agree _ reached).1 rfl⟩

/-- A first output that accepts two bytes and reports completion with them: the second output is
offered nothing. -/
theorem completion_skips_second :
    ¬ ∀ s, teeSystem.ReachUnder (fun _ a => NoWriteError a) s → s.pc = .top →
      s.accepted <+: s.offered := by
  intro always
  have run : teeSystem.execUnder (fun _ a => NoWriteError a) {}
      [.look .running, .read .success [1, 2, 3], .write .complete 2] =
      some { doComplete := true, chunk := [1, 2, 3], rest := [1, 2, 3], accepted := [1, 2] } := by
    decide
  have within := always _ (System.ReachUnder.execUnder (.start rfl) run) rfl
  exact absurd within (by decide)

end Bingewatch.Stream
