import Bingewatch.Foundation.Transition
import Bingewatch.File.Machine

/-!
# The streams of a file machine

A file machine has a stream for reading and one for writing, and each is opened when it is first
needed. `open_file` closes the stream of the other direction before it opens its own, but leaves the
pointer to it in the descriptor, where the rotations clear the pointer of the stream they close.

`streams_follow_protocol` says that the descriptor holds only open streams, and no closed one is
used, in every run in which no stream is opened while the pointer of the other direction is set; and
that every such opening leaves a pointer to a closed stream behind.
-/

set_option autoImplicit false

namespace Bingewatch.File

open Foundation Machine

variable {κ : Type} [DecidableEq κ]

/-! ## The property -/

/-- A file machine on its host; `alive` until it is destroyed. -/
structure FileMachine (κ : Type) where
  world : World κ
  desc : FileDesc
  alive : Bool := true

/-- A call, or the final destroy. -/
inductive FileAct where
  | call (c : FileCall)
  | destroy

/-- A step of a machine. -/
def fileStep (host : Host κ) (s : FileMachine κ) : FileAct → Option (FileMachine κ)
  | .call c =>
      if s.alive then
        (fileCall host s.world s.desc c).map fun (w, fd, _, _) => { s with world := w, desc := fd }
      else none
  | .destroy =>
      if s.alive then some { s with world := destroyFile s.world s.desc, alive := false } else none

/-- A new machine with any flags and names, on a host with any disk and any streams of others. -/
def fileSystem (host : Host κ) : System (FileMachine κ) FileAct where
  start := fun s => s.alive = true ∧ s.desc.fr = none ∧ s.desc.fw = none ∧ s.world.misused = false
  step := fileStep host

/-- Every stream the descriptor holds is open, and no closed stream was ever used. -/
structure FileMachine.Proper (s : FileMachine κ) : Prop where
  reading : s.alive = true → ∀ f, s.desc.fr = some f → s.world.IsOpen f
  writing : s.alive = true → ∀ f, s.desc.fw = some f → s.world.IsOpen f
  unused : s.world.misused = false

/-- The directory for a new stream can be entered. -/
def Enters (host : Host κ) (env : Env) (w : World κ) (fd : FileDesc) : Prop :=
  ∃ w' fd' path, enterDirectory host env w fd = some (w', fd', some path)

/-- No stream is opened while the pointer of the other direction is set. -/
def OpensAlone (host : Host κ) (s : FileMachine κ) : FileAct → Prop
  | .call (.write data env) =>
      data ≠ [] → s.desc.flags.write = true → s.desc.fw = none →
        Enters host env s.world s.desc → s.desc.fr = none
  | .call (.read _ env) =>
      s.desc.flags.read = true → s.desc.fr = none → Enters host env s.world s.desc →
        s.desc.fw = none
  | _ => True

/-! ## What the calls do to the streams -/

/-- No closed stream was used, and the streams there were are open or closed as before. -/
structure Keeps (w w' : World κ) : Prop where
  misused : w'.misused = w.misused
  grows : w.streams.length ≤ w'.streams.length
  isOpen : ∀ g, g < w.streams.length → (w'.IsOpen g ↔ w.IsOpen g)

omit [DecidableEq κ] in
theorem World.IsOpen.lt {w : World κ} {f : Nat} (opened : w.IsOpen f) : f < w.streams.length := by
  obtain ⟨s, there, _⟩ := opened
  exact (List.getElem?_eq_some_iff.mp there).1

omit [DecidableEq κ] in
theorem Keeps.refl (w : World κ) : Keeps w w := ⟨rfl, Nat.le_refl _, fun _ _ => Iff.rfl⟩

omit [DecidableEq κ] in
theorem Keeps.trans {w w' w'' : World κ} (first : Keeps w w') (second : Keeps w' w'') :
    Keeps w w'' where
  misused := second.misused.trans first.misused
  grows := Nat.le_trans first.grows second.grows
  isOpen := fun g old =>
    (second.isOpen g (Nat.lt_of_lt_of_le old first.grows)).trans (first.isOpen g old)

omit [DecidableEq κ] in
theorem Keeps.of_same {w w' : World κ} (streams : w'.streams = w.streams)
    (misused : w'.misused = w.misused) : Keeps w w' where
  misused := misused
  grows := Nat.le_of_eq (congrArg List.length streams.symm)
  isOpen := fun g _ => by rw [World.IsOpen, World.IsOpen, streams]

theorem mkdir_keeps (host : Host κ) (env : Env) (w : World κ) (path : Path) :
    Keeps w (w.mkdir host env path).1 := by
  unfold World.mkdir
  split
  · exact .refl w
  · split
    · exact .of_same rfl rfl
    · exact .refl w

theorem createDir_keeps (host : Host κ) (env : Env) (fuel : Nat) (w : World κ) (path : Path) :
    Keeps w (createDir host env fuel w path).1 := by
  induction fuel generalizing w path with
  | zero => exact .refl w
  | succ fuel ih =>
      have first := mkdir_keeps host env w path
      simp only [createDir]
      split
      · exact .refl w
      split
      · exact first
      split
      · exact first
      · next parent _ =>
          have middle := first.trans (ih (w.mkdir host env path).1 parent)
          split
          · exact middle.trans (mkdir_keeps host env _ path)
          · exact middle

/-- Entering a directory leaves the streams and the two pointers alone. -/
theorem enterDirectory_keeps {host : Host κ} {env : Env} {w w' : World κ} {fd fd' : FileDesc}
    {path : Option Path} (entered : enterDirectory host env w fd = some (w', fd', path)) :
    Keeps w w' ∧ fd'.fr = fd.fr ∧ fd'.fw = fd.fw ∧ fd'.flags = fd.flags := by
  obtain ⟨⟨built, dir⟩, building, eq⟩ := Option.map_eq_some_iff.mp entered
  have made := createDir_keeps host env (dir.length + 1) w dir
  cases eq
  exact ⟨made, buildDirectoryPath_desc building⟩

omit [DecidableEq κ] in
/-- One more stream, which is open. -/
theorem keeps_append (w w' : World κ) {s : Stream κ} (streams : w'.streams = w.streams ++ [s])
    (misused : w'.misused = w.misused) (opened : s.isOpen = true) :
    Keeps w w' ∧ w'.IsOpen w.streams.length := by
  refine ⟨⟨misused, by simp [streams], fun g old => ?_⟩, ⟨s, by simp [streams], opened⟩⟩
  rw [World.IsOpen, World.IsOpen, streams, List.getElem?_append_left old]

theorem fopenWrite_keeps (host : Host κ) (env : Env) (w : World κ) (path : Path) :
    Keeps w (w.fopenWrite host env path).1 ∧
      ∀ f, (w.fopenWrite host env path).2 = some f → (w.fopenWrite host env path).1.IsOpen f := by
  unfold World.fopenWrite
  split
  · exact ⟨.refl w, by simp⟩
  · next place _ =>
      split
      · obtain ⟨keeps, opened⟩ := keeps_append w
          { w with
            disk := Function.update w.disk place (some (.file []))
            streams := w.streams ++ [{ place := place }] } rfl rfl rfl
        refine ⟨keeps, fun f eq => ?_⟩
        cases eq
        exact opened
      · exact ⟨.refl w, by simp⟩

omit [DecidableEq κ] in
theorem fopenRead_keeps (host : Host κ) (env : Env) (w : World κ) (path : Path) :
    Keeps w (w.fopenRead host env path).1 ∧
      ∀ f, (w.fopenRead host env path).2 = some f → (w.fopenRead host env path).1.IsOpen f := by
  unfold World.fopenRead
  split
  · exact ⟨.refl w, by simp⟩
  · next place _ =>
      split
      · obtain ⟨keeps, opened⟩ :=
          keeps_append w { w with streams := w.streams ++ [{ place := place }] } rfl rfl rfl
        refine ⟨keeps, fun f eq => ?_⟩
        cases eq
        exact opened
      · exact ⟨.refl w, by simp⟩

theorem fwrite_keeps {w : World κ} {f : Nat} (opened : w.IsOpen f) (data : List UInt8) :
    Keeps w (w.fwrite f data) := by
  obtain ⟨s, there, isOpen⟩ := opened
  simp only [World.fwrite, there, isOpen, if_true]
  split
  · exact .of_same rfl rfl
  · exact .refl w

omit [DecidableEq κ] in
theorem fread_keeps {w : World κ} {f : Nat} (opened : w.IsOpen f) (request : Nat) :
    Keeps w (w.fread f request).1 := by
  obtain ⟨s, there, isOpen⟩ := opened
  simp only [World.fread, there, isOpen, if_true]
  split
  · exact .refl w
  split
  · refine ⟨rfl, by simp, fun g old => ?_⟩
    rw [World.IsOpen, World.IsOpen, List.getElem?_set]
    split
    · next same =>
        subst same
        exact iff_of_true ⟨_, if_pos old, rfl⟩ ⟨s, there, isOpen⟩
    · exact Iff.rfl
  · exact .refl w

omit [DecidableEq κ] in
/-- Closing an open stream closes it and no other one. -/
theorem fclose_spec {w : World κ} {f : Nat} (opened : w.IsOpen f) :
    (w.fclose f).misused = w.misused ∧ (w.fclose f).streams.length = w.streams.length ∧
      ¬ (w.fclose f).IsOpen f ∧ ∀ g, g ≠ f → ((w.fclose f).IsOpen g ↔ w.IsOpen g) := by
  have inside := opened.lt
  obtain ⟨s, there, isOpen⟩ := opened
  simp only [World.fclose, there, isOpen, if_true]
  refine ⟨trivial, by simp, ?_, fun g other => ?_⟩
  · rintro ⟨s', there', isOpen'⟩
    simp only [List.getElem?_set_self inside, Option.some.injEq] at there'
    subst there'
    simp at isOpen'
  · rw [World.IsOpen, World.IsOpen, List.getElem?_set_ne (Ne.symm other)]

/-! ## Openings -/

/-- What `open_file` leaves: the stream of the direction is open, or the call failed. `closed` is
the pointer of the other direction, whose stream was closed on the way. -/
structure Opened (w w' : World κ) (closed mine : Option Nat) (ok : Bool) : Prop where
  keeps : Keeps (closeField w closed) w'
  opened : ∀ f, mine = some f → w'.IsOpen f
  ok : ok = mine.isSome

/-- The three outcomes of `open_file` for writing. -/
theorem openWrite_cases {host : Host κ} {env : Env} {w w' : World κ} {fd fd' : FileDesc}
    {ok : Bool} (opening : openWrite host env w fd = some (w', fd', ok)) :
    (fd.fw ≠ none ∧ w' = w ∧ fd' = fd ∧ ok = true) ∨
    (fd.fw = none ∧ ¬ Enters host env w fd ∧ Keeps w w' ∧ fd'.fr = fd.fr ∧ fd'.fw = none ∧
      fd'.flags = fd.flags ∧ ok = false) ∨
    (fd.fw = none ∧ Enters host env w fd ∧ fd'.fr = fd.fr ∧ fd'.flags = fd.flags ∧
      ∃ m, Keeps w m ∧ Opened m w' fd.fr fd'.fw ok) := by
  simp only [openWrite] at opening
  cases field : fd.fw with
  | some f =>
      simp only [field, Option.isSome_some, if_true] at opening
      cases opening
      exact .inl ⟨by simp, rfl, rfl, rfl⟩
  | none =>
      simp only [field, Option.isSome_none, Bool.false_eq_true, if_false] at opening
      obtain ⟨⟨m, fm, path⟩, entered, rest⟩ := Option.bind_eq_some_iff.mp opening
      obtain ⟨keeps, fr, fw, flags⟩ := enterDirectory_keeps entered
      cases path with
      | none =>
          cases rest
          refine .inr (.inl ⟨rfl, ?_, keeps, fr, fw.trans field, flags, rfl⟩)
          rintro ⟨_, _, _, other⟩
          cases entered.symm.trans other
      | some path =>
          obtain ⟨⟨fn, fname⟩, chosen, eq⟩ := Option.map_eq_some_iff.mp rest
          obtain ⟨sameFr, sameFlags⟩ := chooseName_desc chosen
          obtain ⟨opens, isOpen⟩ := fopenWrite_keeps host env (closeField m fm.fr) fname
          cases eq
          refine .inr (.inr ⟨rfl, ⟨_, _, _, entered⟩, sameFr.trans fr, sameFlags.trans flags, m,
            keeps, ?_, isOpen, rfl⟩)
          rw [← fr]
          exact opens

/-- The three outcomes of `open_file` for reading. -/
theorem openRead_cases {host : Host κ} {env : Env} {w w' : World κ} {fd fd' : FileDesc}
    {ok : Bool} (opening : openRead host env w fd = some (w', fd', ok)) :
    (fd.fr ≠ none ∧ w' = w ∧ fd' = fd ∧ ok = true) ∨
    (fd.fr = none ∧ ¬ Enters host env w fd ∧ Keeps w w' ∧ fd'.fw = fd.fw ∧ fd'.fr = none ∧
      fd'.flags = fd.flags ∧ ok = false) ∨
    (fd.fr = none ∧ Enters host env w fd ∧ fd'.fw = fd.fw ∧ fd'.flags = fd.flags ∧
      ∃ m, Keeps w m ∧ Opened m w' fd.fw fd'.fr ok) := by
  simp only [openRead] at opening
  cases field : fd.fr with
  | some f =>
      simp only [field, Option.isSome_some, if_true] at opening
      cases opening
      exact .inl ⟨by simp, rfl, rfl, rfl⟩
  | none =>
      simp only [field, Option.isSome_none, Bool.false_eq_true, if_false] at opening
      obtain ⟨⟨m, fm, path⟩, entered, rest⟩ := Option.map_eq_some_iff.mp opening
      obtain ⟨keeps, fr, fw, flags⟩ := enterDirectory_keeps entered
      cases path with
      | none =>
          cases rest
          refine .inr (.inl ⟨rfl, ?_, keeps, fw, fr.trans field, flags, rfl⟩)
          rintro ⟨_, _, _, other⟩
          cases entered.symm.trans other
      | some path =>
          obtain ⟨opens, isOpen⟩ :=
            fopenRead_keeps host env (closeField m fm.fw) (fm.plainName path)
          cases rest
          refine .inr (.inr ⟨rfl, ⟨_, _, _, entered⟩, fw, flags, m, keeps, ?_, isOpen, rfl⟩)
          rw [← fw]
          exact opens

omit [DecidableEq κ] in
/-- A stream closed by an opening in the other direction stays closed. -/
theorem Opened.left_closed {w m w' : World κ} {f : Nat} {mine : Option Nat} {ok : Bool}
    (opened : Opened m w' (some f) mine ok) (keeps : Keeps w m) (isOpen : w.IsOpen f) :
    f < w'.streams.length ∧ ¬ w'.IsOpen f := by
  have here : m.IsOpen f := (keeps.isOpen f isOpen.lt).mpr isOpen
  obtain ⟨-, length, closed, -⟩ := fclose_spec here
  have inside : f < (closeField m (some f)).streams.length := length ▸ here.lt
  exact ⟨Nat.lt_of_lt_of_le inside opened.keeps.grows,
    fun isOpen => closed ((opened.keeps.isOpen f inside).mp isOpen)⟩

/-! ## The invariant -/

/-- The property, and only one of the two pointers is set. -/
structure FileMachine.Inv (s : FileMachine κ) : Prop where
  proper : s.Proper
  single : s.alive = true → s.desc.fr = none ∨ s.desc.fw = none

omit [DecidableEq κ] in
/-- Closing the write stream and clearing its pointer, as the rotations do. -/
theorem FileMachine.Inv.close_write {s : FileMachine κ} (inv : s.Inv) (alive : s.alive = true)
    {fd : FileDesc} (fr : fd.fr = s.desc.fr) (fw : fd.fw = none) :
    FileMachine.Inv { s with world := closeField s.world s.desc.fw, desc := fd } := by
  cases field : s.desc.fw with
  | none =>
      refine ⟨⟨fun _ f held => ?_, fun _ f held => ?_, inv.proper.unused⟩, fun _ => .inr fw⟩
      · exact inv.proper.reading alive f (fr ▸ held)
      · cases fw.symm.trans held
  | some f =>
      have noRead : s.desc.fr = none := by
        rcases inv.single alive with none | none
        · exact none
        · cases field.symm.trans none
      obtain ⟨misused, -, -, -⟩ := fclose_spec (inv.proper.writing alive f field)
      refine ⟨⟨fun _ g held => ?_, fun _ g held => ?_, misused.trans inv.proper.unused⟩,
        fun _ => .inr fw⟩
      · cases (fr.trans noRead).symm.trans held
      · cases fw.symm.trans held

omit [DecidableEq κ] in
/-- A change of the host that keeps the streams. -/
theorem FileMachine.Inv.keeps {s : FileMachine κ} (inv : s.Inv) (alive : s.alive = true)
    {w : World κ} {fd : FileDesc} (keeps : Keeps s.world w) (fr : fd.fr = s.desc.fr)
    (fw : fd.fw = s.desc.fw) : FileMachine.Inv { s with world := w, desc := fd } where
  proper :=
    { reading := fun _ f held => by
        have isOpen := inv.proper.reading alive f (fr ▸ held)
        exact (keeps.isOpen f isOpen.lt).mpr isOpen
      writing := fun _ f held => by
        have isOpen := inv.proper.writing alive f (fw ▸ held)
        exact (keeps.isOpen f isOpen.lt).mpr isOpen
      unused := keeps.misused.trans inv.proper.unused }
  single := fun _ => by
    rw [fr, fw]
    exact inv.single alive

/-- The rest of `file_write` after the opening. -/
theorem FileMachine.Inv.written {s : FileMachine κ} (inv : s.Inv) (alive : s.alive = true)
    {f : Nat} (field : s.desc.fw = some f) (data : List UInt8) :
    let w := s.world.fwrite f data
    let next := if s.desc.flags.rotate then rotateWfile w s.desc else (w, s.desc)
    FileMachine.Inv { s with world := next.1, desc := next.2 } := by
  have keeps := fwrite_keeps (inv.proper.writing alive f field) data
  have inv := inv.keeps alive keeps rfl rfl
  intro w next
  simp only [next]
  split
  · exact inv.close_write alive rfl rfl
  · exact inv

theorem FileMachine.Inv.write {host : Host κ} {s : FileMachine κ} {env : Env} {data : List UInt8}
    {w : World κ} {fd : FileDesc} {status : IoStatus} {out : List UInt8} (inv : s.Inv)
    (alive : s.alive = true) (alone : OpensAlone host s (.call (.write data env)))
    (called : fileWrite host env s.world s.desc data = some (w, fd, status, out)) :
    FileMachine.Inv { s with world := w, desc := fd } := by
  simp only [fileWrite] at called
  split at called
  · cases called
    exact inv
  next some =>
  split at called
  · cases called
    exact inv
  next mode =>
  obtain ⟨⟨m, fm, ok⟩, opening, rest⟩ := Option.map_eq_some_iff.mp called
  have opened : FileMachine.Inv { s with world := m, desc := fm } := by
    rcases openWrite_cases opening with ⟨-, rfl, rfl, -⟩ | ⟨field, -, keeps, fr, fw, -, -⟩ |
      ⟨field, enters, fr, -, m', keeps, opened⟩
    · exact inv
    · exact inv.keeps alive keeps fr (fw.trans field.symm)
    · have free : s.desc.fr = none := alone some (by simpa using mode) field enters
      rw [free] at opened
      have kept := keeps.trans opened.keeps
      refine ⟨⟨fun _ f held => ?_, fun _ f held => opened.opened f held,
        kept.misused.trans inv.proper.unused⟩, fun _ => .inl (fr.trans free)⟩
      cases (fr.trans free).symm.trans held
  cases field : fm.fw with
  | none =>
      cases ok <;> simp only [field] at rest <;> cases rest <;> exact opened
  | some f =>
      cases ok with
      | false =>
          cases rest
          exact opened
      | true =>
          have written := opened.written alive field data
          simp only [field] at rest
          cases rest
          exact written

theorem FileMachine.Inv.read {host : Host κ} {s : FileMachine κ} {env : Env} {request : Nat}
    {w : World κ} {fd : FileDesc} {status : IoStatus} {out : List UInt8} (inv : s.Inv)
    (alive : s.alive = true) (alone : OpensAlone host s (.call (.read request env)))
    (called : fileRead host env s.world s.desc request = some (w, fd, status, out)) :
    FileMachine.Inv { s with world := w, desc := fd } := by
  simp only [fileRead] at called
  split at called
  · cases called
    exact inv
  next mode =>
  obtain ⟨⟨m, fm, ok⟩, opening, rest⟩ := Option.map_eq_some_iff.mp called
  have opened : FileMachine.Inv { s with world := m, desc := fm } := by
    rcases openRead_cases opening with ⟨-, rfl, rfl, -⟩ | ⟨field, -, keeps, fw, fr, -, -⟩ |
      ⟨field, enters, fw, -, m', keeps, opened⟩
    · exact inv
    · exact inv.keeps alive keeps (fr.trans field.symm) fw
    · have free : s.desc.fw = none := alone (by simpa using mode) field enters
      rw [free] at opened
      have kept := keeps.trans opened.keeps
      refine ⟨⟨fun _ f held => opened.opened f held, fun _ f held => ?_,
        kept.misused.trans inv.proper.unused⟩, fun _ => .inr (fw.trans free)⟩
      cases (fw.trans free).symm.trans held
  cases field : fm.fr with
  | none =>
      cases ok <;> simp only [field] at rest <;> cases rest <;> exact opened
  | some f =>
      cases ok with
      | false =>
          cases rest
          exact opened
      | true =>
          have keeps := fread_keeps (opened.proper.reading alive f field) request
          simp only [field] at rest
          cases rest
          exact opened.keeps alive keeps rfl rfl

omit [DecidableEq κ] in
/-- Destroying the machine closes the stream it holds. -/
theorem FileMachine.Inv.destroy {s : FileMachine κ} (inv : s.Inv) (alive : s.alive = true) :
    FileMachine.Inv { s with world := destroyFile s.world s.desc, alive := false } := by
  have unused : (destroyFile s.world s.desc).misused = false := by
    have proper := inv.proper
    rcases inv.single alive with noRead | noWrite
    · cases field : s.desc.fw with
      | none => simpa [destroyFile, closeField, noRead, field] using proper.unused
      | some f =>
          obtain ⟨misused, -⟩ := fclose_spec (proper.writing alive f field)
          simpa [destroyFile, closeField, noRead, field, misused] using proper.unused
    · cases field : s.desc.fr with
      | none => simpa [destroyFile, closeField, noWrite, field] using proper.unused
      | some f =>
          obtain ⟨misused, -⟩ := fclose_spec (proper.reading alive f field)
          simpa [destroyFile, closeField, noWrite, field, misused] using proper.unused
  exact ⟨⟨by simp, by simp, unused⟩, by simp⟩

/-- **One step.** -/
theorem FileMachine.Inv.step {host : Host κ} {s t : FileMachine κ} {a : FileAct} (inv : s.Inv)
    (alone : OpensAlone host s a) (step : fileStep host s a = some t) : t.Inv := by
  cases a with
  | destroy =>
      simp only [fileStep] at step
      split at step
      · next alive =>
          cases step
          exact inv.destroy alive
      · cases step
  | call c =>
      simp only [fileStep] at step
      split at step
      · next alive =>
          obtain ⟨⟨w, fd, status, out⟩, called, eq⟩ := Option.map_eq_some_iff.mp step
          cases eq
          cases c with
          | write data env => exact inv.write alive alone called
          | read request env => exact inv.read alive alone called
          | rotate =>
              cases called
              exact inv.close_write alive rfl rfl
          | rotateDir =>
              cases called
              exact inv.close_write alive rfl rfl
          | setFiletag tag =>
              cases called
              exact inv.close_write alive rfl rfl
      · cases step

/-! ## The other direction -/

omit [DecidableEq κ] in
/-- A closed stream stays closed when another one is closed. -/
theorem closed_fclose {w : World κ} {f g : Nat} (isOpen : w.IsOpen f) (closed : ¬ w.IsOpen g) :
    ¬ (w.fclose f).IsOpen g := by
  have other : g ≠ f := by
    rintro rfl
    exact closed isOpen
  exact fun opened => closed (((fclose_spec isOpen).2.2.2 g other).mp opened)

/-- A write that opens its stream while the read pointer is set leaves that pointer to a closed
stream. -/
theorem FileMachine.Inv.write_dangles {host : Host κ} {s : FileMachine κ} {env : Env}
    {data : List UInt8} {w : World κ} {fd : FileDesc} {status : IoStatus} {out : List UInt8}
    (inv : s.Inv) (alive : s.alive = true)
    (crowded : ¬ OpensAlone host s (.call (.write data env)))
    (called : fileWrite host env s.world s.desc data = some (w, fd, status, out)) :
    ∃ g, fd.fr = some g ∧ ¬ w.IsOpen g := by
  simp only [OpensAlone, Classical.not_imp] at crowded
  obtain ⟨some, mode, none, enters, held⟩ := crowded
  obtain ⟨g, field⟩ := Option.ne_none_iff_exists'.mp held
  simp only [fileWrite, if_neg some, mode, Bool.true_eq_false, if_false] at called
  obtain ⟨⟨m, fm, ok⟩, opening, rest⟩ := Option.map_eq_some_iff.mp called
  rcases openWrite_cases opening with ⟨set, -⟩ | ⟨-, outside, -⟩ | ⟨-, -, fr, -, m', keeps, opened⟩
  · exact absurd none set
  · exact absurd enters outside
  rw [field] at opened fr
  obtain ⟨inside, closed⟩ := opened.left_closed keeps (inv.proper.reading alive g field)
  cases mine : fm.fw with
  | none =>
      cases ok <;> simp only [mine] at rest <;> cases rest <;> exact ⟨g, fr, closed⟩
  | some f =>
      have isOpen := opened.opened f mine
      obtain rfl : ok = true := by rw [opened.ok, mine]; rfl
      have wrote := fwrite_keeps isOpen data
      have still : ¬ (m.fwrite f data).IsOpen g := fun now =>
        closed ((wrote.isOpen g inside).mp now)
      simp only [mine] at rest
      split at rest
      · cases rest
        refine ⟨g, fr, ?_⟩
        simp only [rotateWfile, closeField, mine]
        exact closed_fclose ((wrote.isOpen f isOpen.lt).mpr isOpen) still
      · cases rest
        exact ⟨g, fr, still⟩

/-- A read that opens its stream while the write pointer is set leaves that pointer to a closed
stream. -/
theorem FileMachine.Inv.read_dangles {host : Host κ} {s : FileMachine κ} {env : Env} {request : Nat}
    {w : World κ} {fd : FileDesc} {status : IoStatus} {out : List UInt8} (inv : s.Inv)
    (alive : s.alive = true) (crowded : ¬ OpensAlone host s (.call (.read request env)))
    (called : fileRead host env s.world s.desc request = some (w, fd, status, out)) :
    ∃ g, fd.fw = some g ∧ ¬ w.IsOpen g := by
  simp only [OpensAlone, Classical.not_imp] at crowded
  obtain ⟨mode, none, enters, held⟩ := crowded
  obtain ⟨g, field⟩ := Option.ne_none_iff_exists'.mp held
  simp only [fileRead, mode, Bool.true_eq_false, if_false] at called
  obtain ⟨⟨m, fm, ok⟩, opening, rest⟩ := Option.map_eq_some_iff.mp called
  rcases openRead_cases opening with ⟨set, -⟩ | ⟨-, outside, -⟩ | ⟨-, -, fw, -, m', keeps, opened⟩
  · exact absurd none set
  · exact absurd enters outside
  rw [field] at opened fw
  obtain ⟨inside, closed⟩ := opened.left_closed keeps (inv.proper.writing alive g field)
  cases mine : fm.fr with
  | none =>
      cases ok <;> simp only [mine] at rest <;> cases rest <;> exact ⟨g, fw, closed⟩
  | some f =>
      obtain rfl : ok = true := by rw [opened.ok, mine]; rfl
      have read := fread_keeps (opened.opened f mine) request
      simp only [mine] at rest
      cases rest
      exact ⟨g, fw, fun now => closed ((read.isOpen g inside).mp now)⟩

theorem FileMachine.Inv.dangles {host : Host κ} {s t : FileMachine κ} {a : FileAct} (inv : s.Inv)
    (crowded : ¬ OpensAlone host s a) (step : fileStep host s a = some t) : ¬ t.Proper := by
  cases a with
  | destroy => exact absurd trivial crowded
  | call c =>
      simp only [fileStep] at step
      split at step
      · next alive =>
          obtain ⟨⟨w, fd, status, out⟩, called, eq⟩ := Option.map_eq_some_iff.mp step
          cases eq
          intro proper
          cases c with
          | write data env =>
              obtain ⟨g, held, closed⟩ := inv.write_dangles alive crowded called
              exact closed (proper.reading alive g held)
          | read request env =>
              obtain ⟨g, held, closed⟩ := inv.read_dangles alive crowded called
              exact closed (proper.writing alive g held)
          | rotate => exact crowded trivial
          | rotateDir => exact crowded trivial
          | setFiletag tag => exact crowded trivial
      · cases step

/-- **File streams follow the open/close protocol** in every run in which no stream is opened while
the pointer of the other direction is set: every stream the descriptor holds is open and none is
used after it was closed. An opening that breaks the condition leaves a pointer to a closed
stream. -/
theorem streams_follow_protocol (host : Host κ) (s : FileMachine κ)
    (reached : (fileSystem host).ReachUnder (OpensAlone host) s) :
    s.Proper ∧
    ∀ a t, ¬ OpensAlone host s a → (fileSystem host).step s a = some t → ¬ t.Proper := by
  have inv : s.Inv := by
    apply reached.invariant
    · rintro s ⟨-, fr, fw, unused⟩
      refine ⟨⟨fun _ f held => ?_, fun _ f held => ?_, unused⟩, fun _ => .inl fr⟩
      · cases fr.symm.trans held
      · cases fw.symm.trans held
    · intro s a t inv alone step
      exact inv.step alone step
  exact ⟨inv.proper, fun a t crowded step => inv.dangles crowded step⟩

/-- A host on which every path is a place of its own. -/
def flatHost : Host Path where
  resolve := fun _ path => some path

/-- A new machine for reading and writing, on an empty disk. -/
def rwMachine : FileMachine Path where
  world := { disk := fun _ => none }
  desc := { rootDir := ['d'], fileTag := ['t'], flags := { read := true, write := true } }

/-- The first write of a machine. -/
theorem streams_follow_protocol_write :
    ∃ s, (fileSystem flatHost).ReachUnder (OpensAlone flatHost) s ∧ s.desc.fw = some 0 ∧
      s.Proper := by
  have run : ((fileSystem flatHost).step rwMachine (.call (.write [1] {}))).map
      (fun s => s.desc.fw) = some (some 0) := by decide +kernel
  obtain ⟨s, step, held⟩ := Option.map_eq_some_iff.mp run
  have alone : OpensAlone flatHost rwMachine (.call (.write [1] {})) := fun _ _ _ _ => rfl
  have reached : (fileSystem flatHost).ReachUnder (OpensAlone flatHost) s :=
    .step (.start ⟨rfl, rfl, rfl, rfl⟩) alone step
  exact ⟨s, reached, held, (streams_follow_protocol flatHost s reached).1⟩

/-- A write, a read and a write: the second write goes to the stream that the read has closed. -/
theorem write_after_read_uses_closed :
    ∃ s, (fileSystem flatHost).Reach s ∧ ¬ s.Proper := by
  have run : ((fileSystem flatHost).exec rwMachine
      [.call (.write [1] {}), .call (.read 1 {}), .call (.write [2] {})]).map
        (fun s => s.world.misused) = some true := by decide +kernel
  obtain ⟨s, run, misused⟩ := Option.map_eq_some_iff.mp run
  refine ⟨s, System.ReachUnder.exec (.start ⟨rfl, rfl, rfl, rfl⟩) run, fun proper => ?_⟩
  cases misused.symm.trans proper.unused

end Bingewatch.File
