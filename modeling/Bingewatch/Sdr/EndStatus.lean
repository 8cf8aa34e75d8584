import Mathlib.Algebra.Ring.Nat
import Bingewatch.Sdr.Reset

/-!
# The status that ends a buffered read

A status above `IO_SUCCESS` that `hw_read` stores with a block, other than `IO_DATABREAK`, ends the
`read_from_buffer` that comes to the block (`src/sdr/sdr-rx-machine.c`). The branch copies what the
request has room for, sets the byte count of the block to zero and goes to the next block, and takes
the status to return only then: from the block behind.

`Stops` follows a read from the block to the moment before the status is taken, `Returning` from
there to the return. `end_status_iff` says when the read returns the status of its block and leaves
what it did not copy in the ring.
-/

set_option autoImplicit false

namespace Bingewatch.Sdr

open Foundation Machine Buffer

variable {α : Type}

/-! ## A read that comes to a block -/

/-- `IO_COMPLETE` and the others above `IO_SUCCESS`, without `IO_DATABREAK`. -/
def endsRead : IoStatus → Bool
  | .error => false
  | .success => false
  | .databreak => false
  | _ => true

/-- A read in its loop, at a block that `hw_read` filled with this status. -/
structure Channel.ComesTo (s : Channel α) (c : IoStatus) : Prop where
  reader : s.reader = .wait
  needs : s.call.remaining ≠ 0
  filled : s.mem.bytes s.call.rp ≠ 0
  status : retOf s.mem s.call.rp = c

/-- No call of `hw_read` the fill thread has made since the read began has failed. -/
def fillSound (b : Block α) : FillPc → Prop
  | .storeRet status _ => status.isError = false
  | .testRet _ => b.dRet.isError = false
  | .storeWp rval => rval.isError = false
  | .exited rval => rval.isError = false
  | _ => True

/-- A step of the read or of its fill thread, without an error of the hardware. -/
def Calm (_ : Channel α) : Act α → Prop
  | .call _ => False
  | .reader => True
  | .fill status _ => status.isError = false

instance (s : Channel α) (act : Act α) : Decidable (Calm s act) :=
  match act with
  | .call _ => inferInstanceAs (Decidable False)
  | .reader => inferInstanceAs (Decidable True)
  | .fill status _ => inferInstanceAs (Decidable (status.isError = false))

/-- The channel from a state on. -/
def channelFrom (copy : Memcpy α) (s : Channel α) : System (Channel α) (Act α) where
  start := (· = s)
  step := channelStep copy

/-- The samples `hw_read` has delivered that the fill thread has not released. -/
def FillPc.reading : FillPc → Nat
  | .storeRet _ n => n
  | .testRet n => n
  | .storeBytes n => n
  | _ => 0

/-- The number of samples in the blocks of the ring and with the fill thread. -/
def Channel.held (s : Channel α) (ring : List Nat) : Nat :=
  (ring.map (samplesOf s.mem)).sum + s.fill.reading

/-- Between two states of a read, what was held and what came in is held, or was returned: no sample
was dropped. `before` are the samples that the read had in the first state. -/
def Keeps (ring : List Nat) (s t : Channel α) (before returned : List α) : Prop :=
  s.held ring + t.produced.length + before.length =
    t.held ring + s.produced.length + returned.length

/-! ## Counting -/

/-- A sum over a list in which one term changes. -/
theorem sum_map_change {ι : Type} {l : List ι} {f g : ι → Nat} {x : ι} (nodup : l.Nodup)
    (member : x ∈ l) (same : ∀ y, y ≠ x → g y = f y) :
    (l.map g).sum + f x = (l.map f).sum + g x := by
  induction l with
  | nil => cases member
  | cons y l ih =>
      obtain ⟨absent, nodup⟩ := List.nodup_cons.mp nodup
      simp only [List.map_cons, List.sum_cons]
      rcases List.mem_cons.mp member with rfl | later
      · have others : l.map g = l.map f := by
          refine List.map_congr_left fun z inList => same z ?_
          rintro rfl
          exact absent inList
        rw [others]
        omega
      · have other : y ≠ x := by
          rintro rfl
          exact absent later
        have rest := ih nodup later
        rw [same y other]
        omega

/-- A change of one block of the ring. -/
theorem held_modify {m : Mem α} {ring : List Nat} {x : Nat} {f : Block α → Block α}
    (nodup : ring.Nodup) (member : x ∈ ring) :
    (ring.map (samplesOf (m.modify x f))).sum + samplesOf m x =
      (ring.map (samplesOf m)).sum + (f (m.block x)).bytes / sampleBytes := by
  have changed := sum_map_change (f := samplesOf m) (g := samplesOf (m.modify x f)) nodup member
    fun y other => by simp only [samplesOf, Mem.bytes, Mem.modify_block_of_ne m f other]
  simpa [samplesOf, Mem.bytes] using changed

/-! ## The fill thread beside the read -/

section Fill

variable {buf : Nat} {ring : List Nat} {s t : Channel α} {P : α → Prop}

/-- What a step of the fill thread leaves to a read. -/
structure Beside (ring : List Nat) (s t : Channel α) : Prop where
  reader : t.reader = s.reader
  call : t.call = s.call
  reports : t.reports = s.reports
  links : ∀ x, t.mem.next x = s.mem.next x
  filled : ∀ x, s.mem.bytes x ≠ 0 → t.mem.block x = s.mem.block x
  sound : fillSound (t.mem.block t.fillWp) t.fill
  count : t.held ring + s.produced.length = s.held ring + t.produced.length

/-- The fill thread changes its block. -/
theorem beside_modify (inv : s.Holds P buf ring) {f : Block α → Block α} {pc : FillPc}
    {produced : List α} (held : s.fill.holding = true)
    (next : (f (s.mem.block s.fillWp)).next = s.mem.next s.fillWp)
    (sound : fillSound (f (s.mem.block s.fillWp)) pc)
    (count : (f (s.mem.block s.fillWp)).bytes / sampleBytes + pc.reading + s.produced.length =
      s.fill.reading + produced.length) :
    Beside ring s { s with mem := s.mem.modify s.fillWp f, fill := pc, produced := produced } where
  reader := rfl
  call := rfl
  reports := rfl
  links := Mem.modify_field Block.next s.mem s.fillWp f next
  filled := by
    intro x some
    apply Mem.modify_block_of_ne s.mem f
    rintro rfl
    exact some (inv.holding held)
  sound := by simpa using sound
  count := by
    have inRing : s.fillWp ∈ ring := by
      apply inv.fillWp
      cases pc : s.fill <;> simp_all [FillPc.holding, FillPc.started]
    have empty : samplesOf s.mem s.fillWp = 0 := by
      rw [samplesOf, inv.holding held]
      rfl
    have sum := held_modify (m := s.mem) (f := f) inv.linked.nodup inRing
    simp only [Channel.held]
    omega

/-- The fill thread touches no block. -/
theorem beside_goto {pc : FillPc} {wp fillWp : Nat}
    (sound : fillSound (s.mem.block fillWp) pc) (same : pc.reading = s.fill.reading) :
    Beside ring s { s with fill := pc, wp := wp, fillWp := fillWp } where
  reader := rfl
  call := rfl
  reports := rfl
  links := fun _ => rfl
  filled := fun _ _ => rfl
  sound := sound
  count := by simp only [Channel.held, same]

/-- **A step of the fill thread**, without an error. -/
theorem beside_fill {status : IoStatus} {samples : List α} (inv : s.Holds P buf ring)
    (sound : fillSound (s.mem.block s.fillWp) s.fill) (calm : status.isError = false)
    (step : fillStep s status samples = some t) : Beside ring s t := by
  unfold fillStep at step
  cases pc : s.fill with
  | absent => simp [pc] at step
  | start =>
      simp only [pc, Option.some.injEq] at step
      subst step
      exact beside_goto trivial (by rw [pc]; rfl)
  | testFill =>
      simp only [pc, Option.some.injEq] at step
      subst step
      split
      · exact beside_goto trivial (by rw [pc]; rfl)
      · exact beside_goto rfl (by rw [pc]; rfl)
  | testBytes =>
      simp only [pc, Option.some.injEq] at step
      subst step
      split
      · exact beside_goto trivial (by rw [pc]; rfl)
      · exact beside_goto rfl (by rw [pc]; rfl)
  | hwRead =>
      have held : s.fill.holding = true := by rw [pc]; rfl
      have empty : (s.mem.block s.fillWp).bytes = 0 := inv.holding held
      simp only [pc] at step
      split at step
      · cases step
        rw [calm]
        refine beside_modify inv held rfl calm ?_
        simp only [storeData, empty, pc, FillPc.reading, Bool.false_eq_true, if_false,
          List.length_append, Nat.zero_div]
        omega
      · cases step
  | storeRet status' n =>
      have held : s.fill.holding = true := by rw [pc]; rfl
      have empty : (s.mem.block s.fillWp).bytes = 0 := inv.holding held
      rw [pc] at sound
      simp only [pc, Option.some.injEq] at step
      subst step
      refine beside_modify inv held rfl sound ?_
      simp only [empty, pc, FillPc.reading, Nat.zero_div]
      omega
  | testRet n =>
      rw [pc] at sound
      have passes : (retOf s.mem s.fillWp).isError = false := sound
      simp only [pc, passes, Option.some.injEq, Bool.false_eq_true, if_false] at step
      subst step
      exact beside_goto trivial (by rw [pc]; rfl)
  | storeBytes n =>
      have held : s.fill.holding = true := by rw [pc]; rfl
      have count : n * sampleBytes / sampleBytes = n := Nat.mul_div_cancel n (by decide)
      simp only [pc, Option.some.injEq] at step
      subst step
      refine beside_modify inv held rfl trivial ?_
      simp only [setBytes, count, pc, FillPc.reading]
      omega
  | follow =>
      simp only [pc, Option.some.injEq] at step
      subst step
      exact beside_goto trivial (by rw [pc]; rfl)
  | storeWp rval =>
      rw [pc] at sound
      simp only [pc, Option.some.injEq] at step
      subst step
      exact beside_goto sound (by rw [pc]; rfl)
  | exited rval => simp [pc] at step

end Fill

/-! ## From the block to its status -/

section Stops

variable {copy : Memcpy α} {buf : Nat} {ring : List Nat} {s t u : Channel α} {c : IoStatus}

/-- The samples of its block that a read has room for. -/
def Channel.fits (s : Channel α) : Nat :=
  if samplesOf s.mem s.call.rp ≤ s.call.remaining then samplesOf s.mem s.call.rp
  else s.call.remaining

/-- A read that has copied them. -/
def Channel.copied (s : Channel α) : ReadCall α :=
  { s.call with out := s.call.out ++ (s.mem.data s.call.rp).take s.fits }

/-- Since `s` the read has not returned, `gone` samples were taken out of the ring, and its local
variables are `call`. -/
structure Along (ring : List Nat) (s t : Channel α) (call : ReadCall α) (gone : Nat) : Prop where
  call : t.call = call
  reports : t.reports = s.reports
  count : t.held ring + gone + s.produced.length = s.held ring + t.produced.length

/-- A read on its way through the branch, before its block is dropped. -/
structure Before (ring : List Nat) (s t : Channel α) (call : ReadCall α) : Prop where
  along : Along ring s t call 0
  block : t.mem.block s.call.rp = s.mem.block s.call.rp

/-- The read that came to its block in `s`, up to the moment when it takes the status. -/
def stopStage (ring : List Nat) (s t : Channel α) : ReaderPc → Prop
  | .wait => Before ring s t s.call
  | .testRet => Before ring s t s.call
  | .loadBytes => Before ring s t s.call
  | .switch n => n = s.fits ∧ Before ring s t s.call
  | .copyLast n => n = s.fits ∧ Before ring s t s.call
  | .dropBytes => Before ring s t s.copied
  | .dropFollow => Along ring s t s.copied (samplesOf s.mem s.call.rp)
  | .dropRet =>
      Along ring s t { s.copied with rp := s.mem.next s.call.rp } (samplesOf s.mem s.call.rp)
  | .storeRp => True
  | .stopFill => True
  | .join => True
  | .idle => True
  | _ => False

structure Stops (buf : Nat) (ring : List Nat) (s t : Channel α) : Prop where
  holds : t.Holds (fun _ => True) buf ring
  sound : fillSound (t.mem.block t.fillWp) t.fill
  links : ∀ x, t.mem.next x = s.mem.next x
  stage : stopStage ring s t t.reader

theorem Along.beside {call : ReadCall α} {gone : Nat} (along : Along ring s t call gone)
    (beside : Beside ring t u) : Along ring s u call gone where
  call := beside.call.trans along.call
  reports := beside.reports.trans along.reports
  count := by
    have before := along.count
    have now := beside.count
    omega

theorem Before.beside {call : ReadCall α} (before : Before ring s t call)
    (filled : s.mem.bytes s.call.rp ≠ 0) (beside : Beside ring t u) : Before ring s u call where
  along := before.along.beside beside
  block := by
    have full : t.mem.bytes s.call.rp ≠ 0 := by
      rw [Mem.bytes, before.block]
      exact filled
    rw [beside.filled _ full, before.block]

/-- The block that the read stands at is the one it came to. -/
theorem Before.here (before : Before ring s t s.call) :
    t.mem.block t.call.rp = s.mem.block s.call.rp := by
  rw [before.along.call, before.block]

theorem Before.status (before : Before ring s t s.call) (comes : s.ComesTo c) :
    retOf t.mem t.call.rp = c := by
  rw [retOf, before.here]
  exact comes.status

/-- The read moves on without touching a block. -/
theorem Before.turn {call call' call'' : ReadCall α} {pc : ReaderPc}
    (before : Before ring s t call) (next : call' = call'') :
    Before ring s { t with reader := pc, call := call' } call'' where
  along := { call := next, reports := before.along.reports, count := before.along.count }
  block := before.block

theorem Stops.beside (stops : Stops buf ring s t) (filled : s.mem.bytes s.call.rp ≠ 0)
    (beside : Beside ring t u) (holds : u.Holds (fun _ => True) buf ring) :
    Stops buf ring s u where
  holds := holds
  sound := beside.sound
  links := fun x => (beside.links x).trans (stops.links x)
  stage := by
    have stage := stops.stage
    rw [beside.reader]
    cases pc : t.reader with
    | wait | testRet | loadBytes | dropBytes =>
        rw [pc] at stage
        exact Before.beside stage filled beside
    | switch n | copyLast n =>
        rw [pc] at stage
        exact ⟨stage.1, stage.2.beside filled beside⟩
    | dropFollow | dropRet =>
        rw [pc] at stage
        exact Along.beside stage beside
    | storeRp | stopFill | join | idle => trivial
    | _ =>
        rw [pc] at stage
        exact stage

/-- The read moves on without touching a block. -/
theorem Stops.turn (stops : Stops buf ring s t) {pc : ReaderPc} {call : ReadCall α} {rp : Nat}
    {doFill : Bool}
    (holds : Channel.Holds (fun _ => True) buf ring
      { t with rp := rp, doFill := doFill, reader := pc, call := call })
    (stage :
      stopStage ring s { t with rp := rp, doFill := doFill, reader := pc, call := call } pc) :
    Stops buf ring s { t with rp := rp, doFill := doFill, reader := pc, call := call } where
  holds := holds
  sound := stops.sound
  links := stops.links
  stage := stage

/-- The block is dropped with everything that is left in it. -/
theorem Stops.drop (stops : Stops buf ring s t) (pc : t.reader = .dropBytes) :
    Along ring s
        { t with mem := t.mem.modify t.call.rp (setBytes 0), reader := .dropFollow } s.copied
        (samplesOf s.mem s.call.rp) ∧
      fillSound ((t.mem.modify t.call.rp (setBytes 0)).block t.fillWp) t.fill := by
  have stage := stops.stage
  rw [pc] at stage
  have before : Before ring s t s.copied := stage
  have at_x : t.call.rp = s.call.rp := by
    rw [before.along.call]
    rfl
  have full : t.mem.bytes t.call.rp ≠ 0 := stops.holds.working (by rw [pc]; rfl)
  refine ⟨⟨before.along.call, before.along.reports, ?_⟩, ?_⟩
  · have emptied := held_modify (m := t.mem) (f := setBytes 0) stops.holds.linked.nodup
      (stops.holds.filled _ full)
    have same : samplesOf t.mem t.call.rp = samplesOf s.mem s.call.rp := by
      rw [at_x]
      exact congrArg (fun b : Block α => b.bytes / sampleBytes) before.block
    have count := before.along.count
    simp only [setBytes, Nat.zero_div] at emptied
    simp only [Channel.held] at count ⊢
    omega
  · cases holding : t.fill.holding with
    | true =>
        have apart : t.fillWp ≠ t.call.rp := by
          intro same
          exact full (same ▸ stops.holds.holding holding)
        rw [Mem.modify_block_of_ne t.mem _ apart]
        exact stops.sound
    | false =>
        have sound := stops.sound
        cases fill : t.fill <;> rw [fill] at sound holding <;> first | exact sound | cases holding

theorem stops_reader (comes : s.ComesTo c) (ends : endsRead c = true)
    (stops : Stops buf ring s t) (step : readerStep copy t = some u) : Stops buf ring s u := by
  have holds := holds_reader stops.holds step
  have stage := stops.stage
  have passes : c.isError = false := by cases c <;> simp_all [endsRead, IoStatus.isError]
  have noSuccess : c ≠ .success := by rintro rfl; cases ends
  have noBreak : c ≠ .databreak := by rintro rfl; cases ends
  cases readerMove_of_step step with
  | served pc enough =>
      rw [pc] at stage
      have before : Before ring s t s.call := stage
      rw [before.along.call] at enough
      exact absurd enough comes.needs
  | waits pc needs empty =>
      rw [pc] at stage
      have before : Before ring s t s.call := stage
      rw [Mem.bytes, before.here] at empty
      exact absurd empty comes.filled
  | finds pc needs filled =>
      rw [pc] at stage
      have before : Before ring s t s.call := stage
      exact stops.turn holds (before.turn before.along.call)
  | fails pc error =>
      rw [pc] at stage
      have before : Before ring s t s.call := stage
      rw [before.status comes, passes] at error
      cases error
  | passes pc =>
      rw [pc] at stage
      have before : Before ring s t s.call := stage
      exact stops.turn holds (before.turn before.along.call)
  | loadBytes pc =>
      rw [pc] at stage
      have before : Before ring s t s.call := stage
      have fits : min (samplesOf t.mem t.call.rp) t.call.remaining = s.fits := by
        rw [samplesOf, Mem.bytes, before.here, before.along.call, Channel.fits, ← Nat.min_def]
        rfl
      exact stops.turn holds ⟨fits, before.turn before.along.call⟩
  | success pc status =>
      rw [pc] at stage
      exact absurd ((stage.2.status comes).symm.trans status) noSuccess
  | breaks pc status | tolerates pc status =>
      rw [pc] at stage
      exact absurd ((stage.2.status comes).symm.trans status) noBreak
  | ends pc =>
      rw [pc] at stage
      obtain ⟨rfl, before⟩ := stage
      exact stops.turn holds ⟨rfl, before.turn before.along.call⟩
  | copyLast pc =>
      rw [pc] at stage
      obtain ⟨rfl, before⟩ := stage
      refine stops.turn holds (before.turn ?_)
      rw [Mem.data, before.here, before.along.call]
      rfl
  | dropBytes pc =>
      obtain ⟨along, sound⟩ := stops.drop pc
      exact ⟨holds, sound,
        fun x => (Mem.modify_field Block.next t.mem t.call.rp (setBytes 0) rfl x).trans
          (stops.links x), along⟩
  | dropFollow pc =>
      rw [pc] at stage
      have along : Along ring s t s.copied (samplesOf s.mem s.call.rp) := stage
      refine stops.turn holds { call := ?_, reports := along.reports, count := along.count }
      simp only [along.call, stops.links]
      rfl
  | dropRet | storeRp | stopFill => exact stops.turn holds trivial
  | join => exact ⟨holds, trivial, stops.links, trivial⟩
  | setFill pc | create pc | loadRp pc | copy pc | usesUp pc | leaves pc | clear pc | follow pc
  | shrink pc | shift pc =>
      rw [pc] at stage
      exact absurd stage not_false

/-- **A calm step** of a read that stops at its block. -/
theorem stops_step (comes : s.ComesTo c) (ends : endsRead c = true) {act : Act α}
    (stops : Stops buf ring s t) (calm : Calm t act) (step : channelStep copy t act = some u) :
    Stops buf ring s u := by
  cases act with
  | call nSamp => exact absurd calm not_false
  | reader => exact stops_reader comes ends stops step
  | fill status samples =>
      exact stops.beside comes.filled (beside_fill stops.holds stops.sound calm step)
        (holds_fill stops.holds (fun _ _ => trivial) step)

theorem stops_reach (comes : s.ComesTo c) (ends : endsRead c = true)
    (holds : s.Holds (fun _ => True) buf ring) (sound : fillSound (s.mem.block s.fillWp) s.fill)
    (reached : (channelFrom copy s).ReachUnder Calm t) : Stops buf ring s t := by
  refine reached.invariant (I := Stops buf ring s) ?_ ?_
  · rintro _ rfl
    refine ⟨holds, sound, fun _ => rfl, ?_⟩
    rw [comes.reader]
    exact ⟨⟨rfl, rfl, rfl⟩, rfl⟩
  · intro v act w stops calm step
    exact stops_step comes ends stops calm step

/-! ## From the status to the return -/

/-- The read that has taken its status in `t`, up to its return. -/
def returnStage (ring : List Nat) (t u : Channel α) : ReaderPc → Prop
  | .storeRp => Along ring t u t.call 0
  | .stopFill => Along ring t u t.call 0
  | .join => Along ring t u t.call 0
  | .idle =>
      u.reports = t.reports ++ [(t.call.ret, if t.call.ret.isError then [] else t.call.out)] ∧
        u.held ring + t.produced.length = t.held ring + u.produced.length
  | _ => False

structure Returning (buf : Nat) (ring : List Nat) (t u : Channel α) : Prop where
  holds : u.Holds (fun _ => True) buf ring
  sound : fillSound (u.mem.block u.fillWp) u.fill
  stage : returnStage ring t u u.reader

theorem Returning.beside {v : Channel α} (returning : Returning buf ring t u)
    (beside : Beside ring u v) (holds : v.Holds (fun _ => True) buf ring) :
    Returning buf ring t v where
  holds := holds
  sound := beside.sound
  stage := by
    have stage := returning.stage
    rw [beside.reader]
    cases pc : u.reader with
    | storeRp | stopFill | join =>
        rw [pc] at stage
        exact Along.beside stage beside
    | idle =>
        rw [pc] at stage
        refine ⟨beside.reports.trans stage.1, ?_⟩
        have before := stage.2
        have now := beside.count
        omega
    | _ =>
        rw [pc] at stage
        exact absurd stage not_false

theorem returning_reader {v : Channel α} (returning : Returning buf ring t u)
    (step : readerStep copy u = some v) : Returning buf ring t v := by
  have holds := holds_reader returning.holds step
  have stage := returning.stage
  cases readerMove_of_step step with
  | storeRp pc | stopFill pc =>
      rw [pc] at stage
      have along : Along ring t u t.call 0 := stage
      exact ⟨holds, returning.sound, ⟨along.call, along.reports, along.count⟩⟩
  | join pc exited =>
      rw [pc] at stage
      have along : Along ring t u t.call 0 := stage
      have sound := returning.sound
      rw [exited] at sound
      have passes : IoStatus.isError _ = false := sound
      refine ⟨holds, trivial, ?_, ?_⟩
      · simp only [passes, along.call, along.reports, Bool.false_eq_true, if_false]
      · have count := along.count
        simp only [Channel.held, exited, FillPc.reading] at count ⊢
        omega
  | waits pc | setFill pc | create pc | loadRp pc | served pc | finds pc | fails pc | passes pc
  | loadBytes pc | success pc | breaks pc | tolerates pc | ends pc | copy pc | usesUp pc | leaves pc
  | clear pc | follow pc | shrink pc | shift pc | copyLast pc | dropBytes pc | dropFollow pc
  | dropRet pc =>
      rw [pc] at stage
      exact absurd stage not_false

theorem returning_reach (holds : t.Holds (fun _ => True) buf ring)
    (sound : fillSound (t.mem.block t.fillWp) t.fill) (reader : t.reader = .storeRp)
    (reached : (channelFrom copy t).ReachUnder Calm u) : Returning buf ring t u := by
  refine reached.invariant (I := Returning buf ring t) ?_ ?_
  · rintro _ rfl
    refine ⟨holds, sound, ?_⟩
    rw [reader]
    exact ⟨rfl, rfl, rfl⟩
  · intro v act w returning calm step
    cases act with
    | call nSamp => exact absurd calm not_false
    | reader => exact returning_reader returning step
    | fill status samples =>
        exact returning.beside (beside_fill returning.holds returning.sound calm step)
          (holds_fill returning.holds (fun _ _ => trivial) step)

end Stops

/-! ## The whole branch -/

/-- Every sample a block counts is stored in it, and so are the samples that the fill thread is
about to count and those that the reader is about to move. -/
structure Channel.Stored (s : Channel α) : Prop where
  blocks : ∀ x, samplesOf s.mem x ≤ (s.mem.data x).length
  shifting : ∀ n, s.reader = .shift n →
    n + samplesOf s.mem s.call.rp ≤ (s.mem.data s.call.rp).length
  filling : s.fill.reading ≤ (s.mem.data s.fillWp).length

section Stored

variable {copy : Memcpy α} {buf : Nat} {ring : List Nat} {s t : Channel α} {P : α → Prop}

/-- The thread moves on without touching a block. -/
theorem Channel.Stored.turn (stored : s.Stored) (mem : t.mem = s.mem)
    (shifting : ∀ n, t.reader ≠ .shift n) (fillWp : t.fillWp = s.fillWp)
    (filling : t.fill.reading ≤ s.fill.reading) : t.Stored where
  blocks := by
    rw [mem]
    exact stored.blocks
  shifting := fun n pc => absurd pc (shifting n)
  filling := by
    rw [mem, fillWp]
    exact Nat.le_trans filling stored.filling

/-- The reader counts fewer samples in its block, which keeps its length. -/
theorem Channel.Stored.fewer (stored : s.Stored) {f : Block α → Block α} {pc : ReaderPc}
    (bytes : (f (s.mem.block s.call.rp)).bytes ≤ s.mem.bytes s.call.rp)
    (length : (f (s.mem.block s.call.rp)).data.length = (s.mem.data s.call.rp).length)
    (shifting : ∀ n, pc = .shift n →
      n + (f (s.mem.block s.call.rp)).bytes / sampleBytes ≤ (s.mem.data s.call.rp).length) :
    Channel.Stored { s with mem := s.mem.modify s.call.rp f, reader := pc } where
  blocks := by
    intro x
    by_cases here : x = s.call.rp
    · subst here
      have before := stored.blocks s.call.rp
      have fewer : (f (s.mem.block s.call.rp)).bytes / sampleBytes ≤ samplesOf s.mem s.call.rp :=
        Nat.div_le_div_right bytes
      simp only [samplesOf, Mem.bytes, Mem.data, Mem.modify_block_self] at before fewer length ⊢
      omega
    · simpa only [samplesOf, Mem.bytes, Mem.data, Mem.modify_block_of_ne s.mem f here] using
        stored.blocks x
  shifting := by
    intro n shift
    simpa [samplesOf, Mem.bytes, Mem.data, length] using shifting n shift
  filling := by
    have before := stored.filling
    by_cases here : s.fillWp = s.call.rp
    · rw [here] at before ⊢
      simpa [Mem.data, length] using before
    · simpa only [Mem.data, Mem.modify_block_of_ne s.mem f here] using before

theorem stored_reader (inv : s.Holds P buf ring) (stored : s.Stored)
    (step : readerStep copy s = some t) : t.Stored := by
  have reads := inv.reads
  have blocks := stored.blocks s.call.rp
  cases readerMove_of_step step with
  | waits => exact stored
  | clear | dropBytes => exact stored.fewer (Nat.zero_le _) rfl (by simp)
  | shrink pc =>
      rename_i n
      rw [pc] at reads
      have some : n * sampleBytes < (s.mem.block s.call.rp).bytes := reads
      refine stored.fewer (Nat.sub_le _ _) rfl ?_
      rintro _ ⟨⟩
      simp only [samplesOf, Mem.bytes] at blocks
      rw [Nat.mul_comm n, Nat.sub_mul_div]
      have within : n ≤ (s.mem.block s.call.rp).bytes / sampleBytes :=
        (Nat.le_div_iff_mul_le (by decide)).mpr (Nat.le_of_lt some)
      omega
  | shift pc =>
      have room := stored.shifting _ pc
      refine stored.fewer le_rfl ?_ (by simp)
      simp only [samplesOf, Mem.bytes, Mem.data] at room
      simp only [shiftSamples, List.length_append, copy.length_moved, List.length_take,
        List.length_drop, Mem.data]
      generalize (s.mem.block s.call.rp).bytes / sampleBytes = left at room ⊢
      omega
  | create | join => exact stored.turn rfl (by simp) rfl (Nat.zero_le _)
  | _ => exact stored.turn rfl (by simp) rfl le_rfl

/-- The fill thread changes its block, which the reader does not work on. -/
theorem Channel.Stored.more (inv : s.Holds P buf ring) (stored : s.Stored)
    {f : Block α → Block α} {pc : FillPc} {produced : List α} (held : s.fill.holding = true)
    (bytes : (f (s.mem.block s.fillWp)).bytes / sampleBytes ≤
      (f (s.mem.block s.fillWp)).data.length)
    (filling : pc.reading ≤ (f (s.mem.block s.fillWp)).data.length) :
    Channel.Stored { s with mem := s.mem.modify s.fillWp f, fill := pc, produced := produced } where
  blocks := by
    intro x
    by_cases here : x = s.fillWp
    · subst here
      simpa [samplesOf, Mem.bytes, Mem.data] using bytes
    · simpa only [samplesOf, Mem.bytes, Mem.data, Mem.modify_block_of_ne s.mem f here] using
        stored.blocks x
  shifting := by
    intro n shift
    have away : s.call.rp ≠ s.fillWp := by
      intro here
      have some := inv.working (by rw [show s.reader = .shift n from shift]; rfl)
      exact some (here ▸ inv.holding held)
    simpa only [samplesOf, Mem.bytes, Mem.data, Mem.modify_block_of_ne s.mem f away] using
      stored.shifting n shift
  filling := by simpa [Mem.data] using filling

theorem stored_fill {status : IoStatus} {samples : List α} (inv : s.Holds P buf ring)
    (stored : s.Stored) (step : fillStep s status samples = some t) : t.Stored := by
  have filling := stored.filling
  have blocks := stored.blocks s.fillWp
  have goto : ∀ (pc : FillPc) (wp fillWp : Nat), pc.reading = 0 →
      Channel.Stored { s with fill := pc, wp := wp, fillWp := fillWp } := by
    intro pc wp fillWp none
    exact ⟨stored.blocks, stored.shifting, by simp only [none]; exact Nat.zero_le _⟩
  unfold fillStep at step
  cases pc : s.fill with
  | absent => simp [pc] at step
  | exited rval => simp [pc] at step
  | testFill | testBytes =>
      rw [pc] at step
      cases step
      exact goto _ _ _ (by split <;> rfl)
  | hwRead =>
      have held : s.fill.holding = true := by rw [pc]; rfl
      simp only [pc] at step
      split at step
      · cases step
        refine stored.more inv held ?_ ?_
        · simp only [samplesOf, Mem.bytes, Mem.data] at blocks
          simp only [storeData, List.length_append, List.length_drop]
          omega
        · simp [storeData, FillPc.reading]
      · cases step
  | storeRet status' n =>
      have held : s.fill.holding = true := by rw [pc]; rfl
      rw [pc] at step filling
      cases step
      exact stored.more inv held blocks filling
  | testRet n =>
      rw [pc] at step filling
      cases step
      refine ⟨stored.blocks, stored.shifting, ?_⟩
      simp only
      split
      · exact Nat.zero_le _
      · exact filling
  | storeBytes n =>
      have held : s.fill.holding = true := by rw [pc]; rfl
      have count : n * sampleBytes / sampleBytes = n := Nat.mul_div_cancel n (by decide)
      rw [pc] at step filling
      cases step
      refine stored.more inv held ?_ (Nat.zero_le _)
      simp only [setBytes, count]
      exact filling
  | start | follow | storeWp rval =>
      rw [pc] at step
      cases step
      exact goto _ _ _ rfl

end Stored

/-- The blocks of a channel that runs are a ring, and what they count is stored. -/
theorem holds_reached {copy : Memcpy α} {s : Channel α} (reached : (channelSystem copy).Reach s) :
    (∃ buf ring, s.Holds (fun _ => True) buf ring) ∧ s.Stored := by
  refine reached.invariant (I := fun s =>
    (∃ buf ring, Channel.Holds (fun _ => True) buf ring s) ∧ Channel.Stored s) ?_ ?_
  · rintro _ ⟨bytesPerBlock, nBlocks, freeram, -, some, -, rfl⟩
    obtain ⟨size, ring, nonempty, layout⟩ :=
      newRing_layout_any (α := α) bytesPerBlock freeram some
    have empty := newRing_bytes (α := α) bytesPerBlock nBlocks freeram
    have holds := holds_of_empty (P := fun _ => True) (s := blbInitRw bytesPerBlock nBlocks freeram)
      ⟨layout.toRp, nonempty, layout.nodup, layout.inside⟩ empty (layout.toRp.start_mem nonempty)
      rfl rfl
    refine ⟨⟨_, ring, holds⟩, ?_, by simp [blbInitRw], Nat.zero_le _⟩
    intro x
    rw [samplesOf, show (blbInitRw bytesPerBlock nBlocks freeram).mem.bytes x = 0 from empty x]
    exact Nat.zero_le _
  · rintro v act w ⟨⟨buf, ring, holds⟩, stored⟩ - step
    refine ⟨⟨buf, ring, holds_step holds (fun _ _ _ _ _ => trivial) step⟩, ?_⟩
    cases act with
    | call nSamp =>
        simp only [channelSystem, channelStep] at step
        split at step
        · cases step
          exact stored.turn rfl (by simp) rfl le_rfl
        · cases step
    | reader => exact stored_reader holds stored step
    | fill status samples => exact stored_fill holds stored step

/-- The ring goes through the block at which a read stands. -/
theorem Channel.Holds.mem_iff_iterate {P : α → Prop} {buf : Nat} {ring : List Nat} {s : Channel α}
    (holds : s.Holds P buf ring) (filled : s.mem.bytes s.call.rp ≠ 0) (x : Nat) :
    x ∈ ring ↔ ∃ k, s.mem.next^[k] s.call.rp = x := by
  obtain ⟨rest, turned, same⟩ := holds.linked.chain.rotate (holds.filled _ filled)
  rw [← same.mem_iff, turned.mem_iff_iterate (by simp)]

/-- **The status that ends a read.** Whatever the ring holds, wherever the two positions are and
however the fill thread moves beside it, as long as the hardware reports no error: a read that comes
to a block with a status `c` above `IO_SUCCESS`, other than `IO_DATABREAK`, returns `c` and drops no
sample exactly when the block behind has the status `c` at the moment it is taken, and the request
has room for all samples of its block. -/
theorem end_status_iff {copy : Memcpy α} {s t t' u : Channel α} {c : IoStatus}
    (started : (channelSystem copy).Reach s) (sound : fillSound (s.mem.block s.fillWp) s.fill)
    (comes : s.ComesTo c) (ends : endsRead c = true)
    (reached : (channelFrom copy s).ReachUnder Calm t) (taking : t.reader = .dropRet)
    (taken : readerStep copy t = some t') (returning : (channelFrom copy t').ReachUnder Calm u)
    (returned : u.reader = .idle) :
    ∃ ring status samples, ring.Nodup ∧ (∀ x, x ∈ ring ↔ ∃ k, s.mem.next^[k] s.call.rp = x) ∧
      (∀ x, s.mem.bytes x ≠ 0 → x ∈ ring) ∧ u.reports = s.reports ++ [(status, samples)] ∧
      (status = c ∧ Keeps ring s u s.call.out samples ↔
        retOf t.mem (s.mem.next s.call.rp) = c ∧
          samplesOf s.mem s.call.rp ≤ s.call.remaining) := by
  obtain ⟨⟨buf, ring, holds⟩, filled⟩ := holds_reached started
  have stops := stops_reach comes ends holds sound reached
  have stage := stops.stage
  rw [taking] at stage
  have along : Along ring s t { s.copied with rp := s.mem.next s.call.rp }
    (samplesOf s.mem s.call.rp) := stage
  have after : t' = { t with call := { t.call with ret := retOf t.mem t.call.rp },
                             reader := .storeRp } := by
    simp only [readerStep, taking, Option.some.injEq] at taken
    exact taken.symm
  have kept : t'.Holds (fun _ => True) buf ring := holds_reader stops.holds taken
  subst after
  have ended := (returning_reach kept stops.sound rfl returning).stage
  rw [returned] at ended
  obtain ⟨reports, count⟩ := ended
  simp only [along.call, along.reports] at reports
  refine ⟨ring, _, _, holds.linked.nodup, holds.mem_iff_iterate comes.filled, holds.filled, reports,
    ?_⟩
  refine and_congr_right fun behind => ?_
  have passes : c.isError = false := by cases c <;> simp_all [endsRead, IoStatus.isError]
  have first := along.count
  have out : s.copied.out.length = s.call.out.length + s.fits := by
    have stored := filled.blocks s.call.rp
    rw [Channel.copied, List.length_append, List.length_take, Channel.fits]
    split <;> omega
  simp only [behind, passes, Bool.false_eq_true, if_false, Keeps, out]
  simp only [Channel.held] at first count ⊢
  rw [Channel.fits]
  split <;> omega

theorem reach_of_calm {copy : Memcpy α} {s t u : Channel α}
    (reached : (channelFrom copy s).ReachUnder Calm t) {acts : List (Act α)}
    (calm : ∀ act ∈ acts, Calm s act) (run : (channelSystem copy).exec t acts = some u) :
    (channelFrom copy s).ReachUnder Calm u := by
  induction acts generalizing t with
  | nil =>
      obtain rfl : t = u := by simpa [System.exec] using run
      exact reached
  | cons act acts ih =>
      obtain ⟨v, step, run⟩ := Option.bind_eq_some_iff.mp run
      exact ih (.step reached (calm act (by simp)) step)
        (fun other member => calm other (List.mem_cons_of_mem _ member)) run

/-! ### Two reads -/

/-- Two blocks of two samples. -/
def twoBlocks : Channel Nat := blbInitRw 16 2 100

/-- The channel with these, in which no `memcpy` is made on areas that overlap. -/
abbrev twoReads : System (Channel Nat) (Act Nat) := channelSystem .memmove

/-- A read up to the block that the fill thread has filled for it. -/
def readTo (nSamp : Nat) (status : IoStatus) : List (Act Nat) :=
  [.call nSamp] ++ List.replicate 3 .reader ++ List.replicate 8 (.fill status [1, 2])

/-- From there to the moment at which the status is taken. -/
def readPast : List (Act Nat) := List.replicate 7 .reader

/-- The return. -/
def readOut : List (Act Nat) :=
  List.replicate 2 .reader ++ List.replicate 2 (.fill .success []) ++ [.reader]

theorem twoBlocks_start : twoReads.start twoBlocks :=
  ⟨16, 2, 100, by decide, by decide, by decide, rfl⟩

/-- Both blocks hold `IO_COMPLETE`, and the request takes all samples of the first. -/
theorem end_status_complete :
    ∃ (s u : Channel Nat) (ring : List Nat), s.ComesTo .complete ∧
      (channelFrom .memmove s).ReachUnder Calm u ∧ (∀ x, s.mem.bytes x ≠ 0 → x ∈ ring) ∧
      u.reports = [(.complete, [1, 2])] ∧
      Keeps ring s u s.call.out [1, 2] := by
  let acts := readTo 2 .complete ++ List.replicate 7 (.fill .complete [3, 4])
  have first : (twoReads.exec twoBlocks acts).map
      (fun s => (s.reader, s.call.remaining, s.mem.bytes s.call.rp, s.mem.data s.call.rp,
        retOf s.mem s.call.rp)) = some (.wait, 2, 16, [1, 2], .complete) := by
    decide +kernel
  have beside : (twoReads.exec twoBlocks acts).map
      (fun s => (s.fill, s.mem.next s.call.rp, s.reports)) = some (.testFill, 2, []) := by
    decide +kernel
  have second : (twoReads.exec twoBlocks (acts ++ readPast)).map
      (fun t => (t.reader, retOf t.mem 2)) = some (.dropRet, .complete) := by
    decide +kernel
  have third : (twoReads.exec twoBlocks (acts ++ readPast ++ .reader :: readOut)).map
      (fun u => (u.reader, u.reports)) = some (.idle, [(.complete, [1, 2])]) := by
    decide +kernel
  obtain ⟨s, run, at_s⟩ := Option.map_eq_some_iff.mp first
  rw [run, Option.map_some, Option.some.injEq] at beside
  rw [System.exec_append, run, Option.bind_some] at second
  rw [List.append_assoc, System.exec_append, run, Option.bind_some, System.exec_append] at third
  obtain ⟨t, past, at_t⟩ := Option.map_eq_some_iff.mp second
  rw [past, Option.bind_some] at third
  obtain ⟨u, out, at_u⟩ := Option.map_eq_some_iff.mp third
  obtain ⟨t', taken, out⟩ := Option.bind_eq_some_iff.mp out
  simp only [Prod.mk.injEq] at at_s beside at_t at_u
  obtain ⟨reader, remaining, bytes, data, status⟩ := at_s
  obtain ⟨fill, next, reports⟩ := beside
  have started : twoReads.Reach s := .exec (.start twoBlocks_start) run
  have comes : s.ComesTo .complete :=
    ⟨reader, by simp [remaining], by simp [bytes], status⟩
  have sound : fillSound (s.mem.block s.fillWp) s.fill := by
    rw [fill]
    trivial
  have reached : (channelFrom .memmove s).ReachUnder Calm t :=
    reach_of_calm (.start rfl) (by simp [readPast, Calm]) past
  have returning : (channelFrom .memmove t').ReachUnder Calm u :=
    reach_of_calm (.start rfl) (by simp [readOut, Calm, IoStatus.isError]) out
  have through : (channelFrom .memmove s).ReachUnder Calm u :=
    reach_of_calm (.step reached (show Calm t .reader from trivial) taken)
      (by simp [readOut, Calm, IoStatus.isError]) out
  obtain ⟨ring, status', samples, nodup, -, inside, ended, exact⟩ :=
    end_status_iff started sound comes rfl reached at_t.1 taken returning at_u.1
  rw [at_u.2, reports, List.nil_append] at ended
  cases ended
  refine ⟨s, u, ring, comes, through, inside, at_u.2, (exact.mpr ⟨?_, ?_⟩).2⟩
  · rw [next]
    exact at_t.2
  · simp [samplesOf, bytes, remaining, sampleBytes]

/-- The block behind holds `IO_SUCCESS` and the request takes one of the two samples of a block with
`IO_COMPLETE`: the read returns `IO_SUCCESS`, no block holds the second sample any more, and the
next read goes on behind it. -/
theorem status_of_block_behind :
    ∃ s u v : Channel Nat, s.ComesTo .complete ∧ (channelFrom .memmove s).ReachUnder Calm u ∧
      u.reports = [(.success, [1])] ∧ u.produced = [1, 2] ∧ u.held [1, 2] = 0 ∧
      twoReads.Reach v ∧ v.reports = [(.success, [1]), (.success, [3])] := by
  let acts := readTo 1 .complete
  let rest := readPast ++ .reader :: readOut
  let later : List (Act Nat) := [Act.call 1] ++ List.replicate 3 Act.reader ++
    List.replicate 8 (Act.fill .success [3, 4]) ++ List.replicate 11 Act.reader ++
    List.replicate 2 (Act.fill .success []) ++ [Act.reader]
  have first : (twoReads.exec twoBlocks acts).map
      (fun s => (s.reader, s.call.remaining, s.mem.bytes s.call.rp, s.mem.data s.call.rp,
        retOf s.mem s.call.rp)) = some (.wait, 1, 16, [1, 2], .complete) := by
    decide +kernel
  have second : (twoReads.exec twoBlocks (acts ++ rest)).map
      (fun u => (u.reports, u.produced, u.held [1, 2])) =
      some ([(.success, [1])], [1, 2], 0) := by
    decide +kernel
  have third : (twoReads.exec twoBlocks (acts ++ rest ++ later)).map
      (fun v => v.reports) = some [(.success, [1]), (.success, [3])] := by
    decide +kernel
  obtain ⟨s, run, at_s⟩ := Option.map_eq_some_iff.mp first
  obtain ⟨v, run_v, at_v⟩ := Option.map_eq_some_iff.mp third
  rw [System.exec_append, run, Option.bind_some] at second
  obtain ⟨u, past, at_u⟩ := Option.map_eq_some_iff.mp second
  simp only [Prod.mk.injEq] at at_s at_u
  obtain ⟨reader, remaining, bytes, data, status⟩ := at_s
  have comes : s.ComesTo .complete :=
    ⟨reader, by simp [remaining], by simp [bytes], status⟩
  have through : (channelFrom .memmove s).ReachUnder Calm u :=
    reach_of_calm (.start rfl) (by simp [rest, readPast, readOut, Calm, IoStatus.isError]) past
  exact ⟨s, u, v, comes, through, at_u.1, at_u.2.1, at_u.2.2,
    .exec (.start twoBlocks_start) run_v, at_v⟩

end Bingewatch.Sdr
