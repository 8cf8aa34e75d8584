import Bingewatch.Sdr.Delivery

/-!
# When a buffered read waits for a dead producer

The fill thread of a call exits on its own when the hardware reports an error and when it meets a
block that is not empty. The reader looks only at the byte count of the block at its position, so a
reader that needs more samples than the blocks hold by then waits for ever
(`stranded_forever`).

Whether it comes to that is decided when the fill thread leaves its loop. The reader is served if
the unbroken run of full blocks ahead of it holds as many samples as it still has to collect, or has
a block in it that ends a read early (`Channel.Supply`). `supplied_never_stranded` says that no
reader is stranded in a run in which the fill thread leaves its loop, for one of the two reasons,
only then; and that whenever it leaves earlier, the reader's own steps lead to a state in which it
is stranded.

`covers` follows the reader through the blocks ahead of it, and gives the same answer as the sum of
the samples (`enough_iff_covers`). No step of the reader changes it (`covered_iff`).
-/

set_option autoImplicit false

namespace Bingewatch.Sdr

open Foundation Machine Buffer

variable {α : Type} {copy : Memcpy α}

/-! ## What the reader still needs -/

/-- A run of full blocks serves a reader that has collected `collected` samples and needs
`remaining` more: it holds as many, or it has a block with a status that ends the read. A block with
`IO_DATABREAK` ends the read when there are samples before it. -/
def Enough (m : Mem α) (run : List Nat) (remaining collected : Nat) : Prop :=
  remaining ≤ (run.map (samplesOf m)).sum ∨
    ∃ before b after, run = before ++ b :: after ∧ retOf m b ≠ .success ∧
      (retOf m b = .databreak → 0 < collected + (before.map (samplesOf m)).sum)

/-- The ring from a block on, without the block itself. -/
def RingFrom (m : Mem α) (b : Nat) (rest : List Nat) : Prop :=
  Chain m.next b (b :: rest) b ∧ (b :: rest).Nodup

/-- How far a call has come with the block at its position: it has not loaded the position, it has
not copied, it has copied, it has emptied the block; it will look at no block any more, and has
stored its position. -/
inductive Stage where
  | before
  | here
  | past
  | behind
  | over
  | done
  deriving DecidableEq, Repr

def ReaderPc.stage : ReaderPc → Stage
  | .setFill => .before
  | .create => .before
  | .loadRp => .before
  | .wait => .here
  | .testRet => .here
  | .loadBytes => .here
  | .switch _ => .here
  | .copy _ => .here
  | .testAll _ => .past
  | .clear => .past
  | .shrink _ => .past
  | .shift _ => .past
  | .follow => .behind
  | .idle => .done
  | .stopFill => .done
  | .join => .done
  | _ => .over

/-- The block at which the reader stands. -/
def Channel.position (s : Channel α) : Nat :=
  match s.reader.stage with
  | .before => s.rp
  | .done => s.rp
  | _ => s.call.rp

/-- The blocks of the ring that the reader has ahead of it, once round. -/
def Channel.ahead (s : Channel α) (rest : List Nat) : List Nat :=
  match s.reader.stage with
  | .past => rest
  | .behind => rest ++ [s.call.rp]
  | _ => s.position :: rest

/-- The full blocks ahead of the reader hold what it still has to collect, or one of them ends the
read. -/
def Channel.Supply (s : Channel α) : Prop :=
  s.reader.stage = .over ∨ s.reader.stage = .done ∨ ∃ rest, RingFrom s.mem s.position rest ∧
    Enough s.mem ((s.ahead rest).takeWhile fun b => s.mem.bytes b ≠ 0) s.call.remaining
      s.call.out.length

/-- The fill thread has left its loop. -/
def FillPc.dead : FillPc → Bool
  | .storeWp _ => true
  | .exited _ => true
  | _ => false

/-- The fill thread is gone, and the reader waits at an empty block for samples it still needs. -/
def Channel.Stranded (s : Channel α) : Prop :=
  s.fill.dead = true ∧ s.reader = .wait ∧ s.call.remaining ≠ 0 ∧ s.mem.bytes s.call.rp = 0

/-- The fill thread leaves its loop at a block that is not empty, or after an error of the hardware,
only when the full blocks ahead of the reader serve it. -/
def Supplied (s : Channel α) : Act α → Prop
  | .fill _ _ =>
      (s.fill = .testBytes → s.mem.bytes s.fillWp ≠ 0 → s.Supply) ∧
      ∀ n, s.fill = .testRet n → (retOf s.mem s.fillWp).isError = true → s.Supply
  | _ => True

/-- **A stranded reader stays stranded**, whatever step is taken. -/
theorem stranded_forever {s t : Channel α} {act : Act α} (stranded : s.Stranded)
    (step : (channelSystem copy).step s act = some t) : t.Stranded := by
  obtain ⟨dead, pc, needs, empty⟩ := stranded
  cases act with
  | call nSamp => simp [channelSystem, channelStep, pc] at step
  | reader =>
      simp only [channelSystem, channelStep, readerStep, pc, if_neg needs, if_pos empty,
        Option.some.injEq] at step
      subst step
      exact ⟨dead, pc, needs, empty⟩
  | fill status samples =>
      cases there : s.fill with
      | storeWp rval =>
          simp only [channelSystem, channelStep, fillStep, there, Option.some.injEq] at step
          subst step
          exact ⟨rfl, pc, needs, empty⟩
      | exited rval => simp [channelSystem, channelStep, fillStep, there] at step
      | _ => simp [there, FillPc.dead] at dead

/-! ## The reader's way through the blocks ahead -/

/-- Block by block: a reader that still has to collect `remaining` samples and has collected
`collected` ends before it comes to an empty block. -/
def covers (m : Mem α) : (blocks : List Nat) → (remaining collected : Nat) → Bool
  | _, 0, _ => true
  | [], _ + 1, _ => false
  | b :: rest, remaining + 1, collected =>
      if m.bytes b = 0 then false
      else
        match retOf m b with
        | .success => covers m rest (remaining + 1 - samplesOf m b) (collected + samplesOf m b)
        | .databreak =>
            if 0 < collected then true
            else covers m rest (remaining + 1 - samplesOf m b) (collected + samplesOf m b)
        | _ => true

@[simp] theorem covers_zero (m : Mem α) (blocks : List Nat) (collected : Nat) :
    covers m blocks 0 collected = true := by
  cases blocks <;> rfl

/-- A block that ends no read is passed. -/
theorem covers_cons {m : Mem α} {b : Nat} {rest : List Nat} {remaining collected : Nat}
    (filled : m.bytes b ≠ 0)
    (passes : retOf m b = .success ∨ retOf m b = .databreak ∧ collected = 0) :
    covers m (b :: rest) remaining collected =
      covers m rest (remaining - samplesOf m b) (collected + samplesOf m b) := by
  cases remaining with
  | zero => simp
  | succ remaining =>
      rcases passes with success | ⟨databreak, none⟩
      · simp [covers, filled, success]
      · simp [covers, filled, databreak, none]

/-- A block that ends the read. -/
theorem covers_of_ends {m : Mem α} {b : Nat} (rest : List Nat) (remaining : Nat) {collected : Nat}
    (filled : m.bytes b ≠ 0) (noSuccess : retOf m b ≠ .success)
    (breaks : retOf m b = .databreak → 0 < collected) :
    covers m (b :: rest) remaining collected = true := by
  cases remaining with
  | zero => simp
  | succ remaining =>
      rw [covers, if_neg filled]
      split
      · next success => exact absurd success noSuccess
      · next databreak => exact if_pos (breaks databreak)
      · rfl

/-- An empty block serves nobody. -/
theorem covers_of_empty {m : Mem α} {b : Nat} (rest : List Nat) (remaining collected : Nat)
    (empty : m.bytes b = 0) :
    covers m (b :: rest) remaining collected = true ↔ remaining = 0 := by
  cases remaining with
  | zero => simp
  | succ remaining => simp [covers, empty]

/-- A block ends a read that has collected so many samples, or it is passed. -/
theorem ends_or_passes (m : Mem α) (b collected : Nat) :
    (retOf m b ≠ .success ∧ (retOf m b = .databreak → 0 < collected)) ∨
      (retOf m b = .success ∨ retOf m b = .databreak ∧ collected = 0) := by
  by_cases success : retOf m b = .success
  · exact Or.inr (Or.inl success)
  · by_cases databreak : retOf m b = .databreak
    · rcases Nat.eq_zero_or_pos collected with none | some
      · exact Or.inr (Or.inr ⟨databreak, none⟩)
      · exact Or.inl ⟨success, fun _ => some⟩
    · exact Or.inl ⟨success, fun is => absurd is databreak⟩

theorem covers_congr {m m' : Mem α} {blocks : List Nat} (remaining collected : Nat)
    (same : ∀ x ∈ blocks, m'.block x = m.block x) :
    covers m' blocks remaining collected = covers m blocks remaining collected := by
  induction blocks generalizing remaining collected with
  | nil => cases remaining <;> rfl
  | cons b rest ih =>
      have here := same b (by simp)
      have bytes : m'.bytes b = m.bytes b := congrArg Block.bytes here
      have status : retOf m' b = retOf m b := congrArg Block.dRet here
      have samples : samplesOf m' b = samplesOf m b := congrArg (· / sampleBytes) bytes
      have later := fun r c => ih r c fun x member => same x (List.mem_cons_of_mem _ member)
      cases remaining with
      | zero => rfl
      | succ remaining => simp only [covers, bytes, status, samples, later]

/-- An empty block at the end adds nothing. -/
theorem covers_concat_empty {m : Mem α} {x : Nat} (blocks : List Nat) (remaining collected : Nat)
    (empty : m.bytes x = 0) :
    covers m (blocks ++ [x]) remaining collected = covers m blocks remaining collected := by
  induction blocks generalizing remaining collected with
  | nil =>
      cases remaining with
      | zero => simp
      | succ remaining => simp [covers, empty]
  | cons b rest ih =>
      by_cases full : m.bytes b = 0
      · rw [List.cons_append, Bool.eq_iff_iff, covers_of_empty _ _ _ full,
          covers_of_empty _ _ _ full]
      · rcases ends_or_passes m b collected with ⟨noSuccess, breaks⟩ | passes
        · rw [List.cons_append, covers_of_ends _ _ full noSuccess breaks,
            covers_of_ends _ _ full noSuccess breaks]
        · rw [List.cons_append, covers_cons full passes, covers_cons full passes, ih]

/-- Copying the samples of a block leaves the need to the blocks behind it. -/
theorem covers_copied {m : Mem α} {b remaining collected n : Nat} (rest : List Nat)
    (filled : m.bytes b ≠ 0) (count : n = min (samplesOf m b) remaining)
    (passes : retOf m b = .success ∨ retOf m b = .databreak ∧ collected = 0) :
    covers m rest (remaining - n) (collected + n) = covers m (b :: rest) remaining collected := by
  rw [covers_cons filled passes]
  by_cases all : remaining ≤ samplesOf m b
  · rw [Nat.sub_eq_zero_of_le all, show remaining - n = 0 by omega, covers_zero, covers_zero]
  · rw [show n = samplesOf m b by omega]

/-- A block that is passed serves with the samples it holds. -/
theorem enough_cons {m : Mem α} {b : Nat} {run : List Nat} {remaining collected : Nat}
    (passes : retOf m b = .success ∨ retOf m b = .databreak ∧ collected = 0) :
    Enough m (b :: run) remaining collected ↔
      Enough m run (remaining - samplesOf m b) (collected + samplesOf m b) := by
  have room : remaining ≤ ((b :: run).map (samplesOf m)).sum ↔
      remaining - samplesOf m b ≤ (run.map (samplesOf m)).sum := by
    rw [List.map_cons, List.sum_cons, Nat.sub_le_iff_le_add']
  refine or_congr room ⟨?_, ?_⟩
  · rintro ⟨before, x, after, split, noSuccess, breaks⟩
    cases before with
    | nil =>
        obtain ⟨rfl, -⟩ := List.cons.inj split
        rcases passes with success | ⟨databreak, none⟩
        · exact absurd success noSuccess
        · have some := breaks databreak
          simp [none] at some
    | cons y before =>
        obtain ⟨rfl, behind⟩ := List.cons.inj split
        refine ⟨before, x, after, behind, noSuccess, fun databreak => ?_⟩
        simpa [Nat.add_assoc] using breaks databreak
  · rintro ⟨before, x, after, rfl, noSuccess, breaks⟩
    refine ⟨b :: before, x, after, rfl, noSuccess, fun databreak => ?_⟩
    simpa [Nat.add_assoc] using breaks databreak

/-- **The sum tells what the way through the blocks does.** -/
theorem enough_iff_covers (m : Mem α) (blocks : List Nat) (remaining collected : Nat) :
    Enough m (blocks.takeWhile fun b => m.bytes b ≠ 0) remaining collected ↔
      covers m blocks remaining collected = true := by
  induction blocks generalizing remaining collected with
  | nil => cases remaining <;> simp [Enough, covers]
  | cons b rest ih =>
      by_cases full : m.bytes b = 0
      · rw [covers_of_empty _ _ _ full]
        simp [Enough, full]
      · rw [List.takeWhile_cons_of_pos (by simpa using full)]
        generalize rest.takeWhile (fun b => m.bytes b ≠ 0) = run at ih
        rcases ends_or_passes m b collected with ⟨noSuccess, breaks⟩ | passes
        · rw [covers_of_ends _ _ full noSuccess breaks]
          exact iff_of_true (Or.inr ⟨[], b, run, rfl, noSuccess, by simpa using breaks⟩) rfl
        · rw [covers_cons full passes, ← ih]
          exact enough_cons passes


/-! ## The invariant of every run -/

/-- There is one ring from a block on. -/
theorem RingFrom.unique {m : Mem α} {b : Nat} {rest rest' : List Nat} (ring : RingFrom m b rest)
    (ring' : RingFrom m b rest') : rest = rest' := by
  have ends {first second : List Nat} (nodup : (b :: (first ++ second)).Nodup)
      (back : Chain m.next b second b) : second = [] := by
    cases second with
    | nil => rfl
    | cons x second =>
        obtain rfl := back.start_eq_head
        simp at nodup
  rcases ring.1.compare ring'.1 with ⟨more, split, back⟩ | ⟨more, split, back⟩
  all_goals
    rw [List.cons_append] at split
    obtain rfl := (List.cons.inj split).2
  · rw [ends ring'.2 back, List.append_nil]
  · rw [ends ring.2 back, List.append_nil]

theorem ringFrom_modify {m : Mem α} {b x : Nat} {rest : List Nat} {f : Block α → Block α}
    (next : (f (m.block x)).next = m.next x) :
    RingFrom (m.modify x f) b rest ↔ RingFrom m b rest := by
  have links (y : Nat) : (m.modify x f).next y = m.next y :=
    Mem.modify_field Block.next m x f next y
  exact and_congr_left fun _ => ⟨fun chain => chain.congr fun y _ => (links y).symm,
    fun chain => chain.congr fun y _ => links y⟩

/-- A block that is cleared counts no more at the end of its ring. -/
theorem RingFrom.covers_cleared {m : Mem α} {b : Nat} {rest : List Nat} (ring : RingFrom m b rest)
    (remaining collected : Nat) :
    covers (m.modify b (setBytes 0)) (rest ++ [b]) remaining collected =
      covers m rest remaining collected := by
  have notRest : b ∉ rest := (List.nodup_cons.mp ring.2).1
  rw [covers_concat_empty _ _ _ (by simp [Mem.bytes, setBytes])]
  exact covers_congr _ _ fun x member =>
    Mem.modify_block_of_ne m _ fun here => notRest (here ▸ member)

/-- The ring seen from the next block. -/
theorem RingFrom.rotate {m : Mem α} {b : Nat} {rest : List Nat} (ring : RingFrom m b rest) :
    ∃ rest', RingFrom m (m.next b) rest' ∧ m.next b :: rest' = rest ++ [b] := by
  obtain ⟨⟨_, toB⟩, nodup⟩ := ring
  have chain : Chain m.next (m.next b) (rest ++ [b]) (m.next b) := toB.snoc
  have perm : (rest ++ [b]).Perm (b :: rest) := List.perm_append_singleton ..
  cases shape : rest ++ [b] with
  | nil => simp at shape
  | cons x rest' =>
      rw [shape] at chain perm
      obtain rfl : m.next b = x := chain.start_eq_head
      exact ⟨rest', ⟨chain, perm.nodup_iff.mpr nodup⟩, rfl⟩

/-- What the reader knows of the block it works on. -/
def readerKnows (b : Block α) (call : ReadCall α) : ReaderPc → Prop
  | .switch n => n = min (b.bytes / sampleBytes) call.remaining
  | .copy n => n = min (b.bytes / sampleBytes) call.remaining ∧
      (b.dRet = .success ∨ b.dRet = .databreak ∧ call.out.length = 0)
  | .testAll n => n ≤ b.bytes / sampleBytes ∧ (b.bytes = n * sampleBytes ∨ call.remaining = 0)
  | .shrink n => n < b.bytes / sampleBytes ∧ call.remaining = 0
  | .shift n => n + b.bytes / sampleBytes ≤ b.data.length ∧ call.remaining = 0
  | _ => True

theorem readerKnows_frame {b b' : Block α} {call : ReadCall α} {pc : ReaderPc}
    (same : pc.busy = true → b' = b) (knows : readerKnows b call pc) : readerKnows b' call pc := by
  cases busy : pc.busy with
  | true => rwa [same busy]
  | false => cases pc <;> first | exact knows | cases busy

/-- What the fill thread knows of the block it works on. -/
def fillKnows (b : Block α) : FillPc → Prop
  | .storeRet _ n => n ≤ b.data.length
  | .testRet n => n ≤ b.data.length
  | .storeBytes n => n ≤ b.data.length
  | _ => True

theorem fillKnows_frame {b b' : Block α} {pc : FillPc} (same : pc.holding = true → b' = b)
    (knows : fillKnows b pc) : fillKnows b' pc := by
  cases holding : pc.holding with
  | true => rwa [same holding]
  | false => cases pc <;> first | exact knows | cases holding

/-- A block holds whole samples, and has stored them. -/
def Whole (b : Block α) : Prop :=
  b.bytes = b.bytes / sampleBytes * sampleBytes ∧ b.bytes / sampleBytes ≤ b.data.length

/-- What holds of a channel along every run. -/
structure Channel.Tended (s : Channel α) : Prop where
  ring : ∃ rest, RingFrom s.mem s.position rest
  whole : ∀ x, Whole (s.mem.block x)
  holding : s.fill.holding = true → s.mem.bytes s.fillWp = 0
  busy : s.reader.busy = true → s.mem.bytes s.call.rp ≠ 0
  knows : readerKnows (s.mem.block s.call.rp) s.call s.reader
  fills : fillKnows (s.mem.block s.fillWp) s.fill
  alone : s.fill = .absent ↔ s.reader.alone = true
  stopped : s.doFill = false → s.reader = .idle ∨ s.reader = .setFill ∨ s.reader = .join

/-- A reader with a block at hand is in its loop: there is a fill thread, and nobody has told it to
leave. -/
theorem ReaderPc.inLoop {pc : ReaderPc} (begun : pc.stage ≠ .before) (going : pc.stage ≠ .done) :
    pc.alone = false ∧ pc ≠ .idle ∧ pc ≠ .setFill ∧ pc ≠ .join := by
  cases pc <;>
    first
      | exact absurd rfl begun
      | exact absurd rfl going
      | exact ⟨rfl, by simp⟩

namespace Channel.Tended

variable {s : Channel α}

/-- A reader that works on a block changes nothing of the block the fill thread holds. -/
theorem fillBlock_modify (inv : s.Tended) (busy : s.reader.busy = true) (f : Block α → Block α)
    (holding : s.fill.holding = true) :
    (s.mem.modify s.call.rp f).block s.fillWp = s.mem.block s.fillWp := by
  apply Mem.modify_block_of_ne s.mem f
  intro same
  exact inv.busy busy (same ▸ inv.holding holding)

/-- Blocks stay whole when one of them is changed to a whole one. -/
theorem whole_modify (inv : s.Tended) (x : Nat) {f : Block α → Block α}
    (changed : Whole (f (s.mem.block x))) (y : Nat) : Whole ((s.mem.modify x f).block y) := by
  by_cases here : y = x
  · subst here
    simpa using changed
  · rw [Mem.modify_block_of_ne s.mem f here]
    exact inv.whole y

/-- The reader moves on without touching a block. While it is in its loop the flag is up. -/
theorem turn (inv : s.Tended) {pc : ReaderPc} {call : ReadCall α} {rp : Nat}
    (inside : s.reader ≠ .idle ∧ s.reader ≠ .setFill ∧ s.reader ≠ .join)
    (ring : ∃ rest,
      RingFrom s.mem (Channel.position { s with rp := rp, reader := pc, call := call }) rest)
    (alone : pc.alone = s.reader.alone) (busy : pc.busy = true → s.mem.bytes call.rp ≠ 0)
    (knows : readerKnows (s.mem.block call.rp) call pc) :
    Tended { s with rp := rp, reader := pc, call := call } := by
  refine ⟨ring, inv.whole, inv.holding, busy, knows, inv.fills, ?_, fun off => ?_⟩
  · rw [inv.alone, ← alone]
  · rcases inv.stopped off with here | here | here
    · exact absurd here inside.1
    · exact absurd here inside.2.1
    · exact absurd here inside.2.2

/-- The reader stays at its block, in its loop. -/
theorem stay (inv : s.Tended) {pc : ReaderPc} {call : ReadCall α} (at_block : call.rp = s.call.rp)
    (here : s.reader.stage = .here ∨ s.reader.stage = .past ∨ s.reader.stage = .over)
    (next : pc.stage = .here ∨ pc.stage = .past ∨ pc.stage = .over)
    (busy : pc.busy = true → s.mem.bytes s.call.rp ≠ 0)
    (knows : readerKnows (s.mem.block s.call.rp) call pc) :
    Tended { s with reader := pc, call := call } := by
  obtain ⟨running, inside⟩ : s.reader.alone = false ∧ _ :=
    ReaderPc.inLoop (by rcases here with h | h | h <;> simp [h])
      (by rcases here with h | h | h <;> simp [h])
  obtain ⟨goesOn, -⟩ : pc.alone = false ∧ _ :=
    ReaderPc.inLoop (by rcases next with h | h | h <;> simp [h])
      (by rcases next with h | h | h <;> simp [h])
  refine inv.turn inside ?_ (goesOn.trans running.symm) (at_block ▸ busy) (at_block ▸ knows)
  obtain ⟨rest, ring⟩ := inv.ring
  have before : s.position = s.call.rp := by
    rcases here with here | here | here <;> simp [Channel.position, here]
  have after : Channel.position { s with reader := pc, call := call } = s.call.rp := by
    rcases next with next | next | next <;> simp [Channel.position, next, at_block]
  exact ⟨rest, after ▸ before ▸ ring⟩

/-- The reader changes the block at its position. -/
theorem alter (inv : s.Tended) {f : Block α → Block α} {pc : ReaderPc}
    (here : s.reader.stage = .past ∨ s.reader = .dropBytes)
    (goes : pc.stage = .here ∨ pc.stage = .past ∨ pc.stage = .behind ∨ pc.stage = .over)
    (next : (f (s.mem.block s.call.rp)).next = s.mem.next s.call.rp)
    (whole : Whole (f (s.mem.block s.call.rp)))
    (held : s.fill.holding = true → (s.mem.modify s.call.rp f).bytes s.fillWp = 0)
    (fills : fillKnows ((s.mem.modify s.call.rp f).block s.fillWp) s.fill)
    (busy : pc.busy = true → (f (s.mem.block s.call.rp)).bytes ≠ 0)
    (knows : readerKnows (f (s.mem.block s.call.rp)) s.call pc) :
    Tended { s with mem := s.mem.modify s.call.rp f, reader := pc } := by
  have block : (s.mem.modify s.call.rp f).block s.call.rp = f (s.mem.block s.call.rp) :=
    Mem.modify_block_self s.mem s.call.rp f
  have stage : s.reader.stage = .past ∨ s.reader.stage = .over :=
    here.imp_right fun drops => congrArg ReaderPc.stage drops
  obtain ⟨running, inside⟩ : s.reader.alone = false ∧ _ :=
    ReaderPc.inLoop (by rcases stage with h | h <;> simp [h])
      (by rcases stage with h | h <;> simp [h])
  obtain ⟨goesOn, -⟩ : pc.alone = false ∧ _ :=
    ReaderPc.inLoop (by rcases goes with h | h | h | h <;> simp [h])
      (by rcases goes with h | h | h | h <;> simp [h])
  refine ⟨?_, inv.whole_modify s.call.rp whole, held, fun working => ?_, ?_, fills, ?_,
    fun off => ?_⟩
  · obtain ⟨rest, ring⟩ := inv.ring
    have before : s.position = s.call.rp := by
      rcases stage with stage | stage <;> simp [Channel.position, stage]
    have after : Channel.position { s with mem := s.mem.modify s.call.rp f, reader := pc } =
        s.call.rp := by
      rcases goes with goes | goes | goes | goes <;> simp [Channel.position, goes]
    rw [after]
    exact ⟨rest, (ringFrom_modify next).mpr (before ▸ ring)⟩
  · rw [Mem.bytes, block]
    exact busy working
  · rw [block]
    exact knows
  · rw [inv.alone, running, goesOn]
  · rcases inv.stopped off with here | here | here
    · exact absurd here inside.1
    · exact absurd here inside.2.1
    · exact absurd here inside.2.2

/-- The reader empties the block at its position, which disturbs no fill thread. -/
theorem emptied (inv : s.Tended) {pc : ReaderPc}
    (here : s.reader.stage = .past ∨ s.reader = .dropBytes)
    (goes : pc.stage = .behind ∨ pc.stage = .over) :
    Tended { s with mem := s.mem.modify s.call.rp (setBytes 0), reader := pc } := by
  have free : pc.busy = false := by
    cases pc <;> simp_all [ReaderPc.stage, ReaderPc.busy]
  refine inv.alter here (by rcases goes with goes | goes <;> simp [goes]) rfl ?_ (fun holding => ?_)
    ?_ (by simp [free]) ?_
  · simp [Whole, setBytes]
  · by_cases same : s.fillWp = s.call.rp
    · rw [same]
      simp [Mem.bytes, setBytes]
    · rw [Mem.bytes, Mem.modify_block_of_ne s.mem _ same]
      exact inv.holding holding
  · have data : ((s.mem.modify s.call.rp (setBytes 0)).block s.fillWp).data =
        (s.mem.block s.fillWp).data :=
      Mem.modify_field Block.data s.mem s.call.rp (setBytes 0) rfl s.fillWp
    have fills := inv.fills
    cases there : s.fill <;> simp_all [fillKnows]
  · cases pc <;> simp_all [ReaderPc.stage, readerKnows]

/-- The reader copies the samples of its block. -/
theorem copied (inv : s.Tended) {n : Nat} (pc : s.reader = .copy n) :
    Tended
      { s with
        call :=
          { s.call with
            out := s.call.out ++ (s.mem.data s.call.rp).take n
            remaining := s.call.remaining - n }
        reader := .testAll n } := by
  have knows := inv.knows
  rw [pc] at knows
  obtain ⟨count, -⟩ : n = min (samplesOf s.mem s.call.rp) s.call.remaining ∧ _ := knows
  obtain ⟨multiple, -⟩ := inv.whole s.call.rp
  have within : n ≤ (s.mem.block s.call.rp).bytes / sampleBytes := count ▸ Nat.min_le_left _ _
  refine inv.stay rfl (by simp [pc, ReaderPc.stage]) (by simp [ReaderPc.stage])
    (fun _ => inv.busy (by rw [pc]; rfl)) ⟨within, ?_⟩
  by_cases all : samplesOf s.mem s.call.rp ≤ s.call.remaining
  · left
    rw [multiple, count, Nat.min_eq_left all]
    rfl
  · right
    exact Nat.sub_eq_zero_of_le (count ▸ Nat.le_min.mpr ⟨by omega, Nat.le_refl _⟩)

/-- The reader has used a part of its block. -/
theorem partly (inv : s.Tended) {n : Nat} (pc : s.reader = .testAll n)
    (some : s.mem.bytes s.call.rp ≠ n * sampleBytes) : s.call.remaining = 0 := by
  have knows := inv.knows
  rw [pc] at knows
  exact knows.2.resolve_left some

/-- The reader takes the samples it has used off the count of its block. -/
theorem shrunk (inv : s.Tended) {n : Nat} (pc : s.reader = .shrink n) :
    Tended
      { s with
        mem := s.mem.modify s.call.rp fun b => { b with bytes := b.bytes - n * sampleBytes }
        reader := .shift n } := by
  have knows := inv.knows
  rw [pc] at knows
  obtain ⟨within, finished⟩ : n < (s.mem.block s.call.rp).bytes / sampleBytes ∧
    s.call.remaining = 0 := knows
  obtain ⟨multiple, stored⟩ := inv.whole s.call.rp
  have same := inv.fillBlock_modify (by rw [pc]; rfl)
    fun b => { b with bytes := b.bytes - n * sampleBytes }
  obtain ⟨whole, left⟩ := samples_sub n multiple
  refine inv.alter (by simp [pc, ReaderPc.stage]) (by simp [ReaderPc.stage]) rfl ⟨?_, ?_⟩
    (fun held => ?_) (fillKnows_frame same inv.fills) (fun _ => ?_) ⟨?_, finished⟩
  · exact left.trans (congrArg (· * sampleBytes) whole.symm)
  · exact Nat.le_trans (Nat.le_of_eq whole) (Nat.le_trans (Nat.sub_le _ _) stored)
  · rw [Mem.bytes, same held]
    exact inv.holding held
  · have some : 0 < ((s.mem.block s.call.rp).bytes / sampleBytes - n) * sampleBytes :=
      Nat.mul_pos (by omega) (by decide)
    exact fun none => absurd (left.symm.trans none) (Nat.pos_iff_ne_zero.mp some)
  · have rest := Nat.add_sub_cancel' (Nat.le_of_lt within)
    exact Nat.le_trans (Nat.le_of_eq ((congrArg (n + ·) whole).trans rest)) stored

/-- The reader moves the samples it has left to the front of its block. -/
theorem shifted (inv : s.Tended) {n : Nat} (pc : s.reader = .shift n) :
    Tended { s with mem := s.mem.modify s.call.rp (shiftSamples copy n), reader := .wait } := by
  have knows := inv.knows
  rw [pc] at knows
  obtain ⟨within, finished⟩ : n + (s.mem.block s.call.rp).bytes / sampleBytes ≤
    (s.mem.block s.call.rp).data.length ∧ s.call.remaining = 0 := knows
  obtain ⟨multiple, stored⟩ := inv.whole s.call.rp
  have same := inv.fillBlock_modify (by rw [pc]; rfl) (shiftSamples copy n)
  refine inv.alter (by simp [pc, ReaderPc.stage]) (by simp [ReaderPc.stage]) rfl ⟨multiple, ?_⟩
    (fun held => ?_) (fillKnows_frame same inv.fills) (by rintro ⟨⟩) trivial
  · simp only [shiftSamples, List.length_append, copy.length_moved, List.length_take,
      List.length_drop]
    omega
  · rw [Mem.bytes, same held]
    exact inv.holding held

end Channel.Tended

/-- **A step of the reader** keeps the invariant. -/
theorem tended_reader {s t : Channel α} (inv : s.Tended) (step : readerStep copy s = some t) :
    t.Tended := by
  have knows := inv.knows
  have ring := inv.ring
  have filled (busy : s.reader.busy = true) := inv.busy busy
  cases readerMove_of_step step with
  | waits => exact inv
  | setFill pc =>
      have alone := inv.alone
      rw [pc] at alone
      simp only [Channel.position, pc] at ring
      exact ⟨ring, inv.whole, inv.holding, by rintro ⟨⟩, trivial, inv.fills, alone, by rintro ⟨⟩⟩
  | create pc =>
      have running : s.doFill = true := by
        by_contra off
        simpa [pc] using inv.stopped (by simpa using off)
      simp only [Channel.position, pc] at ring
      exact ⟨ring, inv.whole, by rintro ⟨⟩, by rintro ⟨⟩, trivial, trivial,
        ⟨by rintro ⟨⟩, by rintro ⟨⟩⟩, fun off => by cases running.symm.trans off⟩
  | loadRp pc =>
      simp only [Channel.position, pc] at ring
      exact inv.turn (by simp [pc]) ring (by rw [pc]; rfl) (by rintro ⟨⟩) trivial
  | served pc =>
      exact inv.stay rfl (by simp [pc, ReaderPc.stage]) (by simp [ReaderPc.stage]) (by rintro ⟨⟩)
        trivial
  | finds pc needs filled =>
      exact inv.stay rfl (by simp [pc, ReaderPc.stage]) (by simp [ReaderPc.stage]) (fun _ => filled)
        trivial
  | passes pc | usesUp pc =>
      exact inv.stay rfl (by simp [pc, ReaderPc.stage]) (by simp [ReaderPc.stage])
        (fun _ => filled (by rw [pc]; rfl)) trivial
  | loadBytes pc =>
      exact inv.stay rfl (by simp [pc, ReaderPc.stage]) (by simp [ReaderPc.stage])
        (fun _ => filled (by rw [pc]; rfl)) rfl
  | success pc status =>
      rw [pc] at knows
      exact inv.stay rfl (by simp [pc, ReaderPc.stage]) (by simp [ReaderPc.stage])
        (fun _ => filled (by rw [pc]; rfl)) ⟨knows, Or.inl status⟩
  | tolerates pc status none =>
      rw [pc] at knows
      exact inv.stay rfl (by simp [pc, ReaderPc.stage]) (by simp [ReaderPc.stage])
        (fun _ => filled (by rw [pc]; rfl)) ⟨knows, Or.inr ⟨status, none⟩⟩
  | fails pc | breaks pc | ends pc | copyLast pc | dropRet pc =>
      exact inv.stay rfl (by simp [pc, ReaderPc.stage]) (by simp [ReaderPc.stage]) (by rintro ⟨⟩)
        trivial
  | copy pc => exact inv.copied pc
  | leaves pc some =>
      rw [pc] at knows
      refine inv.stay rfl (by simp [pc, ReaderPc.stage]) (by simp [ReaderPc.stage])
        (fun _ => filled (by rw [pc]; rfl)) ⟨?_, inv.partly pc some⟩
      refine Nat.lt_of_le_of_ne knows.1 fun same => some ?_
      exact (inv.whole s.call.rp).1.trans (congrArg (· * sampleBytes) same.symm)
  | clear pc => exact inv.emptied (by simp [pc, ReaderPc.stage]) (by simp [ReaderPc.stage])
  | dropBytes pc => exact inv.emptied (Or.inr pc) (by simp [ReaderPc.stage])
  | follow pc | dropFollow pc =>
      simp only [Channel.position, pc] at ring
      obtain ⟨rest, ring⟩ := ring
      obtain ⟨rest', turned, -⟩ := ring.rotate
      exact inv.turn (by simp [pc]) ⟨rest', turned⟩ (by rw [pc]; rfl) (by rintro ⟨⟩) trivial
  | shrink pc => exact inv.shrunk pc
  | shift pc => exact inv.shifted pc
  | storeRp pc =>
      simp only [Channel.position, pc] at ring
      exact inv.turn (by simp [pc]) ring (by rw [pc]; rfl) (by rintro ⟨⟩) trivial
  | stopFill pc =>
      have alone := inv.alone
      rw [pc] at alone
      simp only [Channel.position, pc] at ring
      exact ⟨ring, inv.whole, inv.holding, by rintro ⟨⟩, trivial, inv.fills, alone,
        fun _ => Or.inr (Or.inr rfl)⟩
  | join pc =>
      simp only [Channel.position, pc] at ring
      exact ⟨ring, inv.whole, by rintro ⟨⟩, by rintro ⟨⟩, trivial, trivial,
        ⟨fun _ => rfl, fun _ => rfl⟩, fun _ => Or.inl rfl⟩

namespace Channel.Tended

variable {s : Channel α}

/-- The fill thread changes nothing of the block a reader works on. -/
theorem readerBlock_modify (inv : s.Tended) (holding : s.fill.holding = true)
    (f : Block α → Block α) (busy : s.reader.busy = true) :
    (s.mem.modify s.fillWp f).block s.call.rp = s.mem.block s.call.rp := by
  apply Mem.modify_block_of_ne s.mem f
  intro same
  exact inv.busy busy (same ▸ inv.holding holding)

/-- The fill thread changes the block it holds. -/
theorem change (inv : s.Tended) {f : Block α → Block α} {pc : FillPc} {produced : List α}
    (held : s.fill.holding = true)
    (next : (f (s.mem.block s.fillWp)).next = s.mem.next s.fillWp)
    (whole : Whole (f (s.mem.block s.fillWp)))
    (empty : pc.holding = true → (f (s.mem.block s.fillWp)).bytes = 0)
    (knows : fillKnows (f (s.mem.block s.fillWp)) pc) (stays : pc ≠ .absent) :
    Tended { s with mem := s.mem.modify s.fillWp f, fill := pc, produced := produced } := by
  have readerBlock := inv.readerBlock_modify held f
  have running : s.fill ≠ .absent := fun absent => by simp [absent, FillPc.holding] at held
  obtain ⟨rest, ring⟩ := inv.ring
  refine ⟨⟨rest, (ringFrom_modify next).mpr ring⟩, inv.whole_modify s.fillWp whole,
    fun holding => ?_, fun busy => ?_, readerKnows_frame readerBlock inv.knows,
    by simpa using knows, ?_, inv.stopped⟩
  · simpa [Mem.bytes] using empty holding
  · show ((s.mem.modify s.fillWp f).block s.call.rp).bytes ≠ 0
    rw [readerBlock busy]
    exact inv.busy busy
  · exact ⟨fun absent => absurd absent stays, fun alone => absurd (inv.alone.mpr alone) running⟩

/-- The fill thread moves without touching a block. -/
theorem goto (inv : s.Tended) {pc : FillPc} {wp fillWp : Nat} (running : s.fill ≠ .absent)
    (stays : pc ≠ .absent) (holding : pc.holding = true → s.mem.bytes fillWp = 0)
    (knows : fillKnows (s.mem.block fillWp) pc) :
    Tended { s with fill := pc, wp := wp, fillWp := fillWp } := by
  refine ⟨inv.ring, inv.whole, holding, inv.busy, inv.knows, knows, ?_, inv.stopped⟩
  exact ⟨fun absent => absurd absent stays, fun alone => absurd (inv.alone.mpr alone) running⟩

end Channel.Tended

/-- **A step of the fill thread** keeps the invariant. -/
theorem tended_fill {s t : Channel α} {status : IoStatus} {samples : List α} (inv : s.Tended)
    (step : fillStep s status samples = some t) : t.Tended := by
  unfold fillStep at step
  cases pc : s.fill with
  | absent => simp [pc] at step
  | start | follow | storeWp rval =>
      simp only [pc, Option.some.injEq] at step
      subst step
      exact inv.goto (by simp [pc]) (by simp) (by rintro ⟨⟩) trivial
  | testFill =>
      simp only [pc, Option.some.injEq] at step
      subst step
      split <;> exact inv.goto (by simp [pc]) (by simp) (by rintro ⟨⟩) trivial
  | testBytes =>
      simp only [pc, Option.some.injEq] at step
      subst step
      split
      · next empty => exact inv.goto (by simp [pc]) (by simp) (fun _ => empty) trivial
      · exact inv.goto (by simp [pc]) (by simp) (by rintro ⟨⟩) trivial
  | hwRead =>
      have held : s.fill.holding = true := by rw [pc]; rfl
      have empty : (s.mem.block s.fillWp).bytes = 0 := inv.holding held
      simp only [pc] at step
      split at step
      · cases step
        refine inv.change held rfl ⟨?_, ?_⟩ (fun _ => empty) ?_ (by simp)
        · simp [storeData, empty]
        · simp [storeData, empty]
        · simp [fillKnows, storeData]
      · cases step
  | storeRet status n =>
      have held : s.fill.holding = true := by rw [pc]; rfl
      have knows := inv.fills
      rw [pc] at knows
      simp only [pc, Option.some.injEq] at step
      subst step
      exact inv.change held rfl (inv.whole s.fillWp) (fun _ => inv.holding held) knows (by simp)
  | testRet n =>
      have held : s.fill.holding = true := by rw [pc]; rfl
      have knows := inv.fills
      rw [pc] at knows
      simp only [pc, Option.some.injEq] at step
      subst step
      split
      · exact inv.goto (by simp [pc]) (by simp) (by rintro ⟨⟩) trivial
      · exact inv.goto (by simp [pc]) (by simp) (fun _ => inv.holding held) knows
  | storeBytes n =>
      have held : s.fill.holding = true := by rw [pc]; rfl
      have knows := inv.fills
      rw [pc] at knows
      have count : n * sampleBytes / sampleBytes = n := Nat.mul_div_cancel n (by decide)
      simp only [pc, Option.some.injEq] at step
      subst step
      refine inv.change held rfl ⟨?_, ?_⟩ (by rintro ⟨⟩) trivial (by simp)
      · show n * sampleBytes = n * sampleBytes / sampleBytes * sampleBytes
        rw [count]
      · show n * sampleBytes / sampleBytes ≤ _
        rw [count]
        exact knows
  | exited rval => simp [pc] at step

/-- The invariant holds along every run. -/
theorem tended_reach {s : Channel α} (reached : (channelSystem copy).Reach s) : s.Tended := by
  refine reached.invariant ?_ ?_
  · rintro s ⟨bytesPerBlock, nBlocks, freeram, sized, some, fits, rfl⟩
    obtain ⟨free, nonempty, layout⟩ := newRing_layout (α := α)
      (Nat.lt_of_lt_of_le (by decide) sized) some fits
    refine ⟨?_, fun x => ?_, by rintro ⟨⟩, by rintro ⟨⟩, trivial, trivial,
      ⟨fun _ => rfl, fun _ => rfl⟩, fun _ => Or.inl rfl⟩
    · obtain ⟨rest, ring, same⟩ := layout.ring.rotate (layout.toRp.start_mem nonempty)
      exact ⟨rest, ring, same.nodup_iff.mpr layout.nodup⟩
    · have empty := newRing_bytes (α := α) bytesPerBlock nBlocks freeram x
      rw [Mem.bytes] at empty
      simp [Whole, blbInitRw, empty]
  · intro s act t inv _ step
    cases act with
    | call nSamp =>
        simp only [channelSystem, channelStep] at step
        split at step
        · next idle =>
            have joined : s.fill = .absent := inv.alone.mpr (by rw [idle]; rfl)
            have ring := inv.ring
            simp only [Channel.position, idle] at ring
            cases step
            exact ⟨ring, inv.whole, inv.holding, by rintro ⟨⟩, trivial, inv.fills,
              ⟨fun _ => rfl, fun _ => joined⟩, fun _ => Or.inr (Or.inl rfl)⟩
        · cases step
    | reader => exact tended_reader inv step
    | fill status samples => exact tended_fill inv step

/-! ## Supply -/

/-- The reader ends its way through the blocks ahead before it comes to an empty one. -/
def Channel.Covered (s : Channel α) : Prop :=
  s.reader.stage = .over ∨ s.reader.stage = .done ∨ ∃ rest, RingFrom s.mem s.position rest ∧
    covers s.mem (s.ahead rest) s.call.remaining s.call.out.length = true

theorem supply_iff_covered (s : Channel α) : s.Supply ↔ s.Covered := by
  simp only [Channel.Supply, Channel.Covered, enough_iff_covers]

namespace Channel.Tended

variable {s t : Channel α}

/-- A reader that needs nothing more. -/
theorem covered_of_served (inv : s.Tended) (enough : s.call.remaining = 0) : s.Covered := by
  obtain ⟨rest, ring⟩ := inv.ring
  exact Or.inr (Or.inr ⟨rest, ring, by rw [enough, covers_zero]⟩)

/-- A reader at a block that ends the read. -/
theorem covered_of_ends (inv : s.Tended) (here : s.reader.stage = .here)
    (filled : s.mem.bytes s.call.rp ≠ 0) (noSuccess : retOf s.mem s.call.rp ≠ .success)
    (breaks : retOf s.mem s.call.rp = .databreak → 0 < s.call.out.length) : s.Covered := by
  obtain ⟨rest, ring⟩ := inv.ring
  have stands : s.position = s.call.rp := by simp [Channel.position, here]
  refine Or.inr (Or.inr ⟨rest, ring, ?_⟩)
  simp only [Channel.ahead, here, stands]
  exact Sdr.covers_of_ends rest _ filled noSuccess breaks

end Channel.Tended

/-- **What the reader will do is settled**: none of its own steps changes whether it is served. -/
theorem covered_iff {s t : Channel α} (inv : s.Tended) (move : ReaderMove copy s t) :
    t.Covered ↔ s.Covered := by
  have filled (busy : s.reader.busy = true) := inv.busy busy
  have knows := inv.knows
  cases move with
  | waits => exact Iff.rfl
  | setFill pc | create pc | loadRp pc | finds pc | passes pc | loadBytes pc | success pc
  | tolerates pc | usesUp pc | dropBytes pc | dropFollow pc | dropRet pc | storeRp pc | stopFill pc
  | copyLast pc | join pc =>
      simp [Channel.Covered, Channel.ahead, Channel.position, pc, ReaderPc.stage]
  -- the reader leaves its loop
  | served pc enough => exact iff_of_true (Or.inl rfl) (inv.covered_of_served enough)
  | fails pc error =>
      refine iff_of_true (Or.inl rfl) (inv.covered_of_ends (by rw [pc]; rfl)
        (filled (by rw [pc]; rfl)) ?_ ?_)
      · intro success
        simp [success, IoStatus.isError] at error
      · intro databreak
        simp [databreak, IoStatus.isError] at error
  | breaks pc status some =>
      exact iff_of_true (Or.inl rfl) (inv.covered_of_ends (by rw [pc]; rfl)
        (filled (by rw [pc]; rfl)) (by simp [status]) fun _ => some)
  | ends pc noSuccess noBreak =>
      exact iff_of_true (Or.inl rfl) (inv.covered_of_ends (by rw [pc]; rfl)
        (filled (by rw [pc]; rfl)) noSuccess fun databreak => absurd databreak noBreak)
  -- a part of the block is left, so nothing more is needed
  | leaves pc some =>
      have enough := inv.partly pc some
      refine iff_of_true ?_ (inv.covered_of_served enough)
      obtain ⟨rest, ring⟩ := inv.ring
      simp only [Channel.position, pc, ReaderPc.stage] at ring
      exact Or.inr (Or.inr ⟨rest, ring, by simp [enough]⟩)
  | shrink pc | shift pc =>
      rw [pc] at knows
      have enough := knows.2
      refine iff_of_true ?_ (inv.covered_of_served enough)
      obtain ⟨rest, ring⟩ := inv.ring
      simp only [Channel.position, pc, ReaderPc.stage] at ring
      refine Or.inr (Or.inr ⟨rest, ?_, by simp [enough]⟩)
      simpa only [Channel.position, ReaderPc.stage] using (ringFrom_modify rfl).mpr ring
  -- the reader goes on
  | copy pc =>
      rename_i n
      rw [pc] at knows
      obtain ⟨count, status⟩ := knows
      have held : min n (s.mem.data s.call.rp).length = n := by
        have stored := (inv.whole s.call.rp).2
        have within : n ≤ (s.mem.block s.call.rp).bytes / sampleBytes :=
          count ▸ Nat.min_le_left _ _
        exact Nat.min_eq_left (Nat.le_trans within stored)
      have same (rest : List Nat) := covers_copied rest (filled (by rw [pc]; rfl)) count status
      simp [Channel.Covered, Channel.ahead, Channel.position, pc, ReaderPc.stage, held, same]
  | clear pc =>
      have links (rest : List Nat) : RingFrom (s.mem.modify s.call.rp (setBytes 0)) s.call.rp rest ↔
          RingFrom s.mem s.call.rp rest :=
        ringFrom_modify rfl
      simp only [Channel.Covered, Channel.ahead, Channel.position, pc, ReaderPc.stage, links]
      refine or_congr (by simp) (or_congr (by simp) (exists_congr fun rest => ?_))
      exact and_congr_right fun ring => by rw [ring.covers_cleared]
  | follow pc =>
      simp only [Channel.Covered, Channel.ahead, Channel.position, pc, ReaderPc.stage]
      refine or_congr (by simp) (or_congr (by simp) ⟨?_, ?_⟩)
      · rintro ⟨rest, ring, enough⟩
        obtain ⟨first, back⟩ := inv.ring
        simp only [Channel.position, pc, ReaderPc.stage] at back
        obtain ⟨rest', turned, same⟩ := back.rotate
        obtain rfl := turned.unique ring
        exact ⟨first, back, same ▸ enough⟩
      · rintro ⟨rest, ring, enough⟩
        obtain ⟨rest', turned, same⟩ := ring.rotate
        exact ⟨rest', turned, same ▸ enough⟩

/-! ## Readers that are served -/

/-- The fill thread has left its loop: it had before, the reader has put the flag down, the block it
came to is full, or the hardware has failed. -/
theorem left_loop {s t : Channel α} {status : IoStatus} {samples : List α}
    (step : fillStep s status samples = some t) (dead : t.fill.dead = true) :
    (t.Covered ↔ s.Covered) ∧ t.reader = s.reader ∧
      (s.fill.dead = true ∨ s.fill = .testFill ∧ s.doFill = false ∨
        s.fill = .testBytes ∧ s.mem.bytes s.fillWp ≠ 0 ∨
        ∃ n, s.fill = .testRet n ∧ (retOf s.mem s.fillWp).isError = true) := by
  unfold fillStep at step
  cases pc : s.fill with
  | testFill =>
      simp only [pc, Option.some.injEq] at step
      subst step
      refine ⟨Iff.rfl, rfl, Or.inr (Or.inl ⟨rfl, ?_⟩)⟩
      by_contra up
      simp [Bool.not_eq_false _ |>.mp up, FillPc.dead] at dead
  | testBytes =>
      simp only [pc, Option.some.injEq] at step
      subst step
      refine ⟨Iff.rfl, rfl, Or.inr (Or.inr (Or.inl ⟨rfl, fun empty => ?_⟩))⟩
      simp [empty, FillPc.dead] at dead
  | testRet n =>
      simp only [pc, Option.some.injEq] at step
      subst step
      refine ⟨Iff.rfl, rfl, Or.inr (Or.inr (Or.inr ⟨n, rfl, ?_⟩))⟩
      by_contra sound
      simp [Bool.not_eq_true _ |>.mp sound, FillPc.dead] at dead
  | storeWp rval =>
      simp only [pc, Option.some.injEq] at step
      subst step
      exact ⟨Iff.rfl, rfl, Or.inl rfl⟩
  | hwRead =>
      simp only [pc] at step
      split at step
      · cases step
        cases dead
      · cases step
  | absent | exited rval => simp [pc] at step
  | _ =>
      simp only [pc, Option.some.injEq] at step
      subst step
      cases dead

/-- Once the flag is down, the reader looks at no block. -/
theorem covered_of_stopped {s : Channel α} (inv : s.Tended) (running : s.fill ≠ .absent)
    (off : s.doFill = false) : s.Covered := by
  rcases inv.stopped off with pc | pc | pc
  · exact absurd (inv.alone.mpr (by rw [pc]; rfl)) running
  · exact absurd (inv.alone.mpr (by rw [pc]; rfl)) running
  · exact Or.inr (Or.inl (by rw [pc]; rfl))

/-- No step of the reader ends the loop of its fill thread. -/
theorem dead_before {s t : Channel α} (move : ReaderMove copy s t) (dead : t.fill.dead = true) :
    s.fill.dead = true := by
  cases move <;> first | exact dead | cases dead

/-- When the fill thread has left its loop, the reader is served. -/
theorem covered_reach {s : Channel α} (reached : (channelSystem copy).ReachUnder Supplied s) :
    s.Tended ∧ (s.fill.dead = true → s.Covered) := by
  refine ⟨tended_reach (reached.mono fun _ _ _ => trivial), ?_⟩
  induction reached with
  | start initial =>
      obtain ⟨_, _, _, -, -, -, rfl⟩ := initial
      rintro ⟨⟩
  | @step s t act before permitted step ih =>
      have inv : s.Tended := tended_reach (before.mono fun _ _ _ => trivial)
      intro dead
      cases act with
      | call nSamp =>
          simp only [channelSystem, channelStep] at step
          split at step
          · next idle =>
              have joined : s.fill = .absent := inv.alone.mpr (by rw [idle]; rfl)
              cases step
              rw [show s.fill = .absent from joined] at dead
              cases dead
          · cases step
      | reader =>
          have move := readerMove_of_step step
          exact (covered_iff inv move).mpr (ih (dead_before move dead))
      | fill status samples =>
          obtain ⟨same, -, why⟩ := left_loop step dead
          rw [same]
          rcases why with died | ⟨pc, off⟩ | ⟨pc, full⟩ | ⟨n, pc, error⟩
          · exact ih died
          · exact covered_of_stopped inv (by simp [pc]) off
          · exact (supply_iff_covered s).mp (permitted.1 pc full)
          · exact (supply_iff_covered s).mp (permitted.2 n pc error)

/-! ## Readers that are not -/

/-- How far the steps of a reader are from the end of a round. -/
def ReaderPc.rank : ReaderPc → Nat
  | .loadRp => 12
  | .testAll _ => 11
  | .clear => 10
  | .follow => 9
  | .wait => 8
  | .testRet => 7
  | .loadBytes => 6
  | .switch _ => 5
  | .copy _ => 4
  | _ => 0

/-- What a reader still has to do: a round collects a sample at least. -/
def Channel.work (s : Channel α) : Nat := 10 * s.call.remaining + s.reader.rank

/-- A reader in its loop can go on. -/
theorem readerStep_isSome (copy : Memcpy α) {s : Channel α} (notOver : s.reader.stage ≠ .over)
    (notDone : s.reader.stage ≠ .done) : ∃ t, readerStep copy s = some t := by
  unfold readerStep
  cases pc : s.reader with
  | idle | stopFill | join => simp [pc, ReaderPc.stage] at notDone
  | copyLast n | dropBytes | dropFollow | dropRet | storeRp =>
      simp [pc, ReaderPc.stage] at notOver
  | wait =>
      simp only
      split
      · exact ⟨_, rfl⟩
      · split <;> exact ⟨_, rfl⟩
  | switch n =>
      simp only
      split <;> exact ⟨_, rfl⟩
  | _ => exact ⟨_, rfl⟩

/-- **A step of a reader that is not served**: it is stranded, or comes nearer to it. -/
theorem starved_step (copy : Memcpy α) {s : Channel α} (inv : s.Tended) (dead : s.fill.dead = true)
    (starved : ¬ s.Covered) :
    s.Stranded ∨ ∃ t, readerStep copy s = some t ∧ t.fill = s.fill ∧ ¬ t.Covered ∧
      t.work < s.work := by
  have notOver : s.reader.stage ≠ .over := fun ended => starved (Or.inl ended)
  have notDone : s.reader.stage ≠ .done := fun done => starved (Or.inr (Or.inl done))
  have needs : s.call.remaining ≠ 0 := fun enough => starved (inv.covered_of_served enough)
  have running : s.reader.alone = false := by
    by_contra alone
    have absent := inv.alone.mpr (by simpa using alone)
    simp [absent, FillPc.dead] at dead
  obtain ⟨t, step⟩ := readerStep_isSome copy notOver notDone
  have move := readerMove_of_step step
  have still : ¬ t.Covered := fun covered => starved ((covered_iff inv move).mp covered)
  cases move with
  | waits pc _ empty => exact Or.inl ⟨dead, pc, needs, empty⟩
  | setFill pc | create pc => simp [pc, ReaderPc.alone] at running
  | served pc enough => exact absurd enough needs
  | fails | breaks | ends => exact absurd (Or.inl rfl) still
  | copyLast pc | dropBytes pc | dropFollow pc | dropRet pc | storeRp pc =>
      simp [pc, ReaderPc.stage] at notOver
  | stopFill pc | join pc => simp [pc, ReaderPc.stage] at notDone
  | leaves pc some => exact absurd (inv.partly pc some) needs
  | shrink pc | shift pc =>
      have knows := inv.knows
      rw [pc] at knows
      exact absurd knows.2 needs
  | copy pc =>
      rename_i n
      have knows := inv.knows
      rw [pc] at knows
      have filled : (s.mem.block s.call.rp).bytes ≠ 0 := inv.busy (by rw [pc]; rfl)
      have whole := (inv.whole s.call.rp).1
      have some : 0 < n := by
        rw [knows.1, Nat.lt_min]
        refine ⟨Nat.pos_of_ne_zero fun none => filled ?_, Nat.pos_of_ne_zero needs⟩
        rw [whole, none, Nat.zero_mul]
      refine Or.inr ⟨_, step, rfl, still, ?_⟩
      simp only [Channel.work, pc, ReaderPc.rank]
      omega
  | loadRp pc | finds pc | passes pc | loadBytes pc | success pc | tolerates pc | usesUp pc
  | clear pc | follow pc =>
      refine Or.inr ⟨_, step, rfl, still, ?_⟩
      simp only [Channel.work, pc, ReaderPc.rank]
      omega

/-- **A reader that is not served strands itself**: its own steps lead to where it waits. -/
theorem starved_strands (copy : Memcpy α) {s : Channel α} (inv : s.Tended)
    (dead : s.fill.dead = true) (starved : ¬ s.Covered) :
    ∃ n u, (channelSystem copy).exec s (List.replicate n .reader) = some u ∧ u.Stranded := by
  induction work : s.work using Nat.strong_induction_on generalizing s with
  | _ work ih =>
      subst work
      rcases starved_step copy inv dead starved with stranded | ⟨t, step, fill, still, less⟩
      · exact ⟨0, s, rfl, stranded⟩
      · obtain ⟨n, u, run, stranded⟩ :=
          ih t.work less (tended_reader inv step) (fill ▸ dead) still rfl
        refine ⟨n + 1, u, ?_, stranded⟩
        rw [List.replicate_succ]
        exact Option.bind_eq_some_iff.mpr ⟨t, step, run⟩

/-- **A supplied reader never waits for a dead producer, and any other does.** Along every run in
which the fill thread leaves its loop at a full block, or after an error, only when the full blocks
ahead of the reader hold what it still needs, or end its read, no reader is stranded. In any run in
which it leaves its loop when they do not, the reader's next steps lead to a stranded one. -/
theorem supplied_never_stranded (copy : Memcpy α) :
    (∀ s : Channel α, (channelSystem copy).ReachUnder Supplied s → ¬ s.Stranded) ∧
      ∀ (s t : Channel α) (act : Act α), (channelSystem copy).Reach s → ¬ Supplied s act →
        (channelSystem copy).step s act = some t →
          ∃ n u, (channelSystem copy).exec t (List.replicate n .reader) = some u ∧ u.Stranded := by
  refine ⟨?_, ?_⟩
  · rintro s reached ⟨dead, pc, needs, empty⟩
    obtain ⟨-, covered⟩ := covered_reach reached
    have served := covered dead
    simp only [Channel.Covered, Channel.ahead, Channel.position, pc, ReaderPc.stage, reduceCtorEq,
      false_or] at served
    obtain ⟨rest, -, enough⟩ := served
    exact needs ((covers_of_empty _ _ _ empty).mp enough)
  · intro s t act reached unsupplied step
    cases act with
    | call nSamp => exact absurd trivial unsupplied
    | reader => exact absurd trivial unsupplied
    | fill status samples =>
        have inv := tended_fill (tended_reach reached) step
        simp only [Supplied, not_and_or, Classical.not_imp, Classical.not_forall] at unsupplied
        simp only [channelSystem, channelStep, fillStep] at step
        rcases unsupplied with ⟨pc, full, unserved⟩ | ⟨n, pc, error, unserved⟩
        · simp only [pc, if_neg full, Option.some.injEq] at step
          subst step
          exact starved_strands copy inv rfl fun covered =>
            unserved ((supply_iff_covered s).mpr covered)
        · simp only [pc, error, if_true, Option.some.injEq] at step
          subst step
          exact starved_strands copy inv rfl fun covered =>
            unserved ((supply_iff_covered s).mpr covered)

/-- The fill thread does not leave its loop with its next step. -/
def Channel.stays (s : Channel α) : Bool :=
  match s.fill with
  | .testBytes => s.mem.bytes s.fillWp = 0
  | .testRet _ => !(retOf s.mem s.fillWp).isError
  | _ => true

theorem supplied_of_stays {s : Channel α} (stays : s.stays = true) (act : Act α) :
    Supplied s act := by
  cases act with
  | fill status samples =>
      refine ⟨fun pc full => ?_, fun n pc error => ?_⟩
      · simp [Channel.stays, pc, full] at stays
      · simp [Channel.stays, pc, error] at stays
  | _ => trivial

/-- A call for two samples of a channel with two blocks, up to the moment at which the fill thread
has filled both and meets a full block. -/
def untilFull : List (Act Nat) :=
  [.call 2] ++ List.replicate 3 .reader ++ List.replicate 8 (.fill .success [1]) ++
    List.replicate 8 (.fill .success [2])

/-- Two blocks of one sample. -/
def twoSamples : Channel Nat := blbInitRw 8 2 100

/-- What this call needs is in the two blocks. -/
theorem supply_of_full {s : Channel Nat} (pc : s.reader = .wait)
    (shape : (s.call.rp, s.call.remaining, s.mem.next 1, s.mem.next 2) = (1, 2, 2, 1))
    (full : (s.mem.bytes 1, s.mem.bytes 2) = (8, 8)) : s.Supply := by
  simp only [Prod.mk.injEq] at shape full
  obtain ⟨rp, remaining, next, next'⟩ := shape
  have stands : s.position = 1 := by simp [Channel.position, pc, ReaderPc.stage, rp]
  have ring : RingFrom s.mem 1 [2] := ⟨⟨rfl, next, next'⟩, by decide⟩
  refine Or.inr (Or.inr ⟨[2], stands ▸ ring, Or.inl ?_⟩)
  simp [Channel.ahead, pc, ReaderPc.stage, stands, full, remaining, samplesOf, sampleBytes]

/-- The fill thread leaves its loop at the full block, before the reader has looked at one. The
samples in the two blocks are those the call needs, and it returns them. -/
theorem supplied_never_stranded_full : ∃ s t : Channel Nat,
    (channelSystem .memmove).ReachUnder Supplied s ∧ s.fill = .exited .success ∧
      s.call.out = [] ∧ ¬ s.Stranded ∧
      (channelSystem .memmove).exec s (List.replicate 20 .reader) = some t ∧
      t.reports = [(.success, [1, 2])] := by
  let M := channelSystem (α := Nat) .memmove
  let first := M.execUnder (fun s _ => s.stays = true) twoSamples untilFull
  let fill : Act Nat := .fill .success []
  have before : first.map (fun s => (s.reader, (s.call.rp, s.call.remaining, s.mem.next 1,
      s.mem.next 2), (s.mem.bytes 1, s.mem.bytes 2))) = some (.wait, (1, 2, 2, 1), (8, 8)) := by
    decide +kernel
  have leaves : (first.bind fun s => M.step s fill).map (fun s => s.fill) =
      some (.storeWp .success) := by
    decide +kernel
  have left : ((first.bind fun s => M.step s fill).bind fun s => M.step s fill).map
      (fun s => (s.fill, s.call.out)) = some (.exited .success, []) := by
    decide +kernel
  have returns : (((first.bind fun s => M.step s fill).bind fun s => M.step s fill).bind
      fun s => M.exec s (List.replicate 20 .reader)).map (fun s => s.reports) =
        some [(.success, [1, 2])] := by
    decide +kernel
  obtain ⟨s₀, run, shape⟩ := Option.map_eq_some_iff.mp before
  obtain ⟨pc, shape⟩ := Prod.mk.inj shape
  obtain ⟨shape, full⟩ := Prod.mk.inj shape
  rw [run, Option.bind_some] at leaves left returns
  obtain ⟨s₁, step₁, goes⟩ := Option.map_eq_some_iff.mp leaves
  rw [step₁, Option.bind_some] at left returns
  obtain ⟨s, step, gone⟩ := Option.map_eq_some_iff.mp left
  rw [step, Option.bind_some] at returns
  obtain ⟨t, read, reports⟩ := Option.map_eq_some_iff.mp returns
  obtain ⟨exited, nothing⟩ := Prod.mk.inj gone
  have start : M.start twoSamples := ⟨8, 2, 100, by decide, by decide, by decide, rfl⟩
  have supply := supply_of_full pc shape full
  have reached₀ : M.ReachUnder Supplied s₀ :=
    (System.ReachUnder.execUnder (.start start) run).mono fun _ act stays =>
      supplied_of_stays stays act
  have supplied : Supplied s₀ fill := ⟨fun _ _ => supply, fun _ _ _ => supply⟩
  have reached₁ : M.ReachUnder Supplied s₁ := .step reached₀ supplied step₁
  have reached : M.ReachUnder Supplied s :=
    .step reached₁ (supplied_of_stays (by simp [Channel.stays, goes]) fill) step
  exact ⟨s, t, reached, exited, nothing, (supplied_never_stranded .memmove).1 s reached, read,
    reports⟩

/-- A run of a channel with one block: a call for one sample, and an error at the first call of the
hardware. -/
def failingRun : List (Act Bool) :=
  [.call 1, .reader, .reader, .reader, .fill .success [], .fill .success [], .fill .success [],
    .fill .error [], .fill .success [], .fill .success []]

/-- The reader of a call whose hardware fails is left waiting: the error never reaches the caller.
-/
theorem hw_error_strands_reader :
    ¬ ∀ (copy : Memcpy Bool) (s : Channel Bool), (channelSystem copy).Reach s → ¬ s.Stranded := by
  intro never
  have start : (channelSystem (α := Bool) .memmove).start (blbInitRw 8 1 9) :=
    ⟨8, 1, 9, by decide, by decide, by decide, rfl⟩
  have run : ((channelSystem .memmove).exec (blbInitRw 8 1 9) failingRun).map (fun t =>
      (t.fill.dead, t.reader, t.call.remaining, t.mem.bytes t.call.rp)) =
      some (true, .wait, 1, 0) := by
    decide
  obtain ⟨t, exec, shape⟩ := Option.map_eq_some_iff.mp run
  simp only [Prod.mk.injEq] at shape
  obtain ⟨dead, pc, remaining, empty⟩ := shape
  exact never .memmove t (.exec (.start start) exec) ⟨dead, pc, by omega, empty⟩

end Bingewatch.Sdr
