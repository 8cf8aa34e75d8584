import Bingewatch.Filter.Conversion
import Bingewatch.Stream.Segment

/-!
# Writing through a conversion filter

`write_to_dest` subtracts what a write reports from the rest of its chunk and offers what is left.
When the write chain of the destination starts with `iq_type_conversion`, the count it reports is
computed from what the next filter has accepted of the converted samples.

The computation is right when the two formats differ: a pass takes exactly the samples from the
chunk whose converted form was accepted (`pass_processed`). A rest shorter than a sample is never
taken, though, and keeps the loop going for ever (`loop_stuck`). When the formats have the same size
the count is not written at all, so that the first pass takes the whole chunk whatever was accepted.
`conversion_delivers_iff` puts the cases together.
-/

set_option autoImplicit false

namespace Bingewatch.Stream

open Foundation Machine Bingewatch.Filter

variable {σ D : Type}

/-! ## The loop over a destination with a state -/

/-- The loop of `write_to_dest`, over a write function with a state. -/
def offerLoop (write : NextCall σ) :
    (fuel : Nat) → σ → (data : List UInt8) → (written : Nat) → Option (σ × WriteResult)
  | _, s, [], written => some (s, { written := written })
  | 0, _, _ :: _, _ => none
  | fuel + 1, s, x :: rest, written =>
      (write s { buf := x :: rest, bytes := (x :: rest).length }).bind fun (s, answer) =>
        match writePass answer.status with
        | .complete => some (s, { written := written, doComplete := true })
        | .fail => some (s, { written := 0, stopSegment := true })
        | .goOn =>
            offerLoop write fuel s ((x :: rest).drop answer.bytes) (written + answer.bytes)

/-- It is the loop over a destination whose state is the number of the pass, when that is not
stopped. -/
theorem writeLoop_eq_offerLoop {dst : Destination} (running : ∀ pass, dst.stops pass = false)
    (fuel pass : Nat) (data : List UInt8) (written : Nat) :
    writeLoop dst fuel pass .enabled data written =
      (offerLoop (fun pass a => some (pass + 1,
        { status := (dst.filter pass a.buf).1, buf := a.buf, bytes := (dst.filter pass a.buf).2 }))
        fuel pass data written).map Prod.snd := by
  induction fuel generalizing pass data written with
  | zero => cases data <;> rfl
  | succ fuel ih =>
      cases data with
      | nil => rfl
      | cons x rest =>
          simp only [writeLoop, offerLoop, write_enabled (running pass), Option.bind_some]
          cases writePass (dst.filter pass (x :: rest)).1 with
          | goOn => exact ih ..
          | complete => rfl
          | fail => rfl

/-! ## The destination -/

/-- A filter that always succeeds and accepts, at its `call`-th call, the given number of the bytes
offered. It keeps what it has accepted. -/
def acceptor (accepts : (call : Nat) → List UInt8 → Nat) : NextCall (Nat × List UInt8) :=
  fun (call, taken) a =>
    let n := accepts call (a.buf.take a.bytes)
    some ((call + 1, taken ++ a.buf.take n), { status := .success, buf := a.buf, bytes := n })

/-- It accepts a positive multiple of the alignment, no more than it is offered, and nothing of
nothing. -/
structure Accepting (align : Nat) (accepts : (call : Nat) → List UInt8 → Nat) : Prop where
  empty : ∀ call, accepts call [] = 0
  positive : ∀ call data, data ≠ [] → 0 < accepts call data
  within : ∀ call data, accepts call data ≤ data.length
  aligned : ∀ call data, align ∣ accepts call data

variable [Inhabited D] (k : Samples D)

/-- The write of a machine whose write chain is a conversion filter in front of an acceptor. -/
def convertingWrite (accepts : (call : Nat) → List UInt8 → Nat) :
    NextCall (Gcb D × Nat × List UInt8) := fun (g, s) a =>
  (iqTypeConversion k true .write g (acceptor accepts) s a).map fun (g, s, answer) =>
    ((g, s), answer)

/-- The converted form of the whole samples of a chunk. -/
def converted (g : Gcb D) (chunk : List UInt8) : List UInt8 :=
  (pieces g.fromType.dataSize (chunk.length / g.fromType.dataSize) chunk).flatMap (g.convert k)

/-- `write_to_dest` returns, and the filter behind the conversion has accepted the converted form of
each whole sample of the chunk once and in order. -/
def Delivers (g : Gcb D) (accepts : (call : Nat) → List UInt8 → Nat) (chunk : List UInt8) : Prop :=
  ∃ fuel g' calls result,
    offerLoop (convertingWrite k accepts) fuel (g, 0, []) chunk 0 =
      some ((g', calls, converted k g chunk), result)

/-! ## A pass -/

section Pass

variable {g : Gcb D} {accepts : (call : Nat) → List UInt8 → Nat}

omit [Inhabited D] in
theorem length_converted (g : Gcb D) (chunk : List UInt8) :
    (converted k g chunk).length = chunk.length / g.fromType.dataSize * g.toType.dataSize :=
  stored_length k g _ _

omit [Inhabited D] in
/-- The converted form of a chunk whose front is a number of whole samples. -/
theorem converted_split {chunk : List UInt8} {n : Nat}
    (enough : n * g.fromType.dataSize ≤ chunk.length) :
    (converted k g chunk).take (n * g.toType.dataSize) ++
      converted k g (chunk.drop (n * g.fromType.dataSize)) = converted k g chunk := by
  have positive := g.fromType.dataSize_pos
  let front := (pieces g.fromType.dataSize n chunk).flatMap (g.convert k)
  have length : front.length = n * g.toType.dataSize := stored_length k g n chunk
  have count : chunk.length / g.fromType.dataSize =
      n + (chunk.drop (n * g.fromType.dataSize)).length / g.fromType.dataSize := by
    have few : n ≤ chunk.length / g.fromType.dataSize := (Nat.le_div_iff_mul_le positive).mpr enough
    rw [List.length_drop, Nat.mul_comm, Nat.sub_mul_div]
    omega
  have split : converted k g chunk =
      front ++ converted k g (chunk.drop (n * g.fromType.dataSize)) := by
    rw [converted, count, pieces_append, List.flatMap_append]
    rfl
  rw [split, ← length, List.take_left]

/-- A pass over a chunk. -/
theorem pass_eq (accepting : Accepting g.toType.dataSize accepts) (call : Nat)
    (taken chunk : List UInt8) (addressable : chunk.length * doubleSize < 2 ^ 64) (b : List UInt8)
    (t : List D) :
    ∃ b' t', convertingWrite k accepts ({ g with buf := b, tmp := t }, call, taken)
        { buf := chunk, bytes := chunk.length } =
      some (({ g with buf := b', tmp := t' }, call + 1,
          taken ++ (converted k g chunk).take (accepts call (converted k g chunk))),
        { status := .success, buf := chunk
          bytes := g.processed chunk.length (accepts call (converted k g chunk)) }) := by
  let g' : Gcb D := { g with buf := b, tmp := t }
  let a : FilterArgs := { buf := chunk, bytes := chunk.length }
  obtain ⟨values, -, written⟩ := iqTypeConversion_write k addressable g' (acceptor accepts)
    (call, taken) a rfl (Nat.le_refl _)
  have offered : (g'.offer k a).buf.take (g'.offer k a).bytes = converted k g chunk :=
    List.take_left' (length_converted k g chunk)
  have accepted : (g'.offer k a).buf.take (accepts call (converted k g chunk)) =
      (converted k g chunk).take (accepts call (converted k g chunk)) :=
    List.take_append_of_le_length (accepting.within call _)
  refine ⟨(g'.offer k a).buf,
    values ++ (g'.resize chunk.length).tmp.drop (chunk.length / g'.fromType.dataSize), ?_⟩
  show (iqTypeConversion k true .write g' (acceptor accepts) (call, taken) a).map _ = _
  rw [written]
  simp only [acceptor, offered, accepted, Option.map_some]
  rfl

omit [Inhabited D] in
/-- When the sizes differ, the bytes reported are those of the samples that were accepted. -/
theorem pass_processed {n L : Nat} (differ : g.toType.dataSize ≠ g.fromType.dataSize)
    (within : n * g.fromType.dataSize ≤ L) (addressable : L * doubleSize < 2 ^ 64) :
    g.processed L (n * g.toType.dataSize) = n * g.fromType.dataSize := by
  unfold Gcb.processed
  rcases ratio_cases g with ⟨larger, size⟩ | ⟨smaller, size⟩ | ⟨same, -⟩
  · rw [if_pos larger, size, ← Nat.mul_assoc, Nat.mul_div_cancel _ (ratio_pos g)]
  · rw [if_neg (by omega), if_pos smaller, Nat.mul_assoc, ← size]
    refine Nat.mod_eq_of_lt (Nat.lt_of_le_of_lt within (Nat.lt_of_le_of_lt ?_ addressable))
    exact Nat.le_mul_of_pos_right L (by decide)
  · exact absurd same differ

omit [Inhabited D] in
/-- The samples that an acceptor takes of a chunk. -/
theorem Accepting.samples (accepting : Accepting g.toType.dataSize accepts) (call : Nat)
    (chunk : List UInt8) :
    ∃ n, accepts call (converted k g chunk) = n * g.toType.dataSize ∧
      n * g.fromType.dataSize ≤ chunk.length ∧
      (g.fromType.dataSize ≤ chunk.length → 0 < n) := by
  obtain ⟨n, multiple⟩ := accepting.aligned call (converted k g chunk)
  rw [Nat.mul_comm] at multiple
  have within := accepting.within call (converted k g chunk)
  rw [multiple, length_converted] at within
  have few : n ≤ chunk.length / g.fromType.dataSize :=
    Nat.le_of_mul_le_mul_right within g.toType.dataSize_pos
  refine ⟨n, multiple, (Nat.le_div_iff_mul_le g.fromType.dataSize_pos).mp few, fun whole => ?_⟩
  have some : converted k g chunk ≠ [] := by
    rw [← List.length_pos_iff, length_converted]
    exact Nat.mul_pos (Nat.div_pos whole g.fromType.dataSize_pos) g.toType.dataSize_pos
  have positive := accepting.positive call _ some
  rw [multiple] at positive
  exact Nat.pos_of_mul_pos_right positive

end Pass

/-! ## The loop -/

section Loop

variable {g : Gcb D} {accepts : (call : Nat) → List UInt8 → Nat}

/-- A pass that goes on. -/
theorem offerLoop_pass (accepting : Accepting g.toType.dataSize accepts) (call : Nat)
    {chunk : List UInt8} (nonempty : chunk ≠ []) (taken : List UInt8) (written : Nat)
    (addressable : chunk.length * doubleSize < 2 ^ 64) (b : List UInt8) (t : List D) :
    ∃ b' t', ∀ fuel,
      offerLoop (convertingWrite k accepts) (fuel + 1) ({ g with buf := b, tmp := t }, call, taken)
        chunk written =
      offerLoop (convertingWrite k accepts) fuel ({ g with buf := b', tmp := t' }, call + 1,
          taken ++ (converted k g chunk).take (accepts call (converted k g chunk)))
        (chunk.drop (g.processed chunk.length (accepts call (converted k g chunk))))
        (written + g.processed chunk.length (accepts call (converted k g chunk))) := by
  obtain ⟨b', t', pass⟩ := pass_eq k accepting call taken chunk addressable b t
  obtain ⟨x, rest, rfl⟩ := List.exists_cons_of_ne_nil nonempty
  refine ⟨b', t', fun fuel => ?_⟩
  rw [offerLoop, pass]
  rfl

variable (differ : g.toType.dataSize ≠ g.fromType.dataSize)
  (accepting : Accepting g.toType.dataSize accepts)

include differ accepting

/-- Between formats of different sizes, whole samples are delivered. -/
theorem loop_delivers (m call : Nat) {chunk : List UInt8}
    (whole : chunk.length = m * g.fromType.dataSize)
    (addressable : chunk.length * doubleSize < 2 ^ 64) (taken : List UInt8) (written : Nat)
    (b : List UInt8) (t : List D) :
    ∃ fuel g' calls result,
      offerLoop (convertingWrite k accepts) fuel ({ g with buf := b, tmp := t }, call, taken) chunk
        written = some ((g', calls, taken ++ converted k g chunk), result) := by
  induction m using Nat.strong_induction_on generalizing call chunk taken written b t with
  | _ m ih =>
      by_cases empty : chunk = []
      · subst empty
        have nothing : converted k g [] = [] := by
          rw [← List.length_eq_zero_iff, length_converted, List.length_nil, Nat.zero_div,
            Nat.zero_mul]
        exact ⟨0, _, _, _, by rw [nothing, List.append_nil]; rfl⟩
      · obtain ⟨n, accepted, within, some⟩ := accepting.samples k call chunk
        have positive : 0 < n := by
          refine some ?_
          have length := List.length_pos_iff.mpr empty
          rw [whole] at length ⊢
          exact Nat.le_mul_of_pos_left _ (Nat.pos_of_mul_pos_right length)
        have few : n ≤ m := by
          rw [whole] at within
          exact Nat.le_of_mul_le_mul_right within g.fromType.dataSize_pos
        have shorter : (chunk.drop (n * g.fromType.dataSize)).length =
            (m - n) * g.fromType.dataSize := by
          rw [List.length_drop, whole, Nat.sub_mul]
        obtain ⟨b', t', pass⟩ := offerLoop_pass k accepting call empty taken written addressable b t
        rw [accepted, pass_processed differ within addressable] at pass
        obtain ⟨fuel, g', calls, result, rest⟩ := ih (m - n) (by omega) (call + 1) shorter
          (by rw [List.length_drop]; simp only [doubleSize] at *; omega)
          (taken ++ (converted k g chunk).take (n * g.toType.dataSize))
          (written + n * g.fromType.dataSize) b' t'
        refine ⟨fuel + 1, g', calls, result, ?_⟩
        rw [pass fuel, rest, List.append_assoc, converted_split k within]

/-- Between formats of different sizes, a rest that is no whole sample keeps the loop going for
ever. -/
theorem loop_stuck (fuel call : Nat) (chunk : List UInt8)
    (partly : chunk.length % g.fromType.dataSize ≠ 0)
    (addressable : chunk.length * doubleSize < 2 ^ 64) (taken : List UInt8) (written : Nat)
    (b : List UInt8) (t : List D) :
    offerLoop (convertingWrite k accepts) fuel ({ g with buf := b, tmp := t }, call, taken) chunk
      written = none := by
  have nonempty : chunk ≠ [] := by
    rintro rfl
    exact partly (Nat.zero_mod _)
  induction fuel generalizing call chunk taken written b t with
  | zero =>
      obtain ⟨x, rest, rfl⟩ := List.exists_cons_of_ne_nil nonempty
      rfl
  | succ fuel ih =>
      obtain ⟨n, accepted, within, -⟩ := accepting.samples k call chunk
      obtain ⟨b', t', pass⟩ :=
        offerLoop_pass k accepting call nonempty taken written addressable b t
      rw [accepted, pass_processed differ within addressable] at pass
      have partly' : (chunk.drop (n * g.fromType.dataSize)).length % g.fromType.dataSize ≠ 0 := by
        rw [List.length_drop, Nat.mul_comm, Nat.sub_mul_mod (by rwa [Nat.mul_comm])]
        exact partly
      rw [pass fuel]
      refine ih (call + 1) _ partly' ?_ _ _ b' t' ?_
      · rw [List.length_drop]
        simp only [doubleSize] at *
        omega
      · intro empty
        rw [empty] at partly'
        exact partly' (Nat.zero_mod _)

end Loop

/-- Between formats of the same size one pass takes the whole chunk. -/
theorem loop_same {g : Gcb D} {accepts : (call : Nat) → List UInt8 → Nat}
    (same : g.toType.dataSize = g.fromType.dataSize)
    (accepting : Accepting g.toType.dataSize accepts) (chunk : List UInt8)
    (addressable : chunk.length * doubleSize < 2 ^ 64) :
    Delivers k g accepts chunk ↔
      accepts 0 (converted k g chunk) = (converted k g chunk).length := by
  by_cases empty : chunk = []
  · subst empty
    have nothing : converted k g [] = [] := by
      rw [← List.length_eq_zero_iff, length_converted, List.length_nil, Nat.zero_div, Nat.zero_mul]
    rw [nothing, accepting.empty]
    exact ⟨fun _ => rfl, fun _ => ⟨0, g, 0, _, by rw [nothing]; rfl⟩⟩
  · obtain ⟨b', t', pass⟩ :=
      offerLoop_pass k accepting 0 empty [] 0 addressable g.buf g.tmp
    have all : g.processed chunk.length (accepts 0 (converted k g chunk)) = chunk.length := by
      unfold Gcb.processed
      rw [if_neg (by omega), if_neg (by omega)]
    rw [all, List.drop_length, List.nil_append] at pass
    have taken : ∀ fuel, offerLoop (convertingWrite k accepts) (fuel + 1) (g, 0, []) chunk 0 =
        some (({ g with buf := b', tmp := t' }, 1,
          (converted k g chunk).take (accepts 0 (converted k g chunk))),
          { written := 0 + chunk.length }) :=
      fun fuel => (pass fuel).trans (by cases fuel <;> rfl)
    have within := accepting.within 0 (converted k g chunk)
    constructor
    · rintro ⟨fuel, g', calls, result, returned⟩
      cases fuel with
      | zero =>
          obtain ⟨x, rest, rfl⟩ := List.exists_cons_of_ne_nil empty
          cases returned
      | succ fuel =>
          rw [taken fuel] at returned
          simp only [Option.some.injEq, Prod.mk.injEq] at returned
          have length := congrArg List.length returned.1.2.2
          rw [List.length_take, Nat.min_eq_left within] at length
          exact length
    · intro accepted
      have whole := taken 0
      rw [accepted, List.take_length] at whole
      exact ⟨1, _, _, _, whole⟩

/-- **Writing through a conversion filter** loses no sample and ends exactly when the formats differ
in size and the chunk is a whole number of samples, or when they have the same size and the next
filter accepts everything at once. -/
theorem conversion_delivers_iff (g : Gcb D) {accepts : (call : Nat) → List UInt8 → Nat}
    (accepting : Accepting g.toType.dataSize accepts) (chunk : List UInt8)
    (addressable : chunk.length * doubleSize < 2 ^ 64) :
    Delivers k g accepts chunk ↔
      (g.toType.dataSize ≠ g.fromType.dataSize ∧ g.fromType.dataSize ∣ chunk.length) ∨
      (g.toType.dataSize = g.fromType.dataSize ∧
        accepts 0 (converted k g chunk) = (converted k g chunk).length) := by
  by_cases same : g.toType.dataSize = g.fromType.dataSize
  · rw [loop_same k same accepting chunk addressable]
    simp [same]
  · simp only [same, ne_eq, not_false_eq_true, true_and, false_and, or_false]
    constructor
    · rintro ⟨fuel, g', calls, result, returned⟩
      by_contra partly
      have stuck := loop_stuck k same accepting fuel 0 chunk
        (fun whole => partly (Nat.dvd_of_mod_eq_zero whole)) addressable [] 0 g.buf g.tmp
      cases returned.symm.trans stuck
    · rintro ⟨m, whole⟩
      rw [Nat.mul_comm] at whole
      exact loop_delivers k same accepting m 0 whole addressable [] 0 g.buf g.tmp

/-- A filter that accepts one byte at a time. -/
def oneByte (_ : Nat) (data : List UInt8) : Nat := if data = [] then 0 else 1

theorem oneByte_accepting : Accepting 1 oneByte where
  empty := fun _ => rfl
  positive := fun _ data nonempty => by simp [oneByte, nonempty]
  within := fun _ data => by
    unfold oneByte
    split
    · exact Nat.zero_le _
    · next nonempty => exact List.length_pos_iff.mpr nonempty
  aligned := fun _ _ => Nat.one_dvd _

/-- Two samples of two bytes are written to a filter that accepts one byte at a time. -/
theorem conversion_delivers_shorts :
    Delivers integerSamples { precision := 12, fromType := .sc16, toType := .sc8 } oneByte
      [1, 0, 2, 0] :=
  (conversion_delivers_iff integerSamples { precision := 12, fromType := .sc16, toType := .sc8 }
    oneByte_accepting [1, 0, 2, 0] (by decide)).mpr (.inl ⟨by decide, by decide⟩)

/-- Two samples of one byte, in the same format, are written to the same filter: the second one is
lost. Of one and a half samples of two bytes the half one is offered for ever. -/
theorem conversion_loses_sample :
    (Accepting 1 oneByte ∧
      ¬Delivers integerSamples { precision := 12, fromType := .sc8, toType := .sc8 } oneByte
        [1, 2]) ∧
    ¬Delivers integerSamples { precision := 12, fromType := .sc16, toType := .sc8 } oneByte
      [1, 0, 2] := by
  let chars : Gcb Nat := { precision := 12, fromType := .sc8, toType := .sc8 }
  let shorts : Gcb Nat := { precision := 12, fromType := .sc16, toType := .sc8 }
  refine ⟨⟨oneByte_accepting, fun delivers => ?_⟩, fun delivers => ?_⟩
  · have all := (loop_same integerSamples (g := chars) rfl oneByte_accepting [1, 2]
      (by decide)).mp delivers
    exact absurd all (by decide)
  · obtain ⟨fuel, g', calls, result, returned⟩ := delivers
    have stuck := loop_stuck integerSamples (g := shorts) (by decide) oneByte_accepting fuel 0
      [1, 0, 2] (by decide) (by decide) [] 0 [] []
    cases returned.symm.trans stuck

end Bingewatch.Stream
