import Mathlib.Algebra.Ring.Nat
import Bingewatch.Foundation.Area
import Bingewatch.Filter.Call

/-!
# Conversion of sample formats

`iq_type_conversion` (`src/filter/conversions.c`) converts the samples of a write before it calls
the next filter, and those of a read after it has called it. In between, every sample is a `double`
in a second buffer. Both buffers of the filter are resized with every call, from the length of the
caller's buffer alone: the first to that length times the ratio of the two sample sizes, the second
to one `double` for each byte.

The loops are copying loops over these areas, so that a store behind the end of one is a fault.
`iqTypeConversion_write` and `iqTypeConversion_read` say what a call leaves when there is none, and
`conversion_within_buffers` that there is never one.

What the casts between the formats and the scaling make of a value is left open (`Samples`); a
sample of a format takes as many bytes as the format says.
-/

set_option autoImplicit false

namespace Bingewatch.Filter

open Foundation Machine

/-! ## Formats -/

/-- `enum iq_data_type_e`, the supported ones. -/
inductive IqDataType where
  | fc32
  | sc16
  | sc8
  deriving DecidableEq, Repr

namespace IqDataType

/-- The column `data_size` of `iq_desc`. -/
def dataSize : IqDataType → Nat
  | fc32 => 4
  | sc16 => 2
  | sc8 => 1

/-- The column `is_float` of `iq_desc`. -/
def isFloat : IqDataType → Bool
  | fc32 => true
  | _ => false

theorem dataSize_pos (t : IqDataType) : 0 < t.dataSize := by cases t <;> decide

end IqDataType

/-- `sizeof(double)`. -/
def doubleSize : Nat := 8

/-- A sum or product of type `size_t`. -/
def sizeT (n : Nat) : Nat := n % 2 ^ 64

/-- The arithmetic of the formats, with `D` for `double`: the casts to and from a format, and the
product and the quotient with a scale factor. -/
structure Samples (D : Type) where
  toDouble : IqDataType → List UInt8 → D
  ofDouble : IqDataType → D → List UInt8
  ofDouble_length : ∀ t d, (ofDouble t d).length = t.dataSize
  product : D → Nat → D
  quotient : D → Nat → D

/-- `struct generic_conversion_buf_t`, with its two areas. -/
structure Gcb (D : Type) where
  buf : List UInt8 := []
  tmp : List D := []
  precision : Nat
  fromType : IqDataType
  toType : IqDataType

variable {σ D : Type} (k : Samples D)

/-- `CONVERT_FROM`: a round of the loop that makes doubles of samples. -/
def Samples.pull (t : IqDataType) : Copy UInt8 D where
  width := t.dataSize
  fill := 1
  cost := t.dataSize
  gain := doubleSize
  conv := fun x => [k.toDouble t x]
  conv_length := fun _ _ => rfl
  cost_pos := t.dataSize_pos

/-- `CONVERT_TO`: a round of the loop that makes samples of doubles. -/
def Samples.push (t : IqDataType) : Copy D UInt8 :=
  .each (k.ofDouble t) t.dataSize doubleSize t.dataSize (k.ofDouble_length t) (by decide)

/-- A round of the loops of `_scale_float_to_integer` and `_scale_integer_to_float`, which work in
place. -/
def scaleRound (f : D → D) : Copy D D :=
  .each (fun d => [f d]) 1 doubleSize 0 (fun _ => rfl) (by decide)

/-- The common body of the two functions. A factor of one ends them at once. -/
def scale (f : D → Nat → D) (precision : Nat) (buf : List D) (len : Nat) : Option (List D) :=
  let scaleFactor := 2 ^ (precision - 1) - 1
  if scaleFactor = 1 then some buf
  else ((scaleRound fun d => f d scaleFactor).run (len + 1) len buf buf).map Prod.fst

/-- `_scale_float_to_integer`. -/
def scaleFloatToInteger (precision : Nat) (buf : List D) (len : Nat) : Option (List D) :=
  scale k.product precision buf len

/-- `_scale_integer_to_float`. -/
def scaleIntegerToFloat (precision : Nat) (buf : List D) (len : Nat) : Option (List D) :=
  scale k.quotient precision buf len

/-- The scaling between the two conversions, when just one of the formats is a float. -/
def Gcb.rescale (g : Gcb D) (tmp : List D) (len : Nat) : Option (List D) :=
  if g.toType.isFloat ^^ g.fromType.isFloat then
    if g.toType.isFloat then scaleIntegerToFloat k g.precision tmp len
    else scaleFloatToInteger k g.precision tmp len
  else some tmp

/-- The ratio of the sample sizes. -/
def Gcb.ratio (g : Gcb D) : Nat :=
  let max := if g.toType.dataSize > g.fromType.dataSize then g.toType.dataSize
    else g.fromType.dataSize
  let min := if g.toType.dataSize < g.fromType.dataSize then g.toType.dataSize
    else g.fromType.dataSize
  max / min

/-- `buf_len` for a caller's byte count. -/
def Gcb.bufLen (g : Gcb D) (bytes : Nat) : Nat := sizeT (bytes * g.ratio)

/-- The first value of `tmp_len`. -/
def tmpLen (bytes : Nat) : Nat := sizeT (bytes * doubleSize)

/-- The buffers are resized. -/
def Gcb.resize [Inhabited D] (g : Gcb D) (bytes : Nat) : Gcb D :=
  { g with
    buf := repalloc g.buf (g.bufLen bytes)
    tmp := repalloc g.tmp (tmpLen bytes / doubleSize) }

/-! ## The filter -/

/-- The statements that the two directions share: the samples in `bytes` bytes are pulled into the
intermediate buffer, scaled, and pushed into the output buffer. -/
def Gcb.transfer (g : Gcb D) (bytes : Nat) (src dst : List UInt8) :
    Option (List D × List UInt8 × Nat) := do
  let (tmp, len) ← (k.pull g.fromType).run (bytes + 1) bytes src g.tmp
  let tmp ← g.rescale k tmp len
  let (buf, len) ← (k.push g.toType).run (len + 1) len tmp dst
  some (tmp, buf, len)

/-- The byte count that the case `IOF_WRITE` leaves, when the next filter has processed `accepted`
bytes. It is written only when the sizes differ. -/
def Gcb.processed (g : Gcb D) (bytes accepted : Nat) : Nat :=
  if g.toType.dataSize > g.fromType.dataSize then accepted / g.ratio
  else if g.toType.dataSize < g.fromType.dataSize then sizeT (accepted * g.ratio)
  else bytes

/-- The case `IOF_WRITE`. -/
def conversionWrite (g : Gcb D) (next : NextCall σ) (s : σ) (a : FilterArgs) :
    Option (Gcb D × σ × FilterAnswer) := do
  let (tmp, buf, len) ← g.transfer k a.bytes a.buf g.buf
  let (s, answer) ← next s
    { buf := buf, bytes := len, block := a.block, align := g.toType.dataSize }
  some ({ g with buf := answer.buf, tmp := tmp }, s,
    { status := answer.status, buf := a.buf, bytes := g.processed a.bytes answer.bytes })

/-- The bytes that the case `IOF_READ` asks for. -/
def Gcb.asks (g : Gcb D) (bytes : Nat) : Nat :=
  if g.toType.dataSize > g.fromType.dataSize then bytes / g.ratio
  else if g.toType.dataSize < g.fromType.dataSize then sizeT (bytes * g.ratio)
  else bytes

/-- The case `IOF_READ`. -/
def conversionRead (g : Gcb D) (next : NextCall σ) (s : σ) (a : FilterArgs) :
    Option (Gcb D × σ × FilterAnswer) := do
  let (s, answer) ← next s
    { buf := g.buf, bytes := g.asks a.bytes, block := a.block, align := g.fromType.dataSize }
  let (tmp, buf, len) ← g.transfer k answer.bytes answer.buf a.buf
  some ({ g with buf := answer.buf, tmp := tmp }, s,
    { status := answer.status, buf := buf, bytes := len })

/-- `iq_type_conversion`. The object is never missing: `create_conversion_filter` makes no filter
without one. -/
def iqTypeConversion [Inhabited D] (enabled : Bool) (direction : Direction) (g : Gcb D)
    (next : NextCall σ) (s : σ) (a : FilterArgs) : Option (Gcb D × σ × FilterAnswer) :=
  if enabled = false then (next s a).map fun (s, answer) => (g, s, answer)
  else
    let g := g.resize a.bytes
    match direction with
    | .write => conversionWrite k g next s a
    | .read => conversionRead k g next s a
    | .bidirectional => some (g, s, { status := .error, buf := a.buf, bytes := a.bytes })

/-! ## What a transfer leaves -/

section Transfer

variable {g : Gcb D}

/-- The scaling of one value. -/
def Gcb.scaled (g : Gcb D) (d : D) : D :=
  let scaleFactor := 2 ^ (g.precision - 1) - 1
  if g.toType.isFloat ^^ g.fromType.isFloat then
    if scaleFactor = 1 then d
    else if g.toType.isFloat then k.quotient d scaleFactor else k.product d scaleFactor
  else d

/-- The converted form of a sample. -/
def Gcb.convert (g : Gcb D) (sample : List UInt8) : List UInt8 :=
  k.ofDouble g.toType (g.scaled k (k.toDouble g.fromType sample))

theorem length_flatMap_convert (samples : List (List UInt8)) :
    (samples.flatMap (g.convert k)).length = samples.length * g.toType.dataSize := by
  induction samples with
  | nil => simp
  | cons x samples ih =>
      rw [List.flatMap_cons, List.length_append, ih, List.length_cons, Nat.succ_mul, Gcb.convert,
        k.ofDouble_length, Nat.add_comm]

/-- What the filter stores in front of an area. -/
theorem stored_length (g : Gcb D) (n : Nat) (src : List UInt8) :
    ((pieces g.fromType.dataSize n src).flatMap (g.convert k)).length =
      n * g.toType.dataSize := by
  rw [length_flatMap_convert, length_pieces]

theorem scale_eq (f : D → Nat → D) (precision : Nat) (doubles rest : List D) :
    scale f precision (doubles ++ rest) (doubles.length * doubleSize) =
      some (doubles.map (fun d =>
        if 2 ^ (precision - 1) - 1 = 1 then d else f d (2 ^ (precision - 1) - 1)) ++ rest) := by
  simp only [scale]
  split
  · simp
  · have ran : (scaleRound fun d => f d (2 ^ (precision - 1) - 1)).run
        (doubles.length * doubleSize + 1) (doubles.length * doubleSize) (doubles ++ rest)
        (doubles ++ rest) = _ :=
      Copy.each_run_eq (Nat.mul_div_cancel doubles.length (by decide))
        (by simp only [doubleSize]; omega) (by simp)
    rw [ran]
    simp [List.map_eq_flatMap]

theorem rescale_eq (doubles rest : List D) :
    g.rescale k (doubles ++ rest) (doubles.length * doubleSize) =
      some (doubles.map (g.scaled k) ++ rest) := by
  unfold Gcb.rescale scaleIntegerToFloat scaleFloatToInteger
  split
  · next mixed =>
      split
      · next float =>
          rw [scale_eq]
          congr 3
          funext d
          simp only [Gcb.scaled, if_pos mixed, if_pos float]
      · next integer =>
          rw [scale_eq]
          congr 3
          funext d
          simp only [Gcb.scaled, if_pos mixed, if_neg integer]
  · next same =>
      have unscaled : g.scaled k = id := by
        funext d
        simp only [Gcb.scaled, if_neg same, id]
      rw [unscaled, List.map_id]

/-- **What a transfer leaves**, when the areas are large enough: the converted form of every whole
sample, in order. -/
theorem transfer_eq {bytes n : Nat} (src dst : List UInt8)
    (whole : bytes / g.fromType.dataSize = n) (source : bytes ≤ src.length)
    (doubles : n ≤ g.tmp.length) (room : n * g.toType.dataSize ≤ dst.length) :
    ∃ values, values.length = n ∧
      g.transfer k bytes src dst = some (values ++ g.tmp.drop n,
        (pieces g.fromType.dataSize n src).flatMap (g.convert k) ++
          dst.drop (n * g.toType.dataSize), n * g.toType.dataSize) := by
  let pulled := (pieces g.fromType.dataSize n src).map (k.toDouble g.fromType)
  have count : pulled.length = n := by simp [pulled]
  have few : n ≤ bytes := whole ▸ Nat.div_le_self ..
  have pull : (k.pull g.fromType).run (bytes + 1) bytes src g.tmp =
      some (pulled ++ g.tmp.drop n, n * doubleSize) := by
    have long : n * g.fromType.dataSize ≤ src.length :=
      Nat.le_trans (whole ▸ Nat.div_mul_le_self ..) source
    have ran := (k.pull g.fromType).run_eq whole (Nat.lt_succ_of_le few) long
      (Nat.le_trans (Nat.le_of_eq (Nat.mul_one n)) doubles)
    simpa [Samples.pull, pulled, List.map_eq_flatMap] using ran
  have scale : g.rescale k (pulled ++ g.tmp.drop n) (n * doubleSize) =
      some (pulled.map (g.scaled k) ++ g.tmp.drop n) := by
    rw [← count]
    exact rescale_eq k pulled _
  have push : (k.push g.toType).run (n * doubleSize + 1) (n * doubleSize)
      (pulled.map (g.scaled k) ++ g.tmp.drop n) dst =
      some ((pieces g.fromType.dataSize n src).flatMap (g.convert k) ++
        dst.drop (n * g.toType.dataSize), n * g.toType.dataSize) := by
    have count' : (pulled.map (g.scaled k)).length = n := by rw [List.length_map, count]
    have ran : (k.push g.toType).run (n * doubleSize + 1) (n * doubleSize)
        (pulled.map (g.scaled k) ++ g.tmp.drop n) dst = _ :=
      Copy.each_run_eq (by rw [count']; exact Nat.mul_div_cancel n (by decide))
        (by rw [count', doubleSize]; omega) (by rwa [count'])
    rw [ran, count']
    simp only [pulled, List.flatMap_map]
    rfl
  refine ⟨pulled.map (g.scaled k), by rw [List.length_map, count], ?_⟩
  simp [Gcb.transfer, pull, scale, push]

end Transfer

/-- What a write offers to the next filter. -/
def Gcb.offer [Inhabited D] (g : Gcb D) (a : FilterArgs) : FilterArgs where
  buf := (pieces g.fromType.dataSize (a.bytes / g.fromType.dataSize) a.buf).flatMap (g.convert k) ++
    (g.resize a.bytes).buf.drop (a.bytes / g.fromType.dataSize * g.toType.dataSize)
  bytes := a.bytes / g.fromType.dataSize * g.toType.dataSize
  block := a.block
  align := g.toType.dataSize

/-- What a read asks of the next filter. -/
def Gcb.request [Inhabited D] (g : Gcb D) (a : FilterArgs) : FilterArgs where
  buf := (g.resize a.bytes).buf
  bytes := g.asks a.bytes
  block := a.block
  align := g.fromType.dataSize

/-! ## The calls of the filter -/

section Calls

variable {g : Gcb D}

/-- The larger of the two sizes is the ratio times the smaller one. -/
theorem ratio_cases (g : Gcb D) :
    (g.toType.dataSize > g.fromType.dataSize ∧ g.toType.dataSize = g.fromType.dataSize * g.ratio) ∨
      (g.toType.dataSize < g.fromType.dataSize ∧
        g.fromType.dataSize = g.toType.dataSize * g.ratio) ∨
      (g.toType.dataSize = g.fromType.dataSize ∧ g.ratio = 1) := by
  unfold Gcb.ratio
  cases g.fromType <;> cases g.toType <;> decide

theorem ratio_pos (g : Gcb D) : 0 < g.ratio := by
  unfold Gcb.ratio
  cases g.fromType <;> cases g.toType <;> decide

theorem ratio_le (g : Gcb D) : g.ratio ≤ doubleSize := by
  unfold Gcb.ratio
  cases g.fromType <;> cases g.toType <;> decide

variable {L : Nat} (addressable : L * doubleSize < 2 ^ 64)

include addressable

/-- A multiple of the length by a factor up to eight does not wrap. -/
theorem sizeT_mul {r : Nat} (small : r ≤ doubleSize) : sizeT (L * r) = L * r :=
  Nat.mod_eq_of_lt (Nat.lt_of_le_of_lt (Nat.mul_le_mul_left L small) addressable)

theorem bufLen_eq (g : Gcb D) : g.bufLen L = L * g.ratio := sizeT_mul addressable (ratio_le g)

theorem tmpLen_eq : tmpLen L / doubleSize = L := by
  rw [tmpLen, sizeT_mul addressable (Nat.le_refl _), Nat.mul_div_cancel _ (by decide)]

/-- The whole samples of the caller's buffer, converted, are no more than `buf_len` bytes. -/
theorem pushed_le (g : Gcb D) : L / g.fromType.dataSize * g.toType.dataSize ≤ g.bufLen L := by
  have floor : L / g.fromType.dataSize * g.fromType.dataSize ≤ L := Nat.div_mul_le_self ..
  rw [bufLen_eq addressable]
  rcases ratio_cases g with ⟨-, size⟩ | ⟨smaller, -⟩ | ⟨same, one⟩
  · rw [size, ← Nat.mul_assoc]
    exact Nat.mul_le_mul_right _ floor
  · calc L / g.fromType.dataSize * g.toType.dataSize
        ≤ L / g.fromType.dataSize * g.fromType.dataSize :=
          Nat.mul_le_mul_left _ (Nat.le_of_lt smaller)
      _ ≤ L := floor
      _ ≤ L * g.ratio := Nat.le_mul_of_pos_right L (ratio_pos g)
  · rw [same, one, Nat.mul_one]
    exact floor

/-- A read asks for no more than the buffer holds, and what it asks for fits, converted, into the
caller's buffer. -/
theorem asks_le (g : Gcb D) :
    g.asks L ≤ g.bufLen L ∧ ∀ n ≤ g.asks L,
      n / g.fromType.dataSize ≤ L ∧ n / g.fromType.dataSize * g.toType.dataSize ≤ L := by
  have positive := g.fromType.dataSize_pos
  have positive' := g.toType.dataSize_pos
  have floor : ∀ n, n / g.fromType.dataSize * g.fromType.dataSize ≤ n := fun n =>
    Nat.div_mul_le_self ..
  -- The second bound gives the first: a converted sample has at least one byte.
  suffices bounds : g.asks L ≤ g.bufLen L ∧
      ∀ n ≤ g.asks L, n / g.fromType.dataSize * g.toType.dataSize ≤ L by
    refine ⟨bounds.1, fun n few => ⟨?_, bounds.2 n few⟩⟩
    exact Nat.le_trans (Nat.le_mul_of_pos_right _ positive') (bounds.2 n few)
  rw [bufLen_eq addressable]
  unfold Gcb.asks
  rcases ratio_cases g with ⟨larger, size⟩ | ⟨smaller, size⟩ | ⟨same, one⟩
  · rw [if_pos larger]
    refine ⟨Nat.le_trans (Nat.div_le_self ..) (Nat.le_mul_of_pos_right L (ratio_pos g)),
      fun n few => ?_⟩
    rw [size, ← Nat.mul_assoc]
    exact Nat.le_trans (Nat.mul_le_mul_right _ (Nat.le_trans (floor n) few))
      (Nat.div_mul_le_self ..)
  · rw [if_neg (by omega), if_pos smaller, sizeT_mul addressable (ratio_le g)]
    refine ⟨Nat.le_refl _, fun n few => ?_⟩
    have bound := Nat.le_trans (floor n) few
    rw [size, ← Nat.mul_assoc] at bound
    rw [size]
    exact Nat.le_of_mul_le_mul_right bound (ratio_pos g)
  · rw [if_neg (by omega), if_neg (by omega), one, Nat.mul_one]
    refine ⟨Nat.le_refl _, fun n few => ?_⟩
    rw [same]
    exact Nat.le_trans (floor n) few

variable [Inhabited D]

omit addressable in
theorem length_resize (g : Gcb D) :
    (g.resize L).buf.length = g.bufLen L ∧ (g.resize L).tmp.length = tmpLen L / doubleSize :=
  ⟨length_repalloc .., length_repalloc ..⟩

/-- **A write.** The next filter is offered the converted form of every whole sample. -/
theorem iqTypeConversion_write (g : Gcb D) (next : NextCall σ) (s : σ) (a : FilterArgs)
    (length : a.bytes = L) (present : L ≤ a.buf.length) :
    ∃ values, values.length = L / g.fromType.dataSize ∧
      iqTypeConversion k true .write g next s a =
        (next s (g.offer k a)).map fun (s, answer) =>
          ({ g with
              buf := answer.buf
              tmp := values ++ (g.resize L).tmp.drop (L / g.fromType.dataSize) }, s,
            { status := answer.status, buf := a.buf, bytes := g.processed L answer.bytes }) := by
  subst length
  obtain ⟨bufLength, tmpLength⟩ := length_resize (L := a.bytes) g
  rw [tmpLen_eq addressable] at tmpLength
  have few : a.bytes / g.fromType.dataSize ≤ a.bytes := Nat.div_le_self ..
  obtain ⟨values, count, transferred⟩ :=
    transfer_eq k (g := g.resize a.bytes) a.buf (g.resize a.bytes).buf rfl present
      (by rw [tmpLength]; exact few) (by rw [bufLength]; exact pushed_le addressable g)
  refine ⟨values, count, ?_⟩
  simp only [iqTypeConversion, conversionWrite, transferred, Bool.true_eq_false, if_false,
    Option.bind_eq_bind, Option.bind_some]
  show (next s (g.offer k a)).bind _ = _
  rw [Option.map_eq_bind]
  rfl

/-- **A read.** The caller's buffer gets the converted form of every whole sample that the next
filter has stored. -/
theorem iqTypeConversion_read (g : Gcb D) {next : NextCall σ} {s s' : σ} {a : FilterArgs}
    {answer : FilterAnswer} (length : a.bytes = L) (present : L ≤ a.buf.length)
    (answered : next s (g.request a) = some (s', answer)) (few : answer.bytes ≤ g.asks L)
    (area : answer.buf.length = (g.request a).buf.length) :
    ∃ values, values.length = answer.bytes / g.fromType.dataSize ∧
      iqTypeConversion k true .read g next s a = some
        ({ g with
            buf := answer.buf
            tmp := values ++ (g.resize L).tmp.drop (answer.bytes / g.fromType.dataSize) }, s',
          { status := answer.status
            buf := (pieces g.fromType.dataSize (answer.bytes / g.fromType.dataSize)
                answer.buf).flatMap (g.convert k) ++
              a.buf.drop (answer.bytes / g.fromType.dataSize * g.toType.dataSize)
            bytes := answer.bytes / g.fromType.dataSize * g.toType.dataSize }) := by
  subst length
  obtain ⟨bufLength, tmpLength⟩ := length_resize (L := a.bytes) g
  rw [tmpLen_eq addressable] at tmpLength
  obtain ⟨within, bounds⟩ := asks_le addressable g
  obtain ⟨doubles, room⟩ := bounds answer.bytes few
  have source : answer.bytes ≤ answer.buf.length := by
    rw [area]
    exact Nat.le_trans few (Nat.le_trans within (Nat.le_of_eq bufLength.symm))
  obtain ⟨values, count, transferred⟩ :=
    transfer_eq k (g := g.resize a.bytes) answer.buf a.buf rfl source
      (by rw [tmpLength]; exact doubles) (Nat.le_trans room present)
  refine ⟨values, count, ?_⟩
  simp only [iqTypeConversion, conversionRead, Bool.true_eq_false, if_false, Option.bind_eq_bind]
  show (next s (g.request a)).bind _ = _
  rw [answered, Option.bind_some, transferred, Option.bind_some]
  rfl

end Calls

/-! ## Bounds -/

section Bounds

variable [Inhabited D]

/-- What one call left in the two buffers of the filter, `g'`, and asked of the next filter is
within the lengths that they were given: the intermediate buffer has new values in front, no more
than there is room for, and the next filter was called once, with the output buffer and no more
bytes than that has. -/
structure Gcb.Within (g : Gcb D) (bytes : Nat) (g' : Gcb D) (calls : List FilterArgs) : Prop where
  doubles : ∃ values, values.length ≤ tmpLen bytes / doubleSize ∧
    g'.tmp = values ++ (g.resize bytes).tmp.drop values.length
  asked : ∃ asked, calls = [asked] ∧ asked.bytes ≤ g.bufLen bytes ∧
    asked.buf.length = g.bufLen bytes
  areas : g'.buf.length = g.bufLen bytes ∧ g'.tmp.length = tmpLen bytes / doubleSize

/-- The next filter returns, reports at most the bytes it was asked for and stores within the
buffer it was given. -/
def Modest (next : NextCall σ) : Prop :=
  ∀ s a, ∃ s' answer, next s a = some (s', answer) ∧ answer.bytes ≤ a.bytes ∧
    answer.buf.length = a.buf.length

/-- The area behind new values in front of it. -/
theorem length_front {α : Type} {values area : List α} (few : values.length ≤ area.length) :
    (values ++ area.drop values.length).length = area.length := by
  rw [List.length_append, List.length_drop]
  omega

variable {next : NextCall σ} (modest : Modest next) (s : σ) {a : FilterArgs}
  (present : a.bytes ≤ a.buf.length) (addressable : a.bytes * doubleSize < 2 ^ 64)

include modest present addressable

theorem write_within (g : Gcb D) :
    ∃ g' s' calls answer pushed,
      iqTypeConversion k true .write g (logged next) (s, []) a = some (g', (s', calls), answer) ∧
      g.Within a.bytes g' calls ∧ pushed.length ≤ g.bufLen a.bytes ∧
      calls.map FilterArgs.buf = [pushed ++ (g.resize a.bytes).buf.drop pushed.length] ∧
      calls.map FilterArgs.bytes = [pushed.length] ∧ answer.buf = a.buf := by
  obtain ⟨bufLength, tmpLength⟩ := length_resize (L := a.bytes) g
  have room := pushed_le addressable g
  obtain ⟨s', answer, answered, -, area⟩ := modest s (g.offer k a)
  have answered' : logged next (s, []) (g.offer k a) = some ((s', [g.offer k a]), answer) := by
    simp only [logged, answered, Option.map_some, List.nil_append]
  obtain ⟨values, count, written⟩ :=
    iqTypeConversion_write k addressable g (logged next) (s, []) a rfl present
  rw [answered', Option.map_some, ← count] at written
  have few : values.length ≤ (g.resize a.bytes).tmp.length := by
    rw [tmpLength, tmpLen_eq addressable, count]
    exact Nat.div_le_self ..
  let pushed := (pieces g.fromType.dataSize (a.bytes / g.fromType.dataSize) a.buf).flatMap
    (g.convert k)
  have length : pushed.length = a.bytes / g.fromType.dataSize * g.toType.dataSize :=
    stored_length k g _ _
  have offer : (g.offer k a).buf = pushed ++ (g.resize a.bytes).buf.drop pushed.length := by
    rw [length]
    rfl
  have offered : (g.offer k a).buf.length = g.bufLen a.bytes := by
    rw [offer, length_front (by rwa [length, bufLength]), bufLength]
  refine ⟨_, s', [g.offer k a], _, pushed, written,
    ⟨⟨values, ?_, rfl⟩, ⟨_, rfl, room, offered⟩, ?_⟩, ?_, congrArg (fun buf => [buf]) offer,
    congrArg (fun n => [n]) length.symm, rfl⟩
  · rwa [tmpLength] at few
  · exact ⟨area.trans offered, (length_front few).trans tmpLength⟩
  · rwa [length]

theorem read_within (g : Gcb D) :
    ∃ g' s' calls answer stored,
      iqTypeConversion k true .read g (logged next) (s, []) a = some (g', (s', calls), answer) ∧
      g.Within a.bytes g' calls ∧ stored.length ≤ a.bytes ∧
      answer.buf = stored ++ a.buf.drop stored.length ∧ answer.bytes = stored.length := by
  obtain ⟨bufLength, tmpLength⟩ := length_resize (L := a.bytes) g
  obtain ⟨within, bounds⟩ := asks_le addressable g
  obtain ⟨s', answer, answered, honest, area⟩ := modest s (g.request a)
  obtain ⟨doubles, room⟩ := bounds answer.bytes honest
  have answered' : logged next (s, []) (g.request a) = some ((s', [g.request a]), answer) := by
    simp only [logged, answered, Option.map_some, List.nil_append]
  obtain ⟨values, count, read⟩ :=
    iqTypeConversion_read k addressable g rfl present answered' honest area
  have few : values.length ≤ (g.resize a.bytes).tmp.length := by
    rw [tmpLength, tmpLen_eq addressable, count]
    exact doubles
  have length := stored_length k g (answer.bytes / g.fromType.dataSize) answer.buf
  rw [← length, ← count] at read
  refine ⟨_, s', [g.request a], _, _, read,
    ⟨⟨values, ?_, rfl⟩, ⟨_, rfl, within, bufLength⟩, ?_⟩, ?_, rfl, rfl⟩
  · rwa [tmpLength] at few
  · exact ⟨area.trans bufLength, (length_front few).trans tmpLength⟩
  · rw [count, length]
    exact room

end Bounds

/-- Integers as little-endian samples. -/
def integerSamples : Samples Nat where
  toDouble := fun _ x => x.foldr (fun byte n => byte.toNat + 256 * n) 0
  ofDouble := fun t d => (List.range t.dataSize).map fun i => UInt8.ofNat (d / 256 ^ i)
  ofDouble_length := fun t d => by simp
  product := fun d factor => d * factor
  quotient := fun d factor => d / factor

example :
    (iqTypeConversion integerSamples true .write
      { precision := 12, fromType := .sc16, toType := .sc8 }
      (logged fun n a => some (n + 1, { status := .success, buf := a.buf, bytes := a.bytes - 1 }))
      (0, []) { buf := [1, 0, 2, 0, 3], bytes := 5 }).map (fun (_, (_, calls), answer) =>
        (calls.map FilterArgs.bytes, answer.bytes)) = some ([2], 2) := by
  decide

end Bingewatch.Filter
