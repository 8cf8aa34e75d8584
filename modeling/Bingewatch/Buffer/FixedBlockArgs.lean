import Mathlib.Algebra.Ring.Nat
import Mathlib.Data.Nat.Bitwise
import Bingewatch.Buffer.FixedBlockQueue

/-!
# The geometry of a fixed block buffer

`sanitize_args` fills in defaults, looks for a power of two and rounds the block size up to it, and
`create_buffer` divides the buffer into blocks (`src/buf/fixed-block-buf.c`). Here both are done in
the widths of the source, with `size_t` of 64 bits.

The rounding wraps around for a block size near the top of the range, and the block size it gives is
zero, by which `create_buffer` divides: `geometry_iff`. Below that the numbers are those of the
other modules about the buffer (`toNat_sanitizeArgs`).
-/

set_option autoImplicit false

namespace Bingewatch.Buffer.FixedBlock.Sized

/-! ## The functions -/

/-- `struct fbbiom_args`, without the flags. -/
structure FbbiomArgs where
  bufBytes : UInt64
  blockBytes : UInt64
  align : UInt16
  deriving DecidableEq, Repr

/-- `default_buf_bytes`. -/
def defaultBufBytes : UInt64 := 100 * (1024 * 1024)

/-- `default_blk_bytes`. -/
def defaultBlkBytes : UInt64 := 1024 * 1024

/-- `default_align`. -/
def defaultAlign : UInt16 := 4

/-- The loop that looks for the power of two, from the shift `i` down to 0. -/
def verifyAlign (align : UInt16) : Nat → UInt16
  | 0 => if 1 <<< 0 = align.toNat then align else defaultAlign
  | i + 1 => if 1 <<< (i + 1) = align.toNat then align else verifyAlign align i

/-- `sanitize_args`. -/
def sanitizeArgs (args : FbbiomArgs) : FbbiomArgs :=
  let bufBytes := if 0 = args.bufBytes then defaultBufBytes else args.bufBytes
  let blockBytes := if 0 = args.blockBytes then defaultBlkBytes else args.blockBytes
  let align := if 0 = args.align then defaultAlign else args.align
  let align := verifyAlign align 15
  let a := align.toUInt64
  let adjust := (a - (blockBytes &&& (a - 1))) &&& (a - 1)
  { bufBytes := bufBytes
    blockBytes := if adjust > 0 then blockBytes + adjust else blockBytes
    align := align }

/-- The block arithmetic of `create_buffer`: the size of a block and their number. A division by
zero is undefined. -/
def blockArithmetic (args : FbbiomArgs) : Option (UInt64 × UInt64) :=
  let args := sanitizeArgs args
  let bytes := args.bufBytes
  let blockSize := args.blockBytes
  if blockSize = 0 then none
  else
    let blockCount := bytes / blockSize
    some (blockSize, if blockCount * blockSize < bytes then blockCount + 1 else blockCount)

/-! ## Sound geometry -/

/-- The block size that is asked for. -/
def requestedBlock (args : FbbiomArgs) : Nat :=
  if args.blockBytes = 0 then 1024 * 1024 else args.blockBytes.toNat

/-- The size of the buffer that is asked for. -/
def requestedBuf (args : FbbiomArgs) : Nat :=
  if args.bufBytes = 0 then 100 * (1024 * 1024) else args.bufBytes.toNat

/-- The alignment to use: the one that is asked for if it is a power of two, else 4. -/
def usedAlign (args : FbbiomArgs) : Nat :=
  if ∃ k < 16, args.align.toNat = 2 ^ k then args.align.toNat else 4

/-- The alignment is a power of two, the block size a multiple of it, not zero, not less than what
was asked for and less than one alignment above, and the number of blocks is the smallest from 1 on
that holds the buffer. -/
structure SoundGeometry (args : FbbiomArgs) : Prop where
  power : ∃ k, (sanitizeArgs args).align.toNat = 2 ^ k
  nonzero : (sanitizeArgs args).blockBytes ≠ 0
  multiple : (sanitizeArgs args).align.toNat ∣ (sanitizeArgs args).blockBytes.toNat
  least : requestedBlock args ≤ (sanitizeArgs args).blockBytes.toNat
  close : (sanitizeArgs args).blockBytes.toNat <
    requestedBlock args + (sanitizeArgs args).align.toNat
  count : ∃ size blocks : UInt64, blockArithmetic args = some (size, blocks) ∧
    size = (sanitizeArgs args).blockBytes ∧ 1 ≤ blocks.toNat ∧
    requestedBuf args ≤ blocks.toNat * size.toNat ∧
    ∀ n, 1 ≤ n → requestedBuf args ≤ n * size.toNat → blocks.toNat ≤ n

/-! ## The alignment -/

theorem toNat_verifyAlign (align : UInt16) (i : Nat) :
    (verifyAlign align i).toNat =
      if ∃ k < i + 1, align.toNat = 2 ^ k then align.toNat else 4 := by
  induction i with
  | zero =>
      have one : (∃ k < 0 + 1, align.toNat = 2 ^ k) ↔ 1 <<< 0 = align.toNat := by
        constructor
        · rintro ⟨k, small, power⟩
          obtain rfl : k = 0 := by omega
          exact power.symm
        · exact fun power => ⟨0, by omega, power.symm⟩
      simp only [verifyAlign, one]
      split <;> rfl
  | succ i ih =>
      rw [verifyAlign]
      split
      · next power =>
          rw [Nat.one_shiftLeft] at power
          rw [if_pos ⟨i + 1, by omega, power.symm⟩]
      · next other =>
          rw [Nat.one_shiftLeft] at other
          have same : (∃ k < i + 1 + 1, align.toNat = 2 ^ k) ↔
              ∃ k < i + 1, align.toNat = 2 ^ k := by
            constructor
            · rintro ⟨k, small, power⟩
              refine ⟨k, ?_, power⟩
              by_contra large
              obtain rfl : k = i + 1 := by omega
              exact other power.symm
            · rintro ⟨k, small, power⟩
              exact ⟨k, by omega, power⟩
          simp only [ih, same]

theorem usedAlign_power (args : FbbiomArgs) : ∃ k < 16, usedAlign args = 2 ^ k := by
  unfold usedAlign
  split
  · next power => exact power
  · exact ⟨2, by omega, rfl⟩

theorem toNat_align (args : FbbiomArgs) : (sanitizeArgs args).align.toNat = usedAlign args := by
  simp only [sanitizeArgs, toNat_verifyAlign, usedAlign]
  by_cases zero : 0 = args.align
  · have none : args.align.toNat = 0 := congrArg UInt16.toNat zero.symm
    have power : ∃ k < 15 + 1, defaultAlign.toNat = 2 ^ k := ⟨2, by omega, rfl⟩
    have other : ¬ ∃ k < 16, args.align.toNat = 2 ^ k := by
      rintro ⟨k, -, power⟩
      have positive : 0 < 2 ^ k := Nat.two_pow_pos k
      omega
    rw [if_pos zero, if_pos power, if_neg other]
    rfl
  · rw [if_neg zero]

/-! ## Rounding up -/

/-- The distance of a number to the next multiple. -/
def padding (r m : Nat) : Nat := (m - r % m) % m

theorem padding_lt {m : Nat} (r : Nat) (positive : 0 < m) : padding r m < m :=
  Nat.mod_lt _ positive

theorem dvd_add_padding {m : Nat} (r : Nat) (positive : 0 < m) : m ∣ r + padding r m := by
  have rest := Nat.mod_lt r positive
  rw [Nat.dvd_iff_mod_eq_zero, padding, Nat.add_mod_mod, Nat.add_mod]
  rcases Nat.eq_zero_or_pos (r % m) with zero | some
  · rw [zero, Nat.sub_zero, Nat.mod_self, Nat.zero_add, Nat.zero_mod]
  · rw [Nat.mod_eq_of_lt (show m - r % m < m by omega),
      show r % m + (m - r % m) = m by omega, Nat.mod_self]

/-- The masks of the source compute the distance to the next multiple of a power of two. -/
theorem toNat_adjust (b a : UInt64) {k : Nat} (power : a.toNat = 2 ^ k) :
    ((a - (b &&& (a - 1))) &&& (a - 1)).toNat = padding b.toNat (2 ^ k) := by
  have positive : 0 < 2 ^ k := Nat.two_pow_pos k
  have mask : (a - 1).toNat = 2 ^ k - 1 := by
    have one : (1 : UInt64) ≤ a := by
      rw [UInt64.le_iff_toNat_le, power]
      exact positive
    rw [UInt64.toNat_sub_of_le _ _ one, power]
    rfl
  have rest : (b &&& (a - 1)).toNat = b.toNat % 2 ^ k := by
    rw [UInt64.toNat_and, mask, Nat.and_two_pow_sub_one_eq_mod]
  have below : b &&& (a - 1) ≤ a := by
    rw [UInt64.le_iff_toNat_le, rest, power]
    exact Nat.le_of_lt (Nat.mod_lt _ positive)
  rw [UInt64.toNat_and, mask, Nat.and_two_pow_sub_one_eq_mod, UInt64.toNat_sub_of_le _ _ below,
    rest, power, padding]

/-- The only multiple near the end of the range is its end. -/
theorem eq_end_of_dvd {k n : Nat} (small : k < 16) (multiple : 2 ^ k ∣ n)
    (above : 2 ^ 64 < n + 2 ^ k) (below : n < 2 ^ 64 + 2 ^ k) : n = 2 ^ 64 := by
  obtain ⟨q, rfl⟩ := multiple
  have whole : 2 ^ 64 = 2 ^ k * 2 ^ (64 - k) := by
    rw [← Nat.pow_add]
    congr 1
    omega
  rw [whole, ← Nat.mul_succ] at above below
  have first : 2 ^ (64 - k) < q.succ := Nat.lt_of_mul_lt_mul_left above
  have second : q < (2 ^ (64 - k)).succ := Nat.lt_of_mul_lt_mul_left below
  rw [whole, show q = 2 ^ (64 - k) by omega]

/-! ## The sanitized arguments -/

theorem toNat_bufBytes (args : FbbiomArgs) :
    (sanitizeArgs args).bufBytes.toNat = requestedBuf args := by
  simp only [sanitizeArgs, requestedBuf, eq_comm]
  split <;> rfl

/-- The block size that is asked for and its distance to the next multiple are added in 64 bits. -/
theorem toNat_blockBytes (args : FbbiomArgs) :
    (sanitizeArgs args).blockBytes.toNat =
      (requestedBlock args + padding (requestedBlock args) (usedAlign args)) % 2 ^ 64 := by
  obtain ⟨k, -, power⟩ := usedAlign_power args
  let b := if 0 = args.blockBytes then defaultBlkBytes else args.blockBytes
  let a := (sanitizeArgs args).align.toUInt64
  have requested : b.toNat = requestedBlock args := by
    simp only [b, requestedBlock, eq_comm]
    split <;> rfl
  have alignment : a.toNat = 2 ^ k := by
    rw [← power, ← toNat_align]
    exact UInt16.toNat_toUInt64 _
  have adjust := toNat_adjust b a alignment
  rw [requested, ← power] at adjust
  have added : (sanitizeArgs args).blockBytes =
      b + ((a - (b &&& (a - 1))) &&& (a - 1)) := by
    have unfolded : (sanitizeArgs args).blockBytes =
      if ((a - (b &&& (a - 1))) &&& (a - 1)) > 0 then b + ((a - (b &&& (a - 1))) &&& (a - 1))
        else b := rfl
    rw [unfolded]
    split
    · rfl
    · next zero =>
        have none : (a - (b &&& (a - 1))) &&& (a - 1) = 0 := by
          rw [gt_iff_lt, UInt64.lt_iff_toNat_lt] at zero
          rw [← UInt64.toNat_inj]
          exact Nat.eq_zero_of_not_pos zero
        rw [none, UInt64.add_zero]
  rw [added, UInt64.toNat_add, requested, adjust]

/-- Below the end of the range the block size is rounded up. -/
theorem toNat_blockBytes_of_le {args : FbbiomArgs}
    (room : requestedBlock args + usedAlign args ≤ 2 ^ 64) :
    (sanitizeArgs args).blockBytes.toNat =
      requestedBlock args + padding (requestedBlock args) (usedAlign args) := by
  obtain ⟨k, -, power⟩ := usedAlign_power args
  have positive : 0 < usedAlign args := power ▸ Nat.two_pow_pos k
  have less := padding_lt (requestedBlock args) positive
  rw [toNat_blockBytes, Nat.mod_eq_of_lt (by omega)]

/-- Near the end of the range it is zero. -/
theorem blockBytes_of_lt {args : FbbiomArgs}
    (full : 2 ^ 64 < requestedBlock args + usedAlign args) :
    (sanitizeArgs args).blockBytes = 0 := by
  obtain ⟨k, small, power⟩ := usedAlign_power args
  have positive : 0 < usedAlign args := power ▸ Nat.two_pow_pos k
  have less := padding_lt (requestedBlock args) positive
  have multiple := dvd_add_padding (requestedBlock args) positive
  have range : requestedBlock args < 2 ^ 64 := by
    unfold requestedBlock
    split
    · decide
    · exact args.blockBytes.toNat_lt
  rw [power] at less multiple full
  have wraps := eq_end_of_dvd small multiple (by omega) (by omega)
  rw [← UInt64.toNat_inj, toNat_blockBytes, power, wraps, Nat.mod_self]
  rfl

/-! ## The block count -/

theorem requestedBuf_pos (args : FbbiomArgs) : 1 ≤ requestedBuf args := by
  unfold requestedBuf
  split
  · decide
  · next some =>
      rw [← UInt64.toNat_inj] at some
      exact Nat.pos_of_ne_zero some

/-- The division of the source, and the product it is compared with, do not wrap around. -/
theorem blockArithmetic_eq {args : FbbiomArgs} (sized : (sanitizeArgs args).blockBytes ≠ 0) :
    ∃ blocks : UInt64, blockArithmetic args = some ((sanitizeArgs args).blockBytes, blocks) ∧
      blocks.toNat =
        if requestedBuf args / (sanitizeArgs args).blockBytes.toNat *
            (sanitizeArgs args).blockBytes.toNat < requestedBuf args then
          requestedBuf args / (sanitizeArgs args).blockBytes.toNat + 1
        else requestedBuf args / (sanitizeArgs args).blockBytes.toNat := by
  have divided : blockArithmetic args = some ((sanitizeArgs args).blockBytes,
      if (sanitizeArgs args).bufBytes / (sanitizeArgs args).blockBytes *
          (sanitizeArgs args).blockBytes < (sanitizeArgs args).bufBytes then
        (sanitizeArgs args).bufBytes / (sanitizeArgs args).blockBytes + 1
      else (sanitizeArgs args).bufBytes / (sanitizeArgs args).blockBytes) := by
    simp only [blockArithmetic, if_neg sized]
  refine ⟨_, divided, ?_⟩
  clear divided
  generalize (sanitizeArgs args).blockBytes = size at sized
  have bytes := toNat_bufBytes args
  have range := (sanitizeArgs args).bufBytes.toNat_lt
  generalize (sanitizeArgs args).bufBytes = buf at bytes range
  have positive : 0 < size.toNat := Nat.pos_of_ne_zero fun zero => sized (UInt64.toNat_inj.mp zero)
  have product : buf.toNat / size.toNat * size.toNat ≤ buf.toNat := Nat.div_mul_le_self _ _
  have exact_product : (buf / size * size).toNat = buf.toNat / size.toNat * size.toNat := by
    rw [UInt64.toNat_mul, UInt64.toNat_div, Nat.mod_eq_of_lt (by omega)]
  rw [← bytes]
  by_cases short : buf.toNat / size.toNat * size.toNat < buf.toNat
  · have less : buf / size * size < buf := by
      rw [UInt64.lt_iff_toNat_lt, exact_product]
      exact short
    have count : buf.toNat / size.toNat ≤ buf.toNat / size.toNat * size.toNat :=
      Nat.le_mul_of_pos_right _ positive
    rw [if_pos less, if_pos short, UInt64.toNat_add, UInt64.toNat_div]
    exact Nat.mod_eq_of_lt (by rw [UInt64.toNat_one]; omega)
  · have whole : ¬ buf / size * size < buf := by
      rw [UInt64.lt_iff_toNat_lt, exact_product]
      exact short
    rw [if_neg whole, if_neg short, UInt64.toNat_div]

/-- The rounded quotient is the smallest number of blocks that holds the buffer. -/
theorem least_blocks (bytes : Nat) {size : Nat} (positive : 0 < size) :
    let blocks := if bytes / size * size < bytes then bytes / size + 1 else bytes / size
    bytes ≤ blocks * size ∧ ∀ n, bytes ≤ n * size → blocks ≤ n := by
  have rest := Nat.mod_lt bytes positive
  have split_up : bytes / size * size + bytes % size = bytes := by
    rw [Nat.mul_comm]
    exact Nat.div_add_mod bytes size
  intro blocks
  by_cases short : bytes / size * size < bytes
  · rw [show blocks = bytes / size + 1 from if_pos short]
    refine ⟨by rw [Nat.succ_mul]; omega, fun n holds => ?_⟩
    have more : bytes / size * size < n * size := Nat.lt_of_lt_of_le short holds
    exact Nat.lt_of_mul_lt_mul_right more
  · rw [show blocks = bytes / size from if_neg short]
    refine ⟨by omega, fun n holds => ?_⟩
    have most : bytes / size * size ≤ n * size := by omega
    exact Nat.le_of_mul_le_mul_right most positive

/-! ## The geometry -/

/-- **The geometry of a fixed block buffer is sound** exactly when the block size that is asked for
leaves room for one alignment in the range of a `size_t`. -/
theorem geometry_iff (args : FbbiomArgs) :
    SoundGeometry args ↔ requestedBlock args + usedAlign args ≤ 2 ^ 64 := by
  constructor
  · intro sound
    by_contra full
    exact sound.nonzero (blockBytes_of_lt (Nat.lt_of_not_le full))
  · intro room
    obtain ⟨k, -, power⟩ := usedAlign_power args
    have positive : 0 < usedAlign args := power ▸ Nat.two_pow_pos k
    have size := toNat_blockBytes_of_le room
    have less := padding_lt (requestedBlock args) positive
    have least : requestedBlock args ≤ (sanitizeArgs args).blockBytes.toNat := by omega
    have sized : 0 < (sanitizeArgs args).blockBytes.toNat := by
      have asked : 0 < requestedBlock args := by
        unfold requestedBlock
        split
        · decide
        · next some => exact Nat.pos_of_ne_zero fun zero => some (UInt64.toNat_inj.mp zero)
      omega
    have nonzero : (sanitizeArgs args).blockBytes ≠ 0 := by
      intro zero
      rw [zero] at sized
      exact absurd sized (Nat.lt_irrefl 0)
    obtain ⟨blocks, divided, count⟩ := blockArithmetic_eq nonzero
    obtain ⟨holds, smallest⟩ := least_blocks (requestedBuf args) sized
    refine ⟨⟨k, by rw [toNat_align, power]⟩, nonzero, ?_, least, ?_, ?_⟩
    · rw [toNat_align, size]
      exact dvd_add_padding _ positive
    · rw [toNat_align, size]
      omega
    · refine ⟨_, blocks, divided, rfl, ?_, ?_, ?_⟩
      · rw [count]
        exact blockCount_pos _ (requestedBuf_pos args)
      · rw [count]
        exact holds
      · intro n _ enough
        rw [count]
        exact smallest n enough

/-- A block size of `2^64 - 1` is rounded up to zero, by which the buffer is divided. -/
theorem block_size_wraps :
    (sanitizeArgs { bufBytes := 0, blockBytes := 0xffffffffffffffff, align := 8 }).blockBytes = 0 ∧
      blockArithmetic { bufBytes := 0, blockBytes := 0xffffffffffffffff, align := 8 } = none := by
  decide

/-! ## The numbers of the buffer -/

/-- The arguments as numbers. -/
def FbbiomArgs.toArgs (args : FbbiomArgs) : FbbArgs where
  bufBytes := args.bufBytes.toNat
  blockBytes := args.blockBytes.toNat
  align := args.align.toNat

theorem sanitizeArgs_align (args : FbbArgs) :
    (FixedBlock.sanitizeArgs args).align =
      if ∃ k < 16, args.align = 2 ^ k then args.align else 4 := by
  have found : ∀ align : Nat, ((List.range 16).any fun i => 1 <<< i = align) = true ↔
      ∃ k < 16, align = 2 ^ k := by
    intro align
    simp only [List.any_eq_true, List.mem_range, decide_eq_true_eq, Nat.one_shiftLeft]
    constructor
    · rintro ⟨k, small, power⟩
      exact ⟨k, small, power.symm⟩
    · rintro ⟨k, small, power⟩
      exact ⟨k, small, power.symm⟩
  simp only [FixedBlock.sanitizeArgs, found]
  by_cases zero : args.align = 0
  · have power : ∃ k < 16, FixedBlock.defaultAlign = 2 ^ k := ⟨2, by omega, rfl⟩
    have other : ¬ ∃ k < 16, args.align = 2 ^ k := by
      rintro ⟨k, -, power⟩
      have positive : 0 < 2 ^ k := Nat.two_pow_pos k
      omega
    rw [if_pos zero, if_pos power, if_neg other]
    rfl
  · rw [if_neg zero]
    rfl

theorem toNat_eq_zero_iff (x : UInt64) : x.toNat = 0 ↔ x = 0 :=
  ⟨fun zero => UInt64.toNat_inj.mp zero, fun zero => congrArg UInt64.toNat zero⟩

/-- **The arguments that the other modules use** are those of the source, where they are sound. -/
theorem toNat_sanitizeArgs {args : FbbiomArgs}
    (room : requestedBlock args + usedAlign args ≤ 2 ^ 64) :
    FixedBlock.sanitizeArgs args.toArgs = (sanitizeArgs args).toArgs := by
  obtain ⟨k, -, power⟩ := usedAlign_power args
  have align : (FixedBlock.sanitizeArgs args.toArgs).align = usedAlign args :=
    sanitizeArgs_align args.toArgs
  have blocks : (FixedBlock.sanitizeArgs args.toArgs).blockBytes =
      requestedBlock args + padding (requestedBlock args) (usedAlign args) := by
    have unfolded : (FixedBlock.sanitizeArgs args.toArgs).blockBytes =
        requestedBlock args + (((FixedBlock.sanitizeArgs args.toArgs).align -
          (requestedBlock args &&& ((FixedBlock.sanitizeArgs args.toArgs).align - 1))) &&&
            ((FixedBlock.sanitizeArgs args.toArgs).align - 1)) := by
      simp only [FixedBlock.sanitizeArgs, FbbiomArgs.toArgs, requestedBlock, toNat_eq_zero_iff]
      rfl
    rw [unfolded, align, power, Nat.and_two_pow_sub_one_eq_mod, Nat.and_two_pow_sub_one_eq_mod,
      padding]
  have buffer : (FixedBlock.sanitizeArgs args.toArgs).bufBytes = requestedBuf args := by
    simp only [FixedBlock.sanitizeArgs, FbbiomArgs.toArgs, requestedBuf, toNat_eq_zero_iff]
    rfl
  have same : ∀ {first second : FbbArgs}, first.bufBytes = second.bufBytes →
      first.blockBytes = second.blockBytes → first.align = second.align → first = second := by
    rintro ⟨_, _, _⟩ ⟨_, _, _⟩ rfl rfl rfl
    rfl
  refine same ?_ ?_ ?_
  · exact buffer.trans (toNat_bufBytes args).symm
  · exact blocks.trans (toNat_blockBytes_of_le room).symm
  · exact align.trans (toNat_align args).symm

/-- A new buffer has the blocks that the arithmetic of the source gives it. -/
theorem newBuffer_blocks {args : FbbiomArgs}
    (room : requestedBlock args + usedAlign args ≤ 2 ^ 64)
    (sized : (sanitizeArgs args).blockBytes ≠ 0) (freeram : Nat) :
    ∃ size blocks : UInt64, blockArithmetic args = some (size, blocks) ∧
      newBuffer args.toArgs freeram =
        { mem := (newRing size.toNat blocks.toNat freeram).1
          rp := (newRing size.toNat blocks.toNat freeram : Mem UInt8 × Nat).2
          wp := (newRing size.toNat blocks.toNat freeram : Mem UInt8 × Nat).2
          blockSize := size.toNat } := by
  obtain ⟨blocks, divided, count⟩ := blockArithmetic_eq sized
  refine ⟨_, blocks, divided, ?_⟩
  rw [newBuffer, toNat_sanitizeArgs room, count, ← toNat_bufBytes]
  rfl

end Bingewatch.Buffer.FixedBlock.Sized
