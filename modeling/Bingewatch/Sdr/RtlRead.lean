import Bingewatch.Foundation.Widening
import Bingewatch.Machine.Descriptor

/-!
# Reads of an RTL-SDR

`read_from_hw` reads pairs of bytes from the driver and returns complex floats
(`src/sdr/rtlsdr-machine.c`). The bytes of the driver are put at the end of the caller's buffer, and
`uint8_to_float` widens them in place, each to the four bytes of a float. The conversion of one byte
is a parameter of the model.

The widening is right (`uint8_to_float_in_place`). The loop that collects the bytes advances its
byte pointer by the number of samples, half of what was read, so the pieces of a read that takes
more than one call overlap, and the last bytes of the buffer are never stored: `rtl_read_iff`.
-/

set_option autoImplicit false

namespace Bingewatch.Sdr

open Foundation Machine

/-- The bytes from the start of the caller's buffer on. -/
abbrev Buffer := Nat → UInt8

/-- A conversion of a byte to the four bytes of a float. -/
abbrev Conv := UInt8 → Fin 4 → UInt8

/-- `uint8_to_float`, with the offsets of the two areas in the buffer. -/
def uint8ToFloat (conv : Conv) (fc uc : Nat) (nSamp : Nat) (m : Buffer) : Buffer :=
  widen conv fc uc m (nSamp * 2)

/-- The offset of `data_uc`: `n` samples of two bytes end where `n` samples of eight bytes do. -/
def dataUc (n : Nat) : Nat := n * 8 - n * 2

/-- Bytes stored from an address on. -/
def storeBytes (m : Buffer) (a : Nat) (bytes : List UInt8) : Buffer :=
  fun x => if a ≤ x then (bytes[x - a]?).getD (m x) else m x

/-- The loop of `read_from_hw`, where each call of `rtlsdr_read_sync` fails or stores some bytes:
the buffer, the samples read, and whether no call failed. Nothing is returned while a call is still
to come; a driver that stores more than it is asked for is outside of the model. -/
def readSync (m : Buffer) (rb remaining total : Nat) :
    List (Option (List UInt8)) → Option (Buffer × Nat × Bool)
  | [] => if remaining = 0 then some (m, total, true) else none
  | result :: results =>
      if remaining = 0 then some (m, total, true)
      else
        match result with
        | none => some (m, total, false)
        | some bytes =>
            if bytes.length ≤ remaining * 2 then
              let samplesRead := bytes.length / 2
              readSync (storeBytes m rb bytes) (rb + samplesRead) (remaining - samplesRead)
                (total + samplesRead) results
            else none

/-- `read_from_hw` for `n` samples: the status, the number of samples and the buffer. -/
def readFromHw (conv : Conv) (m : Buffer) (n : Nat) (results : List (Option (List UInt8))) :
    Option (IoStatus × Nat × Buffer) :=
  (readSync m (dataUc n) n 0 results).map fun (m, total, sound) =>
    if sound then (.success, total, uint8ToFloat conv 0 (dataUc n) total m)
    else (.error, total, m)

/-! ## The widening -/

theorem dataUc_eq (n : Nat) : dataUc n = 6 * n := by
  unfold dataUc
  omega

/-- The writes do not catch up with the reads. -/
theorem dataUc_ahead {n i : Nat} (inside : i < 2 * n) : 0 + 4 * i ≤ dataUc n + i := by
  rw [dataUc_eq]
  omega

/-- **Widening in place is conversion.** For every conversion and every content of the buffer, each
round reads its byte as it was at the start, and in the end the buffer holds the converted values of
the `2 * n` bytes that were at its end. -/
theorem uint8_to_float_in_place (conv : Conv) (m : Buffer) (n : Nat) :
    (∀ i < 2 * n, widen conv 0 (dataUc n) m i (6 * n + i) = m (6 * n + i)) ∧
      (∀ i < 2 * n, ∀ j : Fin 4,
        uint8ToFloat conv 0 (dataUc n) n m (4 * i + j) = conv (m (6 * n + i)) j) ∧
      ∀ x, 8 * n ≤ x → uint8ToFloat conv 0 (dataUc n) n m x = m x := by
  refine ⟨?_, ?_, ?_⟩
  · intro i inside
    have same := widen_source conv m (dataUc_ahead inside)
    rwa [dataUc_eq] at same ⊢
  · intro i inside j
    have block := widen_block conv m (show i < n * 2 by omega) (dataUc_ahead inside) j
    rw [Nat.zero_add] at block
    rw [← dataUc_eq]
    exact block
  · intro x above
    exact widen_above (by omega)

/-! ## The pieces of a read -/

/-- The pieces in which a read of `n` samples gets its bytes: none is empty, each has whole samples,
and together they are `2 * n` bytes. -/
structure Splits (n : Nat) (pieces : List (List UInt8)) : Prop where
  parts : ∀ piece ∈ pieces, piece ≠ [] ∧ 2 ∣ piece.length
  total : pieces.flatten.length = 2 * n

/-- The buffer with the pieces stored where the loop puts them. -/
def storePieces (m : Buffer) (rb : Nat) : List (List UInt8) → Buffer
  | [] => m
  | piece :: pieces => storePieces (storeBytes m rb piece) (rb + piece.length / 2) pieces

section Pieces

variable {m : Buffer} {n rb total : Nat} {piece : List UInt8} {pieces : List (List UInt8)}

theorem Splits.cons (splits : Splits n (piece :: pieces)) :
    0 < n ∧ piece.length ≤ n * 2 ∧ piece.length / 2 ≤ n ∧
      Splits (n - piece.length / 2) pieces := by
  have total := splits.total
  obtain ⟨filled, even⟩ := splits.parts piece (by simp)
  have positive := List.length_pos_iff.mpr filled
  rw [List.flatten_cons, List.length_append] at total
  refine ⟨by omega, by omega, by omega, ?_, ?_⟩
  · exact fun other member => splits.parts other (List.mem_cons_of_mem _ member)
  · omega

/-- The loop takes the pieces, and counts their samples. -/
theorem readSync_pieces (splits : Splits n pieces) :
    readSync m rb n total (pieces.map some) = some (storePieces m rb pieces, total + n, true) := by
  induction pieces generalizing m n rb total with
  | nil =>
      have none : n = 0 := by simpa using splits.total
      subst none
      rfl
  | cons piece pieces ih =>
      obtain ⟨more, fits, least, rest⟩ := splits.cons
      have none : n ≠ 0 := Nat.ne_of_gt more
      simp only [List.map_cons, readSync, if_neg none, if_pos fits]
      rw [ih rest, storePieces, Nat.add_assoc, Nat.add_sub_cancel' least]

theorem readFromHw_pieces (conv : Conv) (splits : Splits n pieces) :
    readFromHw conv m n (pieces.map some) =
      some (.success, n,
        uint8ToFloat conv 0 (dataUc n) n (storePieces m (dataUc n) pieces)) := by
  rw [readFromHw, readSync_pieces splits, Option.map_some, Nat.zero_add]
  rfl

theorem storeBytes_of_le {x : Nat} (above : rb + piece.length ≤ x) :
    storeBytes m rb piece x = m x := by
  rw [storeBytes]
  split
  · rw [List.getElem?_eq_none (by omega), Option.getD_none]
  · rfl

/-- The loop stores nothing behind half of its bytes and half of its longest piece. -/
theorem storePieces_above {long x : Nat} (splits : Splits n pieces)
    (longest : ∀ piece ∈ pieces, piece.length ≤ 2 * long) (above : rb + n + long ≤ x) :
    storePieces m rb pieces x = m x := by
  induction pieces generalizing m n rb with
  | nil => rfl
  | cons piece pieces ih =>
      obtain ⟨-, -, least, rest⟩ := splits.cons
      have even := (splits.parts piece (by simp)).2
      have short := longest piece (by simp)
      rw [storePieces, ih rest (fun other member => longest other (List.mem_cons_of_mem _ member))
        (by omega), storeBytes_of_le (by omega)]

/-- Pieces that are not empty have at least as many bytes as there are pieces. -/
theorem length_le_flatten (pieces : List (List UInt8)) (filled : ∀ piece ∈ pieces, piece ≠ []) :
    pieces.length ≤ pieces.flatten.length := by
  induction pieces with
  | nil => exact Nat.le_refl 0
  | cons piece pieces ih =>
      have first := List.length_pos_iff.mpr (filled piece (by simp))
      have rest := ih fun other member => filled other (List.mem_cons_of_mem _ member)
      rw [List.length_cons, List.flatten_cons, List.length_append]
      omega

/-- Of two pieces or more, none is the whole. -/
theorem Splits.parted (splits : Splits n pieces) (two : 2 ≤ pieces.length) :
    ∀ piece ∈ pieces, piece.length ≤ 2 * (n - 1) := by
  intro piece member
  have even := (splits.parts piece member).2
  have total := splits.total
  obtain ⟨before, after, rfl⟩ := List.append_of_mem member
  have first := length_le_flatten before fun other early =>
    (splits.parts other (List.mem_append_left _ early)).1
  have last := length_le_flatten after fun other late =>
    (splits.parts other (List.mem_append_right _ (List.mem_cons_of_mem _ late))).1
  simp only [List.flatten_append, List.flatten_cons, List.length_append, List.length_cons]
    at total two
  omega

end Pieces

/-! ## Reads that are split -/

/-- Whatever the buffer held before, a read reports `n` samples, its result is the conversion of the
bytes of the pieces in their order, and so is that of a read that gets them in one piece. -/
def ReadsAll (conv : Conv) (n : Nat) (pieces : List (List UInt8)) : Prop :=
  ∀ m, ∃ result whole, readFromHw conv m n (pieces.map some) = some (.success, n, result) ∧
    readFromHw conv m n [some pieces.flatten] = some (.success, n, whole) ∧
    (∀ i (inside : i < pieces.flatten.length) (j : Fin 4),
      result (4 * i + j) = conv pieces.flatten[i] j) ∧
    ∀ i < 2 * n, ∀ j : Fin 4, result (4 * i + j) = whole (4 * i + j)

section Whole

variable {conv : Conv} {m : Buffer} {n : Nat} {bytes : List UInt8} {pieces : List (List UInt8)}

theorem readFromHw_whole (even : bytes.length = 2 * n) :
    readFromHw conv m n [some bytes] =
      some (.success, n, uint8ToFloat conv 0 (dataUc n) n (storeBytes m (dataUc n) bytes)) := by
  by_cases none : n = 0
  · subst none
    obtain rfl : bytes = [] := List.length_eq_zero_iff.mp even
    rfl
  · have splits : Splits n [bytes] := by
      refine ⟨?_, by simpa using even⟩
      intro piece member
      rw [List.mem_singleton.mp member, ← List.length_pos_iff]
      omega
    exact readFromHw_pieces conv splits

/-- Bytes that are read in one piece are converted. -/
theorem uint8ToFloat_storeBytes (even : bytes.length = 2 * n) (i : Nat) (inside : i < bytes.length)
    (j : Fin 4) :
    uint8ToFloat conv 0 (dataUc n) n (storeBytes m (dataUc n) bytes) (4 * i + j) =
      conv bytes[i] j := by
  have block := widen_block conv (storeBytes m (dataUc n) bytes) (show i < n * 2 by omega)
    (dataUc_ahead (show i < 2 * n by omega)) j
  rw [Nat.zero_add] at block
  rw [uint8ToFloat, block, storeBytes, if_pos (Nat.le_add_right _ _), Nat.add_sub_cancel_left,
    List.getElem?_eq_getElem inside, Option.getD_some]

theorem readsAll_of_one (splits : Splits n pieces) (one : pieces.length ≤ 1) :
    ReadsAll conv n pieces := by
  have even := splits.total
  have same : ∀ m, storePieces m (dataUc n) pieces = storeBytes m (dataUc n) pieces.flatten := by
    intro m
    match pieces, one with
    | [], _ =>
        funext x
        simp [storePieces, storeBytes]
    | [piece], _ => simp [storePieces]
  intro m
  refine ⟨_, _, readFromHw_pieces conv splits, readFromHw_whole even, ?_, ?_⟩
  · intro i inside j
    rw [same]
    exact uint8ToFloat_storeBytes even i inside j
  · intro i _ j
    rw [same]

/-- With two pieces or more the last byte of the buffer is not stored. -/
theorem not_readsAll_of_two (ends : conv 0 ≠ conv 255) (splits : Splits n pieces)
    (two : 2 ≤ pieces.length) : ¬ ReadsAll conv n pieces := by
  intro reads
  have total := splits.total
  have some := length_le_flatten pieces fun piece member => (splits.parts piece member).1
  have inside : 2 * n - 1 < pieces.flatten.length := by omega
  obtain ⟨b, differs⟩ : ∃ b, conv b ≠ conv pieces.flatten[2 * n - 1] := by
    by_cases first : conv 0 = conv pieces.flatten[2 * n - 1]
    · exact ⟨255, fun last => ends (first.trans last.symm)⟩
    · exact ⟨0, first⟩
  obtain ⟨result, -, read, -, converted, -⟩ := reads fun _ => b
  rw [readFromHw_pieces conv splits] at read
  simp only [Option.some.injEq, Prod.mk.injEq, true_and] at read
  subst read
  apply differs
  funext j
  have kept : storePieces (fun _ => b) (dataUc n) pieces (dataUc n + (2 * n - 1)) = b :=
    storePieces_above splits (splits.parted two) (by omega)
  have block := widen_block conv (storePieces (fun _ => b) (dataUc n) pieces)
    (show 2 * n - 1 < n * 2 by omega) (dataUc_ahead (show 2 * n - 1 < 2 * n by omega)) j
  rw [Nat.zero_add, kept] at block
  rw [← converted (2 * n - 1) inside j, uint8ToFloat, block]

/-- **A read that is split.** For every conversion that tells the bytes 0 and 255 apart (they are
-1.0 and 1.0), every number of samples and every way in which their bytes come in pieces: the read
returns the conversion of the bytes, as if they had come in one piece, exactly when they come in one
piece. -/
theorem rtl_read_iff (ends : conv 0 ≠ conv 255) (splits : Splits n pieces) :
    ReadsAll conv n pieces ↔ pieces.length ≤ 1 := by
  constructor
  · intro reads
    by_contra two
    exact not_readsAll_of_two ends splits (by omega) reads
  · exact readsAll_of_one splits

end Whole

/-- The bytes of -1.0 for 0 and those of 1.0 for 255. -/
def endsConv : Conv := fun u j =>
  if j = 3 then (if u = 0 then 0xbf else 0x3f) else if j = 2 then 0x80 else 0

theorem rtl_read_one : ReadsAll endsConv 2 [[0, 255, 255, 0]] := by
  have ends : endsConv 0 ≠ endsConv 255 := fun same => absurd (congrFun same 3) (by decide)
  exact (rtl_read_iff ends ⟨by decide, by decide⟩).mpr (by decide)

/-- Two samples in two pieces, into a buffer of bytes 255: the last byte read was 0 (-1.0), and 1.0
is returned for it. -/
theorem rtl_read_two : ¬ ReadsAll endsConv 2 [[0, 255], [255, 0]] := by
  intro reads
  obtain ⟨result, -, read, -, converted, -⟩ := reads fun _ => 255
  have splits : Splits 2 [[0, 255], [255, 0]] := ⟨by decide, by decide⟩
  rw [readFromHw_pieces endsConv splits] at read
  simp only [Option.some.injEq, Prod.mk.injEq, true_and] at read
  subst read
  have last := converted 3 (by decide) 3
  exact absurd last (by decide)

end Bingewatch.Sdr
