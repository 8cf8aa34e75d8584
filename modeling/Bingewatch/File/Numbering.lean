import Bingewatch.File.Handles
import Bingewatch.File.Rotation

/-!
# The numbers of rotated files

A machine with `FFILE_ROTATE` and `FFILE_INDEX` numbers its files: the index goes up by one with
every rotation (`src/file-machine.c`). When the name for its index is taken, `open_file` searches
from index one on for a free name, and stores the index behind the one it found; the rotation that
follows the write adds one more. So after a search one number is left out.

The index is a `uint32_t` that is printed as an `int`. A directory that holds the numbers below `k`
is therefore continued without a gap exactly for a single write below `2 ^ 31`, or from an empty
directory on up to number `2 ^ 31 - 1` (`numbered_without_gaps_iff`).
-/

set_option autoImplicit false

namespace Bingewatch.File

open Machine

/-! ## Printed numbers -/

/-- The format `%05d` for an `int`. -/
def fmtInt : Int → Path
  | .ofNat n => List.leftpad 5 '0' (Nat.toDigits 10 n)
  | .negSucc n => '-' :: List.leftpad 4 '0' (Nat.toDigits 10 (n + 1))

/-- A `uint32_t` as an `int`. -/
def asInt (n : Nat) : Int :=
  if n % 2 ^ 32 < 2 ^ 31 then (n % 2 ^ 32 : Nat) else -((2 ^ 32 - n % 2 ^ 32 : Nat) : Int)

theorem fmtIndex_eq (n : Nat) : fmtIndex n = fmtInt (asInt n) := by
  unfold fmtIndex asInt
  split
  · rfl
  · have below : n % 2 ^ 32 < 2 ^ 32 := Nat.mod_lt _ (by decide)
    obtain ⟨k, difference⟩ : ∃ k, 2 ^ 32 - n % 2 ^ 32 = k + 1 :=
      ⟨2 ^ 32 - n % 2 ^ 32 - 1, by omega⟩
    rw [difference]
    rfl

theorem asInt_of_lt {n : Nat} (small : n < 2 ^ 31) : asInt n = n := by
  have same : n % 2 ^ 32 = n := Nat.mod_eq_of_lt (by omega)
  rw [asInt, same, if_pos small]

/-- An index that prints as it is, if that is not negative, is the number itself. -/
theorem asInt_eq_cast {n k : Nat} (same : asInt n = k) (small : n < 2 ^ 32) :
    n = k ∧ n < 2 ^ 31 := by
  unfold asInt at same
  rw [Nat.mod_eq_of_lt small] at same
  split at same <;> omega

theorem ofDigitChars_leftpad (width n : Nat) :
    Nat.ofDigitChars 10 (List.leftpad width '0' (Nat.toDigits 10 n)) 0 = n := by
  rw [List.leftpad, Nat.ofDigitChars_append, Nat.ofDigitChars_replicate_zero, Nat.mul_zero,
    Nat.ofDigitChars_ten_toDigits]

/-- A padded number has digits only. -/
theorem minus_notMem_leftpad (width n : Nat) :
    '-' ∉ List.leftpad width '0' (Nat.toDigits 10 n) := by
  intro member
  rcases List.mem_append.mp member with zero | digit
  · exact absurd (List.eq_of_mem_replicate zero) (by decide)
  · exact absurd (Nat.isDigit_of_mem_toDigits (by decide) (by decide) digit) (by decide)

theorem fmtInt_injective : Function.Injective fmtInt := by
  have value : ∀ {width a b : Nat}, List.leftpad width '0' (Nat.toDigits 10 a) =
      List.leftpad width '0' (Nat.toDigits 10 b) → a = b := by
    intro width a b same
    have parsed := congrArg (fun digits => Nat.ofDigitChars 10 digits 0) same
    simpa only [ofDigitChars_leftpad] using parsed
  have apart : ∀ a b : Nat, fmtInt (.ofNat a) ≠ fmtInt (.negSucc b) := by
    intro a b same
    refine minus_notMem_leftpad 5 a ?_
    rw [show List.leftpad 5 '0' (Nat.toDigits 10 a) = _ from same]
    exact List.mem_cons_self ..
  intro i j same
  cases i with
  | ofNat a =>
      cases j with
      | ofNat b => rw [value same]
      | negSucc b => exact absurd same (apart a b)
  | negSucc a =>
      cases j with
      | ofNat b => exact absurd same.symm (apart b a)
      | negSucc b =>
          have numbers := value (List.cons.inj same).2
          rw [Nat.succ.inj numbers]

/-! ## The directory of a machine -/

variable {κ : Type} [DecidableEq κ]

/-- A machine that rotates and numbers its files in one directory, between two writes. -/
structure FileDesc.AutoRotating (fd : FileDesc) : Prop where
  rotate : fd.flags.rotate = true
  write : fd.flags.write = true
  index : fd.flags.index = true
  noDirRotate : fd.flags.dirRotate = false
  noAutoDate : fd.flags.autoDate = false
  fr : fd.fr = none
  fw : fd.fw = none

/-- How the host finds the directory of a machine and the files in it that have its tag and a
number: each number is at a place of its own. -/
structure NumberedDir (host : Host κ) (fd : FileDesc) (root : κ) (place : Int → κ) : Prop where
  self : ∀ disk, disk root = some .dir → host.resolve disk fd.rootDir = some root
  names : ∀ disk i, disk root = some .dir →
    host.resolve disk (fd.rootDir ++ '/' :: fd.fileTag ++ '-' :: fmtInt i ++ fd.suffix) =
      some (place i)
  apart : Function.Injective place

/-- The directory is there and holds exactly the numbers below `k`. -/
structure HoldsBelow (w : World κ) (root : κ) (place : Int → κ) (k : Nat) : Prop where
  dir : w.disk root = some .dir
  below : ∀ i, (w.disk (place i)).isSome ↔ 0 ≤ i ∧ i < k

/-- The writes succeed, and each makes the file with the next number, starting with `k`, with its
data, and changes nothing else on the disk. -/
def NumbersFrom (host : Host κ) (place : Int → κ) :
    World κ → FileDesc → Nat → List (List UInt8 × Env) → Prop
  | _, _, _, [] => True
  | w, fd, k, (data, env) :: writes => ∃ w' fd',
      fileWrite host env w fd data = some (w', fd', .success, data) ∧
        w.disk (place k) = none ∧
        w'.disk = Function.update w.disk (place k) (some (.file data)) ∧
        NumbersFrom host place w' fd' (k + 1) writes

/-! ## One write -/

theorem firstFree_eq {taken : Nat → Bool} {fuel start found : Nat} (from_ : start ≤ found)
    (within : found < start + fuel) (before : ∀ i, start ≤ i → i < found → taken i = true)
    (free : taken found = false) : firstFree taken fuel start = some found := by
  induction fuel generalizing start with
  | zero => omega
  | succ fuel ih =>
      rw [firstFree]
      rcases Nat.lt_or_eq_of_le from_ with later | rfl
      · rw [if_pos (before start (Nat.le_refl _) later)]
        exact ih later (by omega) fun i after earlier => before i (by omega) earlier
      · rw [if_neg (by simp [free])]

/-- The machine at another index. -/
def FileDesc.withIndex (fd : FileDesc) (n : Nat) : FileDesc := { fd with fileIndex := n }

section Write

variable {host : Host κ} {fd : FileDesc} {root : κ} {place : Int → κ} {w : World κ}

theorem FileDesc.AutoRotating.setIndex (auto : fd.AutoRotating) (n : Nat) :
    (fd.withIndex n).AutoRotating where
  rotate := auto.rotate
  write := auto.write
  index := auto.index
  noDirRotate := auto.noDirRotate
  noAutoDate := auto.noAutoDate
  fr := auto.fr
  fw := auto.fw

omit [DecidableEq κ] in
theorem NumberedDir.resolve (dir : NumberedDir host fd root place) (here : w.disk root = some .dir)
    (n i : Nat) :
    host.resolve w.disk ((fd.withIndex n).indexedName fd.rootDir i) =
      some (place (asInt i)) := by
  rw [FileDesc.indexedName, fmtIndex_eq]
  exact dir.names w.disk (asInt i) here

omit [DecidableEq κ] in
theorem NumberedDir.stat (dir : NumberedDir host fd root place) (here : w.disk root = some .dir)
    (n i : Nat) :
    w.stat host ((fd.withIndex n).indexedName fd.rootDir i) =
      (w.disk (place (asInt i))).isSome := by
  rw [World.stat, dir.resolve here n i, Option.bind_some]

/-- The directory of the machine is entered. -/
theorem enterDirectory_auto (auto : fd.AutoRotating) (dir : NumberedDir host fd root place)
    (here : w.disk root = some .dir) (env : Env) :
    enterDirectory host env w fd = some (w, fd, some fd.rootDir) := by
  have isDir : w.isDir host fd.rootDir = true := by
    rw [World.isDir, dir.self w.disk here, Option.bind_some, here]
    rfl
  simp [enterDirectory, buildDirectoryPath, buildDate, auto.noAutoDate, auto.noDirRotate, createDir,
    isDir]

omit [DecidableEq κ] in
theorem NumberedDir.withIndex (dir : NumberedDir host fd root place) (n : Nat) :
    NumberedDir host (fd.withIndex n) root place := ⟨dir.self, dir.names, dir.apart⟩

/-- A write under a name that is chosen and free makes the file. -/
theorem fileWrite_chosen (auto : fd.AutoRotating) (dir : NumberedDir host fd root place)
    (here : w.disk root = some .dir) {n i n' : Nat} {data : List UInt8} {env : Env}
    (filled : data ≠ []) (opens : env.opens = true)
    (chosen : chooseName host w (fd.withIndex n) fd.rootDir =
      some (fd.withIndex n', fd.indexedName fd.rootDir i))
    (free : w.disk (place (asInt i)) = none) :
    ∃ w', fileWrite host env w (fd.withIndex n) data =
        some (w', fd.withIndex ((n' + 1) % 2 ^ 32), .success, data) ∧
      w'.disk = Function.update w.disk (place (asInt i)) (some (.file data)) := by
  have entered := enterDirectory_auto (auto.setIndex n) (dir.withIndex n) here env
  have resolved : host.resolve w.disk (fd.indexedName fd.rootDir i) = some (place (asInt i)) :=
    dir.resolve here fd.fileIndex i
  let w₁ : World κ := { w with
    disk := Function.update w.disk (place (asInt i)) (some (.file []))
    streams := w.streams ++ [{ place := place (asInt i) }] }
  have new : w.fopenWrite host env (fd.indexedName fd.rootDir i) =
      (w₁, some w.streams.length) := by
    unfold World.fopenWrite
    simp only [resolved]
    rw [if_pos ⟨opens, by simp [free]⟩]
  have closed : closeField w (fd.withIndex n).fr = w := by
    rw [show (fd.withIndex n).fr = none from auto.fr]
    rfl
  have opened : openWrite host env w (fd.withIndex n) =
      some (w₁, { fd.withIndex n' with fw := some w.streams.length }, true) := by
    rw [openWrite, if_neg (by simp [FileDesc.withIndex, auto.fw]), entered]
    simp only [Option.bind_some, closed]
    rw [show (fd.withIndex n).rootDir = fd.rootDir from rfl, chosen]
    simp only [Option.map_some, new]
    rfl
  have same : { fd.withIndex n' with fw := none, fileIndex := (n' + 1) % 2 ^ 32 } =
      fd.withIndex ((n' + 1) % 2 ^ 32) := by
    have fw := auto.fw
    cases fd
    simp_all [FileDesc.withIndex]
  refine ⟨(rotateWfile (w₁.fwrite w.streams.length data)
    { fd.withIndex n' with fw := some w.streams.length }).1, ?_, ?_⟩
  · rw [fileWrite, if_neg filled, if_neg (by simp [FileDesc.withIndex, auto.write]), opened]
    simp only [Option.map_some, rotateWfile]
    rw [if_pos (show (fd.withIndex n').flags.rotate = true from auto.rotate),
      if_pos (show (fd.withIndex n').flags.index = true from auto.index)]
    simp only [← same]
    rfl
  · simp only [rotateWfile, closeField_disk]
    exact fwrite_new

/-- A machine whose next name is free takes it. -/
theorem fileWrite_next (auto : fd.AutoRotating) (dir : NumberedDir host fd root place)
    (here : w.disk root = some .dir) {n : Nat} {data : List UInt8} {env : Env}
    (filled : data ≠ []) (opens : env.opens = true) (free : w.disk (place (asInt n)) = none) :
    ∃ w', fileWrite host env w (fd.withIndex n) data =
        some (w', fd.withIndex ((n + 1) % 2 ^ 32), .success, data) ∧
      w'.disk = Function.update w.disk (place (asInt n)) (some (.file data)) := by
  refine fileWrite_chosen auto dir here filled opens ?_ free
  have untaken : w.stat host ((fd.withIndex n).indexedName fd.rootDir n) = false := by
    rw [dir.stat here n n, free]
    rfl
  have first : (if (fd.withIndex n).flags.index = true then
      (fd.withIndex n).indexedName fd.rootDir (fd.withIndex n).fileIndex
      else (fd.withIndex n).plainName fd.rootDir) = (fd.withIndex n).indexedName fd.rootDir n :=
    if_pos auto.index
  simp only [chooseName, first]
  rw [if_neg (by simp [untaken])]
  rfl

/-- A machine whose next name is taken takes the first one from index one on that is free, and goes
on two numbers behind it. -/
theorem fileWrite_search (auto : fd.AutoRotating) (dir : NumberedDir host fd root place)
    (here : w.disk root = some .dir) {n i : Nat} {data : List UInt8} {env : Env}
    (filled : data ≠ []) (opens : env.opens = true)
    (taken : (w.disk (place (asInt n))).isSome = true) (positive : 1 ≤ i) (small : i ≤ 2 ^ 32)
    (before : ∀ j, 1 ≤ j → j < i → (w.disk (place (asInt j))).isSome = true)
    (free : w.disk (place (asInt i)) = none) :
    ∃ w', fileWrite host env w (fd.withIndex n) data =
        some (w', fd.withIndex ((i + 2) % 2 ^ 32), .success, data) ∧
      w'.disk = Function.update w.disk (place (asInt i)) (some (.file data)) := by
  have found : firstFree (fun j => w.stat host ((fd.withIndex n).indexedName fd.rootDir j))
      indexLimit 1 = some i := by
    refine firstFree_eq positive (by simp only [indexLimit]; omega) (fun j from_ earlier => ?_) ?_
    · rw [dir.stat here n j]
      exact before j from_ earlier
    · rw [dir.stat here n i, free]
      rfl
  have first : (if (fd.withIndex n).flags.index = true then
      (fd.withIndex n).indexedName fd.rootDir (fd.withIndex n).fileIndex
      else (fd.withIndex n).plainName fd.rootDir) = (fd.withIndex n).indexedName fd.rootDir n :=
    if_pos auto.index
  have index : (fd.withIndex n).flags.index = true := auto.index
  have chosen : chooseName host w (fd.withIndex n) fd.rootDir =
      some (fd.withIndex ((i + 1) % 2 ^ 32), fd.indexedName fd.rootDir i) := by
    simp only [chooseName, first]
    rw [if_pos ⟨auto.rotate, by rw [dir.stat here n n]; exact taken⟩, found,
      Option.map_some, if_pos index]
    rfl
  obtain ⟨w', wrote, disk⟩ := fileWrite_chosen auto dir here filled opens chosen free
  refine ⟨w', ?_, disk⟩
  rw [wrote, Nat.mod_add_mod]

/-- A write that makes another number than the next one breaks the numbering. -/
theorem not_numbersFrom (dir : NumberedDir host fd root place) {fd₁ fd' : FileDesc} {w' : World κ}
    {k : Nat} {i : Int} {data : List UInt8} {env : Env} {writes : List (List UInt8 × Env)}
    (wrote : fileWrite host env w fd₁ data = some (w', fd', .success, data))
    (free : w.disk (place i) = none)
    (disk : w'.disk = Function.update w.disk (place i) (some (.file data))) (other : i ≠ k) :
    ¬NumbersFrom host place w fd₁ k ((data, env) :: writes) := by
  rintro ⟨w'', fd'', wrote', -, disk', -⟩
  obtain ⟨rfl, -⟩ : w' = w'' ∧ fd' = fd'' := by simpa using wrote.symm.trans wrote'
  have apart : place i ≠ place k := fun same => other (dir.apart same)
  have different := congrFun (disk.symm.trans disk') (place i)
  rw [Function.update_self, Function.update_of_ne apart, free] at different
  cases different

omit [DecidableEq κ] in
theorem HoldsBelow.free {k : Nat} (holds : HoldsBelow w root place k) {i : Int}
    (outside : ¬(0 ≤ i ∧ i < k)) : w.disk (place i) = none := by
  have absent := (holds.below i).not.mpr outside
  simpa using absent

/-- The next number joins the numbers of the directory. -/
theorem HoldsBelow.next {k : Nat} (holds : HoldsBelow w root place k)
    (apart : Function.Injective place) {w' : World κ} {data : List UInt8}
    (disk : w'.disk = Function.update w.disk (place k) (some (.file data))) :
    HoldsBelow w' root place (k + 1) := by
  have free : w.disk (place k) = none := holds.free (by omega)
  have elsewhere : root ≠ place k := by
    rintro same
    have dir := holds.dir
    rw [same, free] at dir
    cases dir
  refine ⟨by rw [disk, Function.update_of_ne elsewhere, holds.dir], fun i => ?_⟩
  rw [disk]
  by_cases same : i = k
  · subst same
    rw [Function.update_self]
    exact iff_of_true rfl (by omega)
  · rw [Function.update_of_ne fun place => same (apart place), holds.below i]
    omega

end Write

/-! ## Sequences of writes -/

section Writes

variable {host : Host κ} {fd : FileDesc} {root : κ} {place : Int → κ}

/-- From an empty directory on the numbers go on up to the largest `int`. -/
theorem numbersFrom_iff (auto : fd.AutoRotating) (dir : NumberedDir host fd root place)
    {writes : List (List UInt8 × Env)}
    (usable : ∀ write ∈ writes, write.1 ≠ [] ∧ write.2.opens = true) {w : World κ} {k : Nat}
    (holds : HoldsBelow w root place k) (small : k ≤ 2 ^ 31) :
    NumbersFrom host place w (fd.withIndex k) k writes ↔ k + writes.length ≤ 2 ^ 31 := by
  induction writes generalizing w k with
  | nil => exact iff_of_true trivial (by simpa using small)
  | cons write writes ih =>
      obtain ⟨data, env⟩ := write
      obtain ⟨filled, opens⟩ := usable _ (List.mem_cons_self ..)
      rcases Nat.lt_or_eq_of_le small with below | rfl
      · have number := asInt_of_lt below
        have free := holds.free (i := k) (by omega)
        obtain ⟨w', wrote, disk⟩ :=
          fileWrite_next auto dir holds.dir filled opens (number.symm ▸ free)
        rw [number] at disk
        rw [Nat.mod_eq_of_lt (by omega)] at wrote
        have later := ih (fun write member => usable write (List.mem_cons_of_mem _ member))
          (holds.next dir.apart disk) (by omega)
        rw [List.length_cons, ← Nat.add_assoc, Nat.add_right_comm, ← later]
        constructor
        · rintro ⟨w'', fd'', wrote', -, -, rest⟩
          obtain ⟨rfl, rfl⟩ : w' = w'' ∧ fd.withIndex (k + 1) = fd'' := by
            simpa using wrote.symm.trans wrote'
          exact rest
        · exact fun rest => ⟨w', _, wrote, free, disk, rest⟩
      · -- The number `2 ^ 31` is printed with a minus sign.
        have number : asInt (2 ^ 31) = -(2 ^ 31) := by decide
        have free := holds.free (i := asInt (2 ^ 31)) (by rw [number]; omega)
        obtain ⟨w', wrote, disk⟩ := fileWrite_next auto dir holds.dir filled opens free
        refine iff_of_false (not_numbersFrom dir wrote free disk (by rw [number]; omega)) ?_
        simp only [List.length_cons]
        omega

/-- Over a directory with files, the first write is numbered right below `2 ^ 31`, and no second
one is. -/
theorem numbersFrom_held_iff (auto : fd.AutoRotating) (dir : NumberedDir host fd root place)
    {write : List UInt8 × Env} {writes : List (List UInt8 × Env)}
    (usable : ∀ other ∈ write :: writes, other.1 ≠ [] ∧ other.2.opens = true) {w : World κ}
    {k : Nat} (holds : HoldsBelow w root place k) (some : 0 < k) :
    NumbersFrom host place w (fd.withIndex 0) k (write :: writes) ↔ writes = [] ∧ k < 2 ^ 31 := by
  obtain ⟨data, env⟩ := write
  obtain ⟨filled, opens⟩ := usable _ (List.mem_cons_self ..)
  have taken : (w.disk (place (asInt 0))).isSome = true := by
    rw [asInt_of_lt (by decide), holds.below]
    omega
  -- The search stops at the first number that is not there, or where the numbers become negative.
  have before : ∀ j, 1 ≤ j → j < min k (2 ^ 31) → (w.disk (place (asInt j))).isSome = true := by
    intro j _ earlier
    rw [asInt_of_lt (by omega), holds.below]
    omega
  rcases Nat.lt_or_ge k (2 ^ 31) with below | beyond
  · have number := asInt_of_lt below
    have free := holds.free (i := k) (by omega)
    obtain ⟨w', wrote, disk⟩ := fileWrite_search auto dir holds.dir filled opens taken some
      (by omega) (fun j first earlier => before j first (by omega)) (number.symm ▸ free)
    rw [number] at disk
    have holds' := holds.next dir.apart disk
    cases writes with
    | nil => exact iff_of_true ⟨w', _, wrote, free, disk, trivial⟩ ⟨rfl, below⟩
    | cons second writes =>
        refine iff_of_false ?_ (by simp)
        rintro ⟨w'', fd'', wrote', -, -, rest⟩
        obtain ⟨rfl, rfl⟩ : w' = w'' ∧ fd.withIndex ((k + 2) % 2 ^ 32) = fd'' := by
          simpa using wrote.symm.trans wrote'
        obtain ⟨data', env'⟩ := second
        obtain ⟨filled', opens'⟩ :=
          usable _ (List.mem_cons_of_mem _ (List.mem_cons_self ..))
        have small : (k + 2) % 2 ^ 32 = k + 2 := Nat.mod_eq_of_lt (by omega)
        rw [small] at rest
        have other : asInt (k + 2) ≠ (k + 1 : Nat) := by
          intro same
          have number := asInt_eq_cast same (by omega)
          omega
        have outside : ¬(0 ≤ asInt (k + 2) ∧ asInt (k + 2) < (k + 1 : Nat)) := by
          rintro ⟨nonneg, less⟩
          obtain ⟨m, cast⟩ := Int.eq_ofNat_of_zero_le nonneg
          have number := asInt_eq_cast cast (by omega)
          omega
        obtain ⟨w₂, wrote₂, disk₂⟩ :=
          fileWrite_next auto dir holds'.dir filled' opens' (holds'.free outside)
        exact not_numbersFrom dir wrote₂ (holds'.free outside) disk₂ other rest
  · have number : asInt (2 ^ 31) = -(2 ^ 31) := by decide
    have free := holds.free (i := asInt (2 ^ 31)) (by rw [number]; omega)
    obtain ⟨w', wrote, disk⟩ := fileWrite_search auto dir holds.dir filled opens taken (by decide)
      (by decide) (fun j first earlier => before j first (by omega)) free
    refine iff_of_false (not_numbersFrom dir wrote free disk (by rw [number]; omega)) ?_
    omega

end Writes

/-- **Numbers without gaps.** A new machine in a directory that holds exactly the numbers below `k`
gives the numbers from `k` on to its writes, one after the other, exactly when nothing is written,
or the directory was empty and the numbers stay below `2 ^ 31`, or there is one write only with a
number below `2 ^ 31`. -/
theorem numbered_without_gaps_iff {host : Host κ} {fd : FileDesc} {root : κ} {place : Int → κ}
    {w : World κ} (auto : fd.AutoRotating) (new : fd.fileIndex = 0)
    (dir : NumberedDir host fd root place) (k : Nat) (holds : HoldsBelow w root place k)
    (writes : List (List UInt8 × Env))
    (usable : ∀ write ∈ writes, write.1 ≠ [] ∧ write.2.opens = true) :
    NumbersFrom host place w fd k writes ↔
      writes = [] ∨ k = 0 ∧ writes.length ≤ 2 ^ 31 ∨ writes.length = 1 ∧ k < 2 ^ 31 := by
  have start : fd.withIndex 0 = fd := by
    rw [← new]
    rfl
  rw [← start]
  cases writes with
  | nil => exact iff_of_true trivial (.inl rfl)
  | cons write writes =>
      rw [or_iff_right (List.cons_ne_nil write writes)]
      rcases Nat.eq_zero_or_pos k with rfl | some
      · rw [numbersFrom_iff auto dir usable holds (Nat.zero_le _)]
        omega
      · rw [numbersFrom_held_iff auto dir usable holds some, ← List.length_eq_zero_iff,
          List.length_cons]
        omega

/-- A machine that numbers its files. -/
def numberingDesc : FileDesc where
  rootDir := ['d']
  fileTag := ['t']
  flags := { write := true, rotate := true, index := true }

theorem numberingDesc_auto : numberingDesc.AutoRotating :=
  ⟨rfl, rfl, rfl, rfl, rfl, rfl, rfl⟩

/-- Where the numbered files of the machine are. -/
def numberPlace (i : Int) : Path := ['d', '/', 't', '-'] ++ fmtInt i

theorem numberingDesc_dir : NumberedDir flatHost numberingDesc ['d'] numberPlace where
  self := fun _ _ => rfl
  names := fun _ i _ => by simp [flatHost, numberingDesc, numberPlace, FileDesc.suffix]
  apart := fun i j same => fmtInt_injective (List.append_cancel_left same)

/-- The directory with the first file. -/
def oneNumber : World Path where
  disk := fun path =>
    if path = ['d'] then some .dir
    else if path = numberPlace 0 then some (.file [9]) else none

theorem oneNumber_holds : HoldsBelow oneNumber ['d'] numberPlace 1 := by
  refine ⟨rfl, fun i => ?_⟩
  have elsewhere : numberPlace i ≠ ['d'] := by simp [numberPlace]
  simp only [oneNumber, if_neg elsewhere]
  by_cases zero : i = 0
  · subst zero
    simp
  · have other : numberPlace i ≠ numberPlace 0 := fun same => zero (numberingDesc_dir.apart same)
    rw [if_neg other]
    simp
    omega

/-- One write continues the directory. -/
theorem numbered_without_gaps_once :
    NumbersFrom flatHost numberPlace oneNumber numberingDesc 1 [([1], {})] :=
  (numbered_without_gaps_iff numberingDesc_auto rfl numberingDesc_dir 1 oneNumber_holds [([1], {})]
    (by simp)).mpr (.inr (.inr ⟨rfl, by decide⟩))

/-- Two writes make the numbers one and three. -/
theorem second_number_left_out :
    HoldsBelow oneNumber ['d'] numberPlace 1 ∧
      (((fileWrite flatHost {} oneNumber numberingDesc [1]).bind fun first =>
        fileWrite flatHost {} first.1 first.2.1 [2]).map fun second =>
          [1, 2, 3].map fun i => second.1.disk (numberPlace i)) =
        some [some (.file [1]), none, some (.file [2])] ∧
      ¬NumbersFrom flatHost numberPlace oneNumber numberingDesc 1 [([1], {}), ([2], {})] := by
  refine ⟨oneNumber_holds, by decide +kernel, fun numbers => ?_⟩
  have condition := (numbersFrom_held_iff numberingDesc_auto numberingDesc_dir (by simp)
    oneNumber_holds (by decide)).mp numbers
  cases condition.1

end Bingewatch.File
