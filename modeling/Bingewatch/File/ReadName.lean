import Bingewatch.File.Directories

/-!
# The file of a read machine

`new_file_read_machine` (`src/file-machine.c`) takes a path of less than 4096 bytes apart: the
directory, the base name up to its last dot and what stands behind it. Each of the three is stored
by `set_input_str`, which keeps 1023 bytes. When the machine is first read, `open_file` puts them
together again.

Dots do no harm wherever they stand, but a long part is cut off without a word.
`read_machine_opens_iff` says which paths survive: the two parts of the base name have at most 1023
bytes, and so has the directory, unless the cut falls between two of its names and everything behind
it is slashes and dots.
-/

set_option autoImplicit false

namespace Bingewatch.File

open Foundation

/-! ## What a path denotes -/

/-- A file system: where an absolute path starts, where any other one starts, and what a name leads
to. -/
structure FileSystem (ν : Type) where
  root : ν
  cwd : ν
  enter : ν → Path → Option ν

/-- The names a path goes through. A single dot stays where it is. -/
def steps (path : Path) : List Path := (parts '/' path).filter (· ≠ ['.'])

/-- Where a path leads. -/
def FileSystem.lookup {ν : Type} (fs : FileSystem ν) (path : Path) : Option ν :=
  (steps path).foldlM fs.enter (if path.head? = some '/' then fs.root else fs.cwd)

/-- The two paths lead to the same file in every file system. -/
def SameFile (path path' : Path) : Prop :=
  ∀ (ν : Type) (fs : FileSystem ν), fs.lookup path = fs.lookup path'

/-! ## The machine -/

/-- `FILE_IOM_MAX_STRLEN`. -/
def fileIomMaxStrlen : Nat := 1024

/-- `FILE_IOM_MAX_PATHLEN`. -/
def fileIomMaxPathlen : Nat := 4096

/-- `set_input_str`: the copy and its null fit into `FILE_IOM_MAX_STRLEN` bytes. -/
def setInputStr (src : Path) : Path := src.take (fileIomMaxStrlen - 1)

def stripSlashes (path : Path) : Path := path.rdropWhile (· = '/')

/-- `dirname`, as POSIX has it. -/
def dirname (path : Path) : Path :=
  if path = [] then ['.']
  else if stripSlashes path = [] then ['/']
  else
    match cutLast '/' (stripSlashes path) with
    | none => ['.']
    | some (before, _) => if stripSlashes before = [] then ['/'] else stripSlashes before

/-- `basename`, as POSIX has it. -/
def basename (path : Path) : Path :=
  if path = [] then ['.']
  else if stripSlashes path = [] then ['/']
  else
    match cutLast '/' (stripSlashes path) with
    | none => stripSlashes path
    | some (_, after) => after

/-- The base name cut at its last dot, unless that is its first character. -/
def cutExt (base : Path) : Path × Option Path :=
  match cutLast '.' base with
  | none => (base, none)
  | some (tag, ext) => if tag = [] then (base, none) else (tag, some ext)

/-- `new_file_machine`, with the descriptor `create_file` makes. -/
def newFileMachine (rootdir fname : Path) (ext : Option Path) (flags : FileFlags) : FileDesc where
  rootDir := setInputStr rootdir
  fileTag := setInputStr fname
  fileExt := ext.map setInputStr
  flags := flags

/-- `new_file_read_machine`. -/
def newFileReadMachine (fname : Path) : Option FileDesc :=
  if fname.length ≥ fileIomMaxPathlen then none
  else
    some (newFileMachine (dirname fname) (cutExt (basename fname)).1 (cutExt (basename fname)).2
      { read := true })

/-- The name `open_file` builds for reading. -/
def readName {κ : Type} (host : Host κ) (env : Env) (w : World κ) (fd : FileDesc) : Option Path :=
  (buildDirectoryPath host env w fd).map fun (fd, path) => fd.plainName path

/-- What `set_input_str` cuts off a directory does not matter: nothing, or slashes and dots behind a
whole name. -/
def CutHarmless (dir : Path) : Prop :=
  dir.length < fileIomMaxStrlen ∨
    ((setInputStr dir).getLast? = some '/' ∨
        (dir.drop (fileIomMaxStrlen - 1)).head? = some '/') ∧
      ∀ name ∈ parts '/' (dir.drop (fileIomMaxStrlen - 1)), name = ['.']

/-- The two parts of a base name fit where they are stored. -/
structure ShortParts (base : Path) : Prop where
  tag : (cutExt base).1.length < fileIomMaxStrlen
  ext : ∀ ext, (cutExt base).2 = some ext → ext.length < fileIomMaxStrlen

/-- The parts of the path are stored whole, as far as they matter. -/
structure StoredWhole (path : Path) : Prop where
  dir : CutHarmless (dirname path)
  base : ShortParts (basename path)

/-! ## Paths that denote the same file -/

theorem steps_append_slash (before after : Path) :
    steps (before ++ '/' :: after) = steps before ++ steps after := by
  rw [steps, parts_append_sep, List.filter_append]
  rfl

/-- The file system in which a path leads to its own names. -/
def freeFileSystem : FileSystem (Bool × List Path) where
  root := (true, [])
  cwd := (false, [])
  enter := fun (absolute, names) name => some (absolute, names ++ [name])

theorem freeFileSystem_lookup (path : Path) :
    freeFileSystem.lookup path = some (decide (path.head? = some '/'), steps path) := by
  have walk : ∀ (names : List Path) (absolute : Bool) (before : List Path),
      names.foldlM freeFileSystem.enter (absolute, before) = some (absolute, before ++ names) := by
    intro names
    induction names with
    | nil => simp
    | cons name names ih =>
        intro absolute before
        have later := ih absolute (before ++ [name])
        rw [List.append_assoc] at later
        exact later
  unfold FileSystem.lookup
  split
  · next absolute =>
      rw [decide_eq_true absolute]
      exact walk (steps path) true []
  · next relative =>
      rw [decide_eq_false relative]
      exact walk (steps path) false []

/-- Two paths denote the same file exactly when they start at the same place and go through the same
names. -/
theorem sameFile_iff {path path' : Path} : SameFile path path' ↔
    (path.head? = some '/' ↔ path'.head? = some '/') ∧ steps path = steps path' := by
  constructor
  · intro same
    have free := same _ freeFileSystem
    rw [freeFileSystem_lookup, freeFileSystem_lookup] at free
    simpa using free
  · rintro ⟨start, names⟩ ν fs
    simp only [FileSystem.lookup, start, names]

theorem SameFile.symm {path path' : Path} (same : SameFile path path') : SameFile path' path :=
  fun ν fs => (same ν fs).symm

theorem SameFile.trans {path path' path'' : Path} (first : SameFile path path')
    (second : SameFile path' path'') : SameFile path path'' :=
  fun ν fs => (first ν fs).trans (second ν fs)

/-! ## Taking a path apart -/

section Parts

variable {path base : Path}

theorem stripSlashes_parts (path : Path) : parts '/' (stripSlashes path) = parts '/' path :=
  parts_rdropWhile path

theorem stripSlashes_head? (stripped : stripSlashes path ≠ []) :
    (stripSlashes path).head? = path.head? := by
  obtain ⟨rest, split⟩ : stripSlashes path <+: path := List.rdropWhile_prefix _ _
  obtain ⟨c, tail, shape⟩ := List.exists_cons_of_ne_nil stripped
  rw [shape] at split ⊢
  rw [← split]
  rfl

theorem stripSlashes_ne_nil (named : parts '/' path ≠ []) : stripSlashes path ≠ [] := by
  intro empty
  rw [← stripSlashes_parts, empty, parts_nil] at named
  exact named rfl

/-- **A path and its parts.** The directory of a path that has a name is not empty, the base name
has no slash, and together they denote what the path does. -/
theorem dirname_basename (named : parts '/' path ≠ []) :
    dirname path ≠ [] ∧ '/' ∉ basename path ∧
      SameFile (dirname path ++ '/' :: basename path) path := by
  have stripped := stripSlashes_ne_nil named
  have filled : path ≠ [] := by
    rintro rfl
    exact named parts_nil
  have head := stripSlashes_head? stripped
  have names := stripSlashes_parts path
  unfold dirname basename
  rw [if_neg filled, if_neg filled, if_neg stripped, if_neg stripped]
  by_cases slash : '/' ∈ stripSlashes path
  · obtain ⟨before, name, split, single⟩ := split_last slash
    have whole : steps path = steps before ++ steps name := by
      rw [← steps_append_slash, steps, ← names, split]
      rfl
    have above := stripSlashes_parts before
    rw [split] at head ⊢
    simp only [cutLast_append before single]
    by_cases top : stripSlashes before = []
    · -- Only slashes stand before the name.
      rw [top, parts_nil] at above
      rw [if_pos top]
      refine ⟨by simp, single, sameFile_iff.mpr ⟨?_, ?_⟩⟩
      · refine iff_of_true rfl ?_
        rw [← head]
        cases before with
        | nil => rfl
        | cons c before =>
            have slashes := List.rdropWhile_eq_nil_iff.mp top c (List.mem_cons_self ..)
            simpa using slashes
      · have unnamed : steps before = [] := by
          rw [steps, ← above]
          rfl
        rw [whole, unnamed, steps_append_slash]
        rfl
    · rw [if_neg top]
      refine ⟨top, single, sameFile_iff.mpr ⟨?_, ?_⟩⟩
      · have filled : before ≠ [] := by
          rintro rfl
          exact top rfl
        rw [← head, List.head?_append_of_ne_nil _ top, List.head?_append_of_ne_nil _ filled,
          stripSlashes_head? top]
      · rw [whole, steps_append_slash, steps, above]
        rfl
  · simp only [cutLast_of_notMem slash]
    refine ⟨by simp, slash, sameFile_iff.mpr ⟨?_, ?_⟩⟩
    · have relative : path.head? ≠ some '/' := fun first =>
        slash (List.mem_of_mem_head? (head.trans first))
      exact iff_of_false (by simp) relative
    · rw [steps_append_slash, steps, steps, steps, names]
      rfl

/-- The two parts of a base name, with the dot between them. -/
theorem cutExt_join (base : Path) :
    (cutExt base).1 ++ (match (cutExt base).2 with
      | some ext => '.' :: ext
      | none => []) = base := by
  unfold cutExt
  by_cases dot : '.' ∈ base
  · obtain ⟨tag, ext, rfl, single⟩ := split_last dot
    simp only [cutLast_append tag single]
    by_cases hidden : tag = []
    · simp [hidden]
    · simp [hidden]
  · simp [cutLast_of_notMem dot]

end Parts

/-! ## Cutting a directory -/

section Cut

variable {before after : Path}

/-- A cut beside a slash falls between two names. -/
theorem steps_append_between
    (between : before.getLast? = some '/' ∨ after.head? = some '/') :
    steps (before ++ after) = steps before ++ steps after := by
  rcases between with ends | starts
  · obtain ⟨first, rfl⟩ := List.getLast?_eq_some_iff.mp ends
    have same : steps (first ++ ['/']) = steps first := by
      rw [steps, parts_snoc_sep]
      rfl
    rw [same, List.append_assoc, List.singleton_append, steps_append_slash]
  · obtain ⟨rest, rfl⟩ := List.head?_eq_some_iff.mp starts
    have same : steps ('/' :: rest) = steps rest := by
      rw [steps, parts_sep_cons]
      rfl
    rw [same, steps_append_slash]

/-- The last name of a path that does not end with a slash. -/
theorem exists_last_name (filled : before ≠ []) (ends : before.getLast? ≠ some '/') :
    ∃ name, name ≠ [] ∧ '/' ∉ name ∧ (before = name ∨ ∃ first, before = first ++ '/' :: name) := by
  by_cases slash : '/' ∈ before
  · obtain ⟨first, name, rfl, single⟩ := split_last slash
    refine ⟨name, ?_, single, .inr ⟨first, rfl⟩⟩
    rintro rfl
    simp at ends
  · exact ⟨before, filled, slash, .inl rfl⟩

/-- The first name of a path that does not begin with a slash. -/
theorem exists_first_name (filled : after ≠ []) (starts : after.head? ≠ some '/') :
    ∃ name, name ≠ [] ∧ '/' ∉ name ∧ (after = name ∨ ∃ rest, after = name ++ '/' :: rest) := by
  by_cases slash : '/' ∈ after
  · obtain ⟨name, rest, rfl, single⟩ := List.eq_append_cons_of_mem slash
    refine ⟨name, ?_, single, .inr ⟨rest, rfl⟩⟩
    rintro rfl
    simp at starts
  · exact ⟨after, filled, slash, .inl rfl⟩

theorem steps_single {name : Path} (filled : name ≠ []) (single : '/' ∉ name) :
    steps name = if name = ['.'] then [] else [name] := by
  rw [steps, parts_of_notMem single filled]
  by_cases dot : name = ['.']
  · simp [dot]
  · simp [dot]

/-- A cut inside a name changes the names. -/
theorem steps_append_inside (filled : before ≠ []) (rest : after ≠ [])
    (ends : before.getLast? ≠ some '/') (starts : after.head? ≠ some '/') :
    steps (before ++ after) ≠ steps before := by
  obtain ⟨x, xFilled, xSingle, xSplit⟩ := exists_last_name filled ends
  obtain ⟨y, yFilled, ySingle, ySplit⟩ := exists_first_name rest starts
  have joined : steps (x ++ y) = [x ++ y] := by
    have long : x ++ y ≠ ['.'] := by
      intro dot
      have lengths := congrArg List.length dot
      have := List.length_pos_iff.mpr xFilled
      have := List.length_pos_iff.mpr yFilled
      rw [List.length_append, List.length_singleton] at lengths
      omega
    have single : '/' ∉ x ++ y := by simp [xSingle, ySingle]
    rw [steps_single (by simp [xFilled]) single, if_neg long]
  obtain ⟨later, tail⟩ : ∃ later, steps (x ++ after) = (x ++ y) :: later := by
    rcases ySplit with rfl | ⟨ending, rfl⟩
    · exact ⟨[], joined⟩
    · refine ⟨steps ending, ?_⟩
      rw [← List.append_assoc, steps_append_slash, joined]
      rfl
  obtain ⟨earlier, head, whole⟩ : ∃ earlier, steps before = earlier ++ steps x ∧
      steps (before ++ after) = earlier ++ steps (x ++ after) := by
    rcases xSplit with rfl | ⟨first, rfl⟩
    · exact ⟨[], rfl, rfl⟩
    · refine ⟨steps first, steps_append_slash first x, ?_⟩
      rw [List.append_assoc, List.cons_append, steps_append_slash]
  intro same
  rw [head, whole, tail, steps_single xFilled xSingle] at same
  have last := List.append_cancel_left same
  split at last
  · cases last
  · have shorter := congrArg List.length (List.cons.inj last).1
    have := List.length_pos_iff.mpr yFilled
    rw [List.length_append] at shorter
    omega

/-- **The cut of `set_input_str`.** -/
theorem steps_setInputStr_iff {dir : Path} :
    steps (setInputStr dir) = steps dir ↔ CutHarmless dir := by
  unfold CutHarmless setInputStr
  have joined := List.take_append_drop (fileIomMaxStrlen - 1) dir
  by_cases short : dir.length < fileIomMaxStrlen
  · rw [List.take_of_length_le (by omega)]
    exact iff_of_true rfl (.inl short)
  rw [or_iff_right short]
  have long : 1024 ≤ dir.length := Nat.le_of_not_lt short
  have filled : dir.take (fileIomMaxStrlen - 1) ≠ [] := by
    rw [← List.length_pos_iff, List.length_take]
    exact Nat.lt_min.mpr ⟨by decide, by omega⟩
  have rest : dir.drop (fileIomMaxStrlen - 1) ≠ [] := by
    rw [← List.length_pos_iff, List.length_drop]
    exact Nat.sub_pos_of_lt long
  generalize dir.take (fileIomMaxStrlen - 1) = before at joined filled
  generalize dir.drop (fileIomMaxStrlen - 1) = after at joined rest
  by_cases between : before.getLast? = some '/' ∨ after.head? = some '/'
  · rw [← joined, steps_append_between between, and_iff_right between, List.self_eq_append_right,
      steps, List.filter_eq_nil_iff]
    simp
  · have inside := steps_append_inside filled rest (fun h => between (.inl h))
      fun h => between (.inr h)
    rw [joined] at inside
    exact iff_of_false (Ne.symm inside) fun both => between both.1

end Cut

/-! ## The name that is opened -/

section Name

variable {path : Path}

/-- The parts of a base name as the machine stores them, with the dot between them. -/
def storedBase (base : Path) : Path :=
  setInputStr (cutExt base).1 ++ (match (cutExt base).2 with
    | some ext => '.' :: setInputStr ext
    | none => [])

theorem readName_newFileReadMachine {κ : Type} (host : Host κ) (env : Env) (w : World κ)
    (short : path.length < fileIomMaxPathlen) :
    (newFileReadMachine path).bind (readName host env w) =
      some (setInputStr (dirname path) ++ '/' :: storedBase (basename path)) := by
  rw [newFileReadMachine, if_neg (Nat.not_le_of_lt short), Option.bind_some]
  cases ext : (cutExt (basename path)).2 with
  | none =>
      simp [readName, buildDirectoryPath, buildDate, newFileMachine, FileDesc.plainName,
        FileDesc.suffix, storedBase, ext]
  | some suffix =>
      simp [readName, buildDirectoryPath, buildDate, newFileMachine, FileDesc.plainName,
        FileDesc.suffix, storedBase, ext]

/-- `open_file` opens the file under this name. -/
theorem openRead_readName {κ : Type} [DecidableEq κ] {host : Host κ} {env : Env} {w w' : World κ}
    {fd fd' : FileDesc} (closed : fd.fr = none)
    (opening : openRead host env w fd = some (w', fd', true)) :
    ∃ name, readName host env w fd = some name ∧
      ∃ m : World κ, m.fopenRead host env name = (w', fd'.fr) := by
  simp only [openRead, closed, Option.isSome_none, Bool.false_eq_true, if_false] at opening
  obtain ⟨⟨m, fm, dir⟩, entered, rest⟩ := Option.map_eq_some_iff.mp opening
  obtain ⟨⟨built, dirname⟩, building, eq⟩ := Option.map_eq_some_iff.mp entered
  cases dir with
  | none => cases rest
  | some dir =>
      have same : built = fm ∧ dirname = dir := by
        dsimp only at eq
        split at eq <;> simp_all
      obtain ⟨rfl, rfl⟩ := same
      refine ⟨built.plainName dirname, by rw [readName, building]; rfl, closeField m built.fw, ?_⟩
      simp only [Prod.mk.injEq] at rest
      obtain ⟨world, desc, -⟩ := rest
      rw [← world, ← desc]

theorem setInputStr_length (src : Path) :
    (setInputStr src).length = min (fileIomMaxStrlen - 1) src.length := List.length_take

theorem setInputStr_of_lt {src : Path} (short : src.length < fileIomMaxStrlen) :
    setInputStr src = src := List.take_of_length_le (Nat.le_sub_one_of_lt short)

theorem storedBase_sublist (base : Path) : List.Sublist (storedBase base) base := by
  have joined := cutExt_join base
  unfold storedBase
  generalize (cutExt base).1 = tag at joined
  generalize (cutExt base).2 = ext at joined
  rw [← joined]
  refine (List.take_sublist _ tag).append ?_
  cases ext with
  | none => exact List.Sublist.refl _
  | some ext => exact (List.take_sublist _ ext).cons_cons '.'

/-- A base name is stored whole when its two parts are short, and else what is stored is long and
another name. -/
theorem storedBase_cases (base : Path) :
    ShortParts base ∧ storedBase base = base ∨
      ¬ShortParts base ∧ fileIomMaxStrlen - 1 ≤ (storedBase base).length ∧
        (storedBase base).length < base.length := by
  have joined := cutExt_join base
  by_cases short : ShortParts base
  · refine .inl ⟨short, ?_⟩
    rw [storedBase, setInputStr_of_lt short.tag]
    cases ext : (cutExt base).2 with
    | none => simpa [ext] using joined
    | some suffix =>
        simp only [setInputStr_of_lt (short.ext suffix ext)]
        simpa [ext] using joined
  · refine .inr ⟨short, ?_⟩
    have lengths := congrArg List.length joined
    rw [storedBase]
    cases ext : (cutExt base).2 with
    | none =>
        have long : ¬(cutExt base).1.length < fileIomMaxStrlen := fun tag =>
          short ⟨tag, fun suffix same => by cases ext.symm.trans same⟩
        simp only [ext, List.append_nil, setInputStr_length] at lengths ⊢
        unfold fileIomMaxStrlen at long ⊢
        omega
    | some suffix =>
        have long : ¬((cutExt base).1.length < fileIomMaxStrlen ∧
            suffix.length < fileIomMaxStrlen) := fun both =>
          short ⟨both.1, fun suffix same => by cases ext.symm.trans same; exact both.2⟩
        simp only [ext, List.length_append, List.length_cons, setInputStr_length] at lengths ⊢
        unfold fileIomMaxStrlen at long ⊢
        omega

/-- The buffers of `open_file` hold the directory and the name: `snprintf` cuts nothing off them. -/
theorem openFile_buffers (dir base : Path) : (setInputStr dir).length < 2048 ∧
    (setInputStr dir ++ '/' :: storedBase base).length < fileIomMaxPathlen := by
  have directory := setInputStr_length dir
  have tag := setInputStr_length (cutExt base).1
  unfold fileIomMaxStrlen at directory tag
  refine ⟨by omega, ?_⟩
  rw [storedBase, fileIomMaxPathlen]
  cases (cutExt base).2 with
  | none =>
      simp only [List.length_append, List.length_cons, List.length_nil]
      omega
  | some ext =>
      have suffix := setInputStr_length ext
      unfold fileIomMaxStrlen at suffix
      simp only [List.length_append, List.length_cons]
      omega

/-- A base name that is not a single dot is a step of its own. -/
theorem steps_long {base : Path} (single : '/' ∉ base) (long : 1 < base.length) :
    steps base = [base] := by
  have filled : base ≠ [] := List.ne_nil_of_length_pos (by omega)
  rw [steps_single filled single, if_neg]
  rintro rfl
  simp at long

/-- The name that is opened denotes the same as the directory and the base name exactly when they
are stored whole. -/
theorem sameFile_stored_iff {dir base : Path} (filled : dir ≠ []) (single : '/' ∉ base) :
    SameFile (setInputStr dir ++ '/' :: storedBase base) (dir ++ '/' :: base) ↔
      CutHarmless dir ∧ ShortParts base := by
  have start : (setInputStr dir ++ '/' :: storedBase base).head? = (dir ++ '/' :: base).head? := by
    obtain ⟨c, rest, rfl⟩ := List.exists_cons_of_ne_nil filled
    rfl
  rw [sameFile_iff, start, and_iff_right Iff.rfl, steps_append_slash, steps_append_slash,
    ← steps_setInputStr_iff]
  rcases storedBase_cases base with ⟨short, whole⟩ | ⟨long, least, less⟩
  · rw [whole, List.append_cancel_right_eq, and_iff_left short]
  · refine iff_of_false (fun same => ?_) fun both => long both.2
    unfold fileIomMaxStrlen at least
    have cut : '/' ∉ storedBase base := fun slash => single ((storedBase_sublist base).subset slash)
    rw [steps_long cut (by omega), steps_long single (by omega)] at same
    have last := (List.append_inj' same rfl).2
    rw [(List.cons.inj last).1] at less
    omega

end Name

/-- **The file of a read machine.** For every path of less than 4096 bytes that has a name, the
machine is made, and the name it opens denotes the file of the path in every file system, exactly
when the parts of the path are stored whole as far as they matter. -/
theorem read_machine_opens_iff {κ : Type} (host : Host κ) (env : Env) (w : World κ) {path : Path}
    (short : path.length < fileIomMaxPathlen) (named : parts '/' path ≠ []) :
    (∃ fd name, newFileReadMachine path = some fd ∧ readName host env w fd = some name ∧
      SameFile name path) ↔ StoredWhole path := by
  obtain ⟨filled, single, same⟩ := dirname_basename named
  have whole : SameFile (setInputStr (dirname path) ++ '/' :: storedBase (basename path)) path ↔
      StoredWhole path := by
    have stored := sameFile_stored_iff filled single
    constructor
    · intro opened
      obtain ⟨dir, base⟩ := stored.mp (opened.trans same.symm)
      exact ⟨dir, base⟩
    · exact fun fits => (stored.mpr ⟨fits.dir, fits.base⟩).trans same
  rw [← whole]
  obtain ⟨fd, made, opened⟩ :=
    Option.bind_eq_some_iff.mp (readName_newFileReadMachine host env w short)
  constructor
  · rintro ⟨fd', name, made', opened', denotes⟩
    cases made.symm.trans made'
    cases opened.symm.trans opened'
    exact denotes
  · exact fun denotes => ⟨fd, _, made, opened, denotes⟩

/-- The path `d/f.txt`. -/
theorem read_machine_opens_short :
    ∃ fd name, newFileReadMachine ['d', '/', 'f', '.', 't', 'x', 't'] = some fd ∧
      readName (treeHost []) {} bareDisk fd = some name ∧
      SameFile name ['d', '/', 'f', '.', 't', 'x', 't'] := by
  refine (read_machine_opens_iff (treeHost []) {} bareDisk (by decide) (by decide +kernel)).mpr
    ⟨.inl (by decide +kernel), by decide +kernel, fun ext same => ?_⟩
  have ending :
      (cutExt (basename ['d', '/', 'f', '.', 't', 'x', 't'])).2 = some ['t', 'x', 't'] := by
    decide +kernel
  cases ending.symm.trans same
  decide

/-- A name of 1024 letters: the last one is lost. -/
theorem read_machine_loses_letter :
    (List.replicate 1024 'a').length < fileIomMaxPathlen ∧
      ∃ fd, newFileReadMachine (List.replicate 1024 'a') = some fd ∧
        readName (treeHost []) {} bareDisk fd = some ('.' :: '/' :: List.replicate 1023 'a') ∧
        ¬SameFile ('.' :: '/' :: List.replicate 1023 'a') (List.replicate 1024 'a') := by
  refine ⟨by decide +kernel, ?_⟩
  have opened : (newFileReadMachine (List.replicate 1024 'a')).bind
      (readName (treeHost []) {} bareDisk) = some ('.' :: '/' :: List.replicate 1023 'a') := by
    decide +kernel
  obtain ⟨fd, made, name⟩ := Option.bind_eq_some_iff.mp opened
  refine ⟨fd, made, name, fun same => ?_⟩
  exact absurd (sameFile_iff.mp same).2 (by decide +kernel)

end Bingewatch.File
