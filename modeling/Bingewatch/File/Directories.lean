import Bingewatch.Foundation.Separated
import Bingewatch.File.Machine

/-!
# Directories that are created with the ones above them

`create_dir` (`src/file-machine.c`) makes a directory. When that fails it cuts the path at its last
slash, makes the directory above in the same way, and tries once more.

The file system of this module is a tree: a place is the list of the names that lead to it, and
repeated slashes and slashes at the end of a path do not matter. `create_dir` means to drop a slash
at the end, but it looks at the byte behind the last one. So a path that ends with a slash is cut at
that slash, the directory above is the directory itself, and when it has been made the second
`mkdir` fails. `create_dir_creates_iff` says when this happens: where a name is followed by a
repeated slash or a slash at the end, and the directory it is in is not there.
-/

set_option autoImplicit false

namespace Bingewatch.File

open Foundation

/-! ## The tree -/

/-- A place of the tree: the names from the root on. -/
abbrev Place := List Path

/-- The place of a path, which starts at the root or at the working directory. -/
def locate (cwd : Place) (path : Path) : Place :=
  (if path.head? = some '/' then [] else cwd) ++ parts '/' path

/-- The host with a tree: a path leads somewhere when the directory above is there. Only slashes
mean something in a path; `.` and `..` are names like any other, and `resolve` follows no link. -/
def treeHost (cwd : Place) : Host Place where
  resolve := fun disk path =>
    if disk (locate cwd path).dropLast = some .dir then some (locate cwd path) else none

/-- The root is a directory, and everything is in a directory. -/
structure Tree (disk : Place → Option Node) : Prop where
  root : disk [] = some .dir
  above : ∀ place, (disk place).isSome → disk place.dropLast = some .dir

/-- The disk with all directories on the way to a place, and the place itself. -/
def withDirs (disk : Place → Option Node) (target : Place) : Place → Option Node := fun place =>
  if place <+: target then some .dir else disk place

/-- No plain file is on the way to the path. -/
def Clear (cwd : Place) (disk : Place → Option Node) (path : Path) : Prop :=
  ∀ place, place <+: locate cwd path → ∀ bytes, disk place ≠ some (.file bytes)

/-- Where a name is followed by a repeated slash, or by one at the end of the path, the directory
the name is in is there. -/
def SlashesFollow (cwd : Place) (disk : Place → Option Node) (path : Path) : Prop :=
  ∀ before rest, path = before ++ '/' :: rest → rest = [] ∨ rest.head? = some '/' →
    disk (locate cwd (before ++ ['/'])).dropLast = some .dir

/-- `create_dir` returns zero, and the directories on the way to the path are there and nothing else
is new. -/
def Created (cwd : Place) (w : World Place) (path : Path) (result : World Place × Bool) : Prop :=
  result.2 = true ∧ result.1.disk = withDirs w.disk (locate cwd path)

/-! ## Paths and places -/

section Places

variable {cwd : Place} {disk : Place → Option Node} {path before name : Path}

theorem head?_append_slash (before rest : Path) :
    (before ++ '/' :: rest).head? = (before ++ ['/']).head? := by
  cases before <;> rfl

/-- Up to a slash the places are on the way to the place of the path. -/
theorem locate_append_slash (cwd : Place) (before rest : Path) :
    locate cwd (before ++ '/' :: rest) = locate cwd (before ++ ['/']) ++ parts '/' rest := by
  rw [locate, locate, head?_append_slash, parts_append_sep, parts_snoc_sep, List.append_assoc]

theorem locate_snoc_slash (filled : before ≠ []) :
    locate cwd (before ++ ['/']) = locate cwd before := by
  obtain ⟨c, rest, rfl⟩ := List.exists_cons_of_ne_nil filled
  rw [locate, locate, parts_snoc_sep]
  rfl

theorem locate_snoc_name (filled : before ≠ []) (single : '/' ∉ name) (named : name ≠ []) :
    locate cwd (before ++ '/' :: name) = locate cwd before ++ [name] := by
  rw [locate_append_slash, locate_snoc_slash filled, parts_of_notMem single named]

theorem parentDir_append (filled : before ≠ []) (single : '/' ∉ name) :
    parentDir (before ++ '/' :: name) = some before := by
  have cut : (before ++ '/' :: name).reverse.dropWhile (· ≠ '/') = '/' :: before.reverse := by
    rw [List.reverse_append, List.reverse_cons, List.append_assoc, List.dropWhile_append_of_pos]
    · rfl
    · intro c member
      have other : c ≠ '/' := by
        rintro rfl
        exact single (List.mem_reverse.mp member)
      simpa using other
  obtain ⟨c, rest, reversed⟩ := List.exists_cons_of_ne_nil (List.reverse_ne_nil_iff.mpr filled)
  simp only [parentDir, cut, reversed]
  rw [← reversed, List.reverse_reverse]

/-- The two kinds of paths: the directory above is the root or the working directory, or the path is
cut at its last slash. -/
theorem locate_cases (cwd : Place) (filled : path ≠ []) :
    (locate cwd path).dropLast = [] ∨ (locate cwd path).dropLast = cwd ∨
      ∃ before name, path = before ++ '/' :: name ∧ before ≠ [] ∧ '/' ∉ name := by
  by_cases slash : '/' ∈ path
  · obtain ⟨before, name, rfl, single⟩ := split_last slash
    cases before with
    | nil =>
        left
        by_cases named : name = []
        · simp [locate, named]
        · simp [locate, parts_of_notMem single named]
    | cons c before => exact .inr (.inr ⟨c :: before, name, rfl, by simp, single⟩)
  · right
    left
    have relative : path.head? ≠ some '/' := fun first => slash (List.mem_of_mem_head? first)
    rw [locate, if_neg relative, parts_of_notMem slash filled, List.dropLast_concat]

theorem Tree.prefix_dir (tree : Tree disk) {place : Place} (here : disk place = some .dir)
    {above : Place} (onWay : above <+: place) : disk above = some .dir := by
  induction place using List.reverseRecOn with
  | nil =>
      rw [List.prefix_nil.mp onWay, here]
  | append_singleton place name ih =>
      rcases List.prefix_concat_iff.mp onWay with rfl | onWay
      · exact here
      · have parent := tree.above (place ++ [name]) (by simp [here])
        rw [List.dropLast_concat] at parent
        exact ih parent onWay

/-- Where the directory above the path is there, nothing is missing on the way. -/
theorem slashesFollow_of_above (tree : Tree disk)
    (there : disk (locate cwd path).dropLast = some .dir) : SlashesFollow cwd disk path := by
  intro before rest split _
  refine tree.prefix_dir there ?_
  rw [split, locate_append_slash cwd before rest]
  by_cases last : parts '/' rest = []
  · rw [last, List.append_nil]
  · rw [List.dropLast_append_of_ne_nil last]
    exact (List.dropLast_prefix _).trans (List.prefix_append _ _)

/-- A slash before a name is followed by no other one. -/
theorem slashesFollow_snoc_name (single : '/' ∉ name) (named : name ≠ []) :
    SlashesFollow cwd disk (before ++ '/' :: name) ↔ SlashesFollow cwd disk before := by
  constructor
  · intro follow first rest split follows
    refine follow first (rest ++ '/' :: name) (by rw [split, List.append_assoc]; rfl) (.inr ?_)
    rcases follows with rfl | follows
    · rfl
    · rw [List.head?_append, follows, Option.some_or]
  · intro follow first rest split follows
    -- A slash that another one or nothing follows is not the one before the name.
    have other : rest ≠ name := by
      rintro rfl
      rcases follows with empty | follows
      · exact named empty
      · exact single (List.mem_of_mem_head? follows)
    rcases List.append_eq_append_iff.mp split with ⟨middle, -, tail⟩ | ⟨middle, head, tail⟩
    · rcases List.cons_eq_append_iff.mp tail with ⟨-, same⟩ | ⟨middle', -, inside⟩
      · exact absurd (List.cons.inj same).2 other
      · exact absurd (by simp [inside]) single
    · rcases List.cons_eq_append_iff.mp tail with ⟨-, same⟩ | ⟨middle', rfl, inside⟩
      · exact absurd (List.cons.inj same).2.symm other
      · refine follow first middle' head ?_
        cases middle' with
        | nil => exact .inl rfl
        | cons c middle' =>
            right
            simpa [inside] using follows

end Places

/-! ## The calls on the tree -/

section Calls

variable {cwd : Place} {env : Env} {w : World Place} {path : Path}

theorem isDir_tree (tree : Tree w.disk) :
    w.isDir (treeHost cwd) path = true ↔ w.disk (locate cwd path) = some .dir := by
  simp only [World.isDir, treeHost, beq_iff_eq, Option.bind_eq_some_iff,
    Option.ite_none_right_eq_some, Option.some.injEq]
  constructor
  · rintro ⟨place, ⟨-, rfl⟩, isDir⟩
    exact isDir
  · exact fun isDir => ⟨_, ⟨tree.above _ (by simp [isDir]), rfl⟩, isDir⟩

/-- `mkdir` succeeds where the directory above is there and nothing is at the place. -/
theorem mkdir_tree (allowed : ∀ path, env.mkdirs path = true)
    (above : w.disk (locate cwd path).dropLast = some .dir)
    (free : w.disk (locate cwd path) = none) :
    w.mkdir (treeHost cwd) env path =
      ({ w with disk := Function.update w.disk (locate cwd path) (some .dir) }, true) := by
  simp only [World.mkdir, treeHost, if_pos above]
  rw [if_pos ⟨allowed path, free⟩]

/-- Elsewhere it fails. -/
theorem mkdir_tree_fails
    (refused : w.disk (locate cwd path).dropLast ≠ some .dir ∨ w.disk (locate cwd path) ≠ none) :
    w.mkdir (treeHost cwd) env path = (w, false) := by
  by_cases above : w.disk (locate cwd path).dropLast = some .dir
  · have taken := refused.resolve_left (absurd above)
    simp only [World.mkdir, treeHost, if_pos above]
    rw [if_neg fun both => taken both.2]
  · simp only [World.mkdir, treeHost, if_neg above]

/-- The way to a place and one name more. -/
theorem withDirs_concat (disk : Place → Option Node) (place : Place) (name : Path) :
    withDirs disk (place ++ [name]) =
      Function.update (withDirs disk place) (place ++ [name]) (some .dir) := by
  funext other
  by_cases same : other = place ++ [name]
  · subst same
    simp [withDirs]
  · rw [Function.update_of_ne same]
    simp only [withDirs, List.prefix_concat_iff, or_iff_right same]

/-- On the way to a directory there are directories. -/
theorem withDirs_of_dir {disk : Place → Option Node} (tree : Tree disk) {place : Place}
    (here : disk place = some .dir) : withDirs disk place = disk := by
  funext other
  unfold withDirs
  split
  · next onWay => exact (tree.prefix_dir here onWay).symm
  · rfl

/-- Once the directory above a place is there, only the place itself is new. -/
theorem withDirs_of_above {disk : Place → Option Node} (tree : Tree disk) {place : Place}
    (above : disk place.dropLast = some .dir) :
    withDirs disk place = Function.update disk place (some .dir) := by
  cases place using List.reverseRecOn with
  | nil => rw [withDirs_of_dir tree tree.root, ← tree.root, Function.update_eq_self]
  | append_singleton place name =>
      rw [List.dropLast_concat] at above
      rw [withDirs_concat, withDirs_of_dir tree above]

/-- The directory above is there. -/
theorem createDir_above (allowed : ∀ path, env.mkdirs path = true) (fuel : Nat)
    (tree : Tree w.disk) (clear : Clear cwd w.disk path)
    (above : w.disk (locate cwd path).dropLast = some .dir) :
    Created cwd w path (createDir (treeHost cwd) env (fuel + 1) w path) := by
  rw [Created, withDirs_of_above tree above]
  by_cases there : w.disk (locate cwd path) = some .dir
  · rw [createDir, if_pos ((isDir_tree tree).mpr there)]
    exact ⟨rfl, by rw [← there, Function.update_eq_self]⟩
  · have free : w.disk (locate cwd path) = none := by
      cases node : w.disk (locate cwd path) with
      | none => rfl
      | some node' =>
          cases node' with
          | dir => exact absurd node there
          | file bytes => exact absurd node (clear _ (List.prefix_refl _) bytes)
    rw [createDir, if_neg ((isDir_tree tree).not.mpr there)]
    simp only [mkdir_tree allowed above free, if_true]
    exact ⟨trivial, trivial⟩

/-- The directory above is not there: it is created first, as far as the text of the path shows
it. -/
theorem createDir_below (fuel : Nat) (tree : Tree w.disk) {before name : Path}
    (filled : before ≠ []) (single : '/' ∉ name)
    (missing : w.disk (locate cwd (before ++ '/' :: name)).dropLast ≠ some .dir) :
    createDir (treeHost cwd) env (fuel + 1) w (before ++ '/' :: name) =
      if (createDir (treeHost cwd) env fuel w before).2 = true then
        (createDir (treeHost cwd) env fuel w before).1.mkdir (treeHost cwd) env
          (before ++ '/' :: name)
      else ((createDir (treeHost cwd) env fuel w before).1, false) := by
  have absent : w.disk (locate cwd (before ++ '/' :: name)) ≠ some .dir := fun there =>
    missing (tree.above _ (by simp [there]))
  rw [createDir, if_neg ((isDir_tree tree).not.mpr absent)]
  simp only [mkdir_tree_fails (.inl missing), parentDir_append filled single, Bool.false_eq_true,
    if_false]

/-- A directory that was created is not made a second time. -/
theorem Created.mkdir_again {before : Path} {result : World Place × Bool}
    (made : Created cwd w before result) (same : locate cwd path = locate cwd before) :
    (result.1.mkdir (treeHost cwd) env path).2 = false := by
  have there : result.1.disk (locate cwd path) ≠ none := by
    rw [made.2, same, withDirs, if_pos (List.prefix_refl _)]
    exact Option.some_ne_none _
  rw [mkdir_tree_fails (.inr there)]

/-- Below a directory that was created one more is made. -/
theorem Created.mkdir (allowed : ∀ path, env.mkdirs path = true) (tree : Tree w.disk)
    {before name : Path} {result : World Place × Bool} (made : Created cwd w before result)
    (place : locate cwd path = locate cwd before ++ [name])
    (missing : w.disk (locate cwd path).dropLast ≠ some .dir) :
    Created cwd w path (result.1.mkdir (treeHost cwd) env path) := by
  have parent : result.1.disk (locate cwd path).dropLast = some .dir := by
    rw [made.2, place, List.dropLast_concat, withDirs, if_pos (List.prefix_refl _)]
  have free : result.1.disk (locate cwd path) = none := by
    have beyond : ¬locate cwd before ++ [name] <+: locate cwd before := by
      intro longer
      have lengths := longer.length_le
      rw [List.length_append, List.length_singleton] at lengths
      omega
    rw [made.2, place, withDirs, if_neg beyond, ← place]
    cases node : w.disk (locate cwd path) with
    | none => rfl
    | some _ => exact absurd (tree.above _ (by simp [node])) missing
  rw [mkdir_tree allowed parent free, Created, made.2, place, withDirs_concat]
  exact ⟨rfl, rfl⟩

/-- **`create_dir`.** With more fuel than the path is long it returns, and it succeeds exactly where
the slashes allow it. -/
theorem createDir_tree (allowed : ∀ path, env.mkdirs path = true) {fuel : Nat}
    (long : path.length < fuel) (filled : path ≠ []) (tree : Tree w.disk)
    (home : w.disk cwd = some .dir) (clear : Clear cwd w.disk path) :
    (SlashesFollow cwd w.disk path →
        Created cwd w path (createDir (treeHost cwd) env fuel w path)) ∧
      (¬SlashesFollow cwd w.disk path →
        (createDir (treeHost cwd) env fuel w path).2 = false) := by
  -- By the fuel, that is by the length of the path.
  induction fuel generalizing path with
  | zero => exact absurd long (Nat.not_lt_zero _)
  | succ fuel ih =>
      by_cases above : w.disk (locate cwd path).dropLast = some .dir
      · have follow := slashesFollow_of_above tree above
        exact ⟨fun _ => createDir_above allowed fuel tree clear above, fun broken =>
          absurd follow broken⟩
      rcases locate_cases cwd filled with top | here | ⟨before, name, rfl, inside, single⟩
      · exact absurd (by rw [top, tree.root]) above
      · exact absurd (by rw [here, home]) above
      rw [createDir_below fuel tree inside single above]
      have shorter : before.length < fuel := by
        simp only [List.length_append, List.length_cons] at long
        omega
      by_cases named : name = []
      · -- Cut at a slash at its end, the path leads to the same place.
        subst named
        have same : locate cwd (before ++ ['/']) = locate cwd before := locate_snoc_slash inside
        have broken : ¬SlashesFollow cwd w.disk (before ++ ['/']) := fun follow =>
          above (follow before [] rfl (.inl rfl))
        refine ⟨fun follow => absurd follow broken, fun _ => ?_⟩
        have onWay : Clear cwd w.disk before := by
          rw [Clear, ← same]
          exact clear
        obtain ⟨creates, fails⟩ := ih shorter inside onWay
        by_cases follow : SlashesFollow cwd w.disk before
        · have made := creates follow
          rw [if_pos made.1]
          exact made.mkdir_again same
        · rw [if_neg (by simp [fails follow])]
      · have place : locate cwd (before ++ '/' :: name) = locate cwd before ++ [name] :=
          locate_snoc_name inside single named
        have onWay : Clear cwd w.disk before := by
          intro other earlier
          refine clear other ?_
          rw [place]
          exact earlier.trans (List.prefix_append _ _)
        obtain ⟨creates, fails⟩ := ih shorter inside onWay
        rw [slashesFollow_snoc_name single named]
        refine ⟨fun follow => ?_, fun broken => ?_⟩
        · have made := creates follow
          rw [if_pos made.1]
          exact made.mkdir allowed tree place above
        · rw [if_neg (by simp [fails broken])]

end Calls

/-- **Created paths.** For every path that is not empty and that no plain file is in the way of,
`create_dir` returns zero and makes exactly the directories on the way to it that were missing,
exactly when no name that is followed by a repeated slash or by one at the end is in a directory
that is missing. -/
theorem create_dir_creates_iff {cwd : Place} {env : Env} (allowed : ∀ path, env.mkdirs path = true)
    {w : World Place} (tree : Tree w.disk) (home : w.disk cwd = some .dir) {path : Path}
    (filled : path ≠ []) (clear : Clear cwd w.disk path) {fuel : Nat} (long : path.length < fuel) :
    Created cwd w path (createDir (treeHost cwd) env fuel w path) ↔
      SlashesFollow cwd w.disk path := by
  obtain ⟨creates, fails⟩ := createDir_tree allowed long filled tree home clear
  refine ⟨fun created => ?_, creates⟩
  refine Classical.byContradiction fun broken => ?_
  cases created.1.symm.trans (fails broken)

/-- A disk with nothing but its root. -/
def bareDisk : World Place where
  disk := fun place => if place = [] then some .dir else none

theorem bareDisk_tree : Tree bareDisk.disk where
  root := rfl
  above := by
    intro place there
    have top : place = [] := by
      by_contra below
      simp [bareDisk, below] at there
    rw [top]
    rfl

theorem bareDisk_clear (path : Path) : Clear [] bareDisk.disk path := by
  intro place _ bytes
  unfold bareDisk
  dsimp only
  split <;> simp

/-- Two directories, with a repeated slash between them. -/
theorem create_dir_creates_repeated :
    Created [] bareDisk ['a', '/', '/', 'b']
      (createDir (treeHost []) {} 5 bareDisk ['a', '/', '/', 'b']) := by
  refine (create_dir_creates_iff (fun _ => rfl) bareDisk_tree rfl (by decide) (bareDisk_clear _)
    (by decide)).mpr ?_
  have first : SlashesFollow [] bareDisk.disk ['a', '/'] :=
    slashesFollow_of_above bareDisk_tree (by decide +kernel)
  have single : '/' ∉ ['b'] := by decide
  exact (slashesFollow_snoc_name single (List.cons_ne_nil _ _)).mpr first

/-- A path with a slash at its end and nothing there yet: the directories are made, and the call
fails. -/
theorem create_dir_fails_trailing :
    (createDir (treeHost []) {} 5 bareDisk ['a', '/', 'b', '/']).2 = false ∧
      (createDir (treeHost []) {} 5 bareDisk ['a', '/', 'b', '/']).1.disk [['a'], ['b']] =
        some .dir ∧
      ¬Created [] bareDisk ['a', '/', 'b', '/']
        (createDir (treeHost []) {} 5 bareDisk ['a', '/', 'b', '/']) := by
  have failed : (createDir (treeHost []) {} 5 bareDisk ['a', '/', 'b', '/']).2 = false := by
    decide +kernel
  refine ⟨failed, by decide +kernel, fun created => ?_⟩
  cases created.1.symm.trans failed

end Bingewatch.File
