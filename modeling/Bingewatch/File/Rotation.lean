import Bingewatch.Foundation.Transition
import Bingewatch.File.Machine

/-!
# Rotation keeps every file

A file machine with `FFILE_ROTATE` closes its file after every write, and before the next one it
looks for a name under which nothing exists yet. Several machines may write to the same directories
with the same tags.

`rotation_preserves_files` is about every sequence of calls on any number of such machines, in which
directories can be created, files can be opened and every search for an index has a free one below
2³¹ (`CallOpens`). Every call returns; each non-empty write succeeds and makes one new file, at a
place where nothing was, with the bytes of the write; and nothing that was on the disk changes.
-/

set_option autoImplicit false

namespace Bingewatch.File

open Foundation Machine

variable {κ : Type} [DecidableEq κ]

/-! ## Machines that share a host -/

/-- Any number of file machines on one host. -/
structure Machines (κ : Type) where
  world : World κ
  descs : List FileDesc

/-- A call on the `i`-th machine. -/
def Machines.call (host : Host κ) (M : Machines κ) (c : Nat × FileCall) :
    Option (Machines κ × IoStatus × List UInt8) :=
  M.descs[c.1]?.bind fun fd =>
    (fileCall host M.world fd c.2).map fun (w, fd, result) =>
      ({ world := w, descs := M.descs.set c.1 fd }, result)

/-- A machine that only writes and rotates, between two calls. -/
structure FileDesc.Rotating (fd : FileDesc) : Prop where
  rotate : fd.flags.rotate = true
  write : fd.flags.write = true
  noRead : fd.flags.read = false
  fr : fd.fr = none
  fw : fd.fw = none

/-- The bytes of a non-empty write. -/
def newBytes : Nat × FileCall → Option (List UInt8)
  | (_, .write data _) => if data = [] then none else some data
  | _ => none

/-- An index below 2³¹, from the start of the search on, is free. -/
def FreeIndex (taken : Nat → Bool) (start : Nat) : Prop :=
  ∃ i, start ≤ i ∧ i < 2 ^ 31 ∧ taken i = false

/-- Where a directory index has to be found there is one. -/
def DirectoryFree (host : Host κ) (env : Env) (w : World κ) (fd : FileDesc) : Prop :=
  let dated := buildDate env fd
  dated.1.flags.dirRotate = true ∧ dated.1.basedirIndex = basedirIndexNoinit →
    FreeIndex (fun i => w.stat host (dated.2 ++ buildBasedir dated.1.baseDir i)) 0

/-- Where a file index has to be found there is one, and `fopen` succeeds for the name chosen. -/
def NameOpens (host : Host κ) (env : Env) (w : World κ) (fd : FileDesc) (path : Path) : Prop :=
  (w.stat host (if fd.flags.index then fd.indexedName path fd.fileIndex else fd.plainName path) →
    FreeIndex (fun i => w.stat host (fd.indexedName path i)) 1) ∧
  ∀ chosen ∈ chooseName host w fd path, (w.fopenWrite host env chosen.2).2.isSome

/-- A write finds free indices, creates its directory and opens its file. -/
def CanOpen (host : Host κ) (env : Env) (w : World κ) (fd : FileDesc) : Prop :=
  DirectoryFree host env w fd ∧
    ∀ entered ∈ enterDirectory host env w fd, ∃ path ∈ entered.2.2,
      NameOpens host env entered.1 entered.2.1 path

/-- The call is one on a machine of the host, and if it is a write its file can be opened. -/
def CallOpens (host : Host κ) (M : Machines κ) (c : Nat × FileCall) : Prop :=
  match M.descs[c.1]?, c.2 with
  | none, _ => False
  | some fd, .write data env => data ≠ [] → CanOpen host env M.world fd
  | some _, _ => True

/-! ## The search for an index -/

/-- **A search ends at an index that is free if there is one in its range.** -/
theorem firstFree_isSome_iff {taken : Nat → Bool} {fuel start : Nat} :
    (firstFree taken fuel start).isSome ↔ ∃ i, start ≤ i ∧ i < start + fuel ∧ taken i = false := by
  induction fuel generalizing start with
  | zero =>
      simp only [firstFree, Option.isSome_none, Bool.false_eq_true, false_iff]
      rintro ⟨i, low, high, -⟩
      omega
  | succ fuel ih =>
      simp only [firstFree]
      split
      · next busy =>
          rw [ih]
          constructor
          · rintro ⟨i, low, high, free⟩
            exact ⟨i, by omega, by omega, free⟩
          · rintro ⟨i, low, high, free⟩
            have other : i ≠ start := by
              rintro rfl
              cases busy.symm.trans free
            exact ⟨i, by omega, by omega, free⟩
      · next free =>
          simp only [Option.isSome_some, true_iff]
          exact ⟨start, Nat.le_refl _, by omega, by simpa using free⟩

theorem FreeIndex.search {taken : Nat → Bool} {start : Nat} (free : FreeIndex taken start) :
    ∃ i, firstFree taken indexLimit start = some i := by
  obtain ⟨i, low, high, untaken⟩ := free
  refine Option.isSome_iff_exists.mp (firstFree_isSome_iff.mpr ⟨i, low, ?_, untaken⟩)
  simp only [indexLimit]
  omega

theorem freeIndex_iff {taken : Nat → Bool} {start : Nat} (small : start ≤ 2 ^ 31) :
    (firstFree taken (2 ^ 31 - start) start).isSome ↔ FreeIndex taken start := by
  rw [firstFree_isSome_iff, Nat.add_sub_of_le small]
  exact Iff.rfl

omit [DecidableEq κ] in
/-- A directory path is built when there is a free index for it. -/
theorem buildDirectoryPath_free {host : Host κ} {env : Env} {w : World κ} {fd : FileDesc}
    (free : DirectoryFree host env w fd) :
    ∃ built, buildDirectoryPath host env w fd = some built := by
  simp only [DirectoryFree] at free
  simp only [buildDirectoryPath]
  split
  · next rotates =>
      split
      · next unset =>
          obtain ⟨i, search⟩ := (free ⟨rotates, unset⟩).search
          exact ⟨_, by rw [search]; rfl⟩
      · exact ⟨_, rfl⟩
  · exact ⟨_, rfl⟩

omit [DecidableEq κ] in
/-- A name is chosen when there is a free index for it. -/
theorem chooseName_exists {host : Host κ} {w : World κ} {fd : FileDesc} {path : Path}
    (free : w.stat host
      (if fd.flags.index then fd.indexedName path fd.fileIndex else fd.plainName path) →
        FreeIndex (fun i => w.stat host (fd.indexedName path i)) 1) :
    ∃ chosen, chooseName host w fd path = some chosen := by
  simp only [chooseName]
  generalize (if fd.flags.index then fd.indexedName path fd.fileIndex else fd.plainName path) =
    first at free ⊢
  split
  · next searches =>
      obtain ⟨i, search⟩ := (free searches.2).search
      exact ⟨_, by rw [search]; rfl⟩
  · exact ⟨_, rfl⟩

/-! ## What the calls do to the disk -/

/-- Everything stays, and what is new are directories. -/
structure OnlyDirs (d d' : κ → Option Node) : Prop where
  stays : ∀ k n, d k = some n → d' k = some n
  files : ∀ k bytes, d' k = some (.file bytes) → d k = some (.file bytes)

omit [DecidableEq κ] in
theorem OnlyDirs.refl (d : κ → Option Node) : OnlyDirs d d := ⟨fun _ _ h => h, fun _ _ h => h⟩

omit [DecidableEq κ] in
theorem OnlyDirs.trans {d d' d'' : κ → Option Node} (first : OnlyDirs d d')
    (second : OnlyDirs d' d'') : OnlyDirs d d'' where
  stays := fun k n here => second.stays k n (first.stays k n here)
  files := fun k bytes here => first.files k bytes (second.files k bytes here)

/-- A new file at `place`, with these bytes, beside new directories. -/
structure AddsFile (d d' : κ → Option Node) (place : κ) (data : List UInt8) : Prop where
  fresh : d place = none
  holds : d' place = some (.file data)
  stays : ∀ k n, d k = some n → d' k = some n
  files : ∀ k bytes, d' k = some (.file bytes) → k = place ∨ d k = some (.file bytes)

theorem mkdir_onlyDirs (host : Host κ) (env : Env) (w : World κ) (path : Path) :
    OnlyDirs w.disk (w.mkdir host env path).1.disk := by
  unfold World.mkdir
  split
  · exact .refl _
  · next place _ =>
      split
      · next made =>
          refine ⟨fun k n here => ?_, fun k bytes here => ?_⟩
          · have other : k ≠ place := by
              rintro rfl
              cases made.2.symm.trans here
            simpa [Function.update_of_ne other] using here
          · by_cases same : k = place
            · subst same
              simp at here
            · simpa [Function.update_of_ne same] using here
      · exact .refl _

theorem createDir_onlyDirs (host : Host κ) (env : Env) (fuel : Nat) (w : World κ) (path : Path) :
    OnlyDirs w.disk (createDir host env fuel w path).1.disk := by
  induction fuel generalizing w path with
  | zero => exact .refl _
  | succ fuel ih =>
      have first := mkdir_onlyDirs host env w path
      simp only [createDir]
      split
      · exact .refl _
      split
      · exact first
      split
      · exact first
      · next parent _ =>
          have middle := first.trans (ih (w.mkdir host env path).1 parent)
          split
          · exact middle.trans (mkdir_onlyDirs host env _ path)
          · exact middle

theorem enterDirectory_onlyDirs {host : Host κ} {env : Env} {w w' : World κ} {fd fd' : FileDesc}
    {path : Option Path} (entered : enterDirectory host env w fd = some (w', fd', path)) :
    OnlyDirs w.disk w'.disk ∧ fd'.fr = fd.fr ∧ fd'.fw = fd.fw ∧ fd'.flags = fd.flags := by
  obtain ⟨⟨built, dir⟩, building, eq⟩ := Option.map_eq_some_iff.mp entered
  have dirs := createDir_onlyDirs host env (dir.length + 1) w dir
  cases eq
  exact ⟨dirs, buildDirectoryPath_desc building⟩

theorem firstFree_free {taken : Nat → Bool} {fuel index found : Nat}
    (search : firstFree taken fuel index = some found) : taken found = false := by
  induction fuel generalizing index with
  | zero => cases search
  | succ fuel ih =>
      simp only [firstFree] at search
      split at search
      · exact ih search
      · next free =>
          cases search
          simpa using free

omit [DecidableEq κ] in
/-- **A rotating machine never chooses a name that is taken.** -/
theorem chooseName_free {host : Host κ} {w : World κ} {fd fd' : FileDesc} {path fname : Path}
    (rotate : fd.flags.rotate = true) (chosen : chooseName host w fd path = some (fd', fname)) :
    w.stat host fname = false := by
  simp only [chooseName, rotate, true_and] at chosen
  generalize (if fd.flags.index then fd.indexedName path fd.fileIndex else fd.plainName path) =
    first at chosen
  split at chosen
  · obtain ⟨i, search, eq⟩ := Option.map_eq_some_iff.mp chosen
    cases eq
    exact firstFree_free search
  · next free =>
      cases chosen
      simpa using free

/-- Opening a name that is not taken makes an empty file where nothing was. -/
theorem fopenWrite_free {host : Host κ} {env : Env} {w : World κ} {fname : Path} {f : Nat}
    (free : w.stat host fname = false) (opened : (w.fopenWrite host env fname).2 = some f) :
    ∃ place, w.disk place = none ∧ f = w.streams.length ∧
      (w.fopenWrite host env fname).1 =
        { w with
          disk := Function.update w.disk place (some (.file []))
          streams := w.streams ++ [{ place := place }] } := by
  unfold World.fopenWrite at opened ⊢
  split at opened
  · cases opened
  · next place resolved =>
      split at opened
      · next allowed =>
          cases opened
          refine ⟨place, ?_, rfl, ?_⟩
          · simpa [World.stat, resolved] using free
          · simp only [if_pos allowed]
      · cases opened

/-- Writing to a stream that was just opened puts the bytes into its empty file. -/
theorem fwrite_new {w : World κ} {place : κ} {data : List UInt8} :
    (World.fwrite
      { w with
        disk := Function.update w.disk place (some (.file []))
        streams := w.streams ++ [{ place := place }] } w.streams.length data).disk =
      Function.update w.disk place (some (.file data)) := by
  simp [World.fwrite]

omit [DecidableEq κ] in
theorem closeField_disk (w : World κ) (field : Option Nat) :
    (closeField w field).disk = w.disk := by
  cases field with
  | none => rfl
  | some f =>
      simp only [closeField, World.fclose]
      split
      · split <;> rfl
      · rfl

theorem addsFile_update {d d' : κ → Option Node} {place : κ} (dirs : OnlyDirs d d')
    (free : d' place = none) (data : List UInt8) :
    AddsFile d (Function.update d' place (some (.file data))) place data where
  fresh := by
    cases here : d place with
    | none => rfl
    | some n => cases free.symm.trans (dirs.stays place n here)
  holds := by simp
  stays := fun k n here => by
    have still := dirs.stays k n here
    have other : k ≠ place := by
      rintro rfl
      cases free.symm.trans still
    simpa [Function.update_of_ne other] using still
  files := fun k bytes here => by
    by_cases same : k = place
    · exact .inl same
    · rw [Function.update_of_ne same] at here
      exact .inr (dirs.files k bytes here)

/-- `open_file` of a rotating machine: a new empty file, or no file at all. -/
theorem openWrite_rotating {host : Host κ} {env : Env} {w w' : World κ} {fd fd' : FileDesc}
    {ok : Bool} (rotating : fd.Rotating) (opening : openWrite host env w fd = some (w', fd', ok)) :
    fd'.flags = fd.flags ∧ fd'.fr = none ∧
    ((ok = false ∧ fd'.fw = none ∧ OnlyDirs w.disk w'.disk) ∨
      (ok = true ∧ ∃ (m : World κ) (place : κ), OnlyDirs w.disk m.disk ∧ m.disk place = none ∧
        fd'.fw = some m.streams.length ∧
        w' = { m with
          disk := Function.update m.disk place (some (.file []))
          streams := m.streams ++ [{ place := place }] })) := by
  simp only [openWrite, rotating.fw, Option.isSome_none, Bool.false_eq_true, if_false] at opening
  obtain ⟨⟨m, fm, path⟩, entered, rest⟩ := Option.bind_eq_some_iff.mp opening
  obtain ⟨dirs, fr, fw, flags⟩ := enterDirectory_onlyDirs entered
  cases path with
  | none =>
      cases rest
      exact ⟨flags, fr.trans rotating.fr, .inl ⟨rfl, fw.trans rotating.fw, dirs⟩⟩
  | some path =>
      obtain ⟨⟨fn, fname⟩, chosen, eq⟩ := Option.map_eq_some_iff.mp rest
      obtain ⟨sameFr, sameFlags⟩ := chooseName_desc chosen
      simp only [fr, rotating.fr, closeField] at chosen eq
      have free := chooseName_free (flags ▸ rotating.rotate) chosen
      cases opened : (m.fopenWrite host env fname).2 with
      | none =>
          have unopened : (m.fopenWrite host env fname).1 = m := by
            unfold World.fopenWrite at opened ⊢
            split
            · rfl
            · split
              · simp_all
              · rfl
          cases eq
          rw [unopened]
          exact ⟨sameFlags.trans flags, sameFr.trans (fr.trans rotating.fr),
            .inl ⟨by simp [opened], opened, dirs⟩⟩
      | some f =>
          obtain ⟨place, empty, rfl, made⟩ := fopenWrite_free free opened
          cases eq
          exact ⟨sameFlags.trans flags, sameFr.trans (fr.trans rotating.fr),
            .inr ⟨by simp [opened], m, place, dirs, empty, opened, made⟩⟩

/-- `open_file` succeeds for a machine whose file can be opened. -/
theorem openWrite_opens {host : Host κ} {env : Env} {w : World κ} {fd : FileDesc}
    (rotating : fd.Rotating) (opens : CanOpen host env w fd) :
    ∃ w' fd', openWrite host env w fd = some (w', fd', true) := by
  obtain ⟨free, name⟩ := opens
  obtain ⟨built, building⟩ := buildDirectoryPath_free free
  obtain ⟨⟨m, fm, made⟩, entered⟩ : ∃ entered, enterDirectory host env w fd = some entered := by
    simp only [enterDirectory, building, Option.map_some]
    exact ⟨_, rfl⟩
  obtain ⟨-, fr, -, -⟩ := enterDirectory_onlyDirs entered
  obtain ⟨path, created, free', opened⟩ := name _ entered
  obtain rfl : made = some path := created
  obtain ⟨⟨fn, fname⟩, chosen⟩ := chooseName_exists free'
  have file := opened _ chosen
  simp only [openWrite, rotating.fw, Option.isSome_none, Bool.false_eq_true, if_false, entered,
    Option.bind_some, fr, rotating.fr, closeField, chosen, Option.map_some, file]
  exact ⟨_, _, rfl⟩

/-- What a call does to the disk: a non-empty write succeeds and makes a new file with its bytes,
any other call makes no file. -/
def Effect (d d' : κ → Option Node) (c : Nat × FileCall) (result : IoStatus × List UInt8) : Prop :=
  match newBytes c with
  | some data => result = (.success, data) ∧ ∃ place, AddsFile d d' place data
  | none => OnlyDirs d d'

/-- **A write of a rotating machine.** If it is not empty and its file can be opened it succeeds and
makes one new file with its bytes. -/
theorem fileWrite_rotating {host : Host κ} {env : Env} {w : World κ} {fd : FileDesc}
    {data : List UInt8} (rotating : fd.Rotating) (some : data ≠ [])
    (opens : CanOpen host env w fd) :
    ∃ w' fd' place, fileWrite host env w fd data = .some (w', fd', .success, data) ∧ fd'.Rotating ∧
      AddsFile w.disk w'.disk place data := by
  obtain ⟨m, fm, opening⟩ := openWrite_opens rotating opens
  obtain ⟨flags, fr, ⟨failed, -⟩ | ⟨-, m', place, dirs, empty, fw, rfl⟩⟩ :=
    openWrite_rotating rotating opening
  · cases failed
  have rotate : fm.flags.rotate = true := flags ▸ rotating.rotate
  have write : fm.flags.write = true := flags ▸ rotating.write
  have noRead : fm.flags.read = false := flags ▸ rotating.noRead
  simp only [fileWrite, if_neg some, rotating.write, Bool.true_eq_false, if_false, opening,
    Option.map_some, fw, rotate, if_true]
  refine ⟨_, _, place, rfl, ⟨rotate, write, noRead, fr, rfl⟩, ?_⟩
  simp only [rotateWfile, closeField_disk, fwrite_new]
  exact addsFile_update dirs empty data

/-- **A call on a rotating machine.** -/
theorem fileCall_rotating {host : Host κ} {w : World κ} {fd : FileDesc} {c : FileCall} (i : Nat)
    (rotating : fd.Rotating)
    (opens : ∀ data env, c = .write data env → data ≠ [] → CanOpen host env w fd) :
    ∃ w' fd' result, fileCall host w fd c = some (w', fd', result) ∧ fd'.Rotating ∧
      Effect w.disk w'.disk (i, c) result := by
  have rotated : ∀ fileIndex basedirIndex : Nat, ∀ tag : Path, FileDesc.Rotating
      { fd with fw := none, fileIndex := fileIndex, basedirIndex := basedirIndex,
                fileTag := tag } :=
    fun _ _ _ => ⟨rotating.rotate, rotating.write, rotating.noRead, rotating.fr, rfl⟩
  have closed : OnlyDirs w.disk (closeField w fd.fw).disk := by
    rw [closeField_disk]
    exact .refl _
  cases c with
  | write data env =>
      by_cases empty : data = []
      · subst empty
        exact ⟨w, fd, _, rfl, rotating, .refl _⟩
      · obtain ⟨w', fd', place, written, rotating', adds⟩ :=
          fileWrite_rotating rotating empty (opens data env rfl empty)
        refine ⟨w', fd', _, written, rotating', ?_⟩
        simp only [Effect, newBytes, if_neg empty]
        exact ⟨trivial, place, adds⟩
  | read request env =>
      refine ⟨w, fd, (.error, []), ?_, rotating, .refl _⟩
      simp only [fileCall, fileRead, rotating.noRead, if_true]
  | rotate => exact ⟨_, _, _, rfl, rotated _ _ _, closed⟩
  | rotateDir => exact ⟨_, _, _, rfl, rotated _ _ _, closed⟩
  | setFiletag tag => exact ⟨_, _, _, rfl, rotated _ _ _, closed⟩

/-! ## Whole runs -/

/-- The new files of a run: one place for each non-empty write, where nothing was at the start, with
the bytes of the write; every other file was there at the start. -/
structure NewFiles (d d' : κ → Option Node) (writes : List (List UInt8)) (places : List κ) :
    Prop where
  distinct : places.Nodup
  fresh : ∀ k ∈ places, d k = none
  holds : places.map d' = writes.map fun data => some (.file data)
  others : ∀ k bytes, d' k = some (.file bytes) → k ∈ places ∨ d k = some (.file bytes)

omit [DecidableEq κ] in
theorem NewFiles.onlyDirs {d d' d'' : κ → Option Node} {writes : List (List UInt8)}
    {places : List κ} (new : NewFiles d d' writes places) (dirs : OnlyDirs d' d'') :
    NewFiles d d'' writes places where
  distinct := new.distinct
  fresh := new.fresh
  holds := by
    rw [← new.holds]
    apply List.map_congr_left
    intro k member
    have held : d' k ∈ places.map d' := List.mem_map_of_mem member
    rw [new.holds] at held
    obtain ⟨data, _, here⟩ := List.mem_map.mp held
    rw [← here, dirs.stays k _ here.symm]
  others := fun k bytes here => new.others k bytes (dirs.files k bytes here)

omit [DecidableEq κ] in
theorem NewFiles.addsFile {d d' d'' : κ → Option Node} {writes : List (List UInt8)}
    {places : List κ} {place : κ} {data : List UInt8} (new : NewFiles d d' writes places)
    (stays : ∀ k n, d k = some n → d' k = some n) (adds : AddsFile d' d'' place data) :
    NewFiles d d'' (writes ++ [data]) (places ++ [place]) := by
  have held : ∀ k ∈ places, ∃ bytes, d' k = some (.file bytes) := by
    intro k member
    have held : d' k ∈ places.map d' := List.mem_map_of_mem member
    rw [new.holds] at held
    obtain ⟨bytes, _, here⟩ := List.mem_map.mp held
    exact ⟨bytes, here.symm⟩
  refine ⟨?_, ?_, ?_, ?_⟩
  · rw [List.nodup_append]
    refine ⟨new.distinct, by simp, ?_⟩
    rintro k member k' last rfl
    obtain rfl := List.mem_singleton.mp last
    obtain ⟨bytes, here⟩ := held k member
    cases adds.fresh.symm.trans here
  · intro k member
    rcases List.mem_append.mp member with old | last
    · exact new.fresh k old
    · obtain rfl := List.mem_singleton.mp last
      cases before : d k with
      | none => rfl
      | some n => cases adds.fresh.symm.trans (stays k n before)
  · rw [List.map_append, List.map_append, ← new.holds]
    congr 1
    · apply List.map_congr_left
      intro k member
      obtain ⟨bytes, here⟩ := held k member
      rw [here, adds.stays k _ here]
    · simp [adds.holds]
  · intro k bytes here
    rcases adds.files k bytes here with rfl | old
    · simp
    · rcases new.others k bytes old with inside | first
      · exact .inl (List.mem_append_left _ inside)
      · exact .inr first

/-- What calls from `M` have done to the disk and the machines when they have led to `N`. -/
structure Preserved (M N : Machines κ) (calls : List (Nat × FileCall)) : Prop where
  stays : ∀ k n, M.world.disk k = some n → N.world.disk k = some n
  new : ∃ places, NewFiles M.world.disk N.world.disk (calls.filterMap newBytes) places

omit [DecidableEq κ] in
theorem Preserved.refl (M : Machines κ) : Preserved M M [] :=
  ⟨fun _ _ here => here, [], List.nodup_nil, by simp, rfl, fun _ _ here => .inr here⟩

omit [DecidableEq κ] in
theorem Preserved.call {M N N' : Machines κ} {calls : List (Nat × FileCall)} {c : Nat × FileCall}
    {result : IoStatus × List UInt8} (kept : Preserved M N calls)
    (effect : Effect N.world.disk N'.world.disk c result) : Preserved M N' (calls ++ [c]) := by
  obtain ⟨stays, places, new⟩ := kept
  simp only [Effect] at effect
  cases bytes : newBytes c with
  | some data =>
      simp only [bytes] at effect
      obtain ⟨-, place, adds⟩ := effect
      refine ⟨fun k n here => adds.stays k n (stays k n here), places ++ [place], ?_⟩
      rw [List.filterMap_append, List.filterMap_cons_some bytes]
      exact new.addsFile stays adds
  | none =>
      simp only [bytes] at effect
      refine ⟨fun k n here => effect.stays k n (stays k n here), places, ?_⟩
      rw [List.filterMap_append, List.filterMap_cons_none bytes, List.filterMap_nil,
        List.append_nil]
      exact new.onlyDirs effect

/-- **One call.** It returns, the machines stay rotating ones, and it has its effect on the disk. -/
theorem call_rotating {host : Host κ} {M : Machines κ} {c : Nat × FileCall}
    (rotating : ∀ fd ∈ M.descs, fd.Rotating) (opens : CallOpens host M c) :
    ∃ N result, M.call host c = some (N, result) ∧ Effect M.world.disk N.world.disk c result ∧
      ∀ fd ∈ N.descs, fd.Rotating := by
  obtain ⟨i, c⟩ := c
  simp only [CallOpens] at opens
  cases there : M.descs[i]? with
  | none => simp only [there] at opens
  | some fd =>
      have writes : ∀ data env, c = .write data env → data ≠ [] →
          CanOpen host env M.world fd := by
        rintro data env rfl some
        simp only [there] at opens
        exact opens some
      obtain ⟨w, fd', result, called, rotating', effect⟩ :=
        fileCall_rotating i (rotating fd (List.mem_of_getElem? there)) writes
      refine ⟨_, result, by simp only [Machines.call, there, Option.bind_some, called]; rfl, effect,
        fun other member => ?_⟩
      rcases List.mem_or_eq_of_mem_set member with old | rfl
      · exact rotating other old
      · exact rotating'

/-- **Rotation never destroys data.** Any number of rotating machines share a host, and any sequence
of calls is made on them whose directories and files can be opened. Every call returns; each
non-empty write succeeds and makes one new file, at a place where nothing was, with exactly the
bytes of the write; and nothing that was on the disk before a call, or before all of them, is
changed. -/
theorem rotation_preserves_files (host : Host κ) {M : Machines κ} {calls : List (Nat × FileCall)}
    (rotating : ∀ fd ∈ M.descs, fd.Rotating)
    (opens : MeetsAll (Machines.call host) (CallOpens host) M calls) :
    AfterEvery (Machines.call host)
        (fun N c N' result => Effect N.world.disk N'.world.disk c result) M calls ∧
      ∃ M' log, runCalls (Machines.call host) M calls = some (M', log) ∧
        (∀ k n, M.world.disk k = some n → M'.world.disk k = some n) ∧
        ∃ places, NewFiles M.world.disk M'.world.disk (calls.filterMap newBytes) places := by
  have every : AfterEvery (Machines.call host)
      (fun N c N' result => Effect N.world.disk N'.world.disk c result) M calls :=
    afterEvery_of_meetsAll (I := fun N => ∀ fd ∈ N.descs, fd.Rotating)
      (fun N c rotating opens => call_rotating rotating opens) rotating opens
  obtain ⟨M', log, run, kept⟩ := every.run (I := Preserved M)
    (fun _ _ _ _ _ kept effect => kept.call effect) (Preserved.refl M)
  exact ⟨every, M', log, run, kept.stays, kept.new⟩

instance (taken : Nat → Bool) : Decidable (FreeIndex taken 0) :=
  decidable_of_iff _ (freeIndex_iff (by decide))

instance (taken : Nat → Bool) : Decidable (FreeIndex taken 1) :=
  decidable_of_iff _ (freeIndex_iff (by decide))

instance (host : Host κ) (env : Env) (w : World κ) (fd : FileDesc) :
    Decidable (DirectoryFree host env w fd) :=
  inferInstanceAs (Decidable ((buildDate env fd).1.flags.dirRotate = true ∧
    (buildDate env fd).1.basedirIndex = basedirIndexNoinit → FreeIndex (fun i =>
      w.stat host ((buildDate env fd).2 ++ buildBasedir (buildDate env fd).1.baseDir i)) 0))

instance (host : Host κ) (env : Env) (w : World κ) (fd : FileDesc) (path : Path) :
    Decidable (NameOpens host env w fd path) :=
  inferInstanceAs (Decidable ((_ → FreeIndex _ 1) ∧ ∀ chosen ∈ _, _))

instance (host : Host κ) (env : Env) (w : World κ) (fd : FileDesc) :
    Decidable (CanOpen host env w fd) :=
  inferInstanceAs (Decidable (_ ∧ ∀ entered ∈ _, ∃ path ∈ _, _))

instance (host : Host κ) (M : Machines κ) : (c : Nat × FileCall) → Decidable (CallOpens host M c)
  | (i, c) =>
      match there : M.descs[i]?, c with
      | none, _ => .isFalse (by simp [CallOpens, there])
      | some fd, .write data env =>
          decidable_of_iff (data ≠ [] → CanOpen host env M.world fd) (by simp [CallOpens, there])
      | some _, .read _ _ => .isTrue (by simp [CallOpens, there])
      | some _, .rotate => .isTrue (by simp [CallOpens, there])
      | some _, .rotateDir => .isTrue (by simp [CallOpens, there])
      | some _, .setFiletag _ => .isTrue (by simp [CallOpens, there])

/-- Two machines with one tag in one directory, which write where a file exists. -/
def sharedMachines : Machines Path :=
  let fd : FileDesc :=
    { rootDir := ['d'], fileTag := ['t'], flags := { write := true, rotate := true } }
  { world := { disk := fun k => if k = ['d', '/', 't'] then some (.file [9]) else none }
    descs := [fd, { fd with flags := { fd.flags with index := true } }] }

theorem sharedMachines_rotating : ∀ fd ∈ sharedMachines.descs, fd.Rotating := by
  intro fd member
  simp only [sharedMachines, List.mem_cons, List.not_mem_nil, or_false] at member
  rcases member with rfl | rfl
  · exact ⟨rfl, rfl, rfl, rfl, rfl⟩
  · exact ⟨rfl, rfl, rfl, rfl, rfl⟩

/-- Three writes of the two machines, the second one behind a rotation. -/
theorem rotation_preserves_files_shared :
    ∃ (M' : Machines Path) (log : List ((Nat × FileCall) × IoStatus × List UInt8)),
      runCalls (Machines.call { resolve := fun _ path => some path }) sharedMachines
        [(0, .write [1] {}), (1, .rotate), (1, .write [2] {}), (0, .write [3] {})] =
          some (M', log) ∧
      M'.world.disk ['d', '/', 't'] = some (.file [9]) ∧
      ∃ places, NewFiles sharedMachines.world.disk M'.world.disk [[1], [2], [3]] places := by
  have opens : MeetsAll (Machines.call { resolve := fun _ path => some path })
      (CallOpens { resolve := fun _ path => some path }) sharedMachines
      [(0, .write [1] {}), (1, .rotate), (1, .write [2] {}), (0, .write [3] {})] := by
    decide +kernel
  obtain ⟨-, M', log, run, stays, places, new⟩ :=
    rotation_preserves_files _ sharedMachines_rotating opens
  exact ⟨M', log, run, stays _ _ rfl, places, new⟩

end Bingewatch.File
