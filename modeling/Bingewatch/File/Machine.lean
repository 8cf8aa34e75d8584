import Mathlib.Algebra.Ring.Nat
import Mathlib.Logic.Function.Basic
import Bingewatch.Machine.Descriptor

/-!
# The file machine

A file machine (`src/file-machine.c`) opens its streams when it is first read or written, in a
directory it creates and under a name it builds from its tag, indices and the time. It may close the
stream after every write and go on in a new file (`FFILE_ROTATE`), and it may do the same for the
directory.

The host has a disk of directories and files, and streams that are open or closed. How a path leads
to a place on the disk is a parameter (`Host.resolve`), so two paths may name one place. Every call
meets an environment: the time, and whether `mkdir` and `fopen` succeed.
-/

set_option autoImplicit false

namespace Bingewatch.File

open Machine

/-! ## The host -/

abbrev Path := List Char

/-- What is at a place of the disk. -/
inductive Node where
  | dir
  | file (bytes : List UInt8)
  deriving DecidableEq, Repr

/-- How the host resolves paths, given what is on the disk. -/
structure Host (κ : Type) where
  resolve : (κ → Option Node) → Path → Option κ

/-- A stream: its file, how far it was read, and whether it is open. -/
structure Stream (κ : Type) where
  place : κ
  pos : Nat := 0
  isOpen : Bool := true

/-- The disk, the streams that were ever opened, and whether one was used after it was closed. -/
structure World (κ : Type) where
  disk : κ → Option Node
  streams : List (Stream κ) := []
  misused : Bool := false

/-- What a call meets. -/
structure Env where
  timestamp : Path := []
  mkdirs : Path → Bool := fun _ => true
  opens : Bool := true

variable {κ : Type} [DecidableEq κ]

namespace World

/-- Something is at the path: `stat` returns zero. -/
def stat (host : Host κ) (w : World κ) (path : Path) : Bool :=
  ((host.resolve w.disk path).bind w.disk).isSome

def isDir (host : Host κ) (w : World κ) (path : Path) : Bool :=
  (host.resolve w.disk path).bind w.disk == some .dir

/-- `mkdir`: a new directory where nothing was. -/
def mkdir (host : Host κ) (env : Env) (w : World κ) (path : Path) : World κ × Bool :=
  match host.resolve w.disk path with
  | none => (w, false)
  | some place =>
      if env.mkdirs path ∧ w.disk place = none then
        ({ w with disk := Function.update w.disk place (some .dir) }, true)
      else (w, false)

/-- `fopen` for writing: the file is there and empty. -/
def fopenWrite (host : Host κ) (env : Env) (w : World κ) (path : Path) : World κ × Option Nat :=
  match host.resolve w.disk path with
  | none => (w, none)
  | some place =>
      if env.opens ∧ w.disk place ≠ some .dir then
        ({ w with
            disk := Function.update w.disk place (some (.file []))
            streams := w.streams ++ [{ place := place }] }, some w.streams.length)
      else (w, none)

/-- `fopen` for reading. -/
def fopenRead (host : Host κ) (env : Env) (w : World κ) (path : Path) : World κ × Option Nat :=
  match host.resolve w.disk path with
  | none => (w, none)
  | some place =>
      if env.opens ∧ (w.disk place).isSome then
        ({ w with streams := w.streams ++ [{ place := place }] }, some w.streams.length)
      else (w, none)

/-- The stream is open. -/
def IsOpen (w : World κ) (f : Nat) : Prop := ∃ s, w.streams[f]? = some s ∧ s.isOpen = true

/-- `fclose`. -/
def fclose (w : World κ) (f : Nat) : World κ :=
  match w.streams[f]? with
  | some s =>
      if s.isOpen then { w with streams := w.streams.set f { s with isOpen := false } }
      else { w with misused := true }
  | none => { w with misused := true }

/-- The loop of `fwrite` calls of `file_write` and its `fflush`. -/
def fwrite (w : World κ) (f : Nat) (data : List UInt8) : World κ :=
  match w.streams[f]? with
  | some s =>
      if s.isOpen then
        match w.disk s.place with
        | some (.file bytes) =>
            { w with disk := Function.update w.disk s.place (some (.file (bytes ++ data))) }
        | _ => w
      else { w with misused := true }
  | none => { w with misused := true }

/-- The loop of `fread` calls of `file_read`, with the status and the bytes it ends with: short of
the request at the end of the file, an error when the stream cannot be read. -/
def fread (w : World κ) (f : Nat) (request : Nat) : World κ × IoStatus × List UInt8 :=
  if request = 0 then (w, .success, [])
  else
    match w.streams[f]? with
    | some s =>
        if s.isOpen then
          match w.disk s.place with
          | some (.file bytes) =>
              let out := (bytes.drop s.pos).take request
              ({ w with streams := w.streams.set f { s with pos := s.pos + out.length } },
                if out.length < request then .complete else .success, out)
          | _ => (w, .error, [])
        else ({ w with misused := true }, .error, [])
    | none => ({ w with misused := true }, .error, [])

end World

/-! ## The machine -/

/-- The flags of `include/file-machine.h`. -/
structure FileFlags where
  read : Bool := false
  write : Bool := false
  rotate : Bool := false
  index : Bool := false
  dirRotate : Bool := false
  autoDate : Bool := false
  deriving DecidableEq, Repr

/-- `BASEDIR_INDEX_NOINIT`. -/
def basedirIndexNoinit : Nat := 0xffffffff

/-- `struct file_desc_t`. The two indices are `uint32_t`. -/
structure FileDesc where
  rootDir : Path
  baseDir : Option Path := none
  fileTag : Path
  fileExt : Option Path := none
  timestamp : Path := []
  flags : FileFlags
  basedirIndex : Nat := basedirIndexNoinit
  fileIndex : Nat := 0
  fr : Option Nat := none
  fw : Option Nat := none
  deriving DecidableEq, Repr

/-- The format `%05d` for a `uint32_t`, which is printed as an `int`: from `2 ^ 31` on with a minus
sign. -/
def fmtIndex (n : Nat) : Path :=
  if n % 2 ^ 32 < 2 ^ 31 then List.leftpad 5 '0' (Nat.toDigits 10 (n % 2 ^ 32))
  else '-' :: List.leftpad 4 '0' (Nat.toDigits 10 (2 ^ 32 - n % 2 ^ 32))

/-- `build_basedir`. -/
def buildBasedir (baseDir : Option Path) (index : Nat) : Path :=
  match baseDir with
  | some base => '/' :: base ++ '-' :: fmtIndex index
  | none => '/' :: fmtIndex index

/-- The indices a search goes through: those of a `uint32_t`. -/
def indexLimit : Nat := 2 ^ 32

/-- The searches for a name that is not taken, from an index on. -/
def firstFree (taken : Nat → Bool) : (fuel index : Nat) → Option Nat
  | 0, _ => none
  | fuel + 1, index => if taken index then firstFree taken fuel (index + 1) else some index

/-- The first part of `build_directory_path`: the root directory, and the time if the flags ask for
it. A new time resets the indices. -/
def buildDate (env : Env) (fd : FileDesc) : FileDesc × Path :=
  if fd.flags.autoDate then
    let fd :=
      if env.timestamp ≠ fd.timestamp then
        { fd with timestamp := env.timestamp, basedirIndex := basedirIndexNoinit, fileIndex := 0 }
      else fd
    (fd, fd.rootDir ++ '/' :: env.timestamp)
  else (fd, fd.rootDir)

/-- `build_directory_path`; undefined when a search finds no free index. -/
def buildDirectoryPath (host : Host κ) (env : Env) (w : World κ) (fd : FileDesc) :
    Option (FileDesc × Path) :=
  let (fd, path) := buildDate env fd
  if fd.flags.dirRotate then
    if fd.basedirIndex = basedirIndexNoinit then
      (firstFree (fun i => w.stat host (path ++ buildBasedir fd.baseDir i)) indexLimit 0).map
        fun i => ({ fd with basedirIndex := i }, path ++ buildBasedir fd.baseDir i)
    else some (fd, path ++ buildBasedir fd.baseDir fd.basedirIndex)
  else some (fd, path)

/-- The path up to its last slash, unless that is the first character. -/
def parentDir (path : Path) : Option Path :=
  match path.reverse.dropWhile (· ≠ '/') with
  | [] => none
  | [_] => none
  | _ :: rest => some rest.reverse

/-- `create_dir`; the fuel is the length of the path. -/
def createDir (host : Host κ) (env : Env) : Nat → World κ → Path → World κ × Bool
  | 0, w, _ => (w, false)
  | fuel + 1, w, path =>
      if w.isDir host path then (w, true)
      else
        let (w, made) := w.mkdir host env path
        if made then (w, true)
        else
          match parentDir path with
          | none => (w, false)
          | some parent =>
              let (w, made) := createDir host env fuel w parent
              if made then w.mkdir host env path else (w, false)

/-- The directory of a new stream: its path is absent when it could not be created. -/
def enterDirectory (host : Host κ) (env : Env) (w : World κ) (fd : FileDesc) :
    Option (World κ × FileDesc × Option Path) :=
  (buildDirectoryPath host env w fd).map fun (fd, path) =>
    let (w, made) := createDir host env (path.length + 1) w path
    (w, fd, if made then some path else none)

/-- The extension with its dot. -/
def FileDesc.suffix (fd : FileDesc) : Path :=
  match fd.fileExt with
  | some ext => '.' :: ext
  | none => []

/-- The name of a file without an index. -/
def FileDesc.plainName (fd : FileDesc) (path : Path) : Path :=
  path ++ '/' :: fd.fileTag ++ fd.suffix

/-- The name of a file with an index. -/
def FileDesc.indexedName (fd : FileDesc) (path : Path) (index : Nat) : Path :=
  path ++ '/' :: fd.fileTag ++ '-' :: fmtIndex index ++ fd.suffix

/-- The name for a write: with `FFILE_ROTATE` one that is not taken, searched from index one on. -/
def chooseName (host : Host κ) (w : World κ) (fd : FileDesc) (path : Path) :
    Option (FileDesc × Path) :=
  let fname := if fd.flags.index then fd.indexedName path fd.fileIndex else fd.plainName path
  if fd.flags.rotate ∧ w.stat host fname then
    (firstFree (fun i => w.stat host (fd.indexedName path i)) indexLimit 1).map fun i =>
      (if fd.flags.index then { fd with fileIndex := (i + 1) % 2 ^ 32 } else fd,
        fd.indexedName path i)
  else some (fd, fname)

/-- Close a stream field that is not null. The field is left as it is. -/
def closeField (w : World κ) (field : Option Nat) : World κ :=
  match field with
  | some f => w.fclose f
  | none => w

/-- `open_file` for writing, and whether it succeeds. -/
def openWrite (host : Host κ) (env : Env) (w : World κ) (fd : FileDesc) :
    Option (World κ × FileDesc × Bool) :=
  if fd.fw.isSome then some (w, fd, true)
  else
    (enterDirectory host env w fd).bind fun (w, fd, path) =>
      match path with
      | none => some (w, fd, false)
      | some path =>
          let w := closeField w fd.fr
          (chooseName host w fd path).map fun (fd, fname) =>
            let (w, f) := w.fopenWrite host env fname
            (w, { fd with fw := f }, f.isSome)

/-- `open_file` for reading, and whether it succeeds. -/
def openRead (host : Host κ) (env : Env) (w : World κ) (fd : FileDesc) :
    Option (World κ × FileDesc × Bool) :=
  if fd.fr.isSome then some (w, fd, true)
  else
    (enterDirectory host env w fd).map fun (w, fd, path) =>
      match path with
      | none => (w, fd, false)
      | some path =>
          let w := closeField w fd.fw
          let (w, f) := w.fopenRead host env (fd.plainName path)
          (w, { fd with fr := f }, f.isSome)

/-- `rotate_wfile`. -/
def rotateWfile (w : World κ) (fd : FileDesc) : World κ × FileDesc :=
  (closeField w fd.fw,
    { fd with
      fw := none
      fileIndex := if fd.flags.index then (fd.fileIndex + 1) % 2 ^ 32 else fd.fileIndex })

/-- `rotate_basedir`. -/
def rotateBasedir (w : World κ) (fd : FileDesc) : World κ × FileDesc :=
  (closeField w fd.fw,
    { fd with fw := none, fileIndex := 0, basedirIndex := (fd.basedirIndex + 1) % 2 ^ 32 })

/-- `file_write`. -/
def fileWrite (host : Host κ) (env : Env) (w : World κ) (fd : FileDesc) (data : List UInt8) :
    Option (World κ × FileDesc × IoStatus × List UInt8) :=
  if data = [] then some (w, fd, .success, [])
  else if fd.flags.write = false then some (w, fd, .error, [])
  else
    (openWrite host env w fd).map fun (w, fd, opened) =>
      match opened, fd.fw with
      | true, some f =>
          let w := w.fwrite f data
          let (w, fd) := if fd.flags.rotate then rotateWfile w fd else (w, fd)
          (w, fd, .success, data)
      | _, _ => (w, fd, .error, [])

/-- `file_read`. -/
def fileRead (host : Host κ) (env : Env) (w : World κ) (fd : FileDesc) (request : Nat) :
    Option (World κ × FileDesc × IoStatus × List UInt8) :=
  if fd.flags.read = false then some (w, fd, .error, [])
  else
    (openRead host env w fd).map fun (w, fd, opened) =>
      match opened, fd.fr with
      | true, some f =>
          let (w, status, out) := w.fread f request
          (w, fd, status, out)
      | _, _ => (w, fd, .error, [])

/-- `file_iom_set_filetag`. -/
def setFiletag (w : World κ) (fd : FileDesc) (tag : Path) : World κ × FileDesc :=
  let (w, fd) := rotateWfile w fd
  (w, { fd with fileTag := tag, fileIndex := 0 })

/-- A call on a file machine: a write, a read, a rotation of the file or the directory (as the
rotation filters make it) or a new tag. -/
inductive FileCall where
  | write (data : List UInt8) (env : Env)
  | read (request : Nat) (env : Env)
  | rotate
  | rotateDir
  | setFiletag (tag : Path)

/-- What a call does to the host and the machine, with the status and bytes it reports. -/
def fileCall (host : Host κ) (w : World κ) (fd : FileDesc) :
    FileCall → Option (World κ × FileDesc × IoStatus × List UInt8)
  | .write data env => fileWrite host env w fd data
  | .read request env => fileRead host env w fd request
  | .rotate => some ((rotateWfile w fd).1, (rotateWfile w fd).2, .success, [])
  | .rotateDir => some ((rotateBasedir w fd).1, (rotateBasedir w fd).2, .success, [])
  | .setFiletag tag => some ((setFiletag w fd tag).1, (setFiletag w fd tag).2, .success, [])

/-- `destroy_file`, before it gives the descriptor back. -/
def destroyFile (w : World κ) (fd : FileDesc) : World κ := closeField (closeField w fd.fr) fd.fw

/-! ## The pointers and flags of the descriptor -/

theorem buildDate_desc (env : Env) (fd : FileDesc) :
    (buildDate env fd).1.fr = fd.fr ∧ (buildDate env fd).1.fw = fd.fw ∧
      (buildDate env fd).1.flags = fd.flags := by
  unfold buildDate
  split
  · split <;> exact ⟨rfl, rfl, rfl⟩
  · exact ⟨rfl, rfl, rfl⟩

omit [DecidableEq κ] in
theorem buildDirectoryPath_desc {host : Host κ} {env : Env} {w : World κ} {fd fd' : FileDesc}
    {path : Path} (built : buildDirectoryPath host env w fd = some (fd', path)) :
    fd'.fr = fd.fr ∧ fd'.fw = fd.fw ∧ fd'.flags = fd.flags := by
  have dated := buildDate_desc env fd
  simp only [buildDirectoryPath] at built
  split at built
  · split at built
    · obtain ⟨i, -, eq⟩ := Option.map_eq_some_iff.mp built
      cases eq
      exact dated
    · cases built
      exact dated
  · cases built
    exact dated

omit [DecidableEq κ] in
theorem chooseName_desc {host : Host κ} {w : World κ} {fd fd' : FileDesc} {path fname : Path}
    (chosen : chooseName host w fd path = some (fd', fname)) :
    fd'.fr = fd.fr ∧ fd'.flags = fd.flags := by
  simp only [chooseName] at chosen
  generalize (if fd.flags.index then fd.indexedName path fd.fileIndex else fd.plainName path) =
    first at chosen
  split at chosen
  · obtain ⟨i, -, eq⟩ := Option.map_eq_some_iff.mp chosen
    cases eq
    split <;> exact ⟨rfl, rfl⟩
  · cases chosen
    exact ⟨rfl, rfl⟩

end Bingewatch.File
