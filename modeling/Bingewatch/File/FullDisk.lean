import Bingewatch.File.Machine
import Bingewatch.Foundation.Parts

/-!
# Writing to a full disk

`file_write` calls `fwrite` until the aligned request is stored, with the lock of the descriptor
held (`src/file-machine.c`). On a full disk `fwrite` stores a part, or nothing, and from then on
nothing any more: the count of what remains never comes to zero, and the write neither returns nor
gives the lock back.

So a write that comes to its loop ends as it should exactly when the first `fwrite` stores all of it
(`full_disk_reported_iff`). Then it does what `fileWrite` says (`fileWriteRounds_eq`).
-/

set_option autoImplicit false

namespace Bingewatch.File

open Foundation Machine

variable {κ : Type} [DecidableEq κ]

/-- A file machine with its host and the lock of its descriptor. -/
structure LockedFile (κ : Type) where
  world : World κ
  desc : FileDesc
  locked : Bool := false

/-- What a write leaves: the status, the byte count, and the machine. -/
structure WriteReturn (κ : Type) where
  status : IoStatus
  bytes : UInt64
  file : LockedFile κ

/-- The data of the parts that were stored. -/
def storedData (data : List UInt8) (s : Parts) : List UInt8 :=
  s.moves.flatMap fun move => (data.drop move.1.toNat).take move.2.toNat

/-- The end of `file_write`, behind its loop. -/
def finishWrite (w : World κ) (fd : FileDesc) (f : Nat) (data : List UInt8) (s : Parts) :
    WriteReturn κ :=
  let w := w.fwrite f (storedData data s)
  let (w, fd) := if fd.flags.rotate then rotateWfile w fd else (w, fd)
  ⟨.success, s.total, { world := w, desc := fd }⟩

/-- The registers of a write that has not come to its loop. -/
def beforeLoop : Parts := { remaining := 0 }

/-- `file_write` after some rounds of its loop; `results` are the results of `fwrite`. A search for
a name that finds none does not end. The lock is held from the search on until the write returns. -/
def fileWriteRounds (host : Host κ) (env : Env) (align : Align) (m : LockedFile κ)
    (data : List UInt8) (results : Nat → Nat) (n : Nat) : Progress Parts (WriteReturn κ) :=
  if data = [] then .returned beforeLoop ⟨.success, 0, m⟩
  else if m.desc.flags.write = false then .returned beforeLoop ⟨.error, 0, m⟩
  else
    let request := UInt64.ofNat data.length
    match openWrite host env m.world m.desc with
    | none => .running beforeLoop
    | some (w, fd, opened) =>
        match opened, fd.fw with
        | true, some f =>
            moveRounds (finishWrite w fd f data) (align.floor request) (fun i => some (results i)) n
        | _, _ => .returned beforeLoop ⟨.error, request, { world := w, desc := fd }⟩

/-- The write returns, with the lock released and the bytes that were stored as its byte count, and
with an error unless all of the aligned length was stored. -/
def Reported (length : UInt64) (run : Nat → Progress Parts (WriteReturn κ)) : Prop :=
  ∃ n s r, run n = .returned s r ∧ r.file.locked = false ∧ r.bytes.toNat = s.moved ∧
    (s.moved < length.toNat → r.status = .error)

/-- Once `fwrite` has stored less than it was asked for, it stores nothing. -/
def DiskFull (length : UInt64) (results : Nat → Nat) : Prop :=
  ∀ n m, offered length.toNat (fun i => some (results i)) (n + 1) < length.toNat → n < m →
    results m = 0

/-- The file of a write is open, or can be opened. -/
def Opens (host : Host κ) (env : Env) (m : LockedFile κ) : Prop :=
  ∃ w fd f, openWrite host env m.world m.desc = some (w, fd, true) ∧ fd.fw = some f

section Loop

variable {ρ : Type} {length : UInt64} {results : Nat → Nat}

theorem answered_some (length : UInt64) (results : Nat → Nat) (n : Nat) :
    Answered length (fun i => some (results i)) n := fun _ _ _ => by simp

/-- After a short count nothing more is offered. -/
theorem offered_short (full : DiskFull length results) (short : results 0 < length.toNat)
    (n : Nat) :
    offered length.toNat (fun i => some (results i)) (n + 1) = results 0 := by
  induction n with
  | zero =>
      simp only [offered, Option.getD_some]
      omega
  | succ n ih =>
      have nothing := full n (n + 1) (by omega) (Nat.lt_succ_self n)
      rw [offered, ih, Option.getD_some, nothing, Nat.zero_min, Nat.add_zero]

/-- After a short count the loop does not end. -/
theorem moveRounds_short (finish : Parts → ρ) (full : DiskFull length results)
    (short : results 0 < length.toNat) (n : Nat) :
    ∃ s, moveRounds finish length (fun i => some (results i)) n = .running s := by
  have ahead : offered length.toNat (fun i => some (results i)) n < length.toNat := by
    cases n with
    | zero =>
        simp only [offered]
        omega
    | succ n =>
        rw [offered_short full short]
        exact short
  obtain ⟨s, running, -⟩ := moveRounds_running finish (answered_some length results n) ahead
  exact ⟨s, running⟩

/-- A first count of everything ends the loop. -/
theorem moveRounds_whole (finish : Parts → ρ) (whole : length.toNat ≤ results 0) :
    ∃ s, moveRounds finish length (fun i => some (results i)) 2 = .returned s (finish s) ∧
      s.Exact length ∧ s.total = length := by
  have enough : length.toNat ≤ offered length.toNat (fun i => some (results i)) 1 := by
    simp only [offered, Option.getD_some]
    omega
  exact moveRounds_returned finish (answered_some length results 1) enough

end Loop

section Write

variable {host : Host κ} {env : Env} {align : Align} {m : LockedFile κ} {data : List UInt8}
  {results : Nat → Nat}

theorem fileWriteRounds_empty : fileWriteRounds host env align m [] results =
    fun _ => .returned beforeLoop ⟨.success, 0, m⟩ := by
  funext n
  simp [fileWriteRounds]

theorem fileWriteRounds_refused (filled : data ≠ []) (readOnly : m.desc.flags.write = false) :
    fileWriteRounds host env align m data results =
      fun _ => .returned beforeLoop ⟨.error, 0, m⟩ := by
  funext n
  simp [fileWriteRounds, filled, readOnly]

/-- A write that comes to its loop. -/
theorem fileWriteRounds_opened (filled : data ≠ []) (writes : m.desc.flags.write = true)
    {w : World κ} {fd : FileDesc} {f : Nat}
    (opened : openWrite host env m.world m.desc = some (w, fd, true)) (stream : fd.fw = some f) :
    fileWriteRounds host env align m data results =
      moveRounds (finishWrite w fd f data) (align.floor (.ofNat data.length))
        fun i => some (results i) := by
  funext n
  simp [fileWriteRounds, filled, writes, opened, stream]

/-- A write whose file cannot be opened fails with the request as its byte count, or searches for
a name for ever. -/
theorem fileWriteRounds_closed (align : Align) (results : Nat → Nat) (filled : data ≠ [])
    (writes : m.desc.flags.write = true) (closed : ¬Opens host env m) :
    (fileWriteRounds host env align m data results = fun _ => .running beforeLoop) ∨
      ∃ file, fileWriteRounds host env align m data results =
        fun _ => .returned beforeLoop ⟨.error, .ofNat data.length, file⟩ := by
  cases opened : openWrite host env m.world m.desc with
  | none =>
      left
      funext n
      simp [fileWriteRounds, filled, writes, opened]
  | some result =>
      obtain ⟨w, fd, success⟩ := result
      refine .inr ⟨{ world := w, desc := fd }, ?_⟩
      funext n
      cases success with
      | false => simp [fileWriteRounds, filled, writes, opened]
      | true =>
          cases stream : fd.fw with
          | none => simp [fileWriteRounds, filled, writes, opened, stream]
          | some f => exact absurd ⟨w, fd, f, opened, stream⟩ closed

omit [DecidableEq κ] in
/-- A write that returns before its loop. -/
theorem reported_before_iff {length : UInt64} {r : WriteReturn κ} (released : r.file.locked = false)
    (status : 0 < length.toNat → r.status = .error) :
    Reported length (fun _ => .returned beforeLoop r) ↔ r.bytes = 0 := by
  constructor
  · rintro ⟨n, s, r', returned, -, bytes, -⟩
    cases returned
    exact UInt64.toNat_inj.mp bytes
  · intro none
    exact ⟨0, beforeLoop, r, rfl, released, by rw [none]; rfl, status⟩

end Write

/-- **Writing to a full disk** ends as it should exactly when nothing is to be written, the machine
does not write, or its file can be opened and the first `fwrite` stores the whole aligned length. -/
theorem full_disk_reported_iff (host : Host κ) (env : Env) (align : Align) (m : LockedFile κ)
    (data : List UInt8) (results : Nat → Nat) (free : m.locked = false)
    (sized : data.length < 2 ^ 64) (full : DiskFull (align.floor (.ofNat data.length)) results) :
    Reported (align.floor (.ofNat data.length))
        (fileWriteRounds host env align m data results) ↔
      data = [] ∨ m.desc.flags.write = false ∨
        Opens host env m ∧ (align.floor (.ofNat data.length)).toNat ≤ results 0 := by
  by_cases filled : data = []
  · subst filled
    rw [fileWriteRounds_empty, reported_before_iff free]
    · simp
    · intro positive
      exact absurd positive (by simp [Align.floor])
  · by_cases writes : m.desc.flags.write = false
    · rw [fileWriteRounds_refused filled writes, reported_before_iff free fun _ => rfl]
      simp [writes]
    · have writes' : m.desc.flags.write = true := by simpa using writes
      rw [or_iff_right filled, or_iff_right writes]
      by_cases opens : Opens host env m
      · obtain ⟨w, fd, f, opened, stream⟩ := opens
        rw [fileWriteRounds_opened filled writes' opened stream]
        by_cases whole : (align.floor (.ofNat data.length)).toNat ≤ results 0
        · refine iff_of_true ?_ ⟨⟨w, fd, f, opened, stream⟩, whole⟩
          obtain ⟨s, returned, counts, total⟩ := moveRounds_whole (finishWrite w fd f data) whole
          refine ⟨2, s, _, returned, ?_, ?_, fun short => ?_⟩
          · rfl
          · exact counts.moved.symm
          · rw [counts.moved, total] at short
            exact absurd short (Nat.lt_irrefl _)
        · refine iff_of_false ?_ fun condition => whole condition.2
          rintro ⟨n, s, r, returned, -⟩
          obtain ⟨t, running⟩ := moveRounds_short (finishWrite w fd f data) full
            (Nat.lt_of_not_le whole) n
          cases running.symm.trans returned
      · refine iff_of_false ?_ fun condition => opens condition.1
        rcases fileWriteRounds_closed align results filled writes' opens with
          searches | ⟨file, failed⟩
        · rw [searches]
          rintro ⟨n, s, r, returned, -⟩
          cases returned
        · rw [failed]
          rintro ⟨n, s, r, returned, -, bytes, -⟩
          cases returned
          have none : data.length % 2 ^ 64 = 0 := by
            simpa [beforeLoop, Parts.moved] using bytes
          rw [Nat.mod_eq_of_lt sized] at none
          exact filled (List.length_eq_zero_iff.mp none)

/-- A machine that writes bytewise to an open file. -/
def openFile : LockedFile Unit where
  world := { disk := fun _ => some (.file []), streams := [{ place := () }] }
  desc := { rootDir := [], fileTag := [], flags := { write := true }, fw := some 0 }

/-- A host with one place. -/
def oneFile : Host Unit := ⟨fun _ _ => none⟩

/-- There is room for so many bytes. -/
def room (count n : Nat) : Nat := if n = 0 then count else 0

/-- A write of three bytes with room for three. -/
theorem full_disk_reported_room :
    Reported (Align.byte.floor 3)
      (fileWriteRounds oneFile {} .byte openFile [1, 2, 3] (room 3)) := by
  refine (full_disk_reported_iff oneFile {} .byte openFile [1, 2, 3] (room 3) rfl (by decide)
    ?_).mpr ?_
  · intro n m _ later
    exact if_neg (by omega)
  · exact .inr (.inr ⟨⟨_, _, 0, rfl, rfl⟩, by decide⟩)

/-- A write of three bytes with room for two does not return. -/
theorem full_disk_never_returns :
    DiskFull (Align.byte.floor 3) (room 2) ∧
      (∀ n s r, fileWriteRounds oneFile {} .byte openFile [1, 2, 3] (room 2) n ≠ .returned s r) ∧
      ¬Reported (Align.byte.floor 3)
        (fileWriteRounds oneFile {} .byte openFile [1, 2, 3] (room 2)) := by
  have full : DiskFull (Align.byte.floor 3) (room 2) := by
    intro n m _ later
    exact if_neg (by omega)
  have loops : ∀ n s r,
      fileWriteRounds oneFile {} .byte openFile [1, 2, 3] (room 2) n ≠ .returned s r := by
    intro n s r returned
    have loop : fileWriteRounds oneFile {} .byte openFile [1, 2, 3] (room 2) =
        moveRounds (finishWrite openFile.world openFile.desc 0 [1, 2, 3]) (Align.byte.floor 3)
          fun i => some (room 2 i) :=
      fileWriteRounds_opened (by decide) rfl rfl rfl
    rw [loop] at returned
    obtain ⟨t, running⟩ := moveRounds_short (finishWrite openFile.world openFile.desc 0 [1, 2, 3])
      full (by decide) n
    cases running.symm.trans returned
  refine ⟨full, loops, ?_⟩
  rintro ⟨n, s, r, returned, -⟩
  exact loops n s r returned

/-! ## A write that is stored whole -/

/-- **A first `fwrite` that stores everything** makes the write do what `fileWrite` says for the
aligned data. -/
theorem fileWriteRounds_eq {host : Host κ} {env : Env} {align : Align} {m : LockedFile κ}
    {data : List UInt8} {results : Nat → Nat} (writes : m.desc.flags.write = true)
    (opens : Opens host env m) (positive : align.floor (.ofNat data.length) ≠ 0)
    (whole : (align.floor (.ofNat data.length)).toNat ≤ results 0) :
    ∃ s r, fileWriteRounds host env align m data results 2 = .returned s r ∧
      fileWrite host env m.world m.desc (data.take (align.floor (.ofNat data.length)).toNat) =
        some (r.file.world, r.file.desc, r.status, storedData data s) := by
  obtain ⟨w, fd, f, opened, stream⟩ := opens
  generalize length : align.floor (.ofNat data.length) = A at positive whole ⊢
  have filled : data ≠ [] := by
    rintro rfl
    exact positive (length.symm.trans (by simp [Align.floor]))
  have least : 0 < A.toNat :=
    Nat.pos_of_ne_zero (toNat_ne_zero positive)
  have all : reply (some (results 0)) A = A := by
    rw [← UInt64.toNat_inj, toNat_reply_some]
    omega
  let s : Parts := Parts.call { remaining := A } (some (results 0)) A
  have ended : s.remaining = 0 := by
    simp only [s, Parts.call, all, UInt64.sub_self]
  have first : moveRounds (finishWrite w fd f data) A (fun i => some (results i)) 1 =
      .running s := if_neg positive
  have stored : storedData data s = data.take A.toNat := by
    simp only [storedData, s, Parts.call, all, Option.isSome_some, if_true, List.nil_append,
      List.flatMap_cons, List.flatMap_nil, List.append_nil, UInt64.toNat_zero, List.drop_zero]
  refine ⟨s, finishWrite w fd f data s, ?_, ?_⟩
  · rw [fileWriteRounds_opened filled writes opened stream, length, moveRounds, rounds_succ first,
      moveRound, if_pos ended]
  · have rest : data.take A.toNat ≠ [] := by
      rw [Ne, List.take_eq_nil_iff]
      rintro (zero | empty)
      · omega
      · exact filled empty
    rw [fileWrite, if_neg rest, if_neg (by simp [writes]), opened]
    simp only [Option.map_some, stream, finishWrite, stored]

end Bingewatch.File
