import Bingewatch.Buffer.RingQueue

/-!
# Reading a stopped ring to its end

`stop_buffer` ends the writing on a ring and sets the flag that is to keep reading available until
the ring is empty. From then on `buf_read` takes an empty result for the end: it reports completion
and disables reading. A result can be empty with bytes left in the ring, though, when the request is
below the alignment, or when the ring holds less than the least amount it returns. Over every
sequence of calls these are the cases (`complete_only_when_empty_iff`).

A read with an alignment does not return in the middle of a unit: it waits for a writer to supply
the rest, also on a stopped ring. `stopped_read_ends_iff` says when it ends.
-/

set_option autoImplicit false

namespace Bingewatch.Buffer

open Machine

/-! ## Completion -/

/-- `rb_set_min_return_size`. -/
def rbSetMinReturnSize (r : Ring) (bytes : Nat) : Ring := { r with minReturnSize := bytes }

/-- `machine_desc_read` on a ring buffer behind filters that pass down their own blocking mode and
alignment. -/
def machineDescReadAligned (r : Ring) (request : Nat) (block : Bool) (align : Nat) :
    Option (Ring × IoStatus × List UInt8) :=
  machineDescIo (fun r => some r.ioRead) (fun r state => { r with ioRead := state }) [] []
    (fun r => bufRead r request block align) r

/-- A call on a ring that is not written any more. -/
inductive DrainCall where
  | stop
  | setMinReturnSize (bytes : Nat)
  | read (request : Nat) (block : Bool) (align : Nat)
  deriving DecidableEq, Repr

/-- What a call does to a ring, and the status of a read. -/
def Ring.drain (r : Ring) : DrainCall → Option (Ring × Option IoStatus)
  | .stop => some (stopBuffer r, none)
  | .setMinReturnSize bytes => some (rbSetMinReturnSize r bytes, none)
  | .read request block align =>
      (machineDescReadAligned r request block align).map fun (r, status, _) => (r, some status)

/-- Every read of a sequence that reports completion leaves no byte in the ring. -/
def Ring.CompletesEmpty : Ring → List DrainCall → Prop
  | _, [] => True
  | r, c :: calls => ∀ r' status, r.drain c = some (r', status) →
      (status = some .complete → r'.content = []) ∧ r'.CompletesEmpty calls

/-- A read of a stopped ring that is not empty asks for a whole unit, and for no less than the ring
returns. -/
def DrainCall.Asks (r : Ring) : DrainCall → Prop
  | .read request _ align => r.ioRead = .enabled → r.flush = true → r.content ≠ [] →
      r.minReturnSize ≤ r.bytes ∧ 0 < align ∧ align ≤ request
  | _ => True

/-- Every read of a sequence asks for something when its turn comes. -/
def Ring.AsksRun : Ring → List DrainCall → Prop
  | _, [] => True
  | r, c :: calls => c.Asks r ∧ ∀ r' status, r.drain c = some (r', status) → r'.AsksRun calls

/-- A ring that is read until a read reports completion. -/
structure Ring.Drains (r : Ring) : Prop where
  holds : ∃ q, r.Holds q
  side : r.ioRead = .enabled ∨ r.ioRead = .disabling ∨ r.ioRead = .disabled

variable {r r' : Ring} {q : List UInt8}

theorem toRead_ne_zero (r : Ring) (request align : Nat) :
    r.toRead request align ≠ 0 ↔ r.minReturnSize ≤ r.bytes ∧ 0 < align ∧ align ≤ request := by
  have rounded : request - request % align ≠ 0 ↔ 0 < align ∧ align ≤ request := by
    rcases Nat.eq_zero_or_pos align with rfl | positive
    · simp
    · have whole : request - request % align = align * (request / align) := by
        have division := Nat.div_add_mod request align
        omega
      rw [whole, Nat.mul_ne_zero_iff, Nat.div_ne_zero_iff]
      omega
  unfold Ring.toRead
  split
  · next less => omega
  · next enough => rw [rounded]; omega

/-- What a ring stores does not depend on the least amount it returns. -/
theorem Ring.Holds.setMinReturnSize (holds : r.Holds q) (bytes : Nat) :
    (rbSetMinReturnSize r bytes).Holds q :=
  holds.configure r.ioRead r.ioWrite r.flush r.blockAlign r.highWaterMark r.highWaterCount
    r.lowWaterMark bytes r.allocs

/-- What a read through the descriptor can do: it is swallowed by a side that is disabled, or it
returns what `buf_read` does. -/
theorem drain_read_cases (drains : r.Drains) {request align : Nat} {block : Bool}
    {status : Option IoStatus} (called : r.drain (.read request block align) = some (r', status)) :
    r.ioRead ≠ .enabled ∧ status = some .success ∧ r' = { r with ioRead := .disabled } ∨
      r.ioRead = .enabled ∧
        ∃ out reported, bufRead r request block align = some (r', reported, out) ∧
          status = some reported := by
  simp only [Ring.drain, machineDescReadAligned, machineDescIo] at called
  rcases drains.side with side | side | side
  · rw [side] at called
    obtain ⟨⟨r₁, reported, out⟩, read, same⟩ := Option.map_eq_some_iff.mp called
    cases same
    exact .inr ⟨side, out, reported, read, rfl⟩
  · rw [side] at called
    cases called
    exact .inl ⟨by simp [side], rfl, rfl⟩
  · rw [side] at called
    cases called
    refine .inl ⟨by simp [side], rfl, ?_⟩
    rw [← side]

/-- What a read of the blocks leaves, and when it reports completion. -/
theorem bufRead_cases (holds : r.Holds q) {request align : Nat} {block : Bool}
    {status : IoStatus} {out : List UInt8}
    (read : bufRead r request block align = some (r', status, out)) :
    let n := r.toRead request align
    r'.Holds (q.drop n) ∧ r'.flush = r.flush ∧
      (status = .complete ∧ r.flush = true ∧ q.take n = [] ∧ r'.ioRead = .disabling ∨
        status = .success ∧ ¬(r.flush = true ∧ q.take n = []) ∧ r'.ioRead = r.ioRead) := by
  intro n
  obtain ⟨r₁, rest, -, keeps, outcome⟩ := bufRead_general holds request block align
  rw [outcome] at read
  split at read
  · split at read
    · next finished =>
        cases read
        exact ⟨rest.sides .disabling r₁.ioWrite r₁.flush, keeps.flush,
          .inl ⟨rfl, finished.1, finished.2, rfl⟩⟩
    · next goesOn =>
        cases read
        exact ⟨rest, keeps.flush, .inr ⟨rfl, goesOn, keeps.ioRead⟩⟩
  · cases read

/-- **One call** keeps the bytes of the ring in order, and its read side enabled until a read
reports completion. -/
theorem Ring.Drains.call (drains : r.Drains) {c : DrainCall} {status : Option IoStatus}
    (called : r.drain c = some (r', status)) : r'.Drains := by
  obtain ⟨q, holds⟩ := drains.holds
  cases c with
  | stop =>
      cases called
      exact ⟨⟨q, holds.sides r.ioRead .disabling true⟩, drains.side⟩
  | setMinReturnSize bytes =>
      cases called
      exact ⟨⟨q, holds.setMinReturnSize bytes⟩, drains.side⟩
  | read request block align =>
      rcases drain_read_cases drains called with ⟨-, -, rfl⟩ | ⟨enabled, out, reported, read, -⟩
      · exact ⟨⟨q, holds.sides .disabled r.ioWrite r.flush⟩, .inr (.inr rfl)⟩
      · obtain ⟨rest, -, ⟨-, -, -, side⟩ | ⟨-, -, side⟩⟩ := bufRead_cases holds read
        · exact ⟨⟨_, rest⟩, .inr (.inl side)⟩
        · exact ⟨⟨_, rest⟩, .inl (side.trans enabled)⟩

/-- **One call** leaves no byte in the ring when it reports completion, exactly when it asks for
something. -/
theorem complete_iff_asks (drains : r.Drains) (c : DrainCall) :
    (∀ r' status, r.drain c = some (r', status) → status = some .complete → r'.content = []) ↔
      c.Asks r := by
  obtain ⟨q, holds⟩ := drains.holds
  cases c with
  | stop =>
      refine ⟨fun _ => trivial, fun _ r' status called complete => ?_⟩
      cases called
      cases complete
  | setMinReturnSize bytes =>
      refine ⟨fun _ => trivial, fun _ r' status called complete => ?_⟩
      cases called
      cases complete
  | read request block align =>
      simp only [DrainCall.Asks, ← toRead_ne_zero, holds.content_eq]
      constructor
      · intro empties enabled stopped unread zero
        obtain ⟨r₁, rest, -, -, outcome⟩ := bufRead_general holds request block align
        rw [if_pos (.inl (by rw [zero]; exact Nat.zero_le _)), zero, List.take_zero,
          if_pos ⟨stopped, rfl⟩] at outcome
        have called : r.drain (.read request block align) =
            some ({ r₁ with ioRead := .disabling }, some .complete) := by
          simp only [Ring.drain, machineDescReadAligned, machineDescIo, enabled, outcome,
            Option.map_some]
        have left := empties _ _ called rfl
        rw [(rest.sides .disabling r₁.ioWrite r₁.flush).content_eq, zero, List.drop_zero] at left
        exact unread left
      · rintro asks r' status called rfl
        rcases drain_read_cases drains called with
          ⟨-, other, -⟩ | ⟨enabled, out, reported, read, same⟩
        · cases other
        · cases same
          obtain ⟨rest, -, ⟨-, stopped, nothing, -⟩ | ⟨other, -, -⟩⟩ := bufRead_cases holds read
          · rw [rest.content_eq]
            rcases List.take_eq_nil_iff.mp nothing with zero | empty
            · by_contra unread
              have some : q ≠ [] := by
                rintro rfl
                exact unread (List.drop_nil)
              exact asks enabled stopped some zero
            · rw [empty, List.drop_nil]
          · cases other

theorem completesEmpty_iff (drains : r.Drains) (calls : List DrainCall) :
    r.CompletesEmpty calls ↔ r.AsksRun calls := by
  induction calls generalizing r with
  | nil => exact Iff.rfl
  | cons c calls ih =>
      have one := complete_iff_asks drains c
      constructor
      · intro empties
        refine ⟨one.mp fun r' status called => (empties r' status called).1, ?_⟩
        intro r' status called
        exact (ih (drains.call called)).mp (empties r' status called).2
      · rintro ⟨asks, later⟩ r' status called
        exact ⟨one.mpr asks r' status called, (ih (drains.call called)).mpr
          (later r' status called)⟩

/-- **When a stopped ring is complete only when it is empty.** In a sequence of stops, reads with
any requests and alignments, and changes of the least amount returned, on a ring that holds any
bytes and can be read, every read that reports completion leaves no byte in the ring, if and only if
every read of a stopped ring that is not empty asks for at least a unit of its alignment and finds
at least the least amount. -/
theorem complete_only_when_empty_iff (r : Ring) (q : List UInt8) (holds : r.Holds q)
    (readable : r.ioRead = .enabled) (calls : List DrainCall) :
    r.CompletesEmpty calls ↔ r.AsksRun calls :=
  completesEmpty_iff ⟨⟨q, holds⟩, .inl readable⟩ calls

/-- A new ring that was written once. -/
theorem written_ring (data : List UInt8) (nonempty : data ≠ []) :
    ∃ r, bufWrite roomyHost { createBuffer with blockAlign := 1 } data =
        some (r, .success, data.length) ∧
      r.Holds data ∧ r.ioRead = .enabled ∧ r.minReturnSize = 0 := by
  obtain ⟨r, write, holds, -, keeps⟩ := bufWrite_spec roomyHost_fits
    (simulates_start Nat.one_pos).holds (fun _ => nonempty) Nat.one_pos rfl rfl
  exact ⟨r, write, holds, keeps.ioRead, keeps.minReturnSize⟩

/-- A ring with two bytes that is stopped and read byte by byte. -/
theorem complete_only_when_empty_bytes :
    ∃ r, bufWrite roomyHost { createBuffer with blockAlign := 1 } [1, 2] =
        some (r, .success, 2) ∧
      r.CompletesEmpty [.stop, .read 1 false 1] := by
  obtain ⟨r, write, holds, readable, unlimited⟩ := written_ring [1, 2] (by simp)
  refine ⟨r, write, (complete_only_when_empty_iff r [1, 2] holds readable _).mpr ⟨trivial, ?_⟩⟩
  rintro r' status ⟨⟩
  refine ⟨fun _ _ _ => ⟨?_, by decide, by decide⟩, fun _ _ _ => trivial⟩
  show r.minReturnSize ≤ _
  rw [unlimited]
  exact Nat.zero_le _

/-- A ring with one byte that returns no less than two reports completion with the byte left. -/
theorem complete_with_byte_left :
    ∃ r, bufWrite roomyHost { createBuffer with blockAlign := 1 } [1] = some (r, .success, 1) ∧
      ¬r.CompletesEmpty [.setMinReturnSize 2, .stop, .read 1 false 1] := by
  obtain ⟨r, write, holds, readable, -⟩ := written_ring [1] (by simp)
  refine ⟨r, write, fun empties => ?_⟩
  have asks := (completesEmpty_iff ⟨⟨[1], holds⟩, .inl readable⟩ _).mp empties
  have last := ((asks.2 _ _ rfl).2 _ _ rfl).1
  have stopped : (stopBuffer (rbSetMinReturnSize r 2)).Holds [1] :=
    (holds.setMinReturnSize 2).sides r.ioRead .disabling true
  have enough := (last readable rfl (by rw [stopped.content_eq]; simp)).1
  rw [stopped.bytes_eq] at enough
  have two : 2 ≤ 1 := enough
  exact absurd two (by decide)

/-! ## Termination -/

/-- The loop of a read that does not block ends after finitely many passes. -/
def Ring.ReadEnds (r : Ring) (request align : Nat) : Prop :=
  ∃ passes, bufReadLoop false align passes r.mem r.rp (r.toRead request align) [] ≠ none

theorem readEnds_iff (holds : r.Holds q) (request align : Nat) :
    r.ReadEnds request align ↔ r.toRead request align ≤ q.length ∨ q.length % align = 0 := by
  obtain ⟨full, free, shape, rfl⟩ := holds
  have run := shape.body.layout.fullRun shape.spare shape.body.stored
  have loops := fun passes =>
    bufReadLoop_align false align passes (r.toRead request align) [] run
  simp only [List.length_nil, Nat.zero_add, true_and] at loops
  constructor
  · rintro ⟨passes, ends⟩
    by_contra spins
    rw [loops, if_neg spins] at ends
    exact ends rfl
  · intro condition
    obtain ⟨m, b, -, -, loop, -⟩ := bufReadLoop_spec (r.toRead request align) shape.body.layout
      shape.spare shape.body.stored
    refine ⟨r.toRead request align, ?_⟩
    rw [loops, if_pos condition, loop]
    exact Option.some_ne_none _

theorem toRead_le (r : Ring) (request align n : Nat) :
    r.toRead request align ≤ n ↔ r.minReturnSize > r.bytes ∨ request - request % align ≤ n := by
  unfold Ring.toRead
  split
  · next less => simp [less]
  · next enough => simp [enough]

/-- **When reads of a stopped ring end.** On a ring that holds any bytes and is stopped, a read that
does not block ends after finitely many passes, and returns, if and only if the ring holds less than
the least amount it returns, or at least the request rounded down to the alignment, or whole units
of the alignment. -/
theorem stopped_read_ends_iff (r : Ring) (q : List UInt8) (holds : r.Holds q)
    (request align : Nat) :
    ((stopBuffer r).ReadEnds request align ↔
      r.minReturnSize > r.bytes ∨ request - request % align ≤ q.length ∨ align ∣ q.length) ∧
    ((stopBuffer r).ReadEnds request align →
      ∃ result, bufRead (stopBuffer r) request false align = some result) := by
  have stopped : (stopBuffer r).Holds q := holds.sides r.ioRead .disabling true
  have ends := readEnds_iff stopped request align
  refine ⟨?_, fun returns => ?_⟩
  · rw [ends, toRead_le, ← Nat.dvd_iff_mod_eq_zero, or_assoc]
    rfl
  · obtain ⟨r', -, -, -, outcome⟩ := bufRead_general stopped request false align
    rw [if_pos ((ends.mp returns).imp_right fun whole => ⟨rfl, whole⟩)] at outcome
    split at outcome
    · exact ⟨_, outcome⟩
    · exact ⟨_, outcome⟩

/-- Two bytes are one unit of two. -/
theorem stopped_read_ends_pair :
    ∃ r, bufWrite roomyHost { createBuffer with blockAlign := 1 } [1, 2] =
        some (r, .success, 2) ∧
      (stopBuffer r).ReadEnds 4 2 := by
  obtain ⟨r, write, holds, -, -⟩ := written_ring [1, 2] (by simp)
  exact ⟨r, write, (stopped_read_ends_iff r [1, 2] holds 4 2).1.mpr (.inr (.inr (by decide)))⟩

/-- A read of units of two from a ring with one byte goes on for ever. -/
theorem stopped_read_spins :
    ∃ r, bufWrite roomyHost { createBuffer with blockAlign := 1 } [1] = some (r, .success, 1) ∧
      ¬(stopBuffer r).ReadEnds 2 2 := by
  obtain ⟨r, write, holds, -, unlimited⟩ := written_ring [1] (by simp)
  refine ⟨r, write, fun ends => ?_⟩
  have stopped : (stopBuffer r).Holds [1] := holds.sides r.ioRead .disabling true
  have asked : (stopBuffer r).toRead 2 2 = 2 := by
    simp [Ring.toRead, stopBuffer, unlimited]
  have condition := (readEnds_iff stopped 2 2).mp ends
  rw [asked] at condition
  exact absurd condition (by decide)

end Bingewatch.Buffer
