import Mathlib.Algebra.BigOperators.Group.Finset.Basic
import Mathlib.Algebra.Order.BigOperators.Group.Finset
import Bingewatch.Foundation.Transition
import Bingewatch.Buffer.RingFailure

/-!
# Water marks

A ring with a high water mark stops taking data when a write has brought it to the mark:
`high_water_mark_hit` sets a low mark, and as long as that is not zero `buf_write` and
`rb_acquire_write_block` answer `IO_NODATA`. The low mark is taken away by such an attempt, when it
finds fewer bytes than the low mark in the ring. A read never looks at the marks.

Between the two marks the ring is either open, with fewer bytes than the high mark, or closed, with
a low mark that is no higher than the high one (`RingUse.Marked`). One write can bring an open ring
past its mark by the length of that write and no more (`high_water_mark_bounds`).
-/

set_option autoImplicit false

namespace Bingewatch.Buffer

open Foundation Machine

/-! ## The calls -/

/-- A ring, and whether its `wlock` is held by a caller that has acquired the block at the write
position. -/
structure RingUse where
  ring : Ring
  held : Bool := false

/-- A call on a ring. Between `acquire` and `release` the caller stores its bytes in the block. -/
inductive UseCall where
  | write (data : List UInt8)
  | acquire (initBytes : Nat)
  | release (data : List UInt8)
  | read (request : Nat) (block : Bool) (align : Nat)
  | stop
  | setHighWaterMark (bytes : Nat)
  | setAlignment (align : Nat)
  | setMinReturnSize (bytes : Nat)
  deriving DecidableEq, Repr

/-- What a call returns. -/
inductive UseAnswer where
  | wrote (status : IoStatus) (count : Nat)
  | acquired (status : IoStatus) (block : Option Nat)
  | released (count : Nat)
  | got (status : IoStatus) (out : List UInt8)
  | done
  deriving DecidableEq, Repr

/-- The call moves data. -/
def UseCall.isIo : UseCall → Bool
  | .write _ => true
  | .acquire _ => true
  | .release _ => true
  | .read .. => true
  | _ => false

namespace RingUse

variable (host : Host)

/-- A write comes to `wlock`, or answers before it does: on an initialised ring with a low mark. -/
def waits (u : RingUse) : Prop :=
  u.held = true ∧ ¬(u.ring.state = .ready ∧ u.ring.lowWaterMark ≠ 0)

instance (u : RingUse) : Decidable u.waits := inferInstanceAs (Decidable (_ ∧ _))

/-- What a call does. A call that waits for a lock it will not get does not return, and a caller
releases only a block that it holds, with no more bytes than the block has room for. -/
def call (u : RingUse) : UseCall → Option (RingUse × UseAnswer)
  | .write data =>
      if u.waits then none
      else
        (bufWrite host u.ring data).map fun (r, status, n) =>
          ({ u with ring := r }, .wrote status n)
  | .acquire initBytes =>
      if u.waits then none
      else
        let (r, status, b) := rbAcquireWriteBlock host u.ring initBytes
        some ({ ring := r, held := b.isSome || u.held }, .acquired status b)
  | .release data =>
      if u.held = true ∧ data.length ≤ u.ring.mem.size u.ring.wp then
        let r := { u.ring with mem := u.ring.mem.modify u.ring.wp (storeData data) }
        some ({ ring := rbReleaseWriteBlock host r data.length, held := false },
          .released data.length)
      else none
  | .read request block align =>
      (bufRead u.ring request block align).map fun (r, status, out) =>
        ({ u with ring := r }, .got status out)
  | .stop => some ({ u with ring := stopBuffer u.ring }, .done)
  | .setHighWaterMark bytes => some ({ u with ring := rbSetHighWaterMark u.ring bytes }, .done)
  | .setAlignment align => some ({ u with ring := rbSetAlignment u.ring align }, .done)
  | .setMinReturnSize bytes => some ({ u with ring := rbSetMinReturnSize u.ring bytes }, .done)

end RingUse

/-- The bytes that the ring has taken with a call. -/
def UseAnswer.accepted : UseAnswer → Nat
  | .wrote .success n => n
  | .released n => n
  | _ => 0

/-- The length of the largest single write that was accepted. -/
def largest (log : List (UseCall × UseAnswer)) : Nat :=
  (log.map fun entry => entry.2.accepted).foldr max 0

theorem largest_concat (log : List (UseCall × UseAnswer)) (c : UseCall) (answer : UseAnswer) :
    largest (log ++ [(c, answer)]) = max (largest log) answer.accepted := by
  induction log with
  | nil => simp [largest]
  | cons entry log ih =>
      simp only [largest, List.map_append, List.map_cons, List.cons_append,
        List.foldr_cons] at ih ⊢
      rw [ih, Nat.max_assoc]

/-! ## The bytes in the blocks -/

section Within

variable {m m' : Mem UInt8} {k : Nat}

/-- No set of blocks holds more than `k` bytes. -/
def Mem.Within (m : Mem UInt8) (k : Nat) : Prop :=
  ∀ blocks : Finset Nat, ∑ x ∈ blocks, m.bytes x ≤ k

theorem Mem.Within.mono {k' : Nat} (within : m.Within k) (more : k ≤ k') : m.Within k' :=
  fun blocks => Nat.le_trans (within blocks) more

theorem Mem.Within.of_le (within : m.Within k) (fewer : ∀ x, m'.bytes x ≤ m.bytes x) :
    m'.Within k :=
  fun blocks => Nat.le_trans (Finset.sum_le_sum fun x _ => fewer x) (within blocks)

/-- The block `b` is given `n` bytes. -/
theorem Mem.Within.put (within : m.Within k) {b n : Nat} (here : m'.bytes b ≤ n)
    (others : ∀ x, x ≠ b → m'.bytes x ≤ m.bytes x) : m'.Within (k + n) := by
  intro blocks
  have rest : ∑ x ∈ blocks.erase b, m'.bytes x ≤ k :=
    Nat.le_trans (Finset.sum_le_sum fun x inside => others x (Finset.ne_of_mem_erase inside))
      (within (blocks.erase b))
  by_cases member : b ∈ blocks
  · rw [← Finset.sum_erase_add _ _ member]
    exact Nat.add_le_add rest here
  · rw [Finset.erase_eq_of_notMem member] at rest
    exact Nat.le_trans rest (Nat.le_add_right ..)

/-- `n` bytes are taken from the block `b`. -/
theorem Mem.Within.take (within : m.Within k) (m' : Mem UInt8) {b n : Nat}
    (enough : n ≤ m.bytes b) (here : m'.bytes b = m.bytes b - n)
    (others : ∀ x, x ≠ b → m'.bytes x = m.bytes x) :
    n ≤ k ∧ m'.Within (k - n) := by
  have all : ∀ blocks : Finset Nat, ∑ x ∈ blocks, m'.bytes x + n ≤ k := by
    intro blocks
    have bound := within (insert b blocks)
    have rest : ∑ x ∈ blocks.erase b, m'.bytes x = ∑ x ∈ blocks.erase b, m.bytes x :=
      Finset.sum_congr rfl fun x inside => others x (Finset.ne_of_mem_erase inside)
    have before : ∑ x ∈ insert b blocks, m.bytes x =
        ∑ x ∈ blocks.erase b, m.bytes x + m.bytes b := by
      rw [← Finset.sum_erase_add _ _ (Finset.mem_insert_self b blocks),
        Finset.erase_insert_eq_erase]
    have after : ∑ x ∈ blocks, m'.bytes x ≤ ∑ x ∈ blocks.erase b, m'.bytes x + m'.bytes b := by
      by_cases member : b ∈ blocks
      · rw [Finset.sum_erase_add _ _ member]
      · rw [Finset.erase_eq_of_notMem member]
        exact Nat.le_add_right ..
    omega
  refine ⟨Nat.le_trans (Nat.le_add_left ..) (all ∅), fun blocks => ?_⟩
  have bound := all blocks
  omega

/-- A block descriptor is overwritten with one that holds no more. -/
theorem bytes_set_le (a : Nat) {b : Block UInt8} (fewer : b.bytes ≤ m.bytes a) (x : Nat) :
    (m.set a b).bytes x ≤ m.bytes x := by
  by_cases here : x = a
  · subst here
    simpa [Mem.bytes] using fewer
  · rw [Mem.bytes, Mem.set_block_of_ne m b here]
    exact Nat.le_refl _

theorem bytes_modify_le (a : Nat) {f : Block UInt8 → Block UInt8}
    (fewer : (f (m.block a)).bytes ≤ (m.block a).bytes) (x : Nat) :
    (m.modify a f).bytes x ≤ m.bytes x :=
  bytes_set_le a fewer x

theorem blockListAllocLoop_bytes_le (n : Nat) :
    ∀ (m : Mem UInt8) (b x : Nat), (blockListAllocLoop n m b).bytes x ≤ m.bytes x := by
  induction n with
  | zero => exact fun _ _ _ => Nat.le_refl _
  | succ n ih =>
      intro m b x
      have fresh : Mem.bytes { m.set m.brk {} with brk := m.brk + 1 } x ≤ m.bytes x :=
        bytes_set_le m.brk (Nat.zero_le _) x
      simp only [blockListAllocLoop]
      refine Nat.le_trans (ih _ _ x) ?_
      split
      · exact fresh
      · exact Nat.le_trans (bytes_modify_le b (Nat.le_refl _) x) fresh

theorem blockListAlloc_bytes_le (m : Mem UInt8) (n x : Nat) :
    (blockListAlloc m n).1.bytes x ≤ m.bytes x := by
  unfold blockListAlloc
  split
  · exact Nat.le_refl _
  · exact blockListAllocLoop_bytes_le n m 0 x

theorem fastallocPartition_bytes_le (bytesPerBlock finalNext n : Nat) :
    ∀ (m : Mem UInt8) (b x : Nat),
      (fastallocPartition bytesPerBlock finalNext n m b).bytes x ≤ m.bytes x := by
  induction n with
  | zero => exact fun _ _ _ => Nat.le_refl _
  | succ n ih =>
      intro m b x
      simp only [fastallocPartition]
      split
      · refine Nat.le_trans (bytes_modify_le b (Nat.le_refl _) x) ?_
        exact bytes_modify_le b (Nat.zero_le _) x
      · exact Nat.le_trans (ih _ _ x) (bytes_modify_le b (Nat.zero_le _) x)

theorem blockDataFastalloc_bytes_le (m : Mem UInt8) (block bytesPerBlock freeram x : Nat) :
    (blockDataFastalloc m block bytesPerBlock freeram).1.bytes x ≤ m.bytes x := by
  unfold blockDataFastalloc
  split
  · exact Nat.le_refl _
  · split
    · exact Nat.le_refl _
    · exact fastallocPartition_bytes_le _ _ _ _ _ x

end Within

/-! ## The calls and the bytes in the blocks -/

section Calls

variable {host : Host} {r r' : Ring}

/-- A new ring has no bytes in its blocks. -/
theorem createBuffer_within : createBuffer.mem.Within 0 := by
  have list : ∀ x, (blockListAlloc ({} : Mem UInt8) defaultRealloc).1.bytes x = 0 := fun x =>
    Nat.le_zero.mp (blockListAlloc_bytes_le {} defaultRealloc x)
  intro blocks
  exact (Finset.sum_eq_zero fun x _ => forgeRingLoop_zero _ _ list _ x).le

theorem ringDataInit_bytes_le (host : Host) (r : Ring) (n x : Nat) :
    (ringDataInit host r n).1.mem.bytes x ≤ r.mem.bytes x := by
  have filled := blockDataFastalloc_bytes_le r.mem r.wp (alignedSize n r.blockAlign)
    (host.freeram r.allocs (alignedSize n r.blockAlign)) x
  simp only [ringDataInit, rbDataInit]
  split <;> split <;> exact filled

/-- Count, marks and state are the same. -/
structure Ring.SameMarks (r r' : Ring) : Prop where
  bytes : r'.bytes = r.bytes
  high : r'.highWaterMark = r.highWaterMark
  low : r'.lowWaterMark = r.lowWaterMark
  state : r'.state = r.state

theorem Ring.SameMarks.trans {r'' : Ring} (first : r.SameMarks r') (second : r'.SameMarks r'') :
    r.SameMarks r'' :=
  ⟨second.bytes.trans first.bytes, second.high.trans first.high, second.low.trans first.low,
    second.state.trans first.state⟩

/-- The initialisation leaves count and marks alone, and makes the ring ready if it succeeds. -/
theorem ringDataInit_marks (host : Host) (r : Ring) (n : Nat) :
    r.SameMarks { (ringDataInit host r n).1 with state := r.state } ∧
      ((ringDataInit host r n).2 = false → (ringDataInit host r n).1.state = .ready) := by
  simp only [ringDataInit, rbDataInit]
  split <;> split <;> refine ⟨⟨rfl, rfl, rfl, rfl⟩, ?_⟩ <;> simp

theorem getNextBlock_bytes_le (host : Host) (r : Ring) (b x : Nat) :
    (getNextBlock host r b).1.mem.bytes x ≤ r.mem.bytes x := by
  have alloc : (r.doubleRealloc.allocBlocks host r.doubleRealloc.blockRealloc).1.mem.bytes x ≤
      r.mem.bytes x := by
    refine Nat.le_trans (blockDataFastalloc_bytes_le _ _ _ _ x) ?_
    exact blockListAlloc_bytes_le r.mem _ x
  simp only [getNextBlock]
  split
  · exact Nat.le_refl _
  · split
    · exact alloc
    · refine Nat.le_trans (Nat.le_of_eq ?_) alloc
      exact Layout.spliced_field Block.bytes (fun _ _ => rfl) _ _ _ _ _ x

theorem getNextBlock_marks (host : Host) (r : Ring) (b : Nat) :
    r.SameMarks (getNextBlock host r b).1 := by
  simp only [getNextBlock]
  split
  · exact ⟨rfl, rfl, rfl, rfl⟩
  · split <;> exact ⟨rfl, rfl, rfl, rfl⟩

/-- The loop of `buf_write` stores its bytes in the blocks; they are counted afterwards. -/
theorem bufWriteLoop_within (fuel : Nat) :
    ∀ {r : Ring} {b k : Nat} {data : List UInt8} {r' : Ring} {b' : Nat},
      bufWriteLoop host fuel r b data = some (r', b') → r.mem.Within k →
        r'.mem.Within (k + data.length) ∧ r.SameMarks r' := by
  induction fuel with
  | zero =>
      intro r b k data r' b' wrote within
      cases data with
      | nil =>
          cases wrote
          exact ⟨within, rfl, rfl, rfl, rfl⟩
      | cons x rest => cases wrote
  | succ fuel ih =>
      intro r b k data r' b' wrote within
      cases data with
      | nil =>
          cases wrote
          exact ⟨within, rfl, rfl, rfl, rfl⟩
      | cons x rest =>
          simp only [bufWriteLoop] at wrote
          generalize count :
            (if (x :: rest).length < r.mem.size b then (x :: rest).length else r.mem.size b) = n
              at wrote
          have short : n ≤ (x :: rest).length := by
            rw [← count]
            split <;> omega
          let stored : Ring :=
            { r with
              mem := (r.mem.modify b (storeData ((x :: rest).take n))).modify b (setBytes n) }
          have put : stored.mem.Within (k + n) := by
            refine within.put (b := b) ?_ fun y other => ?_
            · exact (congrArg Block.bytes (Mem.modify_block_self _ b (setBytes n))).le
            · refine (congrArg Block.bytes ?_).le
              rw [Mem.modify_block_of_ne _ _ other, Mem.modify_block_of_ne _ _ other]
          have next : (getNextBlock host stored b).1.mem.Within (k + n) :=
            put.of_le (getNextBlock_bytes_le host stored b)
          obtain ⟨final, same⟩ := ih wrote next
          have unmarked : r.SameMarks stored := ⟨rfl, rfl, rfl, rfl⟩
          refine ⟨final.mono ?_, unmarked.trans ((getNextBlock_marks host stored b).trans same)⟩
          rw [List.length_drop]
          omega

/-- The end of a write: the bytes are counted, and when they come to the high mark there is a low
mark. -/
theorem finishWrite_marks (host : Host) (r : Ring) (b n : Nat) :
    (finishWrite host r b n).mem = r.mem ∧ (finishWrite host r b n).bytes = r.bytes + n ∧
      (finishWrite host r b n).highWaterMark = r.highWaterMark ∧
      (finishWrite host r b n).state = r.state ∧
      (r.highWaterMark ≠ 0 ∧ r.bytes + n ≥ r.highWaterMark →
        (finishWrite host r b n).lowWaterMark =
          host.lowWater (r.highWaterCount + 1) r.highWaterMark) ∧
      (¬(r.highWaterMark ≠ 0 ∧ r.bytes + n ≥ r.highWaterMark) →
        (finishWrite host r b n).lowWaterMark = r.lowWaterMark) := by
  simp only [finishWrite]
  split
  · next reached => exact ⟨rfl, rfl, rfl, rfl, fun _ => rfl, fun below => absurd reached below⟩
  · next below => exact ⟨rfl, rfl, rfl, rfl, fun reached => absurd reached below, fun _ => rfl⟩

/-- The loop of `buf_read` takes no more than the blocks hold. -/
theorem bufReadLoop_within (block : Bool) (align fuel : Nat) :
    ∀ {m : Mem UInt8} {b remaining k : Nat} {out : List UInt8} {m' : Mem UInt8} {b' : Nat}
      {out' : List UInt8}, bufReadLoop block align fuel m b remaining out = some (m', b', out') →
        m.Within k → ∃ n, n ≤ k ∧ out'.length ≤ out.length + n ∧ m'.Within (k - n) := by
  induction fuel with
  | zero =>
      intro m b remaining k out m' b' out' ran within
      cases remaining with
      | zero =>
          cases ran
          exact ⟨0, Nat.zero_le _, Nat.le_refl _, within⟩
      | succ remaining => cases ran
  | succ fuel ih =>
      intro m b remaining k out m' b' out' ran within
      cases remaining with
      | zero =>
          cases ran
          exact ⟨0, Nat.zero_le _, Nat.le_refl _, within⟩
      | succ remaining =>
          simp only [bufReadLoop] at ran
          split at ran
          · split at ran
            · exact ih ran within
            · split at ran
              · exact ih ran within
              · cases ran
                exact ⟨0, Nat.zero_le _, Nat.le_refl _, within⟩
          · split at ran
            · next partly =>
                cases ran
                obtain ⟨most, left⟩ := within.take (b := b)
                  ((m.modify b (shiftData (remaining + 1))).modify b
                    (takeBytes (remaining + 1))) (Nat.le_of_lt partly)
                  (by simp [Mem.bytes, takeBytes, shiftData])
                  (fun x other => by simp [Mem.bytes, Mem.modify_block_of_ne _ _ other])
                refine ⟨remaining + 1, most, ?_, left⟩
                rw [List.length_append, List.length_take]
                omega
            · obtain ⟨most, left⟩ := within.take (b := b)
                (m.modify b (takeBytes (m.bytes b))) (Nat.le_refl _)
                (by simp [Mem.bytes, takeBytes])
                (fun x other => by simp [Mem.bytes, Mem.modify_block_of_ne _ _ other])
              obtain ⟨n, most', length, final⟩ := ih ran left
              refine ⟨m.bytes b + n, by omega, ?_, by rwa [← Nat.sub_sub]⟩
              rw [List.length_append, List.length_take] at length
              omega

/-- A read takes no more than the ring has counted. -/
theorem bufRead_within {request align : Nat} {block : Bool} {status : IoStatus} {out : List UInt8}
    (within : r.mem.Within r.bytes)
    (read : bufRead r request block align = some (r', status, out)) :
    out.length ≤ r.bytes ∧ r'.mem.Within r'.bytes ∧ r'.bytes ≤ r.bytes ∧
      r'.highWaterMark = r.highWaterMark ∧ r'.lowWaterMark = r.lowWaterMark ∧
      r'.state = r.state := by
  obtain ⟨⟨m, b, out'⟩, looped, result⟩ := Option.map_eq_some_iff.mp read
  obtain ⟨n, most, length, final⟩ := bufReadLoop_within _ _ _ looped within
  rw [List.length_nil, Nat.zero_add] at length
  have left : m.Within (r.bytes - out'.length) := final.mono (by omega)
  simp only at result
  split at result
  · cases result
    exact ⟨by omega, left, Nat.sub_le _ _, rfl, rfl, rfl⟩
  · cases result
    exact ⟨by omega, left, Nat.sub_le _ _, rfl, rfl, rfl⟩

end Calls

/-! ## What a call can do -/

section Effects

variable {host : Host} {u v : RingUse} {c : UseCall} {answer : UseAnswer}

/-- What holds of every ring in use: the count covers the bytes in the blocks, and a ring with a low
mark is initialised and not held. -/
structure RingUse.Sound (u : RingUse) : Prop where
  within : u.ring.mem.Within u.ring.bytes
  closed : u.ring.lowWaterMark ≠ 0 → u.ring.state = .ready ∧ u.held = false
  holding : u.held = true → u.ring.state = .ready

/-- The effects of the calls: bytes are taken by an open ring, an attempt is turned away by a closed
one, or neither the low mark nor the high one is touched and the count does not grow. -/
inductive RingUse.Effect (host : Host) (u v : RingUse) (answer : UseAnswer) : Prop where
  | takes (opened : u.ring.lowWaterMark = 0)
      (bytes : v.ring.bytes = u.ring.bytes + answer.accepted)
      (high : v.ring.highWaterMark = u.ring.highWaterMark)
      (hit : v.ring.highWaterMark ≠ 0 ∧ v.ring.bytes ≥ v.ring.highWaterMark →
        ∃ count, v.ring.lowWaterMark = host.lowWater count v.ring.highWaterMark)
      (below : ¬(v.ring.highWaterMark ≠ 0 ∧ v.ring.bytes ≥ v.ring.highWaterMark) →
        v.ring.lowWaterMark = 0)
  | refuses (closed : u.ring.lowWaterMark ≠ 0) (ring : v.ring = lowWaterMarkHit u.ring)
      (nothing : answer.accepted = 0)
  | keeps (fewer : v.ring.bytes ≤ u.ring.bytes)
      (high : v.ring.highWaterMark = u.ring.highWaterMark)
      (low : v.ring.lowWaterMark = u.ring.lowWaterMark) (nothing : answer.accepted = 0)

/-- A write that is turned away changes nothing but the low mark. -/
theorem lowWaterMarkHit_eq (r : Ring) :
    ∃ low, lowWaterMarkHit r = { r with lowWaterMark := low } := by
  unfold lowWaterMarkHit
  split
  · exact ⟨0, rfl⟩
  · exact ⟨r.lowWaterMark, rfl⟩

theorem RingUse.Sound.refuses (sound : u.Sound) :
    RingUse.Sound { u with ring := lowWaterMarkHit u.ring } := by
  unfold lowWaterMarkHit
  split
  · exact ⟨sound.within, fun low => absurd rfl low, sound.holding⟩
  · exact sound

/-- Bytes that were stored in the blocks of an open ring are counted. -/
theorem finishWrite_effect {r₁ : Ring} {b n : Nat} (noLow : u.ring.lowWaterMark = 0)
    (isReady : u.ring.state = .ready) (same : u.ring.SameMarks r₁)
    (within : r₁.mem.Within (u.ring.bytes + n)) (taken : answer.accepted = n) :
    RingUse.Sound { ring := finishWrite host r₁ b n } ∧
      u.Effect host { ring := finishWrite host r₁ b n } answer := by
  obtain ⟨mem, bytes, high, state, hit, below⟩ := finishWrite_marks host r₁ b n
  have counted : (finishWrite host r₁ b n).bytes = u.ring.bytes + n :=
    bytes.trans (congrArg (· + n) same.bytes)
  refine ⟨⟨?_, fun _ => ⟨state.trans (same.state.trans isReady), rfl⟩, fun held => by cases held⟩,
    .takes noLow (taken ▸ counted) (high.trans same.high) ?_ ?_⟩
  · show (finishWrite host r₁ b n).mem.Within (finishWrite host r₁ b n).bytes
    rw [mem, counted]
    exact within
  · intro reached
    exact ⟨_, (hit (by rwa [← bytes, ← high])).trans (congrArg _ high.symm)⟩
  · intro under
    exact (below (by rwa [← bytes, ← high])).trans (same.low.trans noLow)

/-- `buf_write` on an initialised ring. -/
theorem bufWriteReady_effect {r r' : Ring} {data : List UInt8} {status : IoStatus} {n : Nat}
    (sound : RingUse.Sound { ring := r }) (isReady : r.state = .ready)
    (wrote : bufWriteReady host r data = some (r', status, n)) :
    RingUse.Sound { ring := r' } ∧
      RingUse.Effect host { ring := r } { ring := r' } (.wrote status n) := by
  unfold bufWriteReady at wrote
  split at wrote
  · next closed =>
      cases wrote
      exact ⟨sound.refuses, .refuses closed rfl rfl⟩
  · next opened =>
      obtain ⟨⟨r₁, b⟩, looped, result⟩ := Option.map_eq_some_iff.mp wrote
      cases result
      obtain ⟨within, same⟩ := bufWriteLoop_within _ looped sound.within
      exact finishWrite_effect (not_not.mp opened) isReady same within rfl

/-- A ring that was not initialised has no low mark, and after an attempt to initialise it the count
and the marks are the same. -/
theorem RingUse.Sound.init (host : Host) {r : Ring} (sound : RingUse.Sound { ring := r })
    (isNoinit : r.state = .noinit) (n : Nat) :
    RingUse.Sound { ring := (ringDataInit host r n).1 } ∧
      (ringDataInit host r n).1.bytes = r.bytes ∧
      (ringDataInit host r n).1.highWaterMark = r.highWaterMark ∧
      (ringDataInit host r n).1.lowWaterMark = r.lowWaterMark ∧ r.lowWaterMark = 0 := by
  obtain ⟨same, -⟩ := ringDataInit_marks host r n
  have bytes : (ringDataInit host r n).1.bytes = r.bytes := same.bytes
  have low : (ringDataInit host r n).1.lowWaterMark = r.lowWaterMark := same.low
  have noLow : r.lowWaterMark = 0 := by
    by_contra closed
    cases isNoinit.symm.trans (sound.closed closed).1
  refine ⟨⟨?_, fun closed => absurd (low.trans noLow) closed, fun held => by cases held⟩, bytes,
    same.high, low, noLow⟩
  show (ringDataInit host r n).1.mem.Within _
  rw [bytes]
  exact sound.within.of_le (ringDataInit_bytes_le host r n)

theorem bufWrite_effect {r r' : Ring} {data : List UInt8} {status : IoStatus} {n : Nat}
    (sound : RingUse.Sound { ring := r }) (wrote : bufWrite host r data = some (r', status, n)) :
    RingUse.Sound { ring := r' } ∧
      RingUse.Effect host { ring := r } { ring := r' } (.wrote status n) := by
  unfold bufWrite at wrote
  cases state : r.state with
  | ready =>
      rw [state] at wrote
      exact bufWriteReady_effect sound state wrote
  | noinit =>
      rw [state] at wrote
      obtain ⟨sound₁, bytes, high, low, noLow⟩ := sound.init host state data.length
      have ready := (ringDataInit_marks host r data.length).2
      cases init : ringDataInit host r data.length with
      | mk r₁ failed =>
          rw [init] at wrote sound₁ bytes high low ready
          cases failed with
          | true =>
              cases wrote
              exact ⟨sound₁, .keeps bytes.le high low rfl⟩
          | false =>
              obtain ⟨sound₂, effect⟩ := bufWriteReady_effect sound₁ (ready rfl) wrote
              refine ⟨sound₂, ?_⟩
              cases effect with
              | takes opened count mark hit below =>
                  exact .takes noLow (count.trans (congrArg (· + _) bytes)) (mark.trans high) hit
                    below
              | refuses closed => exact absurd (low.trans noLow) closed
              | keeps fewer mark lower nothing =>
                  exact .keeps (fewer.trans bytes.le) (mark.trans high) (lower.trans low) nothing

theorem rbAcquireWriteBlock_effect {r r' : Ring} {initBytes : Nat}
    (sound : RingUse.Sound { ring := r }) {status : IoStatus} {b : Option Nat}
    (acquired : rbAcquireWriteBlock host r initBytes = (r', status, b)) :
    RingUse.Sound { ring := r', held := b.isSome } ∧
      RingUse.Effect host { ring := r } { ring := r', held := b.isSome } (.acquired status b) := by
  unfold rbAcquireWriteBlock at acquired
  cases state : r.state with
  | ready =>
      rw [state] at acquired
      simp only at acquired
      split at acquired
      · next closed =>
          cases acquired
          exact ⟨sound.refuses, .refuses closed rfl rfl⟩
      · next opened =>
          cases acquired
          exact ⟨⟨sound.within, fun closed => absurd closed opened, fun _ => state⟩,
            .keeps (Nat.le_refl _) rfl rfl rfl⟩
  | noinit =>
      rw [state] at acquired
      generalize (if initBytes > 0 then initBytes else defaultBufBytes) = n at acquired
      obtain ⟨sound₁, bytes, high, low, noLow⟩ := sound.init host state n
      have ready := (ringDataInit_marks host r n).2
      cases init : ringDataInit host r n with
      | mk r₁ failed =>
          rw [init] at acquired sound₁ bytes high low ready
          cases failed with
          | true =>
              cases acquired
              exact ⟨sound₁, .keeps bytes.le high low rfl⟩
          | false =>
              simp only [if_neg (not_not.mpr (low.trans noLow))] at acquired
              cases acquired
              exact ⟨⟨sound₁.within, fun closed => absurd (low.trans noLow) closed,
                fun _ => ready rfl⟩, .keeps bytes.le high low rfl⟩

theorem rbReleaseWriteBlock_effect (host : Host) (sound : u.Sound) (held : u.held = true)
    (data : List UInt8) :
    let r := { u.ring with mem := u.ring.mem.modify u.ring.wp (storeData data) }
    RingUse.Sound { ring := rbReleaseWriteBlock host r data.length } ∧
      u.Effect host { ring := rbReleaseWriteBlock host r data.length } (.released data.length) := by
  intro r
  have noLow : u.ring.lowWaterMark = 0 := by
    by_contra closed
    cases held.symm.trans (sound.closed closed).2
  let stored : Ring := { r with mem := r.mem.modify r.wp (setBytes data.length) }
  have put : stored.mem.Within (u.ring.bytes + data.length) := by
    refine sound.within.put (b := u.ring.wp) ?_ fun x other => ?_
    · exact (congrArg Block.bytes (Mem.modify_block_self _ _ (setBytes data.length))).le
    · refine (congrArg Block.bytes ?_).le
      rw [Mem.modify_block_of_ne _ _ other, Mem.modify_block_of_ne _ _ other]
  have released : rbReleaseWriteBlock host r data.length =
      finishWrite host (getNextBlock host stored r.wp).1 (getNextBlock host stored r.wp).2.1
        data.length := rfl
  rw [released]
  refine finishWrite_effect noLow (sound.holding held) ?_ ?_ rfl
  · have unmarked : u.ring.SameMarks stored := ⟨rfl, rfl, rfl, rfl⟩
    exact unmarked.trans (getNextBlock_marks host stored r.wp)
  · exact put.of_le (getNextBlock_bytes_le host stored r.wp)

/-- **One call.** -/
theorem RingUse.Sound.call (sound : u.Sound) (called : u.call host c = some (v, answer)) :
    v.Sound ∧ (c.isIo = true → u.Effect host v answer) := by
  -- A write that does not wait finds the lock free.
  have unlocked : ¬u.waits → u.held = false := by
    intro proceeds
    by_contra held
    have held : u.held = true := by simpa using held
    have closed := not_not.mp fun other => proceeds ⟨held, other⟩
    cases held.symm.trans (sound.closed closed.2).2
  cases c with
  | write data =>
      simp only [RingUse.call] at called
      split at called
      · cases called
      · next proceeds =>
          obtain ⟨⟨r, status, n⟩, wrote, same⟩ := Option.map_eq_some_iff.mp called
          cases same
          obtain ⟨ring, held⟩ := u
          obtain rfl : held = false := unlocked proceeds
          obtain ⟨sound', effect⟩ := bufWrite_effect sound wrote
          exact ⟨sound', fun _ => effect⟩
  | acquire initBytes =>
      simp only [RingUse.call] at called
      split at called
      · cases called
      · next proceeds =>
          obtain ⟨ring, held⟩ := u
          obtain rfl : held = false := unlocked proceeds
          cases called
          rw [Bool.or_false]
          have acquired : rbAcquireWriteBlock host ring initBytes = _ := rfl
          obtain ⟨sound', effect⟩ := rbAcquireWriteBlock_effect sound acquired
          exact ⟨sound', fun _ => effect⟩
  | release data =>
      simp only [RingUse.call] at called
      split at called
      · next held =>
          cases called
          obtain ⟨sound', effect⟩ := rbReleaseWriteBlock_effect host sound held.1 data
          exact ⟨sound', fun _ => effect⟩
      · cases called
  | read request block align =>
      obtain ⟨⟨r, status, out⟩, read, same⟩ := Option.map_eq_some_iff.mp called
      cases same
      obtain ⟨-, within, fewer, high, low, state⟩ := bufRead_within sound.within read
      refine ⟨⟨within, fun closed => ?_, fun held => state.trans (sound.holding held)⟩,
        fun _ => .keeps fewer high low rfl⟩
      obtain ⟨isReady, free⟩ := sound.closed (low ▸ closed)
      exact ⟨state.trans isReady, free⟩
  | stop | setHighWaterMark | setAlignment | setMinReturnSize =>
      cases called
      exact ⟨⟨sound.within, sound.closed, sound.holding⟩, fun impossible => by cases impossible⟩

/-! ## Marks over a run -/

/-- The ring under the mark `w`: it is open with fewer bytes than the mark, or closed with a low
mark that is no higher, or with a low mark left from before. -/
structure RingUse.Marked (w : Nat) (u : RingUse) (log : List (UseCall × UseAnswer)) : Prop where
  mark : u.ring.highWaterMark = w
  opened : u.ring.lowWaterMark = 0 → u.ring.bytes < w
  closed : u.ring.lowWaterMark ≠ 0 →
    u.ring.bytes < w + largest log ∧ (u.ring.lowWaterMark ≤ w ∨ u.ring.bytes < w)

/-- **One call under a mark.** -/
theorem RingUse.Marked.call {w : Nat} {log : List (UseCall × UseAnswer)}
    (lows : ∀ count, 1 ≤ host.lowWater count w ∧ host.lowWater count w ≤ w)
    (marked : u.Marked w log) (effect : u.Effect host v answer) :
    v.Marked w (log ++ [(c, answer)]) := by
  have most : largest log ≤ largest (log ++ [(c, answer)]) := by
    rw [largest_concat]
    exact Nat.le_max_left ..
  cases effect with
  | takes opened bytes high hit below =>
      have before := marked.opened opened
      have mark := high.trans marked.mark
      have now : answer.accepted ≤ largest (log ++ [(c, answer)]) := by
        rw [largest_concat]
        exact Nat.le_max_right ..
      rw [mark] at hit below
      refine ⟨mark, fun low => ?_, fun low => ?_⟩
      · by_contra reached
        obtain ⟨count, value⟩ := hit ⟨by omega, by omega⟩
        have positive := (lows count).1
        omega
      · by_cases reached : w ≠ 0 ∧ v.ring.bytes ≥ w
        · obtain ⟨count, value⟩ := hit reached
          refine ⟨by omega, .inl ?_⟩
          rw [value]
          exact (lows count).2
        · exact absurd (below reached) low
  | refuses closed ring nothing =>
      obtain ⟨bound, lower⟩ := marked.closed closed
      obtain ⟨r, held⟩ := v
      obtain rfl : r = lowWaterMarkHit u.ring := ring
      unfold lowWaterMarkHit
      split
      · refine ⟨marked.mark, fun _ => ?_, fun low => absurd rfl low⟩
        show u.ring.bytes < w
        omega
      · exact ⟨marked.mark, marked.opened, fun _ => ⟨Nat.lt_of_lt_of_le bound (by omega), lower⟩⟩
  | keeps fewer high low nothing =>
      refine ⟨high.trans marked.mark, fun opened => ?_, fun closed => ?_⟩
      · have before := marked.opened (low ▸ opened)
        omega
      · obtain ⟨bound, lower⟩ := marked.closed (low ▸ closed)
        rw [low]
        refine ⟨by omega, lower.imp_right fun less => ?_⟩
        omega

/-- A write to a closed ring is turned away, by either way of writing, and changes nothing but the
low mark. -/
theorem RingUse.Sound.turnsAway (host : Host) (sound : u.Sound)
    (closed : u.ring.lowWaterMark ≠ 0) :
    (∀ data, ∃ low,
      bufWrite host u.ring data = some ({ u.ring with lowWaterMark := low }, .nodata, 0)) ∧
    ∀ initBytes, ∃ low, rbAcquireWriteBlock host u.ring initBytes =
      ({ u.ring with lowWaterMark := low }, .nodata, none) := by
  obtain ⟨low, hit⟩ := lowWaterMarkHit_eq u.ring
  have isReady := (sound.closed closed).1
  refine ⟨fun data => ⟨low, ?_⟩, fun initBytes => ⟨low, ?_⟩⟩
  · simp only [bufWrite, isReady, bufWriteReady, if_pos closed, hit]
  · simp only [rbAcquireWriteBlock, isReady, if_pos closed, hit]

end Effects

/-- Every sequence of calls on a new ring keeps it sound. -/
theorem RingUse.Sound.run {host : Host} {calls : List UseCall} {u : RingUse}
    {log : List (UseCall × UseAnswer)}
    (ran : runCalls (RingUse.call host) { ring := createBuffer } calls = some (u, log)) :
    u.Sound := by
  let I : RingUse → List (UseCall × UseAnswer) → Prop := fun s _ => s.Sound
  have initial : I { ring := createBuffer } [] :=
    ⟨createBuffer_within, fun closed => absurd rfl closed, fun held => by cases held⟩
  have preserved : ∀ s log c t answer, I s log → RingUse.call host s c = some (t, answer) →
      I t (log ++ [(c, answer)]) :=
    fun s log c t answer sound called => (RingUse.Sound.call sound called).1
  exact @runCalls_invariant _ _ _ _ I preserved _ _ [] _ _ initial ran

/-- **A run under a mark.** -/
theorem RingUse.Marked.run {host : Host} {w : Nat}
    (lows : ∀ count, 1 ≤ host.lowWater count w ∧ host.lowWater count w ≤ w)
    {calls : List UseCall} {u v : RingUse} {before log : List (UseCall × UseAnswer)}
    (sound : u.Sound) (marked : u.Marked w before) (io : ∀ c ∈ calls, c.isIo = true)
    (ran : runCalls (RingUse.call host) u calls = some (v, log)) :
    v.Sound ∧ v.Marked w (before ++ log) := by
  -- A change of the mark is no part of the run, so that the rule for arbitrary calls does not do.
  induction calls generalizing u before log with
  | nil =>
      cases ran
      rw [List.append_nil]
      exact ⟨sound, marked⟩
  | cons c calls ih =>
      obtain ⟨⟨t, answer⟩, called, rest⟩ := Option.bind_eq_some_iff.mp ran
      obtain ⟨⟨v', log'⟩, ran', same⟩ := Option.map_eq_some_iff.mp rest
      cases same
      obtain ⟨sound', effect⟩ := sound.call called
      have marked' := marked.call (c := c) lows (effect (io c (List.mem_cons_self ..)))
      have later : ∀ c' ∈ calls, c'.isIo = true := fun c' member =>
        io c' (List.mem_cons_of_mem c member)
      have final := ih sound' marked' later ran'
      rwa [List.append_assoc] at final

/-- **The high water mark bounds the ring.** A mark is set on an empty ring, whatever was done with
the ring before; the low marks computed from it lie between one byte and the mark. After every
sequence of reads and of writes by either way, the ring counts fewer bytes than the mark and the
largest single write accepted since together. As long as there is a low mark, every write is
answered with `IO_NODATA` and leaves the ring as it is, but for the low mark. No read takes more
bytes than the ring counts, so that the count never wraps. -/
theorem high_water_mark_bounds (host : Host) (w : Nat)
    (lows : ∀ count, 1 ≤ host.lowWater count w ∧ host.lowWater count w ≤ w)
    {before calls : List UseCall} {u v : RingUse} {log₀ log : List (UseCall × UseAnswer)}
    (used : runCalls (RingUse.call host) { ring := createBuffer } before = some (u, log₀))
    (empty : u.ring.bytes = 0) (io : ∀ c ∈ calls, c.isIo = true)
    (ran : runCalls (RingUse.call host) { u with ring := rbSetHighWaterMark u.ring w } calls =
      some (v, log)) :
    v.ring.bytes < w + largest log ∧
      (v.ring.lowWaterMark ≠ 0 →
        (∀ data, ∃ low,
          bufWrite host v.ring data = some ({ v.ring with lowWaterMark := low }, .nodata, 0)) ∧
        ∀ initBytes, ∃ low, rbAcquireWriteBlock host v.ring initBytes =
          ({ v.ring with lowWaterMark := low }, .nodata, none)) ∧
      ∀ request block align r status out,
        bufRead v.ring request block align = some (r, status, out) → out.length ≤ v.ring.bytes := by
  have positive : 0 < w := Nat.lt_of_lt_of_le (lows 0).1 (lows 0).2
  have sound₀ := RingUse.Sound.run used
  have sound₁ : RingUse.Sound { u with ring := rbSetHighWaterMark u.ring w } :=
    ⟨sound₀.within, sound₀.closed, sound₀.holding⟩
  have marked : RingUse.Marked w { u with ring := rbSetHighWaterMark u.ring w } [] := by
    have none : u.ring.bytes < w := by omega
    exact ⟨rfl, fun _ => none, fun _ => ⟨Nat.lt_add_right _ none, .inr none⟩⟩
  obtain ⟨sound, final⟩ := RingUse.Marked.run lows sound₁ marked io ran
  refine ⟨?_, sound.turnsAway host, fun request block align r status out read => ?_⟩
  · by_cases opened : v.ring.lowWaterMark = 0
    · exact Nat.lt_add_right _ (final.opened opened)
    · exact (final.closed opened).1
  · exact (bufRead_within sound.within read).1

/-- Low marks of nine tenths of the mark, eight tenths and so on down to one tenth. -/
def tenthsHost : Host where
  freeram := fun _ size => 40 * size
  lowWater := fun count mark => if count < 10 then mark * (10 - count) / 10 else mark / 10

/-- A mark of twenty bytes, on a ring that was written and read before. A write of thirty bytes
closes the ring and the next one is turned away; after a read of twenty-five bytes one more attempt
is turned away and opens the ring again. -/
theorem high_water_mark_bounds_run :
    ∃ u v log₀ log,
      runCalls (RingUse.call tenthsHost) { ring := createBuffer }
        [.setAlignment 8, .write [1, 2], .read 2 false 1] = some (u, log₀) ∧
      runCalls (RingUse.call tenthsHost) { u with ring := rbSetHighWaterMark u.ring 20 }
        [.acquire 0, .release (List.replicate 8 1), .write (List.replicate 30 2), .write [3],
          .read 25 false 1, .acquire 0, .write [4]] = some (v, log) ∧
      log.map (fun entry => entry.2) = [.acquired .success (some 2), .released 8,
        .wrote .success 30, .wrote .nodata 0,
        .got .success (List.replicate 8 1 ++ List.replicate 17 2), .acquired .nodata none,
        .wrote .success 1] ∧
      v.ring.bytes < 20 + largest log := by
  let calls : List UseCall :=
    [.acquire 0, .release (List.replicate 8 1), .write (List.replicate 30 2), .write [3],
      .read 25 false 1, .acquire 0, .write [4]]
  have run : (runCalls (RingUse.call tenthsHost) { ring := createBuffer }
      [.setAlignment 8, .write [1, 2], .read 2 false 1]).bind (fun (u, _) =>
        (runCalls (RingUse.call tenthsHost) { u with ring := rbSetHighWaterMark u.ring 20 }
          calls).map fun (_, log) => (u.ring.bytes, log.map fun entry => entry.2)) =
      some (0, [.acquired .success (some 2), .released 8, .wrote .success 30, .wrote .nodata 0,
        .got .success (List.replicate 8 1 ++ List.replicate 17 2), .acquired .nodata none,
        .wrote .success 1]) := by
    decide +kernel
  obtain ⟨⟨u, log₀⟩, used, later⟩ := Option.bind_eq_some_iff.mp run
  obtain ⟨⟨v, log⟩, ran, seen⟩ := Option.map_eq_some_iff.mp later
  obtain ⟨empty, answers⟩ := Prod.mk.injEq .. ▸ seen
  refine ⟨u, v, log₀, log, used, ran, answers, ?_⟩
  have lows : ∀ count, 1 ≤ tenthsHost.lowWater count 20 ∧ tenthsHost.lowWater count 20 ≤ 20 := by
    intro count
    simp only [tenthsHost]
    split <;> omega
  exact (high_water_mark_bounds tenthsHost 20 lows used empty (by decide) ran).1

end Bingewatch.Buffer
