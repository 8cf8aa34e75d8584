import Bingewatch.Foundation.Memcpy
import Bingewatch.Foundation.Transition
import Bingewatch.Buffer.BlockRing

/-!
# Buffered reads from a radio

A buffered receive channel (`src/sdr/sdr-rx-machine.c`) owns a ring of blocks. Every call of
`read_from_buffer` starts a thread in `fill_from_hw`, which reads samples from the hardware into
empty blocks; the call itself collects samples from the blocks, stops the thread and joins it. The
two share no lock: a block whose byte count is zero belongs to the fill thread, any other block to
the reader.

The model takes one step for each access to a field of a shared structure and one for each copy.
The mutexes `rlock` and `wlock` are each taken by one thread at a time, since a call joins its fill
thread, and have no step of their own.

A call that takes a part of a block moves the rest to the front with `memcpy`, and the two areas
overlap when more is left than was taken. What is left then depends on the C library, so its
`memcpy` is a parameter of the model.

`ReaderMove` lists what a step of a call can do; the invariants of the reader go through this list.
-/

set_option autoImplicit false

namespace Bingewatch.Sdr

open Foundation Machine Buffer

/-- `sizeof(float complex)`. -/
def sampleBytes : Nat := 8

/-! ## The state -/

/-- Where the fill thread stands in `fill_from_hw`; `absent` when no call runs. -/
inductive FillPc where
  | absent
  | start
  | testFill
  | testBytes
  | hwRead
  | storeRet (status : IoStatus) (n : Nat)
  | testRet (n : Nat)
  | storeBytes (n : Nat)
  | follow
  | storeWp (rval : IoStatus)
  | exited (rval : IoStatus)
  deriving DecidableEq, Repr

/-- Where a call stands in `read_from_buffer`. The steps from `dropBytes` to `dropRet` are the tail
that the error branch and the default branch share. -/
inductive ReaderPc where
  | idle
  | setFill
  | create
  | loadRp
  | wait
  | testRet
  | loadBytes
  | switch (n : Nat)
  | copy (n : Nat)
  | testAll (n : Nat)
  | clear
  | follow
  | shrink (n : Nat)
  | shift (n : Nat)
  | copyLast (n : Nat)
  | dropBytes
  | dropFollow
  | dropRet
  | storeRp
  | stopFill
  | join
  deriving DecidableEq, Repr

/-- The local variables of a call; `out` are the samples copied so far, `total_samples` many. -/
structure ReadCall (α : Type) where
  rp : Nat := 0
  remaining : Nat := 0
  out : List α := []
  ret : IoStatus := .error

/-- A channel with its block ring (`struct blb_rw_t`), the flag `do_fill`, its two threads, and what
its calls have reported. `produced` are the samples the hardware has delivered so far. -/
structure Channel (α : Type) where
  mem : Mem α
  rp : Nat
  wp : Nat
  doFill : Bool := false
  fill : FillPc := .absent
  fillWp : Nat := 0
  reader : ReaderPc := .idle
  call : ReadCall α := {}
  reports : List (IoStatus × List α) := []
  produced : List α := []

/-- The samples reported by the calls that returned. -/
def Channel.delivered {α : Type} (s : Channel α) : List α := s.reports.flatMap Prod.snd

/-- `blb_init_rw`. Its caller sees no failure: `block_data_fastalloc` may give data to fewer blocks
than asked for, and the ring is then forged from these. -/
def blbInitRw {α : Type} (bytesPerBlock nBlocks freeram : Nat) : Channel α :=
  let (m, buf) := newRing bytesPerBlock nBlocks freeram
  { mem := m, rp := buf, wp := buf }

/-- A step of the environment: a new call, a step of the call, or a step of the fill thread with
what the hardware answers if it is asked. -/
inductive Act (α : Type) where
  | call (nSamp : Nat)
  | reader
  | fill (status : IoStatus) (samples : List α)

/-! ## The steps -/

section Steps

variable {α : Type}

/-- The status stored with a block. -/
def retOf (m : Mem α) (b : Nat) : IoStatus := (m.block b).dRet

/-- The samples a block holds. -/
def samplesOf (m : Mem α) (b : Nat) : Nat := m.bytes b / sampleBytes

/-- The `memcpy` that moves the rest of a block to the front, where `n` samples were taken. -/
def shiftSamples (copy : Memcpy α) (n : Nat) (b : Block α) : Block α :=
  let left := b.bytes / sampleBytes
  { b with data := copy.moved (b.data.take (n + left)) n ++ b.data.drop left }

/-- A step of `fill_from_hw`. The hardware is asked for the samples that fit in the block and stores
no more than these. -/
def fillStep (s : Channel α) (status : IoStatus) (samples : List α) : Option (Channel α) :=
  match s.fill with
  | .absent => none
  | .start => some { s with fill := .testFill, fillWp := s.wp }
  | .testFill => some { s with fill := if s.doFill then .testBytes else .storeWp .success }
  | .testBytes =>
      some { s with fill := if s.mem.bytes s.fillWp = 0 then .hwRead else .storeWp .success }
  | .hwRead =>
      if samples.length ≤ s.mem.size s.fillWp / sampleBytes then
        some
          { s with
            mem := s.mem.modify s.fillWp (storeData samples)
            fill := .storeRet status samples.length
            produced := if status.isError then s.produced else s.produced ++ samples }
      else none
  | .storeRet status n =>
      some
        { s with
          mem := s.mem.modify s.fillWp fun b => { b with dRet := status }
          fill := .testRet n }
  | .testRet n =>
      let status := retOf s.mem s.fillWp
      some { s with fill := if status.isError then .storeWp status else .storeBytes n }
  | .storeBytes n =>
      some
        { s with
          mem := s.mem.modify s.fillWp (setBytes (n * sampleBytes))
          fill := .follow }
  | .follow => some { s with fill := .testFill, fillWp := s.mem.next s.fillWp }
  | .storeWp rval => some { s with fill := .exited rval, wp := s.fillWp }
  | .exited _ => none

/-- A step of `read_from_buffer`. -/
def readerStep (copy : Memcpy α) (s : Channel α) : Option (Channel α) :=
  let c := s.call
  match s.reader with
  | .idle => none
  | .setFill => some { s with doFill := true, reader := .create }
  | .create => some { s with fill := .start, reader := .loadRp }
  | .loadRp => some { s with call := { c with rp := s.rp }, reader := .wait }
  | .wait =>
      if c.remaining = 0 then
        some { s with call := { c with ret := if c.ret.isError then .success else c.ret },
                      reader := .storeRp }
      else if s.mem.bytes c.rp = 0 then some s
      else some { s with reader := .testRet }
  | .testRet =>
      some { s with reader := if (retOf s.mem c.rp).isError then .dropBytes else .loadBytes }
  | .loadBytes =>
      let samples := samplesOf s.mem c.rp
      some { s with reader := .switch (if samples ≤ c.remaining then samples else c.remaining) }
  | .switch n =>
      match retOf s.mem c.rp with
      | .success => some { s with reader := .copy n }
      | .databreak =>
          some { s with call := { c with ret := .databreak },
                        reader := if 0 < c.out.length then .storeRp else .copy n }
      | _ => some { s with reader := .copyLast n }
  | .copy n =>
      let c := { c with out := c.out ++ (s.mem.data c.rp).take n, remaining := c.remaining - n }
      some { s with call := c, reader := .testAll n }
  | .testAll n =>
      some { s with reader := if s.mem.bytes c.rp = n * sampleBytes then .clear else .shrink n }
  | .clear => some { s with mem := s.mem.modify c.rp (setBytes 0), reader := .follow }
  | .follow => some { s with call := { c with rp := s.mem.next c.rp }, reader := .wait }
  | .shrink n =>
      some { s with mem := s.mem.modify c.rp fun b => { b with bytes := b.bytes - n * sampleBytes },
                    reader := .shift n }
  | .shift n => some { s with mem := s.mem.modify c.rp (shiftSamples copy n), reader := .wait }
  | .copyLast n =>
      some { s with call := { c with out := c.out ++ (s.mem.data c.rp).take n },
                    reader := .dropBytes }
  | .dropBytes => some { s with mem := s.mem.modify c.rp (setBytes 0), reader := .dropFollow }
  | .dropFollow => some { s with call := { c with rp := s.mem.next c.rp }, reader := .dropRet }
  | .dropRet => some { s with call := { c with ret := retOf s.mem c.rp }, reader := .storeRp }
  | .storeRp => some { s with rp := c.rp, reader := .stopFill }
  | .stopFill => some { s with doFill := false, reader := .join }
  | .join =>
      match s.fill with
      | .exited rval =>
          let ret := if rval.isError then rval else c.ret
          let report := (ret, if ret.isError then [] else c.out)
          some { s with fill := .absent, reader := .idle, reports := s.reports ++ [report] }
      | _ => none

/-- A step of the channel. A call begins when the one before has returned. -/
def channelStep (copy : Memcpy α) (s : Channel α) : Act α → Option (Channel α)
  | .call nSamp =>
      if s.reader = .idle then some { s with call := { remaining := nSamp }, reader := .setFill }
      else none
  | .reader => readerStep copy s
  | .fill status samples => fillStep s status samples

/-- A channel whose blocks hold at least one sample each, and memory for at least one block. -/
def channelSystem (copy : Memcpy α) : System (Channel α) (Act α) where
  start := fun s => ∃ bytesPerBlock nBlocks freeram, sampleBytes ≤ bytesPerBlock ∧ 1 ≤ nBlocks ∧
    bytesPerBlock < freeram ∧ s = blbInitRw bytesPerBlock nBlocks freeram
  step := channelStep copy

end Steps

/-! ## What a step of a call does -/

section Moves

variable {α : Type} {copy : Memcpy α} {s t : Channel α}

/-- The steps of a call. -/
inductive ReaderMove (copy : Memcpy α) (s : Channel α) : Channel α → Prop where
  | setFill (pc : s.reader = .setFill) :
      ReaderMove copy s { s with doFill := true, reader := .create }
  | create (pc : s.reader = .create) :
      ReaderMove copy s { s with fill := .start, reader := .loadRp }
  | loadRp (pc : s.reader = .loadRp) :
      ReaderMove copy s { s with call := { s.call with rp := s.rp }, reader := .wait }
  | served (pc : s.reader = .wait) (enough : s.call.remaining = 0) :
      ReaderMove copy s
        { s with
          call := { s.call with ret := if s.call.ret.isError then .success else s.call.ret }
          reader := .storeRp }
  | waits (pc : s.reader = .wait) (needs : s.call.remaining ≠ 0)
      (empty : s.mem.bytes s.call.rp = 0) : ReaderMove copy s s
  | finds (pc : s.reader = .wait) (needs : s.call.remaining ≠ 0)
      (filled : s.mem.bytes s.call.rp ≠ 0) : ReaderMove copy s { s with reader := .testRet }
  | fails (pc : s.reader = .testRet) (error : (retOf s.mem s.call.rp).isError = true) :
      ReaderMove copy s { s with reader := .dropBytes }
  | passes (pc : s.reader = .testRet) (sound : (retOf s.mem s.call.rp).isError = false) :
      ReaderMove copy s { s with reader := .loadBytes }
  | loadBytes (pc : s.reader = .loadBytes) :
      ReaderMove copy s
        { s with reader := .switch (min (samplesOf s.mem s.call.rp) s.call.remaining) }
  | success {n : Nat} (pc : s.reader = .switch n) (status : retOf s.mem s.call.rp = .success) :
      ReaderMove copy s { s with reader := .copy n }
  | breaks {n : Nat} (pc : s.reader = .switch n) (status : retOf s.mem s.call.rp = .databreak)
      (some : 0 < s.call.out.length) :
      ReaderMove copy s { s with call := { s.call with ret := .databreak }, reader := .storeRp }
  | tolerates {n : Nat} (pc : s.reader = .switch n)
      (status : retOf s.mem s.call.rp = .databreak) (none : s.call.out.length = 0) :
      ReaderMove copy s { s with call := { s.call with ret := .databreak }, reader := .copy n }
  | ends {n : Nat} (pc : s.reader = .switch n) (noSuccess : retOf s.mem s.call.rp ≠ .success)
      (noBreak : retOf s.mem s.call.rp ≠ .databreak) :
      ReaderMove copy s { s with reader := .copyLast n }
  | copy {n : Nat} (pc : s.reader = .copy n) :
      ReaderMove copy s
        { s with
          call :=
            { s.call with
              out := s.call.out ++ (s.mem.data s.call.rp).take n
              remaining := s.call.remaining - n }
          reader := .testAll n }
  | usesUp {n : Nat} (pc : s.reader = .testAll n) (all : s.mem.bytes s.call.rp = n * sampleBytes) :
      ReaderMove copy s { s with reader := .clear }
  | leaves {n : Nat} (pc : s.reader = .testAll n)
      (partly : s.mem.bytes s.call.rp ≠ n * sampleBytes) :
      ReaderMove copy s { s with reader := .shrink n }
  | clear (pc : s.reader = .clear) :
      ReaderMove copy s { s with mem := s.mem.modify s.call.rp (setBytes 0), reader := .follow }
  | follow (pc : s.reader = .follow) :
      ReaderMove copy s
        { s with call := { s.call with rp := s.mem.next s.call.rp }, reader := .wait }
  | shrink {n : Nat} (pc : s.reader = .shrink n) :
      ReaderMove copy s
        { s with
          mem := s.mem.modify s.call.rp fun b => { b with bytes := b.bytes - n * sampleBytes }
          reader := .shift n }
  | shift {n : Nat} (pc : s.reader = .shift n) :
      ReaderMove copy s
        { s with mem := s.mem.modify s.call.rp (shiftSamples copy n), reader := .wait }
  | copyLast {n : Nat} (pc : s.reader = .copyLast n) :
      ReaderMove copy s
        { s with
          call := { s.call with out := s.call.out ++ (s.mem.data s.call.rp).take n }
          reader := .dropBytes }
  | dropBytes (pc : s.reader = .dropBytes) :
      ReaderMove copy s
        { s with mem := s.mem.modify s.call.rp (setBytes 0), reader := .dropFollow }
  | dropFollow (pc : s.reader = .dropFollow) :
      ReaderMove copy s
        { s with call := { s.call with rp := s.mem.next s.call.rp }, reader := .dropRet }
  | dropRet (pc : s.reader = .dropRet) :
      ReaderMove copy s
        { s with call := { s.call with ret := retOf s.mem s.call.rp }, reader := .storeRp }
  | storeRp (pc : s.reader = .storeRp) :
      ReaderMove copy s { s with rp := s.call.rp, reader := .stopFill }
  | stopFill (pc : s.reader = .stopFill) :
      ReaderMove copy s { s with doFill := false, reader := .join }
  | join (pc : s.reader = .join) {rval : IoStatus} (exited : s.fill = .exited rval) :
      ReaderMove copy s
        { s with
          fill := .absent
          reader := .idle
          reports := s.reports ++
            [(if rval.isError then rval else s.call.ret,
              if (if rval.isError then rval else s.call.ret).isError then [] else s.call.out)] }

/-- **A step of a call** is one of these. -/
theorem readerMove_of_step (step : readerStep copy s = some t) : ReaderMove copy s t := by
  unfold readerStep at step
  cases pc : s.reader with
  | idle => simp [pc] at step
  | wait =>
      simp only [pc] at step
      split at step
      · next enough =>
          cases step
          exact .served pc enough
      · next needs =>
          split at step
          · next empty =>
              cases step
              exact .waits pc needs empty
          · next filled =>
              cases step
              exact .finds pc needs filled
  | testRet =>
      simp only [pc] at step
      split at step
      · next error =>
          cases step
          exact .fails pc error
      · next sound =>
          cases step
          exact .passes pc (by simpa using sound)
  | loadBytes =>
      rw [pc] at step
      cases step
      rw [← Nat.min_def]
      exact .loadBytes pc
  | switch n =>
      simp only [pc] at step
      split at step
      · next status =>
          cases step
          exact .success pc status
      · next status =>
          split at step
          · next some =>
              cases step
              exact .breaks pc status some
          · next none =>
              cases step
              exact .tolerates pc status (Nat.eq_zero_of_not_pos none)
      · next noSuccess noBreak =>
          cases step
          exact .ends pc noSuccess noBreak
  | testAll n =>
      simp only [pc] at step
      split at step
      · next all =>
          cases step
          exact .usesUp pc all
      · next partly =>
          cases step
          exact .leaves pc partly
  | join =>
      simp only [pc] at step
      split at step
      · next rval exited =>
          cases step
          exact .join pc exited
      · cases step
  | _ =>
      rw [pc] at step
      cases step
      constructor
      exact pc

end Moves

end Bingewatch.Sdr
