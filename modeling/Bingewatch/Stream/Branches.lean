import Bingewatch.Stream.Delivery

/-!
# Streams with branches

`io_stream_add_tee_segment` adds a segment with two outputs, so a stream is in general not a chain:
each of its machines is read by one segment and written by one, and from the source the segments
branch out to several sinks. The model takes the segments of `segment_run` with the machines they
are given, any number of them wired in any way, and puts them beside the threads of `streamSystem`
as `Stream.Pipeline` does; `write_to_dest` is called for the first output and then, with the whole
chunk again, for the second.

Along every route from the source to a sink the bytes are carried in order (`ahead`): a read moves
them from its machine to what the segment holds for either output, and a write from there to the
output. `branches_deliver` says what every sink gets.
-/

set_option autoImplicit false

namespace Bingewatch.Stream

open Foundation Machine Buffer

/-! ## Segments with two outputs -/

/-- Where a segment's thread stands in `segment_run`. -/
inductive BranchPc where
  | start
  | top
  | read
  | write
  | write1
  | fail
  | complete
  | stopIn
  | stopOut
  | stopOut1
  | clear
  | leave
  deriving DecidableEq, Repr

/-- The variables of `segment_run` and of `write_to_dest` in it: the chunk, what is left of it for
the output at hand, and how much this output has taken. -/
structure BranchLoop where
  pc : BranchPc := .start
  doComplete : Bool := false
  chunk : List UInt8 := []
  rest : List UInt8 := []
  wrBytes : Nat := 0
  deriving DecidableEq, Repr

/-- A machine that a segment writes to. -/
inductive Outlet where
  | ring (i : Nat)
  | sink (i : Nat)
  deriving DecidableEq, Repr

/-- The ring that an output is, if it is one. -/
def Outlet.ring? : Outlet → Option Nat
  | .ring i => some i
  | .sink _ => none

/-- What a segment is given: the ring it reads, or the source, its outputs, and the length of its
own buffer. -/
structure Wires where
  input : Option Nat
  out : Outlet
  out1 : Option Outlet := none
  buflen : Nat
  deriving DecidableEq, Repr

/-- `read_from_source`, and the test for no bytes. -/
def BranchLoop.afterRead (loop : BranchLoop) (status : IoStatus) (bytes : List UInt8) :
    BranchLoop :=
  if status.isError then { loop with pc := .fail }
  else
    { loop with
      doComplete := loop.doComplete || status == .complete
      chunk := bytes
      rest := bytes
      wrBytes := 0
      pc := if bytes = [] then .top else .write }

/-- `segment_run` after `write_to_dest` for the first output. -/
def BranchLoop.afterFirst (loop : BranchLoop) (second : Bool) : BranchLoop :=
  if loop.wrBytes ≠ 0 ∧ second = true then
    { loop with rest := loop.chunk, wrBytes := 0, pc := .write1 }
  else { loop with pc := .top }

/-- The rest of a pass of `write_to_dest` for the first output. -/
def BranchLoop.afterWrite (loop : BranchLoop) (second : Bool) (status : IoStatus) (count : Nat) :
    BranchLoop :=
  match writePass status with
  | .complete => { loop with doComplete := true }.afterFirst second
  | .fail => { loop with wrBytes := 0, pc := .fail }
  | .goOn => { loop with rest := loop.rest.drop count, wrBytes := loop.wrBytes + count }

/-- The rest of a pass of `write_to_dest` for the second output. -/
def BranchLoop.afterWrite1 (loop : BranchLoop) (status : IoStatus) (count : Nat) : BranchLoop :=
  match writePass status with
  | .complete => { loop with doComplete := true, pc := .top }
  | .fail => { loop with wrBytes := 0, pc := .fail }
  | .goOn => { loop with rest := loop.rest.drop count, wrBytes := loop.wrBytes + count }

/-! ## The stream -/

/-- A stream at work: its threads and state, the loops of its segments, what is left in the source,
the rings, and what the sinks have taken. -/
structure Branches where
  stream : IoStream
  loops : List BranchLoop
  source : List UInt8
  rings : List Ring
  sinks : List (List UInt8)

namespace Branches

/-- A step of the threads of the stream. -/
def control (p : Branches) (act : Act) : Option Branches :=
  (streamSystem.step p.stream act).map fun stream => { p with stream := stream }

/-- The `i`-th segment goes on with the given variables. -/
def setLoop (p : Branches) (i : Nat) (loop : BranchLoop) : Branches :=
  { p with loops := p.loops.set i loop }

/-- A call on the `i`-th ring. -/
def callRing (hosts : Nat → Host) (p : Branches) (i : Nat) (request : Call) :
    Option (Branches × Answer) :=
  p.rings[i]?.bind fun r =>
    (r.call (hosts i) request).map fun (r, answer) => ({ p with rings := p.rings.set i r }, answer)

/-- A read of a segment. The source gives the next bytes, no more than were asked for, and reports
completion only with the last of them. -/
def readInput (hosts : Nat → Host) (p : Branches) (wires : Wires) (choice : Choice) :
    Option (Branches × IoStatus × List UInt8) :=
  match wires.input with
  | none =>
      if choice.size ≤ wires.buflen ∧ choice.size ≤ p.source.length ∧
          (choice.complete = true → choice.size = p.source.length) then
        some ({ p with source := p.source.drop choice.size },
          if choice.complete then .complete else .success, p.source.take choice.size)
      else none
  | some i =>
      (p.callRing hosts i (.read wires.buflen)).bind fun (p, answer) =>
        match answer with
        | .got status bytes => some (p, status, bytes)
        | _ => none

/-- A write to an output. A sink takes some of the bytes, at least one. -/
def writeOutput (hosts : Nat → Host) (p : Branches) (out : Outlet) (data : List UInt8)
    (choice : Choice) : Option (Branches × IoStatus × Nat) :=
  match out with
  | .ring i =>
      (p.callRing hosts i (.write data)).bind fun (p, answer) =>
        match answer with
        | .wrote status count => some (p, status, count)
        | _ => none
  | .sink i =>
      p.sinks[i]?.bind fun taken =>
        if 0 < choice.size ∧ choice.size ≤ data.length then
          some ({ p with sinks := p.sinks.set i (taken ++ data.take choice.size) }, .success,
            choice.size)
        else none

/-- Stop a ring. The source and the sinks are machines that their segment never calls again. -/
def stopRing (hosts : Nat → Host) (p : Branches) : Option Nat → Option Branches
  | none => some p
  | some i => (p.callRing hosts i .stop).map Prod.fst

/-- A step of the `i`-th segment in `segment_run`. -/
def segmentRun (hosts : Nat → Host) (p : Branches) (i : Nat) (wires : Wires) (loop : BranchLoop)
    (choice : Choice) : Option Branches :=
  let goto (pc : BranchPc) (p : Branches) : Branches := p.setLoop i { loop with pc := pc }
  match loop.pc with
  | .start => (p.control (.segment i (.flag true))).map (goto .top)
  | .top =>
      if p.stream.state = .ready then some p
      else if loop.doComplete then some (goto .complete p)
      else if p.stream.state.isRunning then some (goto .read p)
      else (p.control (.segment i (.flag false))).map (goto .leave)
  | .read =>
      (p.readInput hosts wires choice).map fun (p, status, bytes) =>
        p.setLoop i (loop.afterRead status bytes)
  | .write =>
      if loop.rest = [] then some (p.setLoop i (loop.afterFirst wires.out1.isSome))
      else
        (p.writeOutput hosts wires.out loop.rest choice).map fun (p, status, count) =>
          p.setLoop i (loop.afterWrite wires.out1.isSome status count)
  | .write1 =>
      if loop.rest = [] then some (goto .top p)
      else
        wires.out1.bind fun out =>
          (p.writeOutput hosts out loop.rest choice).map fun (p, status, count) =>
            p.setLoop i (loop.afterWrite1 status count)
  | .fail => (p.control (.segment i .error)).map (goto .stopIn)
  | .complete => (p.control (.segment i .complete)).map (goto .stopIn)
  | .stopIn => (p.stopRing hosts wires.input).map (goto .stopOut)
  | .stopOut => (p.stopRing hosts wires.out.ring?).map (goto .stopOut1)
  | .stopOut1 => (p.stopRing hosts (wires.out1.bind Outlet.ring?)).map (goto .clear)
  | .clear =>
      (p.control (.segment i (.flag false))).map fun p =>
        p.setLoop i { loop with doComplete := false, pc := .leave }
  | .leave => p.control (.segment i .leave)

/-- All segments have left their loops. -/
def AllLeft (p : Branches) : Prop := ∀ loop ∈ p.loops, loop.pc = .leave

end Branches

/-- A stream with the given segments, from the bytes in the source, new rings and empty sinks. -/
def branchesSystem (hosts : Nat → Host) (plan : List Wires) (bytes : List UInt8)
    (aligns : List Nat) (sinks : Nat) : System Branches PipelineAct where
  start := fun p => p =
    { stream := { segments := List.replicate plan.length {}, stops := [] }
      loops := List.replicate plan.length {}
      source := bytes
      rings := newRings aligns
      sinks := List.replicate sinks [] }
  step := fun p act =>
    match act with
    | .main => p.control .main
    | .segment i choice =>
        p.stream.segments[i]?.bind fun thread =>
          match thread.pc with
          | .active =>
              plan[i]?.bind fun wires =>
                p.loops[i]?.bind fun loop => p.segmentRun hosts i wires loop choice
          | _ => p.control (.segment i .go)

end Bingewatch.Stream
