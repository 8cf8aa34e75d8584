import Bingewatch.Filter.ReadFilters

/-!
# Calls of filter functions

A filter function gets the caller's buffer and a pointer to its byte count. It may store into the
buffer and change the count, and hand either or both on to the next filter. `NextCall` is the call
of the next filter as a filter function meets it: the state `σ` is everything behind, and a call
that does not return, or that accesses memory outside of its areas, is `none`.

The functions of `src/filter/filters.c` only look at the count; they are used as
`Filter.ReadFilters` has them, with the buffer in the state of the next filter.
-/

set_option autoImplicit false

namespace Bingewatch.Filter

open Machine

variable {σ : Type}

/-- `IO_FILTER_ARGS` without the filter. The buffer is the memory from the pointer on. -/
structure FilterArgs where
  buf : List UInt8
  bytes : Nat
  block : Bool := false
  align : Nat := 1
  deriving DecidableEq, Repr

/-- What a filter function leaves: its status, the buffer and the byte count. -/
structure FilterAnswer where
  status : IoStatus
  buf : List UInt8
  bytes : Nat
  deriving DecidableEq, Repr

/-- A call of a filter. -/
abbrev NextCall (σ : Type) : Type := σ → FilterArgs → Option (σ × FilterAnswer)

/-- A filter that keeps a log of its calls. -/
def logged (next : NextCall σ) : NextCall (σ × List FilterArgs) := fun (s, log) a =>
  (next s a).map fun (s, answer) => ((s, log ++ [a]), answer)

/-- `IOF_DISABLED`: a filter that is not enabled calls the next one and leaves its object alone. -/
def iofDisabled {β : Type} (enabled : Bool) (obj : β) (next : NextCall σ)
    (body : NextCall σ → σ → FilterArgs → Option (β × σ × FilterAnswer)) (s : σ) (a : FilterArgs) :
    Option (β × σ × FilterAnswer) :=
  if enabled = false then (next s a).map fun (s, answer) => (obj, s, answer) else body next s a

/-- An area of `n` elements with the old ones in front, as `repalloc` leaves it. -/
def repalloc {α : Type} [Inhabited α] (area : List α) (n : Nat) : List α :=
  area.take n ++ List.replicate (n - area.length) default

theorem length_repalloc {α : Type} [Inhabited α] (area : List α) (n : Nat) :
    (repalloc area n).length = n := by
  rw [repalloc, List.length_append, List.length_take, List.length_replicate]
  omega

/-! ## The filters that look at the count only -/

/-- The next filter as the functions of `Filter.ReadFilters` call it. -/
def countCall (next : NextCall σ) (s : σ) (a : FilterArgs) (bytes : Nat) :
    Option ((σ × List UInt8) × Report) :=
  (next s { a with bytes := bytes }).map fun (s, answer) =>
    ((s, answer.buf), { status := answer.status, bytes := answer.bytes, stored := [] })

/-- The answer with the buffer. -/
def Report.answer (report : Report) (buf : List UInt8) : FilterAnswer where
  status := report.status
  buf := buf
  bytes := report.bytes

/-- `byte_count_limiter`, when it is enabled. -/
def byteCountLimiterCall (direction : Direction) (l : ByteLimit) (next : NextCall σ) (s : σ)
    (a : FilterArgs) : Option (ByteLimit × σ × FilterAnswer) :=
  (byteCountLimiter direction l (countCall next s a) (s, a.buf) a.bytes).map
    fun (l, (s, buf), report) => (l, s, report.answer buf)

/-- `time_limiter`, when it is enabled. -/
def timeLimiterCall (state : TimeLimit) (next : NextCall σ) (s : σ) (a : FilterArgs) :
    Option (TimeLimit × σ × FilterAnswer) :=
  (timeLimiter state (countCall next s a) (s, a.buf) a.bytes).map
    fun (state, (s, buf), report) => (state, s, report.answer buf)

/-- `byte_counter`, when it is enabled. -/
def byteCounterCall (counter : Option ByteCount) (next : NextCall σ) (s : σ) (a : FilterArgs) :
    Option (Option ByteCount × σ × FilterAnswer) :=
  (byteCounter counter (countCall next s a) a.bytes).map
    fun (counter, (s, buf), report) => (counter, s, report.answer buf)

end Bingewatch.Filter
