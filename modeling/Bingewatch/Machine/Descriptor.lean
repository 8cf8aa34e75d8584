import Mathlib.Data.List.Basic

/-!
# Machine descriptors

Every machine of the library is reached through a descriptor with a read side and a write side
(`IO_DESC`, `struct io_desc`). A side has a state, and `machine_desc_read` and
`machine_desc_write` look at that state before they call the machine's own filter: a side that is
being disabled, or is disabled, swallows the call and reports success with no bytes.
-/

set_option autoImplicit false

namespace Bingewatch.Machine

/-- `enum io_status`. Every negative return value is the generic error; `impl n` is the custom
status `IO_IMPL + n`. -/
inductive IoStatus where
  | error
  | success
  | complete
  | nodata
  | databreak
  | cont
  | brk
  | impl (n : Nat)
  deriving DecidableEq, Repr

/-- The test `status < IO_SUCCESS`. -/
def IoStatus.isError : IoStatus → Bool
  | .error => true
  | _ => false

/-- `enum io_desc_state_e`. -/
inductive IoDescState where
  | enabled
  | disabling
  | disabled
  | stopped
  | error
  deriving DecidableEq, Repr

/-- What `machine_desc_read` and `machine_desc_write` share. `side` is the descriptor of the
direction, absent when the machine has none; `zero` is a report of no bytes and `unchanged` the
report of a call that never touched its byte count. A filter call that does not return is
`none`. -/
def machineDescIo {σ ρ : Type} (side : σ → Option IoDescState) (setSide : σ → IoDescState → σ)
    (zero unchanged : ρ) (call : σ → Option (σ × IoStatus × ρ)) (s : σ) :
    Option (σ × IoStatus × ρ) :=
  match side s with
  | none => some (s, .error, unchanged)
  | some .disabling => some (setSide s .disabled, .success, zero)
  | some .disabled => some (s, .success, zero)
  | some .stopped => some (s, .complete, zero)
  | some .enabled => call s
  | some .error => call s

/-- A call comes to the filters exactly when the side is enabled or in error. Otherwise it reports
no bytes, or fails for want of a side, and changes nothing but the state of the side. -/
theorem machineDescIo_cases {σ ρ : Type} {side : σ → Option IoDescState}
    {setSide : σ → IoDescState → σ} {zero unchanged : ρ}
    {call : σ → Option (σ × IoStatus × ρ)} {s s' : σ} {status : IoStatus} {report : ρ}
    (answered : machineDescIo side setSide zero unchanged call s = some (s', status, report)) :
    ((side s = some .enabled ∨ side s = some .error) ∧ call s = some (s', status, report)) ∨
      (¬ (side s = some .enabled ∨ side s = some .error) ∧
        (s' = s ∨ ∃ state, s' = setSide s state) ∧
        (status = .error ∧ report = unchanged ∨ status.isError = false ∧ report = zero)) := by
  unfold machineDescIo at answered
  split at answered
  · next absent =>
      cases answered
      exact .inr ⟨by simp [absent], .inl rfl, .inl ⟨rfl, rfl⟩⟩
  · next disabling =>
      cases answered
      exact .inr ⟨by simp [disabling], .inr ⟨_, rfl⟩, .inr ⟨rfl, rfl⟩⟩
  · next disabled =>
      cases answered
      exact .inr ⟨by simp [disabled], .inl rfl, .inr ⟨rfl, rfl⟩⟩
  · next stopped =>
      cases answered
      exact .inr ⟨by simp [stopped], .inl rfl, .inr ⟨rfl, rfl⟩⟩
  · next enabled => exact .inl ⟨.inl enabled, answered⟩
  · next failed => exact .inl ⟨.inr failed, answered⟩

end Bingewatch.Machine
