import Bingewatch.Foundation.Transition
import Bingewatch.Machine.Descriptor

/-!
# The lifetime of a descriptor

`machine_desc_read` and `machine_desc_write` look a descriptor up in the list of descriptors, test
the state of its side, and only then count themselves in its `in_use` field
(`machine_desc_acquire`); `machine_destroy_desc` takes the descriptor off the list, waits until
`in_use` is zero, and frees it (`src/machine.c`). The count is a `char`.

Two things can go wrong at the test of `in_use`: a call may have found the descriptor and not be
counted yet, and the count may have wrapped. `freed_unused` says that nothing else can: along every
run in which the test passes only when no call is between its look-up and its count and fewer than
256 calls are counted, no call uses the descriptor after it was freed; and from a test that passes
otherwise a run leads to such a use.
-/

set_option autoImplicit false

namespace Bingewatch.Machine

open Foundation

/-! ## The threads -/

/-- Where a call of `machine_desc_read` or `machine_desc_write` stands: about to look the descriptor
up, to test the state of its side, to mark a side being disabled as disabled, to count itself, to
call the filter, to update the metrics, to uncount itself. -/
inductive CallPc where
  | lookup
  | test
  | disable
  | acquire
  | filter
  | metrics
  | release
  | returned
  deriving DecidableEq, Repr

/-- The call has found the descriptor and is not counted. -/
def CallPc.uncounted : CallPc → Bool
  | .test => true
  | .disable => true
  | .acquire => true
  | _ => false

/-- The call is counted in `in_use`. -/
def CallPc.counted : CallPc → Bool
  | .filter => true
  | .metrics => true
  | .release => true
  | _ => false

/-- Where `machine_destroy_desc` stands. -/
inductive DestroyPc where
  | unlink
  | wait
  | free
  | returned
  deriving DecidableEq, Repr

/-- A descriptor with the calls on its handle and the thread that destroys it. -/
structure Lifetime where
  linked : Bool := true
  freed : Bool := false
  inUse : Nat := 0
  destroyer : DestroyPc := .unlink
  calls : List CallPc
  deriving DecidableEq, Repr

/-- A step of the `i`-th call, with the side it finds if it tests one, or a step of the
destroyer. -/
inductive LifetimeAct where
  | call (i : Nat) (side : Option IoDescState)
  | destroy
  deriving DecidableEq, Repr

/-- The state test: a side that is absent, disabled or stopped ends the call. -/
def afterTest : Option IoDescState → CallPc
  | none => .returned
  | some .disabling => .disable
  | some .disabled => .returned
  | some .stopped => .returned
  | some .enabled => .acquire
  | some .error => .acquire

/-- A step of the `i`-th call. The count is a `char`, so it wraps at 256. -/
def callStep (s : Lifetime) (i : Nat) (pc : CallPc) (side : Option IoDescState) :
    Option Lifetime :=
  let goto (pc : CallPc) (s : Lifetime) : Lifetime := { s with calls := s.calls.set i pc }
  match pc with
  | .lookup => some (goto (if s.linked then .test else .returned) s)
  | .test => some (goto (afterTest side) s)
  | .disable => some (goto .returned s)
  | .acquire => some (goto .filter { s with inUse := (s.inUse + 1) % 256 })
  | .filter => some (goto .metrics s)
  | .metrics => some (goto .release s)
  | .release => some (goto .returned { s with inUse := (s.inUse + 255) % 256 })
  | .returned => none

/-- A step of `machine_destroy_desc`. -/
def destroyStep (s : Lifetime) : Option Lifetime :=
  match s.destroyer with
  | .unlink => some { s with linked := false, destroyer := .wait }
  | .wait => if s.inUse = 0 then some { s with destroyer := .free } else some s
  | .free => some { s with freed := true, destroyer := .returned }
  | .returned => none

/-- A descriptor in the list, any number of calls, and one destroyer. -/
def lifetimeSystem : System Lifetime LifetimeAct where
  start := fun s => ∃ calls, s = { calls := List.replicate calls .lookup }
  step := fun s act =>
    match act with
    | .call i side => s.calls[i]?.bind fun pc => callStep s i pc side
    | .destroy => destroyStep s

/-! ## Use after free -/

/-- The step of a call reads or writes the descriptor: a look-up when it finds the descriptor in
the list, and every later step. -/
def Uses (s : Lifetime) : LifetimeAct → Prop
  | .call i _ => ∃ pc, s.calls[i]? = some pc ∧
      (pc = .lookup ∧ s.linked = true ∨ pc.uncounted = true ∨ pc.counted = true)
  | .destroy => False

/-- The destroyer's test of `in_use` passes only when every call that found the descriptor is
counted and fewer than 256 calls are. -/
def Settled (s : Lifetime) : LifetimeAct → Prop
  | .call _ _ => True
  | .destroy => s.destroyer = .wait → s.inUse = 0 →
      (∀ pc ∈ s.calls, pc.uncounted = false) ∧ s.calls.countP CallPc.counted < 256

/-- The count, the list and the flags agree with where the threads stand; once the test has passed,
no call holds the descriptor. -/
structure Lifetime.Inv (s : Lifetime) : Prop where
  count : s.inUse = s.calls.countP CallPc.counted % 256
  linked : s.linked = true ↔ s.destroyer = .unlink
  freed : s.freed = true ↔ s.destroyer = .returned
  gone : s.destroyer = .free ∨ s.destroyer = .returned →
    ∀ pc ∈ s.calls, pc.uncounted = false ∧ pc.counted = false

theorem lifetime_start (s : Lifetime) (start : lifetimeSystem.start s) : s.Inv := by
  obtain ⟨n, rfl⟩ := start
  refine ⟨?_, by simp, by simp, by simp⟩
  have none : (List.replicate n CallPc.lookup).countP CallPc.counted = 0 := by
    simp [CallPc.counted]
  rw [none]

/-- The number of counted calls after one of them moved. -/
theorem countP_set_call {calls : List CallPc} {i : Nat} {pc : CallPc} (new : CallPc)
    (here : calls[i]? = some pc) :
    (calls.set i new).countP CallPc.counted + pc.counted.toNat =
      calls.countP CallPc.counted + new.counted.toNat := by
  obtain ⟨within, rfl⟩ := List.getElem?_eq_some_iff.mp here
  rw [List.countP_set within]
  have positive : calls[i].counted = true → 0 < calls.countP CallPc.counted := fun counted =>
    List.countP_pos_iff.mpr ⟨calls[i], List.getElem_mem within, counted⟩
  cases old : calls[i].counted <;> cases new.counted <;> simp_all

theorem lifetime_call {s t : Lifetime} {i : Nat} {pc : CallPc} {side : Option IoDescState}
    (inv : s.Inv) (here : s.calls[i]? = some pc) (step : callStep s i pc side = some t) :
    t.Inv := by
  obtain ⟨count, linked, freed, gone⟩ := inv
  -- A call that holds the descriptor moves only before the destroyer's test has passed.
  have move : ∀ (new : CallPc) (inUse : Nat),
      inUse = (s.calls.set i new).countP CallPc.counted % 256 →
      (s.destroyer = .free ∨ s.destroyer = .returned →
        new.uncounted = false ∧ new.counted = false) →
      Lifetime.Inv { s with inUse := inUse, calls := s.calls.set i new } := by
    intro new inUse counts leaves
    refine ⟨counts, linked, freed, fun passed other member => ?_⟩
    rcases List.mem_or_eq_of_mem_set member with old | rfl
    · exact gone passed other old
    · exact leaves passed
  have holds : pc.uncounted = true ∨ pc.counted = true →
      ¬ (s.destroyer = .free ∨ s.destroyer = .returned) := by
    intro holder passed
    obtain ⟨notUncounted, notCounted⟩ := gone passed pc (List.mem_of_getElem? here)
    rcases holder with holder | holder
    · cases notUncounted.symm.trans holder
    · cases notCounted.symm.trans holder
  have counts := fun new => countP_set_call new here
  have steady : ∀ new : CallPc, new.counted = pc.counted →
      s.inUse = (s.calls.set i new).countP CallPc.counted % 256 := by
    intro new same
    have total := counts new
    rw [same] at total
    rw [count, Nat.add_right_cancel total]
  cases pc with
  | lookup =>
      simp only [callStep, Option.some.injEq] at step
      subst step
      refine move _ _ (steady _ (by split <;> rfl)) fun passed => ?_
      have notLinked : s.linked = false := by
        rcases passed with passed | passed <;> simp_all
      simp [notLinked, CallPc.uncounted, CallPc.counted]
  | test =>
      have uncounted : (afterTest side).counted = false := by
        cases side with
        | none => rfl
        | some side => cases side <;> rfl
      simp only [callStep, Option.some.injEq] at step
      subst step
      exact move _ _ (steady _ uncounted) fun passed => absurd passed (holds (Or.inl rfl))
  | disable =>
      simp only [callStep, Option.some.injEq] at step
      subst step
      exact move _ _ (steady _ rfl) fun _ => ⟨rfl, rfl⟩
  | acquire =>
      simp only [callStep, Option.some.injEq] at step
      subst step
      refine move _ _ ?_ fun passed => absurd passed (holds (Or.inl rfl))
      have more := counts .filter
      simp only [CallPc.counted, Bool.toNat_false, Bool.toNat_true] at more
      omega
  | filter =>
      simp only [callStep, Option.some.injEq] at step
      subst step
      exact move _ _ (steady _ rfl) fun passed => absurd passed (holds (Or.inr rfl))
  | metrics =>
      simp only [callStep, Option.some.injEq] at step
      subst step
      exact move _ _ (steady _ rfl) fun passed => absurd passed (holds (Or.inr rfl))
  | release =>
      simp only [callStep, Option.some.injEq] at step
      subst step
      refine move _ _ ?_ fun _ => ⟨rfl, rfl⟩
      have fewer := counts .returned
      simp only [CallPc.counted, Bool.toNat_false, Bool.toNat_true] at fewer
      omega
  | returned => simp [callStep] at step

theorem lifetime_destroy {s t : Lifetime} (inv : s.Inv) (settled : Settled s .destroy)
    (step : destroyStep s = some t) : t.Inv := by
  obtain ⟨count, linked, freed, gone⟩ := inv
  unfold destroyStep at step
  cases pc : s.destroyer with
  | unlink =>
      simp only [pc, Option.some.injEq] at step
      subst step
      exact ⟨count, by simp, by simp [freed, pc], by simp⟩
  | wait =>
      simp only [pc] at step
      split at step
      · next zero =>
          -- Fewer than 256 calls are counted and the count is zero, so none is.
          obtain ⟨allCounted, bound⟩ := settled pc zero
          have none : s.calls.countP CallPc.counted = 0 := by
            rw [zero] at count
            omega
          cases step
          refine ⟨count, by simp [linked, pc], by simp [freed, pc], fun _ call member => ?_⟩
          refine ⟨allCounted call member, ?_⟩
          simpa using List.countP_eq_zero.mp none call member
      · cases step
        exact ⟨count, linked, freed, gone⟩
  | free =>
      simp only [pc, Option.some.injEq] at step
      subst step
      exact ⟨count, by simp [linked, pc], by simp, fun _ => gone (Or.inl pc)⟩
  | returned => simp [pc] at step

theorem lifetime_reach {s : Lifetime} (reached : lifetimeSystem.ReachUnder Settled s) : s.Inv := by
  apply reached.invariant lifetime_start
  intro s act t inv settled step
  cases act with
  | call i side =>
      obtain ⟨pc, here, step⟩ := Option.bind_eq_some_iff.mp step
      exact lifetime_call inv here step
  | destroy => exact lifetime_destroy inv settled step

/-- A call that holds the descriptor has a next step. -/
theorem callStep_isSome {s : Lifetime} {i : Nat} {pc : CallPc} {side : Option IoDescState}
    (holds : pc.uncounted = true ∨ pc.counted = true) : (callStep s i pc side).isSome := by
  cases pc with
  | lookup | returned => simp [CallPc.uncounted, CallPc.counted] at holds
  | test | disable | acquire | filter | metrics | release => rfl

/-- After a test that passes with a call holding the descriptor, the descriptor can be freed before
the call's next step. -/
theorem unsettled_use {s t : Lifetime} (unsettled : ¬ Settled s .destroy)
    (step : lifetimeSystem.step s .destroy = some t) :
    ∃ (u : Lifetime) (act : LifetimeAct), lifetimeSystem.exec t [.destroy] = some u ∧
      u.freed = true ∧ (lifetimeSystem.step u act).isSome ∧ Uses u act := by
  simp only [Settled, not_forall] at unsettled
  obtain ⟨pc, zero, uncounted⟩ := unsettled
  obtain ⟨call, member, holds⟩ : ∃ call ∈ s.calls, call.uncounted = true ∨ call.counted = true := by
    by_cases allCounted : ∀ call ∈ s.calls, call.uncounted = false
    · have many : 0 < s.calls.countP CallPc.counted := by
        have wrapped : ¬ s.calls.countP CallPc.counted < 256 := fun bound =>
          uncounted ⟨allCounted, bound⟩
        omega
      obtain ⟨call, member, counted⟩ := List.countP_pos_iff.mp many
      exact ⟨call, member, Or.inr counted⟩
    · simp only [not_forall] at allCounted
      obtain ⟨call, member, uncounted⟩ := allCounted
      exact ⟨call, member, Or.inl (by simpa using uncounted)⟩
  obtain ⟨i, here⟩ := List.mem_iff_getElem?.mp member
  have stepEq : lifetimeSystem.step s .destroy = some { s with destroyer := .free } := by
    simp [lifetimeSystem, destroyStep, pc, zero]
  cases stepEq.symm.trans step
  refine ⟨{ s with freed := true, destroyer := .returned }, .call i none, rfl, rfl, ?_, ?_⟩
  · simp only [lifetimeSystem, here, Option.bind_some]
    exact callStep_isSome holds
  · exact ⟨call, here, Or.inr holds⟩

/-- **A descriptor is not used after it is freed exactly when `in_use` tells the truth.** Along
every run in which the destroyer's test passes only when it does, no step of a call uses the freed
descriptor; a test that passes when it does not can be continued to such a step. -/
theorem freed_unused (s t : Lifetime) (act : LifetimeAct)
    (reached : lifetimeSystem.ReachUnder Settled s) (step : lifetimeSystem.step s act = some t) :
    (s.freed = true → ¬ Uses s act) ∧
      (¬ Settled s act → ∃ (u : Lifetime) (next : LifetimeAct),
        lifetimeSystem.exec t [.destroy] = some u ∧ u.freed = true ∧
          (lifetimeSystem.step u next).isSome ∧ Uses u next) := by
  have inv := lifetime_reach reached
  refine ⟨fun freed uses => ?_, fun unsettled => ?_⟩
  · cases act with
    | destroy => exact uses
    | call i side =>
        obtain ⟨pc, here, use⟩ := uses
        have returned := inv.freed.mp freed
        obtain ⟨notUncounted, notCounted⟩ := inv.gone (Or.inr returned) pc
          (List.mem_of_getElem? here)
        have notLinked : s.linked ≠ true := fun linked => by
          cases returned.symm.trans (inv.linked.mp linked)
        rcases use with ⟨_, linked⟩ | uncounted | counted
        · exact notLinked linked
        · cases notUncounted.symm.trans uncounted
        · cases notCounted.symm.trans counted
  · cases act with
    | call i side => exact absurd trivial unsettled
    | destroy => exact unsettled_use unsettled step

/-- A descriptor with one call. -/
def oneCall : Lifetime := { calls := [.lookup] }

instance : (s : Lifetime) → (act : LifetimeAct) → Decidable (Settled s act)
  | _, .call _ _ => inferInstanceAs (Decidable True)
  | s, .destroy => inferInstanceAs (Decidable (s.destroyer = .wait → s.inUse = 0 →
      (∀ pc ∈ s.calls, pc.uncounted = false) ∧ s.calls.countP CallPc.counted < 256))

/-- A call that runs its filter while the destroyer waits for it, and returns before the descriptor
is freed; a second call then looks the handle up and finds nothing. -/
theorem freed_unused_call : ∃ s t,
    lifetimeSystem.execUnder Settled { calls := [.lookup, .lookup] }
      [.call 0 none, .call 0 (some .enabled), .call 0 none, .destroy, .destroy, .call 0 none,
        .call 0 none, .call 0 none, .destroy, .destroy] = some s ∧
      s.freed = true ∧ s.calls = [.returned, .lookup] ∧
      lifetimeSystem.step s (.call 1 none) = some t ∧ t.calls = [.returned, .returned] ∧
      ¬ Uses s (.call 1 none) := by
  let s : Lifetime :=
    { linked := false
      freed := true
      destroyer := .returned
      calls := [.returned, .lookup] }
  have run : lifetimeSystem.execUnder Settled { calls := [.lookup, .lookup] }
      [.call 0 none, .call 0 (some .enabled), .call 0 none, .destroy, .destroy, .call 0 none,
        .call 0 none, .call 0 none, .destroy, .destroy] = some s := by decide
  have reached : lifetimeSystem.ReachUnder Settled s := .execUnder (.start ⟨2, rfl⟩) run
  exact ⟨s, { s with calls := [.returned, .returned] }, run, rfl, rfl, rfl, rfl,
    (freed_unused s _ (.call 1 none) reached rfl).1 rfl⟩

/-- A call that has found the descriptor tests its state after the descriptor was freed. -/
theorem looked_up_then_freed :
    ¬ ∀ (s t : Lifetime) (act : LifetimeAct), lifetimeSystem.Reach s →
      lifetimeSystem.step s act = some t → s.freed = true → ¬ Uses s act := by
  intro always
  let s : Lifetime :=
    { linked := false
      freed := true
      destroyer := .returned
      calls := [.test] }
  have run : lifetimeSystem.exec oneCall [.call 0 none, .destroy, .destroy, .destroy] = some s :=
    rfl
  have reached : lifetimeSystem.Reach s := .exec (.start ⟨1, rfl⟩) run
  exact always s _ (.call 0 none) reached rfl rfl ⟨.test, rfl, Or.inr (Or.inl rfl)⟩

end Bingewatch.Machine
