import Bingewatch.Filter.Chains

/-!
# A refused feedback loop

`add_feedback_write_filter` looks for the feedback filter in the write chain of the machine, with
the lock of the machine held, and returns with a message when it is not there. By then it has
written nothing: no filter and no descriptor changes. But the return comes before the unlock, so
the lock stays held, and no later call that needs it ever returns
(`refused_feedback_keeps_lock`).
-/

set_option autoImplicit false

namespace Bingewatch.Filter

open Foundation

/-- The call takes the lock of a machine. -/
def ChainCall.locks (h : Nat) : ChainCall → Prop
  | .register _ h' _ _ => h' = h
  | .add _ h' _ => h' = h
  | .addFeedback h' _ _ _ => h' = h
  | .create _ _ => False
  | .write _ _ => False

/-- A call has left the filters, the descriptors and the locks as they were, and every later call
that needs the lock of the machine gets it. -/
structure Untouched (m m' : Filters) (h : Nat) : Prop where
  cell : m'.cell = m.cell
  obj : m'.obj = m.obj
  locked : m'.locked = m.locked
  proceeds : m'.lock h ≠ none

namespace Filters

variable {m m' : Filters} {h : Nat}

/-! ## A lock that is held -/

theorem lock_none (held : m.locked h = true) : m.lock h = none := by
  simp [lock, held]

theorem chainEnd_locked {d : Direction} {fuel f last : Nat}
    (found : chainEnd d fuel m f = some (m', last)) : m'.locked = m.locked := by
  induction fuel generalizing m f with
  | zero => cases found
  | succ fuel ih =>
      rw [chainEnd] at found
      split at found
      · cases found
        rfl
      · exact (ih found).trans rfl

/-- A call that needs a lock that is held does not return. -/
theorem exec_locks {c : ChainCall} (locks : c.locks h) (held : m.locked h = true) :
    m.exec c = none := by
  cases c with
  | register side h' fn name =>
      obtain rfl : h' = h := locks
      cases side <;> simp [exec, registerReadFilter, registerWriteFilter, registerFilter,
        lock_none held]
  | add side h' addme =>
      obtain rfl : h' = h := locks
      have waits : m.addFilter side h' addme = none := by
        unfold addFilter
        split
        · rfl
        · cases found : chainEnd side.direction m.top m addme with
          | none => rfl
          | some result =>
              obtain ⟨m', f⟩ := result
              have held' : (m'.setDirection addme side.direction).locked h' = true := by
                show m'.locked h' = true
                rw [chainEnd_locked found, held]
              simp [lock_none held']
      cases side <;> exact waits
  | addFeedback h' addme feedback metric =>
      obtain rfl : h' = h := locks
      simp [exec, addFeedbackWriteFilter, lock_none held]
  | create name fn => exact locks.elim
  | write f filter => exact locks.elim

/-- The lock of another machine is taken. -/
theorem locked_of_lock {h' : Nat} (other : h' ≠ h) (taken : m.lock h' = some m') :
    m'.locked h = m.locked h := by
  unfold lock at taken
  split at taken
  · cases taken
  · cases taken
    exact Function.update_of_ne (Ne.symm other) ..

/-- The lock of another machine is given back. -/
theorem locked_unlock {h' : Nat} (other : h' ≠ h) (m : Filters) :
    (m.unlock h').locked h = m.locked h :=
  Function.update_of_ne (Ne.symm other) ..

/-- A call for another machine leaves the lock held. -/
theorem exec_held {c : ChainCall} (held : m.locked h = true) (executed : m.exec c = some m') :
    m'.locked h = true := by
  by_cases locks : c.locks h
  · rw [exec_locks locks held] at executed
    cases executed
  · have kept : m'.locked h = m.locked h := by
      cases c with
      | register side h' fn name =>
          have registered : m.registerFilter side h' fn name = some m' := by
            cases side <;> exact executed
          simp only [registerFilter, Option.bind_eq_bind, Option.bind_eq_some_iff] at registered
          obtain ⟨m₁, taken, f, -, done⟩ := registered
          cases done
          calc _ = m₁.locked h := locked_unlock locks _
            _ = m.locked h := locked_of_lock locks taken
      | add side h' addme =>
          have added : m.addFilter side h' addme = some m' := by
            cases side <;> exact executed
          unfold addFilter at added
          split at added
          · cases added
          · simp only [Option.bind_eq_bind, Option.bind_eq_some_iff] at added
            obtain ⟨⟨m₁, last⟩, found, m₂, taken, f, -, done⟩ := added
            cases done
            calc _ = m₂.locked h := locked_unlock locks _
              _ = (m₁.setDirection addme side.direction).locked h := locked_of_lock locks taken
              _ = m₁.locked h := rfl
              _ = m.locked h := by rw [chainEnd_locked found]
      | addFeedback h' addme feedback metric =>
          simp only [exec, addFeedbackWriteFilter, Option.bind_eq_bind,
            Option.bind_eq_some_iff] at executed
          obtain ⟨m₁, taken, f, -, found, -, executed⟩ := executed
          have kept := locked_of_lock locks taken
          split at executed
          · cases executed
            exact kept
          · split at executed
            · cases executed
            · obtain ⟨⟨m₂, last⟩, found, done⟩ := Option.bind_eq_some_iff.mp executed
              cases done
              calc _ = m₂.locked h := locked_unlock locks _
                _ = m₁.locked h := by rw [chainEnd_locked found]
                _ = m.locked h := kept
      | create name fn =>
          cases executed
          rfl
      | write f filter =>
          cases executed
          rfl
    rw [kept, held]

/-- No run with a call that needs the lock comes to its end. -/
theorem run_locks {calls : List ChainCall} (held : m.locked h = true)
    (needs : ∃ c ∈ calls, c.locks h) : m.run calls = none := by
  induction calls generalizing m with
  | nil =>
      obtain ⟨c, member, -⟩ := needs
      cases member
  | cons c calls ih =>
      obtain ⟨c', member, locks⟩ := needs
      rw [run]
      cases executed : m.exec c with
      | none => rfl
      | some m' =>
          refine ih (exec_held held executed) ⟨c', ?_, locks⟩
          rcases List.mem_cons.mp member with rfl | later
          · rw [exec_locks locks held] at executed
            cases executed
          · exact later

/-! ## The refusal -/

/-- The search comes to the end of a chain without the filter. -/
theorem findFilter_absent {fuel f feedback : Nat} {l : List Nat} (ends : Chain m.next f l 0)
    (valid : 0 ∉ l) (enough : l.length < fuel) (absent : feedback ∉ l) :
    m.findFilter feedback fuel f = some false := by
  induction l generalizing fuel f with
  | nil =>
      obtain ⟨fuel, rfl⟩ : ∃ k, fuel = k + 1 := ⟨fuel - 1, by omega⟩
      have null : f = 0 := ends
      simp [findFilter, null]
  | cons x l ih =>
      obtain ⟨rfl, rest⟩ := ends
      obtain ⟨fuel, rfl⟩ : ∃ k, fuel = k + 1 := ⟨fuel - 1, by omega⟩
      rw [List.mem_cons, not_or] at valid absent
      rw [findFilter, if_neg (Ne.symm valid.1), if_neg (Ne.symm absent.1)]
      exact ih rest valid.2 (by simpa using enough) absent.2

theorem addFeedbackWriteFilter_refused {f addme feedback metric : Nat} {l : List Nat}
    (unlocked : m.locked h = false) (head : m.obj h .write = some f) (ends : Chain m.next f l 0)
    (valid : 0 ∉ l) (enough : l.length < m.top) (absent : feedback ∉ l) :
    m.addFeedbackWriteFilter h addme feedback metric = some (m.hold h) := by
  have head' : (m.hold h).obj h .write = some f := head
  have missing : (m.hold h).findFilter feedback (m.hold h).top f = some false :=
    findFilter_absent (m := m.hold h) ends valid enough absent
  simp [addFeedbackWriteFilter, lock_eq unlocked, head', missing]

end Filters

/-- **A refused feedback loop** leaves every filter and every descriptor as it was, and the lock of
the machine held: no later run with a call that needs the lock comes to its end. -/
theorem refused_feedback_keeps_lock {m : Filters} {h f : Nat} {l : List Nat}
    (addme feedback metric : Nat) (unlocked : m.locked h = false)
    (head : m.obj h .write = some f) (ends : Chain m.next f l 0) (nodup : l.Nodup)
    (positive : 0 < m.top) (old : ∀ x ∈ l, 0 < x ∧ x < m.top) (absent : feedback ∉ l) :
    ∃ m', m.exec (.addFeedback h addme feedback metric) = some m' ∧
      m'.cell = m.cell ∧ m'.obj = m.obj ∧ ¬Untouched m m' h ∧
      ∀ calls : List ChainCall, (∃ c ∈ calls, c.locks h) → m'.run calls = none := by
  have valid : 0 ∉ l := fun null => Nat.lt_irrefl 0 (old 0 null).1
  have below : ∀ x ∈ 0 :: l, x < m.top := by
    intro x member
    rcases List.mem_cons.mp member with rfl | later
    · exact positive
    · exact (old x later).2
  have enough : l.length < m.top :=
    length_le_of_nodup (List.nodup_cons.mpr ⟨valid, nodup⟩) below
  have held : (m.hold h).locked h = true := Function.update_self ..
  refine ⟨m.hold h, Filters.addFeedbackWriteFilter_refused unlocked head ends valid enough absent,
    rfl, rfl, fun untouched => ?_, fun calls needs => Filters.run_locks held needs⟩
  exact untouched.proceeds (Filters.lock_none held)

/-- The filter 6 is not in the write chain of the sample machine. -/
theorem refused_feedback_sample :
    ∃ m', sampleFilters.exec (.addFeedback 1 3 6 5) = some m' ∧
      m'.run [.register .write 1 9 ['w']] = none := by
  obtain ⟨m', refused, -, -, -, later⟩ :=
    refused_feedback_keeps_lock (m := sampleFilters) (h := 1) (f := 2) (l := [2]) 3 6 5 rfl rfl
      ⟨rfl, rfl⟩ (by decide) (by decide) (by decide) (by decide)
  exact ⟨m', refused, later _ ⟨_, List.mem_singleton_self _, rfl⟩⟩

/-- The lock of the sample machine is free before the refused call and held after it. -/
theorem refused_feedback_locks_out :
    ∃ m', sampleFilters.exec (.addFeedback 1 3 6 5) = some m' ∧
      Chain sampleFilters.next 2 [2] 0 ∧ 6 ∉ [2] ∧ sampleFilters.locked 1 = false ∧
      m'.locked 1 = true ∧ ¬Untouched sampleFilters m' 1 := by
  refine ⟨(sampleFilters.exec (.addFeedback 1 3 6 5)).get rfl, rfl, ⟨rfl, rfl⟩, by decide, rfl, rfl,
    fun untouched => ?_⟩
  exact untouched.proceeds rfl

end Bingewatch.Filter
