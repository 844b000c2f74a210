import Mathlib.Tactic

/-!
# Chronicles

A chronicle is a state together with the operations that have led to it, each
with the state it was done in.  A program is followed through its loops by an
account: all states so far are good just when all operations so far were safe,
and while they are, what the loop relies on holds.
-/

set_option autoImplicit false

namespace Ahir.Run
variable {S Op : Type}

structure Chronicle (S Op : Type) where
  current : S
  history : List (S × Op)

namespace Chronicle

def start (s : S) : Chronicle S Op := ⟨s, []⟩

/-- The operation `op` has led to `s`. -/
def record (c : Chronicle S Op) (op : Op) (s : S) : Chronicle S Op :=
  ⟨s, c.history ++ [(c.current, op)]⟩

/-- All states: those an operation was done in, and the current one. -/
def states (c : Chronicle S Op) : List S := c.history.map Prod.fst ++ [c.current]

/-- Some bookkeeping that is no operation has led to `s`. -/
def revise (c : Chronicle S Op) (s : S) : Chronicle S Op := { c with current := s }

variable {good : S → Prop} {safe : S → Op → Prop}

theorem forall_states {c : Chronicle S Op} :
    (∀ s ∈ c.states, good s) ↔ (∀ step ∈ c.history, good step.1) ∧ good c.current := by
  simp [states, or_imp, forall_and]

/-- The account of a chronicle; `held` is what the program relies on. -/
structure Accounted (good : S → Prop) (safe : S → Op → Prop) (c : Chronicle S Op)
    (held : S → Prop) : Prop where
  good_iff_safe : (∀ s ∈ c.states, good s) ↔ ∀ step ∈ c.history, safe step.1 step.2
  holds : (∀ s ∈ c.states, good s) → held c.current

namespace Accounted
variable {c : Chronicle S Op} {held held' : S → Prop} {s : S}

theorem start (isGood : good s) (holds : held s) : Accounted good safe (start s) held :=
  ⟨by simp [states, Chronicle.start, isGood], fun _ => holds⟩

theorem mono (account : Accounted good safe c held)
    (weaker : good c.current → held c.current → held' c.current) : Accounted good safe c held' := by
  refine ⟨account.good_iff_safe, fun allGood => ?_⟩
  exact weaker (forall_states.mp allGood).2 (account.holds allGood)

/-- An operation is safe just when it leads from a good state to a good one. -/
theorem record (account : Accounted good safe c held) {op : Op}
    (step : good c.current → held c.current → (good s ↔ safe c.current op))
    (next : good c.current → held c.current → good s → held' s) :
    Accounted good safe (c.record op s) held' := by
  have split : (∀ s' ∈ (c.record op s).states, good s') ↔ (∀ s' ∈ c.states, good s') ∧ good s := by
    rw [forall_states, forall_states]
    simp [Chronicle.record, or_imp, forall_and]
  constructor
  · rw [split]
    have safes : (∀ step ∈ (c.record op s).history, safe step.1 step.2) ↔
        (∀ step ∈ c.history, safe step.1 step.2) ∧ safe c.current op := by
      simp [Chronicle.record, or_imp, forall_and]
    rw [safes, ← account.good_iff_safe]
    apply and_congr_right
    intro allGood
    exact step (forall_states.mp allGood).2 (account.holds allGood)
  · intro allGood
    obtain ⟨before, isGood⟩ := split.mp allGood
    exact next (forall_states.mp before).2 (account.holds before) isGood

theorem revise (account : Accounted good safe c held) (same : good s ↔ good c.current)
    (next : good c.current → held c.current → held' s) :
    Accounted good safe (c.revise s) held' := by
  have split : (∀ s' ∈ (c.revise s).states, good s') ↔ ∀ s' ∈ c.states, good s' := by
    rw [forall_states, forall_states]
    simp [Chronicle.revise, same]
  refine ⟨split.trans account.good_iff_safe, fun allGood => ?_⟩
  have before := split.mp allGood
  exact next (forall_states.mp before).2 (account.holds before)

end Accounted

end Chronicle

end Ahir.Run
