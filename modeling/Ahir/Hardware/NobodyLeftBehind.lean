import Mathlib.Tactic

/-!
# Fair requests

`NobodyLeftBehind` keeps the requests that were not acknowledged and lets no new one pass
before them.
-/

set_option autoImplicit false

namespace Ahir.Hardware
variable {n : Nat}

namespace NobodyLeftBehind

/-- `reqOut`; with one requester there is no register. -/
def reqOut (reqInRegister reqIn : Fin n → Bool) : Fin n → Bool :=
  if n = 1 then reqIn else if ∃ I, reqInRegister I = true then reqInRegister else reqIn

def nextRegister (reqInRegister reqIn ackIn : Fin n → Bool) : Fin n → Bool :=
  if n = 1 then reqInRegister
  else if ∃ I, reqInRegister I = true then fun I => reqInRegister I && !ackIn I
  else fun I => reqIn I && !ackIn I

def ackOut (ackIn : Fin n → Bool) : Fin n → Bool := ackIn

/-- What may still come before the request of `A`, when `count` acknowledgements of `B` have. -/
structure Budget (A B : Fin n) (reqInRegister : Fin n → Bool) (count : Nat) : Prop where
  idle : (∀ I, reqInRegister I = false) → count ≤ 1
  behind : (∃ I, reqInRegister I = true) → reqInRegister A = false → count + (reqInRegister B).toNat ≤ 1
  latched : reqInRegister A = true → count + (reqInRegister B).toNat ≤ 2

theorem Budget.start (A B : Fin n) (reqInRegister : Fin n → Bool) : Budget A B reqInRegister 0 :=
  ⟨fun _ => Nat.zero_le 1, fun _ _ => (Nat.zero_add _).trans_le (Bool.toNat_le _),
    fun _ => ((Nat.zero_add _).trans_le (Bool.toNat_le _)).trans one_le_two⟩

variable {A B : Fin n} {reqInRegister reqIn ackIn : Fin n → Bool} {count : Nat}

theorem toNat_left (presented : ackIn B = true → reqIn B = true) :
    (ackIn B).toNat + (reqIn B && !ackIn B).toNat = (reqIn B).toNat := by
  cases ack : ackIn B <;> cases req : reqIn B <;> simp [ack, req] at presented ⊢

/-- Up to the cycle in which `A` is acknowledged, `B` is at most twice. -/
theorem Budget.count_le (budget : Budget A B reqInRegister count) (several : n ≠ 1)
    (presented : ackIn B = true → reqOut reqInRegister reqIn B = true) : count + (ackIn B).toNat ≤ 2 := by
  unfold reqOut at presented
  rw [if_neg several] at presented
  have one := Bool.toNat_le (ackIn B)
  by_cases left : ∃ I, reqInRegister I = true
  · rw [if_pos left] at presented
    have split := toNat_left presented
    cases latched : reqInRegister A with
    | true =>
        have most := budget.latched latched
        omega
    | false =>
        have most := budget.behind left latched
        omega
  · have most := budget.idle fun I => Bool.eq_false_iff.mpr fun is => left ⟨I, is⟩
    omega

theorem Budget.next (budget : Budget A B reqInRegister count) (several : n ≠ 1) (asserted : reqIn A = true)
    (unanswered : ackIn A = false) (presented : ackIn B = true → reqOut reqInRegister reqIn B = true) :
    Budget A B (nextRegister reqInRegister reqIn ackIn) (count + (ackIn B).toNat) := by
  unfold reqOut at presented
  unfold nextRegister
  rw [if_neg several] at presented
  rw [if_neg several]
  by_cases left : ∃ I, reqInRegister I = true
  · rw [if_pos left] at presented
    rw [if_pos left]
    have split := toNat_left presented
    cases latched : reqInRegister A with
    | true =>
        -- the register keeps the request
        have most := budget.latched latched
        have kept : (reqInRegister A && !ackIn A) = true := by rw [latched, unanswered]; rfl
        refine ⟨fun none => ?_, fun _ gone => ?_, fun _ => by omega⟩
        · exact absurd kept (Bool.eq_false_iff.mp (none A))
        · exact absurd kept (Bool.eq_false_iff.mp gone)
    | false =>
        have most := budget.behind left latched
        refine ⟨fun _ => by omega, fun _ _ => by omega, fun _ => by omega⟩
  · rw [if_neg left] at presented
    rw [if_neg left]
    have split := toNat_left presented
    have most := budget.idle fun I => Bool.eq_false_iff.mpr fun is => left ⟨I, is⟩
    have once := Bool.toNat_le (reqIn B)
    have kept : (reqIn A && !ackIn A) = true := by rw [asserted, unanswered]; rfl
    refine ⟨fun none => ?_, fun _ gone => ?_, fun _ => by omega⟩
    · exact absurd kept (Bool.eq_false_iff.mp (none A))
    · exact absurd kept (Bool.eq_false_iff.mp gone)

theorem asked_of_left (several : n ≠ 1) (asked : reqInRegister A = true → reqIn A = true)
    (left : nextRegister reqInRegister reqIn ackIn A = true) : reqIn A = true ∧ ackIn A = false := by
  rw [nextRegister, if_neg several] at left
  split_ifs at left
  · rw [Bool.and_eq_true, Bool.not_eq_true'] at left
    exact ⟨asked left.1, left.2⟩
  · rw [Bool.and_eq_true, Bool.not_eq_true'] at left
    exact left

end NobodyLeftBehind

end Ahir.Hardware
