import Ahir.Data.Throughout
import Ahir.Hardware.SplitCallArbiter

/-!
# Output ports

The requests of several writers to one port go through `NobodyLeftBehind`.
-/

set_option autoImplicit false

namespace Ahir.Hardware
open Ahir.Data
variable {n w : Nat}

/-! ### The port -/

structure PortInputs (n w : Nat) where
  req : Fin n → Bool
  data : Fin n → BitVec w
  oack : Bool

structure PortOutputs (n w : Nat) where
  ack : Fin n → Bool
  oreq : Bool
  odata : BitVec w

namespace OutputPortLevel
open NobodyLeftBehind

section Circuit
variable (noArbitration : Bool) (reqInRegister : Fin n → Bool) (i : PortInputs n w)

def fairReqs : Fin n → Bool := reqOut reqInRegister i.req

def reqActive : Fin n → Bool :=
  if noArbitration then fairReqs reqInRegister i else priorityEncode (fairReqs reqInRegister i)

def ackSig (I : Fin n) : Bool := if n = 1 then i.oack else reqActive noArbitration reqInRegister i I && i.oack

def dataArray (I : Fin n) : BitVec w :=
  if n = 1 then i.data I else if reqActive noArbitration reqInRegister i I then i.data I else 0

def outputs : PortOutputs n w where
  ack := ackOut (ackSig noArbitration reqInRegister i)
  oreq := decide (∃ I, reqActive noArbitration reqInRegister i I = true)
  odata := (List.finRange n).foldl (fun varOdata I => dataArray noArbitration reqInRegister i I ||| varOdata) 0

def next : Fin n → Bool := nextRegister reqInRegister i.req (ackSig noArbitration reqInRegister i)

def run (ins : List (PortInputs n w)) : Fin n → Bool := ins.foldl (next noArbitration) reqInRegister

/-- How often `B` is acknowledged in the cycles. -/
def acks (B : Fin n) : (Fin n → Bool) → List (PortInputs n w) → Nat
  | _, [] => 0
  | reqInRegister, i :: ins =>
      ((outputs noArbitration reqInRegister i).ack B).toNat + acks B (next noArbitration reqInRegister i) ins

end Circuit

variable {noArbitration : Bool} {reqInRegister : Fin n → Bool} {i : PortInputs n w}

theorem ackSig_presented (several : n ≠ 1) {I : Fin n} (ack : ackSig noArbitration reqInRegister i I = true) :
    reqOut reqInRegister i.req I = true := by
  unfold ackSig reqActive at ack
  rw [if_neg several, Bool.and_eq_true] at ack
  cases noArbitration with
  | true => exact ack.1
  | false =>
      rcases priorityEncode_cases (fairReqs reqInRegister i) with ⟨J, fair, chosen⟩ | ⟨-, none⟩
      · rw [if_neg Bool.false_ne_true, chosen, decide_eq_true_iff] at ack
        rw [ack.1]
        exact fair
      · rw [if_neg Bool.false_ne_true, none] at ack
        cases ack.1

theorem ack_single {I J : Fin n} (ackI : (outputs false reqInRegister i).ack I = true)
    (ackJ : (outputs false reqInRegister i).ack J = true) : I = J := by
  by_cases single : n = 1
  · subst single
    exact Subsingleton.elim I J
  · have chosen {K : Fin n} (ack : (outputs false reqInRegister i).ack K = true) :
        priorityEncode (fairReqs reqInRegister i) K = true := by
      change ackSig false reqInRegister i K = true at ack
      unfold ackSig reqActive at ack
      rw [if_neg single, Bool.and_eq_true] at ack
      exact ack.1
    have atI := chosen ackI
    have atJ := chosen ackJ
    rcases priorityEncode_cases (fairReqs reqInRegister i) with ⟨K, -, only⟩ | ⟨-, none⟩
    · rw [only, decide_eq_true_iff] at atI atJ
      rw [atI, atJ]
    · rw [none] at atI
      cases atI

theorem acks_append (B : Fin n) (window rest : List (PortInputs n w)) (reqInRegister : Fin n → Bool) :
    acks noArbitration B reqInRegister (window ++ rest) =
      acks noArbitration B reqInRegister window + acks noArbitration B (run noArbitration reqInRegister window) rest := by
  induction window generalizing reqInRegister with
  | nil => exact (Nat.zero_add _).symm
  | cons i window ih =>
      rw [List.cons_append, acks, acks, ih, Nat.add_assoc]
      rfl

/-- While `A` asserts its request and is not acknowledged, no other one is more than twice. -/
theorem acks_le (several : n ≠ 1) {A B : Fin n} {count : Nat} (window : List (PortInputs n w)) (i : PortInputs n w)
    (budget : Budget A B reqInRegister count) (asserted : ∀ c ∈ window, c.req A = true)
    (unanswered : acks noArbitration A reqInRegister window = 0) :
    count + acks noArbitration B reqInRegister (window ++ [i]) ≤ 2 := by
  induction window generalizing reqInRegister count with
  | nil => exact budget.count_le several (ackSig_presented several)
  | cons c window ih =>
      rw [acks, Nat.add_eq_zero_iff, Bool.toNat_eq_zero] at unanswered
      have rest := ih (budget.next several (asserted c List.mem_cons_self) unanswered.1 (ackSig_presented several))
        (fun c mem => asserted c (List.mem_cons_of_mem _ mem)) unanswered.2
      rw [List.cons_append, acks, ← Nat.add_assoc]
      exact rest

/-- A request that was asserted and has not been acknowledged since. -/
def Outstanding (noArbitration : Bool) (before : List (PortInputs n w)) (I : Fin n) : Prop :=
  ∃ earlier c later, before = earlier ++ c :: later ∧ c.req I = true ∧
    acks noArbitration I (run noArbitration (fun _ => false) earlier) (c :: later) = 0

theorem run_snoc (before : List (PortInputs n w)) (i : PortInputs n w) (reqInRegister : Fin n → Bool) :
    run noArbitration reqInRegister (before ++ [i]) = next noArbitration (run noArbitration reqInRegister before) i := by
  rw [run, run, List.foldl_append, List.foldl_cons, List.foldl_nil]

theorem outstanding_of_register (several : n ≠ 1) (before : List (PortInputs n w)) {I : Fin n}
    (latched : run noArbitration (fun _ => false) before I = true) : Outstanding noArbitration before I := by
  induction before using List.reverseRecOn with
  | nil => exact absurd latched Bool.false_ne_true
  | append_singleton before i ih =>
      have last (reqInRegister : Fin n → Bool) (unanswered : ackSig noArbitration reqInRegister i I = false) :
          acks noArbitration I reqInRegister [i] = 0 := Bool.toNat_eq_zero.mpr unanswered
      rw [run_snoc, next, nextRegister, if_neg several] at latched
      split_ifs at latched with left
      · rw [Bool.and_eq_true, Bool.not_eq_true'] at latched
        obtain ⟨earlier, c, later, rfl, asserted, unanswered⟩ := ih latched.1
        refine ⟨earlier, c, later ++ [i], by rw [List.append_assoc, List.cons_append], asserted, ?_⟩
        have register : run noArbitration (fun _ => false) (earlier ++ c :: later) =
            run noArbitration (run noArbitration (fun _ => false) earlier) (c :: later) := List.foldl_append
        rw [← List.cons_append, acks_append, unanswered, ← register, last _ latched.2]
      · rw [Bool.and_eq_true, Bool.not_eq_true'] at latched
        exact ⟨before, i, [], rfl, latched.1, last _ latched.2⟩

end OutputPortLevel

open OutputPortLevel in
/-- After every run an acknowledgement is for a request that is asserted or outstanding, with
arbitration for one only, and while one asserts its request up to its acknowledgement, no
other one is acknowledged more than twice. -/
theorem outputPort_fair (noArbitration : Bool) (before : List (PortInputs n w)) :
    (n ≠ 1 → ∀ (i : PortInputs n w) (I : Fin n), (outputs noArbitration (run noArbitration (fun _ => false) before) i).ack I = true →
      i.req I = true ∨ Outstanding noArbitration before I) ∧
    (noArbitration = false → ∀ (i : PortInputs n w) (I J : Fin n),
      (outputs noArbitration (run noArbitration (fun _ => false) before) i).ack I = true →
      (outputs noArbitration (run noArbitration (fun _ => false) before) i).ack J = true → I = J) ∧
    ∀ (window : List (PortInputs n w)) (i : PortInputs n w) (A B : Fin n), A ≠ B → (∀ c ∈ window, c.req A = true) →
      acks noArbitration A (run noArbitration (fun _ => false) before) window = 0 →
      acks noArbitration B (run noArbitration (fun _ => false) before) (window ++ [i]) ≤ 2 := by
  refine ⟨fun several i I ack => ?_, ?_, fun window i A B other asserted unanswered => ?_⟩
  · have presented := ackSig_presented several ack
    unfold NobodyLeftBehind.reqOut at presented
    rw [if_neg several] at presented
    split_ifs at presented with left
    · exact .inr (outstanding_of_register several before presented)
    · exact .inl presented
  · rintro rfl i I J
    exact ack_single
  · have several : n ≠ 1 := by
      rintro rfl
      exact other (Subsingleton.elim A B)
    have bound := acks_le several window i (NobodyLeftBehind.Budget.start A B _) asserted unanswered
    rwa [Nat.zero_add] at bound

open OutputPortLevel in
/-- The second writer is acknowledged twice while the first one waits. -/
theorem outputPort_fair_two :
    let second : PortInputs 2 1 := ⟨fun I => decide (I = 1), fun _ => 0, false⟩
    let both : PortInputs 2 1 := ⟨fun _ => true, fun _ => 0, true⟩
    let reqInRegister := run false (fun _ => false) [second]
    acks false 1 reqInRegister ([both, both] ++ [both]) = 2 ∧ acks false 0 reqInRegister ([both, both] ++ [both]) = 1 ∧
      acks false 1 reqInRegister ([both, both] ++ [both]) ≤ 2 := by
  intro second both reqInRegister
  exact ⟨by decide, by decide, (outputPort_fair false [second]).2.2 [both, both] both 0 1 (by decide) (by decide) (by decide)⟩

open OutputPortLevel in
/-- Without arbitration two writers are acknowledged at once, and with it one that has
withdrawn its request. -/
theorem not_outputPort_fair_withdrawn :
    let both : PortInputs 2 1 := ⟨fun _ => true, fun _ => 0, true⟩
    let withdrawn : PortInputs 2 1 := ⟨fun _ => false, fun _ => 0, true⟩
    ((outputs true (fun _ => false) both).ack 0 = true ∧ (outputs true (fun _ => false) both).ack 1 = true) ∧
      withdrawn.req 0 = false ∧ (outputs false (run false (fun _ => false) [both]) withdrawn).ack 0 = true := by
  intro both withdrawn
  exact ⟨by decide, by decide, by decide⟩

end Ahir.Hardware
