import Ahir.Data.Throughout
import Ahir.Hardware.Place

/-!
# Access regulators

`access_regulator_base` passes a request on when there is a slot for it.  The slots are
the tokens of a place that starts with all of them, and a release puts one back.
-/

set_option autoImplicit false

namespace Ahir.Hardware
open Ahir.Data

structure AccessInputs where
  req : Bool
  regulatedAck : Bool
  releaseReq : Bool
  releaseAck : Bool

structure AccessOutputs where
  regulatedReq : Bool
  ack : Bool

structure AccessRegulator (numSlots : Nat) where
  reqPlace : (placeWithBypass 1 0).State
  releaseReqPlace : (place (numSlots + 1) numSlots).State

namespace AccessRegulator
variable {numSlots : Nat}

def reset : AccessRegulator numSlots := ⟨(placeWithBypass 1 0).reset, (place (numSlots + 1) numSlots).reset⟩

variable (s : AccessRegulator numSlots) (i : AccessInputs)

def regulatedReqJoin : Bool :=
  (place (numSlots + 1) numSlots).token s.releaseReqPlace i.releaseReq && (placeWithBypass 1 0).token s.reqPlace i.req

def outputs : AccessOutputs := ⟨s.regulatedReqJoin i, i.regulatedAck⟩

def next : AccessRegulator numSlots where
  reqPlace := (placeWithBypass 1 0).next s.reqPlace i.req (s.regulatedReqJoin i)
  releaseReqPlace := (place (numSlots + 1) numSlots).next s.releaseReqPlace i.releaseReq (s.regulatedReqJoin i)

def waiting : Nat := (placeWithBypass 1 0).count s.reqPlace
def slots : Nat := (place (numSlots + 1) numSlots).count s.releaseReqPlace

variable {s i}

theorem regulatedReqJoin_iff : s.regulatedReqJoin i = true ↔ 0 < s.slots ∧ (0 < s.waiting ∨ i.req = true) := by
  have released := (place_counts (Nat.le_succ numSlots)).token s.releaseReqPlace i.releaseReq
  have requested := (placeWithBypass_counts Nat.one_pos Nat.one_pos.le).token s.reqPlace i.req
  rw [regulatedReqJoin, released, requested]
  simp [slots, waiting]

theorem waiting_le_one : s.waiting ≤ 1 := Bool.toNat_le s.reqPlace

/-- A request finds the place empty, or takes the place of one that leaves. -/
theorem waiting_next :
    (s.next i).waiting + (s.regulatedReqJoin i).toNat =
      s.waiting + (i.req && (s.regulatedReqJoin i || decide (s.waiting = 0))).toNat := by
  have shown : s.regulatedReqJoin i = true → 0 < s.waiting ∨ i.req = true := fun fires => (regulatedReqJoin_iff.mp fires).2
  obtain ⟨nonZero, now, next⟩ : ∃ nonZero : Bool, s.waiting = nonZero.toNat ∧
      (s.next i).waiting = Bool.toNat (if i.req && !s.regulatedReqJoin i then true
        else if s.regulatedReqJoin i && !i.req then false else nonZero) := ⟨s.reqPlace, rfl, rfl⟩
  rw [now] at shown
  rw [next, now]
  generalize s.regulatedReqJoin i = fires at shown ⊢
  cases nonZero <;> cases fires <;> cases req : i.req <;> simp [req] at shown ⊢

/-- A release that comes while all slots and one more are open changes nothing. -/
theorem slots_next (bounded : s.slots ≤ numSlots + 1) :
    (s.next i).slots + (s.regulatedReqJoin i).toNat =
      s.slots + (i.releaseReq && (s.regulatedReqJoin i || decide (s.slots ≠ numSlots + 1))).toNat := by
  have counts := place_counts (Nat.le_succ numSlots)
  have shown (fires : s.regulatedReqJoin i = true) :
      (place (numSlots + 1) numSlots).token s.releaseReqPlace i.releaseReq = true := by
    rw [regulatedReqJoin, Bool.and_eq_true] at fires
    exact fires.1
  by_cases lost : i.releaseReq = true ∧ s.regulatedReqJoin i = false ∧ s.slots = numSlots + 1
  · obtain ⟨releaseReq, stays, full⟩ := lost
    have kept : (s.next i).slots = s.slots := by
      show (place _ _).next s.releaseReqPlace i.releaseReq (s.regulatedReqJoin i) = s.slots
      rw [releaseReq, stays]
      exact if_neg (by rw [show s.releaseReqPlace = numSlots + 1 from full]; exact Nat.lt_irrefl _)
    rw [kept, releaseReq, stays, full]
    simp
  · have step := counts.next s.releaseReqPlace i.releaseReq (s.regulatedReqJoin i) bounded shown
      fun releaseReq stays full => lost ⟨releaseReq, stays, full⟩
    have taken : (i.releaseReq && (s.regulatedReqJoin i || decide (s.slots ≠ numSlots + 1))) = i.releaseReq := by
      rw [Bool.and_eq_left_iff_imp]
      intro releaseReq
      rw [Bool.or_eq_true, decide_eq_true_iff]
      by_contra neither
      rw [not_or, Bool.not_eq_true, not_not] at neither
      exact lost ⟨releaseReq, neither.1, neither.2⟩
    rw [taken]
    exact step

end AccessRegulator

/-- The regulator with a log: the cycles in which it accepted a request, those in which it
passed one on, and how many releases came. -/
structure AccessLog (numSlots : Nat) where
  regulator : AccessRegulator numSlots
  now : Nat
  accepted : List Nat
  passedOn : List Nat
  releases : Nat

/-- The requests in the one list are those in the other, in order, and no further one is
accepted before the last has been passed on. -/
structure PassedInOrder (accepted passedOn : List Nat) : Prop where
  before : ∀ k t : Nat, passedOn[k]? = some t → ∃ a, accepted[k]? = some a ∧ a ≤ t
  after : ∀ k a : Nat, accepted[k + 1]? = some a → ∃ t, passedOn[k]? = some t ∧ t ≤ a

namespace AccessLog
variable {numSlots : Nat}

def start (numSlots : Nat) : AccessLog numSlots := ⟨AccessRegulator.reset, 0, [], [], 0⟩

/-- A request that comes while another one waits, and is not passed on, is not accepted. -/
def next (b : AccessLog numSlots) (i : AccessInputs) : AccessLog numSlots :=
  let passes := (b.regulator.outputs i).regulatedReq
  { regulator := b.regulator.next i
    now := b.now + 1
    accepted := if i.req && (passes || decide (b.accepted.length = b.passedOn.length)) then b.accepted ++ [b.now]
      else b.accepted
    passedOn := if passes then b.passedOn ++ [b.now] else b.passedOn
    releases := b.releases + i.releaseReq.toNat }

def after (numSlots : Nat) (ins : List AccessInputs) : AccessLog numSlots := ins.foldl next (start numSlots)

theorem after_snoc (ins : List AccessInputs) (i : AccessInputs) :
    after numSlots (ins ++ [i]) = (after numSlots ins).next i := by
  rw [after, after, List.foldl_append, List.foldl_cons, List.foldl_nil]

def SlotsKept (b : AccessLog numSlots) : Prop := b.regulator.slots + b.passedOn.length = numSlots + b.releases

def OneAhead (b : AccessLog numSlots) : Prop := b.releases ≤ b.passedOn.length + 1

instance (b : AccessLog numSlots) : Decidable b.SlotsKept := inferInstanceAs (Decidable (_ = _))
instance (b : AccessLog numSlots) : Decidable b.OneAhead := inferInstanceAs (Decidable (_ ≤ _))

/-- No release is lost in a run: after each of its cycles the slots are kept. -/
def NoReleaseLost (numSlots : Nat) (ins : List AccessInputs) : Prop :=
  Throughout (fun before i => ((after numSlots before).next i).SlotsKept) ins

/-- After no cycle of the run the releases are further ahead. -/
def ReleasesOneAhead (numSlots : Nat) (ins : List AccessInputs) : Prop :=
  Throughout (fun before i => ((after numSlots before).next i).OneAhead) ins

instance (ins : List AccessInputs) : Decidable (NoReleaseLost numSlots ins) :=
  inferInstanceAs (Decidable (Throughout _ ins))

structure Inv (b : AccessLog numSlots) : Prop where
  accepted : b.accepted.length = b.passedOn.length + b.regulator.waiting
  slots : b.regulator.slots + b.passedOn.length ≤ numSlots + b.releases
  slots_le : b.regulator.slots ≤ numSlots + 1
  past : ∀ t, t ∈ b.accepted ∨ t ∈ b.passedOn → t < b.now
  ordered : PassedInOrder b.accepted b.passedOn

end AccessLog

section PassedInOrder
variable {accepted passedOn : List Nat} {now : Nat}

theorem PassedInOrder.accept (ordered : PassedInOrder accepted passedOn) (none : accepted.length ≤ passedOn.length)
    (past : ∀ t ∈ passedOn, t ≤ now) : PassedInOrder (accepted ++ [now]) passedOn := by
  refine ⟨fun k t pass => ?_, fun k a accept => ?_⟩
  · obtain ⟨a, accept, le⟩ := ordered.before k t pass
    exact ⟨a, by rw [List.getElem?_append_left (List.getElem?_eq_some_iff.mp accept).1, accept], le⟩
  · rcases Nat.lt_or_ge (k + 1) accepted.length with old | new
    · rw [List.getElem?_append_left old] at accept
      exact ordered.after k a accept
    · have inside := (List.getElem?_eq_some_iff.mp accept).1
      rw [List.length_append, List.length_singleton] at inside
      rw [List.getElem?_append_right new, show k + 1 - accepted.length = 0 by omega, List.getElem?_cons_zero,
        Option.some_inj] at accept
      have pass : passedOn[k]? = some passedOn[k] := List.getElem?_eq_getElem (by omega)
      exact ⟨_, pass, accept ▸ past _ (List.mem_of_getElem? pass)⟩

theorem PassedInOrder.pass (ordered : PassedInOrder accepted passedOn) (one : passedOn.length < accepted.length)
    (past : ∀ a ∈ accepted, a ≤ now) : PassedInOrder accepted (passedOn ++ [now]) := by
  refine ⟨fun k t pass => ?_, fun k a accept => ?_⟩
  · rcases Nat.lt_or_ge k passedOn.length with old | new
    · rw [List.getElem?_append_left old] at pass
      exact ordered.before k t pass
    · have inside := (List.getElem?_eq_some_iff.mp pass).1
      rw [List.length_append, List.length_singleton] at inside
      rw [List.getElem?_append_right new, show k - passedOn.length = 0 by omega, List.getElem?_cons_zero,
        Option.some_inj] at pass
      have accept : accepted[k]? = some accepted[k] := List.getElem?_eq_getElem (by omega)
      exact ⟨_, accept, pass ▸ past _ (List.mem_of_getElem? accept)⟩
  · obtain ⟨t, pass, le⟩ := ordered.after k a accept
    exact ⟨t, by rw [List.getElem?_append_left (List.getElem?_eq_some_iff.mp pass).1, pass], le⟩

end PassedInOrder

namespace AccessLog
open AccessRegulator
variable {numSlots : Nat} {b : AccessLog numSlots}

theorem Inv.start : (start numSlots).Inv where
  accepted := rfl
  slots := (place_counts (Nat.le_succ numSlots)).reset.le
  slots_le := (place_counts (Nat.le_succ numSlots)).reset.le.trans (Nat.le_succ _)
  past := by rintro t (mem | mem) <;> cases mem
  ordered := ⟨fun k t pass => (by cases pass), fun k a accept => (by cases accept)⟩

theorem Inv.waiting_eq_zero (inv : b.Inv) :
    decide (b.regulator.waiting = 0) = decide (b.accepted.length = b.passedOn.length) := by
  rw [inv.accepted]
  exact decide_eq_decide.mpr (by omega)

/-- A request is accepted before it is passed on in its cycle, unless it takes the place of another. -/
theorem Inv.ordered_next (inv : b.Inv) (i : AccessInputs) : PassedInOrder (b.next i).accepted (b.next i).passedOn := by
  have accepted := inv.accepted
  have atMost : b.regulator.waiting ≤ 1 := waiting_le_one
  have pastAccepted (t : Nat) (mem : t ∈ b.accepted) : t ≤ b.now := (inv.past t (.inl mem)).le
  have pastPassed (t : Nat) (mem : t ∈ b.passedOn) : t ≤ b.now := (inv.past t (.inr mem)).le
  have shown : b.regulator.regulatedReqJoin i = true → 0 < b.regulator.waiting ∨ i.req = true := fun fires =>
    (regulatedReqJoin_iff.mp fires).2
  have extended {l : List Nat} (past : ∀ t ∈ l, t ≤ b.now) : ∀ t ∈ l ++ [b.now], t ≤ b.now := by
    intro t mem
    rcases List.mem_append.mp mem with old | new
    · exact past t old
    · exact (List.mem_singleton.mp new).le
  unfold next outputs
  dsimp only
  cases fires : b.regulator.regulatedReqJoin i with
  | false =>
      rw [Bool.false_or, if_neg Bool.false_ne_true]
      split_ifs with accepts
      · rw [Bool.and_eq_true, decide_eq_true_iff] at accepts
        exact inv.ordered.accept accepts.2.le pastPassed
      · exact inv.ordered
  | true =>
      rw [Bool.true_or, Bool.and_true, if_pos rfl]
      cases req : i.req with
      | false =>
          have present := (shown fires).resolve_right (by rw [req]; exact Bool.false_ne_true)
          rw [if_neg Bool.false_ne_true]
          exact inv.ordered.pass (by omega) pastAccepted
      | true =>
          rw [if_pos rfl]
          rcases Nat.eq_zero_or_pos b.regulator.waiting with none | one
          · exact (inv.ordered.accept (by omega) pastPassed).pass (by rw [List.length_append, List.length_singleton]; omega)
              (extended pastAccepted)
          · exact (inv.ordered.pass (by omega) pastAccepted).accept
              (by rw [List.length_append, List.length_singleton]; omega) (extended pastPassed)

theorem length_accepted_next (b : AccessLog numSlots) (i : AccessInputs) :
    (b.next i).accepted.length = b.accepted.length +
      (i.req && (b.regulator.regulatedReqJoin i || decide (b.accepted.length = b.passedOn.length))).toNat := by
  unfold next outputs
  dsimp only
  cases i.req && (b.regulator.regulatedReqJoin i || decide (b.accepted.length = b.passedOn.length)) <;> simp

theorem length_passedOn_next (b : AccessLog numSlots) (i : AccessInputs) :
    (b.next i).passedOn.length = b.passedOn.length + (b.regulator.regulatedReqJoin i).toNat := by
  unfold next outputs
  dsimp only
  cases b.regulator.regulatedReqJoin i <;> simp

theorem Inv.past_next (inv : b.Inv) (i : AccessInputs) (t : Nat)
    (mem : t ∈ (b.next i).accepted ∨ t ∈ (b.next i).passedOn) : t < (b.next i).now := by
  have extended {l : List Nat} {c : Bool} (past : ∀ t ∈ l, t < b.now) (mem : t ∈ if c then l ++ [b.now] else l) :
      t < b.now + 1 := by
    cases c with
    | false => exact Nat.lt_succ_of_lt (past t mem)
    | true =>
        rcases List.mem_append.mp mem with old | new
        · exact Nat.lt_succ_of_lt (past t old)
        · exact (List.mem_singleton.mp new).le.trans_lt (Nat.lt_succ_self _)
  rcases mem with accept | pass
  · exact extended (fun t mem => inv.past t (.inl mem)) accept
  · exact extended (fun t mem => inv.past t (.inr mem)) pass

theorem Inv.next (inv : b.Inv) (i : AccessInputs) : (b.next i).Inv := by
  have waiting := waiting_next (s := b.regulator) (i := i)
  have slots := slots_next (i := i) inv.slots_le
  have passed := length_passedOn_next b i
  have accepted := length_accepted_next b i
  have before := inv.slots
  have bounded := inv.slots_le
  have requests := inv.accepted
  rw [inv.waiting_eq_zero] at waiting
  refine ⟨?_, ?_, ?_, inv.past_next i, inv.ordered_next i⟩
  · show _ = _ + (b.regulator.next i).waiting
    omega
  · have released : (i.releaseReq && (b.regulator.regulatedReqJoin i ||
        decide (b.regulator.slots ≠ numSlots + 1))).toNat ≤ i.releaseReq.toNat := by
      cases i.releaseReq <;> simp [Bool.toNat_le]
    show (b.regulator.next i).slots + _ ≤ numSlots + (b.releases + i.releaseReq.toNat)
    omega
  · show (b.regulator.next i).slots ≤ _
    cases fires : b.regulator.regulatedReqJoin i with
    | true =>
        have kept := Bool.toNat_le (i.releaseReq && (true || decide (b.regulator.slots ≠ numSlots + 1)))
        rw [fires, Bool.toNat_true] at slots
        omega
    | false =>
        rw [fires] at slots
        by_cases full : b.regulator.slots = numSlots + 1
        · simp [full] at slots
          omega
        · have one := Bool.toNat_le (i.releaseReq && (false || decide (b.regulator.slots ≠ numSlots + 1)))
          rw [Bool.toNat_false] at slots
          omega

theorem inv_after (ins : List AccessInputs) : (after numSlots ins).Inv := by
  induction ins using List.reverseRecOn with
  | nil => exact Inv.start
  | append_singleton ins i ih =>
      rw [after_snoc]
      exact ih.next i

/-- The slots are kept in a cycle just when the releases stay at most one ahead. -/
theorem Inv.slotsKept_next_iff (inv : b.Inv) (kept : b.SlotsKept) (i : AccessInputs) :
    (b.next i).SlotsKept ↔ (b.next i).OneAhead := by
  have slots := slots_next (i := i) inv.slots_le
  have passed := length_passedOn_next b i
  have bounded := (inv.next i).slots_le
  have after : (b.next i).regulator.slots = (b.regulator.next i).slots := rfl
  have releases : (b.next i).releases = b.releases + i.releaseReq.toNat := rfl
  unfold SlotsKept at kept
  unfold SlotsKept OneAhead
  constructor
  · intro keptNext
    omega
  · intro ahead
    have taken : (i.releaseReq && (b.regulator.regulatedReqJoin i || decide (b.regulator.slots ≠ numSlots + 1))) =
        i.releaseReq := by
      rw [Bool.and_eq_left_iff_imp]
      intro releaseReq
      rw [Bool.or_eq_true, decide_eq_true_iff]
      by_contra neither
      rw [not_or, Bool.not_eq_true, not_not] at neither
      rw [releaseReq, Bool.toNat_true] at releases
      rw [neither.1, Bool.toNat_false] at passed
      omega
    rw [taken] at slots
    omega

theorem slotsKept_after {ins : List AccessInputs} (kept : NoReleaseLost numSlots ins) : (after numSlots ins).SlotsKept := by
  rcases List.eq_nil_or_concat ins with rfl | ⟨before, i, rfl⟩
  · exact congrArg (· + 0) (place_counts (Nat.le_succ numSlots)).reset
  · rw [List.concat_eq_append] at kept ⊢
    rw [after_snoc]
    exact (throughout_snoc_iff.mp kept).2

theorem noReleaseLost_iff (ins : List AccessInputs) :
    NoReleaseLost numSlots ins ↔ ReleasesOneAhead numSlots ins := by
  induction ins using List.reverseRecOn with
  | nil =>
      have none (P : List AccessInputs → AccessInputs → Prop) : Throughout P [] := fun before x rest split => by
        simp at split
      exact ⟨fun _ => none _, fun _ => none _⟩
  | append_singleton ins i ih =>
      have step (kept : NoReleaseLost numSlots ins) := (inv_after ins).slotsKept_next_iff (slotsKept_after kept) i
      unfold NoReleaseLost at ih step ⊢
      unfold ReleasesOneAhead at ih ⊢
      rw [throughout_snoc_iff, throughout_snoc_iff, ← ih]
      exact and_congr_right step

/-- A request passed on needs an open slot and a request, one that waits or one of the cycle. -/
theorem regulatedReq_iff (ins : List AccessInputs) (i : AccessInputs) :
    ((after numSlots ins).regulator.outputs i).regulatedReq = true ↔ 0 < (after numSlots ins).regulator.slots ∧
      ((after numSlots ins).passedOn.length < (after numSlots ins).accepted.length ∨ i.req = true) := by
  have inv : (after numSlots ins).Inv := inv_after ins
  have requests := inv.accepted
  show AccessRegulator.regulatedReqJoin _ i = true ↔ _
  rw [regulatedReqJoin_iff, show 0 < (after numSlots ins).regulator.waiting ↔
    (after numSlots ins).passedOn.length < (after numSlots ins).accepted.length by omega]

end AccessLog

open AccessLog in
/-- After every run at most the slots and the releases seen have been passed on, the requests
that were accepted have been in their order, the next goes out as soon as a slot is open, and
no release is lost just when none comes more than one ahead of the requests passed on. -/
theorem accessRegulator_regulates (numSlots : Nat) (ins : List AccessInputs) :
    (after numSlots ins).passedOn.length ≤ numSlots + (after numSlots ins).releases ∧
      PassedInOrder (after numSlots ins).accepted (after numSlots ins).passedOn ∧
      (∀ i : AccessInputs, ((after numSlots ins).regulator.outputs i).regulatedReq = true ↔
        0 < (after numSlots ins).regulator.slots ∧
          ((after numSlots ins).passedOn.length < (after numSlots ins).accepted.length ∨ i.req = true)) ∧
      (NoReleaseLost numSlots ins ↔ ReleasesOneAhead numSlots ins) := by
  have inv : (after numSlots ins).Inv := inv_after ins
  exact ⟨(Nat.le_add_left _ _).trans inv.slots, inv.ordered, regulatedReq_iff ins, noReleaseLost_iff ins⟩

/-- Of two releases ahead of the first request one is lost: after them two requests go out,
and the third does not. -/
theorem not_noReleaseLost_two :
    let release : AccessInputs := ⟨false, false, true, false⟩
    let request : AccessInputs := ⟨true, false, false, false⟩
    ¬ AccessLog.NoReleaseLost 1 [release, release] ∧
      (AccessLog.after 1 [release, release, request, request, request]).passedOn = [2, 3] := by
  intro release request
  exact ⟨by decide, by decide⟩

end Ahir.Hardware
