import Ahir.Hardware.UnloadRevised

/-!
# Shared operators

`SplitOperatorShared` serves several requesters with one operator: `InputMuxWithBuffering`
before it chooses an operand among those that are in the receive buffers and adds the number
of its requester, and `OutputDeMuxBaseWithBuffering` behind it puts the result in the unload
buffer of that requester.
-/

set_option autoImplicit false

namespace Ahir.Hardware
open Ahir.Data Ahir.Run
variable {n iwidth owidth twidth : Nat}

/-! ### The multiplexor -/

structure InputMuxState (rxBuf : Fin n → Clocked (BitVec iwidth)) where
  rxBuf : (I : Fin n) → (rxBuf I).State
  reqInRegister : Fin n → Bool

structure InputMuxRequests (n iwidth : Nat) where
  reqL : Fin n → Bool
  dataL : Fin n → BitVec iwidth

namespace InputMuxWithBuffering
variable {rxBuf : Fin n → Clocked (BitVec iwidth)} (noArbitration : Bool) (s : InputMuxState rxBuf)
  (i : InputMuxRequests n iwidth)

def offered (I : Fin n) : Response (BitVec iwidth) :=
  (rxBuf I).buffer.respond (s.rxBuf I) { dataIn := i.dataL I, pushReq := i.reqL I, popReq := false }

def reqFromRx (I : Fin n) : Bool := (offered s i I).popAck

def reqFair : Fin n → Bool := NobodyLeftBehind.reqOut s.reqInRegister (reqFromRx s i)

def reqP : Fin n → Bool := if noArbitration then reqFair s i else priorityEncode (reqFair s i)

def reqR : Bool := decide (∃ I, reqP noArbitration s i I = true)

def dataR : BitVec iwidth :=
  ((List.finRange n).find? (reqP noArbitration s i)).elim 0 fun J => (offered s i J).dataOut

def tagR : BitVec twidth := binaryEncoder (reqP noArbitration s i)

def ackFair (ackR : Bool) (I : Fin n) : Bool := if ackR then reqP noArbitration s i I else false

def rxRequest (ackR : Bool) (I : Fin n) : Request (BitVec iwidth) where
  dataIn := i.dataL I
  pushReq := i.reqL I
  popReq := NobodyLeftBehind.ackOut (ackFair noArbitration s i ackR) I

def ackL (ackR : Bool) (I : Fin n) : Bool :=
  ((rxBuf I).buffer.respond (s.rxBuf I) (rxRequest noArbitration s i ackR I)).pushAck

def next (ackR : Bool) : InputMuxState rxBuf where
  rxBuf := fun I => (rxBuf I).buffer.next (s.rxBuf I) (rxRequest noArbitration s i ackR I)
  reqInRegister :=
    NobodyLeftBehind.nextRegister s.reqInRegister (reqFromRx s i) (ackFair noArbitration s i ackR)

def reset (ackR : Bool) : InputMuxState rxBuf where
  rxBuf := fun I => (rxBuf I).buffer.reset (s.rxBuf I) (rxRequest noArbitration s i ackR I)
  reqInRegister := fun _ => false

end InputMuxWithBuffering

/-! ### The demultiplexor -/

structure OutputDeMuxRequests (n owidth twidth : Nat) where
  reqL : Bool
  dataL : BitVec owidth
  tagL : BitVec twidth
  reqR : Fin n → Bool

namespace OutputDeMuxBaseWithBuffering
variable {ub : Fin n → Clocked (BitVec owidth)} (s : (I : Fin n) → (ub I).State)
  (i : OutputDeMuxRequests n owidth twidth)

def valid (I : Fin n) : Bool := i.reqL && decide (I.val = i.tagL.toNat)

def ubRequest (I : Fin n) : Request (BitVec owidth) where
  dataIn := i.dataL
  pushReq := valid i I
  popReq := i.reqR I

def ubResponse (I : Fin n) : Response (BitVec owidth) := (ub I).buffer.respond (s I) (ubRequest i I)

def ackLArray (I : Fin n) : Bool := if valid i I then (ubResponse s i I).pushAck else false

def ackL : Bool := decide (∃ I, ackLArray s i I = true)

def ackR (I : Fin n) : Bool := (ubResponse s i I).popAck

def dataR (I : Fin n) : BitVec owidth := (ubResponse s i I).dataOut

def next (I : Fin n) : (ub I).State := (ub I).buffer.next (s I) (ubRequest i I)

def reset (I : Fin n) : (ub I).State := (ub I).buffer.reset (s I) (ubRequest i I)

end OutputDeMuxBaseWithBuffering

/-! ### The operator -/

structure SharedState (rxBuf : Fin n → Clocked (BitVec iwidth)) (ub : Fin n → Clocked (BitVec owidth)) where
  imux : InputMuxState rxBuf
  odemux : (I : Fin n) → (ub I).State

structure SharedRequests (n iwidth : Nat) where
  reqL : Fin n → Bool
  dataL : Fin n → BitVec iwidth
  reqR : Fin n → Bool

def tagLength (numReqs : Nat) : Nat := max 1 (ceilLog2 numReqs)

namespace SplitOperatorShared
variable {rxBuf : Fin n → Clocked (BitVec iwidth)} {ub : Fin n → Clocked (BitVec owidth)} (noArbitration : Bool)
  (operate : BitVec iwidth → BitVec owidth) (s : SharedState rxBuf ub) (i : SharedRequests n iwidth)

def imuxRequests : InputMuxRequests n iwidth := ⟨i.reqL, i.dataL⟩

/-- Through `SplitOperatorBase` the request and the tag go as they are, the operand with the operator applied. -/
def odemuxRequests : OutputDeMuxRequests n owidth (tagLength n) where
  reqL := InputMuxWithBuffering.reqR noArbitration s.imux (imuxRequests i)
  dataL := operate (InputMuxWithBuffering.dataR noArbitration s.imux (imuxRequests i))
  tagL := InputMuxWithBuffering.tagR noArbitration s.imux (imuxRequests i)
  reqR := i.reqR

def oack : Bool := OutputDeMuxBaseWithBuffering.ackL s.odemux (odemuxRequests noArbitration operate s i)

def ackL : Fin n → Bool :=
  InputMuxWithBuffering.ackL noArbitration s.imux (imuxRequests i) (oack noArbitration operate s i)

def ackR : Fin n → Bool := OutputDeMuxBaseWithBuffering.ackR s.odemux (odemuxRequests noArbitration operate s i)

def dataR : Fin n → BitVec owidth :=
  OutputDeMuxBaseWithBuffering.dataR s.odemux (odemuxRequests noArbitration operate s i)

def next : SharedState rxBuf ub where
  imux := InputMuxWithBuffering.next noArbitration s.imux (imuxRequests i) (oack noArbitration operate s i)
  odemux := OutputDeMuxBaseWithBuffering.next s.odemux (odemuxRequests noArbitration operate s i)

def reset : SharedState rxBuf ub where
  imux := InputMuxWithBuffering.reset noArbitration s.imux (imuxRequests i) (oack noArbitration operate s i)
  odemux := OutputDeMuxBaseWithBuffering.reset s.odemux (odemuxRequests noArbitration operate s i)

/-! ### Runs -/

def nextPending (pending : Fin n → Option (BitVec iwidth)) (R : Fin n) : Option (BitVec iwidth) :=
  if ackL noArbitration operate s i R then none else if i.reqL R then some (i.dataL R) else pending R

def turn (s : SharedState rxBuf ub × (Fin n → Option (BitVec iwidth))) (i : SharedRequests n iwidth) :
    SharedState rxBuf ub × (Fin n → Option (BitVec iwidth)) :=
  (next noArbitration operate s.1 i, nextPending noArbitration operate s.1 i s.2)

/-- A requester gives no pulse, and keeps its operand, until it is acknowledged; and where there is no
arbitration, no two operands are there at once. -/
structure Obeys (s : SharedState rxBuf ub × (Fin n → Option (BitVec iwidth))) (i : SharedRequests n iwidth) : Prop where
  waits : ∀ R, ∀ x ∈ s.2 R, i.reqL R = false ∧ i.dataL R = x
  alone : noArbitration = true → ∀ I J, InputMuxWithBuffering.reqFromRx s.1.imux (imuxRequests i) I = true →
    InputMuxWithBuffering.reqFromRx s.1.imux (imuxRequests i) J = true → I = J

instance decidableObeys (s : SharedState rxBuf ub × (Fin n → Option (BitVec iwidth))) (i : SharedRequests n iwidth) :
    Decidable (Obeys noArbitration s i) :=
  decidable_of_iff ((∀ R, ∀ x ∈ s.2 R, i.reqL R = false ∧ i.dataL R = x) ∧
    (noArbitration = true → ∀ I J, InputMuxWithBuffering.reqFromRx s.1.imux (imuxRequests i) I = true →
      InputMuxWithBuffering.reqFromRx s.1.imux (imuxRequests i) J = true → I = J))
    ⟨fun both => ⟨both.1, both.2⟩, fun obeys => ⟨obeys.waits, obeys.alone⟩⟩

/-- The operands for which `R` gives a pulse. -/
def requested (R : Fin n) (i : SharedRequests n iwidth) : List (BitVec iwidth) := if i.reqL R then [i.dataL R] else []

/-- The operands of `R` that are acknowledged. -/
def acknowledged (R : Fin n) (s : SharedState rxBuf ub) (i : SharedRequests n iwidth) : List (BitVec iwidth) :=
  if ackL noArbitration operate s i R then [i.dataL R] else []

/-- The results that come to `R` with an acknowledge. -/
def delivered (R : Fin n) (s : SharedState rxBuf ub) (i : SharedRequests n iwidth) : List (BitVec owidth) :=
  if ackR noArbitration operate s i R then [dataR noArbitration operate s i R] else []

end SplitOperatorShared

/-! ### The operand that is chosen -/

theorem find?_finRange_eq (K : Fin n) : (List.finRange n).find? (fun J => decide (J = K)) = some K := by
  cases found : (List.finRange n).find? (fun J => decide (J = K)) with
  | none => exact absurd (decide_eq_true rfl) (List.find?_eq_none.mp found K (List.mem_finRange K))
  | some J => rw [of_decide_eq_true (List.find?_some (p := fun J => decide (J = K)) found)]

theorem cases_of_alone {x : Fin n → Bool} (alone : ∀ I J, x I = true → x J = true → I = J) :
    (∃ K, x K = true ∧ x = fun I => decide (I = K)) ∨ ((∀ I, x I = false) ∧ x = fun _ => false) := by
  by_cases some : ∃ K, x K = true
  · obtain ⟨K, isK⟩ := some
    refine Or.inl ⟨K, isK, funext fun I => ?_⟩
    rw [Bool.eq_iff_iff, decide_eq_true_iff]
    constructor
    · intro isI
      exact alone I K isI isK
    · rintro rfl
      exact isK
  · have none (I : Fin n) : x I = false := Bool.eq_false_iff.mpr fun isI => some ⟨I, isI⟩
    exact Or.inr ⟨none, funext none⟩

theorem le_two_pow_tagLength (numReqs : Nat) : numReqs ≤ 2 ^ tagLength numReqs :=
  (le_two_pow_ceilLog2 numReqs).trans (Nat.pow_le_pow_right Nat.two_pos (Nat.le_max_right 1 _))

namespace InputMuxWithBuffering
variable {rxBuf : Fin n → Clocked (BitVec iwidth)} {noArbitration : Bool} {s : InputMuxState rxBuf}
  {i : InputMuxRequests n iwidth}

theorem reqFromRx_of_reqFair (latched : n ≠ 1 → ∀ I, s.reqInRegister I = true → reqFromRx s i I = true) {I : Fin n}
    (fair : reqFair s i I = true) : reqFromRx s i I = true := by
  unfold reqFair NobodyLeftBehind.reqOut at fair
  split_ifs at fair with single
  · exact fair
  · exact latched single I fair
  · exact fair

theorem reqFromRx_of_idle (idle : ∀ I, reqFair s i I = false) (I : Fin n) : reqFromRx s i I = false := by
  have unfair := idle I
  unfold reqFair NobodyLeftBehind.reqOut at unfair idle
  split_ifs at unfair idle with single left
  · exact unfair
  · obtain ⟨J, isLeft⟩ := left
    exact absurd isLeft (Bool.eq_false_iff.mp (idle J))
  · exact unfair

theorem reqP_cases (latched : n ≠ 1 → ∀ I, s.reqInRegister I = true → reqFromRx s i I = true)
    (alone : noArbitration = true → ∀ I J, reqFromRx s i I = true → reqFromRx s i J = true → I = J) :
    (∃ K, reqFromRx s i K = true ∧ reqP noArbitration s i = fun I => decide (I = K)) ∨
      ((∀ I, reqFromRx s i I = false) ∧ reqP noArbitration s i = fun _ => false) := by
  have fair : (∃ K, reqFair s i K = true ∧ reqP noArbitration s i = fun I => decide (I = K)) ∨
      ((∀ I, reqFair s i I = false) ∧ reqP noArbitration s i = fun _ => false) := by
    unfold reqP
    cases arbitration : noArbitration with
    | false =>
        rw [if_neg Bool.false_ne_true]
        exact priorityEncode_cases (reqFair s i)
    | true =>
        rw [if_pos rfl]
        exact cases_of_alone fun I J fairI fairJ =>
          alone arbitration I J (reqFromRx_of_reqFair latched fairI) (reqFromRx_of_reqFair latched fairJ)
  rcases fair with ⟨K, fair, only⟩ | ⟨idle, none⟩
  · exact Or.inl ⟨K, reqFromRx_of_reqFair latched fair, only⟩
  · exact Or.inr ⟨fun I => reqFromRx_of_idle idle I, none⟩

theorem reqR_of_chosen {K : Fin n} (chosen : reqP noArbitration s i = fun I => decide (I = K)) :
    reqR noArbitration s i = true := by
  rw [reqR, chosen]
  exact decide_eq_true ⟨K, decide_eq_true rfl⟩

theorem dataR_of_chosen {K : Fin n} (chosen : reqP noArbitration s i = fun I => decide (I = K)) :
    dataR noArbitration s i = (offered s i K).dataOut := by
  rw [dataR, chosen, find?_finRange_eq, Option.elim_some]

theorem tagR_of_chosen {K : Fin n} (chosen : reqP noArbitration s i = fun I => decide (I = K)) :
    (tagR noArbitration s i : BitVec (tagLength n)).toNat = K.val := by
  rw [tagR, chosen, binaryEncoder_one (le_two_pow_tagLength n), BitVec.toNat_ofNat]
  exact Nat.mod_eq_of_lt (K.isLt.trans_le (le_two_pow_tagLength n))

end InputMuxWithBuffering

namespace SplitOperatorShared
open InputMuxWithBuffering OutputDeMuxBaseWithBuffering
variable {rxBuf : Fin n → Clocked (BitVec iwidth)} {ub : Fin n → Clocked (BitVec owidth)} {noArbitration : Bool}
  {operate : BitVec iwidth → BitVec owidth} {s : SharedState rxBuf ub} {i : SharedRequests n iwidth}

theorem valid_of_chosen {K : Fin n} (chosen : reqP noArbitration s.imux (imuxRequests i) = fun I => decide (I = K))
    (I : Fin n) : valid (odemuxRequests noArbitration operate s i) I = decide (I = K) := by
  have number : (odemuxRequests noArbitration operate s i).tagL.toNat = K.val := tagR_of_chosen chosen
  have req : (odemuxRequests noArbitration operate s i).reqL = true := reqR_of_chosen chosen
  rw [valid, req, Bool.true_and, number]
  exact decide_eq_decide.mpr Fin.ext_iff.symm

theorem valid_of_none (none : reqP noArbitration s.imux (imuxRequests i) = fun _ => false) (I : Fin n) :
    valid (odemuxRequests noArbitration operate s i) I = false := by
  have req : (odemuxRequests noArbitration operate s i).reqL = false := by
    show reqR noArbitration s.imux (imuxRequests i) = false
    rw [reqR, none]
    simp
  rw [valid, req, Bool.false_and]

theorem oack_of_chosen {K : Fin n} (chosen : reqP noArbitration s.imux (imuxRequests i) = fun I => decide (I = K)) :
    oack noArbitration operate s i = (ubResponse s.odemux (odemuxRequests noArbitration operate s i) K).pushAck := by
  have array (I : Fin n) : ackLArray s.odemux (odemuxRequests noArbitration operate s i) I =
      (decide (I = K) && (ubResponse s.odemux (odemuxRequests noArbitration operate s i) K).pushAck) := by
    rw [ackLArray, valid_of_chosen chosen]
    by_cases same : I = K
    · simp [same]
    · simp [same]
  rw [oack, OutputDeMuxBaseWithBuffering.ackL]
  simp only [array]
  simp

/-- What leaves the receive buffer of a requester goes to its unload buffer, with the operator applied. -/
theorem moved {R : Fin n} {capacity : Nat}
    {holds : (rxBuf R).State → Option (BitVec iwidth) → List (BitVec iwidth) → Prop}
    (receives : (rxBuf R).buffer.Receives capacity holds)
    (cases : (∃ K, reqFromRx s.imux (imuxRequests i) K = true ∧
      reqP noArbitration s.imux (imuxRequests i) = fun I => decide (I = K)) ∨
        ((∀ I, reqFromRx s.imux (imuxRequests i) I = false) ∧
          reqP noArbitration s.imux (imuxRequests i) = fun _ => false)) :
    ((rxBuf R).buffer.popped (s.imux.rxBuf R) (rxRequest noArbitration s.imux (imuxRequests i)
        (oack noArbitration operate s i) R)).toList.map operate =
      ((ub R).buffer.pushed (s.odemux R) (ubRequest (odemuxRequests noArbitration operate s i) R)).toList := by
  have popped : (rxBuf R).buffer.popped (s.imux.rxBuf R) (rxRequest noArbitration s.imux (imuxRequests i)
      (oack noArbitration operate s i) R) =
      if ackFair noArbitration s.imux (imuxRequests i) (oack noArbitration operate s i) R &&
        (offered s.imux (imuxRequests i) R).popAck then some (offered s.imux (imuxRequests i) R).dataOut else none := by
    rw [Buffer.popped, ← receives.popAck _ _ false, ← receives.dataOut _ _ false]
    rfl
  have pushed : (ub R).buffer.pushed (s.odemux R) (ubRequest (odemuxRequests noArbitration operate s i) R) =
      if valid (odemuxRequests noArbitration operate s i) R &&
        (ubResponse s.odemux (odemuxRequests noArbitration operate s i) R).pushAck then
          some (operate (InputMuxWithBuffering.dataR noArbitration s.imux (imuxRequests i))) else none := rfl
  rw [popped, pushed]
  rcases cases with ⟨K, there, chosen⟩ | ⟨-, none⟩
  · rw [valid_of_chosen chosen, oack_of_chosen chosen, dataR_of_chosen chosen, ackFair, chosen]
    by_cases same : R = K
    · subst same
      have offers : (offered s.imux (imuxRequests i) R).popAck = true := there
      rw [offers]
      cases (ubResponse s.odemux (odemuxRequests noArbitration operate s i) R).pushAck <;> simp
    · simp [same]
  · rw [valid_of_none none, ackFair, none]
    simp

/-! ### What a shared operator holds -/

variable {holdsRx : (I : Fin n) → (rxBuf I).State → Option (BitVec iwidth) → List (BitVec iwidth) → Prop}
  {holdsUb : (I : Fin n) → (ub I).State → List (BitVec owidth) → Prop}

structure Consistent (holdsRx : (I : Fin n) → (rxBuf I).State → Option (BitVec iwidth) → List (BitVec iwidth) → Prop)
    (holdsUb : (I : Fin n) → (ub I).State → List (BitVec owidth) → Prop)
    (s : SharedState rxBuf ub × (Fin n → Option (BitVec iwidth))) : Prop where
  operands : ∀ I, ∃ q, holdsRx I (s.1.imux.rxBuf I) (s.2 I) q
  results : ∀ I, ∃ q, holdsUb I (s.1.odemux I) q
  latched : n ≠ 1 → ∀ I, s.1.imux.reqInRegister I = true →
    ∀ r, ((rxBuf I).buffer.respond (s.1.imux.rxBuf I) r).popAck = true

/-- The results of `R` that are still to be delivered. -/
def Holds (operate : BitVec iwidth → BitVec owidth)
    (holdsRx : (I : Fin n) → (rxBuf I).State → Option (BitVec iwidth) → List (BitVec iwidth) → Prop)
    (holdsUb : (I : Fin n) → (ub I).State → List (BitVec owidth) → Prop) (R : Fin n)
    (s : SharedState rxBuf ub × (Fin n → Option (BitVec iwidth))) (q : List (BitVec owidth)) : Prop :=
  Consistent holdsRx holdsUb s ∧ ∃ operands results, holdsRx R (s.1.imux.rxBuf R) (s.2 R) operands ∧
    holdsUb R (s.1.odemux R) results ∧ q = results ++ operands.map operate

theorem presented_of_left
    (latched : n ≠ 1 → ∀ I, s.imux.reqInRegister I = true → reqFromRx s.imux (imuxRequests i) I = true)
    (several : n ≠ 1) {I : Fin n} (left : (next noArbitration operate s i).imux.reqInRegister I = true) :
    reqFromRx s.imux (imuxRequests i) I = true ∧
      ackFair noArbitration s.imux (imuxRequests i) (oack noArbitration operate s i) I = false :=
  NobodyLeftBehind.asked_of_left several (latched several I) left

section Runs
variable {inputs outputs : Fin n → Nat} (receives : ∀ I, (rxBuf I).buffer.Receives (inputs I) (holdsRx I))
  (unloads : ∀ I, (ub I).buffer.Unloads (outputs I) (holdsUb I))
include receives unloads

theorem Consistent.turn {s : SharedState rxBuf ub × (Fin n → Option (BitVec iwidth))}
    (consistent : Consistent holdsRx holdsUb s) (obeys : Obeys noArbitration s i) :
    Consistent holdsRx holdsUb (turn noArbitration operate s i) := by
  refine ⟨fun I => ?_, fun I => ?_, fun several I left r => ?_⟩
  · obtain ⟨q, held⟩ := consistent.operands I
    obtain ⟨q', held', -⟩ := (receives I).step (s.1.imux.rxBuf I)
      (rxRequest noArbitration s.1.imux (imuxRequests i) (oack noArbitration operate s.1 i) I) (s.2 I) q held
      (obeys.waits I)
    exact ⟨q', held'⟩
  · obtain ⟨q, held⟩ := consistent.results I
    obtain ⟨q', held', -⟩ := (unloads I).step (s.1.odemux I)
      (ubRequest (odemuxRequests noArbitration operate s.1 i) I) q held
    exact ⟨q', held'⟩
  · obtain ⟨there, stays⟩ := presented_of_left (fun several I left => consistent.latched several I left _) several left
    refine (receives I).keeps (s.1.imux.rxBuf I)
      (rxRequest noArbitration s.1.imux (imuxRequests i) (oack noArbitration operate s.1 i) I) r ?_ stays
    rw [← (receives I).popAck _ _ false]
    exact there

theorem conserves (R : Fin n) : Conserves (turn noArbitration operate) (Obeys noArbitration)
    (fun _ i => (requested R i).map operate) (fun s i => delivered noArbitration operate R s.1 i)
    (Holds operate holdsRx holdsUb R) := by
  refine ⟨?_⟩
  rintro s i q ⟨consistent, operands, results, heldRx, heldUb, rfl⟩ obeys
  have latched : n ≠ 1 → ∀ I, s.1.imux.reqInRegister I = true → reqFromRx s.1.imux (imuxRequests i) I = true :=
    fun several I left => consistent.latched several I left _
  obtain ⟨operands', heldRx', lawRx⟩ := (receives R).step (s.1.imux.rxBuf R)
    (rxRequest noArbitration s.1.imux (imuxRequests i) (oack noArbitration operate s.1 i) R) (s.2 R) operands heldRx
    (obeys.waits R)
  obtain ⟨results', heldUb', lawUb⟩ := (unloads R).step (s.1.odemux R)
    (ubRequest (odemuxRequests noArbitration operate s.1 i) R) results heldUb
  rw [← moved (receives R) (reqP_cases latched obeys.alone)] at lawUb
  refine ⟨results' ++ operands'.map operate,
    ⟨consistent.turn receives unloads obeys, operands', results', heldRx', heldUb', rfl⟩, ?_⟩
  calc results ++ operands.map operate ++ (requested R i).map operate
      = results ++ (operands ++ requested R i).map operate := by rw [List.append_assoc, List.map_append]
    _ = results ++ ((rxBuf R).buffer.popped (s.1.imux.rxBuf R) (rxRequest noArbitration s.1.imux (imuxRequests i)
          (oack noArbitration operate s.1 i) R)).toList.map operate ++ operands'.map operate := by
        rw [List.append_assoc, ← List.map_append]
        exact congrArg (fun words => results ++ words.map operate) lawRx
    _ = delivered noArbitration operate R s.1 i ++ (results' ++ operands'.map operate) := by
        rw [lawUb, List.append_assoc]
        rfl

theorem acknowledges (R : Fin n) : Conserves (turn noArbitration operate) (Obeys noArbitration)
    (fun _ i => requested R i) (fun s i => acknowledged noArbitration operate R s.1 i)
    (fun s q => Consistent holdsRx holdsUb s ∧ q = (s.2 R).toList) := by
  refine ⟨?_⟩
  rintro s i q ⟨consistent, rfl⟩ obeys
  obtain ⟨words, held⟩ := consistent.operands R
  exact ⟨_, ⟨consistent.turn receives unloads obeys, rfl⟩, (receives R).answers (s.1.imux.rxBuf R)
    (rxRequest noArbitration s.1.imux (imuxRequests i) (oack noArbitration operate s.1 i) R) (s.2 R) words held
    (obeys.waits R)⟩

end Runs

end SplitOperatorShared

/-! ### The generics -/

structure SharedGenerics (numReqs : Nat) where
  noArbitration : Bool := false
  fullRate : Bool := false
  detailedBufferingPerInput : Fin numReqs → Nat
  detailedBufferingPerOutput : Fin numReqs → Nat

namespace SharedGenerics

def rxBuf (g : SharedGenerics n) (collide : BitVec iwidth) (I : Fin n) : Clocked (BitVec iwidth) :=
  receiveBuffer collide (g.detailedBufferingPerInput I) g.fullRate

def ub (g : SharedGenerics n) (collide : BitVec owidth) (I : Fin n) : Clocked (BitVec owidth) :=
  unloadBuffer collide { bufferSize := g.detailedBufferingPerOutput I }

theorem rxBuf_receives (g : SharedGenerics n) (collide : BitVec iwidth) (I : Fin n) :
    ∃ holds, (g.rxBuf collide I).buffer.Receives (g.detailedBufferingPerInput I + 2) holds :=
  receiveBuffer_receives collide (g.detailedBufferingPerInput I) g.fullRate

theorem ub_unloads (g : SharedGenerics n) (collide : BitVec owidth) (I : Fin n) :
    ∃ holds, (g.ub collide I).buffer.Unloads (g.detailedBufferingPerOutput I + 2) holds :=
  unloadBuffer_unloads collide rfl

end SharedGenerics

section Generics
open SplitOperatorShared
variable (g : SharedGenerics n) (collideIn : BitVec iwidth) (collideOut : BitVec owidth)
  (operate : BitVec iwidth → BitVec owidth) (s : SharedState (g.rxBuf collideIn) (g.ub collideOut))
  (i : SharedRequests n iwidth)

/-- The state after the reset, in which nothing is pending. -/
def SharedGenerics.first : SharedState (g.rxBuf collideIn) (g.ub collideOut) × (Fin n → Option (BitVec iwidth)) :=
  (reset g.noArbitration operate s i, fun _ => none)

/-- Between the requests and the deliveries of a requester are the operands in its receive buffer and the
results in its unload buffer; and what it has requested is acknowledged, or pending. -/
theorem SharedGenerics.run_law {is : List (SharedRequests n iwidth)}
    (obeys : Allowed (turn g.noArbitration operate) (Obeys g.noArbitration)
      (g.first collideIn collideOut operate s i) is)
    (R : Fin n) :
    (∃ (operands : List (BitVec iwidth)) (results : List (BitVec owidth)),
      operands.length ≤ g.detailedBufferingPerInput R + 2 ∧
      results.length ≤ g.detailedBufferingPerOutput R + 2 ∧
      (is.flatMap (requested R)).map operate = collect (turn g.noArbitration operate)
        (fun s i => delivered g.noArbitration operate R s.1 i) (g.first collideIn collideOut operate s i) is ++
          (results ++ operands.map operate)) ∧
      is.flatMap (requested R) = collect (turn g.noArbitration operate)
        (fun s i => acknowledged g.noArbitration operate R s.1 i) (g.first collideIn collideOut operate s i) is ++
          ((is.foldl (turn g.noArbitration operate) (g.first collideIn collideOut operate s i)).2 R).toList := by
  choose holdsRx receives using g.rxBuf_receives collideIn
  choose holdsUb unloads using g.ub_unloads collideOut
  have empty (I : Fin n) : holdsRx I ((g.first collideIn collideOut operate s i).1.imux.rxBuf I) none [] :=
    (receives I).reset _ _
  have emptyUb (I : Fin n) : holdsUb I ((g.first collideIn collideOut operate s i).1.odemux I) [] :=
    (unloads I).reset _ _
  have consistent : Consistent holdsRx holdsUb (g.first collideIn collideOut operate s i) :=
    ⟨fun I => ⟨[], empty I⟩, fun I => ⟨[], emptyUb I⟩, fun _ _ left => absurd left Bool.false_ne_true⟩
  constructor
  · obtain ⟨_, ⟨-, operands, results, heldRx, heldUb, rfl⟩, law⟩ :=
      (conserves receives unloads R).run is (g.first collideIn collideOut operate s i) []
        ⟨consistent, [], [], empty R, emptyUb R, rfl⟩ obeys
    have inputs := collect_of_inputs (turn g.noArbitration operate) (fun i => (requested R i).map operate)
      (g.first collideIn collideOut operate s i) is
    rw [inputs, List.nil_append] at law
    refine ⟨operands, results, (receives R).bounded _ _ _ heldRx, (unloads R).bounded _ _ heldUb, ?_⟩
    rw [List.map_flatMap]
    exact law
  · obtain ⟨_, ⟨-, rfl⟩, law⟩ :=
      (acknowledges receives unloads R).run is (g.first collideIn collideOut operate s i) [] ⟨consistent, rfl⟩ obeys
    have inputs := collect_of_inputs (turn g.noArbitration operate) (requested R)
      (g.first collideIn collideOut operate s i) is
    rw [inputs, List.nil_append] at law
    exact law

/-- From the reset on, in every run, what is delivered to a requester are the results of its operands, in the
order in which it has given them, whatever the other requesters do; the last of them are still to come.  Each
operand is acknowledged once, but for the one that is pending. -/
theorem splitOperatorShared_computes (is : List (SharedRequests n iwidth))
    (obeys : Allowed (turn g.noArbitration operate) (Obeys g.noArbitration)
      (g.first collideIn collideOut operate s i) is)
    (R : Fin n) :
    (∃ coming : List (BitVec owidth),
      coming.length ≤ g.detailedBufferingPerInput R + g.detailedBufferingPerOutput R + 4 ∧
      (is.flatMap (requested R)).map operate = collect (turn g.noArbitration operate)
        (fun s i => delivered g.noArbitration operate R s.1 i) (g.first collideIn collideOut operate s i) is ++
          coming) ∧
      is.flatMap (requested R) = collect (turn g.noArbitration operate)
        (fun s i => acknowledged g.noArbitration operate R s.1 i) (g.first collideIn collideOut operate s i) is ++
          ((is.foldl (turn g.noArbitration operate) (g.first collideIn collideOut operate s i)).2 R).toList := by
  obtain ⟨⟨operands, results, input, output, law⟩, answered⟩ := g.run_law collideIn collideOut operate s i obeys R
  refine ⟨⟨results ++ operands.map operate, ?_, law⟩, answered⟩
  rw [List.length_append, List.length_map]
  omega

end Generics

open SplitOperatorShared in
/-- Two requesters give an operand in the same cycle. -/
theorem splitOperatorShared_computes_two :
    let g : SharedGenerics 2 := { detailedBufferingPerInput := fun _ => 1, detailedBufferingPerOutput := fun _ => 1 }
    let increment : BitVec 8 → BitVec 8 := fun x => x + 1
    let s : SharedState (g.rxBuf (0 : BitVec 8)) (g.ub (0 : BitVec 8)) :=
      { imux := { rxBuf := fun _ => ⟨(⟨false, 0⟩ : SlotState 8), .idle⟩, reqInRegister := fun _ => false }
        odemux := fun _ => ⟨(), (⟨.idle, false, 0⟩ : UnloadRegister 8)⟩ }
    let both : SharedRequests 2 8 := ⟨fun _ => true, fun I => if I = 0 then 10 else 20, fun _ => true⟩
    let none : SharedRequests 2 8 := ⟨fun _ => false, fun _ => 0, fun _ => false⟩
    let is := [both, none, none, none]
    collect (turn false increment) (fun s i => delivered false increment 1 s.1 i)
        (g.first 0 0 increment s both) is = [21] ∧
      (∃ coming : List (BitVec 8), coming.length ≤ 6 ∧ (is.flatMap (requested 0)).map increment =
        collect (turn false increment) (fun s i => delivered false increment 0 s.1 i)
          (g.first 0 0 increment s both) is ++ coming) ∧
      is.flatMap (requested 0) = collect (turn false increment) (fun s i => acknowledged false increment 0 s.1 i)
        (g.first 0 0 increment s both) is ++
          ((is.foldl (turn false increment) (g.first 0 0 increment s both)).2 0).toList := by
  intro g increment s both none is
  exact ⟨by decide +kernel, splitOperatorShared_computes g 0 0 increment s both is (by decide +kernel) 0⟩

end Ahir.Hardware
