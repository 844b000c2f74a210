import Ahir.Hardware.SplitOperatorShared

/-!
# Ports of pipes

`OutputPortRevised` has the words of several operators in receive buffers and offers
them to a pipe one by one; `InputPortRevised` asks the pipe for words as long as there
is an operator that waits for one, and hands them over through unload registers.
-/

set_option autoImplicit false

namespace Ahir.Hardware
open Ahir.Data Ahir.Run UnloadBuffer
variable {n w : Nat}

theorem flatMap_chosen {α : Type} {K : Fin n} (f : Fin n → List α) (others : ∀ I, I ≠ K → f I = []) :
    (List.finRange n).flatMap f = f K := by
  have general : ∀ order : List (Fin n), order.Nodup → order.flatMap f = if K ∈ order then f K else [] := by
    intro order
    induction order with
    | nil => simp
    | cons I order ih =>
        intro nodup
        obtain ⟨fresh, nodup⟩ := List.nodup_cons.mp nodup
        rw [List.flatMap_cons, ih nodup]
        by_cases same : I = K
        · subst same
          simp [fresh]
        · have other : K ≠ I := fun equal => same equal.symm
          simp [others I same, other]
  rw [general _ (List.nodup_finRange n), if_pos (List.mem_finRange K)]

/-! ### Output ports -/

namespace OutputPortRevised
open InputMuxWithBuffering
variable {rxB : Fin n → Clocked (BitVec w)} (noArbitration : Bool) (s : InputMuxState rxB) (i : InputMuxRequests n w)

/-- The receive buffers and the register of the mux are those of a multiplexor with buffering. -/
def muxInputs (oack : Bool) : PortInputs n w where
  req := reqFromRx s i
  data := fun I => (offered s i I).dataOut
  oack := oack

def mux (oack : Bool) : PortOutputs n w := OutputPortLevel.outputs noArbitration s.reqInRegister (muxInputs s i oack)

def oreq : Bool := (mux noArbitration s i false).oreq

def odata : BitVec w := (mux noArbitration s i false).odata

def rxRequest (oack : Bool) (I : Fin n) : Request (BitVec w) where
  dataIn := i.dataL I
  pushReq := i.reqL I
  popReq := (mux noArbitration s i oack).ack I

def sampleAck (oack : Bool) (I : Fin n) : Bool :=
  ((rxB I).buffer.respond (s.rxBuf I) (rxRequest noArbitration s i oack I)).pushAck

def next (oack : Bool) : InputMuxState rxB where
  rxBuf := fun I => (rxB I).buffer.next (s.rxBuf I) (rxRequest noArbitration s i oack I)
  reqInRegister := OutputPortLevel.next noArbitration s.reqInRegister (muxInputs s i oack)

def reset (oack : Bool) : InputMuxState rxB where
  rxBuf := fun I => (rxB I).buffer.reset (s.rxBuf I) (rxRequest noArbitration s i oack I)
  reqInRegister := fun _ => false

/-- The word of `I` that leaves its receive buffer. -/
def sentBy (oack : Bool) (I : Fin n) : List (BitVec w) :=
  ((rxB I).buffer.popped (s.rxBuf I) (rxRequest noArbitration s i oack I)).toList

variable {noArbitration s i}

theorem reqActive_eq (oack : Bool) :
    OutputPortLevel.reqActive noArbitration s.reqInRegister (muxInputs s i oack) = reqP noArbitration s i := rfl

theorem mux_of_chosen {K : Fin n} (chosen : reqP noArbitration s i = fun I => decide (I = K)) (oack : Bool) :
    (mux noArbitration s i oack).oreq = true ∧ (mux noArbitration s i oack).odata = (offered s i K).dataOut ∧
      ∀ I, (mux noArbitration s i oack).ack I = (decide (I = K) && oack) := by
  have active : OutputPortLevel.reqActive noArbitration s.reqInRegister (muxInputs s i oack) =
      fun I => decide (I = K) := chosen
  by_cases single : n = 1
  · subst single
    have only (I : Fin 1) : I = K := Subsingleton.elim I K
    refine ⟨?_, ?_, fun I => ?_⟩
    · rw [mux, OutputPortLevel.outputs, active]
      exact decide_eq_true ⟨K, decide_eq_true rfl⟩
    · simp [mux, OutputPortLevel.outputs, OutputPortLevel.dataArray, muxInputs, List.finRange_succ, only 0]
    · simp [mux, OutputPortLevel.outputs, OutputPortLevel.ackSig, NobodyLeftBehind.ackOut, muxInputs, only I]
  · have data : OutputPortLevel.dataArray noArbitration s.reqInRegister (muxInputs s i oack) =
        fun I => if decide (I = K) then (offered s i I).dataOut else 0 := by
      funext I
      rw [OutputPortLevel.dataArray, if_neg single, active]
      rfl
    refine ⟨?_, ?_, fun I => ?_⟩
    · rw [mux, OutputPortLevel.outputs, active]
      exact decide_eq_true ⟨K, decide_eq_true rfl⟩
    · rw [mux, OutputPortLevel.outputs, data]
      exact PipeBase.foldl_or_one fun I => (offered s i I).dataOut
    · show OutputPortLevel.ackSig noArbitration s.reqInRegister (muxInputs s i oack) I = _
      rw [OutputPortLevel.ackSig, if_neg single, active]
      rfl

theorem oreq_of_none (none : reqP noArbitration s i = fun _ => false) : oreq noArbitration s i = false := by
  rw [oreq, mux, OutputPortLevel.outputs, reqActive_eq, none]
  simp

/-- `Standing s`: some operator has a word at the port, whatever comes in. -/
def Standing (s : InputMuxState rxB) : Prop := ∃ I, ∀ r, ((rxB I).buffer.respond (s.rxBuf I) r).popAck = true

section Port
variable {capacity : Fin n → Nat} {holds : (I : Fin n) → (rxB I).State → Option (BitVec w) → List (BitVec w) → Prop}
  (receives : ∀ I, (rxB I).buffer.Receives (capacity I) (holds I))
  (latched : n ≠ 1 → ∀ I, s.reqInRegister I = true → reqFromRx s i I = true)
  (alone : noArbitration = true → ∀ I J, reqFromRx s i I = true → reqFromRx s i J = true → I = J)
include receives latched alone

/-- The port gives its word to the pipe when it is acknowledged, and nothing else leaves the buffers. -/
theorem sent_eq (oack : Bool) : (List.finRange n).flatMap (sentBy noArbitration s i oack) =
    if oreq noArbitration s i && oack then [odata noArbitration s i] else [] := by
  have popped (I : Fin n) : sentBy noArbitration s i oack I =
      if (mux noArbitration s i oack).ack I && reqFromRx s i I then [(offered s i I).dataOut] else [] := by
    rw [sentBy, Buffer.popped, ← (receives I).popAck _ _ false, ← (receives I).dataOut _ _ false]
    show (if (mux noArbitration s i oack).ack I && reqFromRx s i I then some _ else none).toList = _
    cases (mux noArbitration s i oack).ack I && reqFromRx s i I <;> rfl
  rcases reqP_cases latched alone with ⟨K, there, chosen⟩ | ⟨idle, none⟩
  · obtain ⟨-, -, acks⟩ := mux_of_chosen chosen oack
    obtain ⟨asks, word, -⟩ := mux_of_chosen chosen false
    rw [flatMap_chosen _ fun I other => by rw [popped, acks, decide_eq_false other]; rfl, popped, acks, there, oreq,
      odata, asks, word]
    simp
  · rw [oreq_of_none none, List.flatMap_eq_nil_iff.mpr fun I _ => by rw [popped, idle, Bool.and_false]; rfl]
    rfl

omit receives in
theorem oreq_of_standing (standing : Standing s) : oreq noArbitration s i = true := by
  rcases reqP_cases latched alone with ⟨K, -, chosen⟩ | ⟨idle, -⟩
  · exact (mux_of_chosen chosen false).1
  · obtain ⟨I, there⟩ := standing
    exact absurd (there _) (Bool.eq_false_iff.mp (idle I))

theorem Standing.next (asks : oreq noArbitration s i = true) : Standing (next noArbitration s i false) := by
  rcases reqP_cases latched alone with ⟨K, there, chosen⟩ | ⟨-, none⟩
  · refine ⟨K, fun r => ?_⟩
    refine (receives K).keeps (s.rxBuf K) (rxRequest noArbitration s i false K) r ?_ ?_
    · rw [← (receives K).popAck _ _ false]
      exact there
    · exact ((mux_of_chosen chosen false).2.2 K).trans (Bool.and_false _)
  · rw [oreq_of_none none] at asks
    cases asks

omit alone in
theorem left_next {oack : Bool} (several : n ≠ 1) {I : Fin n}
    (left : (OutputPortRevised.next noArbitration s i oack).reqInRegister I = true) (r : Request (BitVec w)) :
    ((rxB I).buffer.respond ((OutputPortRevised.next noArbitration s i oack).rxBuf I) r).popAck = true := by
  have both : reqFromRx s i I = true ∧ (mux noArbitration s i oack).ack I = false :=
    NobodyLeftBehind.asked_of_left several (latched several I) left
  refine (receives I).keeps (s.rxBuf I) (rxRequest noArbitration s i oack I) r ?_ both.2
  rw [← (receives I).popAck _ _ false]
  exact both.1

end Port

end OutputPortRevised

/-! ### Input ports -/

namespace InputPortRevised

def ulReg (n : Nat) (nonblockingReadFlag : Bool) : ClockedControl w :=
  unloadRegister (decide (n = 1)) nonblockingReadFlag

variable {nonblockingReadFlag : Bool} (noArbitration : Bool)
  (s : Fin n → (ulReg n nonblockingReadFlag : ClockedControl w).Registers) (updateReq : Fin n → Bool)

/-- The acknowledge of a register does not depend on the word that is offered. -/
def hasRoom (I : Fin n) : Bool :=
  ((ulReg n nonblockingReadFlag : ClockedControl w).control.out (s I)
    { writeReq := false, unloadReq := updateReq I, dataIn := 0 }).writeAck

def reqActive : Fin n → Bool := if noArbitration then hasRoom s updateReq else priorityEncode (hasRoom s updateReq)

def oreq : Bool := decide (∃ I, reqActive noArbitration s updateReq I = true)

def writeEnable (oack : Bool) (I : Fin n) : Bool :=
  if n = 1 then oack else reqActive noArbitration s updateReq I && oack

def ulInput (oack : Bool) (odata : BitVec w) (I : Fin n) : FsmInput w where
  writeReq := writeEnable noArbitration s updateReq oack I
  unloadReq := updateReq I
  dataIn := odata

def output (oack : Bool) (odata : BitVec w) (I : Fin n) : FsmOutput w :=
  (ulReg n nonblockingReadFlag : ClockedControl w).control.out (s I) (ulInput noArbitration s updateReq oack odata I)

def updateAck (oack : Bool) (odata : BitVec w) (I : Fin n) : Bool :=
  (output noArbitration s updateReq oack odata I).unloadAck

def data (oack : Bool) (odata : BitVec w) (I : Fin n) : BitVec w :=
  (output noArbitration s updateReq oack odata I).dataOut

def next (oack : Bool) (odata : BitVec w) (I : Fin n) : (ulReg n nonblockingReadFlag : ClockedControl w).Registers :=
  (ulReg n nonblockingReadFlag : ClockedControl w).control.next (s I)
    (ulInput noArbitration s updateReq oack odata I)

def reset (_ : Fin n) : (ulReg n nonblockingReadFlag : ClockedControl w).Registers :=
  (ulReg n nonblockingReadFlag : ClockedControl w).control.reset

/-- The word that `I` takes from the pipe. -/
def takenBy (oack : Bool) (odata : BitVec w) (I : Fin n) : List (BitVec w) :=
  if (output noArbitration s updateReq oack odata I).writeAck &&
    writeEnable noArbitration s updateReq oack I then [odata] else []

/-- The word that is handed over to `I`. -/
def deliveredTo (oack : Bool) (odata : BitVec w) (I : Fin n) : List (BitVec w) :=
  if updateAck noArbitration s updateReq oack odata I then [data noArbitration s updateReq oack odata I] else []

variable {noArbitration s updateReq}

theorem reqActive_cases
    (alone : noArbitration = true → ∀ I J, hasRoom s updateReq I = true → hasRoom s updateReq J = true → I = J) :
    (∃ K, hasRoom s updateReq K = true ∧ reqActive noArbitration s updateReq = fun I => decide (I = K)) ∨
      ((∀ I, hasRoom s updateReq I = false) ∧ reqActive noArbitration s updateReq = fun _ => false) := by
  unfold reqActive
  cases arbitration : noArbitration with
  | false =>
      rw [if_neg Bool.false_ne_true]
      exact priorityEncode_cases (hasRoom s updateReq)
  | true =>
      rw [if_pos rfl]
      exact cases_of_alone (alone arbitration)

section Port
variable {holds : (ulReg n nonblockingReadFlag : ClockedControl w).Registers → List (BitVec w) → Prop}
  (handsOn : HandsOn (ulReg n nonblockingReadFlag : ClockedControl w).control holds)
  (alone : noArbitration = true → ∀ I J, hasRoom s updateReq I = true → hasRoom s updateReq J = true → I = J)
include handsOn alone

/-- The word of the pipe is taken by one operator when it is asked for and there. -/
theorem taken_eq (oack : Bool) (odata : BitVec w) :
    (List.finRange n).flatMap (takenBy noArbitration s updateReq oack odata) =
      if oreq noArbitration s updateReq && oack then [odata] else [] := by
  have taken (I : Fin n) : takenBy noArbitration s updateReq oack odata I =
      if hasRoom s updateReq I && writeEnable noArbitration s updateReq oack I then [odata] else [] := by
    have ready : (output noArbitration s updateReq oack odata I).writeAck = hasRoom s updateReq I := handsOn.ready _ _
    rw [takenBy, ready]
  rcases reqActive_cases alone with ⟨K, room, chosen⟩ | ⟨idle, none⟩
  · have enable (I : Fin n) : writeEnable noArbitration s updateReq oack I = (decide (I = K) && oack) := by
      rw [writeEnable, chosen]
      split_ifs with single
      · subst single
        rw [Subsingleton.elim I K, decide_eq_true rfl, Bool.true_and]
      · rfl
    have asks : oreq noArbitration s updateReq = true := by
      rw [oreq, chosen]
      exact decide_eq_true ⟨K, decide_eq_true rfl⟩
    rw [flatMap_chosen _ fun I other => by
      rw [taken, enable, decide_eq_false other, Bool.false_and, Bool.and_false]; rfl, taken, enable, room, asks]
    simp
  · have quiet : oreq noArbitration s updateReq = false := by
      rw [oreq, none]
      simp
    rw [quiet, List.flatMap_eq_nil_iff.mpr fun I _ => by rw [taken, idle, Bool.false_and]; rfl]
    rfl

end Port

variable (noArbitration updateReq) in
theorem handed {holds : (ulReg n nonblockingReadFlag : ClockedControl w).Registers → List (BitVec w) → Prop}
    (handsOn : HandsOn (ulReg n nonblockingReadFlag : ClockedControl w).control holds) {I : Fin n} {q : List (BitVec w)}
    (held : holds (s I) q) (oack : Bool) (odata : BitVec w) :
    ∃ q', holds (next noArbitration s updateReq oack odata I) q' ∧
      q ++ takenBy noArbitration s updateReq oack odata I = deliveredTo noArbitration s updateReq oack odata I ++ q' :=
  handsOn.step (s I) (ulInput noArbitration s updateReq oack odata I) q held

end InputPortRevised

end Ahir.Hardware
