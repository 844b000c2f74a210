import Ahir.Hardware.PipeBase

/-!
# Receive buffers

`ReceiveBuffer` takes operands from a requester that gives a pulse with each, and
offers them to a reader that asks as long as it likes.  An operand that finds no
room is kept waiting by the state machine, which asks for room until there is some.
-/

set_option autoImplicit false

namespace Ahir.Hardware
open Ahir.Data Ahir.Run

namespace Buffer
variable {S V : Type}

/-- What can be popped does not depend on whether it is; and what is not popped can be popped in the next
cycle too, if a word that finds no room is offered again. -/
structure Presents (B : Buffer S V) : Prop where
  popAck : ∀ s r popReq, (B.respond s ⟨r.dataIn, r.pushReq, popReq⟩).popAck = (B.respond s r).popAck
  dataOut : ∀ s r popReq, (B.respond s ⟨r.dataIn, r.pushReq, popReq⟩).dataOut = (B.respond s r).dataOut
  keeps : ∀ s r r', (B.respond s r).popAck = true → r.popReq = false →
    (r.pushReq = true → (B.respond s r).pushAck = false → r'.pushReq = true) → (B.respond (B.next s r) r').popAck = true

end Buffer

variable {w : Nat}

/-! ### The queue -/

inductive RepeaterState where
  | empty | full
  deriving DecidableEq

structure Repeater (w : Nat) where
  repeaterState : RepeaterState
  dataReg : BitVec w

def fullRateRepeater : Buffer (Repeater w) (BitVec w) where
  reset := fun s _ => { s with repeaterState := .empty }
  respond := fun s r =>
    match s.repeaterState with
    | .empty => { dataOut := s.dataReg, pushAck := true, popAck := false }
    | .full => { dataOut := s.dataReg, pushAck := r.popReq, popAck := true }
  next := fun s r =>
    match s.repeaterState with
    | .empty => if r.pushReq then { repeaterState := .full, dataReg := r.dataIn } else s
    | .full =>
        if r.popReq then
          if r.pushReq then { s with dataReg := r.dataIn } else { s with repeaterState := .empty }
        else s

theorem fullRateRepeater_fifo : (fullRateRepeater : Buffer (Repeater w) (BitVec w)).Fifo 1
    fun s q => q = if s.repeaterState = .full then [s.dataReg] else [] := by
  refine ⟨fun _ _ => rfl, ?_, ?_⟩
  · rintro s q rfl
    split_ifs <;> simp
  · rintro s r q rfl
    refine ⟨_, rfl, ?_⟩
    cases state : s.repeaterState <;> cases pop : r.popReq <;> cases push : r.pushReq <;>
      simp [Buffer.pushed, Buffer.popped, fullRateRepeater, state, pop, push]

theorem fullRateRepeater_presents : (fullRateRepeater : Buffer (Repeater w) (BitVec w)).Presents := by
  constructor
  · intro s r popReq
    cases state : s.repeaterState <;> simp [fullRateRepeater, state]
  · intro s r popReq
    cases state : s.repeaterState <;> simp [fullRateRepeater, state]
  · intro s r r' offered stays _
    cases state : s.repeaterState <;> simp [fullRateRepeater, state, stays] at offered ⊢

theorem wires_presents : (wires : Buffer Unit (BitVec w)).Presents := by
  refine ⟨fun _ _ _ => rfl, fun _ _ _ => rfl, fun s r r' offered stays again => ?_⟩
  exact again offered stays

theorem slot_presents (reverseBypassFlag : Bool) :
    (slot reverseBypassFlag : Buffer (SlotState w) (BitVec w)).Presents := by
  refine ⟨fun _ _ _ => rfl, fun _ _ _ => rfl, fun s r r' offered stays _ => ?_⟩
  have full : s.fullFlag = true := offered
  simp [slot, full, stays]

theorem ring_presents (depth : Nat) (reverseBypassFlag distributedRam : Bool) :
    (ring depth reverseBypassFlag distributedRam : Buffer (RingState w) (BitVec w)).Presents := by
  refine ⟨fun _ _ _ => rfl, fun _ _ _ => rfl, fun s r r' offered stays _ => ?_⟩
  have occupied : s.fsmState ≠ .emptyState := by simpa [ring, RingState.empty] using offered
  have noPop : s.pop r = false := by rw [RingState.pop, stays, Bool.and_false]
  simp only [ring, RingState.empty, noPop, queueEmptyFullLogic]
  cases state : s.fsmState with
  | emptyState => exact absurd state occupied
  | inBetweenState => split_ifs <;> simp_all
  | fullState => simp

theorem queueBase_presents : (depth : Nat) → (queueBase depth : Buffer (QueueState w depth) (BitVec w)).Presents
  | 0 => wires_presents
  | 1 => slot_presents false
  | depth + 2 => ring_presents (depth + 2) false false

theorem synchFifoWithDPRAM_presents (collide : BitVec w) (depth : Nat) :
    (synchFifoWithDPRAM collide depth : Buffer (DpramState w) (BitVec w)).Presents := by
  refine ⟨fun _ _ _ => rfl, fun _ _ _ => rfl, fun s r r' offered stays _ => ?_⟩
  simp only [synchFifoWithDPRAM, decide_eq_true_eq] at offered ⊢
  cases state : s.readState with
  | idle => exact absurd state offered
  | valid => simp [DpramState.readControl, state, stays]
  | waitPop => simp [DpramState.readControl, state, stays]

theorem pipeQueue_plain (collide : BitVec w) (depth : Nat) : pipeQueue collide { depth := depth } =
    if depth < pipeShallownessThreshold then ⟨QueueState w depth, queueBase depth⟩
    else ⟨DpramState w, synchFifoWithDPRAM collide depth⟩ := by
  simp [pipeQueue, PipeGenerics.shallowFlag]

/-- The queue of a `ReceiveBuffer`: a `PipeBase` with one writer and one reader, which are connected through. -/
def bufPipe (collide : BitVec w) (bufferSize : Nat) (fullRate : Bool) : Clocked (BitVec w) :=
  if fullRate && decide (bufferSize = 1) then ⟨Repeater w, fullRateRepeater⟩
  else pipeQueue collide { depth := bufferSize }

def Clocked.Queues (C : Clocked (BitVec w)) (capacity : Nat) : Prop := C.IsFifo capacity ∧ C.buffer.Presents

theorem bufPipe_queues (collide : BitVec w) (bufferSize : Nat) (fullRate : Bool) :
    (bufPipe collide bufferSize fullRate).Queues (bufferSize + 1) := by
  unfold bufPipe
  split_ifs with repeats
  · have fifo := fullRateRepeater_fifo (w := w)
    exact ⟨⟨_, { fifo with bounded := fun s q held => (fifo.bounded s q held).trans (by omega) }⟩,
      fullRateRepeater_presents⟩
  · refine ⟨pipeQueue_isFifo collide rfl, ?_⟩
    rw [pipeQueue_plain]
    by_cases shallow : bufferSize < pipeShallownessThreshold
    · rw [if_pos shallow]
      exact queueBase_presents bufferSize
    · rw [if_neg shallow]
      exact synchFifoWithDPRAM_presents collide bufferSize

/-! ### The state machine -/

inductive RxBufFsmState where
  | idle | busy
  deriving DecidableEq

structure ReceiveState (S : Type) where
  queue : S
  fsmState : RxBufFsmState

namespace ReceiveBuffer
variable {S V : Type} (B : Buffer S V) (s : ReceiveState S) (r : Request V)

def pushReq : Bool :=
  match s.fsmState with
  | .idle => r.pushReq
  | .busy => true

def pipeRequest : Request V := { r with pushReq := pushReq s r }

def pipe : Response V := B.respond s.queue (pipeRequest s r)

def writeAck : Bool := pushReq s r && (pipe B s r).pushAck

def nextState : RxBufFsmState :=
  match s.fsmState with
  | .idle => if r.pushReq then if (pipe B s r).pushAck then .idle else .busy else .idle
  | .busy => if (pipe B s r).pushAck then .idle else .busy

end ReceiveBuffer

open ReceiveBuffer in
def receiver {S V : Type} (B : Buffer S V) : Buffer (ReceiveState S) V where
  reset := fun s r => { queue := B.reset s.queue (pipeRequest s r), fsmState := .idle }
  respond := fun s r =>
    { dataOut := (pipe B s r).dataOut, pushAck := writeAck B s r, popAck := (pipe B s r).popAck }
  next := fun s r => { queue := B.next s.queue (pipeRequest s r), fsmState := nextState B s r }

def receiveBuffer (collide : BitVec w) (bufferSize : Nat) (fullRate : Bool) : Clocked (BitVec w) :=
  ⟨ReceiveState (bufPipe collide bufferSize fullRate).State, receiver (bufPipe collide bufferSize fullRate).buffer⟩

/-! ### What a receive buffer holds -/

namespace Buffer
variable {S V : Type} (B : Buffer S V)

def nextPending (pending : Option V) (s : S) (r : Request V) : Option V :=
  if (B.respond s r).pushAck then none else if r.pushReq then some r.dataIn else pending

def requested (r : Request V) : List V := if r.pushReq then [r.dataIn] else []

def acknowledged (s : S) (r : Request V) : List V := if (B.respond s r).pushAck then [r.dataIn] else []

def Awaits (pending : Option V) (r : Request V) : Prop := ∀ x, pending = some x → r.pushReq = false ∧ r.dataIn = x

/-- `holds s pending q`: the words `q` are held, of which the last may be pending. -/
structure Receives (B : Buffer S V) (capacity : Nat) (holds : S → Option V → List V → Prop) : Prop where
  reset : ∀ s r, holds (B.reset s r) none []
  bounded : ∀ s pending q, holds s pending q → q.length ≤ capacity
  step : ∀ s r pending q, holds s pending q → Awaits pending r →
    ∃ q', holds (B.next s r) (B.nextPending pending s r) q' ∧ q ++ requested r = (B.popped s r).toList ++ q'
  answers : ∀ s r pending q, holds s pending q → Awaits pending r →
    pending.toList ++ requested r = B.acknowledged s r ++ (B.nextPending pending s r).toList
  popAck : ∀ s r popReq, (B.respond s ⟨r.dataIn, r.pushReq, popReq⟩).popAck = (B.respond s r).popAck
  dataOut : ∀ s r popReq, (B.respond s ⟨r.dataIn, r.pushReq, popReq⟩).dataOut = (B.respond s r).dataOut
  keeps : ∀ s r r', (B.respond s r).popAck = true → r.popReq = false → (B.respond (B.next s r) r').popAck = true

end Buffer

namespace ReceiveBuffer
variable {S V : Type} {B : Buffer S V} {s : ReceiveState S} {r : Request V} {pending : Option V}

def Busy (s : ReceiveState S) (pending : Option V) : Prop := pending.isSome = true ↔ s.fsmState = .busy

def Holds (holds : S → List V → Prop) (s : ReceiveState S) (pending : Option V) (q : List V) : Prop :=
  Busy s pending ∧ ∃ words, holds s.queue words ∧ q = words ++ pending.toList

theorem pushReq_of_idle (idle : s.fsmState = .idle) : pushReq s r = r.pushReq := by rw [pushReq, idle]

theorem pushReq_of_busy (busy : s.fsmState = .busy) : pushReq s r = true := by rw [pushReq, busy]

theorem Busy.idle (busy : Busy s (none : Option V)) : s.fsmState = .idle := by
  cases state : s.fsmState with
  | idle => rfl
  | busy => exact absurd (busy.mpr state) Bool.false_ne_true

theorem nextState_busy_iff : nextState B s r = .busy ↔ pushReq s r = true ∧ (pipe B s r).pushAck = false := by
  unfold nextState pushReq
  cases s.fsmState <;> cases r.pushReq <;> cases (pipe B s r).pushAck <;> simp

/-- What is pending or comes with a pulse is offered to the queue. -/
theorem Busy.offered (busy : Busy s pending) (awaits : Buffer.Awaits pending r) :
    pending.toList ++ Buffer.requested r = if pushReq s r then [r.dataIn] else [] := by
  cases waiting : pending with
  | none =>
      subst waiting
      rw [pushReq_of_idle busy.idle, Option.toList_none, List.nil_append, Buffer.requested]
  | some x =>
      rw [pushReq_of_busy (busy.mp (waiting ▸ rfl)), Buffer.requested, (awaits x waiting).1, (awaits x waiting).2]
      rfl

theorem Busy.nextPending (busy : Busy s pending) (awaits : Buffer.Awaits pending r) :
    (receiver B).nextPending pending s r =
      if pushReq s r && !(pipe B s r).pushAck then some r.dataIn else none := by
  have same : ((receiver B).respond s r).pushAck = writeAck B s r := rfl
  rw [Buffer.nextPending, same, writeAck]
  cases waiting : pending with
  | none =>
      subst waiting
      rw [pushReq_of_idle busy.idle]
      cases r.pushReq <;> cases (pipe B s r).pushAck <;> simp
  | some x =>
      rw [pushReq_of_busy (busy.mp (waiting ▸ rfl)), (awaits x waiting).1, (awaits x waiting).2]
      cases (pipe B s r).pushAck <;> simp

theorem Busy.next (busy : Busy s pending) (awaits : Buffer.Awaits pending r) :
    Busy ((receiver B).next s r) ((receiver B).nextPending pending s r) := by
  show _ ↔ nextState B s r = .busy
  rw [nextState_busy_iff, busy.nextPending awaits]
  cases pushReq s r <;> cases (pipe B s r).pushAck <;> simp

theorem acknowledged_eq (B : Buffer S V) (s : ReceiveState S) (r : Request V) :
    (receiver B).acknowledged s r = (B.pushed s.queue (pipeRequest s r)).toList := by
  have same : ((receiver B).respond s r).pushAck = writeAck B s r := rfl
  have pushed : B.pushed s.queue (pipeRequest s r) = if writeAck B s r then some r.dataIn else none := rfl
  rw [Buffer.acknowledged, same, pushed]
  cases writeAck B s r <;> rfl

theorem Busy.answers (busy : Busy s pending) (awaits : Buffer.Awaits pending r) :
    pending.toList ++ Buffer.requested r =
      (receiver B).acknowledged s r ++ ((receiver B).nextPending pending s r).toList := by
  have same : ((receiver B).respond s r).pushAck = writeAck B s r := rfl
  rw [busy.offered awaits, busy.nextPending awaits, Buffer.acknowledged, same, writeAck]
  cases pushReq s r <;> cases (pipe B s r).pushAck <;> simp

/-- A cycle of the state machine, before anything that takes in what the queue takes in. -/
theorem Busy.step {words words' gives : List V} (busy : Busy s pending) (awaits : Buffer.Awaits pending r)
    (law : words ++ (B.pushed s.queue (pipeRequest s r)).toList = gives ++ words') :
    words ++ pending.toList ++ Buffer.requested r =
      gives ++ (words' ++ ((receiver B).nextPending pending s r).toList) := by
  rw [List.append_assoc, busy.answers (B := B) awaits, acknowledged_eq, ← List.append_assoc, law, List.append_assoc]

end ReceiveBuffer

open ReceiveBuffer in
theorem receiver_receives {S V : Type} {B : Buffer S V} {capacity : Nat} {holds : S → List V → Prop}
    (fifo : B.Fifo capacity holds) (presents : B.Presents) : (receiver B).Receives (capacity + 1) (Holds holds) := by
  refine ⟨?_, ?_, ?_, ?_, ?_, ?_, ?_⟩
  · intro s r
    exact ⟨by simp [receiver, Busy], [], fifo.reset _ _, rfl⟩
  · rintro s pending q ⟨-, words, held, rfl⟩
    have := fifo.bounded _ _ held
    have := Option.length_toList_le (o := pending)
    rw [List.length_append]
    omega
  · rintro s r pending q ⟨busy, words, held, rfl⟩ awaits
    obtain ⟨words', held', law⟩ := fifo.step s.queue (pipeRequest s r) words held
    exact ⟨_, ⟨busy.next awaits, words', held', rfl⟩, busy.step awaits law⟩
  · rintro s r pending q ⟨busy, -⟩ awaits
    exact busy.answers awaits
  · intro s r popReq
    exact presents.popAck s.queue (pipeRequest s r) popReq
  · intro s r popReq
    exact presents.dataOut s.queue (pipeRequest s r) popReq
  · intro s r r' offered stays
    refine presents.keeps s.queue (pipeRequest s r) (pipeRequest ((receiver B).next s r) r') offered stays
      fun push room => ?_
    have busy : ((receiver B).next s r).fsmState = .busy := nextState_busy_iff.mpr ⟨push, room⟩
    simp [pipeRequest, pushReq, busy]

/-- A receive buffer holds at most two words more than its size, one of them pending. -/
theorem receiveBuffer_receives (collide : BitVec w) (bufferSize : Nat) (fullRate : Bool) :
    ∃ holds, (receiveBuffer collide bufferSize fullRate).buffer.Receives (bufferSize + 2) holds := by
  obtain ⟨⟨holds, fifo⟩, presents⟩ := bufPipe_queues collide bufferSize fullRate
  exact ⟨_, receiver_receives fifo presents⟩

end Ahir.Hardware
