import Ahir.Hardware.BufferChain
import Ahir.Hardware.QueueBase

/-!
# Queues of single bits

`SingleBitQueueBase` is a ring of bits with one-hot pointers; with the bypass a
bit that comes to an empty queue may pass by.  `ShiftRegisterSingleBitQueue` is a
row of them.
-/

set_option autoImplicit false

namespace Ahir.Hardware
open Ahir.Data

structure SingleBitState (depth : Nat) where
  queueVector : BitVec depth
  writePointer : BitVec depth
  readPointer : BitVec depth
  queueSize : Nat

namespace SingleBitState
variable {depth : Nat} (bypassFlag : Bool) (s : SingleBitState depth) (r : Request Bool)

def incr (pointer : BitVec depth) : BitVec depth := if depth = 1 then pointer else pointer.rotateLeft 1

def bypassActive : Bool := bypassFlag && (decide (s.queueSize = 0) && r.pushReq)

def actualPushReq : Bool := if s.bypassActive bypassFlag r && r.popReq then false else r.pushReq

def push : Bool := decide (s.queueSize < depth) && s.actualPushReq bypassFlag r

def pop : Bool := decide (s.queueSize > 0) && (r.popReq && !s.bypassActive bypassFlag r)

/-- `Ceil_Log2(queue_depth+1)` bits wide. -/
def nextSize : Nat :=
  if s.pop bypassFlag r && !s.push bypassFlag r then s.queueSize - 1
  else if s.push bypassFlag r && !s.pop bypassFlag r then (s.queueSize + 1) % 2 ^ ceilLog2 (depth + 1)
  else s.queueSize

def nextVector : BitVec depth :=
  if s.push bypassFlag r then
    if r.dataIn then s.queueVector ||| s.writePointer else s.queueVector &&& ~~~s.writePointer
  else s.queueVector

end SingleBitState

def singleBitQueueBase (depth : Nat) (bypassFlag : Bool) : Buffer (SingleBitState depth) Bool where
  reset := fun _ _ =>
    { queueVector := BitVec.ofNat depth 0
      writePointer := BitVec.twoPow depth 0
      readPointer := BitVec.twoPow depth 0
      queueSize := 0 }
  respond := fun s r =>
    if depth = 0 then { dataOut := r.dataIn, pushAck := r.popReq, popAck := r.pushReq }
    else
      { dataOut :=
          if s.bypassActive bypassFlag r then r.dataIn
          else decide (s.queueVector &&& s.readPointer ≠ BitVec.ofNat depth 0)
        pushAck := decide (s.queueSize < depth)
        popAck := decide (s.queueSize > 0) || s.bypassActive bypassFlag r }
  next := fun s r =>
    { queueVector := s.nextVector bypassFlag r
      writePointer := if s.push bypassFlag r then SingleBitState.incr s.writePointer else s.writePointer
      readPointer := if s.pop bypassFlag r then SingleBitState.incr s.readPointer else s.readPointer
      queueSize := s.nextSize bypassFlag r }

section Pointers
variable {depth : Nat} {i : Nat}

theorem incr_twoPow (inside : i < depth) :
    SingleBitState.incr (BitVec.twoPow depth i) = BitVec.twoPow depth ((i + 1) % depth) := by
  unfold SingleBitState.incr
  split_ifs with single
  · have first : i = 0 := by omega
    rw [first, single]
  · apply BitVec.eq_of_getLsbD_eq
    intro k isBit
    have more : 1 < depth := by omega
    rw [BitVec.getLsbD_rotateLeft_of_le more, BitVec.getLsbD_twoPow, BitVec.getLsbD_twoPow, BitVec.getLsbD_twoPow]
    rw [Bool.eq_iff_iff]
    by_cases last : i + 1 = depth
    · rw [last, Nat.mod_self]
      cases k <;> simp <;> omega
    · rw [Nat.mod_eq_of_lt (by omega)]
      cases k <;> simp <;> omega

theorem and_twoPow_ne_zero (inside : i < depth) (x : BitVec depth) :
    decide (x &&& BitVec.twoPow depth i ≠ BitVec.ofNat depth 0) = x.getLsbD i := by
  have isBit : BitVec.twoPow depth i ≠ BitVec.ofNat depth 0 := by
    intro zero
    have bit := congrArg (fun y => y.getLsbD i) zero
    simp [inside] at bit
  rw [BitVec.and_twoPow]
  cases x.getLsbD i <;> simp [isBit]

theorem getLsbD_write (inside : i < depth) (x : BitVec depth) (v : Bool) :
    (fun k => (if v then x ||| BitVec.twoPow depth i else x &&& ~~~BitVec.twoPow depth i).getLsbD k) =
      Function.update (fun k => x.getLsbD k) i v := by
  funext k
  by_cases same : k = i
  · subst same
    cases v <;> simp [inside]
  · rw [Function.update_of_ne same]
    cases v with
    | true => simp [Ne.symm same]
    | false =>
        by_cases isBit : k < depth
        · simp [same, isBit]
        · simp [isBit, BitVec.getLsbD_of_ge x k (Nat.not_lt.mp isBit)]

end Pointers

namespace SingleBitState
variable {depth : Nat} {s : SingleBitState depth} (bypassFlag : Bool) (r : Request Bool)

theorem canRead {bypassFlag : Bool} {r : Request Bool} (isPop : s.pop bypassFlag r = true) : 0 < s.queueSize := by
  rw [pop, Bool.and_eq_true] at isPop
  exact of_decide_eq_true isPop.1

theorem canWrite {bypassFlag : Bool} {r : Request Bool} (isPush : s.push bypassFlag r = true) : s.queueSize < depth := by
  rw [push, Bool.and_eq_true] at isPush
  exact of_decide_eq_true isPush.1

theorem nextSize_eq :
    s.nextSize bypassFlag r = s.queueSize - (s.pop bypassFlag r).toNat + (s.push bypassFlag r).toNat := by
  have fits := le_two_pow_ceilLog2 (depth + 1)
  unfold nextSize
  cases isPop : s.pop bypassFlag r with
  | false =>
      cases isPush : s.push bypassFlag r with
      | false => simp
      | true =>
          have room := canWrite isPush
          simpa using Nat.mod_eq_of_lt (by omega)
  | true =>
      have filled := canRead isPop
      cases s.push bypassFlag r <;> simp
      omega

theorem nextVector_eq {k : Nat} (inside : k < depth) (writePointer : s.writePointer = BitVec.twoPow depth k) :
    (fun i => (s.nextVector bypassFlag r).getLsbD i) =
      if s.push bypassFlag r then Function.update (fun i => s.queueVector.getLsbD i) k r.dataIn
      else fun i => s.queueVector.getLsbD i := by
  unfold nextVector
  cases s.push bypassFlag r with
  | false => rfl
  | true =>
      rw [if_pos rfl, if_pos rfl, writePointer]
      exact getLsbD_write inside s.queueVector r.dataIn

end SingleBitState

structure SingleBitHolds {depth : Nat} (s : SingleBitState depth) (q : List Bool) : Prop where
  bounded : q.length ≤ depth
  size : s.queueSize = q.length
  window : ∃ first < depth, s.readPointer = BitVec.twoPow depth first ∧
    s.writePointer = BitVec.twoPow depth ((first + q.length) % depth) ∧
    q = window (fun k => s.queueVector.getLsbD k) depth first q.length

section Queue
variable {depth : Nat} {bypassFlag : Bool} (pos : 0 < depth)
include pos

theorem singleBitQueueBase_respond (s : SingleBitState depth) (r : Request Bool) :
    (singleBitQueueBase depth bypassFlag).respond s r =
      { dataOut :=
          if s.bypassActive bypassFlag r then r.dataIn
          else decide (s.queueVector &&& s.readPointer ≠ BitVec.ofNat depth 0)
        pushAck := decide (s.queueSize < depth)
        popAck := decide (s.queueSize > 0) || s.bypassActive bypassFlag r } :=
  if_neg (Nat.pos_iff_ne_zero.mp pos)

theorem singleBitQueueBase_forward : (singleBitQueueBase depth bypassFlag).Forward := by
  intro s r popReq
  rw [singleBitQueueBase_respond pos, singleBitQueueBase_respond pos]
  rfl

theorem singleBitQueueBase_offers : (singleBitQueueBase depth true).Offers SingleBitHolds := by
  refine ⟨?_, ?_⟩
  · intro s r q held
    rw [singleBitQueueBase_respond pos]
    cases q with
    | nil => simp [SingleBitState.bypassActive, held.size]
    | cons v q => simp [held.size]
  · intro s r held
    rw [singleBitQueueBase_respond pos]
    simp [held.size, pos]

/-- Neither a push nor a pop changes the ring when a bit passes by. -/
theorem SingleBitHolds.pass {s : SingleBitState depth} {q : List Bool} (held : SingleBitHolds s q) (r : Request Bool)
    (passes : (s.bypassActive bypassFlag r && r.popReq) = true) :
    SingleBitHolds ((singleBitQueueBase depth bypassFlag).next s r) q ∧
      q ++ ((singleBitQueueBase depth bypassFlag).pushed s r).toList =
        ((singleBitQueueBase depth bypassFlag).popped s r).toList ++ q := by
  obtain ⟨bounded, size, first, inside, readPointer, writePointer, bits⟩ := held
  obtain ⟨isBypass, isPop⟩ := Bool.and_eq_true_iff.mp passes
  have active := isBypass
  rw [SingleBitState.bypassActive, Bool.and_eq_true, Bool.and_eq_true, decide_eq_true_eq, size] at active
  obtain ⟨-, none, isPush⟩ := active
  have noPush : s.push bypassFlag r = false := by simp [SingleBitState.push, SingleBitState.actualPushReq, passes]
  have noPop : s.pop bypassFlag r = false := by simp [SingleBitState.pop, isBypass]
  refine ⟨⟨bounded, ?_, first, inside, ?_, ?_, ?_⟩, ?_⟩
  · simpa [singleBitQueueBase, SingleBitState.nextSize, noPush, noPop] using size
  · simpa [singleBitQueueBase, noPop] using readPointer
  · simpa [singleBitQueueBase, noPush] using writePointer
  · simpa [singleBitQueueBase, SingleBitState.nextVector, noPush] using bits
  · rw [Buffer.pushed, Buffer.popped, singleBitQueueBase_respond pos, List.eq_nil_of_length_eq_zero none]
    simp [isBypass, isPop, isPush, size, none, pos]

theorem SingleBitHolds.transferred {s : SingleBitState depth} {r : Request Bool} {first : Nat} (inside : first < depth)
    (readPointer : s.readPointer = BitVec.twoPow depth first)
    (rings : (s.bypassActive bypassFlag r && r.popReq) = false) :
    (singleBitQueueBase depth bypassFlag).pushed s r = (if s.push bypassFlag r then some r.dataIn else none) ∧
      (singleBitQueueBase depth bypassFlag).popped s r =
        if s.pop bypassFlag r then some (s.queueVector.getLsbD first) else none := by
  rw [Buffer.pushed, Buffer.popped, singleBitQueueBase_respond pos, readPointer]
  dsimp only
  rw [and_twoPow_ne_zero inside]
  constructor
  · rw [SingleBitState.push, SingleBitState.actualPushReq, rings, if_neg Bool.false_ne_true, Bool.and_comm]
  · rw [SingleBitState.pop]
    cases isPop : r.popReq with
    | false => simp
    | true =>
        rw [isPop, Bool.and_true] at rings
        simp [rings]

/-- The pointers go on, and the bit behind is the one that was pushed. -/
theorem SingleBitHolds.turn {s : SingleBitState depth} {q : List Bool} (held : SingleBitHolds s q) (r : Request Bool)
    (rings : (s.bypassActive bypassFlag r && r.popReq) = false) :
    ∃ q', SingleBitHolds ((singleBitQueueBase depth bypassFlag).next s r) q' ∧
      q ++ ((singleBitQueueBase depth bypassFlag).pushed s r).toList =
        ((singleBitQueueBase depth bypassFlag).popped s r).toList ++ q' := by
  obtain ⟨bounded, size, first, inside, readPointer, writePointer, bits⟩ := held
  obtain ⟨pushed, popped⟩ := transferred pos inside readPointer rings
  have canRead : s.pop bypassFlag r = true → 0 < q.length := fun isPop => size ▸ SingleBitState.canRead isPop
  have canWrite : s.push bypassFlag r = true → q.length < depth := fun isPush => size ▸ SingleBitState.canWrite isPush
  have canTurn : s.push bypassFlag r = true → q.length - (s.pop bypassFlag r).toNat < depth :=
    fun isPush => Nat.lt_of_le_of_lt (Nat.sub_le _ _) (canWrite isPush)
  have step := @window_step Bool (fun k => s.queueVector.getLsbD k) _ _ _ r.dataIn _ _ inside canRead canTurn
  rw [← bits] at step
  have behind : (first + q.length) % depth < depth := Nat.mod_lt _ pos
  refine ⟨_, ⟨?_, ?_, if s.pop bypassFlag r then (first + 1) % depth else first, ?_, ?_, ?_, ?_⟩,
    by rw [pushed, popped]; exact step⟩
  · rw [window_length]
    cases isPush : s.push bypassFlag r with
    | false => exact (Nat.sub_le _ _).trans bounded
    | true =>
        have room := canTurn isPush
        rw [Bool.toNat_true]
        omega
  · rw [window_length]
    exact (SingleBitState.nextSize_eq bypassFlag r).trans (by rw [size])
  · split_ifs
    · exact Nat.mod_lt _ pos
    · exact inside
  · change (if s.pop bypassFlag r then SingleBitState.incr s.readPointer else s.readPointer) = _
    rw [readPointer, incr_twoPow inside]
    split_ifs <;> rfl
  · change (if s.push bypassFlag r then SingleBitState.incr s.writePointer else s.writePointer) = _
    rw [window_length, writePointer, incr_twoPow behind, Nat.mod_add_mod]
    cases isPop : s.pop bypassFlag r <;> cases isPush : s.push bypassFlag r <;> simp [isPop] at canRead ⊢
    · rw [Nat.add_assoc]
    · rw [Nat.add_assoc, Nat.add_sub_cancel' canRead]
    · congr 2
      omega
  · rw [window_length]
    congr 1
    exact (SingleBitState.nextVector_eq bypassFlag r behind writePointer).symm

theorem singleBitQueueBase_fifo : (singleBitQueueBase depth bypassFlag).Fifo depth SingleBitHolds := by
  refine ⟨?_, fun s q held => held.bounded, ?_⟩
  · intro s r
    exact ⟨Nat.zero_le depth, rfl, 0, pos, rfl, by simp [singleBitQueueBase], rfl⟩
  · intro s r q held
    cases passes : s.bypassActive bypassFlag r && r.popReq with
    | true => exact ⟨q, held.pass pos r passes⟩
    | false => exact held.turn pos r passes

end Queue

def stageDepth (queueDepth numberOfStages : Nat) : Nat := ceil queueDepth numberOfStages

def shiftRegisterSingleBitQueue (queueDepth numberOfStages : Nat) (bypassFlag : Bool) :
    Buffer (Buffer.Row (SingleBitState (stageDepth queueDepth numberOfStages)) (numberOfStages - 1)) Bool :=
  (singleBitQueueBase (stageDepth queueDepth numberOfStages) bypassFlag).row (numberOfStages - 1)

end Ahir.Hardware
