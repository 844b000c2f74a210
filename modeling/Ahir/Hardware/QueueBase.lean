import Ahir.Data.Ring
import Ahir.Hardware.Buffer
import Mathlib.Data.Nat.Log

/-!
# Queues

`QueueBase`, `QueueBaseWithEmptyFull` and `QueueWithBypass`.  A queue of depth
zero is a set of wires, one of depth one a register, and a deeper one a ring of
registers with a read and a write pointer and the flags of `QueueEmptyFullLogic`.
-/

set_option autoImplicit false

namespace Ahir.Hardware
open Ahir.Data

def ceilLog2 (x : Nat) : Nat := Nat.clog 2 x

def ceil (x y : Nat) : Nat := if x / y * y < x then x / y + 1 else x / y

theorem le_ceil_mul (x : Nat) {y : Nat} (pos : 0 < y) : x ≤ ceil x y * y := by
  have division := Nat.div_add_mod x y
  have less := Nat.mod_lt x pos
  unfold ceil
  split
  · rw [Nat.add_mul, Nat.one_mul, Nat.mul_comm]
    omega
  · omega

theorem ceil_pos {x y : Nat} (pos : 0 < x) : 0 < ceil x y := by
  unfold ceil
  split
  · exact Nat.succ_pos _
  · next large =>
      by_contra zero
      rw [Nat.le_zero.mp (Nat.le_of_not_lt zero), Nat.zero_mul] at large
      exact large pos

theorem le_two_pow_ceilLog2 (x : Nat) : x ≤ 2 ^ ceilLog2 x := Nat.le_pow_clog (by decide) x

inductive QFsmState where
  | emptyState | inBetweenState | fullState
  deriving DecidableEq

/-- The next state of `QueueEmptyFullLogic`. -/
def queueEmptyFullLogic (fsmState : QFsmState) (read write eqFlag : Bool) : QFsmState :=
  match fsmState with
  | .emptyState => if write && !read then .inBetweenState else .emptyState
  | .inBetweenState =>
      if read && !write && eqFlag then .emptyState
      else if !read && write && eqFlag then .fullState
      else .inBetweenState
  | .fullState => if read && !write then .inBetweenState else .fullState

variable {w : Nat}

def wires : Buffer Unit (BitVec w) where
  reset := fun s _ => s
  respond := fun _ r => { dataOut := r.dataIn, pushAck := r.popReq, popAck := r.pushReq }
  next := fun s _ => s

structure SlotState (w : Nat) where
  fullFlag : Bool
  dataReg : BitVec w

def slot (reverseBypassFlag : Bool) : Buffer (SlotState w) (BitVec w) where
  reset := fun _ _ => { fullFlag := false, dataReg := 0 }
  respond := fun s r =>
    { dataOut := s.dataReg
      pushAck := !s.fullFlag || reverseBypassFlag && r.popReq
      popAck := s.fullFlag }
  next := fun s r =>
    if s.fullFlag then
      if r.popReq then
        if reverseBypassFlag && r.pushReq then { s with dataReg := r.dataIn }
        else { s with fullFlag := false }
      else s
    else if r.pushReq then { fullFlag := true, dataReg := r.dataIn }
    else s

structure RingState (w : Nat) where
  queueArray : Nat → BitVec w
  readPointer : Nat
  writePointer : Nat
  fsmState : QFsmState

namespace RingState
variable (depth : Nat) (reverseBypassFlag distributedRam : Bool) (s : RingState w) (r : Request (BitVec w))

def empty : Bool := decide (s.fsmState = .emptyState)

def full : Bool := decide (s.fsmState = .fullState)

def push : Bool := (!s.full || reverseBypassFlag && r.popReq) && r.pushReq

def pop : Bool := !s.empty && r.popReq

/-- A pointer has `Ceil_Log2(queue_depth)` bits. -/
def incr (pointer : Nat) : Nat :=
  if pointer = depth - 1 then 0 else (pointer + 1) % 2 ^ ceilLog2 depth

def nextReadPointer : Nat := if s.pop r then incr depth s.readPointer else s.readPointer

def nextWritePointer : Nat :=
  if s.push reverseBypassFlag r then incr depth s.writePointer else s.writePointer

/-- The word that is written; no word of the array has a number from the depth on. -/
def nextArray : Nat → BitVec w :=
  if s.push reverseBypassFlag r && decide (s.writePointer < depth) then
    Function.update s.queueArray s.writePointer r.dataIn
  else s.queueArray

def dataOut : BitVec w :=
  if distributedRam || decide (s.readPointer < depth) then s.queueArray s.readPointer else 0

end RingState

def ring (depth : Nat) (reverseBypassFlag distributedRam : Bool) : Buffer (RingState w) (BitVec w) where
  reset := fun s r =>
    { queueArray := if distributedRam then s.nextArray depth reverseBypassFlag r else fun _ => 0
      readPointer := 0
      writePointer := 0
      fsmState := .emptyState }
  respond := fun s r =>
    { dataOut := s.dataOut depth distributedRam
      pushAck := !s.full || reverseBypassFlag && r.popReq
      popAck := !s.empty }
  next := fun s r =>
    { queueArray := s.nextArray depth reverseBypassFlag r
      readPointer := s.nextReadPointer depth r
      writePointer := s.nextWritePointer depth reverseBypassFlag r
      fsmState := queueEmptyFullLogic s.fsmState (s.pop r) (s.push reverseBypassFlag r)
        (decide (s.nextReadPointer depth r = s.nextWritePointer depth reverseBypassFlag r)) }

/-- The registers of a queue of the given depth. -/
def QueueState (w : Nat) : Nat → Type
  | 0 => Unit
  | 1 => SlotState w
  | _ + 2 => RingState w

def queueBaseWithEmptyFull (reverseBypassFlag distributedRam : Bool) :
    (depth : Nat) → Buffer (QueueState w depth) (BitVec w)
  | 0 => wires
  | 1 => slot reverseBypassFlag
  | depth + 2 => ring (depth + 2) reverseBypassFlag distributedRam

def queueBase (depth : Nat) : Buffer (QueueState w depth) (BitVec w) :=
  queueBaseWithEmptyFull false false depth

namespace QueueState

/-- The output `empty`. -/
def empty : {depth : Nat} → QueueState w depth → Bool
  | 0, _ => true
  | 1, s => !SlotState.fullFlag s
  | _ + 2, s => RingState.empty s

/-- The output `full`. -/
def full : {depth : Nat} → QueueState w depth → Bool
  | 0, _ => true
  | 1, s => SlotState.fullFlag s
  | _ + 2, s => RingState.full s

def count : {depth : Nat} → QueueState w depth → Nat
  | 0, _ => 0
  | 1, s => if SlotState.fullFlag s then 1 else 0
  | depth + 2, s =>
      if RingState.full s then depth + 2
      else (RingState.writePointer s + (depth + 2) - RingState.readPointer s) % (depth + 2)

end QueueState

/-- What `QueueWithBypass` asks of its queue. -/
def innerRequest {depth : Nat} (s : QueueState w depth) (r : Request (BitVec w)) : Request (BitVec w) :=
  { dataIn := r.dataIn
    pushReq := if s.empty && r.popReq then false else r.pushReq
    popReq := if s.empty then false else r.popReq }

def queueWithBypass (distributedRam : Bool) (depth : Nat) : Buffer (QueueState w depth) (BitVec w) where
  reset := fun s r => (queueBaseWithEmptyFull false distributedRam depth).reset s (innerRequest s r)
  respond := fun s r =>
    let q := (queueBaseWithEmptyFull false distributedRam depth).respond s (innerRequest s r)
    { dataOut := if s.empty then r.dataIn else q.dataOut
      pushAck := !s.full
      popAck := if s.empty then r.pushReq else q.popAck }
  next := fun s r => (queueBaseWithEmptyFull false distributedRam depth).next s (innerRequest s r)

section Wires

theorem wires_fifo : (wires : Buffer Unit (BitVec w)).Fifo 0 fun _ q => q = [] := by
  refine ⟨fun _ _ => rfl, ?_, ?_⟩
  · rintro _ q rfl
    exact Nat.le_refl 0
  · rintro s r q rfl
    refine ⟨[], rfl, ?_⟩
    simp [Buffer.pushed, Buffer.popped, wires, Bool.and_comm]

end Wires

section Slot
variable {reverseBypassFlag : Bool}

theorem slot_fifo : (slot reverseBypassFlag : Buffer (SlotState w) (BitVec w)).Fifo 1
    fun s q => q = if s.fullFlag then [s.dataReg] else [] := by
  refine ⟨fun _ _ => rfl, ?_, ?_⟩
  · rintro s q rfl
    split_ifs <;> simp
  · rintro s r q rfl
    refine ⟨_, rfl, ?_⟩
    cases isFull : s.fullFlag <;> cases pop : r.popReq <;> cases push : r.pushReq <;>
      cases reverseBypassFlag <;> simp [Buffer.pushed, Buffer.popped, slot, isFull, pop, push]

end Slot

section Ring
variable {depth : Nat} {reverseBypassFlag distributedRam : Bool}

theorem incr_eq_mod {pointer : Nat} (inside : pointer < depth) :
    RingState.incr depth pointer = (pointer + 1) % depth := by
  rw [← succWrap_eq_mod inside, RingState.incr, succWrap]
  split_ifs with last
  · rfl
  · have fits := le_two_pow_ceilLog2 depth
    exact Nat.mod_eq_of_lt (by omega)

def fsmOf (depth count : Nat) : QFsmState :=
  if count = 0 then .emptyState else if count = depth then .fullState else .inBetweenState

theorem fsmOf_eq_empty_iff {count : Nat} : fsmOf depth count = .emptyState ↔ count = 0 := by
  unfold fsmOf
  split_ifs with none <;> simp [none]

theorem fsmOf_eq_full_iff (pos : 0 < depth) {count : Nat} : fsmOf depth count = .fullState ↔ count = depth := by
  unfold fsmOf
  split_ifs with none whole
  · exact iff_of_false (by simp) (by omega)
  · simp [whole]
  · simp [whole]

structure RingHolds (depth : Nat) (s : RingState w) (q : List (BitVec w)) : Prop where
  inside : s.readPointer < depth
  bounded : q.length ≤ depth
  behind : s.writePointer = (s.readPointer + q.length) % depth
  flags : s.fsmState = fsmOf depth q.length
  words : q = window s.queueArray depth s.readPointer q.length

/-- The flags follow the number of words when a pop takes one away and a push
adds one; the pointers are equal when the number is zero or the depth. -/
theorem queueEmptyFullLogic_fsmOf {count : Nat} {pop push : Bool} (eqFlag : Bool) (deep : 1 < depth)
    (canPop : pop = true → 0 < count) (canPush : push = true → count < depth ∨ pop = true)
    (bounded : count ≤ depth)
    (equal : eqFlag = true ↔ (count - pop.toNat + push.toNat) % depth = 0) :
    queueEmptyFullLogic (fsmOf depth count) pop push eqFlag =
      fsmOf depth (count - pop.toNat + push.toNat) := by
  have next : count - pop.toNat + push.toNat ≤ depth := by
    cases pop <;> cases push <;> simp at canPop canPush ⊢ <;> omega
  have equal' : eqFlag = true ↔
      count - pop.toNat + push.toNat = 0 ∨ count - pop.toNat + push.toNat = depth := by
    rw [equal]
    rcases Nat.lt_or_eq_of_le next with less | whole
    · rw [Nat.mod_eq_of_lt less]
      omega
    · rw [whole, Nat.mod_self]
      simp
  clear equal next
  unfold fsmOf
  cases pop <;> cases push <;> cases eqFlag <;> simp at canPop canPush equal' ⊢ <;> split_ifs <;>
    simp [queueEmptyFullLogic] <;> omega

theorem RingHolds.empty_iff {s : RingState w} {q : List (BitVec w)} (held : RingHolds depth s q) :
    s.empty = true ↔ q.length = 0 := by
  rw [RingState.empty, held.flags, decide_eq_true_iff, fsmOf_eq_empty_iff]

theorem RingHolds.full_iff {s : RingState w} {q : List (BitVec w)} (deep : 1 < depth)
    (held : RingHolds depth s q) : s.full = true ↔ q.length = depth := by
  rw [RingState.full, held.flags, decide_eq_true_iff, fsmOf_eq_full_iff (Nat.zero_lt_of_lt deep)]

theorem RingHolds.pop {s : RingState w} {q : List (BitVec w)} (held : RingHolds depth s q)
    (distributedRam : Bool) (r : Request (BitVec w)) :
    ∃ rest, s.nextReadPointer depth r < depth ∧
      q = (if s.pop r then some (s.dataOut depth distributedRam) else none).toList ++ rest ∧
      rest.length = q.length - (s.pop r).toNat ∧
      s.writePointer = (s.nextReadPointer depth r + rest.length) % depth ∧
      rest = window s.queueArray depth (s.nextReadPointer depth r) rest.length := by
  unfold RingState.nextReadPointer
  cases popped : s.pop r with
  | false => exact ⟨q, held.inside, by simp, by simp, held.behind, held.words⟩
  | true =>
      have occupied : q.length ≠ 0 := by
        intro isEmpty
        simp [RingState.pop, held.empty_iff.mpr isEmpty] at popped
      obtain ⟨n, length⟩ := Nat.exists_eq_succ_of_ne_zero occupied
      have behind := held.behind
      have words := held.words
      rw [length] at behind words
      rw [window_succ_front held.inside] at words
      have next : RingState.incr depth s.readPointer < depth := by
        rw [incr_eq_mod held.inside]
        exact Nat.mod_lt _ (by have := held.inside; omega)
      have selected : s.dataOut depth distributedRam = s.queueArray s.readPointer := by
        simp [RingState.dataOut, held.inside]
      refine ⟨window s.queueArray depth ((s.readPointer + 1) % depth) n, ?_, ?_, ?_, ?_, ?_⟩
      · simpa using next
      · rw [selected]
        exact words
      · simp [length]
      · simp only [if_true, window_length, incr_eq_mod held.inside, Nat.mod_add_mod]
        rw [behind]
        congr 1
        omega
      · simp only [if_true, window_length, incr_eq_mod held.inside]

theorem RingHolds.occupied_of_pop {s : RingState w} {q : List (BitVec w)}
    (held : RingHolds depth s q) (r : Request (BitVec w)) (isPop : s.pop r = true) :
    0 < q.length := by
  simp only [RingState.pop, Bool.and_eq_true, Bool.not_eq_true'] at isPop
  rw [Nat.pos_iff_ne_zero]
  intro isEmpty
  rw [held.empty_iff.mpr isEmpty] at isPop
  exact Bool.noConfusion isPop.1

theorem RingHolds.room_of_push {s : RingState w} {q : List (BitVec w)}
    (held : RingHolds depth s q) (reverseBypassFlag : Bool) (r : Request (BitVec w))
    (deep : 1 < depth) (isPush : s.push reverseBypassFlag r = true) :
    q.length < depth ∨ s.pop r = true := by
  rcases Nat.lt_or_eq_of_le held.bounded with room | whole
  · exact Or.inl room
  · have isFull := (held.full_iff deep).mpr whole
    have notEmpty : s.empty = false := by
      rw [← Bool.not_eq_true, held.empty_iff]
      omega
    simp only [RingState.push, isFull, Bool.not_true, Bool.false_or, Bool.and_eq_true] at isPush
    exact Or.inr (by simp [RingState.pop, notEmpty, isPush.1.2])

theorem RingState.nextWritePointer_eq (s : RingState w) (reverseBypassFlag : Bool)
    (r : Request (BitVec w)) (inside : s.writePointer < depth) :
    s.nextWritePointer depth reverseBypassFlag r =
      (s.writePointer + (s.push reverseBypassFlag r).toNat) % depth := by
  unfold RingState.nextWritePointer
  cases s.push reverseBypassFlag r with
  | false => exact (Nat.mod_eq_of_lt inside).symm
  | true => rw [if_pos rfl, incr_eq_mod inside, Bool.toNat_true]

theorem ring_fifo (deep : 1 < depth) :
    (ring depth reverseBypassFlag distributedRam : Buffer (RingState w) (BitVec w)).Fifo depth
      (RingHolds depth) := by
  refine ⟨?_, fun s q held => held.bounded, ?_⟩
  · intro s r
    refine ⟨by simp [ring]; omega, Nat.zero_le _, by simp [ring], by simp [ring, fsmOf], rfl⟩
  · intro s r q held
    obtain ⟨rest, inside, front, length, behind, words⟩ := held.pop distributedRam r
    have popped : (ring depth reverseBypassFlag distributedRam).popped s r =
        if s.pop r then some (s.dataOut depth distributedRam) else none := by
      simp [Buffer.popped, ring, RingState.pop, Bool.and_comm]
    have pushed : (ring depth reverseBypassFlag distributedRam).pushed s r =
        if s.push reverseBypassFlag r then some r.dataIn else none := by
      simp [Buffer.pushed, ring, RingState.push, Bool.and_comm]
    have canPop := held.occupied_of_pop r
    have canPush := held.room_of_push reverseBypassFlag r deep
    have room : s.push reverseBypassFlag r = true → rest.length < depth := by
      intro isPush
      rcases canPush isPush with room | isPop
      · omega
      · have := canPop isPop
        have := held.bounded
        rw [isPop, Bool.toNat_true] at length
        omega
    have pointerInside : s.writePointer < depth := by
      rw [behind]
      exact Nat.mod_lt _ (by omega)
    have write : s.nextWritePointer depth reverseBypassFlag r =
        (s.nextReadPointer depth r + (rest.length + (s.push reverseBypassFlag r).toNat)) % depth := by
      rw [s.nextWritePointer_eq reverseBypassFlag r pointerInside, behind, Nat.mod_add_mod, Nat.add_assoc]
    have length' : (rest ++ (if s.push reverseBypassFlag r then some r.dataIn else none).toList).length =
        rest.length + (s.push reverseBypassFlag r).toNat := by
      cases s.push reverseBypassFlag r <;> simp
    refine ⟨rest ++ (if s.push reverseBypassFlag r then some r.dataIn else none).toList,
      ⟨inside, ?_, ?_, ?_, ?_⟩, ?_⟩
    · rw [length']
      cases isPush : s.push reverseBypassFlag r with
      | false =>
          have := held.bounded
          rw [Bool.toNat_false]
          omega
      | true => exact room isPush
    · rw [length']
      exact write
    · rw [length', length]
      have flags := queueEmptyFullLogic_fsmOf
        (decide (s.nextReadPointer depth r = s.nextWritePointer depth reverseBypassFlag r))
        deep canPop canPush held.bounded (by
          rw [decide_eq_true_iff, write, offset_eq_self_iff inside, length])
      rw [← held.flags] at flags
      exact flags
    · rw [length']
      cases isPush : s.push reverseBypassFlag r with
      | false =>
          simpa [ring, RingState.nextArray, isPush] using words
      | true =>
          simp only [ring, RingState.nextArray, isPush, pointerInside, decide_true, Bool.and_self,
            if_true, Option.toList_some, Bool.toNat_true]
          rw [behind, window_push (room isPush), ← words]
    · rw [popped, pushed, front, List.append_assoc]

end Ring

section Queue
variable {reverseBypassFlag distributedRam : Bool}

def QueueHolds : {depth : Nat} → QueueState w depth → List (BitVec w) → Prop
  | 0, _, q => q = []
  | 1, s, q => q = if SlotState.fullFlag s then [SlotState.dataReg s] else []
  | depth + 2, s, q => RingHolds (depth + 2) s q

theorem queueBaseWithEmptyFull_fifo (reverseBypassFlag distributedRam : Bool) : (depth : Nat) →
    (queueBaseWithEmptyFull reverseBypassFlag distributedRam depth :
      Buffer (QueueState w depth) (BitVec w)).Fifo depth QueueHolds
  | 0 => wires_fifo
  | 1 => slot_fifo
  | depth + 2 => ring_fifo (by omega)

theorem QueueHolds.spec : {depth : Nat} → {s : QueueState w depth} → {q : List (BitVec w)} →
    QueueHolds s q → s.count = q.length ∧ (s.empty = true ↔ q.length = 0) ∧
      (s.full = true ↔ q.length = depth)
  | 0, s, q, held => by
      obtain rfl : q = [] := held
      simp [QueueState.count, QueueState.empty, QueueState.full]
  | 1, s, q, held => by
      change q = if SlotState.fullFlag s then [SlotState.dataReg s] else [] at held
      rw [held]
      cases isFull : SlotState.fullFlag s <;>
        simp [QueueState.count, QueueState.empty, QueueState.full, isFull]
  | depth + 2, s, q, held => by
      have ringHolds : RingHolds (depth + 2) s q := held
      have full := ringHolds.full_iff (by omega)
      refine ⟨?_, ringHolds.empty_iff, full⟩
      change (if RingState.full s then depth + 2
        else (RingState.writePointer s + (depth + 2) - RingState.readPointer s) % (depth + 2)) = q.length
      split_ifs with isFull
      · exact (full.mp isFull).symm
      · have room : q.length < depth + 2 := by
          have := ringHolds.bounded
          have := mt full.mpr isFull
          omega
        have inside := ringHolds.inside
        rw [ringHolds.behind]
        rcases Nat.lt_or_ge (RingState.readPointer s + q.length) (depth + 2) with before | wrapped
        · rw [Nat.mod_eq_of_lt before, show RingState.readPointer s + q.length + (depth + 2) -
            RingState.readPointer s = q.length + (depth + 2) by omega, Nat.add_mod_right,
            Nat.mod_eq_of_lt room]
        · have wrap : (RingState.readPointer s + q.length) % (depth + 2) =
              RingState.readPointer s + q.length - (depth + 2) := by
            rw [Nat.mod_eq_sub_mod wrapped, Nat.mod_eq_of_lt (by omega)]
          rw [wrap, show RingState.readPointer s + q.length - (depth + 2) + (depth + 2) -
            RingState.readPointer s = q.length by omega, Nat.mod_eq_of_lt room]

theorem queueBaseWithEmptyFull_acks (distributedRam : Bool) : (depth : Nat) → (s : QueueState w (depth + 1)) →
    (r : Request (BitVec w)) →
    ((queueBaseWithEmptyFull false distributedRam (depth + 1)).respond s r).pushAck = !s.full ∧
      ((queueBaseWithEmptyFull false distributedRam (depth + 1)).respond s r).popAck = !s.empty
  | 0, s, r => by simp [queueBaseWithEmptyFull, slot, QueueState.full, QueueState.empty]
  | depth + 1, s, r => by simp [queueBaseWithEmptyFull, ring, QueueState.full, QueueState.empty]

/-- With the bypass a word may pass an empty queue in the cycle it comes in. -/
theorem queueWithBypass_fifo (depth : Nat) :
    (queueWithBypass distributedRam (depth + 1) : Buffer (QueueState w (depth + 1)) (BitVec w)).Fifo
      (depth + 1) QueueHolds := by
  have inner := queueBaseWithEmptyFull_fifo (w := w) false distributedRam (depth + 1)
  refine ⟨fun s r => inner.reset s _, inner.bounded, ?_⟩
  intro s r q held
  obtain ⟨q', held', law⟩ := inner.step s (innerRequest s r) q held
  obtain ⟨pushAck, popAck⟩ := queueBaseWithEmptyFull_acks distributedRam depth s
    (innerRequest s r)
  obtain ⟨_, emptyIff, fullIff⟩ := held.spec
  refine ⟨q', held', ?_⟩
  cases isEmpty : s.empty with
  | false =>
      have same : (queueWithBypass distributedRam (depth + 1)).pushed s r =
          (queueBaseWithEmptyFull false distributedRam (depth + 1)).pushed s (innerRequest s r) := by
        simp only [Buffer.pushed, pushAck]
        simp [queueWithBypass, innerRequest, isEmpty]
      have same' : (queueWithBypass distributedRam (depth + 1)).popped s r =
          (queueBaseWithEmptyFull false distributedRam (depth + 1)).popped s (innerRequest s r) := by
        simp [Buffer.popped, queueWithBypass, innerRequest, isEmpty]
      rw [same, same']
      exact law
  | true =>
      have none : q = [] := List.eq_nil_of_length_eq_zero (emptyIff.mp isEmpty)
      have notFull : s.full = false := by
        rw [← Bool.not_eq_true, fullIff, none, List.length_nil]
        omega
      simp only [Buffer.pushed, Buffer.popped, pushAck, popAck] at law
      simp only [innerRequest, isEmpty, notFull, none] at law ⊢
      cases pop : r.popReq <;> cases push : r.pushReq <;>
        simp_all [Buffer.pushed, Buffer.popped, queueWithBypass]

/-- A run from the reset on hands out what it has taken in, in order; the number
of words between is the count of the pointers, and the flags are those of it. -/
def RefinesQueue {depth : Nat} (B : Buffer (QueueState w depth) (BitVec w)) : Prop :=
  ∀ (s : QueueState w depth) (r : Request (BitVec w)) (rs : List (Request (BitVec w))),
    B.pops (B.reset s r) rs <+: B.pushes (B.reset s r) rs ∧
      (B.pushes (B.reset s r) rs).length =
        (B.pops (B.reset s r) rs).length + (B.run (B.reset s r) rs).count ∧
      (B.run (B.reset s r) rs).count ≤ depth ∧
      ((B.run (B.reset s r) rs).empty = true ↔ (B.run (B.reset s r) rs).count = 0) ∧
      ((B.run (B.reset s r) rs).full = true ↔ (B.run (B.reset s r) rs).count = depth)

theorem refinesQueue_of_fifo {depth : Nat} {B : Buffer (QueueState w depth) (BitVec w)}
    (fifo : B.Fifo depth QueueHolds) : RefinesQueue B := by
  intro s r rs
  obtain ⟨q, held, bounded, law⟩ := fifo.run_reset s r rs
  obtain ⟨count, empty, full⟩ := held.spec
  rw [count, law, List.length_append]
  exact ⟨List.prefix_append _ q, rfl, bounded, empty, full⟩

/-- `QueueBase`, `QueueBaseWithEmptyFull` in both modes and `QueueWithBypass`,
whose depth is at least one, refine a bounded queue. -/
theorem queues_refine_queue (w depth : Nat) (distributedRam : Bool) :
    RefinesQueue (queueBase depth : Buffer (QueueState w depth) (BitVec w)) ∧
      (∀ reverseBypassFlag, RefinesQueue (queueBaseWithEmptyFull reverseBypassFlag distributedRam depth :
        Buffer (QueueState w depth) (BitVec w))) ∧
      RefinesQueue (queueWithBypass distributedRam (depth + 1) :
        Buffer (QueueState w (depth + 1)) (BitVec w)) :=
  ⟨refinesQueue_of_fifo (queueBaseWithEmptyFull_fifo _ _ depth),
    fun _ => refinesQueue_of_fifo (queueBaseWithEmptyFull_fifo _ _ depth),
    refinesQueue_of_fifo (queueWithBypass_fifo depth)⟩

end Queue

end Ahir.Hardware
