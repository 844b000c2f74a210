import Ahir.Hardware.QueueBase

/-!
# The queue in a dual port memory

`SynchFifoWithDPRAM` keeps its words in a memory that delivers a word in the
cycle after it is asked for.  The word at the front is in the memory, on its way
from the memory, or in a register; while the memory is empty a word goes to the
register directly.
-/

set_option autoImplicit false

namespace Ahir.Hardware
open Ahir.Data

inductive ReadFsmState where
  | idle | valid | waitPop
  deriving DecidableEq

structure DpramState (w : Nat) where
  mem : Nat → BitVec w
  readPointer : Nat
  writePointer : Nat
  queueSize : Nat
  readState : ReadFsmState
  readData : BitVec w
  readDataReg : BitVec w

structure ReadControl where
  nextReadState : ReadFsmState
  readFromDpram : Bool := false
  latchReadData : Bool := false
  readyForBypass : Bool := false

namespace DpramState
variable {w : Nat} (depth : Nat) (s : DpramState w) (r : Request (BitVec w))

def nextWord : ReadControl :=
  if 0 < s.queueSize then { nextReadState := .valid, readFromDpram := true }
  else if r.pushReq then { nextReadState := .waitPop, latchReadData := true, readyForBypass := true }
  else { nextReadState := .idle }

def readControl : ReadControl :=
  match s.readState with
  | .idle => s.nextWord r
  | .valid => if r.popReq then s.nextWord r else { nextReadState := .waitPop, latchReadData := true }
  | .waitPop => if r.popReq then s.nextWord r else { nextReadState := .waitPop }

def writeToDpram : Bool :=
  r.pushReq && decide (s.queueSize < depth) && !(s.readControl r).readyForBypass

/-- The function `Incr`, on pointers of `Ceil_Log2(queue_depth)` bits. -/
def incr (pointer : Nat) : Nat :=
  if pointer < depth - 1 then (pointer + 1) % 2 ^ ceilLog2 depth else 0

/-- The word on its way from the memory; `collide` is what the memory delivers of
a word that is being written. -/
def nextReadData (collide : BitVec w) : BitVec w :=
  if (s.readControl r).readFromDpram then
    if s.writeToDpram depth r && decide (s.writePointer = s.readPointer) then collide
    else s.mem s.readPointer
  else s.readData

def nextMem : Nat → BitVec w :=
  if s.writeToDpram depth r then Function.update s.mem s.writePointer r.dataIn else s.mem

end DpramState

def synchFifoWithDPRAM {w : Nat} (collide : BitVec w) (depth : Nat) :
    Buffer (DpramState w) (BitVec w) where
  reset := fun s r =>
    { mem := s.nextMem depth r
      readPointer := 0
      writePointer := 0
      queueSize := 0
      readState := .idle
      readData := s.nextReadData depth r collide
      readDataReg := 0 }
  respond := fun s _ =>
    { dataOut := if s.readState = .valid then s.readData else s.readDataReg
      pushAck := decide (s.queueSize < depth)
      popAck := decide (s.readState ≠ .idle) }
  next := fun s r =>
    { mem := s.nextMem depth r
      readPointer :=
        if (s.readControl r).readFromDpram then DpramState.incr depth s.readPointer else s.readPointer
      writePointer :=
        if s.writeToDpram depth r then DpramState.incr depth s.writePointer else s.writePointer
      queueSize :=
        if s.writeToDpram depth r && !(s.readControl r).readFromDpram then s.queueSize + 1
        else if (s.readControl r).readFromDpram && !s.writeToDpram depth r then s.queueSize - 1
        else s.queueSize
      readState := (s.readControl r).nextReadState
      readData := s.nextReadData depth r collide
      readDataReg :=
        if (s.readControl r).latchReadData then
          if (s.readControl r).readyForBypass then r.dataIn else s.readData
        else s.readDataReg }

namespace DpramState
variable {w : Nat} {depth : Nat} {s : DpramState w}

def front (s : DpramState w) : Option (BitVec w) :=
  match s.readState with
  | .idle => none
  | .valid => some s.readData
  | .waitPop => some s.readDataReg

def contents (depth : Nat) (s : DpramState w) : List (BitVec w) :=
  s.front.toList ++ window s.mem depth s.readPointer s.queueSize

structure Consistent (depth : Nat) (s : DpramState w) : Prop where
  inside : s.readPointer < depth
  bounded : s.queueSize ≤ depth
  behind : s.writePointer = (s.readPointer + s.queueSize) % depth

theorem incr_eq_mod {pointer : Nat} (inside : pointer < depth) :
    incr depth pointer = (pointer + 1) % depth := by
  rw [← succWrap_eq_mod inside, incr, succWrap]
  have fits := le_two_pow_ceilLog2 depth
  split_ifs
  · omega
  · exact Nat.mod_eq_of_lt (by omega)
  · rfl
  · omega

def FrontLeaves (s : DpramState w) (r : Request (BitVec w)) : Prop :=
  s.readState = .idle ∨ r.popReq = true

/-- What the read process can decide: to fetch a word from the memory, to take
the word that comes in, to have none, or to keep the one at the front. -/
theorem readControl_cases (s : DpramState w) (r : Request (BitVec w)) :
    (s.FrontLeaves r ∧ 0 < s.queueSize ∧
      s.readControl r = { nextReadState := .valid, readFromDpram := true }) ∨
    (s.FrontLeaves r ∧ s.queueSize = 0 ∧ r.pushReq = true ∧
      s.readControl r = { nextReadState := .waitPop, latchReadData := true, readyForBypass := true }) ∨
    (s.FrontLeaves r ∧ s.queueSize = 0 ∧ r.pushReq = false ∧
      s.readControl r = { nextReadState := .idle }) ∨
    (¬ s.FrontLeaves r ∧ s.readControl r =
      { nextReadState := .waitPop, latchReadData := decide (s.readState = .valid) }) := by
  have next : (0 < s.queueSize ∧ s.nextWord r = { nextReadState := .valid, readFromDpram := true }) ∨
      (s.queueSize = 0 ∧ r.pushReq = true ∧
        s.nextWord r = { nextReadState := .waitPop, latchReadData := true, readyForBypass := true }) ∨
      (s.queueSize = 0 ∧ r.pushReq = false ∧ s.nextWord r = { nextReadState := .idle }) := by
    unfold nextWord
    split_ifs with occupied push
    · exact Or.inl ⟨occupied, rfl⟩
    · exact Or.inr (Or.inl ⟨by omega, push, rfl⟩)
    · exact Or.inr (Or.inr ⟨by omega, by simpa using push, rfl⟩)
  unfold FrontLeaves readControl
  cases state : s.readState <;> cases pop : r.popReq <;> simp [next]

/-- A word is fetched only while the memory has one, and never the one that is
being written; a word is written to a cell that is not in use. -/
theorem Consistent.ports {r : Request (BitVec w)} (consistent : s.Consistent depth) :
    ((s.readControl r).readFromDpram = true → 0 < s.queueSize) ∧
      ((s.readControl r).readFromDpram = true → s.writeToDpram depth r = true →
        s.writePointer ≠ s.readPointer) ∧
      (s.writeToDpram depth r = true → s.queueSize < depth ∧
        ∀ k < s.queueSize, s.writePointer ≠ (s.readPointer + k) % depth) := by
  have occupied : (s.readControl r).readFromDpram = true → 0 < s.queueSize := by
    intro read
    rcases readControl_cases s r with ⟨_, occupied, _⟩ | ⟨_, _, _, control⟩ | ⟨_, _, _, control⟩ |
      ⟨_, control⟩
    · exact occupied
    all_goals
      rw [control] at read
      cases read
  have room : s.writeToDpram depth r = true → s.queueSize < depth := by
    intro write
    simp only [writeToDpram, Bool.and_eq_true, decide_eq_true_eq] at write
    exact write.1.2
  have apart : s.writeToDpram depth r = true →
      ∀ k < s.queueSize, s.writePointer ≠ (s.readPointer + k) % depth := by
    intro write k inUse
    rw [consistent.behind]
    have := room write
    exact offset_ne (by omega) (by omega) (by omega)
  refine ⟨occupied, fun read write => ?_, fun write => ⟨room write, apart write⟩⟩
  have first := apart write 0 (occupied read)
  rwa [Nat.add_zero, Nat.mod_eq_of_lt consistent.inside] at first

variable {collide : BitVec w}

theorem Consistent.step (collide : BitVec w) (r : Request (BitVec w)) (deep : 1 < depth)
    (consistent : s.Consistent depth) :
    ((synchFifoWithDPRAM collide depth).next s r).Consistent depth ∧
      window s.mem depth s.readPointer s.queueSize ++
          (if s.writeToDpram depth r then some r.dataIn else none).toList =
        (if (s.readControl r).readFromDpram then some (s.mem s.readPointer) else none).toList ++
          window ((synchFifoWithDPRAM collide depth).next s r).mem depth
            ((synchFifoWithDPRAM collide depth).next s r).readPointer
            ((synchFifoWithDPRAM collide depth).next s r).queueSize := by
  obtain ⟨occupied, _, room⟩ := consistent.ports (r := r)
  have inside := consistent.inside
  have bounded := consistent.bounded
  have pointerInside : s.writePointer < depth := by
    rw [consistent.behind]
    exact Nat.mod_lt _ (by omega)
  have size : ((synchFifoWithDPRAM collide depth).next s r).queueSize =
      s.queueSize - (s.readControl r).readFromDpram.toNat + (s.writeToDpram depth r).toNat := by
    simp only [synchFifoWithDPRAM]
    cases read : (s.readControl r).readFromDpram <;> cases s.writeToDpram depth r <;> simp
    have := occupied read
    omega
  have first : ((synchFifoWithDPRAM collide depth).next s r).readPointer =
      if (s.readControl r).readFromDpram then (s.readPointer + 1) % depth else s.readPointer := by
    simp only [synchFifoWithDPRAM, incr_eq_mod inside]
  have cells : ((synchFifoWithDPRAM collide depth).next s r).mem =
      if s.writeToDpram depth r then
        Function.update s.mem ((s.readPointer + s.queueSize) % depth) r.dataIn else s.mem := by
    simp only [synchFifoWithDPRAM, nextMem, consistent.behind]
  have last : ((synchFifoWithDPRAM collide depth).next s r).writePointer =
      (s.readPointer + s.queueSize + (s.writeToDpram depth r).toNat) % depth := by
    simp only [synchFifoWithDPRAM, incr_eq_mod pointerInside]
    rw [consistent.behind]
    cases s.writeToDpram depth r <;> simp
  constructor
  · refine ⟨?_, ?_, ?_⟩
    · rw [first]
      split_ifs
      · exact Nat.mod_lt _ (by omega)
      · exact inside
    · rw [size]
      cases write : s.writeToDpram depth r with
      | false =>
          rw [Bool.toNat_false]
          omega
      | true =>
          have := (room write).1
          rw [Bool.toNat_true]
          omega
    · rw [size, first, last]
      cases read : (s.readControl r).readFromDpram with
      | false => simp [Nat.add_assoc]
      | true =>
          have := occupied read
          rw [if_pos rfl, Nat.mod_add_mod, Bool.toNat_true]
          congr 1
          omega
  · rw [size, first, cells]
    apply window_step inside occupied
    intro write
    have := (room write).1
    omega

theorem popped_eq (s : DpramState w) (r : Request (BitVec w)) :
    (synchFifoWithDPRAM collide depth).popped s r = if r.popReq then s.front else none := by
  cases state : s.readState <;> cases pop : r.popReq <;>
    simp [Buffer.popped, synchFifoWithDPRAM, front, state, pop]

theorem pushed_eq {r : Request (BitVec w)} (deep : 0 < depth) :
    (synchFifoWithDPRAM collide depth).pushed s r =
      if s.writeToDpram depth r || (s.readControl r).readyForBypass then some r.dataIn else none := by
  have bypass : (s.readControl r).readyForBypass = true → r.pushReq = true ∧ s.queueSize < depth := by
    intro bypass
    rcases readControl_cases s r with ⟨_, _, control⟩ | ⟨_, none, push, _⟩ | ⟨_, _, _, control⟩ |
      ⟨_, control⟩
    case inr.inl => exact ⟨push, by omega⟩
    all_goals
      rw [control] at bypass
      cases bypass
  cases passes : (s.readControl r).readyForBypass with
  | false => simp [Buffer.pushed, synchFifoWithDPRAM, writeToDpram, passes]
  | true =>
      obtain ⟨push, room⟩ := bypass passes
      simp [Buffer.pushed, synchFifoWithDPRAM, push, room]

theorem readyForBypass_empty (depth : Nat) {r : Request (BitVec w)} (bypass : (s.readControl r).readyForBypass = true) :
    s.queueSize = 0 ∧ (s.readControl r).readFromDpram = false ∧ s.writeToDpram depth r = false := by
  rcases readControl_cases s r with ⟨_, _, control⟩ | ⟨_, none, _, control⟩ | ⟨_, _, _, control⟩ |
    ⟨_, control⟩
  case inr.inl => exact ⟨none, by rw [control], by simp [writeToDpram, control]⟩
  all_goals
    rw [control] at bypass
    cases bypass

/-- The front word leaves, or stays; behind it comes the word that is fetched
from the memory, or the one that passes it. -/
theorem Consistent.front_step (collide : BitVec w) (r : Request (BitVec w)) (consistent : s.Consistent depth) :
    s.front.toList ++ (if (s.readControl r).readFromDpram then some (s.mem s.readPointer) else none).toList ++
        (if (s.readControl r).readyForBypass then some r.dataIn else none).toList =
      ((synchFifoWithDPRAM collide depth).popped s r).toList ++
        ((synchFifoWithDPRAM collide depth).next s r).front.toList := by
  have leaves : s.FrontLeaves r → (if r.popReq then s.front else none) = s.front := by
    rintro (idle | pop)
    · simp [front, idle]
    · rw [if_pos pop]
  have next : ((synchFifoWithDPRAM collide depth).next s r).front =
      match (s.readControl r).nextReadState with
      | .idle => none
      | .valid => some (s.nextReadData depth r collide)
      | .waitPop => some (if (s.readControl r).latchReadData then
          if (s.readControl r).readyForBypass then r.dataIn else s.readData
        else s.readDataReg) := rfl
  rw [popped_eq, next]
  rcases readControl_cases s r with ⟨leaving, _, control⟩ | ⟨leaving, _, _, control⟩ |
    ⟨leaving, _, _, control⟩ | ⟨stays, control⟩
  · -- the word that is fetched is not being written
    have apart : (s.writeToDpram depth r && decide (s.writePointer = s.readPointer)) = false := by
      have fetched := consistent.ports (r := r).2.1 (by rw [control])
      cases write : s.writeToDpram depth r with
      | false => rfl
      | true => simpa using fetched write
    simp [leaves leaving, control, nextReadData, apart]
  · simp [leaves leaving, control]
  · simp [leaves leaving, control]
  · simp only [FrontLeaves, not_or, Bool.not_eq_true] at stays
    simp only [stays.2, control]
    cases state : s.readState with
    | idle => exact absurd state stays.1
    | valid => simp [front, state]
    | waitPop => simp [front, state]

theorem synchFifoWithDPRAM_fifo (collide : BitVec w) (deep : 1 < depth) :
    (synchFifoWithDPRAM collide depth).Fifo (depth + 1) fun s q =>
      s.Consistent depth ∧ q = s.contents depth := by
  refine ⟨?_, ?_, ?_⟩
  · intro s r
    refine ⟨⟨?_, Nat.zero_le _, ?_⟩, rfl⟩
    · exact Nat.lt_of_lt_of_le Nat.zero_lt_one (Nat.le_of_lt deep)
    · exact (Nat.zero_mod depth).symm
  · rintro s q ⟨consistent, rfl⟩
    have := consistent.bounded
    have front : s.front.toList.length ≤ 1 := by cases s.front <;> simp
    rw [contents, List.length_append, window_length]
    omega
  · rintro s r q ⟨consistent, rfl⟩
    obtain ⟨consistent', memory⟩ := consistent.step collide r deep
    have first := consistent.front_step collide r
    refine ⟨_, ⟨consistent', rfl⟩, ?_⟩
    rw [pushed_eq (by omega), contents, contents]
    cases bypass : (s.readControl r).readyForBypass with
    | false =>
        simp only [bypass, Bool.false_eq_true, if_false, Option.toList_none, List.append_nil] at first
        rw [Bool.or_false, List.append_assoc, memory, ← List.append_assoc, first, List.append_assoc]
    | true =>
        obtain ⟨none, noRead, noWrite⟩ := readyForBypass_empty depth bypass
        simp only [none, noRead, noWrite, window_zero, Bool.false_eq_true, if_false,
          Option.toList_none, List.append_nil, List.nil_append] at memory
        simp only [bypass, noRead, Bool.false_eq_true, if_false, if_true, Option.toList_none,
          List.append_nil] at first
        rw [none, window_zero, List.append_nil, Bool.or_true, if_pos rfl, first, ← memory, List.append_nil]

end DpramState

/-- The words popped are the words pushed, in order, and what is left of them is
in the memory or at its front.  In every state that is reached, whatever is asked
for next, no word is fetched while it is being written, and none is written over
a word that is still to be read. -/
theorem synchFifoWithDPRAM_refines_queue {w depth : Nat} (deep : 1 < depth) (collide : BitVec w)
    (s : DpramState w) (r : Request (BitVec w)) (rs : List (Request (BitVec w))) :
    let B := synchFifoWithDPRAM collide depth
    let last := B.run (B.reset s r) rs
    B.pushes (B.reset s r) rs = B.pops (B.reset s r) rs ++ last.contents depth ∧
      last.queueSize ≤ depth ∧
      ∀ request : Request (BitVec w),
        ((last.readControl request).readFromDpram = true → last.writeToDpram depth request = true →
          last.writePointer ≠ last.readPointer) ∧
        (last.writeToDpram depth request = true →
          ∀ k < last.queueSize, last.writePointer ≠ (last.readPointer + k) % depth) := by
  intro B last
  obtain ⟨q, ⟨consistent, rfl⟩, _, law⟩ :=
    (DpramState.synchFifoWithDPRAM_fifo collide deep).run_reset s r rs
  refine ⟨law, consistent.bounded, fun request => ?_⟩
  obtain ⟨_, apart, room⟩ := consistent.ports (r := request)
  exact ⟨apart, fun write => (room write).2⟩

/-- Three words come in while the first waits, and two go out. -/
theorem synchFifoWithDPRAM_refines_queue_two :
    let B := synchFifoWithDPRAM (0 : BitVec 8) 2
    let s : DpramState 8 := ⟨fun _ => 0, 0, 0, 0, .idle, 0, 0⟩
    let r : Request (BitVec 8) := ⟨0, false, false⟩
    let rs : List (Request (BitVec 8)) :=
      [⟨1, true, false⟩, ⟨2, true, false⟩, ⟨3, true, true⟩, ⟨4, false, true⟩]
    B.pops (B.reset s r) rs = [1, 2] ∧
      B.pushes (B.reset s r) rs =
        B.pops (B.reset s r) rs ++ (B.run (B.reset s r) rs).contents 2 :=
  ⟨by decide, (synchFifoWithDPRAM_refines_queue (by decide) 0 _ _ _).1⟩

end Ahir.Hardware
