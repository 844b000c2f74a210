import Ahir.Hardware.QueueBase

/-!
# Queues without pointers

`QueueBaseCore`.  Each stage has a status bit and a word and looks only at its
neighbours: a pop moves the words one stage down, and a push loads the first
stage that is free behind the words.
-/

set_option autoImplicit false

namespace Ahir.Hardware

variable {w : Nat}

structure CoreSlotState (w : Nat) where
  qsize : Bool
  queueData : BitVec w

namespace CoreSlotState
variable (reverseBypassFlag : Bool) (s : CoreSlotState w) (r : Request (BitVec w))

def pushAck : Bool := !s.qsize || reverseBypassFlag && r.popReq

def popAck : Bool := s.qsize

def push : Bool := r.pushReq && s.pushAck reverseBypassFlag r

def pop : Bool := r.popReq && s.popAck

def nextQsize : Bool :=
  if s.push reverseBypassFlag r && !s.pop r then true
  else if s.pop r && !s.push reverseBypassFlag r then false
  else s.qsize

def nextQueueData : BitVec w := if s.push reverseBypassFlag r then r.dataIn else s.queueData

end CoreSlotState

def coreSlot (reverseBypassFlag : Bool) : Buffer (CoreSlotState w) (BitVec w) where
  reset := fun _ _ => { qsize := false, queueData := 0 }
  respond := fun s r =>
    { dataOut := s.queueData
      pushAck := s.pushAck reverseBypassFlag r
      popAck := s.popAck }
  next := fun s r =>
    { qsize := s.nextQsize reverseBypassFlag r, queueData := s.nextQueueData reverseBypassFlag r }

/-- The registers of the stages of a deeper queue; those from the depth on do not
exist. -/
structure StagesState (w : Nat) where
  stateVector : Nat → Bool
  queueData : Nat → BitVec w

namespace StagesState
variable (depth : Nat) (reverseBypassFlag : Bool) (s : StagesState w) (r : Request (BitVec w))

/-- All bits are as in `Zstatus`, and a word goes out. -/
def reverseBypassApplicable : Bool :=
  reverseBypassFlag && ((List.range depth).all s.stateVector && r.popReq)

def pushAck : Bool := !s.stateVector (depth - 1) || s.reverseBypassApplicable depth reverseBypassFlag r

def popAck : Bool := s.stateVector 0

def push : Bool := r.pushReq && s.pushAck depth reverseBypassFlag r

def pop : Bool := r.popReq && s.popAck

/-- The status bits of the stage above, of the stage and of the stage below.
There is nothing above the top, and below the bottom all is taken. -/
def stat3 (K : Nat) : Bool × Bool × Bool :=
  (if K = depth - 1 then false else s.stateVector (K + 1),
    s.stateVector K,
    if K = 0 then true else s.stateVector (K - 1))

def dataKp1 (K : Nat) : BitVec w := if K = depth - 1 then 0 else s.queueData (K + 1)

def nextStage (K : Nat) : Bool × BitVec w :=
  match s.stat3 depth K with
  | (false, false, true) =>
      if s.push depth reverseBypassFlag r && !s.pop r then (true, r.dataIn)
      else (s.stateVector K, s.queueData K)
  | (false, true, true) =>
      if s.push depth reverseBypassFlag r && s.pop r then (true, r.dataIn)
      else if !s.push depth reverseBypassFlag r && s.pop r then (false, s.queueData K)
      else (s.stateVector K, s.queueData K)
  | (true, true, true) =>
      if s.pop r then (s.stateVector K, s.dataKp1 depth K)
      else (s.stateVector K, s.queueData K)
  | _ => (s.stateVector K, s.queueData K)

end StagesState

def stages (depth : Nat) (reverseBypassFlag : Bool) : Buffer (StagesState w) (BitVec w) where
  reset := fun _ _ => { stateVector := fun _ => false, queueData := fun _ => 0 }
  respond := fun s r =>
    { dataOut := s.queueData 0
      pushAck := s.pushAck depth reverseBypassFlag r
      popAck := s.popAck }
  next := fun s r =>
    { stateVector := fun K => (s.nextStage depth reverseBypassFlag r K).1
      queueData := fun K => (s.nextStage depth reverseBypassFlag r K).2 }

/-- The registers of a queue of the given depth. -/
def CoreState (w : Nat) : Nat → Type
  | 0 => Unit
  | 1 => CoreSlotState w
  | _ + 2 => StagesState w

def queueBaseCore (reverseBypassFlag : Bool) : (depth : Nat) → Buffer (CoreState w depth) (BitVec w)
  | 0 => wires
  | 1 => coreSlot reverseBypassFlag
  | depth + 2 => stages (depth + 2) reverseBypassFlag

structure Kept {V : Type} (depth : Nat) (status : Nat → Bool) (data : Nat → V) (q : List V) : Prop where
  bounded : q.length ≤ depth
  words : ∀ K < depth, (if status K then some (data K) else none) = q[K]?

/-- The first stages, as many as there are words, are taken and no others. -/
def Thermometer (depth : Nat) (status : Nat → Bool) (count : Nat) : Prop :=
  ∀ K < depth, status K = decide (K < count)

theorem Thermometer.ones {depth count : Nat} {status : Nat → Bool} (code : Thermometer depth status count)
    (bounded : count ≤ depth) : (List.range depth).countP status = count := by
  have same : (List.range depth).countP status = (List.range depth).countP fun K => decide (K < count) := by
    apply List.countP_congr
    intro K inside
    rw [code K (List.mem_range.mp inside)]
  obtain ⟨rest, rfl⟩ := Nat.exists_eq_add_of_le bounded
  rw [same, List.range_add, List.countP_append, List.countP_eq_length.mpr, List.countP_eq_zero.mpr,
    List.length_range, Nat.add_zero]
  · intro K behind
    obtain ⟨i, -, rfl⟩ := List.mem_map.mp behind
    simp
  · intro K inside
    simpa using inside

section Kept
variable {V : Type} {depth : Nat} {status : Nat → Bool} {data : Nat → V} {q : List V}

theorem Kept.code (kept : Kept depth status data q) : Thermometer depth status q.length := by
  intro K inside
  have word := kept.words K inside
  cases taken : status K with
  | true =>
      rw [taken, if_pos rfl] at word
      obtain ⟨isWord, -⟩ := List.getElem?_eq_some_iff.mp word.symm
      exact (decide_eq_true isWord).symm
  | false =>
      rw [taken, if_neg Bool.false_ne_true] at word
      have behind := List.getElem?_eq_none_iff.mp word.symm
      exact (decide_eq_false (Nat.not_lt.mpr behind)).symm

theorem Kept.front (kept : Kept depth status data q) (pos : 0 < depth) {x : V} {rest : List V}
    (words : q = x :: rest) : data 0 = x := by
  have word := kept.words 0 pos
  rw [kept.code 0 pos, words] at word
  simpa using word

end Kept

section Slot
variable {reverseBypassFlag : Bool}

theorem kept_slot_iff {s : CoreSlotState w} {q : List (BitVec w)} :
    Kept 1 (fun _ => s.qsize) (fun _ => s.queueData) q ↔ q = if s.qsize then [s.queueData] else [] := by
  constructor
  · intro kept
    have bounded := kept.bounded
    have word := kept.words 0 Nat.one_pos
    apply List.ext_getElem?
    intro K
    cases K with
    | zero =>
        rw [← word]
        split_ifs <;> rfl
    | succ K =>
        rw [List.getElem?_eq_none (by omega), List.getElem?_eq_none]
        split_ifs <;> simp
  · rintro rfl
    refine ⟨by split_ifs <;> simp, ?_⟩
    intro K inside
    obtain rfl : K = 0 := by omega
    split_ifs <;> rfl

theorem coreSlot_fifo : (coreSlot reverseBypassFlag : Buffer (CoreSlotState w) (BitVec w)).Fifo 1
    fun s q => Kept 1 (fun _ => s.qsize) (fun _ => s.queueData) q := by
  refine ⟨?_, fun s q kept => kept.bounded, ?_⟩
  · intro s r
    exact ⟨Nat.zero_le 1, fun K _ => rfl⟩
  · intro s r q kept
    obtain rfl := kept_slot_iff.mp kept
    refine ⟨_, kept_slot_iff.mpr rfl, ?_⟩
    cases taken : s.qsize <;> cases pop : r.popReq <;> cases push : r.pushReq <;>
      cases reverseBypassFlag <;>
      simp [Buffer.pushed, Buffer.popped, coreSlot, CoreSlotState.nextQsize, CoreSlotState.nextQueueData,
        CoreSlotState.push, CoreSlotState.pop, CoreSlotState.pushAck, CoreSlotState.popAck, taken, pop, push]

end Slot

section Stages
variable {depth : Nat} {s : StagesState w} {q : List (BitVec w)}
  (kept : Kept depth s.stateVector s.queueData q)
include kept

theorem stat3_eq {K : Nat} (inside : K < depth) : s.stat3 depth K =
    (decide (K + 1 < q.length), decide (K < q.length), decide (K ≤ q.length)) := by
  have bounded := kept.bounded
  apply Prod.ext
  · change (if K = depth - 1 then false else s.stateVector (K + 1)) = decide (K + 1 < q.length)
    split_ifs with top
    · exact (decide_eq_false (by omega)).symm
    · exact kept.code (K + 1) (by omega)
  apply Prod.ext
  · exact kept.code K inside
  · change (if K = 0 then true else s.stateVector (K - 1)) = decide (K ≤ q.length)
    split_ifs with bottom
    · exact (decide_eq_true (by omega)).symm
    · rw [kept.code (K - 1) (by omega)]
      exact decide_eq_decide.mpr (by omega)

theorem stages_popAck (pos : 0 < depth) : s.popAck = decide (0 < q.length) := kept.code 0 pos

theorem stages_pushAck (pos : 0 < depth) (reverseBypassFlag : Bool) (r : Request (BitVec w)) :
    s.pushAck depth reverseBypassFlag r = (decide (q.length < depth) || reverseBypassFlag && r.popReq) := by
  unfold StagesState.pushAck StagesState.reverseBypassApplicable
  rw [kept.code (depth - 1) (by omega)]
  rcases Nat.lt_or_eq_of_le kept.bounded with room | whole
  · have free : ¬ depth - 1 < q.length := by omega
    rw [decide_eq_false free, decide_eq_true room]
    rfl
  · have taken : (List.range depth).all s.stateVector = true := by
      apply List.all_eq_true.mpr
      intro K inside
      rw [kept.code K (List.mem_range.mp inside), whole]
      exact decide_eq_true (List.mem_range.mp inside)
    have last : depth - 1 < q.length := by omega
    rw [decide_eq_true last, taken, whole, decide_eq_false (Nat.lt_irrefl depth)]
    rfl

/-- After the cycle a stage has the word of its number among those that stay and
the one that comes in, counted without the one that goes out. -/
theorem nextStage_word (reverseBypassFlag : Bool) (r : Request (BitVec w)) {K : Nat} (inside : K < depth) :
    (if (s.nextStage depth reverseBypassFlag r K).1 then some (s.nextStage depth reverseBypassFlag r K).2 else none) =
      (q ++ if s.push depth reverseBypassFlag r then [r.dataIn] else [])[K + (s.pop r).toNat]? := by
  have bounded := kept.bounded
  have own := kept.words K inside
  have length : (if s.push depth reverseBypassFlag r then [r.dataIn] else []).length ≤ 1 := by
    split_ifs <;> simp
  rw [StagesState.nextStage, stat3_eq kept inside]
  rcases Nat.lt_trichotomy (K + 1) q.length with below | last | behind
  · have above := kept.words (K + 1) (by omega)
    have notTop : K ≠ depth - 1 := by omega
    rw [kept.code K inside, decide_eq_true (by omega : K < q.length), if_pos rfl] at own
    rw [kept.code (K + 1) (by omega), decide_eq_true below, if_pos rfl] at above
    rw [decide_eq_true below, decide_eq_true (by omega : K < q.length), decide_eq_true (by omega : K ≤ q.length),
      kept.code K inside, decide_eq_true (by omega : K < q.length)]
    cases s.pop r with
    | true =>
        rw [List.getElem?_append_left (by simpa using below), Bool.toNat_true, ← above]
        simp [StagesState.dataKp1, notTop]
    | false =>
        rw [List.getElem?_append_left (by rw [Bool.toNat_false]; omega), Bool.toNat_false, Nat.add_zero, ← own]
        simp
  · rw [decide_eq_false (by omega : ¬ K + 1 < q.length), decide_eq_true (by omega : K < q.length),
      decide_eq_true (by omega : K ≤ q.length), kept.code K inside, decide_eq_true (by omega : K < q.length)]
    rw [kept.code K inside, decide_eq_true (by omega : K < q.length), if_pos rfl] at own
    cases isPop : s.pop r with
    | true =>
        rw [Bool.toNat_true, last, List.getElem?_append_right (Nat.le_refl _), Nat.sub_self]
        cases s.push depth reverseBypassFlag r <;> simp
    | false =>
        rw [Bool.toNat_false, Nat.add_zero, List.getElem?_append_left (by omega), ← own]
        cases s.push depth reverseBypassFlag r <;> simp
  · rw [decide_eq_false (by omega : ¬ K + 1 < q.length), decide_eq_false (by omega : ¬ K < q.length),
      kept.code K inside, decide_eq_false (by omega : ¬ K < q.length)]
    rcases Nat.lt_or_ge q.length K with above | next
    · rw [decide_eq_false (by omega : ¬ K ≤ q.length), List.getElem?_eq_none]
      · simp
      · rw [List.length_append]
        omega
    · obtain rfl : K = q.length := by omega
      rw [decide_eq_true (Nat.le_refl q.length), List.getElem?_append_right (by omega), Nat.add_sub_cancel_left]
      cases s.pop r <;> cases s.push depth reverseBypassFlag r <;> simp

/-- A full queue takes a word in only while it gives one out. -/
theorem stages_room (pos : 0 < depth) (reverseBypassFlag : Bool) (r : Request (BitVec w))
    (isPush : s.push depth reverseBypassFlag r = true) : q.length < depth ∨ s.pop r = true := by
  rw [StagesState.push, stages_pushAck kept pos, Bool.and_eq_true, Bool.or_eq_true, Bool.and_eq_true] at isPush
  obtain ⟨-, room | ⟨-, isPop⟩⟩ := isPush
  · exact Or.inl (of_decide_eq_true room)
  · rcases Nat.lt_or_eq_of_le kept.bounded with room | whole
    · exact Or.inl room
    · right
      rw [StagesState.pop, isPop, stages_popAck kept pos, whole]
      exact decide_eq_true pos

end Stages

theorem stages_fifo {depth : Nat} (pos : 0 < depth) (reverseBypassFlag : Bool) :
    (stages depth reverseBypassFlag : Buffer (StagesState w) (BitVec w)).Fifo depth
      fun s q => Kept depth s.stateVector s.queueData q := by
  refine ⟨?_, fun s q kept => kept.bounded, ?_⟩
  · intro s r
    exact ⟨Nat.zero_le depth, fun K _ => rfl⟩
  · intro s r q kept
    have bounded := kept.bounded
    have pushed : ((stages depth reverseBypassFlag).pushed s r).toList =
        if s.push depth reverseBypassFlag r then [r.dataIn] else [] := by
      change (if s.push depth reverseBypassFlag r then some r.dataIn else none).toList = _
      split_ifs <;> rfl
    have popped : (stages depth reverseBypassFlag).popped s r = if s.pop r then some (s.queueData 0) else none := rfl
    refine ⟨(q ++ ((stages depth reverseBypassFlag).pushed s r).toList).drop (s.pop r).toNat, ⟨?_, ?_⟩, ?_⟩
    · rw [pushed, List.length_drop, List.length_append]
      have room := stages_room kept pos reverseBypassFlag r
      cases isPush : s.push depth reverseBypassFlag r with
      | false =>
          change q.length + 0 - _ ≤ depth
          omega
      | true =>
          change q.length + 1 - _ ≤ depth
          rcases room isPush with room | isPop
          · omega
          · rw [isPop, Bool.toNat_true]
            omega
    · intro K inside
      rw [pushed, List.getElem?_drop, Nat.add_comm]
      exact nextStage_word kept reverseBypassFlag r inside
    · rw [popped]
      cases isPop : s.pop r with
      | false => rfl
      | true =>
          have waits : 0 < q.length := by
            rw [StagesState.pop, stages_popAck kept pos, Bool.and_eq_true] at isPop
            exact of_decide_eq_true isPop.2
          obtain ⟨x, rest, rfl⟩ := List.exists_cons_of_length_pos waits
          rw [kept.front pos rfl]
          rfl

section Core
variable {depth : Nat} {reverseBypassFlag : Bool}

namespace CoreState

def status : {depth : Nat} → CoreState w depth → Nat → Bool
  | 0, _, _ => false
  | 1, s, _ => CoreSlotState.qsize s
  | _ + 2, s, K => StagesState.stateVector s K

def data : {depth : Nat} → CoreState w depth → Nat → BitVec w
  | 0, _, _ => 0
  | 1, s, _ => CoreSlotState.queueData s
  | _ + 2, s, K => StagesState.queueData s K

/-- The output `empty`. -/
def empty (reverseBypassFlag : Bool) : {depth : Nat} → CoreState w depth → Request (BitVec w) → Bool
  | 0, _, _ => true
  | depth + 1, s, r => !((queueBaseCore reverseBypassFlag (depth + 1)).respond s r).popAck

/-- The output `full`. -/
def full (reverseBypassFlag : Bool) : {depth : Nat} → CoreState w depth → Request (BitVec w) → Bool
  | 0, _, _ => true
  | depth + 1, s, r => !((queueBaseCore reverseBypassFlag (depth + 1)).respond s r).pushAck

end CoreState

theorem queueBaseCore_fifo (reverseBypassFlag : Bool) : (depth : Nat) →
    (queueBaseCore reverseBypassFlag (depth + 1) : Buffer (CoreState w (depth + 1)) (BitVec w)).Fifo (depth + 1)
      fun s q => Kept (depth + 1) s.status s.data q
  | 0 => coreSlot_fifo
  | depth + 1 => stages_fifo (by omega) reverseBypassFlag

theorem queueBaseCore_respond (reverseBypassFlag : Bool) : (depth : Nat) → {s : CoreState w (depth + 1)} →
    {q : List (BitVec w)} → Kept (depth + 1) s.status s.data q → (r : Request (BitVec w)) →
    ((queueBaseCore reverseBypassFlag (depth + 1)).respond s r).pushAck =
        (decide (q.length < depth + 1) || reverseBypassFlag && r.popReq) ∧
      ((queueBaseCore reverseBypassFlag (depth + 1)).respond s r).popAck = decide (0 < q.length) ∧
      ((queueBaseCore reverseBypassFlag (depth + 1)).respond s r).dataOut = s.data 0
  | 0, s, q, kept, r => by
      obtain rfl := kept_slot_iff.mp kept
      change (!CoreSlotState.qsize s || reverseBypassFlag && r.popReq) = _ ∧ CoreSlotState.qsize s = _ ∧ _
      cases CoreSlotState.qsize s <;> simp <;> rfl
  | depth + 1, s, q, kept, r =>
      ⟨stages_pushAck kept (by omega) reverseBypassFlag r, stages_popAck kept (by omega), rfl⟩

/-- A run from the reset on hands out what it has taken in, in order.  In every
state it reaches, the status bits are a thermometer code of the number of words
that are still in the queue, and the acknowledges are those of a bounded queue. -/
theorem queueBaseCore_refines_queue (reverseBypassFlag : Bool) {depth : Nat} (pos : 1 ≤ depth)
    (s : CoreState w depth) (r : Request (BitVec w)) (rs : List (Request (BitVec w))) :
    let B := queueBaseCore reverseBypassFlag depth
    let s' := B.run (B.reset s r) rs
    ∃ q : List (BitVec w),
      B.pushes (B.reset s r) rs = B.pops (B.reset s r) rs ++ q ∧
      q.length ≤ depth ∧
      Thermometer depth s'.status q.length ∧
      (List.range depth).countP s'.status = q.length ∧
      ∀ r' : Request (BitVec w),
        (B.respond s' r').pushAck = (decide (q.length < depth) || reverseBypassFlag && r'.popReq) ∧
        (B.respond s' r').popAck = decide (q ≠ []) ∧
        (∀ x ∈ q.head?, (B.respond s' r').dataOut = x) ∧
        s'.empty reverseBypassFlag r' = decide (q = []) ∧
        s'.full reverseBypassFlag r' = !(decide (q.length < depth) || reverseBypassFlag && r'.popReq) := by
  obtain ⟨depth, rfl⟩ : ∃ d, depth = d + 1 := ⟨depth - 1, by omega⟩
  intro B s'
  obtain ⟨q, kept, bounded, law⟩ := (queueBaseCore_fifo reverseBypassFlag depth).run_reset s r rs
  refine ⟨q, law, bounded, kept.code, kept.code.ones bounded, ?_⟩
  intro r'
  obtain ⟨pushAck, popAck, dataOut⟩ := queueBaseCore_respond reverseBypassFlag depth kept r'
  have waits : decide (0 < q.length) = decide (q ≠ []) := decide_eq_decide.mpr List.length_pos_iff
  refine ⟨pushAck, popAck.trans waits, ?_, ?_, ?_⟩
  · intro x isHead
    obtain ⟨rest, words⟩ := List.head?_eq_some_iff.mp isHead
    exact dataOut.trans (kept.front pos words)
  · change (!_) = _
    rw [popAck, waits]
    simp
  · change (!_) = _
    rw [pushAck]

/-- A third word comes in while the first goes out of a full queue. -/
theorem queueBaseCore_refines_queue_full :
    let B : Buffer (CoreState 4 2) (BitVec 4) := queueBaseCore true 2
    let s : CoreState 4 2 := B.reset ⟨fun _ => true, fun _ => 0⟩ ⟨0, false, false⟩
    let rs : List (Request (BitVec 4)) := [⟨1, true, false⟩, ⟨2, true, false⟩, ⟨3, true, true⟩]
    B.pops s rs = [1] ∧ ∃ q : List (BitVec 4), B.pushes s rs = B.pops s rs ++ q ∧ q.length ≤ 2 := by
  intro B s rs
  obtain ⟨q, law, bounded, -⟩ := queueBaseCore_refines_queue true (Nat.le_succ 1)
    (⟨fun _ => true, fun _ => 0⟩ : StagesState 4) ⟨0, false, false⟩ rs
  exact ⟨by decide, q, law, bounded⟩

end Core

end Ahir.Hardware
