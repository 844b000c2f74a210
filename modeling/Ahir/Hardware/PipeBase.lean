import Ahir.Run.Conserving
import Ahir.Hardware.BufferChain
import Ahir.Hardware.OutputPortLevel
import Ahir.Hardware.SynchFifoWithDPRAM
import Ahir.Hardware.SynchLifo

/-!
# Pipes

`PipeBase` is a queue, chosen by the generics, with an output port before it for
several writers and an input port behind it for several readers.  The words that
are acknowledged to the readers are those that were acknowledged to the writers,
in the order in which that happened.
-/

set_option autoImplicit false

namespace Ahir.Hardware
open Ahir.Data Ahir.Run
variable {w : Nat}

/-! ### A queue that saves a slot -/

/-- The registers of `QueueBaseSaveSlot`. -/
structure SaveSlotState (w : Nat) where
  queueArray : Nat → BitVec w
  readPointer : Nat
  writePointer : Nat
  queueSize : Nat

namespace SaveSlotState
variable (physicalQueueDepth : Nat) (s : SaveSlotState w) (r : Request (BitVec w))

def push : Bool := (r.popReq || decide (s.queueSize < physicalQueueDepth)) && r.pushReq

def pop : Bool := decide (0 < s.queueSize) && r.popReq

/-- The pointer of a queue with one slot stays; else the function `Incr`, up to the last index. -/
def incr (pointer : Nat) : Nat :=
  if physicalQueueDepth = 1 then pointer else if pointer < physicalQueueDepth - 1 then pointer + 1 else 0

def nextSize : Nat :=
  if s.pop r && !s.push physicalQueueDepth r then s.queueSize - 1
  else if s.push physicalQueueDepth r && !s.pop r then s.queueSize + 1
  else s.queueSize

end SaveSlotState

/-- `QueueBaseSaveSlot`, where slots are left when one is saved. -/
def savedSlots (physicalQueueDepth : Nat) : Buffer (SaveSlotState w) (BitVec w) where
  reset := fun s _ =>
    { queueArray := Function.update s.queueArray 0 0, readPointer := 0, writePointer := 0, queueSize := 0 }
  respond := fun s r =>
    { dataOut := s.queueArray s.readPointer
      pushAck := decide (s.queueSize < physicalQueueDepth) || r.popReq
      popAck := decide (0 < s.queueSize) }
  next := fun s r =>
    { queueArray := if s.push physicalQueueDepth r then Function.update s.queueArray s.writePointer r.dataIn
        else s.queueArray
      readPointer := if s.pop r then SaveSlotState.incr physicalQueueDepth s.readPointer else s.readPointer
      writePointer := if s.push physicalQueueDepth r then SaveSlotState.incr physicalQueueDepth s.writePointer
        else s.writePointer
      queueSize := s.nextSize physicalQueueDepth r }

namespace SaveSlotState
variable {depth : Nat} {s : SaveSlotState w} {r : Request (BitVec w)}

structure Holds (depth : Nat) (s : SaveSlotState w) (q : List (BitVec w)) : Prop where
  inside : s.readPointer < depth
  bounded : s.queueSize ≤ depth
  behind : s.writePointer = (s.readPointer + s.queueSize) % depth
  words : q = window s.queueArray depth s.readPointer s.queueSize

theorem incr_eq_mod {pointer : Nat} (inside : pointer < depth) : incr depth pointer = (pointer + 1) % depth := by
  rw [incr]
  split_ifs with one more
  · subst one
    omega
  · exact (Nat.mod_eq_of_lt (by omega)).symm
  · rw [show pointer + 1 = depth by omega, Nat.mod_self]

theorem push_room (some : 0 < depth) (bounded : s.queueSize ≤ depth) (push : s.push depth r = true) :
    s.queueSize - (s.pop r).toNat < depth := by
  unfold SaveSlotState.push at push
  unfold SaveSlotState.pop
  rw [Bool.and_eq_true, Bool.or_eq_true, decide_eq_true_iff] at push
  rcases push.1 with pop | room
  · rw [pop, Bool.and_true]
    by_cases occupied : 0 < s.queueSize
    · rw [decide_eq_true occupied, Bool.toNat_true]
      omega
    · omega
  · omega

theorem nextSize_eq (occupied : s.pop r = true → 0 < s.queueSize) :
    s.nextSize depth r = s.queueSize - (s.pop r).toNat + (s.push depth r).toNat := by
  unfold nextSize
  cases pop : s.pop r with
  | false => cases s.push depth r <;> simp
  | true =>
      have := occupied pop
      cases s.push depth r with
      | false => simp
      | true =>
          simp only [Bool.not_true, Bool.and_false, Bool.false_eq_true, if_false, Bool.toNat_true]
          omega

end SaveSlotState

open SaveSlotState in
theorem savedSlots_fifo {depth : Nat} (some : 0 < depth) :
    (savedSlots depth : Buffer (SaveSlotState w) (BitVec w)).Fifo depth (SaveSlotState.Holds depth) := by
  refine ⟨fun s r => ⟨some, Nat.zero_le _, (Nat.zero_mod depth).symm, rfl⟩, ?_, ?_⟩
  · rintro s q held
    rw [held.words, window_length]
    exact held.bounded
  · rintro s r q held
    have inside := held.inside
    have occupied : s.pop r = true → 0 < s.queueSize := fun pop => by
      unfold SaveSlotState.pop at pop
      rw [Bool.and_eq_true, decide_eq_true_iff] at pop
      exact pop.1
    have room := push_room (s := s) (r := r) some held.bounded
    have pointerInside : s.writePointer < depth := held.behind ▸ Nat.mod_lt _ some
    have pushed : (savedSlots depth).pushed s r = if s.push depth r then Option.some r.dataIn else none := by
      simp [Buffer.pushed, savedSlots, SaveSlotState.push, and_comm, or_comm]
    have popped : (savedSlots depth).popped s r =
        if s.pop r then Option.some (s.queueArray s.readPointer) else none := by
      simp [Buffer.popped, savedSlots, SaveSlotState.pop, and_comm]
    have law := @window_step _ s.queueArray _ _ _ r.dataIn _ _ inside occupied room
    rw [← pushed, ← popped, ← held.words] at law
    refine ⟨_, ⟨?_, ?_, ?_, rfl⟩, ?_⟩
    · show (if s.pop r then incr depth s.readPointer else s.readPointer) < depth
      rw [SaveSlotState.incr_eq_mod inside]
      split_ifs
      · exact Nat.mod_lt _ some
      · exact inside
    · show s.nextSize depth r ≤ depth
      rw [nextSize_eq occupied]
      cases push : s.push depth r with
      | false =>
          have := held.bounded
          rw [Bool.toNat_false]
          omega
      | true =>
          have := room push
          rw [Bool.toNat_true]
          omega
    · show (if s.push depth r then incr depth s.writePointer else s.writePointer) =
        ((if s.pop r then incr depth s.readPointer else s.readPointer) + s.nextSize depth r) % depth
      rw [nextSize_eq occupied, SaveSlotState.incr_eq_mod inside, SaveSlotState.incr_eq_mod pointerInside, held.behind]
      cases pop : s.pop r with
      | false => cases s.push depth r <;> simp [Nat.add_assoc]
      | true =>
          have := occupied pop
          cases s.push depth r with
          | false =>
              simp only [Bool.false_eq_true, if_false, if_true, Bool.toNat_true, Bool.toNat_false, Nat.mod_add_mod]
              congr 1
              omega
          | true =>
              simp only [if_true, Bool.toNat_true, Nat.mod_add_mod]
              congr 1
              omega
    · rw [law]
      show _ = _ ++ window (if s.push depth r then Function.update s.queueArray s.writePointer r.dataIn else s.queueArray)
        depth (if s.pop r then incr depth s.readPointer else s.readPointer) (s.nextSize depth r)
      rw [nextSize_eq occupied, SaveSlotState.incr_eq_mod inside, held.behind]

/-! ### The queue of a pipe -/

structure Clocked (V : Type) where
  State : Type
  buffer : Buffer State V

structure PipeGenerics where
  lifoMode : Bool := false
  depth : Nat := 1
  shiftRegisterMode : Bool := false
  saveSlot : Bool := false
  bypass : Bool := false

/-- `global_pipe_shallowness_threshold`. -/
def pipeShallownessThreshold : Nat := 10

def PipeGenerics.shallowFlag (g : PipeGenerics) : Bool := decide (g.depth < pipeShallownessThreshold)

/-- `QueueBaseSaveSlot`; with one slot only, which is saved, it is a set of wires. -/
def queueBaseSaveSlot : (queueDepth : Nat) → Clocked (BitVec w)
  | 0 | 1 => ⟨Unit, wires⟩
  | depth + 2 => ⟨SaveSlotState w, savedSlots (depth + 1)⟩

/-- `ShiftRegisterQueue`: queues of depth two in a row. -/
def shiftRegisterQueue (queueDepth : Nat) : Clocked (BitVec w) :=
  match (queueDepth + 1) / 2 with
  | 0 => ⟨Unit, wires⟩
  | stages + 1 => ⟨Buffer.Row (QueueState w 2) stages, Buffer.row (queueBase 2) stages⟩

/-- The queue that the generics choose; `collide` is what the dual port memory delivers of a word that is
being written. -/
def pipeQueue (collide : BitVec w) (g : PipeGenerics) : Clocked (BitVec w) :=
  if g.lifoMode then ⟨LifoState w, synchLifo g.depth⟩
  else if g.shallowFlag then
    if g.saveSlot && decide (0 < g.depth) then queueBaseSaveSlot g.depth
    else if !g.saveSlot && g.bypass && decide (0 < g.depth) then ⟨QueueState w g.depth, queueWithBypass false g.depth⟩
    else ⟨QueueState w g.depth, queueBase g.depth⟩
  else if g.shiftRegisterMode then shiftRegisterQueue g.depth
  else ⟨DpramState w, synchFifoWithDPRAM collide g.depth⟩

def Clocked.IsFifo (C : Clocked (BitVec w)) (capacity : Nat) : Prop := ∃ holds, C.buffer.Fifo capacity holds

theorem wires_isFifo (capacity : Nat) : (⟨Unit, wires⟩ : Clocked (BitVec w)).IsFifo capacity :=
  ⟨_, { wires_fifo with bounded := fun s q held => (wires_fifo.bounded s q held).trans (Nat.zero_le capacity) }⟩

theorem queueBaseSaveSlot_isFifo : (queueDepth : Nat) →
    (queueBaseSaveSlot queueDepth : Clocked (BitVec w)).IsFifo (queueDepth + 1)
  | 0 => wires_isFifo _
  | 1 => wires_isFifo _
  | depth + 2 =>
      have fifo := savedSlots_fifo (w := w) (Nat.succ_pos depth)
      ⟨_, { fifo with bounded := fun s q held => (fifo.bounded s q held).trans (by omega) }⟩

/-- The outputs of a queue without bypass do not depend on what is asked of it. -/
theorem queueBase_registered (depth : Nat) : (queueBase (depth + 1) : Buffer (QueueState w (depth + 1)) (BitVec w)).Registered := by
  intro s r r'
  cases depth with
  | zero => simp [queueBase, queueBaseWithEmptyFull, slot]
  | succ depth => simp [queueBase, queueBaseWithEmptyFull, ring]

theorem shiftRegisterQueue_isFifo (queueDepth : Nat) :
    (shiftRegisterQueue queueDepth : Clocked (BitVec w)).IsFifo (queueDepth + 1) := by
  unfold shiftRegisterQueue
  cases stages : (queueDepth + 1) / 2 with
  | zero => exact wires_isFifo _
  | succ n =>
      have fifo := Buffer.row_fifo (queueBase_registered (w := w) 1).forward (queueBaseWithEmptyFull_fifo false false 2) n
      exact ⟨_, { fifo with bounded := fun s q held => (fifo.bounded s q held).trans (by omega) }⟩

theorem queueWithBypass_isFifo : (depth : Nat) → 0 < depth →
    (⟨QueueState w depth, queueWithBypass false depth⟩ : Clocked (BitVec w)).IsFifo (depth + 1)
  | depth + 1, _ =>
      have fifo := @queueWithBypass_fifo w false depth
      ⟨_, { fifo with bounded := fun s q held => (fifo.bounded s q held).trans (Nat.le_succ _) }⟩

/-- Every queue that is not a stack holds at most one word more than its depth. -/
theorem pipeQueue_isFifo (collide : BitVec w) {g : PipeGenerics} (queue : g.lifoMode = false) :
    (pipeQueue collide g).IsFifo (g.depth + 1) := by
  unfold pipeQueue
  rw [queue, if_neg Bool.false_ne_true]
  have weaker {S : Type} {B : Buffer S (BitVec w)} {holds : S → List (BitVec w) → Prop} (fifo : B.Fifo g.depth holds) :
      (⟨S, B⟩ : Clocked (BitVec w)).IsFifo (g.depth + 1) :=
    ⟨holds, { fifo with bounded := fun s q held => (fifo.bounded s q held).trans (Nat.le_succ _) }⟩
  split_ifs with shallow save bypass shift
  · exact queueBaseSaveSlot_isFifo g.depth
  · rw [Bool.and_eq_true, decide_eq_true_iff] at bypass
    exact queueWithBypass_isFifo g.depth bypass.2
  · exact weaker (queueBaseWithEmptyFull_fifo false false g.depth)
  · exact shiftRegisterQueue_isFifo g.depth
  · have deep : 1 < g.depth := by
      have threshold : ¬ g.depth < pipeShallownessThreshold := by
        simpa [PipeGenerics.shallowFlag] using shallow
      unfold pipeShallownessThreshold at threshold
      omega
    exact ⟨_, DpramState.synchFifoWithDPRAM_fifo collide deep⟩

/-! ### The ports -/

structure PipeInputs (numReads numWrites w : Nat) where
  readReq : Fin numReads → Bool
  writeReq : Fin numWrites → Bool
  writeData : Fin numWrites → BitVec w

/-- The registers: those of the queue, and the requests that `NobodyLeftBehind` keeps. -/
structure PipeState (S : Type) (numWrites : Nat) where
  queue : S
  reqInRegister : Fin numWrites → Bool

namespace PipeBase
variable {S : Type} {numReads numWrites : Nat} (B : Buffer S (BitVec w)) (s : PipeState S numWrites)
  (i : PipeInputs numReads numWrites w)

/-- `OutputPortLevel` before the queue; the request and the data do not depend on `oack`. -/
def writeMux (oack : Bool) : PortOutputs numWrites w :=
  OutputPortLevel.outputs false s.reqInRegister ⟨i.writeReq, i.writeData, oack⟩

/-- `req_active` of `InputPortLevel`. -/
def readActive : Fin numReads → Bool := priorityEncode i.readReq

/-- What the queue is asked; a single writer and a single reader are connected through. -/
def queueRequest : Request (BitVec w) where
  dataIn := if single : numWrites = 1 then i.writeData ⟨0, by omega⟩ else (writeMux s i false).odata
  pushReq := if single : numWrites = 1 then i.writeReq ⟨0, by omega⟩ else (writeMux s i false).oreq
  popReq := if single : numReads = 1 then i.readReq ⟨0, by omega⟩ else decide (∃ R, readActive i R = true)

def pipe : Response (BitVec w) := B.respond s.queue (queueRequest s i)

def writeAck (W : Fin numWrites) : Bool :=
  if numWrites = 1 then (pipe B s i).pushAck else (writeMux s i (pipe B s i).pushAck).ack W

def readAck (R : Fin numReads) : Bool :=
  if numReads = 1 then (pipe B s i).popAck else readActive i R && (pipe B s i).popAck

def readData (_ : Fin numReads) : BitVec w := (pipe B s i).dataOut

def next : PipeState S numWrites where
  queue := B.next s.queue (queueRequest s i)
  reqInRegister := OutputPortLevel.next false s.reqInRegister ⟨i.writeReq, i.writeData, (pipe B s i).pushAck⟩

def reset : PipeState S numWrites where
  queue := B.reset s.queue (queueRequest s i)
  reqInRegister := fun _ => false

def written : List (Fin numWrites × BitVec w) :=
  ((List.finRange numWrites).filter fun W => i.writeReq W && writeAck B s i W).map fun W => (W, i.writeData W)

def read : List (Fin numReads × BitVec w) :=
  ((List.finRange numReads).filter fun R => i.readReq R && readAck B s i R).map fun R => (R, readData B s i R)

def unanswered (W : Fin numWrites) : Bool := i.writeReq W && !writeAck B s i W

/-- A run keeps the requests of the last cycle that were not acknowledged. -/
def turn (s : PipeState S numWrites × (Fin numWrites → Bool)) (i : PipeInputs numReads numWrites w) :
    PipeState S numWrites × (Fin numWrites → Bool) := (next B s.1 i, unanswered B s.1 i)

def Patient (s : PipeState S numWrites × (Fin numWrites → Bool)) (i : PipeInputs numReads numWrites w) : Prop :=
  ∀ W, s.2 W = true → i.writeReq W = true

instance decidablePatient (s : PipeState S numWrites × (Fin numWrites → Bool)) (i : PipeInputs numReads numWrites w) :
    Decidable (Patient s i) := inferInstanceAs (Decidable (∀ _, _))

variable {B s i}

theorem foldl_or_one {n : Nat} {K : Fin n} (data : Fin n → BitVec w) :
    (List.finRange n).foldl (fun odata I => (if decide (I = K) then data I else 0) ||| odata) 0 = data K := by
  have general : ∀ (order : List (Fin n)) (odata : BitVec w),
      order.foldl (fun odata I => (if decide (I = K) then data I else 0) ||| odata) odata =
        if K ∈ order then data K ||| odata else odata := by
    intro order
    induction order with
    | nil => simp
    | cons I order ih =>
        intro odata
        rw [List.foldl_cons, ih]
        by_cases same : I = K
        · subst same
          by_cases later : I ∈ order
          · rw [if_pos later, if_pos List.mem_cons_self, decide_eq_true rfl, if_pos rfl, ← BitVec.or_assoc,
              BitVec.or_self]
          · rw [if_neg later, if_pos List.mem_cons_self, decide_eq_true rfl, if_pos rfl]
        · have other : K ≠ I := fun equal => same equal.symm
          rw [decide_eq_false same, if_neg Bool.false_ne_true]
          simp [other]
  rw [general, if_pos (List.mem_finRange K)]
  exact BitVec.or_zero

theorem filter_finRange_eq {n : Nat} (K : Fin n) (this : Bool) :
    (List.finRange n).filter (fun I => decide (I = K) && this) = if this then [K] else [] := by
  cases this with
  | false => simp
  | true =>
      have once := List.count_eq_one_of_mem (List.nodup_finRange n) (List.mem_finRange K)
      simp only [Bool.and_true, if_true]
      rw [List.filter_eq, once, List.replicate_one]

/-- What comes out of the output port: one writer asks and is passed through, or none asks. -/
theorem writeMux_cases (several : numWrites ≠ 1) (asked : ∀ W, s.reqInRegister W = true → i.writeReq W = true) :
    (∃ K, i.writeReq K = true ∧ ∀ oack, writeMux s i oack = ⟨fun W => decide (W = K) && oack, true, i.writeData K⟩) ∨
      ∀ oack, (writeMux s i oack).oreq = false ∧ ∀ W, (writeMux s i oack).ack W = false := by
  rcases priorityEncode_cases (NobodyLeftBehind.reqOut s.reqInRegister i.writeReq) with ⟨K, fair, only⟩ | ⟨_, none⟩
  · refine Or.inl ⟨K, ?_, fun oack => ?_⟩
    · unfold NobodyLeftBehind.reqOut at fair
      rw [if_neg several] at fair
      split_ifs at fair
      · exact asked K fair
      · exact fair
    · have active : OutputPortLevel.reqActive false s.reqInRegister ⟨i.writeReq, i.writeData, oack⟩ =
          fun W => decide (W = K) := only
      have data : OutputPortLevel.dataArray false s.reqInRegister ⟨i.writeReq, i.writeData, oack⟩ =
          fun W => if decide (W = K) then i.writeData W else 0 := by
        funext W
        rw [OutputPortLevel.dataArray, if_neg several, active]
      have acks : OutputPortLevel.ackSig false s.reqInRegister ⟨i.writeReq, i.writeData, oack⟩ =
          fun W => decide (W = K) && oack := by
        funext W
        rw [OutputPortLevel.ackSig, if_neg several, active]
      rw [writeMux, OutputPortLevel.outputs, acks, data, active, foldl_or_one]
      simp [NobodyLeftBehind.ackOut]
  · refine Or.inr fun oack => ?_
    have active : OutputPortLevel.reqActive false s.reqInRegister ⟨i.writeReq, i.writeData, oack⟩ =
        fun _ => false := none
    refine ⟨?_, fun W => ?_⟩
    · rw [writeMux, OutputPortLevel.outputs, active]
      simp
    · show OutputPortLevel.ackSig false s.reqInRegister ⟨i.writeReq, i.writeData, oack⟩ W = false
      rw [OutputPortLevel.ackSig, if_neg several, active, Bool.false_and]

/-- The word that the queue takes in is the one that is acknowledged. -/
theorem written_eq (asked : numWrites ≠ 1 → ∀ W, s.reqInRegister W = true → i.writeReq W = true) :
    (written B s i).map Prod.snd = (B.pushed s.queue (queueRequest s i)).toList := by
  by_cases single : numWrites = 1
  · subst single
    have same : B.respond s.queue (queueRequest s i) = pipe B s i := rfl
    rw [written, Buffer.pushed, same]
    simp only [writeAck, queueRequest, dif_pos, if_pos]
    cases both : i.writeReq ⟨0, by omega⟩ && (pipe B s i).pushAck <;> simp_all [List.finRange_succ]
  · have request : (queueRequest s i).pushReq = (writeMux s i false).oreq := dif_neg single
    have data : (queueRequest s i).dataIn = (writeMux s i false).odata := dif_neg single
    have ack (W : Fin numWrites) : writeAck B s i W = (writeMux s i (pipe B s i).pushAck).ack W := if_neg single
    have same : B.respond s.queue (queueRequest s i) = pipe B s i := rfl
    rw [Buffer.pushed, same, request, data, written]
    rcases writeMux_cases single (asked single) with ⟨K, wants, through⟩ | nobody
    · have chosen (W : Fin numWrites) : (i.writeReq W && writeAck B s i W) = (decide (W = K) && (pipe B s i).pushAck) := by
        rw [ack, through]
        by_cases isK : W = K
        · rw [isK, wants, Bool.true_and]
        · simp [isK]
      simp only [chosen, through, filter_finRange_eq]
      cases (pipe B s i).pushAck <;> simp
    · simp [ack, (nobody _).1, (nobody _).2]

/-- The word that the queue hands out is the one that is read. -/
theorem read_eq : (read B s i).map Prod.snd = (B.popped s.queue (queueRequest s i)).toList := by
  have same : B.respond s.queue (queueRequest s i) = pipe B s i := rfl
  by_cases single : numReads = 1
  · subst single
    rw [read, Buffer.popped, same]
    simp only [readAck, readData, queueRequest, dif_pos, if_pos]
    cases both : i.readReq ⟨0, by omega⟩ && (pipe B s i).popAck <;> simp_all [List.finRange_succ]
  · have request : (queueRequest s i).popReq = decide (∃ R, readActive i R = true) := dif_neg single
    have ack (R : Fin numReads) : readAck B s i R = (readActive i R && (pipe B s i).popAck) := if_neg single
    rw [Buffer.popped, same, request, read]
    rcases priorityEncode_cases i.readReq with ⟨K, wants, only⟩ | ⟨_, none⟩
    · have active : readActive i = fun R => decide (R = K) := only
      have chosen (R : Fin numReads) : (i.readReq R && readAck B s i R) = (decide (R = K) && (pipe B s i).popAck) := by
        rw [ack, active]
        by_cases isK : R = K
        · rw [isK, wants, Bool.true_and]
        · simp [isK]
      simp only [chosen, active, filter_finRange_eq]
      cases (pipe B s i).popAck <;> simp [readData]
    · have active : readActive i = fun _ => false := none
      simp [ack, active]

theorem next_register (several : numWrites ≠ 1) (asked : ∀ W, s.reqInRegister W = true → i.writeReq W = true)
    {W : Fin numWrites} (kept : (next B s i).reqInRegister W = true) : unanswered B s i W = true := by
  have ack : writeAck B s i W =
      OutputPortLevel.ackSig false s.reqInRegister ⟨i.writeReq, i.writeData, (pipe B s i).pushAck⟩ W := if_neg several
  rw [unanswered, ack]
  rw [Bool.and_eq_true, Bool.not_eq_true']
  exact NobodyLeftBehind.asked_of_left several (asked W) kept

/-- The words in the queue; what is kept of the requests is asked for still. -/
def Holds (holds : S → List (BitVec w) → Prop) (s : PipeState S numWrites × (Fin numWrites → Bool))
    (q : List (BitVec w)) : Prop :=
  holds s.1.queue q ∧ (numWrites ≠ 1 → ∀ W, s.1.reqInRegister W = true → s.2 W = true)

theorem conserves {capacity : Nat} {holds : S → List (BitVec w) → Prop} (fifo : B.Fifo capacity holds) :
    Conserves (turn B : _ → PipeInputs numReads numWrites w → _) Patient
      (fun s i => (written B s.1 i).map Prod.snd) (fun s i => (read B s.1 i).map Prod.snd) (Holds holds) := by
  refine ⟨?_⟩
  rintro ⟨s, held⟩ i q ⟨inQueue, kept⟩ patient
  have asked : numWrites ≠ 1 → ∀ W, s.reqInRegister W = true → i.writeReq W = true :=
    fun several W is => patient W (kept several W is)
  obtain ⟨q', inQueue', law⟩ := fifo.step s.queue (queueRequest s i) q inQueue
  refine ⟨q', ⟨inQueue', fun several W => next_register several (asked several)⟩, ?_⟩
  dsimp only
  rw [written_eq asked, read_eq]
  exact law

theorem collect_map {I S' T V : Type} (next : S' → I → S') (f : S' → I → List T) (g : T → V) (s : S') (is : List I) :
    (collect next f s is).map g = collect next (fun s i => (f s i).map g) s is :=
  map_collect next (List.map g) rfl (fun _ _ => List.map_append) f s is

end PipeBase

open PipeBase in
/-- From the reset on, while the writers ask until they are acknowledged, the words acknowledged to the
readers are those acknowledged to the writers, in that order, but for those that are still in the pipe; in
no cycle is there more than one of either. -/
theorem pipeBase_carries {numReads numWrites : Nat} (collide : BitVec w) {g : PipeGenerics} (queue : g.lifoMode = false)
    (s : PipeState (pipeQueue collide g).State numWrites) (i : PipeInputs numReads numWrites w)
    (is : List (PipeInputs numReads numWrites w))
    (patient : Allowed (turn (pipeQueue collide g).buffer) Patient (reset (pipeQueue collide g).buffer s i, fun _ => false) is) :
    let B := (pipeQueue collide g).buffer
    let first := (reset B s i, fun _ => false)
    ∃ q : List (BitVec w), q.length ≤ g.depth + 1 ∧
      (collect (turn B) (fun s i => written B s.1 i) first is).map Prod.snd =
        (collect (turn B) (fun s i => read B s.1 i) first is).map Prod.snd ++ q ∧
      ∀ i : PipeInputs numReads numWrites w, Patient (is.foldl (turn B) first) i →
        (written B (is.foldl (turn B) first).1 i).length ≤ 1 ∧ (read B (is.foldl (turn B) first).1 i).length ≤ 1 := by
  intro B first
  obtain ⟨holds, fifo⟩ := pipeQueue_isFifo collide queue
  have start : Holds holds first [] := ⟨fifo.reset _ _, fun _ _ is => absurd is Bool.false_ne_true⟩
  obtain ⟨q, ⟨inQueue, kept⟩, law⟩ := (conserves fifo).run is first [] start patient
  refine ⟨q, fifo.bounded _ q inQueue, ?_, fun i patient' => ⟨?_, ?_⟩⟩
  · rw [collect_map, collect_map]
    exact law
  · have one := congrArg List.length (written_eq (B := B) (s := (is.foldl (turn B) first).1) (i := i)
      fun several W is => patient' W (kept several W is))
    rw [List.length_map] at one
    rw [one]
    exact Option.length_toList_le
  · have one := congrArg List.length (read_eq (B := B) (s := (is.foldl (turn B) first).1) (i := i))
    rw [List.length_map] at one
    rw [one]
    exact Option.length_toList_le

open PipeBase in
/-- Two writers ask at once and are acknowledged one after the other. -/
theorem pipeBase_carries_two :
    let both : PipeInputs 2 2 8 := ⟨fun _ => true, fun _ => true, fun W => if W = 0 then 1 else 2⟩
    let B := (pipeQueue (0 : BitVec 8) { depth := 2 }).buffer
    let any : RingState 8 := ⟨fun _ => 0, 0, 0, .emptyState⟩
    let first := (reset B ⟨any, fun _ => false⟩ both, fun _ => false)
    collect (turn B) (fun s i => written B s.1 i) first [both, both] = [(1, 2), (0, 1)] ∧
      ∃ q : List (BitVec 8), q.length ≤ 3 ∧
        (collect (turn B) (fun s i => written B s.1 i) first [both, both]).map Prod.snd =
          (collect (turn B) (fun s i => read B s.1 i) first [both, both]).map Prod.snd ++ q ∧
        ∀ i : PipeInputs 2 2 8, Patient ([both, both].foldl (turn B) first) i →
          (written B ([both, both].foldl (turn B) first).1 i).length ≤ 1 ∧
            (read B ([both, both].foldl (turn B) first).1 i).length ≤ 1 := by
  intro both B any first
  exact ⟨by decide, pipeBase_carries (0 : BitVec 8) (g := { depth := 2 }) rfl ⟨any, fun _ => false⟩ both [both, both]
    (by decide)⟩

end Ahir.Hardware
