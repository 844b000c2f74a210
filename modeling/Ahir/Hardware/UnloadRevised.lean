import Ahir.Hardware.UnloadRegister

/-!
# Unload buffers without a register

`UnloadBufferRevised` and `UnloadBufferRevisedSafe` show the word at the front of a queue
and pop it at a later request.  `UnloadBuffer` chooses by its generics between them and the
buffers that use a register.
-/

set_option autoImplicit false

namespace Ahir.Hardware
open Ahir.Data UnloadBuffer
variable {w : Nat}

/-! ### A queue that tells whether another word comes -/

/-- The registers of `QueueBaseWithEmptyFullNext`, which counts its words. -/
structure NextState (w : Nat) where
  queueArray : Nat → BitVec w
  readPointer : Nat
  writePointer : Nat
  queueSize : Nat

namespace NextState
variable (depth : Nat) (s : NextState w) (r : Request (BitVec w))

def emptyFlag : Bool := decide (s.queueSize = 0)

def fullFlag : Bool := decide (s.queueSize = depth)

def nextValid : Bool := decide (1 < s.queueSize) || r.pushReq

def push : Bool := !s.fullFlag depth && r.pushReq

def pop : Bool := !s.emptyFlag && r.popReq

def nextReadPointer : Nat := if s.pop r then RingState.incr depth s.readPointer else s.readPointer

def nextWritePointer : Nat := if s.push depth r then RingState.incr depth s.writePointer else s.writePointer

def nextArray : Nat → BitVec w :=
  if s.push depth r && decide (s.writePointer < depth) then
    Function.update s.queueArray s.writePointer r.dataIn
  else s.queueArray

def nextQueueSize : Nat :=
  if s.push depth r && !s.pop r then s.queueSize + 1
  else if !s.push depth r && s.pop r then s.queueSize - 1
  else s.queueSize

def dataOut : BitVec w := if s.readPointer < depth then s.queueArray s.readPointer else 0

def toRing : RingState w where
  queueArray := s.queueArray
  readPointer := s.readPointer
  writePointer := s.writePointer
  fsmState := fsmOf depth s.queueSize

end NextState

def queueBaseWithEmptyFullNext (depth : Nat) : Buffer (NextState w) (BitVec w) where
  reset := fun _ _ => { queueArray := fun _ => 0, readPointer := 0, writePointer := 0, queueSize := 0 }
  respond := fun s _ => { dataOut := s.dataOut depth, pushAck := !s.fullFlag depth, popAck := !s.emptyFlag }
  next := fun s r =>
    { queueArray := s.nextArray depth r
      readPointer := s.nextReadPointer depth r
      writePointer := s.nextWritePointer depth r
      queueSize := s.nextQueueSize depth r }

def NextHolds (depth : Nat) (s : NextState w) (q : List (BitVec w)) : Prop :=
  RingHolds depth (s.toRing depth) q ∧ s.queueSize = q.length

section Next
variable {depth : Nat} {s : NextState w}

theorem NextState.toRing_empty : (s.toRing depth).empty = s.emptyFlag := by
  rw [RingState.empty, emptyFlag, decide_eq_decide]
  exact fsmOf_eq_empty_iff

theorem NextState.toRing_full (pos : 0 < depth) : (s.toRing depth).full = s.fullFlag depth := by
  rw [RingState.full, fullFlag, decide_eq_decide]
  exact fsmOf_eq_full_iff pos

theorem NextState.toRing_pop (r : Request (BitVec w)) : (s.toRing depth).pop r = s.pop r := by
  rw [RingState.pop, toRing_empty, pop]

theorem NextState.toRing_push (pos : 0 < depth) (r : Request (BitVec w)) :
    (s.toRing depth).push false r = s.push depth r := by
  rw [RingState.push, toRing_full pos, push, Bool.false_and, Bool.or_false]

theorem NextState.toRing_next (pos : 0 < depth) (r : Request (BitVec w)) {q : List (BitVec w)}
    (held : RingHolds depth ((ring depth false false).next (s.toRing depth) r) q)
    (size : s.nextQueueSize depth r = q.length) :
    ((queueBaseWithEmptyFullNext depth).next s r).toRing depth = (ring depth false false).next (s.toRing depth) r := by
  have flags := held.flags
  rw [← size] at flags
  have array : (s.toRing depth).nextArray depth false r = s.nextArray depth r := by
    rw [RingState.nextArray, toRing_push pos]
    rfl
  have read : (s.toRing depth).nextReadPointer depth r = s.nextReadPointer depth r := by
    rw [RingState.nextReadPointer, toRing_pop]
    rfl
  have write : (s.toRing depth).nextWritePointer depth false r = s.nextWritePointer depth r := by
    rw [RingState.nextWritePointer, toRing_push pos]
    rfl
  unfold ring at flags ⊢
  dsimp only at flags ⊢
  rw [array, flags, read, write]
  rfl

theorem NextState.toRing_respond (pos : 0 < depth) (r : Request (BitVec w)) :
    (ring depth false false).respond (s.toRing depth) r = (queueBaseWithEmptyFullNext depth).respond s r := by
  have data : (s.toRing depth).dataOut depth false = s.dataOut depth := by
    rw [RingState.dataOut, Bool.false_or]
    exact if_congr decide_eq_true_iff rfl rfl
  simp [ring, queueBaseWithEmptyFullNext, toRing_full pos, toRing_empty, data]

theorem queueBaseWithEmptyFullNext_fifo (deep : 1 < depth) :
    (queueBaseWithEmptyFullNext depth : Buffer (NextState w) (BitVec w)).Fifo depth (NextHolds depth) := by
  have pos : 0 < depth := by omega
  have inner : (ring depth false false : Buffer (RingState w) (BitVec w)).Fifo depth (RingHolds depth) := ring_fifo deep
  refine ⟨?_, fun s q held => held.1.bounded, ?_⟩
  · intro s r
    exact ⟨⟨pos, Nat.zero_le depth, rfl, rfl, rfl⟩, rfl⟩
  · rintro s r q ⟨held, size⟩
    obtain ⟨q', held', law⟩ := inner.step (s.toRing depth) r q held
    rw [Buffer.pushed, Buffer.popped, NextState.toRing_respond pos] at law
    have next : s.nextQueueSize depth r = q'.length := by
      have lengths := congrArg List.length law
      have push : (r.pushReq && ((queueBaseWithEmptyFullNext depth).respond s r).pushAck) = s.push depth r :=
        Bool.and_comm ..
      have pop : (r.popReq && ((queueBaseWithEmptyFullNext depth).respond s r).popAck) = s.pop r := Bool.and_comm ..
      rw [push, pop, List.length_append, List.length_append] at lengths
      unfold NextState.nextQueueSize
      cases isPush : s.push depth r <;> cases isPop : s.pop r <;> simp [isPush, isPop] at lengths ⊢ <;> omega
    refine ⟨q', ⟨?_, next⟩, law⟩
    rw [NextState.toRing_next pos r held' next]
    exact held'

theorem queueBaseWithEmptyFullNext_showsNext :
    (queueBaseWithEmptyFullNext depth : Buffer (NextState w) (BitVec w)).ShowsNext (NextHolds depth) := by
  refine ⟨?_, fun _ _ _ => rfl⟩
  rintro s r q ⟨-, size⟩
  change (!s.emptyFlag) = decide (0 < q.length)
  rw [NextState.emptyFlag, size, ← decide_not]
  exact decide_eq_decide.mpr Nat.pos_iff_ne_zero.symm

/-- When a word comes next, one is left after the first is popped. -/
theorem NextHolds.nextValid (deep : 1 < depth) {q : List (BitVec w)} (held : NextHolds depth s q)
    (r : Request (BitVec w)) (valid : s.nextValid r = true) :
    q.tail ++ ((queueBaseWithEmptyFullNext depth).pushed s r).toList ≠ [] := by
  intro none
  obtain ⟨few, notPushed⟩ := List.append_eq_nil_iff.mp none
  have atMost : q.length ≤ 1 := by
    have := congrArg List.length few
    rw [List.length_tail, List.length_nil] at this
    omega
  have notFull : s.fullFlag depth = false := decide_eq_false (by rw [held.2]; omega)
  have offered : r.pushReq = true := by
    simpa [NextState.nextValid, held.2, Nat.not_lt.mpr atMost] using valid
  simp [Buffer.pushed, queueBaseWithEmptyFullNext, notFull, offered] at notPushed

end Next

/-! ### The controls -/

inductive UnloadFsmSafeState where
  | idle | waitOnWrite | waitOnNext | dataValid
  deriving DecidableEq

structure UnloadFsmSafeRegs where
  fsmState : UnloadFsmSafeState
  unloadAckD : Bool

def unloadFsmSafe (nextValid : Bool) : Control UnloadFsmSafeRegs w where
  reset := { fsmState := .idle, unloadAckD := false }
  out := fun f i =>
    match f.fsmState with
    | .idle | .waitOnWrite => { writeAck := false, unloadAck := f.unloadAckD, dataOut := i.dataIn }
    | .waitOnNext => { writeAck := nextValid, unloadAck := f.unloadAckD, dataOut := i.dataIn }
    | .dataValid => { writeAck := i.unloadReq && nextValid, unloadAck := f.unloadAckD, dataOut := i.dataIn }
  next := fun f i =>
    match f.fsmState with
    | .idle =>
        if i.unloadReq then
          if i.writeReq then { fsmState := .dataValid, unloadAckD := true }
          else { fsmState := .waitOnWrite, unloadAckD := false }
        else { fsmState := .idle, unloadAckD := false }
    | .waitOnWrite =>
        if i.writeReq then { fsmState := .dataValid, unloadAckD := true }
        else { fsmState := .waitOnWrite, unloadAckD := false }
    | .waitOnNext =>
        if nextValid then { fsmState := .dataValid, unloadAckD := true }
        else { fsmState := .waitOnNext, unloadAckD := false }
    | .dataValid =>
        if i.unloadReq then
          if nextValid then { fsmState := .dataValid, unloadAckD := true }
          else { fsmState := .waitOnNext, unloadAckD := false }
        else { fsmState := .dataValid, unloadAckD := false }

/-- `left f words q`: of the words in the queue, `q` are still to be handed over.  What the control sees of the
queue is its first word, and whether one is there when that has been popped. -/
structure HandsOut {F : Type} (U : Bool → Control F w) (left : F → List (BitVec w) → List (BitVec w) → Prop) :
    Prop where
  reset : left (U false).reset [] []
  bounded : ∀ f words q, left f words q → q.length ≤ words.length
  step : ∀ f i nextValid words q more, left f words q → i.writeReq = decide (0 < words.length) →
    (∀ x rest, words = x :: rest → i.dataIn = x) → (nextValid = true → words.tail ++ more ≠ []) →
    ∃ q', left ((U nextValid).next f i) ((if ((U nextValid).out f i).writeAck then words.tail else words) ++ more) q' ∧
      q ++ more = (if ((U nextValid).out f i).unloadAck then [((U nextValid).out f i).dataOut] else []) ++ q'

/-- The word in front stays in the queue when it has been handed over. -/
def UnloadFsmRegs.Left (f : UnloadFsmRegs) (words q : List (BitVec w)) : Prop :=
  match f.fsmState with
  | .idle | .waitOnData => f.unloadAckD = false ∧ q = words
  | .dataValid => words ≠ [] ∧ q = if f.unloadAckD then words else words.tail

theorem unloadFsm_handsOut : HandsOut (fun _ => (unloadFsm : Control UnloadFsmRegs w)) UnloadFsmRegs.Left := by
  refine ⟨⟨rfl, rfl⟩, ?_, ?_⟩
  · rintro ⟨state, ackD⟩ words q left
    cases state <;> cases ackD <;> obtain ⟨_, rfl⟩ := left <;> simp
  · rintro ⟨state, ackD⟩ i nextValid words q more left writeReq front _
    cases state with
    | idle | waitOnData =>
        obtain ⟨quiet, same⟩ := left
        dsimp only at quiet same
        subst quiet same
        cases q <;> cases unload : i.unloadReq <;> simp_all [unloadFsm, UnloadFsmRegs.Left]
    | dataValid =>
        -- either the word in front is handed over now, or it has been
        obtain ⟨some, rfl⟩ := left
        obtain ⟨x, rest, rfl⟩ := List.exists_cons_of_ne_nil some
        have word := front x rest rfl
        cases ackD <;> cases unload : i.unloadReq <;> simp [unloadFsm, UnloadFsmRegs.Left, unload, word]

def UnloadFsmSafeRegs.Left (f : UnloadFsmSafeRegs) (words q : List (BitVec w)) : Prop :=
  match f.fsmState with
  | .idle | .waitOnWrite => f.unloadAckD = false ∧ q = words
  | .waitOnNext => (f.unloadAckD = false ∧ words ≠ []) ∧ q = words.tail
  | .dataValid => words ≠ [] ∧ q = if f.unloadAckD then words else words.tail

theorem unloadFsmSafe_handsOut : HandsOut (unloadFsmSafe : Bool → Control UnloadFsmSafeRegs w) UnloadFsmSafeRegs.Left := by
  refine ⟨⟨rfl, rfl⟩, ?_, ?_⟩
  · rintro ⟨state, ackD⟩ words q left
    cases state <;> cases ackD <;> obtain ⟨_, rfl⟩ := left <;> simp
  · rintro ⟨state, ackD⟩ i nextValid words q more left writeReq front valid
    cases state with
    | idle | waitOnWrite =>
        obtain ⟨quiet, same⟩ := left
        dsimp only at quiet same
        subst quiet same
        cases q <;> cases unload : i.unloadReq <;> simp_all [unloadFsmSafe, UnloadFsmSafeRegs.Left]
    | waitOnNext =>
        obtain ⟨⟨quiet, some⟩, rfl⟩ := left
        obtain ⟨x, rest, rfl⟩ := List.exists_cons_of_ne_nil some
        dsimp only at quiet
        subst quiet
        cases nextValid <;> simp_all [unloadFsmSafe, UnloadFsmSafeRegs.Left]
    | dataValid =>
        obtain ⟨some, rfl⟩ := left
        obtain ⟨x, rest, rfl⟩ := List.exists_cons_of_ne_nil some
        have word := front x rest rfl
        cases ackD <;> cases unload : i.unloadReq <;> cases nextValid <;>
          simp_all [unloadFsmSafe, UnloadFsmSafeRegs.Left]

/-! ### The buffers -/

namespace UnloadBuffer

def cycle (r : Request (BitVec w)) : Cycle w := { writeReq := r.pushReq, writeData := r.dataIn, unloadReq := r.popReq }

/-- The requests to pop are pulses, as in `unloader`. -/
def Unloader.buffer {F : Type} (U : Unloader F w) (depth : Nat) : Buffer (State F w depth) (BitVec w) where
  reset := fun s r => U.reset s (cycle r)
  respond := fun s r =>
    { dataOut := U.readData s (cycle r)
      pushAck := ((U.bufPipe depth).respond s.queue (U.request s (cycle r))).pushAck
      popAck := U.unloadAck s (cycle r) }
  next := fun s r => U.next s (cycle r)

theorem Unloader.unloads {F : Type} {U : Unloader F w} {left : F → List (BitVec w) → List (BitVec w) → Prop}
    (handsOut : HandsOut (fun _ => U.control) left) (depth : Nat) :
    (U.buffer (depth + 1)).Unloads (depth + 1) fun s q => ∃ words, QueueHolds s.queue words ∧ left s.control words q := by
  have fifo := queueBaseWithEmptyFull_fifo (w := w) U.bypassFlag U.distributedRam (depth + 1)
  refine ⟨?_, ?_, ?_⟩
  · intro s r
    exact ⟨[], fifo.reset _ _, handsOut.reset⟩
  · rintro s q ⟨words, held, left⟩
    exact (handsOut.bounded _ _ _ left).trans (fifo.bounded _ _ held)
  · rintro s r q ⟨words, held, left⟩
    obtain ⟨q', left', law⟩ := handsOut.step s.control (U.fsmInput s (cycle r)) false words q
      ((U.bufPipe (depth + 1)).pushed s.queue (U.request s (cycle r))).toList left
      (queue_popAck U.bypassFlag U.distributedRam held _) (fun x rest front => queue_front held _ front)
      (fun valid => absurd valid Bool.false_ne_true)
    exact ⟨q', ⟨_, queue_next held U.bypassFlag U.distributedRam _, left'⟩, law⟩

structure SafeState (w : Nat) where
  queue : NextState w
  control : UnloadFsmSafeRegs

namespace Safe
variable (depth : Nat) (s : SafeState w) (r : Request (BitVec w))

/-- `pop_ack` and `data_out` do not depend on the request to pop, which comes from the control. -/
def pipe : Response (BitVec w) := (queueBaseWithEmptyFullNext depth).respond s.queue r

def control : Control UnloadFsmSafeRegs w := unloadFsmSafe (s.queue.nextValid r)

def fsmInput : FsmInput w where
  writeReq := (pipe depth s r).popAck
  unloadReq := r.popReq
  dataIn := if (pipe depth s r).popAck then (pipe depth s r).dataOut else 0

def output : FsmOutput w := (control s r).out s.control (fsmInput depth s r)

def request : Request (BitVec w) :=
  { dataIn := r.dataIn, pushReq := r.pushReq, popReq := (output depth s r).writeAck }

end Safe

def unloadBufferRevisedSafe (depth : Nat) : Buffer (SafeState w) (BitVec w) where
  reset := fun s r =>
    { queue := (queueBaseWithEmptyFullNext depth).reset s.queue (Safe.request depth s r)
      control := (Safe.control s r).reset }
  respond := fun s r =>
    { dataOut := (Safe.output depth s r).dataOut
      pushAck := ((queueBaseWithEmptyFullNext depth).respond s.queue (Safe.request depth s r)).pushAck
      popAck := (Safe.output depth s r).unloadAck }
  next := fun s r =>
    { queue := (queueBaseWithEmptyFullNext depth).next s.queue (Safe.request depth s r)
      control := (Safe.control s r).next s.control (Safe.fsmInput depth s r) }

theorem unloadBufferRevisedSafe_unloads {depth : Nat} (deep : 1 < depth) :
    (unloadBufferRevisedSafe depth : Buffer (SafeState w) (BitVec w)).Unloads depth
      fun s q => ∃ words, NextHolds depth s.queue words ∧ s.control.Left words q := by
  have fifo := queueBaseWithEmptyFullNext_fifo (w := w) deep
  have shows : (queueBaseWithEmptyFullNext depth : Buffer (NextState w) (BitVec w)).ShowsNext (NextHolds depth) :=
    queueBaseWithEmptyFullNext_showsNext
  refine ⟨?_, ?_, ?_⟩
  · intro s r
    exact ⟨[], fifo.reset s.queue r, rfl, rfl⟩
  · rintro s q ⟨words, held, left⟩
    exact (unloadFsmSafe_handsOut.bounded _ _ _ left).trans held.1.bounded
  · rintro s r q ⟨words, held, left⟩
    have popAck := shows.popAck s.queue r words held
    obtain ⟨q', left', law⟩ := unloadFsmSafe_handsOut.step s.control (Safe.fsmInput depth s r) (s.queue.nextValid r)
      words q ((queueBaseWithEmptyFullNext depth).pushed s.queue (Safe.request depth s r)).toList left popAck
      (by
        rintro x rest rfl
        have some : (Safe.pipe depth s r).popAck = true := popAck
        rw [Safe.fsmInput, if_pos some]
        exact shows.front fifo held r rfl)
      (held.nextValid deep r)
    exact ⟨q', ⟨_, shows.next fifo held (Safe.request depth s r), left'⟩, law⟩

end UnloadBuffer

/-! ### The choice -/

/-! The constants of `GlobalConstants`. -/

def globalUseVivadoDistributedRamQueue : Bool := true

def globalUseOptimizedUnloadBuffer : Bool := false

structure UnloadGenerics where
  bufferSize : Nat
  bypassFlag : Bool := false
  nonblockingReadFlag : Bool := false
  useSafeMode : Bool := false
  useUnloadRegister : Bool := true

namespace UnloadGenerics
variable (g : UnloadGenerics)

/-- `DecrDepth`. -/
def actualBufferSize : Nat :=
  if !g.bypassFlag && decide (g.bufferSize = 1) then g.bufferSize - 1 else g.bufferSize

def shallowFlag : Bool := decide (g.bufferSize < pipeShallownessThreshold)

def revisedCaseBlocking : Bool :=
  decide (0 < g.bufferSize) && !(g.useSafeMode && g.bypassFlag) && !(g.useSafeMode && decide (g.bufferSize < 1)) &&
    (g.bypassFlag || decide (1 < g.bufferSize)) && g.shallowFlag && !g.useUnloadRegister && !g.nonblockingReadFlag

def revisedCaseNonBlocking : Bool :=
  globalUseOptimizedUnloadBuffer &&
    (decide (1 < g.bufferSize) && !g.bypassFlag && g.shallowFlag && g.nonblockingReadFlag)

theorem actualBufferSize_le : g.actualBufferSize ≤ g.bufferSize := by
  unfold actualBufferSize
  split_ifs <;> omega

theorem deep_of_safe {g : UnloadGenerics} (revised : g.revisedCaseBlocking = true) (safe : g.useSafeMode = true) :
    1 < g.bufferSize := by
  cases bypass : g.bypassFlag <;> simp_all [revisedCaseBlocking]

end UnloadGenerics

def unloadBuffer (collide : BitVec w) (g : UnloadGenerics) : Clocked (BitVec w) :=
  let ulReg := unloadRegister (g.bypassFlag || decide (g.bufferSize = 0)) g.nonblockingReadFlag
  if g.revisedCaseBlocking then
    if g.useSafeMode then ⟨SafeState w, unloadBufferRevisedSafe g.bufferSize⟩
    else
      ⟨State UnloadFsmRegs w g.bufferSize,
        (unloadBufferRevised g.bypassFlag globalUseVivadoDistributedRamQueue).buffer g.bufferSize⟩
  else if g.revisedCaseNonBlocking then
    ⟨State UnloadFsmNoBlockState w g.bufferSize,
      (unloadBufferRevisedNonblocking g.bypassFlag globalUseVivadoDistributedRamQueue).buffer g.bufferSize⟩
  else if g.shallowFlag then
    if 0 < g.actualBufferSize then
      ⟨UnloadState (QueueState w g.actualBufferSize) ulReg.Registers,
        unloader ulReg.control (queueBaseWithEmptyFull false globalUseVivadoDistributedRamQueue g.actualBufferSize)
          fun s => !s.empty⟩
    else ⟨UnloadState Unit ulReg.Registers, unloader ulReg.control wires fun _ => false⟩
  else unloadBufferDeep collide g.bufferSize g.nonblockingReadFlag

/-- An unload buffer holds at most two words more than its size, one of them in the register. -/
theorem unloadBuffer_unloads (collide : BitVec w) {g : UnloadGenerics} (blocking : g.nonblockingReadFlag = false) :
    ∃ holds, (unloadBuffer collide g).buffer.Unloads (g.bufferSize + 2) holds := by
  obtain ⟨holdsU, handsOn⟩ := unloadRegister_handsOn (w := w) (g.bypassFlag || decide (g.bufferSize = 0))
  unfold unloadBuffer
  rw [blocking]
  dsimp only
  by_cases revised : g.revisedCaseBlocking = true
  · rw [if_pos revised]
    by_cases safe : g.useSafeMode = true
    · rw [if_pos safe]
      exact ⟨_, (unloadBufferRevisedSafe_unloads (UnloadGenerics.deep_of_safe revised safe)).mono (by omega)⟩
    · rw [if_neg safe]
      cases slots : g.bufferSize with
      | zero => simp [UnloadGenerics.revisedCaseBlocking, slots] at revised
      | succ depth =>
          have unloads := Unloader.unloads (U := unloadBufferRevised g.bypassFlag globalUseVivadoDistributedRamQueue)
            (unloadFsm_handsOut (w := w)) depth
          exact ⟨_, unloads.mono (by omega)⟩
  have blocks : ¬ g.revisedCaseNonBlocking = true := by simp [UnloadGenerics.revisedCaseNonBlocking, blocking]
  rw [if_neg revised, if_neg blocks]
  by_cases shallow : g.shallowFlag = true
  · rw [if_pos shallow]
    cases slots : g.actualBufferSize with
    | zero =>
        rw [if_neg (Nat.lt_irrefl 0)]
        exact ⟨_, (unloader_unloads handsOn wires_fifo wires_tells).mono (by omega)⟩
    | succ depth =>
        have fewer := g.actualBufferSize_le
        rw [if_pos (Nat.succ_pos depth)]
        exact ⟨_, (unloader_unloads handsOn (queueBaseWithEmptyFull_fifo false globalUseVivadoDistributedRamQueue (depth + 1))
          (queueBaseWithEmptyFull_tells globalUseVivadoDistributedRamQueue depth)).mono (by omega)⟩
  · rw [if_neg shallow]
    exact unloadBufferDeep_unloads collide (mt decide_eq_true shallow)

end Ahir.Hardware
