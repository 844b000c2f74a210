import Ahir.Hardware.ReceiveBuffer
import Ahir.Hardware.UnloadBuffer

/-!
# Unload buffers with a register

`UnloadRegister` answers the pulses of a reader with the words it is handed.  These come
from a queue, or past it while it is empty.
-/

set_option autoImplicit false

namespace Ahir.Hardware
open Ahir.Data UnloadBuffer
variable {w : Nat}

/-! ### The register -/

inductive UnloadRegisterState where
  | idle | waiting
  deriving DecidableEq

structure UnloadRegister (w : Nat) where
  fsmState : UnloadRegisterState
  unloadAck : Bool
  readData : BitVec w

inductive FsmStateBypass where
  | idle | waiting1 | waiting2
  deriving DecidableEq

structure BypassRegister (State : Type) (w : Nat) where
  fsmState : State
  writeDataReg : BitVec w

namespace UnloadRegister

def noBypass (nonblockingReadFlag : Bool) : Control (UnloadRegister w) w where
  reset := { fsmState := .idle, unloadAck := false, readData := 0 }
  out := fun f i =>
    match f.fsmState with
    | .idle => { writeAck := i.unloadReq, unloadAck := f.unloadAck, dataOut := f.readData }
    | .waiting => { writeAck := true, unloadAck := f.unloadAck, dataOut := f.readData }
  next := fun f i =>
    match f.fsmState with
    | .idle =>
        if i.unloadReq then
          if i.writeReq then { fsmState := .idle, unloadAck := true, readData := i.dataIn }
          else if nonblockingReadFlag then { fsmState := .idle, unloadAck := true, readData := 0 }
          else { fsmState := .waiting, unloadAck := false, readData := f.readData }
        else { f with unloadAck := false }
    | .waiting =>
        if i.writeReq then { fsmState := .idle, unloadAck := true, readData := i.dataIn }
        else { f with unloadAck := false }

def yesBypassNonBlocking : Control (BypassRegister UnloadRegisterState w) w where
  reset := { fsmState := .idle, writeDataReg := 0 }
  out := fun f i =>
    match f.fsmState with
    | .idle => { writeAck := false, unloadAck := false, dataOut := f.writeDataReg }
    | .waiting => { writeAck := true, unloadAck := true, dataOut := if i.writeReq then i.dataIn else 0 }
  next := fun f i =>
    match f.fsmState with
    | .idle => { f with fsmState := if i.unloadReq then .waiting else .idle }
    | .waiting =>
        { fsmState := if i.unloadReq then .waiting else .idle, writeDataReg := if i.writeReq then i.dataIn else 0 }

def yesBypassBlocking : Control (BypassRegister FsmStateBypass w) w where
  reset := { fsmState := .idle, writeDataReg := 0 }
  out := fun f i =>
    match f.fsmState with
    | .idle => { writeAck := false, unloadAck := false, dataOut := f.writeDataReg }
    | .waiting1 | .waiting2 =>
        { writeAck := true, unloadAck := i.writeReq, dataOut := if i.writeReq then i.dataIn else f.writeDataReg }
  next := fun f i =>
    match f.fsmState with
    | .idle => { f with fsmState := if i.unloadReq then .waiting1 else .idle }
    | .waiting1 =>
        if i.writeReq then { fsmState := if i.unloadReq then .waiting1 else .idle, writeDataReg := i.dataIn }
        else { f with fsmState := .waiting2 }
    | .waiting2 =>
        if i.writeReq then { fsmState := if i.unloadReq then .waiting1 else .idle, writeDataReg := i.dataIn } else f

end UnloadRegister

structure ClockedControl (w : Nat) where
  Registers : Type
  control : Control Registers w

open UnloadRegister in
def unloadRegister (bypassFlag nonblockingReadFlag : Bool) : ClockedControl w :=
  if bypassFlag then
    if nonblockingReadFlag then ⟨BypassRegister UnloadRegisterState w, yesBypassNonBlocking⟩
    else ⟨BypassRegister FsmStateBypass w, yesBypassBlocking⟩
  else ⟨UnloadRegister w, noBypass nonblockingReadFlag⟩

/-- `holds f q`: the words `q` have been taken and are still to be handed over.  Whether a word is taken
does not depend on whether there is one. -/
structure HandsOn {F : Type} (U : Control F w) (holds : F → List (BitVec w) → Prop) : Prop where
  reset : holds U.reset []
  bounded : ∀ f q, holds f q → q.length ≤ 1
  ready : ∀ f i, (U.out f i).writeAck = (U.out f { writeReq := false, unloadReq := i.unloadReq, dataIn := 0 }).writeAck
  step : ∀ f i q, holds f q → ∃ q', holds (U.next f i) q' ∧
    q ++ (if (U.out f i).writeAck && i.writeReq then [i.dataIn] else []) =
      (if (U.out f i).unloadAck then [(U.out f i).dataOut] else []) ++ q'

theorem noBypass_handsOn : HandsOn (UnloadRegister.noBypass false : Control (UnloadRegister w) w)
    fun f q => q = if f.unloadAck then [f.readData] else [] := by
  refine ⟨rfl, ?_, ?_, ?_⟩
  · rintro f q rfl
    split_ifs <;> simp
  · intro f i
    cases state : f.fsmState <;> simp [UnloadRegister.noBypass, state]
  · rintro f i q rfl
    refine ⟨_, rfl, ?_⟩
    cases state : f.fsmState <;> cases unload : i.unloadReq <;> cases write : i.writeReq <;>
      simp [UnloadRegister.noBypass, state, unload, write]

theorem yesBypassBlocking_handsOn :
    HandsOn (UnloadRegister.yesBypassBlocking : Control (BypassRegister FsmStateBypass w) w) fun _ q => q = [] := by
  refine ⟨rfl, ?_, ?_, ?_⟩
  · rintro f q rfl
    exact Nat.zero_le 1
  · intro f i
    cases state : f.fsmState <;> simp [UnloadRegister.yesBypassBlocking, state]
  · rintro f i q rfl
    refine ⟨[], rfl, ?_⟩
    cases state : f.fsmState <;> cases write : i.writeReq <;>
      simp [UnloadRegister.yesBypassBlocking, state, write]

theorem unloadRegister_handsOn (bypassFlag : Bool) :
    ∃ holds, HandsOn (unloadRegister bypassFlag false : ClockedControl w).control holds := by
  cases bypassFlag with
  | false => exact ⟨_, noBypass_handsOn⟩
  | true => exact ⟨_, yesBypassBlocking_handsOn⟩

/-! ### The register behind a queue -/

structure UnloadState (S F : Type) where
  queue : S
  register : F

namespace UnloadPipe
variable {S F : Type} (U : Control F w) (B : Buffer S (BitVec w)) (pipeHasData : S → Bool)
  (s : UnloadState S F) (r : Request (BitVec w))

/-- `pop_req_from_unload_register`, which does not depend on the word that is offered. -/
def popReq : Bool := (U.out s.register { writeReq := false, unloadReq := r.popReq, dataIn := 0 }).writeAck

def writeToPipe : Bool := pipeHasData s.queue || !popReq U s r

def pipeRequest : Request (BitVec w) where
  dataIn := r.dataIn
  pushReq := if writeToPipe U pipeHasData s r then r.pushReq else false
  popReq := popReq U s r

def pipe : Response (BitVec w) := B.respond s.queue (pipeRequest U pipeHasData s r)

def fsmInput : FsmInput w where
  writeReq := if pipeHasData s.queue then (pipe U B pipeHasData s r).popAck else r.pushReq
  unloadReq := r.popReq
  dataIn := if pipeHasData s.queue then (pipe U B pipeHasData s r).dataOut else r.dataIn

def output : FsmOutput w := U.out s.register (fsmInput U B pipeHasData s r)

end UnloadPipe

open UnloadPipe in
def unloader {S F : Type} (U : Control F w) (B : Buffer S (BitVec w)) (pipeHasData : S → Bool) :
    Buffer (UnloadState S F) (BitVec w) where
  reset := fun s r => { queue := B.reset s.queue (pipeRequest U pipeHasData s r), register := U.reset }
  respond := fun s r =>
    { dataOut := (output U B pipeHasData s r).dataOut
      pushAck := (pipe U B pipeHasData s r).pushAck
      popAck := (output U B pipeHasData s r).unloadAck }
  next := fun s r =>
    { queue := B.next s.queue (pipeRequest U pipeHasData s r)
      register := U.next s.register (fsmInput U B pipeHasData s r) }

/-- A queue with `number_of_elements_in_pipe`. -/
def counted {S V : Type} (B : Buffer S V) (bits : Nat) : Buffer (S × BitVec bits) V where
  reset := fun s r => (B.reset s.1 r, 0)
  respond := fun s r => B.respond s.1 r
  next := fun s r =>
    (B.next s.1 r,
      if r.popReq && (B.respond s.1 r).popAck then
        if !(r.pushReq && (B.respond s.1 r).pushAck) then s.2 - 1 else s.2
      else if r.pushReq && (B.respond s.1 r).pushAck then s.2 + 1 else s.2)

def unloadBufferDeep (collide : BitVec w) (bufferSize : Nat) (nonblockingReadFlag : Bool) : Clocked (BitVec w) :=
  let bits := ceilLog2 (bufferSize + 2)
  let queue := pipeQueue collide { depth := bufferSize }
  let ulReg := unloadRegister false nonblockingReadFlag
  ⟨UnloadState (queue.State × BitVec bits) ulReg.Registers,
    unloader ulReg.control (counted queue.buffer bits) fun s => decide (0 < s.2)⟩

/-! ### What an unload buffer holds -/

namespace Buffer
variable {S V : Type}

def pulsed (B : Buffer S V) (s : S) (r : Request V) : List V :=
  if (B.respond s r).popAck then [(B.respond s r).dataOut] else []

/-- `holds s q`: the words `q` have come in and are still to be handed over. -/
structure Unloads (B : Buffer S V) (capacity : Nat) (holds : S → List V → Prop) : Prop where
  reset : ∀ s r, holds (B.reset s r) []
  bounded : ∀ s q, holds s q → q.length ≤ capacity
  step : ∀ s r q, holds s q → ∃ q', holds (B.next s r) q' ∧ q ++ (B.pushed s r).toList = B.pulsed s r ++ q'

theorem Unloads.mono {B : Buffer S V} {capacity more : Nat} {holds : S → List V → Prop}
    (unloads : B.Unloads capacity holds) (le : capacity ≤ more) : B.Unloads more holds :=
  { unloads with bounded := fun s q held => (unloads.bounded s q held).trans le }

/-- The flag tells whether there are words; while there is none, a word that is asked for can come in. -/
structure Tells (B : Buffer S V) (pipeHasData : S → Bool) (holds : S → List V → Prop) : Prop where
  occupied : ∀ s q, holds s q → (pipeHasData s = true ↔ q ≠ [])
  room : ∀ s r, holds s [] → r.popReq = true → (B.respond s r).pushAck = true

end Buffer

section Unloader
open UnloadPipe
variable {S F : Type} {U : Control F w} {B : Buffer S (BitVec w)} {pipeHasData : S → Bool}
  {holdsU : F → List (BitVec w) → Prop} {holds : S → List (BitVec w) → Prop} {s : UnloadState S F}
  {r : Request (BitVec w)} {capacity : Nat}

def UnloadPipe.Holds (holdsU : F → List (BitVec w) → Prop) (holds : S → List (BitVec w) → Prop) (s : UnloadState S F)
    (q : List (BitVec w)) : Prop :=
  ∃ handed queued, holdsU s.register handed ∧ holds s.queue queued ∧ q = handed ++ queued

/-- What the register takes and what the queue takes in is what has come in and what has left the queue. -/
theorem UnloadPipe.transfer (handsOn : HandsOn U holdsU) (fifo : B.Fifo capacity holds)
    (tells : B.Tells pipeHasData holds) {queued : List (BitVec w)} (held : holds s.queue queued) :
    ∃ queued', holds (B.next s.queue (pipeRequest U pipeHasData s r)) queued' ∧
      queued ++ ((unloader U B pipeHasData).pushed s r).toList =
        (if (output U B pipeHasData s r).writeAck && (fsmInput U B pipeHasData s r).writeReq then
          [(fsmInput U B pipeHasData s r).dataIn] else []) ++ queued' := by
  obtain ⟨queued', held', law⟩ := fifo.step s.queue (pipeRequest U pipeHasData s r) queued held
  have ready : (output U B pipeHasData s r).writeAck = popReq U s r := handsOn.ready _ _
  have pushed : ((unloader U B pipeHasData).pushed s r) =
      if r.pushReq && (pipe U B pipeHasData s r).pushAck then some r.dataIn else none := rfl
  have fromQueue : B.popped s.queue (pipeRequest U pipeHasData s r) =
      if popReq U s r && (pipe U B pipeHasData s r).popAck then some (pipe U B pipeHasData s r).dataOut else none := rfl
  have toQueue : B.pushed s.queue (pipeRequest U pipeHasData s r) =
      if (pipeRequest U pipeHasData s r).pushReq && (pipe U B pipeHasData s r).pushAck then some r.dataIn
      else none := rfl
  refine ⟨queued', held', ?_⟩
  rw [ready, pushed]
  cases has : pipeHasData s.queue with
  | true =>
      -- the word at the front of the queue is handed to the register
      have through : (pipeRequest U pipeHasData s r).pushReq = r.pushReq := by
        simp [pipeRequest, writeToPipe, has]
      rw [fromQueue, toQueue, through] at law
      rw [law]
      simp only [fsmInput, has, if_true]
      cases popReq U s r <;> cases (pipe U B pipeHasData s r).popAck <;> simp
  | false =>
      have none : queued = [] := by
        by_contra some
        exact Bool.false_ne_true (has.symm.trans ((tells.occupied _ _ held).mpr some))
      subst none
      simp only [fsmInput, has, Bool.false_eq_true, if_false]
      cases pop : popReq U s r with
      | false =>
          have through : (pipeRequest U pipeHasData s r).pushReq = r.pushReq := by
            simp [pipeRequest, writeToPipe, pop]
          rw [fromQueue, toQueue, through, pop] at law
          simpa using law
      | true =>
          -- the word goes past the queue
          have past : (pipeRequest U pipeHasData s r).pushReq = false := by
            simp [pipeRequest, writeToPipe, has, pop]
          have room : (pipe U B pipeHasData s r).pushAck = true := tells.room _ _ held pop
          rw [toQueue, past, Bool.false_and, if_neg Bool.false_ne_true, Option.toList_none, List.append_nil] at law
          obtain ⟨-, rfl⟩ := List.append_eq_nil_iff.mp law.symm
          rw [room]
          cases r.pushReq <;> simp

theorem unloader_unloads (handsOn : HandsOn U holdsU) (fifo : B.Fifo capacity holds)
    (tells : B.Tells pipeHasData holds) :
    (unloader U B pipeHasData).Unloads (capacity + 1) (UnloadPipe.Holds holdsU holds) := by
  refine ⟨?_, ?_, ?_⟩
  · intro s r
    exact ⟨[], [], handsOn.reset, fifo.reset _ _, rfl⟩
  · rintro s q ⟨handed, queued, heldU, held, rfl⟩
    have := handsOn.bounded _ _ heldU
    have := fifo.bounded _ _ held
    rw [List.length_append]
    omega
  · rintro s r q ⟨handed, queued, heldU, held, rfl⟩
    obtain ⟨queued', held', moved⟩ := UnloadPipe.transfer (r := r) handsOn fifo tells held
    obtain ⟨handed', heldU', law⟩ := handsOn.step s.register (fsmInput U B pipeHasData s r) handed heldU
    refine ⟨handed' ++ queued', ⟨handed', queued', heldU', held', rfl⟩, ?_⟩
    have pulsed : (unloader U B pipeHasData).pulsed s r =
        if (output U B pipeHasData s r).unloadAck then [(output U B pipeHasData s r).dataOut] else [] := rfl
    calc handed ++ queued ++ ((unloader U B pipeHasData).pushed s r).toList
        = handed ++ (if (output U B pipeHasData s r).writeAck && (fsmInput U B pipeHasData s r).writeReq then
            [(fsmInput U B pipeHasData s r).dataIn] else []) ++ queued' := by
          rw [List.append_assoc, moved, List.append_assoc]
      _ = (unloader U B pipeHasData).pulsed s r ++ (handed' ++ queued') := by
          rw [pulsed, ← List.append_assoc]
          exact congrArg (· ++ queued') law

end Unloader

/-! ### The queues of an unload buffer -/

theorem wires_tells : (wires : Buffer Unit (BitVec w)).Tells (fun _ => false) fun _ q => q = [] :=
  ⟨fun _ _ held => by simp [held], fun _ _ _ pop => pop⟩

theorem queueBaseWithEmptyFull_tells (distributedRam : Bool) (depth : Nat) :
    (queueBaseWithEmptyFull false distributedRam (depth + 1) : Buffer (QueueState w (depth + 1)) (BitVec w)).Tells
      (fun s => !s.empty) QueueHolds := by
  constructor
  · intro s q held
    rw [Bool.not_eq_true', ← Bool.not_eq_true, held.spec.2.1, List.length_eq_zero_iff]
  · intro s r held _
    have notFull : s.full = false := by
      rw [← Bool.not_eq_true, held.spec.2.2]
      exact Nat.succ_ne_zero depth ∘ Eq.symm
    rw [(queueBaseWithEmptyFull_acks distributedRam depth s r).1, notFull, Bool.not_false]

section Counted
variable {S V : Type} {B : Buffer S V} {capacity bits : Nat} {holds : S → List V → Prop}

def CountHolds (holds : S → List V → Prop) (s : S × BitVec bits) (q : List V) : Prop :=
  holds s.1 q ∧ s.2.toNat = q.length

theorem counted_fifo (fifo : B.Fifo capacity holds) (fits : capacity < 2 ^ bits) :
    (counted B bits).Fifo capacity (CountHolds holds) := by
  refine ⟨?_, ?_, ?_⟩
  · intro s r
    exact ⟨fifo.reset _ _, by simp [counted]⟩
  · rintro s q ⟨held, _⟩
    exact fifo.bounded _ _ held
  · rintro ⟨s, number⟩ r q ⟨held, count⟩
    obtain ⟨q', held', law⟩ := fifo.step s r q held
    have pushed : (counted B bits).pushed (s, number) r = B.pushed s r := rfl
    have popped : (counted B bits).popped (s, number) r = B.popped s r := rfl
    refine ⟨q', ⟨held', ?_⟩, by rw [pushed, popped, law]⟩
    have most := fifo.bounded _ _ held'
    have lengths := congrArg List.length law
    rw [List.length_append, List.length_append] at lengths
    dsimp only at count
    unfold Buffer.pushed Buffer.popped at lengths
    simp only [counted]
    cases pop : r.popReq && (B.respond s r).popAck <;> cases push : r.pushReq && (B.respond s r).pushAck <;>
      simp only [pop, push, if_true, if_false, Bool.false_eq_true, Bool.not_true, Bool.not_false, Option.toList_none,
        Option.toList_some, List.length_nil, List.length_singleton] at lengths ⊢
    · omega
    · have one : (1 : BitVec bits).toNat = 1 := (BitVec.toNat_ofNat 1 bits).trans (Nat.mod_eq_of_lt (by omega))
      rw [BitVec.toNat_add_of_lt (by omega), one]
      omega
    · have one : (1 : BitVec bits).toNat = 1 := (BitVec.toNat_ofNat 1 bits).trans (Nat.mod_eq_of_lt (by omega))
      rw [BitVec.toNat_sub_of_le (BitVec.le_def.mpr (by omega)), one]
      omega
    · omega

theorem counted_tells (room : ∀ s r, holds s [] → r.popReq = true → (B.respond s r).pushAck = true) :
    (counted B bits).Tells (fun s => decide (0 < s.2)) (CountHolds holds) := by
  constructor
  · rintro s q ⟨_, count⟩
    rw [decide_eq_true_iff, BitVec.lt_def, count, ← List.length_pos_iff]
    simp
  · rintro s r ⟨held, _⟩ pop
    exact room s.1 r held pop

end Counted

theorem synchFifoWithDPRAM_room (collide : BitVec w) {depth : Nat} (deep : 1 < depth) (s : DpramState w)
    (r : Request (BitVec w)) (held : s.Consistent depth ∧ [] = s.contents depth) :
    ((synchFifoWithDPRAM collide depth).respond s r).pushAck = true := by
  have none := congrArg List.length held.2
  rw [DpramState.contents, List.length_append, window_length, List.length_nil] at none
  exact decide_eq_true (by omega)

theorem unloadBufferDeep_unloads (collide : BitVec w) {bufferSize : Nat}
    (deep : ¬ bufferSize < pipeShallownessThreshold) :
    ∃ holds, (unloadBufferDeep collide bufferSize false).buffer.Unloads (bufferSize + 2) holds := by
  obtain ⟨holdsU, handsOn⟩ := unloadRegister_handsOn (w := w) false
  have several : 1 < bufferSize := by
    unfold pipeShallownessThreshold at deep
    omega
  unfold unloadBufferDeep
  rw [pipeQueue_plain, if_neg deep]
  have fits : bufferSize + 1 < 2 ^ ceilLog2 (bufferSize + 2) := le_two_pow_ceilLog2 (bufferSize + 2)
  exact ⟨_, unloader_unloads handsOn (counted_fifo (DpramState.synchFifoWithDPRAM_fifo collide several) fits)
    (counted_tells fun s r held _ => synchFifoWithDPRAM_room collide several s r held)⟩

end Ahir.Hardware
