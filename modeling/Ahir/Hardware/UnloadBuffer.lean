import Ahir.Data.Throughout
import Ahir.Hardware.QueueBase

/-!
# Unload buffers

`UnloadBufferRevised` and `UnloadBufferRevisedNonblocking`: a queue followed by
`UnloadFsm` or `UnloadFsmNoBlock`.  A word that has been handed over stays in the
queue until the next request, which pops it.
-/

set_option autoImplicit false

namespace Ahir.Hardware.UnloadBuffer
open Ahir.Data

variable {w : Nat}

/-- The inputs of the control; `writeReq` and `dataIn` come from the queue. -/
structure FsmInput (w : Nat) where
  writeReq : Bool
  unloadReq : Bool
  dataIn : BitVec w

structure FsmOutput (w : Nat) where
  writeAck : Bool
  unloadAck : Bool
  dataOut : BitVec w

structure Control (F : Type) (w : Nat) where
  reset : F
  out : F → FsmInput w → FsmOutput w
  next : F → FsmInput w → F

inductive UnloadFsmState where
  | idle | dataValid | waitOnData

structure UnloadFsmRegs where
  fsmState : UnloadFsmState
  unloadAckD : Bool

def unloadFsm : Control UnloadFsmRegs w where
  reset := { fsmState := .idle, unloadAckD := false }
  out := fun f i =>
    match f.fsmState with
    | .idle => { writeAck := false, unloadAck := f.unloadAckD, dataOut := i.dataIn }
    | .dataValid => { writeAck := i.unloadReq, unloadAck := f.unloadAckD, dataOut := i.dataIn }
    | .waitOnData =>
        { writeAck := i.writeReq && i.unloadReq, unloadAck := i.writeReq || f.unloadAckD, dataOut := i.dataIn }
  next := fun f i =>
    match f.fsmState with
    | .idle =>
        if i.unloadReq then
          if i.writeReq then { fsmState := .dataValid, unloadAckD := true }
          else { fsmState := .waitOnData, unloadAckD := false }
        else { fsmState := .idle, unloadAckD := false }
    | .dataValid => { fsmState := if i.unloadReq then .waitOnData else .dataValid, unloadAckD := false }
    | .waitOnData =>
        { fsmState := if i.writeReq && !i.unloadReq then .dataValid else .waitOnData, unloadAckD := false }

inductive UnloadFsmNoBlockState where
  | idle | unloadAck | dataValid | zeroData

def unloadFsmNoBlock : Control UnloadFsmNoBlockState w where
  reset := .idle
  out := fun f i =>
    match f with
    | .idle => { writeAck := false, unloadAck := false, dataOut := i.dataIn }
    | .unloadAck =>
        { writeAck := i.unloadReq && i.writeReq, unloadAck := true, dataOut := if i.writeReq then i.dataIn else 0 }
    | .zeroData => { writeAck := false, unloadAck := false, dataOut := 0 }
    | .dataValid => { writeAck := i.unloadReq, unloadAck := false, dataOut := i.dataIn }
  next := fun f i =>
    match f with
    | .idle => if i.unloadReq then .unloadAck else .idle
    | .unloadAck => if i.unloadReq then .unloadAck else if i.writeReq then .dataValid else .zeroData
    | .zeroData => if i.unloadReq then .unloadAck else .zeroData
    | .dataValid => if i.unloadReq then .unloadAck else .dataValid

structure Cycle (w : Nat) where
  writeReq : Bool
  writeData : BitVec w
  unloadReq : Bool

structure State (F : Type) (w depth : Nat) where
  queue : QueueState w depth
  control : F

structure Unloader (F : Type) (w : Nat) where
  control : Control F w
  bypassFlag : Bool
  distributedRam : Bool

def unloadBufferRevised (bypassFlag distributedRam : Bool) : Unloader UnloadFsmRegs w :=
  { control := unloadFsm, bypassFlag := bypassFlag, distributedRam := distributedRam }

def unloadBufferRevisedNonblocking (bypassFlag distributedRam : Bool) : Unloader UnloadFsmNoBlockState w :=
  { control := unloadFsmNoBlock, bypassFlag := bypassFlag, distributedRam := distributedRam }

namespace Unloader
variable {F : Type} (U : Unloader F w) {depth : Nat}

def bufPipe (depth : Nat) : Buffer (QueueState w depth) (BitVec w) :=
  queueBaseWithEmptyFull U.bypassFlag U.distributedRam depth

/-- What the control sees: no queue's `pop_ack` or `data_out` depends on its `pop_req`. -/
def fsmInput (s : State F w depth) (c : Cycle w) : FsmInput w :=
  let pipe := (U.bufPipe depth).respond s.queue ⟨c.writeData, c.writeReq, false⟩
  { writeReq := pipe.popAck, unloadReq := c.unloadReq, dataIn := pipe.dataOut }

def fsmOutput (s : State F w depth) (c : Cycle w) : FsmOutput w := U.control.out s.control (U.fsmInput s c)

def request (s : State F w depth) (c : Cycle w) : Request (BitVec w) :=
  { dataIn := c.writeData, pushReq := c.writeReq, popReq := (U.fsmOutput s c).writeAck }

def unloadAck (s : State F w depth) (c : Cycle w) : Bool := (U.fsmOutput s c).unloadAck

def readData (s : State F w depth) (c : Cycle w) : BitVec w := (U.fsmOutput s c).dataOut

def reset (s : State F w depth) (c : Cycle w) : State F w depth :=
  { queue := (U.bufPipe depth).reset s.queue (U.request s c), control := U.control.reset }

def next (s : State F w depth) (c : Cycle w) : State F w depth :=
  { queue := (U.bufPipe depth).next s.queue (U.request s c), control := U.control.next s.control (U.fsmInput s c) }

def run (s : State F w depth) (cs : List (Cycle w)) : State F w depth := cs.foldl U.next s

def accept (s : State F w depth) (c : Cycle w) : List (BitVec w) :=
  ((U.bufPipe depth).pushed s.queue (U.request s c)).toList

/-- What is there at an acknowledge: whether a word waits (`has_data`), and the data. -/
def present (s : State F w depth) (c : Cycle w) : List (Bool × BitVec w) :=
  if U.unloadAck s c then [(!s.queue.empty, U.readData s c)] else []

def accepted : State F w depth → List (Cycle w) → List (BitVec w)
  | _, [] => []
  | s, c :: cs => U.accept s c ++ accepted (U.next s c) cs

def presented : State F w depth → List (Cycle w) → List (Bool × BitVec w)
  | _, [] => []
  | s, c :: cs => U.present s c ++ presented (U.next s c) cs

variable {U}

theorem run_snoc (s : State F w depth) (cs : List (Cycle w)) (c : Cycle w) :
    U.run s (cs ++ [c]) = U.next (U.run s cs) c := List.foldl_append ..

theorem accepted_snoc (s : State F w depth) (cs : List (Cycle w)) (c : Cycle w) :
    U.accepted s (cs ++ [c]) = U.accepted s cs ++ U.accept (U.run s cs) c := by
  induction cs generalizing s with
  | nil => exact List.append_nil _
  | cons d cs ih =>
      rw [List.cons_append, accepted, ih, accepted, List.append_assoc]
      rfl

theorem presented_snoc (s : State F w depth) (cs : List (Cycle w)) (c : Cycle w) :
    U.presented s (cs ++ [c]) = U.presented s cs ++ U.present (U.run s cs) c := by
  induction cs generalizing s with
  | nil => exact List.append_nil _
  | cons d cs ih =>
      rw [List.cons_append, presented, ih, presented, List.append_assoc]
      rfl

end Unloader

def delivered (ps : List (Bool × BitVec w)) : List (BitVec w) := (ps.filter Prod.fst).map Prod.snd

def requests (cs : List (Cycle w)) : Nat := cs.countP Cycle.unloadReq

/-- A request comes only when all before it have been acknowledged, the last of
them in the same cycle at the latest. -/
def Obeys {F : Type} {depth : Nat} (U : Unloader F w) (s : State F w depth) (cs : List (Cycle w)) : Prop :=
  Throughout (fun before c => c.unloadReq = true → (U.presented s (before ++ [c])).length = requests before) cs

/-- What the buffer does in the cycle `c` after the cycles `cs`. -/
structure HandsOver {F : Type} {depth : Nat} (U : Unloader F w) (blocking : Bool) (s : State F w depth)
    (cs : List (Cycle w)) (c : Cycle w) : Prop where
  /-- No acknowledge without a request. -/
  requested : (U.presented s cs).length ≤ requests cs
  single : requests cs ≤ (U.presented s cs).length + 1
  /-- The request that is open is acknowledged, as soon as a word waits if the control blocks. -/
  acknowledged : U.unloadAck (U.run s cs) c = true ↔ (U.presented s cs).length < requests cs ∧
    (blocking = true → (delivered (U.presented s cs)).length < (U.accepted s cs).length)
  /-- At an acknowledge those words wait that have come in and not been handed over. -/
  waits : U.unloadAck (U.run s cs) c = true → ((U.run s cs).queue.empty = false ↔
    (delivered (U.presented s cs)).length < (U.accepted s cs).length)
  zero : U.unloadAck (U.run s cs) c = true → (U.run s cs).queue.empty = true → U.readData (U.run s cs) c = 0
  /-- The words handed over, with the one of this cycle, are those that came in first. -/
  ordered : delivered (U.presented s (cs ++ [c])) <+: U.accepted s cs
  /-- What was presented last stays until the next request, and in its cycle. -/
  keeps : (U.presented s cs).length = requests cs →
    ∀ last ∈ (U.presented s cs).getLast?, U.readData (U.run s cs) c = last.2

section Queue
variable {bypassFlag distributedRam : Bool} {depth : Nat} {queue : QueueState w (depth + 1)} {q : List (BitVec w)}

theorem queue_popAck (bypassFlag distributedRam : Bool) : {depth : Nat} → {queue : QueueState w (depth + 1)} →
    {q : List (BitVec w)} → QueueHolds queue q → (r : Request (BitVec w)) →
    ((queueBaseWithEmptyFull bypassFlag distributedRam (depth + 1)).respond queue r).popAck = decide (0 < q.length)
  | 0, queue, q, held, r => by
      obtain rfl := held
      change SlotState.fullFlag queue = _
      cases SlotState.fullFlag queue <;> rfl
  | depth + 1, queue, q, held, r => by
      change (!RingState.empty queue) = _
      have none := RingHolds.empty_iff held
      cases isEmpty : RingState.empty queue with
      | true => rw [none.mp isEmpty]; rfl
      | false =>
          have some : q.length ≠ 0 := fun length => by simp [none.mpr length] at isEmpty
          exact (decide_eq_true (Nat.pos_of_ne_zero some)).symm

theorem queue_showsNext (bypassFlag distributedRam : Bool) (depth : Nat) :
    (queueBaseWithEmptyFull bypassFlag distributedRam (depth + 1) :
      Buffer (QueueState w (depth + 1)) (BitVec w)).ShowsNext QueueHolds := by
  refine ⟨fun s r q held => queue_popAck bypassFlag distributedRam held r, ?_⟩
  intro s r r'
  cases depth <;> rfl

variable (held : QueueHolds queue q)
include held

theorem queue_front (r : Request (BitVec w)) {x : BitVec w} {rest : List (BitVec w)} (words : q = x :: rest) :
    ((queueBaseWithEmptyFull bypassFlag distributedRam (depth + 1)).respond queue r).dataOut = x :=
  (queue_showsNext bypassFlag distributedRam depth).front (queueBaseWithEmptyFull_fifo _ _ _) held r words

theorem queue_next (bypassFlag distributedRam : Bool) (r : Request (BitVec w)) :
    QueueHolds ((queueBaseWithEmptyFull bypassFlag distributedRam (depth + 1)).next queue r)
      ((if r.popReq then q.tail else q) ++
        ((queueBaseWithEmptyFull bypassFlag distributedRam (depth + 1)).pushed queue r).toList) :=
  (queue_showsNext bypassFlag distributedRam depth).next (queueBaseWithEmptyFull_fifo _ _ _) held r

end Queue

/-- What has happened so far: how many words have come in, were popped and were
handed over, the acknowledges and requests, and what was presented last. -/
structure Tally (w : Nat) where
  arrived : Nat
  taken : Nat
  given : Nat
  acks : Nat
  requests : Nat
  last : Option (Bool × BitVec w)

namespace Tally

def waits (t : Tally w) : Bool := decide (t.taken < t.arrived)

def after (t : Tally w) (o : FsmOutput w) (unloadReq : Bool) (more : Nat) : Tally w where
  arrived := t.arrived + more
  taken := t.taken + (o.writeAck && t.waits).toNat
  given := t.given + (o.unloadAck && t.waits).toNat
  acks := t.acks + o.unloadAck.toNat
  requests := t.requests + unloadReq.toNat
  last := if o.unloadAck then some (t.waits, o.dataOut) else t.last

end Tally

/-- The outputs of a control that sees the word `dataIn` if one waits. -/
structure Answers (blocking : Bool) (t : Tally w) (dataIn : BitVec w) (o : FsmOutput w) : Prop where
  requested : t.acks ≤ t.requests
  single : t.requests ≤ t.acks + 1
  acknowledged : o.unloadAck = true ↔ t.acks < t.requests ∧ (blocking = true → t.given < t.arrived)
  fresh : o.unloadAck = true → t.taken = t.given
  word : o.unloadAck = true → t.waits = true → o.dataOut = dataIn
  zero : o.unloadAck = true → t.waits = false → o.dataOut = 0
  keeps : t.acks = t.requests → ∀ last ∈ t.last, o.dataOut = last.2

/-- `Stage f t front` tells the tallies that a state of the control stands for,
with the word that waits longest. -/
structure Steers {F : Type} (control : Control F w) (blocking : Bool)
    (Stage : F → Tally w → Option (BitVec w) → Prop) : Prop where
  reset : ∀ front, Stage control.reset ⟨0, 0, 0, 0, 0, none⟩ front
  answers : ∀ {f : F} {t : Tally w} {front : Option (BitVec w)} {i : FsmInput w}, Stage f t front →
    i.writeReq = t.waits → (t.waits = true → front = some i.dataIn) → Answers blocking t i.dataIn (control.out f i)
  turn : ∀ {f : F} {t : Tally w} {front : Option (BitVec w)} {i : FsmInput w}, Stage f t front →
    i.writeReq = t.waits → (t.waits = true → front = some i.dataIn) →
    (i.unloadReq = true → t.acks + (control.out f i).unloadAck.toNat = t.requests) →
    ∀ more front', ((control.out f i).writeAck = false → t.waits = true → front' = front) →
      Stage (control.next f i) (t.after (control.out f i) i.unloadReq more) front'

/-- A word that was handed over and still waits is the one presented last. -/
def UnloadFsmRegs.Stage : UnloadFsmRegs → Tally w → Option (BitVec w) → Prop
  | ⟨.idle, unloadAckD⟩, t, _ =>
      unloadAckD = false ∧ t.taken = 0 ∧ t.given = 0 ∧ t.acks = 0 ∧ t.requests = 0 ∧ t.last = none
  | ⟨.dataValid, true⟩, t, _ => t.taken < t.arrived ∧ t.requests = t.acks + 1 ∧ t.taken = t.given
  | ⟨.dataValid, false⟩, t, front =>
      t.taken < t.arrived ∧ t.requests = t.acks ∧ t.taken + 1 = t.given ∧ t.last = front.map (true, ·)
  | ⟨.waitOnData, unloadAckD⟩, t, _ => unloadAckD = false ∧ t.requests = t.acks + 1 ∧ t.taken = t.given

theorem unloadFsm_steers : Steers (unloadFsm : Control UnloadFsmRegs w) true UnloadFsmRegs.Stage := by
  refine ⟨?_, ?_, ?_⟩
  · intro front
    exact ⟨rfl, rfl, rfl, rfl, rfl, rfl⟩
  · rintro ⟨state, unloadAckD⟩ t front i stage writeReq word
    cases state with
    | idle =>
        obtain ⟨rfl, taken, given, acks, requests, last⟩ := stage
        constructor <;> simp [unloadFsm, acks, requests, last]
    | dataValid =>
        cases unloadAckD with
        | true =>
            obtain ⟨waits, requests, fresh⟩ := stage
            constructor <;> simp [unloadFsm, Tally.waits, requests, ← fresh, waits]
        | false =>
            obtain ⟨waits, requests, held, last⟩ := stage
            have front := word (decide_eq_true waits)
            constructor <;> simp [unloadFsm, requests, last, front]
    | waitOnData =>
        obtain ⟨rfl, requests, fresh⟩ := stage
        constructor <;> simp [unloadFsm, writeReq, Tally.waits, requests, ← fresh]
        intro few
        omega
  · rintro ⟨state, unloadAckD⟩ t front i stage writeReq word obeys more front' same
    have room : t.waits = true → t.taken < t.arrived := of_decide_eq_true
    cases state with
    | idle =>
        obtain ⟨rfl, taken, given, acks, requests, last⟩ := stage
        cases isReq : i.unloadReq <;> cases waits : t.waits <;>
          simp_all [unloadFsm, UnloadFsmRegs.Stage, Tally.after]
    | dataValid =>
        cases unloadAckD with
        | true =>
            obtain ⟨isWord, requests, fresh⟩ := stage
            have waits : t.waits = true := decide_eq_true isWord
            cases isReq : i.unloadReq <;>
              simp_all [unloadFsm, UnloadFsmRegs.Stage, Tally.after]
            omega
        | false =>
            obtain ⟨isWord, requests, held, last⟩ := stage
            have waits : t.waits = true := decide_eq_true isWord
            cases isReq : i.unloadReq <;>
              simp_all [unloadFsm, UnloadFsmRegs.Stage, Tally.after]
            omega
    | waitOnData =>
        obtain ⟨rfl, requests, fresh⟩ := stage
        cases isReq : i.unloadReq <;> cases waits : t.waits <;>
          simp_all [unloadFsm, UnloadFsmRegs.Stage, Tally.after]
        omega

def UnloadFsmNoBlockState.Stage : UnloadFsmNoBlockState → Tally w → Option (BitVec w) → Prop
  | .idle, t, _ => t.taken = 0 ∧ t.given = 0 ∧ t.acks = 0 ∧ t.requests = 0 ∧ t.last = none
  | .unloadAck, t, _ => t.requests = t.acks + 1 ∧ t.taken = t.given
  | .dataValid, t, front =>
      t.taken < t.arrived ∧ t.requests = t.acks ∧ t.taken + 1 = t.given ∧ t.last = front.map (true, ·)
  | .zeroData, t, _ => t.requests = t.acks ∧ t.taken = t.given ∧ t.last = some (false, 0)

theorem unloadFsmNoBlock_steers :
    Steers (unloadFsmNoBlock : Control UnloadFsmNoBlockState w) false UnloadFsmNoBlockState.Stage := by
  refine ⟨?_, ?_, ?_⟩
  · intro front
    exact ⟨rfl, rfl, rfl, rfl, rfl⟩
  · intro state t front i stage writeReq word
    cases state with
    | idle =>
        obtain ⟨taken, given, acks, requests, last⟩ := stage
        constructor <;> simp [unloadFsmNoBlock, acks, requests, last]
    | unloadAck =>
        obtain ⟨requests, fresh⟩ := stage
        constructor <;> simp_all [unloadFsmNoBlock]
    | dataValid =>
        obtain ⟨waits, requests, held, last⟩ := stage
        have front := word (decide_eq_true waits)
        constructor <;> simp [unloadFsmNoBlock, requests, last, front]
    | zeroData =>
        obtain ⟨requests, fresh, last⟩ := stage
        constructor <;> simp [unloadFsmNoBlock, requests, last]
  · intro state t front i stage writeReq word obeys more front' same
    have room : t.waits = true → t.taken < t.arrived := of_decide_eq_true
    cases state with
    | idle =>
        obtain ⟨taken, given, acks, requests, last⟩ := stage
        cases isReq : i.unloadReq <;>
          simp_all [unloadFsmNoBlock, UnloadFsmNoBlockState.Stage, Tally.after]
    | unloadAck =>
        obtain ⟨requests, fresh⟩ := stage
        cases isReq : i.unloadReq <;> cases waits : t.waits <;>
          simp_all [unloadFsmNoBlock, UnloadFsmNoBlockState.Stage, Tally.after]
        omega
    | dataValid =>
        obtain ⟨isWord, requests, held, last⟩ := stage
        have waits : t.waits = true := decide_eq_true isWord
        cases isReq : i.unloadReq <;>
          simp_all [unloadFsmNoBlock, UnloadFsmNoBlockState.Stage, Tally.after]
        omega
    | zeroData =>
        obtain ⟨requests, fresh, last⟩ := stage
        cases isReq : i.unloadReq <;>
          simp_all [unloadFsmNoBlock, UnloadFsmNoBlockState.Stage, Tally.after]

section Runs
variable {F : Type} {U : Unloader F w} {depth : Nat} {s : State F w (depth + 1)} {blocking : Bool}
  {Stage : F → Tally w → Option (BitVec w) → Prop}

def tally (U : Unloader F w) (s : State F w (depth + 1)) (cs : List (Cycle w)) (taken : Nat) : Tally w where
  arrived := (U.accepted s cs).length
  taken := taken
  given := (delivered (U.presented s cs)).length
  acks := (U.presented s cs).length
  requests := requests cs
  last := (U.presented s cs).getLast?

/-- What has come in and was not popped is in the queue, and the control is in the
stage of the run. -/
structure Follows (U : Unloader F w) (Stage : F → Tally w → Option (BitVec w) → Prop) (s : State F w (depth + 1))
    (cs : List (Cycle w)) (taken : Nat) : Prop where
  bounded : taken ≤ (U.accepted s cs).length
  queue : QueueHolds (U.run s cs).queue ((U.accepted s cs).drop taken)
  ordered : delivered (U.presented s cs) <+: U.accepted s cs
  stage : Stage (U.run s cs).control (tally U s cs taken) (U.accepted s cs)[taken]?

section Step
variable {cs : List (Cycle w)} {taken : Nat} (follows : Follows U Stage s cs taken) (c : Cycle w)
include follows

theorem Follows.writeReq : (U.fsmInput (U.run s cs) c).writeReq = (tally U s cs taken).waits := by
  rw [Unloader.fsmInput, Unloader.bufPipe, queue_popAck _ _ follows.queue, List.length_drop]
  exact decide_eq_decide.mpr Nat.sub_pos_iff_lt

theorem Follows.dataIn (waits : (tally U s cs taken).waits = true) :
    (U.accepted s cs)[taken]? = some (U.fsmInput (U.run s cs) c).dataIn := by
  have inside : taken < (U.accepted s cs).length := of_decide_eq_true waits
  rw [List.getElem?_eq_getElem inside]
  exact congrArg some (queue_front follows.queue _ (List.drop_eq_getElem_cons inside)).symm

theorem Follows.empty : (U.run s cs).queue.empty = !(tally U s cs taken).waits := by
  have empty := follows.queue.spec.2.1
  rw [List.length_drop] at empty
  rw [Bool.eq_iff_iff, empty, Tally.waits, Bool.not_eq_true', decide_eq_false_iff_not]
  exact Nat.sub_eq_zero_iff_le.trans Nat.not_lt.symm

theorem Follows.answers (steers : Steers U.control blocking Stage) :
    Answers blocking (tally U s cs taken) (U.fsmInput (U.run s cs) c).dataIn (U.fsmOutput (U.run s cs) c) :=
  steers.answers follows.stage (follows.writeReq c) (follows.dataIn c)

theorem Follows.present_eq : U.present (U.run s cs) c =
    if (U.fsmOutput (U.run s cs) c).unloadAck then
      [((tally U s cs taken).waits, (U.fsmOutput (U.run s cs) c).dataOut)]
    else [] := by
  rw [Unloader.present, follows.empty, Bool.not_not]
  rfl

theorem Follows.tally_snoc :
    tally U s (cs ++ [c]) (taken + ((U.fsmOutput (U.run s cs) c).writeAck && (tally U s cs taken).waits).toNat) =
      (tally U s cs taken).after (U.fsmOutput (U.run s cs) c) c.unloadReq (U.accept (U.run s cs) c).length := by
  unfold Tally.after tally
  congr 1
  · rw [Unloader.accepted_snoc, List.length_append]
  · rw [Unloader.presented_snoc, delivered, List.filter_append, List.map_append, List.length_append,
      follows.present_eq c]
    cases (U.fsmOutput (U.run s cs) c).unloadAck <;> cases waits : (tally U s cs taken).waits <;> simp_all [tally, delivered]
  · rw [Unloader.presented_snoc, List.length_append, follows.present_eq c]
    cases (U.fsmOutput (U.run s cs) c).unloadAck <;> rfl
  · rw [requests, List.countP_append]
    cases isReq : c.unloadReq <;> simp [requests, isReq]
  · rw [Unloader.presented_snoc, follows.present_eq c]
    cases (U.fsmOutput (U.run s cs) c).unloadAck <;> simp [tally]

theorem Follows.ordered_snoc (steers : Steers U.control blocking Stage) :
    delivered (U.presented s (cs ++ [c])) <+: U.accepted s cs := by
  have answers := follows.answers c steers
  rw [Unloader.presented_snoc, delivered, List.filter_append, List.map_append, follows.present_eq c]
  cases acked : (U.fsmOutput (U.run s cs) c).unloadAck with
  | false => simpa [delivered] using follows.ordered
  | true =>
      cases waits : (tally U s cs taken).waits with
      | false => simpa [delivered] using follows.ordered
      | true =>
          obtain ⟨rest, whole⟩ := follows.ordered
          have fresh : taken = (delivered (U.presented s cs)).length := answers.fresh acked
          have next := follows.dataIn c waits
          rw [← whole, fresh, List.getElem?_append_right (Nat.le_refl _), Nat.sub_self] at next
          obtain ⟨rest', rfl⟩ := List.head?_eq_some_iff.mp (List.head?_eq_getElem?.trans next)
          rw [answers.word acked waits, ← whole]
          exact ⟨rest', by simp [delivered]⟩

theorem Follows.next (steers : Steers U.control blocking Stage) (obeys : Obeys U s (cs ++ [c])) :
    Follows U Stage s (cs ++ [c])
      (taken + ((U.fsmOutput (U.run s cs) c).writeAck && (tally U s cs taken).waits).toNat) := by
  have inside : (tally U s cs taken).waits = true → taken < (U.accepted s cs).length := of_decide_eq_true
  have bounded := follows.bounded
  refine ⟨?_, ?_, ?_, ?_⟩
  · rw [Unloader.accepted_snoc, List.length_append]
    cases (U.fsmOutput (U.run s cs) c).writeAck <;> cases waits : (tally U s cs taken).waits <;>
      simp [waits] at inside ⊢ <;> omega
  · have queue : QueueHolds (U.next (U.run s cs) c).queue
        ((if (U.fsmOutput (U.run s cs) c).writeAck then ((U.accepted s cs).drop taken).tail
          else (U.accepted s cs).drop taken) ++ U.accept (U.run s cs) c) :=
      queue_next follows.queue U.bypassFlag U.distributedRam (U.request (U.run s cs) c)
    rw [Unloader.run_snoc, Unloader.accepted_snoc, List.drop_append_of_le_length]
    · convert queue using 2
      cases (U.fsmOutput (U.run s cs) c).writeAck with
      | false => rfl
      | true =>
          cases waits : (tally U s cs taken).waits with
          | true => exact List.tail_drop.symm
          | false =>
              have none : (U.accepted s cs).length ≤ taken := Nat.not_lt.mp (of_decide_eq_false waits)
              simp [List.drop_eq_nil_of_le none]
    · cases (U.fsmOutput (U.run s cs) c).writeAck <;> cases waits : (tally U s cs taken).waits <;>
        simp [waits] at inside ⊢ <;> omega
  · rw [Unloader.accepted_snoc]
    exact (follows.ordered_snoc c steers).trans (List.prefix_append _ _)
  · rw [follows.tally_snoc c, Unloader.run_snoc]
    apply steers.turn follows.stage (follows.writeReq c) (follows.dataIn c)
    · intro isReq
      have legal := (throughout_snoc_iff.mp obeys).2 isReq
      rw [Unloader.presented_snoc, List.length_append, follows.present_eq c] at legal
      change (U.presented s cs).length + (U.fsmOutput (U.run s cs) c).unloadAck.toNat = requests cs
      rw [← legal]
      cases (U.fsmOutput (U.run s cs) c).unloadAck <;> rfl
    · intro stays waits
      have kept : (U.fsmOutput (U.run s cs) c).writeAck = false := stays
      rw [kept, Bool.false_and, Bool.toNat_false, Nat.add_zero taken, Unloader.accepted_snoc,
        List.getElem?_append_left (inside waits)]

end Step

/-- Every run from the reset on has a tally that the control follows. -/
theorem Steers.follows (steers : Steers U.control blocking Stage) (s : State F w (depth + 1)) (c : Cycle w)
    (cs : List (Cycle w)) (obeys : Obeys U (U.reset s c) cs) : ∃ taken, Follows U Stage (U.reset s c) cs taken := by
  induction cs using List.reverseRecOn with
  | nil =>
      refine ⟨0, Nat.le_refl 0, ?_, List.nil_prefix, steers.reset _⟩
      exact (queueBaseWithEmptyFull_fifo U.bypassFlag U.distributedRam (depth + 1)).reset s.queue (U.request s c)
  | append_singleton cs d ih =>
      obtain ⟨taken, follows⟩ := ih (throughout_snoc_iff.mp obeys).1
      exact ⟨_, follows.next d steers obeys⟩

theorem Steers.handsOver (steers : Steers U.control blocking Stage) (s : State F w (depth + 1)) (c : Cycle w)
    (cs : List (Cycle w)) (obeys : Obeys U (U.reset s c) cs) (d : Cycle w) :
    HandsOver U blocking (U.reset s c) cs d := by
  obtain ⟨taken, follows⟩ := steers.follows s c cs obeys
  have answers := follows.answers d steers
  refine ⟨answers.requested, answers.single, answers.acknowledged, ?_, ?_, follows.ordered_snoc d steers, answers.keeps⟩
  · intro acked
    have fresh : taken = (delivered (U.presented (U.reset s c) cs)).length := answers.fresh acked
    rw [follows.empty, Bool.not_eq_false', ← fresh]
    exact decide_eq_true_iff
  · intro acked isEmpty
    rw [follows.empty, Bool.not_eq_true'] at isEmpty
    exact answers.zero acked isEmpty

end Runs

/-- Both unload buffers hand over the words that come in: every request is
acknowledged once, and the data stay until the next one.  `UnloadBuffer` uses
them with a queue of depth one or more only. -/
theorem unloadBuffers_hand_over (w : Nat) {bufferSize : Nat} (pos : 0 < bufferSize) (bypassFlag distributedRam : Bool) :
    (∀ (s : State UnloadFsmRegs w bufferSize) (c : Cycle w) (cs : List (Cycle w)),
      let U : Unloader UnloadFsmRegs w := unloadBufferRevised bypassFlag distributedRam
      Obeys U (U.reset s c) cs → ∀ d, HandsOver U true (U.reset s c) cs d) ∧
    ∀ (s : State UnloadFsmNoBlockState w bufferSize) (c : Cycle w) (cs : List (Cycle w)),
      let U : Unloader UnloadFsmNoBlockState w := unloadBufferRevisedNonblocking bypassFlag distributedRam
      Obeys U (U.reset s c) cs → ∀ d, HandsOver U false (U.reset s c) cs d := by
  obtain ⟨depth, rfl⟩ : ∃ depth, bufferSize = depth + 1 := ⟨bufferSize - 1, by omega⟩
  refine ⟨?_, ?_⟩
  · intro s c cs U obeys d
    exact unloadFsm_steers.handsOver s c cs obeys d
  · intro s c cs U obeys d
    exact unloadFsmNoBlock_steers.handsOver s c cs obeys d

/-- The second request comes with the first acknowledge. -/
theorem unloadBuffers_hand_over_two :
    let cs : List (Cycle 4) := [⟨true, 5, true⟩, ⟨true, 6, true⟩]
    let s : State UnloadFsmRegs 4 2 := ⟨⟨fun _ => 0, 0, 0, .emptyState⟩, ⟨.idle, false⟩⟩
    let s' : State UnloadFsmNoBlockState 4 2 := ⟨⟨fun _ => 0, 0, 0, .emptyState⟩, .idle⟩
    let U : Unloader UnloadFsmRegs 4 := unloadBufferRevised false false
    let U' : Unloader UnloadFsmNoBlockState 4 := unloadBufferRevisedNonblocking false false
    HandsOver U true (U.reset s ⟨false, 0, false⟩) cs ⟨false, 0, false⟩ ∧
      HandsOver U' false (U'.reset s' ⟨false, 0, false⟩) cs ⟨false, 0, false⟩ := by
  intro cs s s' U U'
  obtain ⟨revised, nonblocking⟩ := unloadBuffers_hand_over 4 Nat.two_pos false false
  refine ⟨revised s ⟨false, 0, false⟩ cs ?_ _, nonblocking s' ⟨false, 0, false⟩ cs ?_ _⟩
  · unfold Obeys
    decide
  · unfold Obeys
    decide

end Ahir.Hardware.UnloadBuffer
