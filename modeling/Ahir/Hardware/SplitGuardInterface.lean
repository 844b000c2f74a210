import Ahir.Data.Throughout
import Ahir.Hardware.SingleBitQueue

/-!
# Guarded operators

`SplitGuardInterfaceBase`: the guard of each sample request goes into a queue, and
each update request takes one out of it.  Where the guard is 0 the operator is
passed by, and the interface acknowledges in its place.
-/

set_option autoImplicit false

namespace Ahir.Hardware.SplitGuardInterface
open Ahir.Data

inductive SrInState where
  | idle | waitOnPushAck
  deriving DecidableEq

inductive UpdateFsmState where
  | run | waitPop | waitCain

structure Cycle where
  srIn : Bool
  saIn : Bool
  crIn : Bool
  caIn : Bool
  guard : Bool

structure State (S : Type) where
  queue : S
  srInState : SrInState
  guardRegistered : Bool
  updateFsmState : UpdateFsmState
  caOutD : Bool

/-- `push_req` of `SgiSampleFsm`. -/
def pushReq (state : SrInState) (srIn : Bool) : Bool :=
  match state with
  | .idle => srIn
  | .waitOnPushAck => true

/-- `sr_in_q` of `SgiSampleFsm`. -/
def srInQ (state : SrInState) (srIn pushAck : Bool) : Bool :=
  match state with
  | .idle => srIn && pushAck
  | .waitOnPushAck => pushAck

def nextSrInState (state : SrInState) (srIn pushAck : Bool) : SrInState :=
  match state with
  | .idle => if srIn && !pushAck then .waitOnPushAck else .idle
  | .waitOnPushAck => if pushAck then .idle else .waitOnPushAck

/-- `pop_req` of `SgiUpdateFsm`. -/
def popReq (state : UpdateFsmState) (crIn caIn : Bool) : Bool :=
  match state with
  | .run => crIn
  | .waitPop => true
  | .waitCain => caIn && crIn

/-- The other variables of `SgiUpdateFsm`. -/
structure UpdateOutput where
  crOut : Bool
  caOutD : Bool
  caOutU : Bool
  nextState : UpdateFsmState

def onPop (caOutU popAck popData : Bool) : UpdateOutput :=
  if popAck then
    if popData then { crOut := true, caOutD := false, caOutU := caOutU, nextState := .waitCain }
    else { crOut := false, caOutD := true, caOutU := caOutU, nextState := .run }
  else { crOut := false, caOutD := false, caOutU := caOutU, nextState := .waitPop }

def updateFsm (state : UpdateFsmState) (crIn caIn popAck popData : Bool) : UpdateOutput :=
  match state with
  | .run =>
      if crIn then onPop false popAck popData
      else { crOut := false, caOutD := false, caOutU := false, nextState := .run }
  | .waitPop => onPop false popAck popData
  | .waitCain =>
      if caIn then
        if crIn then onPop true popAck popData
        else { crOut := false, caOutD := false, caOutU := true, nextState := .run }
      else { crOut := false, caOutD := false, caOutU := false, nextState := .waitCain }

section Interface
variable {S : Type} (Q : Buffer S Bool) (s : State S) (c : Cycle)

def request : Request Bool :=
  { dataIn := c.guard
    pushReq := pushReq s.srInState c.srIn
    popReq := popReq s.updateFsmState c.crIn c.caIn }

def response : Response Bool := Q.respond s.queue (request s c)

def guardInterfaceSustained : Bool := if c.srIn then c.guard else s.guardRegistered

def sampled : Bool := srInQ s.srInState c.srIn (response Q s c).pushAck

def srOut : Bool := if guardInterfaceSustained s c then sampled Q s c else false

def saOut : Bool := if guardInterfaceSustained s c then c.saIn else sampled Q s c

def update : UpdateOutput :=
  updateFsm s.updateFsmState c.crIn c.caIn (response Q s c).popAck (response Q s c).dataOut

def crOut : Bool := (update Q s c).crOut

def caOut : Bool := s.caOutD || (update Q s c).caOutU

def next : State S where
  queue := Q.next s.queue (request s c)
  srInState := nextSrInState s.srInState c.srIn (response Q s c).pushAck
  guardRegistered := if c.srIn then c.guard else s.guardRegistered
  updateFsmState := (update Q s c).nextState
  caOutD := (update Q s c).caOutD

def reset : State S where
  queue := Q.reset s.queue (request s c)
  srInState := .idle
  guardRegistered := false
  updateFsmState := .run
  caOutD := false

def run (s : State S) (cs : List Cycle) : State S := cs.foldl (next Q) s

def times (signal : State S → Cycle → Bool) : State S → List Cycle → Nat
  | _, [] => 0
  | s, c :: cs => (signal s c).toNat + times signal (next Q s c) cs

end Interface

def guards (cs : List Cycle) : List Bool := (cs.filter Cycle.srIn).map Cycle.guard

def ones (gs : List Bool) (k : Nat) : Nat := (gs.take k).countP id

section Statement
variable {S : Type} (Q : Buffer S Bool) (s : State S)

/-- What the interface may rely on in the cycle `c` after the cycles `before`: no
request before the acknowledge of the last one, a guard that stays until the
acknowledge, and an operator that acknowledges what it was asked, an update not
in the cycle of the request. -/
structure Legal (before : List Cycle) (c : Cycle) : Prop where
  sample : c.srIn = true → (guards before).length ≤ times Q (saOut Q) s (before ++ [c])
  stable : times Q (saOut Q) s before < (guards before).length → (guards before).getLast? = some c.guard
  operatorSample : c.saIn = true → before.countP Cycle.saIn < times Q (srOut Q) s (before ++ [c])
  update : c.crIn = true → before.countP Cycle.crIn ≤ times Q (caOut Q) s (before ++ [c])
  operatorUpdate : c.caIn = true → before.countP Cycle.caIn < times Q (crOut Q) s before

theorem legal_iff {before : List Cycle} {c : Cycle} : Legal Q s before c ↔
    (c.srIn = true → (guards before).length ≤ times Q (saOut Q) s (before ++ [c])) ∧
    (times Q (saOut Q) s before < (guards before).length → (guards before).getLast? = some c.guard) ∧
    (c.saIn = true → before.countP Cycle.saIn < times Q (srOut Q) s (before ++ [c])) ∧
    (c.crIn = true → before.countP Cycle.crIn ≤ times Q (caOut Q) s (before ++ [c])) ∧
    (c.caIn = true → before.countP Cycle.caIn < times Q (crOut Q) s before) :=
  ⟨fun legal => ⟨legal.sample, legal.stable, legal.operatorSample, legal.update, legal.operatorUpdate⟩,
    fun ⟨sample, stable, operatorSample, update, operatorUpdate⟩ =>
      ⟨sample, stable, operatorSample, update, operatorUpdate⟩⟩

instance (before : List Cycle) (c : Cycle) : Decidable (Legal Q s before c) :=
  decidable_of_iff _ (legal_iff Q s).symm

def Obeys (cs : List Cycle) : Prop := Throughout (Legal Q s) cs

/-- No sample request comes while another one waits for room in the queue. -/
def Timely (before : List Cycle) (c : Cycle) : Prop := c.srIn = true → (run Q s before).srInState = .idle

instance (before : List Cycle) (c : Cycle) : Decidable (Timely Q s before c) :=
  inferInstanceAs (Decidable (c.srIn = true → (run Q s before).srInState = .idle))

/-- After the cycles `cs`, `m` sample requests and `p` update requests have got
through to the queue.  Those with guard 1, and no others, have got through to the
operator, and the acknowledges of those with guard 1 are the operator's. -/
structure InStep (cs : List Cycle) (m p : Nat) : Prop where
  sampleBegun : m ≤ (guards cs).length
  sampleAcked : times Q (saOut Q) s cs ≤ m
  sampleSingle : (guards cs).length ≤ times Q (saOut Q) s cs + 1
  sampleOpen : times Q (saOut Q) s cs < m → (guards cs)[times Q (saOut Q) s cs]? = some true
  sampleRequests : times Q (srOut Q) s cs = ones (guards cs) m
  sampleAcks : cs.countP Cycle.saIn = ones (guards cs) (times Q (saOut Q) s cs)
  updateBegun : p ≤ m ∧ p ≤ cs.countP Cycle.crIn
  updateAcked : times Q (caOut Q) s cs ≤ p
  updateSingle : cs.countP Cycle.crIn ≤ times Q (caOut Q) s cs + 1
  updateRequests : times Q (crOut Q) s cs = ones (guards cs) p
  updateAcks : cs.countP Cycle.caIn = ones (guards cs) (times Q (caOut Q) s cs)

/-- In the cycle `c` a sample request that is there gets through when the queue is
empty, and an update request when its guard is there. -/
structure Progress (cs : List Cycle) (m p : Nat) (c : Cycle) : Prop where
  sample : p = m → ∀ g, (guards (cs ++ [c]))[m]? = some g →
    (if g then srOut Q (run Q s cs) c else saOut Q (run Q s cs) c) = true
  update : p < (cs ++ [c]).countP Cycle.crIn → ∀ g, (guards (cs ++ [c]))[p]? = some g →
    if g then crOut Q (run Q s cs) c = true else ∀ d, caOut Q (run Q s (cs ++ [c])) d = true

end Statement

section Ones
variable {gs es : List Bool} {k : Nat}

theorem ones_append (inside : k ≤ gs.length) : ones (gs ++ es) k = ones gs k := by
  rw [ones, ones, List.take_append_of_le_length inside]

theorem ones_succ {g : Bool} (isGuard : gs[k]? = some g) : ones gs (k + 1) = ones gs k + g.toNat := by
  rw [ones, ones, List.take_add_one, List.countP_append, isGuard]
  cases g <;> rfl

end Ones

/-- The part of the sample requests: `gs` are their guards, `acks` and `sent` the
numbers of acknowledges and of requests to the operator, and `answers` of its
acknowledges. -/
structure SampleSide (gs : List Bool) (acks sent answers m : Nat) (state : SrInState) (registered : Bool) : Prop where
  begun : m ≤ gs.length
  acked : acks ≤ m
  single : gs.length ≤ acks + 1
  isOpen : acks < m → gs[acks]? = some true
  requests : sent = ones gs m
  answered : answers = ones gs acks
  state : match state with
    | .idle => m = gs.length
    | .waitOnPushAck => m + 1 = gs.length
  registered : registered = gs.getLast?.getD false

structure UpdateSide (gs : List Bool) (asked acks sent answers p : Nat) (state : UpdateFsmState) (caOutD : Bool) :
    Prop where
  begun : p ≤ gs.length
  requests : sent = ones gs p
  answered : answers = ones gs acks
  state : match state with
    | .run => p = asked ∧ if caOutD then acks + 1 = p ∧ gs[acks]? = some false else acks = p
    | .waitPop => p + 1 = asked ∧ acks = p ∧ caOutD = false
    | .waitCain => p = asked ∧ acks + 1 = p ∧ gs[acks]? = some true ∧ caOutD = false

section Sample
variable {gs : List Bool} {acks sent answers m : Nat} {state : SrInState} {registered : Bool}
variable {srIn saIn guard pushAck sustained sampled sr sa : Bool}

theorem ones_append_last (g : Bool) : ones (gs ++ [g]) (gs.length + 1) = ones gs gs.length + g.toNat := by
  rw [ones_succ (by simp : (gs ++ [g])[gs.length]? = some g), ones_append (Nat.le_refl _)]

theorem silent (operator : saIn = true → answers < sent + sr.toNat) (settled : answers = sent) (notAsked : sr = false) :
    saIn = false := by
  rw [← Bool.not_eq_true]
  intro answer
  have asked := operator answer
  rw [settled, notAsked] at asked
  exact Nat.lt_irrefl _ asked

theorem SampleSide.step_settled (side : SampleSide gs gs.length sent answers gs.length .idle registered)
    (sustained_eq : sustained = if srIn then guard else registered) (sampled_eq : sampled = (srIn && pushAck))
    (sr_eq : sr = if sustained then sampled else false) (sa_eq : sa = if sustained then saIn else sampled)
    (operator : saIn = true → answers < sent + sr.toNat) :
    SampleSide (gs ++ if srIn then [guard] else []) (gs.length + sa.toNat) (sent + sr.toNat) (answers + saIn.toNat)
      (gs.length + sampled.toNat) (nextSrInState .idle srIn pushAck) sustained := by
  have settled : answers = sent := side.answered.trans side.requests.symm
  have same : ∀ g, ones (gs ++ [g]) gs.length = ones gs gs.length := fun g => ones_append (Nat.le_refl _)
  cases srIn with
  | false =>
      obtain rfl : sampled = false := sampled_eq
      obtain rfl : sr = false := by rw [sr_eq, ite_self]
      obtain rfl : saIn = false := silent operator settled rfl
      obtain rfl : sa = false := by rw [sa_eq, ite_self]
      obtain rfl : sustained = registered := sustained_eq
      simp only [if_neg Bool.false_ne_true, List.append_nil, Bool.toNat_false, Nat.add_zero]
      exact side
  | true =>
      obtain ⟨begun, acked, single, isOpen, requests, answered, phase, register⟩ := side
      obtain rfl : sustained = guard := sustained_eq
      obtain rfl : sampled = pushAck := by rw [sampled_eq]; rfl
      cases sustained with
      | true =>
          obtain rfl : sr = sampled := sr_eq
          obtain rfl : sa = saIn := sa_eq
          cases sr with
          | true => cases sa <;> constructor <;> simp [nextSrInState, same, ones_append_last, requests, answered]
          | false =>
              obtain rfl : sa = false := silent operator settled rfl
              constructor <;> simp [nextSrInState, same, requests, answered]
      | false =>
          obtain rfl : sr = false := sr_eq
          obtain rfl : saIn = false := silent operator settled rfl
          obtain rfl : sa = sampled := sa_eq
          cases sa <;> constructor <;> simp [nextSrInState, same, ones_append_last, requests, answered]

theorem SampleSide.step_open (side : SampleSide gs acks sent answers gs.length .idle registered)
    (waits : acks < gs.length) (sustained_eq : sustained = if srIn then guard else registered)
    (sampled_eq : sampled = (srIn && pushAck)) (sr_eq : sr = if sustained then sampled else false)
    (sa_eq : sa = if sustained then saIn else sampled) (legal : srIn = true → gs.length ≤ acks + sa.toNat)
    (stable : gs.getLast? = some guard) :
    SampleSide (gs ++ if srIn then [guard] else []) (acks + sa.toNat) (sent + sr.toNat) (answers + saIn.toNat)
      (gs.length + sampled.toNat) (nextSrInState .idle srIn pushAck) sustained := by
  obtain ⟨begun, acked, single, isOpen, requests, answered, phase, register⟩ := side
  have length : gs.length = acks + 1 := by omega
  have same : ∀ g, ones (gs ++ [g]) gs.length = ones gs gs.length := fun g => ones_append (Nat.le_refl _)
  have more : ∀ g, ones (gs ++ [g]) (gs.length + 1) = ones gs gs.length + g.toNat := ones_append_last
  rw [length] at same more
  have isLast : gs.getLast? = some true := by
    rw [List.getLast?_eq_getElem?, length, Nat.add_sub_cancel]
    exact isOpen waits
  obtain rfl : guard = true := Option.some.inj (stable.symm.trans isLast)
  obtain rfl : registered = true := by rw [register, isLast]; rfl
  obtain rfl : sustained = true := by rw [sustained_eq, ite_self]
  obtain rfl : sa = saIn := sa_eq
  obtain rfl : sr = sampled := sr_eq
  have next : ones gs (acks + 1) = ones gs acks + 1 := ones_succ (isOpen waits)
  obtain ⟨_, atEnd⟩ := List.getElem?_eq_some_iff.mp (isOpen waits)
  cases srIn with
  | false =>
      obtain rfl : sr = false := sampled_eq
      cases sa <;> constructor <;> simp [nextSrInState, length, next, requests, answered, atEnd, isLast]
  | true =>
      obtain rfl : sr = pushAck := by rw [sampled_eq]; rfl
      obtain rfl : sa = true := by
        rw [← Bool.not_eq_false]
        intro none
        have late := legal rfl
        rw [none, length] at late
        exact absurd late (by simp)
      cases sr <;> constructor <;> simp [nextSrInState, length, next, same, more, requests, answered]

/-- The last sample request waits for room in the queue, and no other one comes. -/
theorem SampleSide.step_waitOnPushAck (side : SampleSide gs acks sent answers m .waitOnPushAck sustained)
    (sr_eq : sr = if sustained then pushAck else false) (sa_eq : sa = if sustained then saIn else pushAck)
    (stable : acks < gs.length → gs.getLast? = some guard) (operator : saIn = true → answers < sent + sr.toNat) :
    SampleSide gs (acks + sa.toNat) (sent + sr.toNat) (answers + saIn.toNat) (m + pushAck.toNat)
      (nextSrInState .waitOnPushAck false pushAck) sustained := by
  have length : m + 1 = gs.length := side.state
  obtain rfl : acks = m := Nat.le_antisymm side.acked (by have single := side.single; omega)
  have settled : answers = sent := side.answered.trans side.requests.symm
  cases pushAck with
  | false =>
      obtain rfl : sr = false := by rw [sr_eq, ite_self]
      obtain rfl : saIn = false := silent operator settled rfl
      obtain rfl : sa = false := by rw [sa_eq, ite_self]
      exact side
  | true =>
      obtain ⟨begun, acked, single, isOpen, requests, answered, phase, register⟩ := side
      have isLast : gs.getLast? = some guard := stable (by omega)
      have atEnd : gs[acks]? = some guard := by
        rw [← isLast, List.getLast?_eq_getElem?, ← length, Nat.add_sub_cancel]
      have next := ones_succ atEnd
      obtain rfl : sustained = guard := by rw [register, isLast]; rfl
      cases sustained with
      | true =>
          obtain rfl : sr = true := sr_eq
          obtain rfl : sa = saIn := sa_eq
          obtain ⟨_, bit⟩ := List.getElem?_eq_some_iff.mp atEnd
          cases sa <;> constructor <;> simp [nextSrInState, ← length, next, requests, answered, bit, isLast]
      | false =>
          obtain rfl : sr = false := sr_eq
          obtain rfl : saIn = false := silent operator settled rfl
          obtain rfl : sa = true := sa_eq
          constructor <;> simp [nextSrInState, ← length, next, requests, answered, isLast]

theorem SampleSide.step (side : SampleSide gs acks sent answers m state registered)
    (sustained_eq : sustained = if srIn then guard else registered) (sampled_eq : sampled = srInQ state srIn pushAck)
    (sr_eq : sr = if sustained then sampled else false) (sa_eq : sa = if sustained then saIn else sampled)
    (legal : srIn = true → gs.length ≤ acks + sa.toNat)
    (stable : acks < gs.length → gs.getLast? = some guard)
    (operator : saIn = true → answers < sent + sr.toNat)
    (timely : srIn = true → state = .idle) :
    SampleSide (gs ++ if srIn then [guard] else []) (acks + sa.toNat) (sent + sr.toNat) (answers + saIn.toNat)
      (m + sampled.toNat) (nextSrInState state srIn pushAck) sustained := by
  cases state with
  | idle =>
      obtain rfl : m = gs.length := side.state
      rcases Nat.eq_or_lt_of_le side.acked with rfl | waits
      · exact side.step_settled sustained_eq sampled_eq sr_eq sa_eq operator
      · exact side.step_open waits sustained_eq sampled_eq sr_eq sa_eq legal (stable waits)
  | waitOnPushAck =>
      obtain rfl : srIn = false := by
        rw [← Bool.not_eq_true]
        intro request
        exact SrInState.noConfusion (timely request)
      obtain rfl : sustained = registered := sustained_eq
      obtain rfl : sampled = pushAck := sampled_eq
      rw [if_neg Bool.false_ne_true, List.append_nil]
      exact side.step_waitOnPushAck sr_eq sa_eq stable operator

end Sample

section Update
variable {gs : List Bool} {asked acks sent answers p : Nat} {state : UpdateFsmState} {caOutD : Bool}

theorem UpdateSide.append (side : UpdateSide gs asked acks sent answers p state caOutD) (es : List Bool) :
    UpdateSide (gs ++ es) asked acks sent answers p state caOutD := by
  obtain ⟨begun, requests, answered, phase⟩ := side
  have short : acks ≤ p := by
    cases state with
    | run =>
        obtain ⟨-, phase⟩ := phase
        cases caOutD with
        | true => exact Nat.le_of_lt (Nat.lt_of_succ_le (Nat.le_of_eq phase.1))
        | false => exact Nat.le_of_eq phase
    | waitPop => exact Nat.le_of_eq phase.2.1
    | waitCain => exact Nat.le_of_lt (Nat.lt_of_succ_le (Nat.le_of_eq phase.2.1))
  have keep : acks + 1 = p → (gs ++ es)[acks]? = gs[acks]? := fun next => List.getElem?_append_left (by omega)
  refine ⟨?_, ?_, ?_, ?_⟩
  · rw [List.length_append]
    omega
  · rw [ones_append begun, requests]
  · rw [ones_append (short.trans begun), answered]
  · cases state with
    | run =>
        refine ⟨phase.1, ?_⟩
        cases caOutD with
        | true => exact ⟨phase.2.1, (keep phase.2.1).trans phase.2.2⟩
        | false => exact phase.2
    | waitPop => exact phase
    | waitCain => exact ⟨phase.1, phase.2.1, (keep phase.2.1).trans phase.2.2.1, phase.2.2.2⟩

theorem UpdateSide.onPop (begun : p ≤ gs.length) {popAck popData : Bool}
    (popped : popAck = true → gs[p]? = some popData) (caOutU : Bool) :
    UpdateSide gs (p + 1) p (ones gs p + (onPop caOutU popAck popData).crOut.toNat) (ones gs p) (p + popAck.toNat)
      (onPop caOutU popAck popData).nextState (onPop caOutU popAck popData).caOutD := by
  cases popAck with
  | false => exact ⟨begun, rfl, rfl, rfl, rfl, rfl⟩
  | true =>
      have isGuard := popped rfl
      obtain ⟨inside, -⟩ := List.getElem?_eq_some_iff.mp isGuard
      cases popData with
      | true => exact ⟨inside, (ones_succ isGuard).symm, rfl, rfl, rfl, isGuard, rfl⟩
      | false => exact ⟨inside, (ones_succ isGuard).symm, rfl, rfl, rfl, isGuard⟩

theorem UpdateSide.step (side : UpdateSide gs asked acks sent answers p state caOutD)
    {crIn caIn popAck popData ca : Bool} (ca_eq : ca = (caOutD || (updateFsm state crIn caIn popAck popData).caOutU))
    (popped : popReq state crIn caIn = true → popAck = true → gs[p]? = some popData)
    (legal : crIn = true → asked ≤ acks + ca.toNat) (operator : caIn = true → answers < sent) :
    UpdateSide gs (asked + crIn.toNat) (acks + ca.toNat)
      (sent + (updateFsm state crIn caIn popAck popData).crOut.toNat) (answers + caIn.toNat)
      (p + (popReq state crIn caIn && popAck).toNat) (updateFsm state crIn caIn popAck popData).nextState
      (updateFsm state crIn caIn popAck popData).caOutD := by
  obtain ⟨begun, rfl, rfl, phase⟩ := side
  have silent : ones gs acks = ones gs p → caIn = false := by
    intro settled
    rw [← Bool.not_eq_true]
    intro answer
    exact absurd (operator answer) (by rw [settled]; exact Nat.lt_irrefl _)
  cases state with
  | run =>
      obtain ⟨rfl, phase⟩ := phase
      have settled : ones gs acks = ones gs p := by
        cases caOutD with
        | true =>
            obtain ⟨rfl, isGuard⟩ := phase
            exact (ones_succ isGuard).symm
        | false => rw [show acks = p from phase]
      obtain rfl : caIn = false := silent settled
      have quiet : (updateFsm .run crIn false popAck popData).caOutU = false := by
        cases crIn <;> cases popAck <;> cases popData <;> rfl
      have done : acks + ca.toNat = p := by
        rw [ca_eq, quiet, Bool.or_false]
        cases caOutD with
        | true => exact phase.1
        | false => exact phase
      rw [done, settled]
      cases crIn with
      | false => exact ⟨begun, rfl, rfl, rfl, rfl⟩
      | true => exact UpdateSide.onPop begun (popped rfl) false
  | waitPop =>
      obtain ⟨rfl, rfl, rfl⟩ := phase
      obtain rfl : caIn = false := silent rfl
      have quiet : (updateFsm .waitPop crIn false popAck popData).caOutU = false := by
        cases popAck <;> cases popData <;> rfl
      obtain rfl : ca = false := by rw [ca_eq, quiet, Bool.or_false]
      obtain rfl : crIn = false := by
        rw [← Bool.not_eq_true]
        intro request
        exact Nat.not_succ_le_self _ (legal request)
      exact UpdateSide.onPop begun (popped rfl) false
  | waitCain =>
      obtain ⟨rfl, rfl, isGuard, rfl⟩ := phase
      cases caIn with
      | false =>
          obtain rfl : ca = false := ca_eq
          obtain rfl : crIn = false := by
            rw [← Bool.not_eq_true]
            intro request
            exact Nat.not_succ_le_self _ (legal request)
          exact ⟨begun, rfl, rfl, rfl, rfl, isGuard, rfl⟩
      | true =>
          have answered : ones gs acks + 1 = ones gs (acks + 1) := (ones_succ isGuard).symm
          cases crIn with
          | false =>
              obtain rfl : ca = true := ca_eq
              exact ⟨begun, rfl, answered, rfl, rfl⟩
          | true =>
              obtain rfl : ca = true := by
                rw [ca_eq]
                cases popAck <;> cases popData <;> rfl
              rw [Bool.toNat_true, answered]
              exact UpdateSide.onPop begun (popped rfl) true

end Update

section Run
variable {S : Type} {Q : Buffer S Bool} {depth : Nat} {holds : S → List Bool → Prop} {s : State S}

theorem run_snoc (cs : List Cycle) (c : Cycle) : run Q s (cs ++ [c]) = next Q (run Q s cs) c := List.foldl_append ..

theorem times_snoc (signal : State S → Cycle → Bool) (cs : List Cycle) (c : Cycle) :
    times Q signal s (cs ++ [c]) = times Q signal s cs + (signal (run Q s cs) c).toNat := by
  induction cs generalizing s with
  | nil => exact Nat.add_comm _ _
  | cons d cs ih =>
      rw [List.cons_append, times, ih, times, Nat.add_assoc]
      rfl

theorem guards_snoc (cs : List Cycle) (c : Cycle) :
    guards (cs ++ [c]) = guards cs ++ if c.srIn then [c.guard] else [] := by
  rw [guards, List.filter_append, List.map_append]
  cases isReq : c.srIn <;> simp [guards, isReq]

theorem countP_snoc (signal : Cycle → Bool) (cs : List Cycle) (c : Cycle) :
    (cs ++ [c]).countP signal = cs.countP signal + (signal c).toNat := by
  rw [List.countP_append, List.countP_singleton]
  cases signal c <;> rfl

structure Follows (Q : Buffer S Bool) (holds : S → List Bool → Prop) (s : State S) (cs : List Cycle) (m p : Nat) :
    Prop where
  queue : holds (run Q s cs).queue (((guards cs).take m).drop p)
  behind : p ≤ m
  samples : SampleSide (guards cs) (times Q (saOut Q) s cs) (times Q (srOut Q) s cs) (cs.countP Cycle.saIn) m
    (run Q s cs).srInState (run Q s cs).guardRegistered
  updates : UpdateSide (guards cs) (cs.countP Cycle.crIn) (times Q (caOut Q) s cs) (times Q (crOut Q) s cs)
    (cs.countP Cycle.caIn) p (run Q s cs).updateFsmState (run Q s cs).caOutD

theorem Follows.inStep {cs : List Cycle} {m p : Nat} (follows : Follows Q holds s cs m p) : InStep Q s cs m p := by
  obtain ⟨-, behind, sample, update⟩ := follows
  obtain ⟨begun, requests, answered, phase⟩ := update
  have phases : p ≤ cs.countP Cycle.crIn ∧ times Q (caOut Q) s cs ≤ p ∧
      cs.countP Cycle.crIn ≤ times Q (caOut Q) s cs + 1 := by
    cases state : (run Q s cs).updateFsmState with
    | run =>
        rw [state] at phase
        obtain ⟨all, acks⟩ := phase
        split_ifs at acks <;> omega
    | waitPop =>
        rw [state] at phase
        obtain ⟨next, acks, -⟩ := phase
        omega
    | waitCain =>
        rw [state] at phase
        obtain ⟨all, acks, -⟩ := phase
        omega
  exact ⟨sample.begun, sample.acked, sample.single, sample.isOpen, sample.requests, sample.answered,
    ⟨behind, phases.1⟩, phases.2.1, phases.2.2, requests, answered⟩

section Step
variable {cs : List Cycle} {m p : Nat} {c : Cycle} (follows : Follows Q holds s cs m p) (legal : Legal Q s cs c)
include follows legal

/-- The guard that goes into the queue is the one of the request that gets through. -/
theorem Follows.guard (asks : pushReq (run Q s cs).srInState c.srIn = true) :
    (guards (cs ++ [c]))[m]? = some c.guard := by
  obtain ⟨begun, acked, single, isOpen, requests, answered, phase, registered⟩ := follows.samples
  rw [guards_snoc]
  cases state : (run Q s cs).srInState with
  | idle =>
      rw [state] at phase asks
      have isReq : c.srIn = true := asks
      have all : m = (guards cs).length := phase
      rw [isReq, all]
      simp
  | waitOnPushAck =>
      rw [state] at phase
      have length : m + 1 = (guards cs).length := phase
      have isLast := legal.stable (by omega)
      rw [List.getElem?_append_left (by omega), ← isLast, List.getLast?_eq_getElem?, ← length, Nat.add_sub_cancel]

theorem Follows.pushed : (guards (cs ++ [c])).take (m + (sampled Q (run Q s cs) c).toNat) =
    (guards cs).take m ++ (Q.pushed (run Q s cs).queue (request (run Q s cs) c)).toList := by
  have through : sampled Q (run Q s cs) c =
      (pushReq (run Q s cs).srInState c.srIn && (response Q (run Q s cs) c).pushAck) := by
    unfold sampled
    cases (run Q s cs).srInState <;> rfl
  have before : (guards (cs ++ [c])).take m = (guards cs).take m := by
    rw [guards_snoc, List.take_append_of_le_length follows.samples.begun]
  change _ = _ ++ (if pushReq (run Q s cs).srInState c.srIn && (response Q (run Q s cs) c).pushAck then
    some c.guard else none).toList
  rw [through]
  cases asks : pushReq (run Q s cs).srInState c.srIn with
  | false => simpa using before
  | true =>
      have isGuard := follows.guard legal asks
      cases (response Q (run Q s cs) c).pushAck with
      | false => simpa using before
      | true =>
          simp only [Bool.true_and, Bool.toNat_true, if_true, Option.toList_some]
          rw [List.take_add_one, before, isGuard]
          rfl

theorem Follows.popped (fifo : Q.Fifo depth holds) :
    holds (next Q (run Q s cs) c).queue
      (((guards (cs ++ [c])).take (m + (sampled Q (run Q s cs) c).toNat)).drop
        (p + (popReq (run Q s cs).updateFsmState c.crIn c.caIn && (response Q (run Q s cs) c).popAck).toNat)) ∧
    ((popReq (run Q s cs).updateFsmState c.crIn c.caIn && (response Q (run Q s cs) c).popAck) = true →
      (guards (cs ++ [c]))[p]? = some (response Q (run Q s cs) c).dataOut ∧
        p < m + (sampled Q (run Q s cs) c).toNat) := by
  obtain ⟨q', held, law⟩ := fifo.step (run Q s cs).queue (request (run Q s cs) c) _ follows.queue
  have all : (((guards cs).take m).drop p) ++ (Q.pushed (run Q s cs).queue (request (run Q s cs) c)).toList =
      ((guards (cs ++ [c])).take (m + (sampled Q (run Q s cs) c).toNat)).drop p := by
    rw [follows.pushed legal, List.drop_append_of_le_length]
    rw [List.length_take, Nat.min_eq_left follows.samples.begun]
    exact follows.behind
  rw [all] at law
  have popped : Q.popped (run Q s cs).queue (request (run Q s cs) c) =
      if popReq (run Q s cs).updateFsmState c.crIn c.caIn && (response Q (run Q s cs) c).popAck then
        some (response Q (run Q s cs) c).dataOut
      else none := rfl
  rw [popped] at law
  cases goes : popReq (run Q s cs).updateFsmState c.crIn c.caIn && (response Q (run Q s cs) c).popAck with
  | false =>
      rw [goes] at law
      refine ⟨?_, fun yes => absurd yes Bool.false_ne_true⟩
      rw [Bool.toNat_false, Nat.add_zero p, law]
      exact held
  | true =>
      rw [goes, if_pos rfl, Option.toList_some, List.singleton_append] at law
      have inside : p < ((guards (cs ++ [c])).take (m + (sampled Q (run Q s cs) c).toNat)).length := by
        rw [← Nat.not_le]
        intro none
        rw [List.drop_eq_nil_of_le none] at law
        exact absurd law.symm (List.cons_ne_nil _ _)
      rw [List.drop_eq_getElem_cons inside] at law
      obtain ⟨front, rest⟩ := List.cons.inj law
      refine ⟨?_, fun _ => ⟨?_, ?_⟩⟩
      · rw [Bool.toNat_true, rest]
        exact held
      · rw [← front, List.getElem_take, List.getElem?_eq_getElem]
      · exact lt_of_lt_of_le inside (List.length_take_le _ _)

theorem Follows.next (fifo : Q.Fifo depth holds) (timely : Timely Q s cs c) :
    Follows Q holds s (cs ++ [c]) (m + (sampled Q (run Q s cs) c).toNat)
      (p + (popReq (run Q s cs).updateFsmState c.crIn c.caIn && (response Q (run Q s cs) c).popAck).toNat) := by
  obtain ⟨queue, front⟩ := follows.popped legal fifo
  refine ⟨?_, ?_, ?_, ?_⟩
  · rw [run_snoc]
    exact queue
  · have behind := follows.behind
    cases goes : popReq (run Q s cs).updateFsmState c.crIn c.caIn && (response Q (run Q s cs) c).popAck with
    | false => exact behind.trans (Nat.le_add_right _ _)
    | true => exact (front goes).2
  · have sampleLegal := legal.sample
    have operator := legal.operatorSample
    rw [times_snoc] at sampleLegal operator
    rw [run_snoc, times_snoc, times_snoc, countP_snoc, guards_snoc]
    exact follows.samples.step rfl rfl rfl rfl sampleLegal legal.stable operator timely
  · have updateLegal := legal.update
    rw [times_snoc] at updateLegal
    rw [run_snoc, times_snoc, times_snoc, countP_snoc, countP_snoc, guards_snoc]
    apply (follows.updates.append _).step rfl _ updateLegal legal.operatorUpdate
    intro asks offers
    rw [← guards_snoc]
    exact (front (by rw [asks, offers]; rfl)).1

/-- A sample request that has not got through asks the queue with its guard. -/
theorem Follows.waiting {g : Bool} (isGuard : (guards (cs ++ [c]))[m]? = some g) :
    pushReq (run Q s cs).srInState c.srIn = true ∧ guardInterfaceSustained (run Q s cs) c = g := by
  obtain ⟨begun, acked, single, isOpen, requests, answered, phase, registered⟩ := follows.samples
  have asks : pushReq (run Q s cs).srInState c.srIn = true := by
    cases state : (run Q s cs).srInState with
    | idle =>
        rw [state] at phase
        have all : m = (guards cs).length := phase
        obtain ⟨inside, -⟩ := List.getElem?_eq_some_iff.mp isGuard
        change c.srIn = true
        rw [← Bool.not_eq_false]
        intro none
        rw [guards_snoc, none, all] at inside
        simp at inside
    | waitOnPushAck => rfl
  obtain rfl : c.guard = g := Option.some.inj ((follows.guard legal asks).symm.trans isGuard)
  refine ⟨asks, ?_⟩
  unfold guardInterfaceSustained
  split_ifs with isReq
  · rfl
  · cases state : (run Q s cs).srInState with
    | idle =>
        rw [state] at asks
        exact absurd asks isReq
    | waitOnPushAck =>
        rw [state] at phase
        have length : m + 1 = (guards cs).length := phase
        rw [registered, legal.stable (by omega)]
        rfl

theorem Follows.asks (isOpen : p < (cs ++ [c]).countP Cycle.crIn) :
    popReq (run Q s cs).updateFsmState c.crIn c.caIn = true := by
  obtain ⟨-, -, -, phase⟩ := follows.updates
  have legalUpdate := legal.update
  rw [times_snoc] at legalUpdate
  rw [countP_snoc] at isOpen
  cases state : (run Q s cs).updateFsmState with
  | run =>
      rw [state] at phase
      obtain ⟨all, -⟩ := phase
      change c.crIn = true
      cases isReq : c.crIn with
      | true => rfl
      | false => simp [isReq, all] at isOpen
  | waitPop => rfl
  | waitCain =>
      rw [state] at phase
      obtain ⟨all, acks, -, none⟩ := phase
      change (c.caIn && c.crIn) = true
      cases isReq : c.crIn with
      | false => simp [isReq, all] at isOpen
      | true =>
          have acked := legalUpdate isReq
          cases isAck : c.caIn with
          | true => rfl
          | false =>
              have quiet : caOut Q (run Q s cs) c = false := by
                simp [caOut, update, state, none, updateFsm, isAck]
              rw [quiet, Bool.toNat_false] at acked
              omega

theorem Follows.progress (fifo : Q.Fifo depth holds) (offers : Q.Offers holds) : Progress Q s cs m p c := by
  obtain ⟨-, front⟩ := follows.popped legal fifo
  refine ⟨?_, ?_⟩
  · rintro rfl g isGuard
    obtain ⟨asks, sustained⟩ := follows.waiting legal isGuard
    have queue := follows.queue
    rw [List.drop_eq_nil_of_le (List.length_take_le _ _)] at queue
    have room := offers.room (run Q s cs).queue (request (run Q s cs) c) queue
    have through : sampled Q (run Q s cs) c = true := by
      unfold sampled response
      rw [room]
      cases state : (run Q s cs).srInState with
      | idle =>
          rw [state] at asks
          exact (Bool.and_true _).trans asks
      | waitOnPushAck => rfl
    unfold srOut saOut
    rw [sustained, through]
    cases g <;> rfl
  · intro isOpen g isGuard
    have asks := follows.asks legal isOpen
    have offered : (response Q (run Q s cs) c).popAck = true := by
      apply (offers.popAck (run Q s cs).queue (request (run Q s cs) c) _ follows.queue).mpr
      rcases Nat.lt_or_eq_of_le follows.behind with before | rfl
      · left
        intro none
        have length := congrArg List.length none
        rw [List.length_drop, List.length_take, Nat.min_eq_left follows.samples.begun, List.length_nil] at length
        omega
      · exact Or.inr (follows.waiting legal isGuard).1
    obtain ⟨isFront, -⟩ := front (by rw [asks, offered]; rfl)
    obtain rfl : (response Q (run Q s cs) c).dataOut = g := Option.some.inj (isFront.symm.trans isGuard)
    have outputs : (update Q (run Q s cs) c).crOut = (response Q (run Q s cs) c).dataOut ∧
        (update Q (run Q s cs) c).caOutD = !(response Q (run Q s cs) c).dataOut := by
      unfold update
      rw [offered]
      cases state : (run Q s cs).updateFsmState <;> rw [state] at asks <;>
        simp [popReq] at asks <;> cases (response Q (run Q s cs) c).dataOut <;> simp [updateFsm, onPop, asks]
    cases isOne : (response Q (run Q s cs) c).dataOut with
    | true =>
        rw [isOne] at outputs
        exact outputs.1
    | false =>
        rw [isOne] at outputs
        intro d
        have owed : (run Q s (cs ++ [c])).caOutD = true := by
          rw [run_snoc]
          exact outputs.2
        rw [caOut, owed, Bool.true_or]

end Step

theorem follows_reset (fifo : Q.Fifo depth holds) (s : State S) (c : Cycle) : Follows Q holds (reset Q s c) [] 0 0 :=
  ⟨fifo.reset s.queue (request s c), Nat.le_refl 0,
    ⟨Nat.le_refl 0, Nat.le_refl 0, Nat.zero_le 1, fun none => absurd none (Nat.lt_irrefl 0), rfl, rfl, rfl, rfl⟩,
    ⟨Nat.le_refl 0, rfl, rfl, rfl, rfl⟩⟩

theorem follows_run (fifo : Q.Fifo depth holds) (s : State S) (c : Cycle) (cs : List Cycle)
    (obeys : Obeys Q (reset Q s c) cs) (timely : Throughout (Timely Q (reset Q s c)) cs) :
    ∃ m p, Follows Q holds (reset Q s c) cs m p := by
  induction cs using List.reverseRecOn with
  | nil => exact ⟨0, 0, follows_reset fifo s c⟩
  | append_singleton cs d ih =>
      obtain ⟨before, legal⟩ := throughout_snoc_iff.mp obeys
      obtain ⟨timelyBefore, timelyNow⟩ := throughout_snoc_iff.mp timely
      obtain ⟨m, p, follows⟩ := ih before timelyBefore
      exact ⟨_, _, follows.next legal fifo timelyNow⟩

end Run

abbrev GuardQueueState (buffering : Nat) : Type :=
  Buffer.Row (SingleBitState (stageDepth buffering (ceil buffering 16))) (ceil buffering 16 - 1)

/-- The queue of the guards; a stage has 16 of them at most. -/
def guardQueue (buffering : Nat) : Buffer (GuardQueueState buffering) Bool :=
  shiftRegisterSingleBitQueue buffering (ceil buffering 16) true

/-- In every run in which no sample request comes together with the acknowledge of
one that has waited for room, the operator and the control path stay in step. -/
theorem splitGuardInterfaceBase_in_step {buffering : Nat} (pos : 1 ≤ buffering) (s : State (GuardQueueState buffering))
    (c : Cycle) (cs : List Cycle) (obeys : Obeys (guardQueue buffering) (reset (guardQueue buffering) s c) cs)
    (timely : Throughout (Timely (guardQueue buffering) (reset (guardQueue buffering) s c)) cs) :
    ∃ m p, InStep (guardQueue buffering) (reset (guardQueue buffering) s c) cs m p ∧
      ∀ d, Legal (guardQueue buffering) (reset (guardQueue buffering) s c) cs d →
        Progress (guardQueue buffering) (reset (guardQueue buffering) s c) cs m p d := by
  have depth : 0 < stageDepth buffering (ceil buffering 16) := ceil_pos pos
  have fifo := Buffer.row_fifo (singleBitQueueBase_forward depth) (@singleBitQueueBase_fifo _ true depth)
    (ceil buffering 16 - 1)
  have offers := Buffer.row_offers (singleBitQueueBase_offers depth) (ceil buffering 16 - 1)
  obtain ⟨m, p, follows⟩ := follows_run fifo s c cs obeys timely
  exact ⟨m, p, follows.inStep, fun d legal => follows.progress legal fifo offers⟩

def quiet : Cycle := ⟨false, false, false, false, false⟩

def sampleRequest (guard : Bool) : Cycle := ⟨true, false, false, false, guard⟩

def updateRequest : Cycle := ⟨false, false, true, false, false⟩

/-- The registers before the reset, with a queue of one bit. -/
def powerUp : State (GuardQueueState 1) :=
  ⟨(⟨0#1, 0#1, 0#1, 0⟩ : SingleBitState 1), .idle, false, .run, false⟩

/-- The second sample request waits for the update that makes room. -/
def waiting : List Cycle := [sampleRequest false, sampleRequest false, updateRequest]

/-- The third sample request comes with the acknowledge of the second. -/
def overtaking : List Cycle := waiting ++ [sampleRequest false, updateRequest, quiet]

theorem splitGuardInterfaceBase_in_step_waiting :
    ∃ m p, InStep (guardQueue 1) (reset (guardQueue 1) powerUp quiet) waiting m p ∧
      ∀ d, Legal (guardQueue 1) (reset (guardQueue 1) powerUp quiet) waiting d →
        Progress (guardQueue 1) (reset (guardQueue 1) powerUp quiet) waiting m p d :=
  splitGuardInterfaceBase_in_step (Nat.le_refl 1) powerUp quiet _ (by unfold Obeys; decide) (by decide)

/-- The request that comes with the acknowledge of one that has waited is lost. -/
theorem splitGuardInterfaceBase_not_in_step :
    Obeys (guardQueue 1) (reset (guardQueue 1) powerUp quiet) overtaking ∧
    ¬ ∃ m p, InStep (guardQueue 1) (reset (guardQueue 1) powerUp quiet) overtaking m p ∧
      ∀ d, Legal (guardQueue 1) (reset (guardQueue 1) powerUp quiet) overtaking d →
        Progress (guardQueue 1) (reset (guardQueue 1) powerUp quiet) overtaking m p d := by
  refine ⟨by unfold Obeys; decide, ?_⟩
  rintro ⟨m, p, inStep, progress⟩
  obtain ⟨sampleBegun, sampleAcked, -, sampleOpen, -, -, ⟨updateBehind, -⟩, updateAcked, -⟩ := inStep
  change m ≤ 3 at sampleBegun
  change 2 ≤ m at sampleAcked
  change 2 < m → some false = some true at sampleOpen
  change 2 ≤ p at updateAcked
  obtain rfl : m = 2 := by
    apply Nat.le_antisymm _ sampleAcked
    rw [← Nat.not_lt]
    intro more
    exact absurd (sampleOpen more) (by decide)
  obtain rfl : p = 2 := Nat.le_antisymm updateBehind updateAcked
  exact absurd ((progress quiet (by decide)).sample rfl false rfl) (by decide)

end Ahir.Hardware.SplitGuardInterface
