import Ahir.Hardware.NobodyLeftBehind
import Ahir.Hardware.QueueBase

/-!
# The arbiter of split calls

`SplitCallArbiter` connects the callers of a module to it.  It takes the call of
one of the requesters that `NobodyLeftBehind` lets through into a register and
offers it to the callee, and it puts a return into the register of the requester
that the tag names.
-/

set_option autoImplicit false

namespace Ahir.Hardware

/-- The inputs of a cycle: requests, data and tags of the callers, the acknowledge
of the callee, the requests for returns, and what the callee returns. -/
structure CallCycle (n dataWidth returnWidth callerTag calleeTag : Nat) where
  callReqs : Fin n → Bool
  callData : Fin n → BitVec dataWidth
  callTag : Fin n → BitVec callerTag
  callMack : Bool
  returnReqs : Fin n → Bool
  returnMack : Bool
  returnMdata : BitVec returnWidth
  returnMtag : BitVec (calleeTag + callerTag)

structure CallOutputs (n dataWidth returnWidth callerTag calleeTag : Nat) where
  callAcks : Fin n → Bool
  callMreq : Bool
  callMdata : BitVec dataWidth
  callMtag : BitVec (calleeTag + callerTag)
  returnAcks : Fin n → Bool
  returnData : Fin n → BitVec returnWidth
  returnTag : Fin n → BitVec callerTag
  returnMreq : Bool

/-- The half of the tag that names the requester. -/
def calleeTagOf {callerTag calleeTag : Nat} (mtag : BitVec (calleeTag + callerTag)) : BitVec calleeTag :=
  mtag.extractLsb' callerTag calleeTag

/-- The half of the tag that the requester supplied. -/
def callerTagOf {callerTag calleeTag : Nat} (mtag : BitVec (calleeTag + callerTag)) : BitVec callerTag :=
  mtag.extractLsb' 0 callerTag

inductive CallStateType where
  | idle | busy
  deriving DecidableEq

structure ArbiterState (n dataWidth returnWidth callerTag calleeTag : Nat) where
  reqInRegister : Fin n → Bool
  callState : CallStateType
  callMdata : BitVec dataWidth
  calleeMtagReg : BitVec calleeTag
  callerMtagReg : BitVec callerTag
  returnState : Fin n → CallStateType
  dataReg : Fin n → BitVec returnWidth
  tagReg : Fin n → BitVec callerTag

section Encoders
variable {n : Nat}

/-- The one with the highest index of the bits that are set. -/
def priorityEncode (x : Fin n → Bool) : Fin n → Bool := fun i =>
  decide ((List.finRange n).reverse.find? x = some i)

/-- The index of the lowest bit that is set, on as many bits as it needs and the
output has. -/
def binaryEncoder {owidth : Nat} (din : Fin n → Bool) : BitVec owidth :=
  let ivar := ((List.finRange n).find? din).elim 0 Fin.val
  let awidth := min (max (ceilLog2 n) 1) owidth
  BitVec.ofNat owidth (ivar % 2 ^ awidth)

/-- The loops that select a word of the input: the last bit that is set decides. -/
def selectWord {w : Nat} (order : List (Fin n)) (enable : Fin n → Bool) (words : Fin n → BitVec w) :
    BitVec w :=
  order.foldl (fun out i => if enable i then words i else out) 0

end Encoders

variable {n dataWidth returnWidth callerTag calleeTag : Nat}

namespace ArbiterState
variable (s : ArbiterState n dataWidth returnWidth callerTag calleeTag)
  (c : CallCycle n dataWidth returnWidth callerTag calleeTag)

def fairCallReqs : Fin n → Bool := NobodyLeftBehind.reqOut s.reqInRegister c.callReqs

def peCallReqs : Fin n → Bool := priorityEncode (s.fairCallReqs c)

def thereIsACall : Bool := decide (∃ i, s.peCallReqs c i = true)

def latchCallData : Bool :=
  match s.callState with
  | .idle => s.thereIsACall c
  | .busy => c.callMack && s.thereIsACall c

def fairCallAcks (i : Fin n) : Bool := s.peCallReqs c i && s.latchCallData c

def nextReqInRegister : Fin n → Bool :=
  NobodyLeftBehind.nextRegister s.reqInRegister c.callReqs (s.fairCallAcks c)

def nextCallState : CallStateType :=
  match s.callState with
  | .idle => if s.thereIsACall c then .busy else .idle
  | .busy => if c.callMack then if s.thereIsACall c then .busy else .idle else .busy

def validFlag (i : Fin n) : Bool := c.returnMack && decide (i.val = (calleeTagOf c.returnMtag).toNat)

def latchReturn (i : Fin n) : Bool :=
  match s.returnState i with
  | .idle => validFlag c i
  | .busy => validFlag c i && c.returnReqs i

def nextReturnState (i : Fin n) : CallStateType :=
  match s.returnState i with
  | .idle => if validFlag c i then .busy else .idle
  | .busy =>
      if validFlag c i && c.returnReqs i then .busy
      else if c.returnReqs i then .idle
      else .busy

def nextCallMdata : BitVec dataWidth :=
  if s.latchCallData c then selectWord (List.finRange n).reverse (s.peCallReqs c) c.callData
  else s.callMdata

def nextCalleeMtagReg : BitVec calleeTag :=
  if s.latchCallData c then binaryEncoder (s.peCallReqs c) else s.calleeMtagReg

def nextCallerMtagReg : BitVec callerTag :=
  if s.latchCallData c then selectWord (List.finRange n) (s.peCallReqs c) c.callTag
  else s.callerMtagReg

end ArbiterState

structure CallArbiter (S : Type) (n dataWidth returnWidth callerTag calleeTag : Nat) where
  reset : S → CallCycle n dataWidth returnWidth callerTag calleeTag → S
  respond : S → CallCycle n dataWidth returnWidth callerTag calleeTag →
    CallOutputs n dataWidth returnWidth callerTag calleeTag
  next : S → CallCycle n dataWidth returnWidth callerTag calleeTag → S

def singleRequester : CallArbiter (ArbiterState 1 dataWidth returnWidth callerTag calleeTag)
    1 dataWidth returnWidth callerTag calleeTag where
  reset := fun s _ => s
  respond := fun _ c =>
    { callAcks := fun _ => c.callMack
      callMreq := c.callReqs 0
      callMdata := c.callData 0
      callMtag := BitVec.ofNat calleeTag 0 ++ c.callTag 0
      returnAcks := fun _ => c.returnMack
      returnData := fun _ => c.returnMdata
      returnTag := fun _ => callerTagOf c.returnMtag
      returnMreq := c.returnReqs 0 }
  next := fun s _ => s

def multipleRequesters : CallArbiter (ArbiterState n dataWidth returnWidth callerTag calleeTag)
    n dataWidth returnWidth callerTag calleeTag where
  reset := fun s c =>
    { s with
      reqInRegister := fun _ => false
      callState := .idle
      callMdata := s.nextCallMdata c
      calleeMtagReg := s.nextCalleeMtagReg c
      callerMtagReg := s.nextCallerMtagReg c
      returnState := fun _ => .idle }
  respond := fun s c =>
    { callAcks := NobodyLeftBehind.ackOut (s.fairCallAcks c)
      callMreq := decide (s.callState = .busy)
      callMdata := s.callMdata
      callMtag := s.calleeMtagReg ++ s.callerMtagReg
      returnAcks := fun i => decide (s.returnState i = .busy)
      returnData := s.dataReg
      returnTag := s.tagReg
      returnMreq := decide (∃ i, s.latchReturn c i = true) }
  next := fun s c =>
    { reqInRegister := s.nextReqInRegister c
      callState := s.nextCallState c
      callMdata := s.nextCallMdata c
      calleeMtagReg := s.nextCalleeMtagReg c
      callerMtagReg := s.nextCallerMtagReg c
      returnState := s.nextReturnState c
      dataReg := fun i => if s.latchReturn c i then c.returnMdata else s.dataReg i
      tagReg := fun i => if s.latchReturn c i then callerTagOf c.returnMtag else s.tagReg i }

def splitCallArbiter : (n : Nat) →
    CallArbiter (ArbiterState n dataWidth returnWidth callerTag calleeTag)
      n dataWidth returnWidth callerTag calleeTag
  | 0 => multipleRequesters
  | 1 => singleRequester
  | _ + 2 => multipleRequesters

namespace CallArbiter
variable {S : Type} (A : CallArbiter S n dataWidth returnWidth callerTag calleeTag) (s : S)
  (c : CallCycle n dataWidth returnWidth callerTag calleeTag)

def accepted : List (Fin n × BitVec dataWidth × BitVec callerTag) :=
  ((List.finRange n).filter fun i => c.callReqs i && (A.respond s c).callAcks i).map fun i =>
    (i, c.callData i, c.callTag i)

def delivered : List (BitVec dataWidth × BitVec (calleeTag + callerTag)) :=
  if (A.respond s c).callMreq && c.callMack then [((A.respond s c).callMdata, (A.respond s c).callMtag)]
  else []

def returned : List (BitVec returnWidth × BitVec (calleeTag + callerTag)) :=
  if (A.respond s c).returnMreq && c.returnMack then [(c.returnMdata, c.returnMtag)] else []

def handed (i : Fin n) : List (BitVec returnWidth × BitVec callerTag) :=
  if c.returnReqs i && (A.respond s c).returnAcks i then
    [((A.respond s c).returnData i, (A.respond s c).returnTag i)]
  else []

def unanswered (i : Fin n) : Bool := c.callReqs i && !(A.respond s c).callAcks i

def run : S → List (CallCycle n dataWidth returnWidth callerTag calleeTag) → S
  | s, [] => s
  | s, c :: cs => run (A.next s c) cs

/-- What the cycles of a run add to a list. -/
def collect {E : Type} (f : S → CallCycle n dataWidth returnWidth callerTag calleeTag → List E) :
    S → List (CallCycle n dataWidth returnWidth callerTag calleeTag) → List E
  | _, [] => []
  | s, c :: cs => f s c ++ collect f (A.next s c) cs

/-- The protocol of the ports: a request is held until it is acknowledged, and the
callee returns with a tag that names a requester. -/
def Admits : (held : Fin n → Bool) → S → List (CallCycle n dataWidth returnWidth callerTag calleeTag) → Prop
  | _, _, [] => True
  | held, s, c :: cs =>
      (∀ i, held i = true → c.callReqs i = true) ∧
        (c.returnMack = true → (calleeTagOf c.returnMtag).toNat < n) ∧
        Admits (A.unanswered s c) (A.next s c) cs

instance : (held : Fin n → Bool) → (s : S) →
    (cs : List (CallCycle n dataWidth returnWidth callerTag calleeTag)) → Decidable (A.Admits held s cs)
  | _, _, [] => inferInstanceAs (Decidable True)
  | _, s, c :: cs =>
      have : Decidable (A.Admits (A.unanswered s c) (A.next s c) cs) :=
        instDecidableAdmits (A.unanswered s c) (A.next s c) cs
      inferInstanceAs (Decidable (_ ∧ _ ∧ _))

end CallArbiter

/-- `CeilLog2` of the generator, which makes the callee's half of the tag this wide
for so many calls. -/
def getCalleeTagLength (numCalls : Nat) : Nat :=
  if numCalls > 1 then getCalleeTagLength (numCalls / 2) + 1 else 1

section Encoders
variable {i : Fin n}

theorem priorityEncode_cases (x : Fin n → Bool) :
    (∃ i, x i = true ∧ priorityEncode x = fun j => decide (j = i)) ∨
      ((∀ i, x i = false) ∧ priorityEncode x = fun _ => false) := by
  unfold priorityEncode
  cases found : (List.finRange n).reverse.find? x with
  | none =>
      refine Or.inr ⟨fun i => ?_, by simp⟩
      rw [List.find?_eq_none] at found
      simpa using found i (by simp)
  | some i =>
      refine Or.inl ⟨i, List.find?_some found, ?_⟩
      funext j
      simp [eq_comm]

theorem selectWord_one {w : Nat} (order : List (Fin n)) (words : Fin n → BitVec w) (member : i ∈ order) :
    selectWord order (fun j => decide (j = i)) words = words i := by
  have general : ∀ (order : List (Fin n)) (out : BitVec w),
      order.foldl (fun out j => if decide (j = i) then words j else out) out =
        if i ∈ order then words i else out := by
    intro order
    induction order with
    | nil =>
        intro out
        simp
    | cons j order ih =>
        intro out
        rw [List.foldl_cons, ih]
        by_cases same : j = i
        · simp [same]
        · have other : i ≠ j := fun equal => same equal.symm
          simp [same, other]
  rw [selectWord, general, if_pos member]

theorem binaryEncoder_one {owidth : Nat} (fits : n ≤ 2 ^ owidth) :
    (binaryEncoder fun j => decide (j = i)) = BitVec.ofNat owidth i.val := by
  have first : (List.finRange n).find? (fun j => decide (j = i)) = some i := by
    rw [List.find?_eq_some_iff_getElem]
    refine ⟨by simp, i.val, by simp, by simp, ?_⟩
    intro j before
    simp only [List.getElem_finRange, Bool.not_eq_true', decide_eq_false_iff_not]
    intro same
    rw [← same] at before
    exact Nat.lt_irrefl _ before
  have inside : i.val < 2 ^ min (max (ceilLog2 n) 1) owidth := by
    apply Nat.lt_of_lt_of_le i.isLt
    rcases Nat.le_total (max (ceilLog2 n) 1) owidth with narrow | wide
    · rw [Nat.min_eq_left narrow]
      calc n ≤ 2 ^ ceilLog2 n := le_two_pow_ceilLog2 n
        _ ≤ 2 ^ max (ceilLog2 n) 1 := Nat.pow_le_pow_right (by decide) (Nat.le_max_left _ _)
    · rw [Nat.min_eq_right wide]
      exact fits
  simp only [binaryEncoder, first, Option.elim_some]
  rw [Nat.mod_eq_of_lt inside]

/-- The tag that is made for a requester names it, and keeps the tag it supplied. -/
theorem mtag_halves (fits : n ≤ 2 ^ calleeTag) (i : Fin n) (t : BitVec callerTag) :
    (calleeTagOf (BitVec.ofNat calleeTag i.val ++ t)).toNat = i.val ∧
      callerTagOf (BitVec.ofNat calleeTag i.val ++ t) = t := by
  constructor
  · rw [calleeTagOf, BitVec.extractLsb'_append_eq_left, BitVec.toNat_ofNat, Nat.mod_eq_of_lt]
    have := i.isLt
    omega
  · rw [callerTagOf, BitVec.extractLsb'_append_eq_right]

end Encoders

def label (call : Fin n × BitVec dataWidth × BitVec callerTag) :
    BitVec dataWidth × BitVec (calleeTag + callerTag) :=
  (call.2.1, BitVec.ofNat calleeTag call.1.val ++ call.2.2)

def returnsFor (i : Fin n) (returns : List (BitVec returnWidth × BitVec (calleeTag + callerTag))) :
    List (BitVec returnWidth × BitVec callerTag) :=
  (returns.filter fun r => decide ((calleeTagOf r.2).toNat = i.val)).map fun r => (r.1, callerTagOf r.2)

namespace CallArbiter
variable {S : Type} {A : CallArbiter S n dataWidth returnWidth callerTag calleeTag}

/-- Over a run the callee takes the calls that are accepted, in order, and every
requester is handed the returns for it, in order; at most one call, and one return
for a requester, is on its way, and it is offered in every cycle. -/
def Connects (A : CallArbiter S n dataWidth returnWidth callerTag calleeTag) (first : S)
    (cs : List (CallCycle n dataWidth returnWidth callerTag calleeTag)) : Prop :=
  (∃ calls, calls.length ≤ 1 ∧ (calls ≠ [] → ∀ c, (A.respond (A.run first cs) c).callMreq = true) ∧
      (A.collect A.accepted first cs).map label = A.collect A.delivered first cs ++ calls) ∧
    ∀ i, ∃ returns, returns.length ≤ 1 ∧
      (returns ≠ [] → ∀ c, (A.respond (A.run first cs) c).returnAcks i = true) ∧
      returnsFor i (A.collect A.returned first cs) =
        A.collect (fun s c => A.handed s c i) first cs ++ returns

/-- `holds held s calls returns`: while the requests in `held` are not answered,
the state keeps these calls for the callee, and these returns for each requester.
A cycle puts what it takes in behind them and what it hands out away. -/
structure Routes (A : CallArbiter S n dataWidth returnWidth callerTag calleeTag)
    (holds : (Fin n → Bool) → S → List (BitVec dataWidth × BitVec (calleeTag + callerTag)) →
      (Fin n → List (BitVec returnWidth × BitVec callerTag)) → Prop) : Prop where
  step : ∀ held s calls returns c, holds held s calls returns →
    (∀ i, held i = true → c.callReqs i = true) →
    (c.returnMack = true → (calleeTagOf c.returnMtag).toNat < n) →
    ∃ calls' returns', holds (A.unanswered s c) (A.next s c) calls' returns' ∧
      calls ++ (A.accepted s c).map label = A.delivered s c ++ calls' ∧
      ∀ i, returns i ++ returnsFor i (A.returned s c) = A.handed s c i ++ returns' i
  offers : ∀ held s calls returns, holds held s calls returns →
    (calls.length ≤ 1 ∧ (calls ≠ [] → ∀ c, (A.respond s c).callMreq = true)) ∧
      ∀ i, (returns i).length ≤ 1 ∧ (returns i ≠ [] → ∀ c, (A.respond s c).returnAcks i = true)

theorem Routes.run {holds : (Fin n → Bool) → S → List (BitVec dataWidth × BitVec (calleeTag + callerTag)) →
      (Fin n → List (BitVec returnWidth × BitVec callerTag)) → Prop} (routes : A.Routes holds) :
    ∀ (cs : List (CallCycle n dataWidth returnWidth callerTag calleeTag)) (held : Fin n → Bool) (s : S)
      (calls : List (BitVec dataWidth × BitVec (calleeTag + callerTag)))
      (returns : Fin n → List (BitVec returnWidth × BitVec callerTag)),
      holds held s calls returns → A.Admits held s cs →
      ∃ held' calls' returns', holds held' (A.run s cs) calls' returns' ∧
        calls ++ (A.collect A.accepted s cs).map label = A.collect A.delivered s cs ++ calls' ∧
        ∀ i, returns i ++ returnsFor i (A.collect A.returned s cs) =
          A.collect (fun s c => A.handed s c i) s cs ++ returns' i := by
  intro cs
  induction cs with
  | nil =>
      intro held s calls returns holding _
      refine ⟨held, calls, returns, holding, ?_, fun i => ?_⟩
      · simp [collect]
      · simp [collect, returnsFor]
  | cons c cs ih =>
      intro held s calls returns holding admits
      obtain ⟨persists, tagged, rest⟩ := admits
      obtain ⟨calls₁, returns₁, holding₁, callStep, returnStep⟩ :=
        routes.step held s calls returns c holding persists tagged
      obtain ⟨held', calls', returns', holding', callRun, returnRun⟩ :=
        ih _ _ calls₁ returns₁ holding₁ rest
      refine ⟨held', calls', returns', holding', ?_, fun i => ?_⟩
      · calc calls ++ (A.collect A.accepted s (c :: cs)).map label
            = (calls ++ (A.accepted s c).map label) ++
                (A.collect A.accepted (A.next s c) cs).map label := by
              rw [collect, List.map_append, List.append_assoc]
          _ = A.delivered s c ++ (calls₁ ++ (A.collect A.accepted (A.next s c) cs).map label) := by
              rw [callStep, List.append_assoc]
          _ = A.collect A.delivered s (c :: cs) ++ calls' := by
              rw [callRun, collect, List.append_assoc]
      · calc returns i ++ returnsFor i (A.collect A.returned s (c :: cs))
            = (returns i ++ returnsFor i (A.returned s c)) ++
                returnsFor i (A.collect A.returned (A.next s c) cs) := by
              rw [collect, returnsFor, List.filter_append, List.map_append, ← returnsFor, ← returnsFor,
                List.append_assoc]
          _ = A.handed s c i ++ (returns₁ i ++ returnsFor i (A.collect A.returned (A.next s c) cs)) := by
              rw [returnStep, List.append_assoc]
          _ = A.collect (fun s c => A.handed s c i) s (c :: cs) ++ returns' i := by
              rw [returnRun, collect, List.append_assoc]

theorem Routes.connects {holds : (Fin n → Bool) → S → List (BitVec dataWidth × BitVec (calleeTag + callerTag)) →
      (Fin n → List (BitVec returnWidth × BitVec callerTag)) → Prop} (routes : A.Routes holds) {first : S}
    (start : holds (fun _ => false) first [] fun _ => [])
    {cs : List (CallCycle n dataWidth returnWidth callerTag calleeTag)}
    (admits : A.Admits (fun _ => false) first cs) : A.Connects first cs := by
  obtain ⟨held, calls, returns, holding, callRun, returnRun⟩ := routes.run cs _ _ _ _ start admits
  obtain ⟨callOffer, returnOffer⟩ := routes.offers _ _ _ _ holding
  refine ⟨⟨calls, callOffer.1, callOffer.2, callRun⟩, fun i => ?_⟩
  exact ⟨returns i, (returnOffer i).1, (returnOffer i).2, returnRun i⟩

end CallArbiter

theorem singleRequester_routes : (singleRequester : CallArbiter
    (ArbiterState 1 dataWidth returnWidth callerTag calleeTag) 1 dataWidth returnWidth callerTag calleeTag).Routes
    fun _ _ calls returns => calls = [] ∧ ∀ i, returns i = [] := by
  refine ⟨?_, ?_⟩
  case refine_2 =>
    rintro held s calls returns ⟨rfl, none⟩
    refine ⟨⟨Nat.zero_le 1, fun some => absurd rfl some⟩, fun i => ?_⟩
    rw [none]
    exact ⟨Nat.zero_le 1, fun some => absurd rfl some⟩
  rintro held s calls returns c ⟨rfl, none⟩ _ tagged
  refine ⟨[], fun _ => [], ⟨rfl, fun _ => rfl⟩, ?_, fun i => ?_⟩
  · cases req : c.callReqs 0 <;> cases ack : c.callMack <;>
      simp [CallArbiter.accepted, CallArbiter.delivered, singleRequester, label, List.finRange_succ, req, ack]
  · obtain rfl : i = 0 := Subsingleton.elim i 0
    rw [none]
    cases ack : c.returnMack with
    | false => simp [CallArbiter.returned, CallArbiter.handed, singleRequester, returnsFor, ack]
    | true =>
        have zero : (calleeTagOf c.returnMtag).toNat = 0 := by
          have := tagged ack
          omega
        cases req : c.returnReqs 0 <;>
          simp [CallArbiter.returned, CallArbiter.handed, singleRequester, returnsFor, ack, req, zero]

namespace ArbiterState
variable {s : ArbiterState n dataWidth returnWidth callerTag calleeTag}
  {c : CallCycle n dataWidth returnWidth callerTag calleeTag} {held : Fin n → Bool}

def pendingCall (s : ArbiterState n dataWidth returnWidth callerTag calleeTag) :
    List (BitVec dataWidth × BitVec (calleeTag + callerTag)) :=
  if s.callState = .busy then [(s.callMdata, s.calleeMtagReg ++ s.callerMtagReg)] else []

def pendingReturn (s : ArbiterState n dataWidth returnWidth callerTag calleeTag) (i : Fin n) :
    List (BitVec returnWidth × BitVec callerTag) :=
  if s.returnState i = .busy then [(s.dataReg i, s.tagReg i)] else []

/-- One requester is chosen, which requests a call, or there is no call. -/
theorem peCallReqs_cases (left : ∀ i, s.reqInRegister i = true → held i = true)
    (persists : ∀ i, held i = true → c.callReqs i = true) :
    (∃ i, c.callReqs i = true ∧ s.peCallReqs c = fun j => decide (j = i)) ∨
      s.peCallReqs c = fun _ => false := by
  rcases priorityEncode_cases (s.fairCallReqs c) with ⟨i, fair, chosen⟩ | ⟨_, none⟩
  · refine Or.inl ⟨i, ?_, chosen⟩
    unfold fairCallReqs NobodyLeftBehind.reqOut at fair
    split_ifs at fair with single leftover
    · exact fair
    · exact persists i (left i fair)
    · exact fair
  · exact Or.inr none

theorem nextReqInRegister_unanswered (several : n ≠ 1) (left : ∀ i, s.reqInRegister i = true → held i = true)
    (persists : ∀ i, held i = true → c.callReqs i = true) {i : Fin n}
    (next : s.nextReqInRegister c i = true) : multipleRequesters.unanswered s c i = true := by
  obtain ⟨asked, unanswered⟩ := NobodyLeftBehind.asked_of_left several (fun latched => persists i (left i latched)) next
  rw [CallArbiter.unanswered, Bool.and_eq_true, Bool.not_eq_true']
  exact ⟨asked, unanswered⟩

theorem accepted_latched (fits : n ≤ 2 ^ calleeTag) (left : ∀ i, s.reqInRegister i = true → held i = true)
    (persists : ∀ i, held i = true → c.callReqs i = true) :
    (multipleRequesters.accepted s c).map label =
      if s.latchCallData c then
        [(s.nextCallMdata c, s.nextCalleeMtagReg c ++ s.nextCallerMtagReg c)]
      else [] := by
  have acks : ∀ i, (multipleRequesters.respond s c).callAcks i = (s.peCallReqs c i && s.latchCallData c) :=
    fun _ => rfl
  cases latch : s.latchCallData c with
  | false => simp [CallArbiter.accepted, acks, latch]
  | true =>
      rcases peCallReqs_cases left persists with ⟨i, req, chosen⟩ | none
      · have enable : (fun j => c.callReqs j && (multipleRequesters.respond s c).callAcks j) =
            fun j => j == i := by
          funext j
          rw [acks, latch, chosen]
          by_cases equal : j = i
          · simp [equal, req]
          · simp [equal]
        have one : multipleRequesters.accepted s c = [(i, c.callData i, c.callTag i)] := by
          rw [CallArbiter.accepted, enable, List.filter_beq,
            List.count_eq_one_of_mem (List.nodup_finRange n) (List.mem_finRange i)]
          rfl
        simp only [one, List.map_cons, List.map_nil, if_true, label, nextCallMdata, nextCalleeMtagReg,
          nextCallerMtagReg, latch, chosen, binaryEncoder_one fits]
        rw [selectWord_one _ _ (by simp), selectWord_one _ _ (by simp)]
      · have noCall : s.thereIsACall c = false := by simp [thereIsACall, none]
        simp only [latchCallData, noCall, Bool.and_false] at latch
        split at latch <;> cases latch

theorem callStep (fits : n ≤ 2 ^ calleeTag) (left : ∀ i, s.reqInRegister i = true → held i = true)
    (persists : ∀ i, held i = true → c.callReqs i = true) :
    s.pendingCall ++ (multipleRequesters.accepted s c).map label =
      multipleRequesters.delivered s c ++ (multipleRequesters.next s c).pendingCall := by
  rw [accepted_latched fits left persists]
  have next : (multipleRequesters.next s c).pendingCall =
      if s.nextCallState c = .busy then
        [(s.nextCallMdata c, s.nextCalleeMtagReg c ++ s.nextCallerMtagReg c)] else [] := rfl
  have delivered : multipleRequesters.delivered s c =
      if decide (s.callState = .busy) && c.callMack then
        [(s.callMdata, s.calleeMtagReg ++ s.callerMtagReg)] else [] := rfl
  rw [next, delivered, pendingCall]
  cases state : s.callState with
  | idle => cases call : s.thereIsACall c <;> simp [latchCallData, nextCallState, state, call]
  | busy =>
      cases ack : c.callMack with
      | true => cases call : s.thereIsACall c <;> simp [latchCallData, nextCallState, state, ack, call]
      | false =>
          simp [latchCallData, nextCallState, state, ack, nextCallMdata, nextCalleeMtagReg,
            nextCallerMtagReg]

/-- A return is taken from the callee when the register of its requester takes it. -/
theorem returnsFor_returned (i : Fin n) :
    returnsFor i (multipleRequesters.returned s c) =
      if s.latchReturn c i then [(c.returnMdata, callerTagOf c.returnMtag)] else [] := by
  have valid : ∀ j, s.latchReturn c j = true → validFlag c j = true := by
    intro j latch
    unfold latchReturn at latch
    split at latch
    · exact latch
    · exact (Bool.and_eq_true_iff.mp latch).1
  have names : ∀ j, validFlag c j = true → c.returnMack = true ∧ j.val = (calleeTagOf c.returnMtag).toNat := by
    intro j flag
    simpa [validFlag] using flag
  have returned : multipleRequesters.returned s c =
      if decide (∃ j, s.latchReturn c j = true) && c.returnMack then [(c.returnMdata, c.returnMtag)]
      else [] := rfl
  rw [returned]
  cases latch : s.latchReturn c i with
  | true =>
      obtain ⟨ack, name⟩ := names i (valid i latch)
      have some : ∃ j, s.latchReturn c j = true := ⟨i, latch⟩
      simp [returnsFor, ack, name, some]
  | false =>
      by_cases taken : ∃ j, s.latchReturn c j = true
      · obtain ⟨j, latchJ⟩ := taken
        obtain ⟨ack, name⟩ := names j (valid j latchJ)
        have other : (calleeTagOf c.returnMtag).toNat ≠ i.val := by
          intro same
          have equal : j = i := Fin.ext (name.trans same)
          rw [equal, latch] at latchJ
          cases latchJ
        have some : ∃ j, s.latchReturn c j = true := ⟨j, latchJ⟩
        simp [returnsFor, ack, some, other]
      · simp only [taken, decide_false, Bool.false_and, Bool.false_eq_true, if_false]
        rfl

theorem returnStep (i : Fin n) :
    s.pendingReturn i ++ returnsFor i (multipleRequesters.returned s c) =
      multipleRequesters.handed s c i ++ (multipleRequesters.next s c).pendingReturn i := by
  rw [returnsFor_returned]
  have next : (multipleRequesters.next s c).pendingReturn i =
      if s.nextReturnState c i = .busy then
        [(if s.latchReturn c i then c.returnMdata else s.dataReg i,
          if s.latchReturn c i then callerTagOf c.returnMtag else s.tagReg i)] else [] := rfl
  have handed : multipleRequesters.handed s c i =
      if c.returnReqs i && decide (s.returnState i = .busy) then [(s.dataReg i, s.tagReg i)] else [] := rfl
  rw [next, handed, pendingReturn]
  cases state : s.returnState i <;> cases flag : validFlag c i <;> cases req : c.returnReqs i <;>
    simp [latchReturn, nextReturnState, state, flag, req]

end ArbiterState

theorem multipleRequesters_routes (several : n ≠ 1) (fits : n ≤ 2 ^ calleeTag) : (multipleRequesters : CallArbiter
    (ArbiterState n dataWidth returnWidth callerTag calleeTag) n dataWidth returnWidth callerTag calleeTag).Routes
    fun held s calls returns =>
      (∀ i, s.reqInRegister i = true → held i = true) ∧ calls = s.pendingCall ∧
        returns = s.pendingReturn := by
  refine ⟨?_, ?_⟩
  · rintro held s calls returns c ⟨left, rfl, rfl⟩ persists _
    refine ⟨_, _, ⟨?_, rfl, rfl⟩, ArbiterState.callStep fits left persists, ArbiterState.returnStep⟩
    intro i next
    exact ArbiterState.nextReqInRegister_unanswered several left persists next
  · rintro held s calls returns ⟨_, rfl, rfl⟩
    refine ⟨?_, fun i => ?_⟩
    · unfold ArbiterState.pendingCall
      split_ifs with state
      · exact ⟨Nat.le_refl 1, fun _ _ => by simp [multipleRequesters, state]⟩
      · exact ⟨Nat.zero_le 1, fun some => absurd rfl some⟩
    · unfold ArbiterState.pendingReturn
      split_ifs with state
      · exact ⟨Nat.le_refl 1, fun _ _ => by simp [multipleRequesters, state]⟩
      · exact ⟨Nat.zero_le 1, fun some => absurd rfl some⟩

theorem multipleRequesters_connects (several : n ≠ 1) (fits : n ≤ 2 ^ calleeTag)
    (s : ArbiterState n dataWidth returnWidth callerTag calleeTag)
    (c : CallCycle n dataWidth returnWidth callerTag calleeTag)
    {cs : List (CallCycle n dataWidth returnWidth callerTag calleeTag)}
    (admits : multipleRequesters.Admits (fun _ => false) (multipleRequesters.reset s c) cs) :
    multipleRequesters.Connects (multipleRequesters.reset s c) cs := by
  refine (multipleRequesters_routes several fits).connects ⟨?_, rfl, rfl⟩ admits
  intro i left
  exact left

/-- From the reset on, each call that is accepted is delivered once, with the
arguments of its requester and a tag that names it, and each return whose tag names
a requester is handed to it once, with the caller's half of the tag.  The tag of a
call names its requester and keeps the tag it supplied. -/
theorem splitCallArbiter_connects (fits : n ≤ 2 ^ calleeTag)
    (s : ArbiterState n dataWidth returnWidth callerTag calleeTag)
    (c : CallCycle n dataWidth returnWidth callerTag calleeTag)
    {cs : List (CallCycle n dataWidth returnWidth callerTag calleeTag)}
    (admits : (splitCallArbiter n).Admits (fun _ => false) ((splitCallArbiter n).reset s c) cs) :
    (splitCallArbiter n).Connects ((splitCallArbiter n).reset s c) cs ∧
      ∀ (i : Fin n) (t : BitVec callerTag),
        (calleeTagOf (BitVec.ofNat calleeTag i.val ++ t)).toNat = i.val ∧
          callerTagOf (BitVec.ofNat calleeTag i.val ++ t) = t := by
  refine ⟨?_, mtag_halves fits⟩
  match n with
  | 0 => exact multipleRequesters_connects Nat.zero_ne_one fits s c admits
  | 1 => exact singleRequester_routes.connects ⟨rfl, fun _ => rfl⟩ admits
  | _ + 2 => exact multipleRequesters_connects (by omega) fits s c admits

/-- Two requesters call at once, the callee takes both calls, and the second that it
took returns first. -/
theorem splitCallArbiter_connects_two :
    let A : CallArbiter (ArbiterState 2 8 8 2 1) 2 8 8 2 1 := splitCallArbiter 2
    let s : ArbiterState 2 8 8 2 1 :=
      ⟨fun _ => false, .idle, 0, 0, 0, fun _ => .idle, fun _ => 0, fun _ => 0⟩
    let quiet : CallCycle 2 8 8 2 1 :=
      ⟨fun _ => false, fun _ => 0, fun _ => 0, false, fun _ => false, false, 0, 0⟩
    let both : CallCycle 2 8 8 2 1 :=
      { quiet with callReqs := fun _ => true, callData := ![10, 20], callTag := ![1, 2], callMack := true }
    let cs : List (CallCycle 2 8 8 2 1) :=
      [both, { both with callReqs := ![true, false] }, { quiet with callMack := true },
        { quiet with returnMack := true, returnMdata := 30, returnMtag := 1 },
        { quiet with returnReqs := fun _ => true }]
    A.collect A.delivered (A.reset s quiet) cs = [(20, 6), (10, 1)] ∧
      A.collect (fun s c => A.handed s c 0) (A.reset s quiet) cs = [(30, 1)] ∧
      A.Connects (A.reset s quiet) cs := by
  intro A s quiet both cs
  have admits : A.Admits (fun _ => false) (A.reset s quiet) cs := by decide
  exact ⟨by decide, by decide, (splitCallArbiter_connects (by decide) s quiet admits).1⟩

end Ahir.Hardware
