import Ahir.Hardware.OrderedMemory
import Ahir.Hardware.UnorderedRun

/-!
# The parts of the ordered memory

The loop over the ports finds a request of least time, and a queue keeps the words of the
requests that it has taken in.
-/

set_option autoImplicit false

namespace Ahir.Hardware.OrderedMemory
open TimeStamp (isGreaterThan)
open UnorderedMemory (extractLsb'_append_low extractLsb'_append_high extractLsb'_append_above)
variable {g : Generics}

/-! ### The selection -/

section Smallest
variable {w : Nat} {reqIn : Nat → Bool} {time : Nat → Nat}

theorem smallest_succ (timeStampIn : Nat → BitVec w) (ports : Nat) :
    smallest reqIn timeStampIn (ports + 1) = chooseSmaller reqIn timeStampIn (smallest reqIn timeStampIn ports) ports := by
  rw [smallest, List.range_succ, List.foldl_append]
  rfl

theorem chooseSmaller_idle {timeStampIn : Nat → BitVec w} {chosen : Option Nat} {i : Nat} (idle : reqIn i = false) :
    chooseSmaller reqIn timeStampIn chosen i = chosen := by
  simp [chooseSmaller, idle]

theorem chooseSmaller_first {timeStampIn : Nat → BitVec w} {i : Nat} (req : reqIn i = true) :
    chooseSmaller reqIn timeStampIn none i = some i := by
  simp [chooseSmaller, req]

theorem chooseSmaller_some {timeStampIn : Nat → BitVec w} {i j : Nat} (req : reqIn i = true) :
    chooseSmaller reqIn timeStampIn (some j) i =
      if isGreaterThan (timeStampIn j) (timeStampIn i) then some i else some j := by
  simp [chooseSmaller, req]

structure Chosen (reqIn : Nat → Bool) (ports : Nat) (chosen : Option Nat) : Prop where
  idle : chosen = none → ∀ i < ports, reqIn i = false
  port : ∀ j, chosen = some j → j < ports ∧ reqIn j = true

theorem Chosen.of_port {ports j : Nat} (isPort : j < ports) (isReq : reqIn j = true) : Chosen reqIn ports (some j) where
  idle none := by cases none
  port _ found := Option.some.inj found ▸ ⟨isPort, isReq⟩

theorem smallest_chosen (reqIn : Nat → Bool) (timeStampIn : Nat → BitVec w) (ports : Nat) :
    Chosen reqIn ports (smallest reqIn timeStampIn ports) := by
  induction ports with
  | zero => exact ⟨fun _ i inside => absurd inside (Nat.not_lt_zero i), fun j found => by cases found⟩
  | succ ports ih =>
      rw [smallest_succ]
      cases req : reqIn ports with
      | false =>
          rw [chooseSmaller_idle req]
          refine ⟨fun none i inside => ?_, fun j found => ⟨Nat.lt_succ_of_lt (ih.port j found).1, (ih.port j found).2⟩⟩
          rcases Nat.lt_succ_iff_lt_or_eq.mp inside with before | rfl
          · exact ih.idle none i before
          · exact req
      | true =>
          cases chosen : smallest reqIn timeStampIn ports with
          | none =>
              rw [chooseSmaller_first req]
              exact .of_port (Nat.lt_succ_self _) req
          | some k =>
              obtain ⟨isPort, isReq⟩ := ih.port k chosen
              rw [chooseSmaller_some req]
              split_ifs
              · exact .of_port (Nat.lt_succ_self _) req
              · exact .of_port (Nat.lt_succ_of_lt isPort) isReq

/-- Inside the window the request that is selected is one of least time. -/
theorem smallest_le (wide : 2 < w) {ports j : Nat}
    (near : ∀ i < ports, ∀ k < ports, reqIn i = true → reqIn k = true → time i ≤ time k + 2 ^ (w - 2))
    (found : smallest reqIn (fun i => BitVec.ofNat w (time i)) ports = some j) :
    ∀ i < ports, reqIn i = true → time j ≤ time i := by
  induction ports generalizing j with
  | zero => exact fun i inside => absurd inside (Nat.not_lt_zero i)
  | succ ports ih =>
      have nearBefore : ∀ i < ports, ∀ k < ports, reqIn i = true → reqIn k = true → time i ≤ time k + 2 ^ (w - 2) :=
        fun i inside k inside' => near i (Nat.lt_succ_of_lt inside) k (Nat.lt_succ_of_lt inside')
      have before := smallest_chosen reqIn (fun i => BitVec.ofNat w (time i)) ports
      rw [smallest_succ] at found
      intro i inside isReq
      rcases Nat.lt_succ_iff_lt_or_eq.mp inside with earlier | rfl
      · cases req : reqIn ports with
        | false =>
            rw [chooseSmaller_idle req] at found
            exact ih nearBefore found i earlier isReq
        | true =>
            cases chosen : smallest reqIn (fun i => BitVec.ofNat w (time i)) ports with
            | none =>
                rw [before.idle chosen i earlier] at isReq
                cases isReq
            | some k =>
                obtain ⟨isPort, isReq'⟩ := before.port k chosen
                have compare := TimeStamp.isGreaterThan_ofNat wide
                  (near k (Nat.lt_succ_of_lt isPort) ports (Nat.lt_succ_self _) isReq' req)
                  (near ports (Nat.lt_succ_self _) k (Nat.lt_succ_of_lt isPort) req isReq')
                have least := ih nearBefore chosen i earlier isReq
                rw [chosen, chooseSmaller_some req] at found
                split_ifs at found with greater
                · obtain rfl := Option.some.inj found
                  exact le_trans (le_of_lt (compare.mp greater)) least
                · obtain rfl := Option.some.inj found
                  exact least
      · cases chosen : smallest reqIn (fun i => BitVec.ofNat w (time i)) i with
        | none =>
            rw [chosen, chooseSmaller_first isReq] at found
            obtain rfl := Option.some.inj found
            exact le_refl _
        | some k =>
            obtain ⟨isPort, isReq'⟩ := before.port k chosen
            have compare := TimeStamp.isGreaterThan_ofNat wide
              (near k (Nat.lt_succ_of_lt isPort) i (Nat.lt_succ_self _) isReq' isReq)
              (near i (Nat.lt_succ_self _) k (Nat.lt_succ_of_lt isPort) isReq isReq')
            rw [chosen, chooseSmaller_some isReq] at found
            split_ifs at found with greater
            · obtain rfl := Option.some.inj found
              exact le_refl _
            · obtain rfl := Option.some.inj found
              exact not_lt.mp (mt compare.mpr greater)

end Smallest

/-! ### The queues -/

structure QueueStep {w : Nat} (s : QueueState w 2) (q : List (BitVec w)) (r : Request (BitVec w)) : Prop where
  pushAck : ((queueBase 2).respond s r).pushAck = decide (q.length < 2)
  popAck : ((queueBase 2).respond s r).popAck = !q.isEmpty
  dataOut : ∀ x, q.head? = some x → ((queueBase 2).respond s r).dataOut = x
  next : QueueHolds ((queueBase 2).next s r)
    ((q ++ if r.pushReq && decide (q.length < 2) then [r.dataIn] else []).drop (if r.popReq && !q.isEmpty then 1 else 0))

theorem queue_step {w : Nat} {s : QueueState w 2} {q : List (BitVec w)} (held : QueueHolds s q) (r : Request (BitVec w)) :
    QueueStep s q r := by
  have fifo : (queueBase 2 : Buffer (QueueState w 2) (BitVec w)).Fifo 2 QueueHolds := queueBaseWithEmptyFull_fifo false false 2
  obtain ⟨-, empty, full⟩ := held.spec
  have bounded := fifo.bounded s q held
  have acks : ∀ r, ((queueBase 2).respond s r).pushAck = !s.full ∧ ((queueBase 2).respond s r).popAck = !s.empty :=
    queueBaseWithEmptyFull_acks false 1 s
  have pushAck : ∀ r, ((queueBase 2).respond s r).pushAck = decide (q.length < 2) := fun r => by
    rw [(acks r).1]
    cases isFull : s.full with
    | true => exact (decide_eq_false (by have := full.mp isFull; omega)).symm
    | false => exact (decide_eq_true (by have := mt full.mpr (by rw [isFull]; exact Bool.false_ne_true); omega)).symm
  have popAck : ∀ r, ((queueBase 2).respond s r).popAck = !q.isEmpty := fun r => by
    have same : s.empty = q.isEmpty := by
      rw [Bool.eq_iff_iff, empty, List.length_eq_zero_iff, List.isEmpty_iff]
    rw [(acks r).2, same]
  refine ⟨pushAck r, popAck r, fun x head => ?_, ?_⟩
  · obtain ⟨rest, rfl⟩ : ∃ rest, q = x :: rest := List.head?_eq_some_iff.mp head
    -- the word that a pop would take
    obtain ⟨q', -, law⟩ := fifo.step s { r with popReq := true } _ held
    have popped : (queueBase 2).popped s { r with popReq := true } = some ((queueBase 2).respond s r).dataOut := by
      rw [Buffer.popped, popAck]
      rfl
    rw [popped] at law
    exact (List.cons.inj law).1.symm
  · obtain ⟨q', held', law⟩ := fifo.step s r q held
    have pushed : ((queueBase 2).pushed s r).toList = if r.pushReq && decide (q.length < 2) then [r.dataIn] else [] := by
      rw [Buffer.pushed, pushAck]
      split_ifs <;> rfl
    have popped : ((queueBase 2).popped s r).toList.length = if r.popReq && !q.isEmpty then 1 else 0 := by
      rw [Buffer.popped, popAck]
      split_ifs <;> rfl
    rw [pushed] at law
    rw [law, ← popped, List.drop_left]
    exact held'

/-! ### Requests -/

structure LoadRequest (g : Generics) where
  time : Nat
  port : Nat
  addr : BitVec g.addrWidth
  tag : BitVec g.tagWidth

structure StoreRequest (g : Generics) where
  time : Nat
  port : Nat
  addr : BitVec g.addrWidth
  data : BitVec g.dataWidth
  tag : BitVec g.tagWidth

/-- The word that stands for the request in `lrr`. -/
def LoadRequest.word (r : LoadRequest g) : BitVec g.lrrWidth :=
  BitVec.ofNat g.timeStampWidth r.time ++ BitVec.ofNat g.loadPortIdWidth r.port ++ r.addr ++ r.tag

def StoreRequest.word (r : StoreRequest g) : BitVec g.srrWidth :=
  BitVec.ofNat g.timeStampWidth r.time ++ BitVec.ofNat g.storePortIdWidth r.port ++ r.addr ++ r.data ++ r.tag

def Cycle.loadRequest (c : Cycle g) (i : Nat) : LoadRequest g := ⟨c.lrTime i, i, c.lrAddrIn i, c.lrTagIn i⟩

def Cycle.storeRequest (c : Cycle g) (i : Nat) : StoreRequest g := ⟨c.srTime i, i, c.srAddrIn i, c.srDataIn i, c.srTagIn i⟩

theorem LoadRequest.fields {s : State g} {c : Cycle g} {r : LoadRequest g} (oldest : (s.lrrResponse c).dataOut = r.word) :
    s.readTimeStamp c = BitVec.ofNat _ r.time ∧ s.readPortId c = BitVec.ofNat _ r.port ∧ s.readAddr c = r.addr ∧
      s.readTag c = r.tag := by
  unfold State.readTimeStamp State.readPortId State.readAddr State.readTag
  rw [oldest, word]
  refine ⟨?_, ?_, ?_, extractLsb'_append_low _ _⟩
  · rw [extractLsb'_append_above _ _ (by omega), extractLsb'_append_above _ _ (by omega), Nat.add_sub_cancel,
      Nat.add_sub_cancel, extractLsb'_append_high]
  · rw [extractLsb'_append_above _ _ (by omega), extractLsb'_append_above _ _ (by omega), Nat.add_sub_cancel, Nat.sub_self,
      extractLsb'_append_low]
  · rw [extractLsb'_append_above _ _ (Nat.le_refl _), Nat.sub_self, extractLsb'_append_low]

theorem StoreRequest.fields {s : State g} {c : Cycle g} {r : StoreRequest g} (oldest : (s.srrResponse c).dataOut = r.word) :
    s.writeTimeStamp c = BitVec.ofNat _ r.time ∧ s.writePortId c = BitVec.ofNat _ r.port ∧ s.writeAddr c = r.addr ∧
      s.writeData c = r.data ∧ s.writeTag c = r.tag := by
  unfold State.writeTimeStamp State.writePortId State.writeAddr State.writeData State.writeTag
  rw [oldest, word]
  refine ⟨?_, ?_, ?_, ?_, extractLsb'_append_low _ _⟩
  · rw [extractLsb'_append_above _ _ (by omega), extractLsb'_append_above _ _ (by omega),
      extractLsb'_append_above _ _ (by omega), Nat.add_sub_cancel, Nat.add_sub_cancel, Nat.add_sub_cancel,
      extractLsb'_append_high]
  · rw [extractLsb'_append_above _ _ (by omega), extractLsb'_append_above _ _ (by omega),
      extractLsb'_append_above _ _ (by omega), Nat.add_sub_cancel, Nat.add_sub_cancel, Nat.sub_self, extractLsb'_append_low]
  · rw [extractLsb'_append_above _ _ (by omega), extractLsb'_append_above _ _ (by omega), Nat.add_sub_cancel, Nat.sub_self,
      extractLsb'_append_low]
  · rw [extractLsb'_append_above _ _ (Nat.le_refl _), Nat.sub_self, extractLsb'_append_low]

end Ahir.Hardware.OrderedMemory
