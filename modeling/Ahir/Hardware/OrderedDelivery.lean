import Ahir.Hardware.OrderedRun

/-!
# Accesses in the order of time

When no request becomes present after one with a larger time, and the times of the
requests that are outstanding lie within a quarter of the stamps, the bank performs the
accesses in the order of time.
-/

set_option autoImplicit false

namespace Ahir.Hardware.OrderedMemory
open Ahir.Run
open TimeStamp (isGreaterThan)
variable {g : Generics}

def Cycle.PresentLoad (c : Cycle g) (t : Nat) : Prop := ∃ i < g.numLoads, c.lrReqIn i = true ∧ c.lrTime i = t

def Cycle.PresentStore (c : Cycle g) (t : Nat) : Prop := ∃ i < g.numStores, c.srReqIn i = true ∧ c.srTime i = t

namespace Books
variable (b : Books g) (c : Cycle g)

/-- A load of that time was present at the port in the cycle before and not acknowledged. -/
def LoadHeld (i : Nat) (t : Nat) : Prop :=
  ∃ s d, b.history.getLast? = some (s, d) ∧ d.lrReqIn i = true ∧ s.lrAckOut d i = false ∧ d.lrTime i = t

def StoreHeld (i : Nat) (t : Nat) : Prop :=
  ∃ s d, b.history.getLast? = some (s, d) ∧ d.srReqIn i = true ∧ s.srAckOut d i = false ∧ d.srTime i = t

def Seen (t : Nat) : Prop := ∃ x ∈ b.history, x.2.PresentLoad t ∨ x.2.PresentStore t

structure Arrives : Prop where
  loads : ∀ i < g.numLoads, c.lrReqIn i = true → b.LoadHeld i (c.lrTime i) ∨ ∀ t, b.Seen t → t ≤ c.lrTime i
  stores : ∀ i < g.numStores, c.srReqIn i = true → b.StoreHeld i (c.srTime i) ∨ ∀ t, b.Seen t → t ≤ c.srTime i

/-- A request of that time is present, or accepted and not performed. -/
def Outstanding (t : Nat) : Prop :=
  c.PresentLoad t ∨ c.PresentStore t ∨ (∃ r ∈ b.waitingLoads, r.time = t) ∨ ∃ r ∈ b.waitingStores, r.time = t

def Near : Prop := ∀ t u, b.Outstanding c t → b.Outstanding c u → t ≤ u + 2 ^ (g.timeStampWidth - 2)

/-- Every cycle of the run keeps to the rules for the times. -/
def Timely : Books g → List (Cycle g) → Prop
  | _, [] => True
  | b, c :: cs => b.Arrives c ∧ b.Near c ∧ Timely (b.next c) cs

/-- The two queues, with the loads under `true`. -/
def merge : TimeMerge Bool Nat where
  queue
    | true => b.waitingLoads.map LoadRequest.time
    | false => b.waitingStores.map StoreRequest.time
  taken := b.log.map Access.time
  waits
    | true => fun t => ∃ i < g.numLoads, b.LoadHeld i t
    | false => fun t => ∃ i < g.numStores, b.StoreHeld i t
  seen := b.Seen

variable {b c} {initial : BitVec g.addrWidth → BitVec g.dataWidth}

theorem last_next {holds : State g → Cycle g → Prop} :
    (∃ s d, (b.next c).history.getLast? = some (s, d) ∧ holds s d) ↔ holds b.state c := by
  have history : (b.next c).history.getLast? = some (b.state, c) := List.getLast?_concat
  rw [history]
  constructor
  · rintro ⟨s, d, same, held⟩
    obtain ⟨rfl, rfl⟩ := Prod.mk.inj (Option.some.inj same)
    exact held
  · exact fun held => ⟨b.state, c, rfl, held⟩

theorem loadHeld_next {i t : Nat} :
    (b.next c).LoadHeld i t ↔ c.lrReqIn i = true ∧ b.state.lrAckOut c i = false ∧ c.lrTime i = t :=
  last_next

theorem storeHeld_next {i t : Nat} :
    (b.next c).StoreHeld i t ↔ c.srReqIn i = true ∧ b.state.srAckOut c i = false ∧ c.srTime i = t :=
  last_next

theorem seen_next {t : Nat} : (b.next c).Seen t ↔ b.Seen t ∨ c.PresentLoad t ∨ c.PresentStore t := by
  have history : (b.next c).history = b.history ++ [(b.state, c)] := rfl
  simp [Seen, history, or_and_right, exists_or]

/-- A load that enters the queue has the least time of those present. -/
theorem acceptedLoads_least (near : b.Near c) {r : LoadRequest g} (member : r ∈ b.state.acceptedLoads c) :
    c.PresentLoad r.time ∧ ∀ t, c.PresentLoad t → r.time ≤ t := by
  have chosen := smallest_chosen c.lrReqIn c.lrTimeStampIn g.numLoads
  rw [State.acceptedLoads_eq] at member
  split_ifs at member
  · obtain ⟨j, selected, rfl⟩ := Option.map_eq_some_iff.mp (Option.mem_toList.mp member)
    obtain ⟨isPort, isReq⟩ := chosen.port j selected
    refine ⟨⟨j, isPort, isReq, rfl⟩, ?_⟩
    rintro t ⟨i, isPort', isReq', rfl⟩
    refine smallest_le g.wide (fun i inside k inside' req req' => ?_) selected i isPort' isReq'
    exact near _ _ (Or.inl ⟨i, inside, req, rfl⟩) (Or.inl ⟨k, inside', req', rfl⟩)
  · exact absurd member List.not_mem_nil

theorem acceptedStores_least (near : b.Near c) {r : StoreRequest g} (member : r ∈ b.state.acceptedStores c) :
    c.PresentStore r.time ∧ ∀ t, c.PresentStore t → r.time ≤ t := by
  have chosen := smallest_chosen c.srReqIn c.srTimeStampIn g.numStores
  rw [State.acceptedStores_eq] at member
  split_ifs at member
  · obtain ⟨j, selected, rfl⟩ := Option.map_eq_some_iff.mp (Option.mem_toList.mp member)
    obtain ⟨isPort, isReq⟩ := chosen.port j selected
    refine ⟨⟨j, isPort, isReq, rfl⟩, ?_⟩
    rintro t ⟨i, isPort', isReq', rfl⟩
    refine smallest_le g.wide (fun i inside k inside' req req' => ?_) selected i isPort' isReq'
    exact near _ _ (Or.inr (Or.inl ⟨i, inside, req, rfl⟩)) (Or.inr (Or.inl ⟨k, inside', req', rfl⟩))
  · exact absurd member List.not_mem_nil

theorem length_acceptedLoads : (b.state.acceptedLoads c).length ≤ 1 := by
  rw [State.acceptedLoads_eq]
  split_ifs
  · cases c.loadSelected <;> simp
  · exact Nat.zero_le _

theorem length_acceptedStores : (b.state.acceptedStores c).length ≤ 1 := by
  rw [State.acceptedStores_eq]
  split_ifs
  · cases c.storeSelected <;> simp
  · exact Nat.zero_le _

theorem pairwise_of_length_le_one {l : List Nat} (short : l.length ≤ 1) : l.Pairwise (· ≤ ·) := by
  match l, short with
  | [], _ => exact .nil
  | [t], _ => exact List.pairwise_singleton _ t

theorem Inv.priority (inv : b.Inv initial) (near : b.Near c) {r : LoadRequest g} {r' : StoreRequest g}
    {rest : List (LoadRequest g)} {rest' : List (StoreRequest g)} (load : b.waitingLoads = r :: rest)
    (store : b.waitingStores = r' :: rest') : b.state.writePriority c = true ↔ r'.time ≤ r.time := by
  have word : (b.state.lrrResponse c).dataOut = r.word := (inv.lrr_step false).dataOut _ (by rw [load]; rfl)
  have word' : (b.state.srrResponse c).dataOut = r'.word := (inv.srr_step false).dataOut _ (by rw [store]; rfl)
  have isLoad : b.Outstanding c r.time := Or.inr (Or.inr (Or.inl ⟨r, load ▸ List.mem_cons_self, rfl⟩))
  have isStore : b.Outstanding c r'.time := Or.inr (Or.inr (Or.inr ⟨r', store ▸ List.mem_cons_self, rfl⟩))
  rw [State.writePriority, inv.lrr_popAck, inv.srr_popAck, load, store, (LoadRequest.fields word).1,
    (StoreRequest.fields word').1]
  have compare := TimeStamp.isGreaterThan_ofNat g.wide (near _ _ isStore isLoad) (near _ _ isLoad isStore)
  have priority : writeHasPriority (BitVec.ofNat g.timeStampWidth r'.time) (BitVec.ofNat g.timeStampWidth r.time) true true =
      !isGreaterThan (BitVec.ofNat g.timeStampWidth r'.time) (BitVec.ofNat g.timeStampWidth r.time) := rfl
  change writeHasPriority _ _ true true = true ↔ _
  rw [priority, Bool.not_eq_true', ← Bool.not_eq_true, compare, not_lt]

/-- What the bank takes is no later than the oldest of both kinds. -/
theorem Inv.performed_least (inv : b.Inv initial) (near : b.Near c) : ∀ t ∈ (b.performed c).map Access.time,
    (∃ k, t ∈ b.merge.queue k) ∧ ∀ k u, (b.merge.queue k).head? = some u → t ≤ u := by
  intro t member
  cases inv.performs (c := c) with
  | load r rest reads _ oldest _ performed =>
      rw [performed] at member
      obtain rfl := List.mem_singleton.mp member
      refine ⟨⟨true, List.mem_map_of_mem (oldest ▸ List.mem_cons_self)⟩, fun k u head => ?_⟩
      cases k with
      | true =>
          rw [merge, oldest] at head
          exact le_of_eq (Option.some.inj head)
      | false =>
          cases other : b.waitingStores with
          | nil =>
              rw [merge, other] at head
              cases head
          | cons r' rest' =>
              rw [merge, other] at head
              obtain rfl := Option.some.inj head
              have there : (b.state.srrResponse c).popAck = true := by
                rw [inv.srr_popAck, other]
                rfl
              have priority := (State.readActive_iff.mp (State.readAck_active reads)).2 there
              have later : ¬ r'.time ≤ r.time := by
                rw [← inv.priority near oldest other, priority]
                exact Bool.false_ne_true
              exact le_of_lt (not_le.mp later)
  | store r rest _ writes oldest _ performed =>
      rw [performed] at member
      obtain rfl := List.mem_singleton.mp member
      refine ⟨⟨false, List.mem_map_of_mem (oldest ▸ List.mem_cons_self)⟩, fun k u head => ?_⟩
      cases k with
      | false =>
          rw [merge, oldest] at head
          exact le_of_eq (Option.some.inj head)
      | true =>
          cases other : b.waitingLoads with
          | nil =>
              rw [merge, other] at head
              cases head
          | cons r' rest' =>
              rw [merge, other] at head
              obtain rfl := Option.some.inj head
              have there : (b.state.lrrResponse c).popAck = true := by
                rw [inv.lrr_popAck, other]
                rfl
              exact (inv.priority near other oldest).mp ((State.writeActive_iff.mp (State.writeAck_active writes)).2 there)
  | idle _ _ performed =>
      rw [performed] at member
      exact absurd member List.not_mem_nil

theorem Inv.length_performed (inv : b.Inv initial) : ((b.performed c).map Access.time).length ≤ 1 := by
  cases inv.performs (c := c) with
  | load r rest _ _ _ _ performed => rw [performed]; exact Nat.le_refl 1
  | store r rest _ _ _ _ performed => rw [performed]; exact Nat.le_refl 1
  | idle _ _ performed => rw [performed]; exact Nat.zero_le 1

/-- A queue of two that takes in a word while it has room does not run empty. -/
theorem occupied {α : Type} {waiting accepted : List α} {pop : Bool} (popped : pop = true → waiting ≠ [])
    (pushed : waiting.length < 2 → accepted ≠ []) : (waiting ++ accepted).drop pop.toNat ≠ [] := by
  intro empty
  have length := congrArg List.length empty
  rw [List.length_drop, List.length_append, List.length_nil] at length
  have pushed' : waiting.length < 2 → 0 < accepted.length := fun room => List.length_pos_of_ne_nil (pushed room)
  cases pop with
  | true =>
      have some := List.length_pos_of_ne_nil (popped rfl)
      rw [Bool.toNat_true] at length
      by_cases room : waiting.length < 2
      · have := pushed' room
        omega
      · omega
  | false =>
      rw [Bool.toNat_false] at length
      by_cases room : waiting.length < 2
      · have := pushed' room
        omega
      · omega

theorem Inv.reads_some (inv : b.Inv initial) (reads : b.state.readAck c = true) : b.waitingLoads ≠ [] := by
  have there := (State.readActive_iff.mp (State.readAck_active reads)).1
  rw [inv.lrr_popAck] at there
  exact fun empty => by simp [empty] at there

theorem Inv.writes_some (inv : b.Inv initial) (writes : b.state.writeAck c = true) : b.waitingStores ≠ [] := by
  have there := (State.writeActive_iff.mp (State.writeAck_active writes)).1
  rw [inv.srr_popAck] at there
  exact fun empty => by simp [empty] at there

/-- While a load waits at its port there is one in the queue. -/
theorem Inv.loads_occupied (inv : b.Inv initial) {t : Nat} (present : c.PresentLoad t) : (b.next c).waitingLoads ≠ [] := by
  obtain ⟨i, isPort, isReq, -⟩ := present
  have pushAck : (b.state.lrrResponse c).pushAck = decide ((b.waitingLoads.map LoadRequest.word).length < 2) :=
    (inv.lrr_step false).pushAck
  refine occupied inv.reads_some fun room => ?_
  rw [State.acceptedLoads_eq, pushAck, List.length_map, decide_eq_true room, if_pos rfl]
  cases selected : c.loadSelected with
  | none =>
      rw [(smallest_chosen c.lrReqIn c.lrTimeStampIn g.numLoads).idle selected i isPort] at isReq
      cases isReq
  | some j => exact List.cons_ne_nil _ _

theorem Inv.stores_occupied (inv : b.Inv initial) {t : Nat} (present : c.PresentStore t) : (b.next c).waitingStores ≠ [] := by
  obtain ⟨i, isPort, isReq, -⟩ := present
  have pushAck : (b.state.srrResponse c).pushAck = decide ((b.waitingStores.map StoreRequest.word).length < 2) :=
    (inv.srr_step false).pushAck
  refine occupied inv.writes_some fun room => ?_
  rw [State.acceptedStores_eq, pushAck, List.length_map, decide_eq_true room, if_pos rfl]
  cases selected : c.storeSelected with
  | none =>
      rw [(smallest_chosen c.srReqIn c.srTimeStampIn g.numStores).idle selected i isPort] at isReq
      cases isReq
  | some j => exact List.cons_ne_nil _ _

theorem Inv.merges (inv : b.Inv initial) (arrives : b.Arrives c) (near : b.Near c) :
    b.merge.Step (b.next c).merge (fun k => if k then c.PresentLoad else c.PresentStore)
      (fun k => if k then (b.state.acceptedLoads c).map LoadRequest.time else (b.state.acceptedStores c).map StoreRequest.time)
      ((b.performed c).map Access.time) where
  arrives k t present := by
    cases k with
    | true =>
        obtain ⟨i, isPort, isReq, rfl⟩ := present
        exact (arrives.loads i isPort isReq).imp_left fun held => ⟨i, isPort, held⟩
    | false =>
        obtain ⟨i, isPort, isReq, rfl⟩ := present
        exact (arrives.stores i isPort isReq).imp_left fun held => ⟨i, isPort, held⟩
  pushes k := by
    cases k with
    | true =>
        refine ⟨pairwise_of_length_le_one (by rw [if_pos rfl, List.length_map]; exact length_acceptedLoads), fun t member => ?_⟩
        obtain ⟨r, accepted, rfl⟩ := List.mem_map.mp member
        exact acceptedLoads_least near accepted
    | false =>
        refine ⟨pairwise_of_length_le_one (by rw [if_neg Bool.false_ne_true, List.length_map]; exact length_acceptedStores),
          fun t member => ?_⟩
        obtain ⟨r, accepted, rfl⟩ := List.mem_map.mp member
        exact acceptedStores_least near accepted
  takes := ⟨pairwise_of_length_le_one inv.length_performed, inv.performed_least near⟩
  queue k := by
    cases k with
    | true =>
        rw [if_pos rfl, merge, merge, ← List.map_append]
        exact (List.drop_suffix _ _).map _
    | false =>
        rw [if_neg Bool.false_ne_true, merge, merge, ← List.map_append]
        exact (List.drop_suffix _ _).map _
  taken := List.map_append
  seen t known := by
    refine seen_next.mpr (known.imp_right ?_)
    rintro ⟨k, present⟩
    cases k with
    | true => exact Or.inl present
    | false => exact Or.inr present
  waits k t waits := by
    cases k with
    | true =>
        obtain ⟨i, isPort, held⟩ := waits
        obtain ⟨isReq, -, time⟩ := loadHeld_next.mp held
        exact ⟨i, isPort, isReq, time⟩
    | false =>
        obtain ⟨i, isPort, held⟩ := waits
        obtain ⟨isReq, -, time⟩ := storeHeld_next.mp held
        exact ⟨i, isPort, isReq, time⟩
  occupied k t waits := by
    cases k with
    | true =>
        obtain ⟨i, isPort, held⟩ := waits
        obtain ⟨isReq, -, time⟩ := loadHeld_next.mp held
        exact fun empty => inv.loads_occupied ⟨i, isPort, isReq, time⟩ (List.map_eq_nil_iff.mp empty)
    | false =>
        obtain ⟨i, isPort, held⟩ := waits
        obtain ⟨isReq, -, time⟩ := storeHeld_next.mp held
        exact fun empty => inv.stores_occupied ⟨i, isPort, isReq, time⟩ (List.map_eq_nil_iff.mp empty)

theorem ordered_start (s : State g) : (start s).merge.Ordered := by
  have noLoad : ∀ i t, ¬ (start s).LoadHeld i t := fun i t ⟨_, _, found, _⟩ => by cases found
  have noStore : ∀ i t, ¬ (start s).StoreHeld i t := fun i t ⟨_, _, found, _⟩ => by cases found
  have none : ∀ k t, ¬ (start s).merge.waits k t := fun k t waits => by
    cases k with
    | true =>
        obtain ⟨i, -, held⟩ := waits
        exact noLoad i t held
    | false =>
        obtain ⟨i, -, held⟩ := waits
        exact noStore i t held
  have empty : ∀ k, (start s).merge.queue k = [] := fun k => by cases k <;> rfl
  refine ⟨.nil, fun k => ?_, ?_, fun k t member => ?_, ?_, ?_, fun k x member => ?_, fun k t waits => absurd waits (none k t)⟩
  · rw [empty]
    exact .nil
  · exact fun t member => absurd member List.not_mem_nil
  · rw [empty] at member
    exact absurd member List.not_mem_nil
  · exact fun t member => absurd member List.not_mem_nil
  · exact fun t member => absurd member List.not_mem_nil
  · rw [empty] at member
    exact absurd member List.not_mem_nil

theorem Inv.ordered : ∀ (cs : List (Cycle g)) {b : Books g}, b.Inv initial → b.merge.Ordered → b.Timely cs →
    (b.run cs).merge.Ordered := by
  intro cs
  induction cs with
  | nil => exact fun _ ordered _ => ordered
  | cons c cs ih =>
      intro b inv ordered timely
      obtain ⟨arrives, near, rest⟩ := timely
      exact ih (inv.next c) (ordered.step (inv.merges arrives near)) rest

end Books

/-! ### What a load returns -/

def Access.lastStored (addr : BitVec g.addrWidth) : List (Access g) → Option (BitVec g.dataWidth)
  | [] => none
  | .load _ _ :: rest => lastStored addr rest
  | .store r :: rest => (lastStored addr rest).orElse fun _ => if r.addr = addr then some r.data else none

theorem Access.foldl_apply (addr : BitVec g.addrWidth) : ∀ (log : List (Access g))
    (memory : BitVec g.addrWidth → BitVec g.dataWidth), log.foldl apply memory addr = (lastStored addr log).getD (memory addr) := by
  intro log
  induction log with
  | nil => exact fun _ => rfl
  | cons access log ih =>
      intro memory
      rw [List.foldl_cons, ih]
      cases access with
      | load r word => rfl
      | store r =>
          rw [lastStored]
          cases lastStored addr log with
          | some data => rfl
          | none =>
              by_cases here : r.addr = addr
              · subst here
                rw [if_pos rfl]
                exact Function.update_self _ _ _
              · rw [if_neg here]
                exact Function.update_of_ne (Ne.symm here) _ _

/-- The accesses are in the order of time, and each load has the data of the last store to its
address before it, or what was there at the start. -/
structure InTimeOrder (initial : BitVec g.addrWidth → BitVec g.dataWidth) (log : List (Access g)) : Prop where
  sorted : log.Pairwise fun x y => x.time ≤ y.time
  words : ∀ before r word after, log = before ++ .load r word :: after →
    word = (Access.lastStored r.addr before).getD (initial r.addr)

namespace Books
variable {b : Books g} {c : Cycle g} {initial : BitVec g.addrWidth → BitVec g.dataWidth}

theorem Inv.words_next (inv : b.Inv initial)
    (words : ∀ before r word after, b.log = before ++ .load r word :: after →
      word = (Access.lastStored r.addr before).getD (initial r.addr)) :
    ∀ before r word after, (b.next c).log = before ++ .load r word :: after →
      word = (Access.lastStored r.addr before).getD (initial r.addr) := by
  intro before r word after split
  have log : (b.next c).log = b.log ++ b.performed c := rfl
  rw [log] at split
  -- what is performed now is the last of the log
  have last : ∀ access, b.performed c = [access] → access = .load r word ∧ before = b.log ∨
      ∃ after', b.log = before ++ .load r word :: after' := fun access performed => by
    rw [performed] at split
    rcases List.eq_nil_or_concat after with rfl | ⟨after', final, rfl⟩
    · obtain ⟨same, same'⟩ := List.append_inj' split rfl
      exact Or.inl ⟨(List.cons.inj same').1, same.symm⟩
    · rw [List.concat_eq_append, ← List.cons_append, ← List.append_assoc] at split
      exact Or.inr ⟨after', (List.append_inj' split rfl).1⟩
  cases inv.performs (c := c) with
  | load r' rest _ _ _ _ performed =>
      rcases last _ performed with ⟨same, rfl⟩ | ⟨after', there⟩
      · obtain ⟨rfl, rfl⟩ := Access.load.inj same
        rw [inv.contents, Access.foldl_apply]
      · exact words _ _ _ _ there
  | store r' rest _ _ _ _ performed =>
      rcases last _ performed with ⟨same, -⟩ | ⟨after', there⟩
      · cases same
      · exact words _ _ _ _ there
  | idle _ _ performed =>
      rw [performed, List.append_nil] at split
      exact words _ _ _ _ split

theorem Inv.words : ∀ (cs : List (Cycle g)) {b : Books g}, b.Inv initial →
    (∀ before r word after, b.log = before ++ .load r word :: after →
      word = (Access.lastStored r.addr before).getD (initial r.addr)) →
    ∀ before r word after, (b.run cs).log = before ++ .load r word :: after →
      word = (Access.lastStored r.addr before).getD (initial r.addr) := by
  intro cs
  induction cs with
  | nil => exact fun _ words => words
  | cons c cs ih => exact fun inv words => ih (inv.next c) (inv.words_next words)

end Books

/-! ### When no more requests come -/

structure Cycle.Quiet (c : Cycle g) : Prop where
  loads : ∀ i < g.numLoads, c.lrReqIn i = false
  stores : ∀ i < g.numStores, c.srReqIn i = false

/-- Cycles without requests in which every port takes a completion at some time. -/
structure Round (cs : List (Cycle g)) : Prop where
  nonempty : cs ≠ []
  quiet : ∀ c ∈ cs, c.Quiet
  loads : ∀ i < g.numLoads, ∃ c ∈ cs, c.lcReqIn i = true
  stores : ∀ i < g.numStores, ∃ c ∈ cs, c.scReqIn i = true

namespace Books
variable {b : Books g} {c : Cycle g} {initial : BitVec g.addrWidth → BitVec g.dataWidth}

/-- The work that is left: a request has the bank and its port before it. -/
def left (b : Books g) : Nat :=
  2 * (b.waitingLoads.length + b.waitingStores.length) + b.state.bank.pendingLoad.length + b.state.bank.pendingStore.length

def Ready (b : Books g) (c : Cycle g) : Bool := b.state.bank.ready (b.state.bankCycle c)

theorem pendings_le (b : Books g) : b.state.bank.pendingLoad.length + b.state.bank.pendingStore.length ≤ 1 := by
  unfold MemoryBank.State.pendingLoad MemoryBank.State.pendingStore MemoryBank.State.readResultReady
    MemoryBank.State.writeResultReady
  cases b.state.bank.fsmState <;> simp

theorem quiet_waiting (quiet : c.Quiet) :
    (b.next c).waitingLoads = b.waitingLoads.drop (b.state.readAck c).toNat ∧
      (b.next c).waitingStores = b.waitingStores.drop (b.state.writeAck c).toNat := by
  have loads : b.state.acceptedLoads c = [] := by
    rw [State.acceptedLoads, List.filter_eq_nil_iff.mpr, List.map_nil]
    intro i member
    rw [quiet.loads i (List.mem_range.mp member), Bool.false_and]
    exact Bool.false_ne_true
  have stores : b.state.acceptedStores c = [] := by
    rw [State.acceptedStores, List.filter_eq_nil_iff.mpr, List.map_nil]
    intro i member
    rw [quiet.stores i (List.mem_range.mp member), Bool.false_and]
    exact Bool.false_ne_true
  refine ⟨?_, ?_⟩
  · change (b.waitingLoads ++ b.state.acceptedLoads c).drop _ = _
    rw [loads, List.append_nil]
  · change (b.waitingStores ++ b.state.acceptedStores c).drop _ = _
    rw [stores, List.append_nil]

theorem refused (quiet : c.Quiet) (refuses : b.Ready c = false) :
    (b.next c).left = b.left ∧ ∀ d, (b.next c).Ready d = b.Ready d := by
  have reads : b.state.readAck c = false := by
    change b.state.bank.readAck _ = false
    unfold Ready at refuses
    rw [MemoryBank.State.readAck, refuses]
    rfl
  have writes : b.state.writeAck c = false := by
    change b.state.bank.writeAck _ = false
    unfold Ready at refuses
    rw [MemoryBank.State.writeAck, refuses]
    rfl
  have fsm : (b.next c).state.bank.fsmState = b.state.bank.fsmState := by
    change b.state.bank.nextFsmState _ = _
    unfold Ready at refuses
    rw [MemoryBank.State.nextFsmState, refuses]
    rfl
  change b.state.bank.readAck _ = false at reads
  change b.state.bank.writeAck _ = false at writes
  have enable : b.state.bank.enableSig (b.state.bankCycle c) = false := by
    rw [MemoryBank.State.enableSig, reads, writes]
    rfl
  have readTag : (b.next c).state.bank.readTagOut = b.state.bank.readTagOut := by
    change (if b.state.bank.enableSig _ && _ then _ else _) = _
    rw [enable]
    rfl
  have writeTag : (b.next c).state.bank.writeTagOut = b.state.bank.writeTagOut := by
    change (if b.state.bank.enableSig _ && _ then _ else _) = _
    rw [enable]
    rfl
  obtain ⟨loads, stores⟩ := quiet_waiting (b := b) quiet
  change _ = b.waitingLoads.drop (b.state.bank.readAck _).toNat at loads
  change _ = b.waitingStores.drop (b.state.bank.writeAck _).toNat at stores
  rw [reads] at loads
  rw [writes] at stores
  constructor
  · have load : (b.next c).state.bank.pendingLoad.length = b.state.bank.pendingLoad.length := by
      unfold MemoryBank.State.pendingLoad MemoryBank.State.readResultReady
      rw [fsm]
      split_ifs <;> rfl
    have store : (b.next c).state.bank.pendingStore.length = b.state.bank.pendingStore.length := by
      unfold MemoryBank.State.pendingStore MemoryBank.State.writeResultReady
      rw [fsm]
      split_ifs <;> rfl
    rw [left, left, loads, stores, load, store]
    rfl
  · intro d
    have accept : (b.next c).state.loadCompleteAccept d = b.state.loadCompleteAccept d := by
      unfold State.loadCompleteAccept State.loadCompleteId
      rw [readTag]
    have accept' : (b.next c).state.storeCompleteAccept d = b.state.storeCompleteAccept d := by
      unfold State.storeCompleteAccept State.storeCompleteId
      rw [writeTag]
    unfold Ready MemoryBank.State.ready
    rw [fsm]
    cases b.state.bank.fsmState with
    | idle => rfl
    | rdone => exact accept
    | wdone => exact accept'

/-- A cycle in which the bank looks at the requests takes some of the work, or leaves none. -/
theorem Inv.ready_less (inv : b.Inv initial) (quiet : c.Quiet) (ready : b.Ready c = true) :
    (b.next c).left < b.left ∨ (b.next c).left = 0 := by
  obtain ⟨loads, stores⟩ := quiet_waiting (b := b) quiet
  have pendings := (b.next c).pendings_le
  cases inv.performs (c := c) with
  | load r rest reads writes oldest =>
      left
      rw [reads, oldest] at loads
      rw [writes] at stores
      change _ = rest at loads
      change _ = b.waitingStores at stores
      rw [left, left, loads, stores, oldest, List.length_cons]
      omega
  | store r rest reads writes oldest =>
      left
      rw [reads] at loads
      rw [writes, oldest] at stores
      change _ = b.waitingLoads at loads
      change _ = rest at stores
      rw [left, left, loads, stores, oldest, List.length_cons]
      omega
  | idle reads writes =>
      right
      have noWrite : b.state.writeActive c = false := by
        change b.state.bank.writeAck _ = false at writes
        have enable : (b.state.bankCycle c).writeEnable = b.state.writeActive c := rfl
        unfold Ready at ready
        rw [MemoryBank.State.writeAck, ready, MemoryBank.State.writeActive, enable] at writes
        cases active : b.state.writeActive c <;> simp [active] at writes ⊢
      have noRead : b.state.readActive c = false := by
        change b.state.bank.readAck _ = false at reads
        have enable : (b.state.bankCycle c).readEnable = b.state.readActive c := rfl
        have enable' : (b.state.bankCycle c).writeEnable = b.state.writeActive c := rfl
        unfold Ready at ready
        rw [MemoryBank.State.readAck, ready, MemoryBank.State.readActive, MemoryBank.State.writeActive, enable, enable',
          noWrite] at reads
        cases active : b.state.readActive c <;> simp [active] at reads ⊢
      have none : (b.state.lrrResponse c).popAck = false ∧ (b.state.srrResponse c).popAck = false := by
        unfold State.writeActive at noWrite
        unfold State.readActive at noRead
        cases load : (b.state.lrrResponse c).popAck <;> cases store : (b.state.srrResponse c).popAck <;>
          cases priority : b.state.writePriority c <;> simp [load, store, priority] at noWrite noRead ⊢
      rw [inv.lrr_popAck, inv.srr_popAck, Bool.not_eq_false', Bool.not_eq_false', List.isEmpty_iff, List.isEmpty_iff] at none
      have fsm : (b.next c).state.bank.fsmState = .idle := by
        change b.state.bank.nextFsmState _ = _
        have enable : (b.state.bankCycle c).readEnable = b.state.readActive c := rfl
        have enable' : (b.state.bankCycle c).writeEnable = b.state.writeActive c := rfl
        unfold Ready at ready
        rw [MemoryBank.State.nextFsmState, ready, MemoryBank.State.readActive, MemoryBank.State.writeActive, enable, enable',
          noWrite, noRead]
        rfl
      have load : (b.next c).state.bank.pendingLoad = [] := by
        rw [MemoryBank.State.pendingLoad, MemoryBank.State.readResultReady, fsm]
        rfl
      have store : (b.next c).state.bank.pendingStore = [] := by
        rw [MemoryBank.State.pendingStore, MemoryBank.State.writeResultReady, fsm]
        rfl
      rw [left, loads, stores, load, store, none.1, none.2, List.drop_nil, List.drop_nil]
      rfl

theorem Inv.left_le (inv : b.Inv initial) (quiet : c.Quiet) : (b.next c).left ≤ b.left := by
  cases ready : b.Ready c with
  | false => exact le_of_eq (refused quiet ready).1
  | true => rcases inv.ready_less quiet ready with less | none <;> omega

theorem Inv.left_run_le : ∀ (cs : List (Cycle g)) {b : Books g}, b.Inv initial → (∀ c ∈ cs, c.Quiet) →
    (b.run cs).left ≤ b.left := by
  intro cs
  induction cs with
  | nil => exact fun _ _ => le_refl _
  | cons c cs ih =>
      intro b inv quiet
      exact le_trans (ih (inv.next c) fun d member => quiet d (List.mem_cons_of_mem _ member))
        (inv.left_le (quiet c List.mem_cons_self))

theorem Inv.left_run_lt : ∀ (cs : List (Cycle g)) {b : Books g}, b.Inv initial → (∀ c ∈ cs, c.Quiet) →
    (∃ c ∈ cs, b.Ready c = true) → (b.run cs).left < b.left ∨ (b.run cs).left = 0 := by
  intro cs
  induction cs with
  | nil => exact fun _ _ ⟨_, member, _⟩ => absurd member List.not_mem_nil
  | cons c cs ih =>
      intro b inv quiet ⟨d, member, readyLater⟩
      have quietLater : ∀ c ∈ cs, c.Quiet := fun d member => quiet d (List.mem_cons_of_mem _ member)
      cases ready : b.Ready c with
      | true =>
          have later := Inv.left_run_le cs (inv.next c) quietLater
          change ((b.next c).run cs).left < b.left ∨ ((b.next c).run cs).left = 0
          rcases inv.ready_less (quiet c List.mem_cons_self) ready with less | none <;> omega
      | false =>
          obtain ⟨same, readies⟩ := refused (b := b) (quiet c List.mem_cons_self) ready
          have there : d ∈ cs := by
            rcases List.mem_cons.mp member with rfl | there
            · rw [ready] at readyLater
              cases readyLater
            · exact there
          have rest := ih (inv.next c) quietLater ⟨d, there, (readies d).trans readyLater⟩
          rw [same] at rest
          exact rest

theorem Inv.round_ready (inv : b.Inv initial) {cs : List (Cycle g)} (round : Round cs) : ∃ c ∈ cs, b.Ready c = true := by
  cases fsm : b.state.bank.fsmState with
  | idle =>
      obtain ⟨c, member⟩ := List.exists_mem_of_ne_nil _ round.nonempty
      exact ⟨c, member, by rw [Ready, MemoryBank.State.ready, fsm]⟩
  | rdone =>
      have pending : (b.state.bank.readTagOut, b.state.bank.readData) ∈ b.state.bank.pendingLoad := by
        rw [MemoryBank.State.pendingLoad, MemoryBank.State.readResultReady, fsm]
        exact List.mem_singleton_self _
      obtain ⟨i, isPort, named⟩ := inv.loadHomed _ pending
      obtain ⟨c, member, takes⟩ := round.loads i isPort
      refine ⟨c, member, ?_⟩
      rw [Ready, MemoryBank.State.ready, fsm]
      exact List.any_eq_true.mpr ⟨i, List.mem_range.mpr isPort, by rw [State.loadCompleteId, named, takes]; simp⟩
  | wdone =>
      have pending : b.state.bank.writeTagOut ∈ b.state.bank.pendingStore := by
        rw [MemoryBank.State.pendingStore, MemoryBank.State.writeResultReady, fsm]
        exact List.mem_singleton_self _
      obtain ⟨i, isPort, named⟩ := inv.storeHomed _ pending
      obtain ⟨c, member, takes⟩ := round.stores i isPort
      refine ⟨c, member, ?_⟩
      rw [Ready, MemoryBank.State.ready, fsm]
      exact List.any_eq_true.mpr ⟨i, List.mem_range.mpr isPort, by rw [State.storeCompleteId, named, takes]; simp⟩

theorem Inv.rounds : ∀ (rounds : List (List (Cycle g))) {b : Books g}, b.Inv initial → (∀ r ∈ rounds, Round r) →
    b.left ≤ rounds.length → (b.run rounds.flatten).left = 0 := by
  intro rounds
  induction rounds with
  | nil => exact fun _ _ enough => Nat.le_zero.mp enough
  | cons r rounds ih =>
      intro b inv all enough
      have round := all r List.mem_cons_self
      have run : b.run (r :: rounds).flatten = (b.run r).run rounds.flatten := List.foldl_append
      rw [run]
      rw [List.length_cons] at enough
      refine ih (inv.run r) (fun later member => all later (List.mem_cons_of_mem _ member)) ?_
      rcases Inv.left_run_lt r inv round.quiet (inv.round_ready round) with less | none <;> omega

end Books

structure Accounts (b : Books g) : Prop where
  /-- Every request that is acknowledged is performed once, or waits. -/
  loads : b.acceptedLoads = b.log.filterMap Access.loadRequest ++ b.waitingLoads
  stores : b.acceptedStores = b.log.filterMap Access.storeRequest ++ b.waitingStores
  /-- What completes at a port is what was performed for it, in its order, up to what waits. -/
  loadResults : ∀ i < g.numLoads, b.loadResults i <+: b.log.filterMap (Access.loadResult i)
  storeResults : ∀ i < g.numStores, b.storeResults i <+: b.log.filterMap (Access.storeResult i)

structure Served (b : Books g) : Prop where
  loads : b.log.filterMap Access.loadRequest = b.acceptedLoads
  stores : b.log.filterMap Access.storeRequest = b.acceptedStores
  loadResults : ∀ i < g.numLoads, b.loadResults i = b.log.filterMap (Access.loadResult i)
  storeResults : ∀ i < g.numStores, b.storeResults i = b.log.filterMap (Access.storeResult i)

namespace Books
variable {b : Books g} {initial : BitVec g.addrWidth → BitVec g.dataWidth}

theorem Inv.accounts (inv : b.Inv initial) : Accounts b where
  loads := inv.loads
  stores := inv.stores
  loadResults i isPort := ⟨_, (inv.loadResults i isPort).symm⟩
  storeResults i isPort := ⟨_, (inv.storeResults i isPort).symm⟩

theorem Inv.served (inv : b.Inv initial) (none : b.left = 0) : Served b := by
  unfold left at none
  have loads : b.waitingLoads = [] := List.eq_nil_of_length_eq_zero (by omega)
  have stores : b.waitingStores = [] := List.eq_nil_of_length_eq_zero (by omega)
  have load : b.state.bank.pendingLoad = [] := List.eq_nil_of_length_eq_zero (by omega)
  have store : b.state.bank.pendingStore = [] := List.eq_nil_of_length_eq_zero (by omega)
  refine ⟨?_, ?_, fun i isPort => ?_, fun i isPort => ?_⟩
  · rw [inv.loads, loads, List.append_nil]
  · rw [inv.stores, stores, List.append_nil]
  · rw [inv.loadResults i isPort, load]
    exact (List.append_nil _).symm
  · rw [inv.storeResults i isPort, store]
    exact (List.append_nil _).symm

end Books

/-- In a timely run from reset the accesses are performed in the order of time and nothing is
lost or duplicated; once no more requests come, so many rounds of completions later everything
that was accepted is served. -/
theorem orderedMemory_inOrder (s₀ : State g) (c₀ : Cycle g) (cs : List (Cycle g))
    (timely : (Books.start (s₀.reset c₀)).Timely cs) :
    let b := (Books.start (s₀.reset c₀)).run cs
    InTimeOrder (s₀.reset c₀).contents b.log ∧ Accounts b ∧
      b.state.contents = b.log.foldl Access.apply (s₀.reset c₀).contents ∧
        ∃ enough, ∀ rounds : List (List (Cycle g)), (∀ r ∈ rounds, Round r) → enough ≤ rounds.length →
          Served (b.run rounds.flatten) := by
  intro b
  have start := Books.inv_start s₀ c₀
  have inv : b.Inv (s₀.reset c₀).contents := start.run cs
  have ordered := Books.Inv.ordered cs start (Books.ordered_start _) timely
  refine ⟨⟨List.pairwise_map.mp ordered.taken, ?_⟩, inv.accounts, inv.contents, b.left, fun rounds all enough => ?_⟩
  · exact Books.Inv.words cs start fun before r word after split => absurd split (by simp [Books.start])
  · exact (inv.run rounds.flatten).served (Books.Inv.rounds rounds inv all enough)

/-- A load port with a later request than the store port, and then no more requests. -/
def twoPorts : Generics := ⟨1, 1, 1, 1, 1, 3, Nat.one_pos, Nat.lt_succ_self 2⟩

def twoPortsStart : State twoPorts where
  lrr := (⟨fun _ => 0, 0, 0, .emptyState⟩ : RingState _)
  srr := (⟨fun _ => 0, 0, 0, .emptyState⟩ : RingState _)
  bank := ⟨.idle, false, 0, 0, 0, ⟨fun _ _ => ⟨fun _ => 0, 0, false, 0⟩, fun _ _ => false, false⟩⟩

def twoPortsCycle (requests : Bool) : Cycle twoPorts where
  lrAddrIn _ := 1
  lrTagIn _ := 0
  lrTime _ := 9
  lrReqIn _ := requests
  lcReqIn _ := true
  srAddrIn _ := 1
  srDataIn _ := 1
  srTagIn _ := 1
  srTime _ := 7
  srReqIn _ := requests
  scReqIn _ := true

theorem twoPorts_near {b : Books twoPorts} (requests : Bool) (loads : ∀ r ∈ b.waitingLoads, r.time = 9)
    (stores : ∀ r ∈ b.waitingStores, r.time = 7) : b.Near (twoPortsCycle requests) := by
  have known : ∀ t, b.Outstanding (twoPortsCycle requests) t → t = 9 ∨ t = 7 := by
    rintro t (⟨_, _, _, rfl⟩ | ⟨_, _, _, rfl⟩ | ⟨r, member, rfl⟩ | ⟨r, member, rfl⟩)
    · exact Or.inl rfl
    · exact Or.inr rfl
    · exact Or.inl (loads r member)
    · exact Or.inr (stores r member)
  intro t u outstanding outstanding'
  rcases known t outstanding with rfl | rfl <;> rcases known u outstanding' with rfl | rfl <;> decide

theorem twoPorts_arrives (b : Books twoPorts) : b.Arrives (twoPortsCycle false) :=
  ⟨fun _ _ req => absurd req Bool.false_ne_true, fun _ _ req => absurd req Bool.false_ne_true⟩

/-- The stamp of time 9 is 1, that of time 7 is 7: the store comes first, and the load has its data. -/
theorem orderedMemory_inOrder_twoPorts :
    let start := twoPortsStart.reset (twoPortsCycle false)
    let b := (Books.start start).run [twoPortsCycle true, twoPortsCycle false, twoPortsCycle false, twoPortsCycle false]
    b.log.map Access.time = [7, 9] ∧ b.loadResults 0 = [(1, 0)] ∧ InTimeOrder start.contents b.log := by
  intro start b
  have none : ∀ t, ¬ (Books.start start).Seen t := fun t ⟨_, member, _⟩ => List.not_mem_nil member
  have first : (Books.start start).Arrives (twoPortsCycle true) :=
    ⟨fun _ _ _ => Or.inr fun t seen => absurd seen (none t), fun _ _ _ => Or.inr fun t seen => absurd seen (none t)⟩
  refine ⟨by decide +kernel, by decide +kernel, (orderedMemory_inOrder twoPortsStart (twoPortsCycle false) _ ?_).1⟩
  exact ⟨first, twoPorts_near true (by decide) (by decide), twoPorts_arrives _,
    twoPorts_near false (by decide +kernel) (by decide +kernel), twoPorts_arrives _,
    twoPorts_near false (by decide +kernel) (by decide +kernel), twoPorts_arrives _,
    twoPorts_near false (by decide +kernel) (by decide +kernel), trivial⟩

end Ahir.Hardware.OrderedMemory
