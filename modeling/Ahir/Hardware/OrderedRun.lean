import Ahir.Hardware.OrderedRequests
import Ahir.Run.TimeMerge

/-!
# Runs of the ordered memory

The books of a run note what the ports are promised, what the bank performs and what the
ports get; every cycle keeps them balanced.
-/

set_option autoImplicit false

namespace Ahir.Hardware.OrderedMemory
open UnorderedMemory (extractLsb'_append_low extractLsb'_append_high)
variable {g : Generics}

/-- An access of the bank; a load with the word that was there. -/
inductive Access (g : Generics) where
  | load (r : LoadRequest g) (word : BitVec g.dataWidth)
  | store (r : StoreRequest g)

namespace Access

def time : Access g → Nat
  | load r _ => r.time
  | store r => r.time

def loadRequest : Access g → Option (LoadRequest g)
  | load r _ => some r
  | store _ => none

def storeRequest : Access g → Option (StoreRequest g)
  | load _ _ => none
  | store r => some r

/-- The completion that a load of port `i` should have. -/
def loadResult (i : Nat) : Access g → Option (BitVec g.dataWidth × BitVec g.tagWidth)
  | load r word => if r.port = i then some (word, r.tag) else none
  | store _ => none

def storeResult (i : Nat) : Access g → Option (BitVec g.tagWidth)
  | load _ _ => none
  | store r => if r.port = i then some r.tag else none

def apply (memory : BitVec g.addrWidth → BitVec g.dataWidth) : Access g → BitVec g.addrWidth → BitVec g.dataWidth
  | load _ _ => memory
  | store r => Function.update memory r.addr r.data

end Access

namespace State
variable (s : State g) (c : Cycle g)

def acceptedLoads : List (LoadRequest g) :=
  ((List.range g.numLoads).filter fun i => c.lrReqIn i && s.lrAckOut c i).map c.loadRequest

def acceptedStores : List (StoreRequest g) :=
  ((List.range g.numStores).filter fun i => c.srReqIn i && s.srAckOut c i).map c.storeRequest

def completedLoad (i : Nat) : List (BitVec g.dataWidth × BitVec g.tagWidth) :=
  if c.lcReqIn i && s.lcAckOut i then [(s.bank.readData, s.loadCompleteTag)] else []

def completedStore (i : Nat) : List (BitVec g.tagWidth) :=
  if c.scReqIn i && s.scAckOut i then [s.storeCompleteTag] else []

end State

/-- A state with what has been seen on the way to it. -/
structure Books (g : Generics) where
  state : State g
  history : List (State g × Cycle g)
  acceptedLoads : List (LoadRequest g)
  acceptedStores : List (StoreRequest g)
  /-- Accepted and not performed yet. -/
  waitingLoads : List (LoadRequest g)
  waitingStores : List (StoreRequest g)
  log : List (Access g)
  loadResults : Nat → List (BitVec g.dataWidth × BitVec g.tagWidth)
  storeResults : Nat → List (BitVec g.tagWidth)

namespace Books

def start (s : State g) : Books g := ⟨s, [], [], [], [], [], [], fun _ => [], fun _ => []⟩

variable (b : Books g) (c : Cycle g)

/-- The oldest request of the kind that the bank acknowledges. -/
def performed : List (Access g) :=
  if b.state.writeAck c then b.waitingStores.head?.toList.map .store
  else if b.state.readAck c then b.waitingLoads.head?.toList.map fun r => .load r (b.state.contents r.addr)
  else []

def next : Books g where
  state := b.state.next c
  history := b.history ++ [(b.state, c)]
  acceptedLoads := b.acceptedLoads ++ b.state.acceptedLoads c
  acceptedStores := b.acceptedStores ++ b.state.acceptedStores c
  waitingLoads := (b.waitingLoads ++ b.state.acceptedLoads c).drop (b.state.readAck c).toNat
  waitingStores := (b.waitingStores ++ b.state.acceptedStores c).drop (b.state.writeAck c).toNat
  log := b.log ++ b.performed c
  loadResults i := b.loadResults i ++ b.state.completedLoad c i
  storeResults i := b.storeResults i ++ b.state.completedStore c i

def run (b : Books g) (cs : List (Cycle g)) : Books g := cs.foldl next b

end Books

/-! ### Ports -/

theorem le_two_pow_loadPortIdWidth (g : Generics) : g.numLoads ≤ 2 ^ g.loadPortIdWidth :=
  le_trans (PipelinedMux.le_pow_ceilLog g.numLoads (Nat.le_refl 2)) (Nat.pow_le_pow_right Nat.two_pos (le_max_right _ _))

theorem le_two_pow_storePortIdWidth (g : Generics) : g.numStores ≤ 2 ^ g.storePortIdWidth :=
  le_trans (PipelinedMux.le_pow_ceilLog g.numStores (Nat.le_refl 2)) (Nat.pow_le_pow_right Nat.two_pos (le_max_right _ _))

theorem ofNat_inj_of_lt {w ports i j : Nat} (fits : ports ≤ 2 ^ w) (isPort : i < ports) (isPort' : j < ports) :
    BitVec.ofNat w i = BitVec.ofNat w j ↔ i = j := by
  constructor
  · intro same
    have numbers := congrArg BitVec.toNat same
    rwa [BitVec.toNat_ofNat, BitVec.toNat_ofNat, Nat.mod_eq_of_lt (by omega), Nat.mod_eq_of_lt (by omega)] at numbers
  · exact congrArg _

theorem any_named {w ports i : Nat} (fits : ports ≤ 2 ^ w) (isPort : i < ports) (req : Nat → Bool) :
    ((List.range ports).any fun j => decide (BitVec.ofNat w i = BitVec.ofNat w j) && req j) = req i := by
  rw [Bool.eq_iff_iff, List.any_eq_true]
  constructor
  · rintro ⟨j, member, found⟩
    obtain ⟨same, asked⟩ := Bool.and_eq_true_iff.mp found
    rw [decide_eq_true_iff, ofNat_inj_of_lt fits isPort (List.mem_range.mp member)] at same
    exact same ▸ asked
  · exact fun asked => ⟨i, List.mem_range.mpr isPort, by rw [asked, decide_eq_true rfl, Bool.true_and]⟩

theorem filter_port {w ports j : Nat} (fits : ports ≤ 2 ^ w) (reqIn : Nat → Bool) (isPort : j < ports) (isReq : reqIn j = true)
    (ack : Bool) : (List.range ports).filter (fun i => reqIn i && (ack && decide (BitVec.ofNat w j = BitVec.ofNat w i))) =
      if ack then [j] else [] := by
  have found : ∀ i ∈ List.range ports, (reqIn i && (ack && decide (BitVec.ofNat w j = BitVec.ofNat w i))) = (ack && i == j) := by
    intro i member
    have same : decide (BitVec.ofNat w j = BitVec.ofNat w i) = (i == j) := by
      rw [Bool.eq_iff_iff, decide_eq_true_iff, ofNat_inj_of_lt fits isPort (List.mem_range.mp member), beq_iff_eq, eq_comm]
    rw [same]
    by_cases here : i = j
    · subst here
      rw [isReq, Bool.true_and]
    · rw [beq_eq_false_iff_ne.mpr here, Bool.and_false, Bool.and_false]
  rw [List.filter_congr found]
  cases ack with
  | false => simp
  | true =>
      simp only [Bool.true_and, if_true]
      rw [List.filter_beq, List.count_eq_one_of_mem List.nodup_range (List.mem_range.mpr isPort)]
      rfl

namespace State
variable (s : State g) (c : Cycle g)

theorem acceptedLoads_eq : s.acceptedLoads c =
    if (s.lrrResponse c).pushAck then (c.loadSelected.map c.loadRequest).toList else [] := by
  have chosen := smallest_chosen c.lrReqIn c.lrTimeStampIn g.numLoads
  unfold acceptedLoads lrAckOut
  cases selected : c.loadSelected with
  | none => simp
  | some j =>
      obtain ⟨isPort, isReq⟩ := chosen.port j selected
      simp only
      rw [filter_port (le_two_pow_loadPortIdWidth g) c.lrReqIn isPort isReq]
      split_ifs <;> rfl

theorem acceptedStores_eq : s.acceptedStores c =
    if (s.srrResponse c).pushAck then (c.storeSelected.map c.storeRequest).toList else [] := by
  have chosen := smallest_chosen c.srReqIn c.srTimeStampIn g.numStores
  unfold acceptedStores srAckOut
  cases selected : c.storeSelected with
  | none => simp
  | some j =>
      obtain ⟨isPort, isReq⟩ := chosen.port j selected
      simp only
      rw [filter_port (le_two_pow_storePortIdWidth g) c.srReqIn isPort isReq]
      split_ifs <;> rfl

theorem readAck_active {s : State g} {c : Cycle g} (acks : s.readAck c = true) : s.readActive c = true := by
  have enable : (s.bankCycle c).readEnable = s.readActive c := rfl
  unfold readAck MemoryBank.State.readAck MemoryBank.State.readActive at acks
  rw [← enable]
  cases read : (s.bankCycle c).readEnable <;> simp [read] at acks ⊢

theorem writeAck_active {s : State g} {c : Cycle g} (acks : s.writeAck c = true) : s.writeActive c = true := by
  have enable : (s.bankCycle c).writeEnable = s.writeActive c := rfl
  unfold writeAck MemoryBank.State.writeAck MemoryBank.State.writeActive at acks
  rw [← enable]
  cases write : (s.bankCycle c).writeEnable <;> simp [write] at acks ⊢

theorem not_both {s : State g} {c : Cycle g} : ¬ (s.readAck c = true ∧ s.writeAck c = true) := MemoryBank.State.not_both

theorem readActive_iff {s : State g} {c : Cycle g} : s.readActive c = true ↔
    (s.lrrResponse c).popAck = true ∧ ((s.srrResponse c).popAck = true → s.writePriority c = false) := by
  unfold readActive
  cases (s.lrrResponse c).popAck <;> cases (s.srrResponse c).popAck <;> cases s.writePriority c <;> simp

theorem writeActive_iff {s : State g} {c : Cycle g} : s.writeActive c = true ↔
    (s.srrResponse c).popAck = true ∧ ((s.lrrResponse c).popAck = true → s.writePriority c = true) := by
  unfold writeActive
  cases (s.lrrResponse c).popAck <;> cases (s.srrResponse c).popAck <;> cases s.writePriority c <;> simp

end State

/-! ### One cycle -/

def loadsFor (i : Nat) (results : List (BitVec (g.tagWidth + g.loadPortIdWidth) × BitVec g.dataWidth)) :
    List (BitVec g.dataWidth × BitVec g.tagWidth) :=
  results.filterMap fun x =>
    if x.1.extractLsb' 0 g.loadPortIdWidth = BitVec.ofNat _ i then some (x.2, x.1.extractLsb' g.loadPortIdWidth g.tagWidth)
    else none

def storesFor (i : Nat) (results : List (BitVec (g.tagWidth + g.storePortIdWidth))) : List (BitVec g.tagWidth) :=
  results.filterMap fun x =>
    if x.extractLsb' 0 g.storePortIdWidth = BitVec.ofNat _ i then some (x.extractLsb' g.storePortIdWidth g.tagWidth) else none

/-- The books are balanced; `initial` is the memory at their start. -/
structure Books.Inv (initial : BitVec g.addrWidth → BitVec g.dataWidth) (b : Books g) : Prop where
  lrr : QueueHolds b.state.lrr (b.waitingLoads.map LoadRequest.word)
  srr : QueueHolds b.state.srr (b.waitingStores.map StoreRequest.word)
  loadPorts : ∀ r ∈ b.waitingLoads, r.port < g.numLoads
  storePorts : ∀ r ∈ b.waitingStores, r.port < g.numStores
  loads : b.acceptedLoads = b.log.filterMap Access.loadRequest ++ b.waitingLoads
  stores : b.acceptedStores = b.log.filterMap Access.storeRequest ++ b.waitingStores
  loadResults : ∀ i < g.numLoads, b.log.filterMap (Access.loadResult i) = b.loadResults i ++ loadsFor i b.state.bank.pendingLoad
  storeResults : ∀ i < g.numStores,
    b.log.filterMap (Access.storeResult i) = b.storeResults i ++ storesFor i b.state.bank.pendingStore
  loadHomed : ∀ x ∈ b.state.bank.pendingLoad, ∃ i < g.numLoads, x.1.extractLsb' 0 g.loadPortIdWidth = BitVec.ofNat _ i
  storeHomed : ∀ x ∈ b.state.bank.pendingStore, ∃ i < g.numStores, x.extractLsb' 0 g.storePortIdWidth = BitVec.ofNat _ i
  contents : b.state.contents = b.log.foldl Access.apply initial

namespace Books
variable {initial : BitVec g.addrWidth → BitVec g.dataWidth} {b : Books g} {c : Cycle g}

theorem Inv.lrr_step (inv : b.Inv initial) (pop : Bool) :
    QueueStep b.state.lrr (b.waitingLoads.map LoadRequest.word) (c.lrrRequest pop) := queue_step inv.lrr _

theorem Inv.srr_step (inv : b.Inv initial) (pop : Bool) :
    QueueStep b.state.srr (b.waitingStores.map StoreRequest.word) (c.srrRequest pop) := queue_step inv.srr _

theorem Inv.lrr_popAck (inv : b.Inv initial) : (b.state.lrrResponse c).popAck = !b.waitingLoads.isEmpty := by
  rw [State.lrrResponse, (inv.lrr_step false).popAck, List.isEmpty_map]

theorem Inv.srr_popAck (inv : b.Inv initial) : (b.state.srrResponse c).popAck = !b.waitingStores.isEmpty := by
  rw [State.srrResponse, (inv.srr_step false).popAck, List.isEmpty_map]

/-- The bank performs the oldest request of a kind, or nothing. -/
inductive Performs (b : Books g) (c : Cycle g) : Prop
  | load (r : LoadRequest g) (rest : List (LoadRequest g)) (reads : b.state.readAck c = true)
      (writes : b.state.writeAck c = false) (oldest : b.waitingLoads = r :: rest)
      (word : (b.state.lrrResponse c).dataOut = r.word) (performed : b.performed c = [.load r (b.state.contents r.addr)])
  | store (r : StoreRequest g) (rest : List (StoreRequest g)) (reads : b.state.readAck c = false)
      (writes : b.state.writeAck c = true) (oldest : b.waitingStores = r :: rest)
      (word : (b.state.srrResponse c).dataOut = r.word) (performed : b.performed c = [.store r])
  | idle (reads : b.state.readAck c = false) (writes : b.state.writeAck c = false) (performed : b.performed c = [])

theorem Inv.performs (inv : b.Inv initial) : b.Performs c := by
  cases writes : b.state.writeAck c with
  | true =>
      have reads : b.state.readAck c = false := Bool.eq_false_of_not_eq_true fun reads => State.not_both ⟨reads, writes⟩
      have there := (State.writeActive_iff.mp (State.writeAck_active writes)).1
      rw [inv.srr_popAck] at there
      cases oldest : b.waitingStores with
      | nil =>
          rw [oldest] at there
          cases there
      | cons r rest =>
          refine .store r rest reads writes oldest ((inv.srr_step false).dataOut _ ?_) ?_
          · rw [oldest]
            rfl
          · rw [performed, writes, oldest]
            rfl
  | false =>
      cases reads : b.state.readAck c with
      | true =>
          have there := (State.readActive_iff.mp (State.readAck_active reads)).1
          rw [inv.lrr_popAck] at there
          cases oldest : b.waitingLoads with
          | nil =>
              rw [oldest] at there
              cases there
          | cons r rest =>
              refine .load r rest reads writes oldest ((inv.lrr_step false).dataOut _ ?_) ?_
              · rw [oldest]
                rfl
              · rw [performed, writes, reads, oldest]
                rfl
      | false =>
          refine .idle reads writes ?_
          rw [performed, writes, reads]
          rfl

theorem accepted_word : (b.state.acceptedLoads c).map LoadRequest.word =
    if c.loadSelected.isSome && (b.state.lrrResponse c).pushAck then [(c.lrrRequest false).dataIn] else [] := by
  rw [State.acceptedLoads_eq, Cycle.lrrRequest]
  cases c.loadSelected <;> cases (b.state.lrrResponse c).pushAck <;> rfl

theorem acceptedStore_word : (b.state.acceptedStores c).map StoreRequest.word =
    if c.storeSelected.isSome && (b.state.srrResponse c).pushAck then [(c.srrRequest false).dataIn] else [] := by
  rw [State.acceptedStores_eq, Cycle.srrRequest]
  cases c.storeSelected <;> cases (b.state.srrResponse c).pushAck <;> rfl

theorem Inv.lrr_next (inv : b.Inv initial) :
    QueueHolds (b.next c).state.lrr ((b.next c).waitingLoads.map LoadRequest.word) := by
  have held := (inv.lrr_step (c := c) (b.state.readAck c)).next
  have pushAck : (b.state.lrrResponse c).pushAck = decide ((b.waitingLoads.map LoadRequest.word).length < 2) :=
    (inv.lrr_step false).pushAck
  have popped : (if b.state.readAck c && !(b.waitingLoads.map LoadRequest.word).isEmpty then 1 else 0) =
      (b.state.readAck c).toNat := by
    cases inv.performs (c := c) with
    | load r rest reads _ oldest => rw [reads, oldest]; rfl
    | store r rest reads => rw [reads]; rfl
    | idle reads => rw [reads]; rfl
  have words : (b.next c).waitingLoads.map LoadRequest.word =
      (b.waitingLoads.map LoadRequest.word ++ (b.state.acceptedLoads c).map LoadRequest.word).drop (b.state.readAck c).toNat := by
    rw [← List.map_append, ← List.map_drop]
    rfl
  rw [words, accepted_word, pushAck, ← popped]
  exact held

theorem Inv.srr_next (inv : b.Inv initial) :
    QueueHolds (b.next c).state.srr ((b.next c).waitingStores.map StoreRequest.word) := by
  have held := (inv.srr_step (c := c) (b.state.writeAck c)).next
  have pushAck : (b.state.srrResponse c).pushAck = decide ((b.waitingStores.map StoreRequest.word).length < 2) :=
    (inv.srr_step false).pushAck
  have popped : (if b.state.writeAck c && !(b.waitingStores.map StoreRequest.word).isEmpty then 1 else 0) =
      (b.state.writeAck c).toNat := by
    cases inv.performs (c := c) with
    | load r rest _ writes => rw [writes]; rfl
    | store r rest _ writes oldest => rw [writes, oldest]; rfl
    | idle _ writes => rw [writes]; rfl
  have words : (b.next c).waitingStores.map StoreRequest.word =
      (b.waitingStores.map StoreRequest.word ++ (b.state.acceptedStores c).map StoreRequest.word).drop
        (b.state.writeAck c).toNat := by
    rw [← List.map_append, ← List.map_drop]
    rfl
  rw [words, acceptedStore_word, pushAck, ← popped]
  exact held

theorem acceptedLoads_port {r : LoadRequest g} (member : r ∈ b.state.acceptedLoads c) : r.port < g.numLoads := by
  obtain ⟨i, isPort, rfl⟩ := List.mem_map.mp member
  exact List.mem_range.mp (List.mem_of_mem_filter isPort)

theorem acceptedStores_port {r : StoreRequest g} (member : r ∈ b.state.acceptedStores c) : r.port < g.numStores := by
  obtain ⟨i, isPort, rfl⟩ := List.mem_map.mp member
  exact List.mem_range.mp (List.mem_of_mem_filter isPort)

theorem Inv.loadPorts_next (inv : b.Inv initial) : ∀ r ∈ (b.next c).waitingLoads, r.port < g.numLoads := by
  intro r member
  rcases List.mem_append.mp (List.mem_of_mem_drop member) with there | new
  · exact inv.loadPorts r there
  · exact acceptedLoads_port new

theorem Inv.storePorts_next (inv : b.Inv initial) : ∀ r ∈ (b.next c).waitingStores, r.port < g.numStores := by
  intro r member
  rcases List.mem_append.mp (List.mem_of_mem_drop member) with there | new
  · exact inv.storePorts r there
  · exact acceptedStores_port new

theorem Inv.loads_next (inv : b.Inv initial) :
    (b.next c).acceptedLoads = (b.next c).log.filterMap Access.loadRequest ++ (b.next c).waitingLoads := by
  have taken : b.waitingLoads ++ b.state.acceptedLoads c =
      (b.performed c).filterMap Access.loadRequest ++ (b.next c).waitingLoads := by
    rw [next]
    cases inv.performs (c := c) with
    | load r rest reads _ oldest _ performed => rw [performed, reads, oldest]; rfl
    | store r rest reads _ _ _ performed => rw [performed, reads]; rfl
    | idle reads _ performed => rw [performed, reads]; rfl
  have log : (b.next c).log = b.log ++ b.performed c := rfl
  have accepted : (b.next c).acceptedLoads = b.acceptedLoads ++ b.state.acceptedLoads c := rfl
  rw [log, accepted, inv.loads, List.filterMap_append, List.append_assoc, List.append_assoc, taken]

theorem Inv.stores_next (inv : b.Inv initial) :
    (b.next c).acceptedStores = (b.next c).log.filterMap Access.storeRequest ++ (b.next c).waitingStores := by
  have taken : b.waitingStores ++ b.state.acceptedStores c =
      (b.performed c).filterMap Access.storeRequest ++ (b.next c).waitingStores := by
    rw [next]
    cases inv.performs (c := c) with
    | load r rest _ writes _ _ performed => rw [performed, writes]; rfl
    | store r rest _ writes oldest _ performed => rw [performed, writes, oldest]; rfl
    | idle _ writes performed => rw [performed, writes]; rfl
  have log : (b.next c).log = b.log ++ b.performed c := rfl
  have accepted : (b.next c).acceptedStores = b.acceptedStores ++ b.state.acceptedStores c := rfl
  rw [log, accepted, inv.stores, List.filterMap_append, List.append_assoc, List.append_assoc, taken]

theorem loadsFor_singleton (i : Nat) (x : BitVec (g.tagWidth + g.loadPortIdWidth) × BitVec g.dataWidth) : loadsFor i [x] =
    if x.1.extractLsb' 0 g.loadPortIdWidth = BitVec.ofNat _ i then [(x.2, x.1.extractLsb' g.loadPortIdWidth g.tagWidth)]
    else [] := by
  rw [loadsFor, List.filterMap_cons]
  split_ifs <;> rfl

theorem storesFor_singleton (i : Nat) (x : BitVec (g.tagWidth + g.storePortIdWidth)) : storesFor i [x] =
    if x.extractLsb' 0 g.storePortIdWidth = BitVec.ofNat _ i then [x.extractLsb' g.storePortIdWidth g.tagWidth] else [] := by
  rw [storesFor, List.filterMap_cons]
  split_ifs <;> rfl

/-- The bank accepts a result when the port that it is for takes it. -/
theorem taken_load {i : Nat} (isPort : i < g.numLoads) :
    loadsFor i (b.state.bank.takenLoad (b.state.bankCycle c)) = b.state.completedLoad c i := by
  have accepts : (b.state.bankCycle c).readResultAccept = b.state.loadCompleteAccept c := rfl
  unfold MemoryBank.State.takenLoad State.completedLoad State.lcAckOut
  rw [accepts]
  by_cases here : b.state.loadCompleteId = BitVec.ofNat _ i
  · have accept : b.state.loadCompleteAccept c = c.lcReqIn i := by
      rw [State.loadCompleteAccept, here]
      exact any_named (le_two_pow_loadPortIdWidth g) isPort c.lcReqIn
    rw [accept, decide_eq_true here, Bool.and_true, Bool.and_comm]
    split_ifs
    · rw [loadsFor_singleton]
      exact if_pos here
    · rfl
  · rw [decide_eq_false here, Bool.and_false, Bool.and_false]
    rw [if_neg Bool.false_ne_true]
    split_ifs
    · rw [loadsFor_singleton]
      exact if_neg here
    · rfl

theorem taken_store {i : Nat} (isPort : i < g.numStores) :
    storesFor i (b.state.bank.takenStore (b.state.bankCycle c)) = b.state.completedStore c i := by
  have accepts : (b.state.bankCycle c).writeResultAccept = b.state.storeCompleteAccept c := rfl
  unfold MemoryBank.State.takenStore State.completedStore State.scAckOut
  rw [accepts]
  by_cases here : b.state.storeCompleteId = BitVec.ofNat _ i
  · have accept : b.state.storeCompleteAccept c = c.scReqIn i := by
      rw [State.storeCompleteAccept, here]
      exact any_named (le_two_pow_storePortIdWidth g) isPort c.scReqIn
    rw [accept, decide_eq_true here, Bool.and_true, Bool.and_comm]
    split_ifs
    · rw [storesFor_singleton]
      exact if_pos here
    · rfl
  · rw [decide_eq_false here, Bool.and_false, Bool.and_false]
    rw [if_neg Bool.false_ne_true]
    split_ifs
    · rw [storesFor_singleton]
      exact if_neg here
    · rfl

theorem Performs.readTag {r : LoadRequest g} (word : (b.state.lrrResponse c).dataOut = r.word) :
    (b.state.bankCycle c).readTag = r.tag ++ BitVec.ofNat g.loadPortIdWidth r.port ∧ (b.state.bankCycle c).readAddr = r.addr := by
  obtain ⟨-, port, addr, tag⟩ := LoadRequest.fields word
  exact ⟨congrArg₂ (· ++ ·) tag port, addr⟩

theorem Performs.writeTag {r : StoreRequest g} (word : (b.state.srrResponse c).dataOut = r.word) :
    (b.state.bankCycle c).writeTag = r.tag ++ BitVec.ofNat g.storePortIdWidth r.port ∧
      (b.state.bankCycle c).writeAddr = r.addr ∧ (b.state.bankCycle c).writeData = r.data := by
  obtain ⟨-, port, addr, data, tag⟩ := StoreRequest.fields word
  exact ⟨congrArg₂ (· ++ ·) tag port, addr, data⟩

theorem Inv.performed_loadResult (inv : b.Inv initial) {i : Nat} (isPort : i < g.numLoads) :
    (b.performed c).filterMap (Access.loadResult i) = loadsFor i (b.state.bank.performedLoad (b.state.bankCycle c)) := by
  unfold MemoryBank.State.performedLoad
  cases inv.performs (c := c) with
  | load r rest reads _ oldest word performed =>
      obtain ⟨tag, addr⟩ := Performs.readTag word
      have homed : r.port < g.numLoads := inv.loadPorts r (oldest ▸ List.mem_cons_self)
      change b.state.bank.readAck _ = true at reads
      rw [performed, reads, if_pos rfl, tag, addr, loadsFor_singleton, extractLsb'_append_low, extractLsb'_append_high,
        List.filterMap_cons, Access.loadResult]
      by_cases here : r.port = i
      · rw [if_pos here, if_pos (congrArg _ here)]
        rfl
      · rw [if_neg here, if_neg (mt (ofNat_inj_of_lt (le_two_pow_loadPortIdWidth g) homed isPort).mp here)]
        rfl
  | store r rest reads _ _ _ performed =>
      change b.state.bank.readAck _ = false at reads
      rw [performed, reads]
      rfl
  | idle reads _ performed =>
      change b.state.bank.readAck _ = false at reads
      rw [performed, reads]
      rfl

theorem Inv.performed_storeResult (inv : b.Inv initial) {i : Nat} (isPort : i < g.numStores) :
    (b.performed c).filterMap (Access.storeResult i) = storesFor i (b.state.bank.performedStore (b.state.bankCycle c)) := by
  unfold MemoryBank.State.performedStore
  cases inv.performs (c := c) with
  | store r rest _ writes oldest word performed =>
      obtain ⟨tag, -⟩ := Performs.writeTag word
      have homed : r.port < g.numStores := inv.storePorts r (oldest ▸ List.mem_cons_self)
      change b.state.bank.writeAck _ = true at writes
      rw [performed, writes, if_pos rfl, tag, storesFor_singleton, extractLsb'_append_low, extractLsb'_append_high,
        List.filterMap_cons, Access.storeResult]
      by_cases here : r.port = i
      · rw [if_pos here, if_pos (congrArg _ here)]
        rfl
      · rw [if_neg here, if_neg (mt (ofNat_inj_of_lt (le_two_pow_storePortIdWidth g) homed isPort).mp here)]
        rfl
  | load r rest _ writes _ _ performed =>
      change b.state.bank.writeAck _ = false at writes
      rw [performed, writes]
      rfl
  | idle _ writes performed =>
      change b.state.bank.writeAck _ = false at writes
      rw [performed, writes]
      rfl

theorem Inv.loadResults_next (inv : b.Inv initial) {i : Nat} (isPort : i < g.numLoads) :
    (b.next c).log.filterMap (Access.loadResult i) =
      (b.next c).loadResults i ++ loadsFor i (b.next c).state.bank.pendingLoad := by
  have bank := congrArg (loadsFor i) (MemoryBank.State.loads_step (s := b.state.bank) (c := b.state.bankCycle c))
  simp only [loadsFor, List.filterMap_append] at bank
  have taken := taken_load (b := b) (c := c) isPort
  have performs := inv.performed_loadResult (c := c) isPort
  simp only [loadsFor] at taken performs
  have log : (b.next c).log = b.log ++ b.performed c := rfl
  have results : (b.next c).loadResults i = b.loadResults i ++ b.state.completedLoad c i := rfl
  have pending : (b.next c).state.bank.pendingLoad = (b.state.bank.next (b.state.bankCycle c)).pendingLoad := rfl
  rw [log, results, pending, List.filterMap_append, inv.loadResults i isPort, performs, List.append_assoc, List.append_assoc,
    ← taken]
  exact congrArg _ bank

theorem Inv.storeResults_next (inv : b.Inv initial) {i : Nat} (isPort : i < g.numStores) :
    (b.next c).log.filterMap (Access.storeResult i) =
      (b.next c).storeResults i ++ storesFor i (b.next c).state.bank.pendingStore := by
  have bank := congrArg (storesFor i) (MemoryBank.State.stores_step (s := b.state.bank) (c := b.state.bankCycle c))
  simp only [storesFor, List.filterMap_append] at bank
  have taken := taken_store (b := b) (c := c) isPort
  have performs := inv.performed_storeResult (c := c) isPort
  simp only [storesFor] at taken performs
  have log : (b.next c).log = b.log ++ b.performed c := rfl
  have results : (b.next c).storeResults i = b.storeResults i ++ b.state.completedStore c i := rfl
  have pending : (b.next c).state.bank.pendingStore = (b.state.bank.next (b.state.bankCycle c)).pendingStore := rfl
  rw [log, results, pending, List.filterMap_append, inv.storeResults i isPort, performs, List.append_assoc, List.append_assoc,
    ← taken]
  exact congrArg _ bank

theorem Inv.loadHomed_next (inv : b.Inv initial) : ∀ x ∈ (b.next c).state.bank.pendingLoad,
    ∃ i < g.numLoads, x.1.extractLsb' 0 g.loadPortIdWidth = BitVec.ofNat _ i := by
  intro x member
  have known : x ∈ b.state.bank.pendingLoad ++ b.state.bank.performedLoad (b.state.bankCycle c) := by
    rw [MemoryBank.State.loads_step]
    exact List.mem_append_right _ member
  rcases List.mem_append.mp known with waits | performs
  · exact inv.loadHomed x waits
  · unfold MemoryBank.State.performedLoad at performs
    split_ifs at performs with acks
    · obtain rfl := List.mem_singleton.mp performs
      cases inv.performs (c := c) with
      | load r rest _ _ oldest word =>
          refine ⟨r.port, inv.loadPorts r (oldest ▸ List.mem_cons_self), ?_⟩
          rw [(Performs.readTag word).1, extractLsb'_append_low]
      | store r rest reads => exact absurd (reads.symm.trans acks) Bool.false_ne_true
      | idle reads => exact absurd (reads.symm.trans acks) Bool.false_ne_true
    · exact absurd performs List.not_mem_nil

theorem Inv.storeHomed_next (inv : b.Inv initial) : ∀ x ∈ (b.next c).state.bank.pendingStore,
    ∃ i < g.numStores, x.extractLsb' 0 g.storePortIdWidth = BitVec.ofNat _ i := by
  intro x member
  have known : x ∈ b.state.bank.pendingStore ++ b.state.bank.performedStore (b.state.bankCycle c) := by
    rw [MemoryBank.State.stores_step]
    exact List.mem_append_right _ member
  rcases List.mem_append.mp known with waits | performs
  · exact inv.storeHomed x waits
  · unfold MemoryBank.State.performedStore at performs
    split_ifs at performs with acks
    · obtain rfl := List.mem_singleton.mp performs
      cases inv.performs (c := c) with
      | store r rest _ _ oldest word =>
          refine ⟨r.port, inv.storePorts r (oldest ▸ List.mem_cons_self), ?_⟩
          rw [(Performs.writeTag word).1, extractLsb'_append_low]
      | load r rest _ writes => exact absurd (writes.symm.trans acks) Bool.false_ne_true
      | idle _ writes => exact absurd (writes.symm.trans acks) Bool.false_ne_true
    · exact absurd performs List.not_mem_nil

theorem Inv.contents_performed (inv : b.Inv initial) :
    (b.next c).state.contents = (b.performed c).foldl Access.apply b.state.contents := by
  have memory : (b.next c).state.contents = _ := MemoryBank.State.contents_next (s := b.state.bank) (c := b.state.bankCycle c)
  rw [memory]
  cases inv.performs (c := c) with
  | load r rest _ writes _ _ performed =>
      change b.state.bank.writeAck _ = false at writes
      rw [performed, writes]
      rfl
  | store r rest _ writes _ word performed =>
      obtain ⟨-, addr, data⟩ := Performs.writeTag word
      change b.state.bank.writeAck _ = true at writes
      rw [performed, writes, addr, data]
      rfl
  | idle _ writes performed =>
      change b.state.bank.writeAck _ = false at writes
      rw [performed, writes]
      rfl

theorem Inv.next (inv : b.Inv initial) (c : Cycle g) : (b.next c).Inv initial where
  lrr := inv.lrr_next
  srr := inv.srr_next
  loadPorts := inv.loadPorts_next
  storePorts := inv.storePorts_next
  loads := inv.loads_next
  stores := inv.stores_next
  loadResults _ isPort := inv.loadResults_next isPort
  storeResults _ isPort := inv.storeResults_next isPort
  loadHomed := inv.loadHomed_next
  storeHomed := inv.storeHomed_next
  contents := by
    have log : (b.next c).log = b.log ++ b.performed c := rfl
    rw [inv.contents_performed, log, List.foldl_append, inv.contents]

theorem Inv.run (cs : List (Cycle g)) : ∀ {b : Books g}, b.Inv initial → (b.run cs).Inv initial := by
  induction cs with
  | nil => exact fun inv => inv
  | cons c cs ih => exact fun inv => ih (inv.next c)

theorem inv_start (s : State g) (c : Cycle g) : (start (s.reset c)).Inv (s.reset c).contents where
  lrr := (queueBaseWithEmptyFull_fifo false false 2).reset _ _
  srr := (queueBaseWithEmptyFull_fifo false false 2).reset _ _
  loadPorts _ member := absurd member List.not_mem_nil
  storePorts _ member := absurd member List.not_mem_nil
  loads := rfl
  stores := rfl
  loadResults _ _ := rfl
  storeResults _ _ := rfl
  loadHomed _ member := absurd member List.not_mem_nil
  storeHomed _ member := absurd member List.not_mem_nil
  contents := rfl

end Books

end Ahir.Hardware.OrderedMemory
