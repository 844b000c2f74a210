import Ahir.Hardware.UnorderedMemory

/-!
# The unordered memory loses nothing

Every cycle keeps the requests of a port in order on their way to the bank, and the
results of the bank on their way to the port.
-/

set_option autoImplicit false

namespace Ahir.Hardware.UnorderedMemory
variable {g : Generics}

/-! ### Fields -/

theorem extractLsb'_append_low {m n : Nat} (x : BitVec m) (y : BitVec n) : (x ++ y).extractLsb' 0 n = y := by
  refine BitVec.eq_of_getLsbD_eq fun i inside => ?_
  rw [BitVec.getLsbD_extractLsb', decide_eq_true inside, Bool.true_and, Nat.zero_add, BitVec.getLsbD_append, if_pos inside]

theorem extractLsb'_append_high {m n : Nat} (x : BitVec m) (y : BitVec n) : (x ++ y).extractLsb' n m = x := by
  refine BitVec.eq_of_getLsbD_eq fun i inside => ?_
  rw [BitVec.getLsbD_extractLsb', decide_eq_true inside, Bool.true_and, BitVec.getLsbD_append, if_neg (by omega),
    Nat.add_sub_cancel_left]

theorem extractLsb'_append_above {m n : Nat} (x : BitVec m) (y : BitVec n) {start len : Nat} (above : n ≤ start) :
    (x ++ y).extractLsb' start len = x.extractLsb' (start - n) len := by
  refine BitVec.eq_of_getLsbD_eq fun i inside => ?_
  rw [BitVec.getLsbD_extractLsb', BitVec.getLsbD_extractLsb', BitVec.getLsbD_append, if_neg (by omega)]
  congr 2
  omega

theorem extractLsb'_append_append {k m n : Nat} (x : BitVec k) (y : BitVec m) (z : BitVec n) :
    (x ++ y ++ z).extractLsb' 0 (m + n) = y ++ z := by
  refine BitVec.eq_of_getLsbD_eq fun i inside => ?_
  rw [BitVec.getLsbD_extractLsb', decide_eq_true inside, Bool.true_and, Nat.zero_add, BitVec.getLsbD_append,
    BitVec.getLsbD_append, BitVec.getLsbD_append]
  by_cases low : i < n
  · rw [if_pos low, if_pos low]
  · rw [if_neg low, if_neg low, if_pos (by omega)]

theorem toNat_portIdGen {width i : Nat} (inside : i < 2 ^ width) : (portIdGen width i).toNat = i := by
  induction i with
  | zero => rfl
  | succ i ih =>
      have one : (1 : Nat) < 2 ^ width := by omega
      rw [portIdGen, BitVec.toNat_add, ih (by omega), BitVec.toNat_ofNat, Nat.mod_eq_of_lt one, Nat.mod_eq_of_lt inside]

theorem le_two_pow_portIdWidth (ports : Nat) : ports ≤ 2 ^ portIdWidth ports :=
  le_trans (PipelinedMux.le_pow_ceilLog ports (Nat.le_refl 2)) (Nat.pow_le_pow_right Nat.two_pos (le_max_right _ _))

def loadPort (x : BitVec g.rdMuxDataWidth) : Nat :=
  ((x.extractLsb' 0 (g.tagWidth + g.loadPortIdWidth)).extractLsb' 0 g.loadPortIdWidth).toNat

def storePort (x : BitVec g.wrMuxDataWidth) : Nat :=
  ((x.extractLsb' 0 (g.tagWidth + g.storePortIdWidth)).extractLsb' 0 g.storePortIdWidth).toNat

def loadFields (x : BitVec g.rdMuxDataWidth) : BitVec g.addrWidth × BitVec g.tagWidth :=
  (x.extractLsb' (g.rdMuxDataWidth - g.addrWidth) g.addrWidth,
    (x.extractLsb' 0 (g.tagWidth + g.loadPortIdWidth)).extractLsb' g.loadPortIdWidth g.tagWidth)

def storeFields (x : BitVec g.wrMuxDataWidth) : BitVec g.addrWidth × BitVec g.dataWidth × BitVec g.tagWidth :=
  (x.extractLsb' (g.wrMuxDataWidth - g.addrWidth) g.addrWidth,
    x.extractLsb' (g.wrMuxDataWidth - g.addrWidth - g.dataWidth) g.dataWidth,
    (x.extractLsb' 0 (g.tagWidth + g.storePortIdWidth)).extractLsb' g.storePortIdWidth g.tagWidth)

theorem loadPort_append (addr : BitVec g.addrWidth) (tag : BitVec g.tagWidth) (id : BitVec g.loadPortIdWidth) :
    loadPort (addr ++ tag ++ id : BitVec g.rdMuxDataWidth) = id.toNat := by
  unfold loadPort
  rw [extractLsb'_append_append, extractLsb'_append_low]

theorem storePort_append (addr : BitVec g.addrWidth) (data : BitVec g.dataWidth) (tag : BitVec g.tagWidth)
    (id : BitVec g.storePortIdWidth) : storePort (addr ++ data ++ tag ++ id : BitVec g.wrMuxDataWidth) = id.toNat := by
  unfold storePort
  rw [extractLsb'_append_append, extractLsb'_append_low]

theorem loadFields_append (addr : BitVec g.addrWidth) (tag : BitVec g.tagWidth) (id : BitVec g.loadPortIdWidth) :
    loadFields (addr ++ tag ++ id : BitVec g.rdMuxDataWidth) = (addr, tag) := by
  have high : g.rdMuxDataWidth - g.addrWidth = g.tagWidth + g.loadPortIdWidth := by
    unfold Generics.rdMuxDataWidth
    omega
  unfold loadFields
  rw [extractLsb'_append_append, extractLsb'_append_high, high, extractLsb'_append_above _ _ (Nat.le_add_left _ _),
    Nat.add_sub_cancel, extractLsb'_append_high]

theorem storeFields_append (addr : BitVec g.addrWidth) (data : BitVec g.dataWidth) (tag : BitVec g.tagWidth)
    (id : BitVec g.storePortIdWidth) :
    storeFields (addr ++ data ++ tag ++ id : BitVec g.wrMuxDataWidth) = (addr, data, tag) := by
  have high : g.wrMuxDataWidth - g.addrWidth = g.dataWidth + g.tagWidth + g.storePortIdWidth := by
    unfold Generics.wrMuxDataWidth
    omega
  have middle : g.dataWidth + g.tagWidth + g.storePortIdWidth - g.dataWidth = g.tagWidth + g.storePortIdWidth := by omega
  have addrField : (addr ++ data ++ tag ++ id).extractLsb' (g.dataWidth + g.tagWidth + g.storePortIdWidth) g.addrWidth =
      addr := by
    rw [extractLsb'_append_above _ _ (Nat.le_add_left _ _), Nat.add_sub_cancel,
      extractLsb'_append_above _ _ (Nat.le_add_left _ _), Nat.add_sub_cancel, extractLsb'_append_high]
  have dataField : (addr ++ data ++ tag ++ id).extractLsb' (g.tagWidth + g.storePortIdWidth) g.dataWidth = data := by
    rw [extractLsb'_append_above _ _ (Nat.le_add_left _ _), Nat.add_sub_cancel,
      extractLsb'_append_above _ _ (Nat.le_refl _), Nat.sub_self, extractLsb'_append_low]
  unfold storeFields
  rw [extractLsb'_append_append, extractLsb'_append_high, high, middle, addrField, dataField]

/-! ### The parts hold lists -/

structure Contents (g : Generics) where
  rmux : Nat → Nat → List (BitVec g.rdMuxDataWidth)
  wmux : Nat → Nat → List (BitVec g.wrMuxDataWidth)
  rdDemux : Nat → List (BitVec (g.dataWidth + g.tagWidth))
  wrDemux : Nat → List (BitVec g.tagWidth)

structure Inv (s : State g) (q : Contents g) : Prop where
  rmux : PipelinedMux.Holds g.rmux loadPort s.rmux q.rmux
  wmux : PipelinedMux.Holds g.wmux storePort s.wmux q.wmux
  rdDemux : ∀ i, QueueHolds (s.rdDemux i) (q.rdDemux i)
  wrDemux : ∀ i, QueueHolds (s.wrDemux i) (q.wrDemux i)
  loadHomed : ∀ r ∈ s.bank.pendingLoad, (r.1.extractLsb' 0 g.loadPortIdWidth).toNat < g.numLoads
  storeHomed : ∀ r ∈ s.bank.pendingStore, (r.extractLsb' 0 g.storePortIdWidth).toNat < g.numStores

def bankLoads (i : Nat) (results : List (BitVec (g.tagWidth + g.loadPortIdWidth) × BitVec g.dataWidth)) :
    List (BitVec g.dataWidth × BitVec g.tagWidth) :=
  results.filterMap fun r =>
    if (r.1.extractLsb' 0 g.loadPortIdWidth).toNat = i then some (r.2, r.1.extractLsb' g.loadPortIdWidth g.tagWidth)
    else none

def bankStores (i : Nat) (results : List (BitVec (g.tagWidth + g.storePortIdWidth))) : List (BitVec g.tagWidth) :=
  results.filterMap fun r =>
    if (r.extractLsb' 0 g.storePortIdWidth).toNat = i then some (r.extractLsb' g.storePortIdWidth g.tagWidth) else none

namespace Contents
variable (q : Contents g) (s : State g)

def waitingLoads (i : Nat) : List (BitVec g.addrWidth × BitVec g.tagWidth) :=
  (PipelinedMux.row g.rmux loadPort q.rmux i g.rmux.numberOfStages).map loadFields

def waitingStores (i : Nat) : List (BitVec g.addrWidth × BitVec g.dataWidth × BitVec g.tagWidth) :=
  (PipelinedMux.row g.wmux storePort q.wmux i g.wmux.numberOfStages).map storeFields

/-- The completions that wait for a port, in its queue and in the bank. -/
def pendingLoads (i : Nat) : List (BitVec g.dataWidth × BitVec g.tagWidth) :=
  (q.rdDemux i).map (fun x => (x.extractLsb' g.tagWidth g.dataWidth, x.extractLsb' 0 g.tagWidth)) ++
    bankLoads i s.bank.pendingLoad

def pendingStores (i : Nat) : List (BitVec g.tagWidth) := q.wrDemux i ++ bankStores i s.bank.pendingStore

end Contents

section Step
variable {s : State g} {c : Cycle g} {q : Contents g}

theorem rdMux_fits (ack : Bool) : ∀ i < g.rmux.numberOfInputs,
    loadPort ((State.rdMuxCycle c ack).mergeDataIn i) = i := by
  intro i isPort
  rw [State.rdMuxCycle, loadPort_append]
  exact toNat_portIdGen (lt_of_lt_of_le isPort (le_two_pow_portIdWidth _))

theorem wrMux_fits (ack : Bool) : ∀ i < g.wmux.numberOfInputs,
    storePort ((State.wrMuxCycle c ack).mergeDataIn i) = i := by
  intro i isPort
  rw [State.wrMuxCycle, storePort_append]
  exact toNat_portIdGen (lt_of_lt_of_le isPort (le_two_pow_portIdWidth _))

theorem readAck_enables (acks : s.bank.readAck (s.bankCycle c) = true) :
    (s.bankCycle c).readEnable = true ∧ (s.bankCycle c).writeEnable = false := by
  unfold MemoryBank.State.readAck MemoryBank.State.readActive MemoryBank.State.writeActive at acks
  cases write : (s.bankCycle c).writeEnable <;> cases read : (s.bankCycle c).readEnable <;> simp [write, read] at acks ⊢

theorem writeAck_enables (acks : s.bank.writeAck (s.bankCycle c) = true) : (s.bankCycle c).writeEnable = true := by
  unfold MemoryBank.State.writeAck MemoryBank.State.writeActive at acks
  cases write : (s.bankCycle c).writeEnable <;> simp [write] at acks ⊢

theorem taken_load : PipelinedMux.taken g.rmux s.rmux (s.rdMuxInputs c) =
    if s.bank.readAck (s.bankCycle c) then some (s.rdMuxDataOut c) else none := by
  have same : PipelinedMux.mergeReqOut g.rmux s.rmux (s.rdMuxInputs c) = (s.bankCycle c).readEnable := by
    have enable : (s.bankCycle c).readEnable = PipelinedMux.mergeReqOut g.rmux s.rmux (State.rdMuxCycle c false) := rfl
    rw [enable, PipelinedMux.merge_eq.1, PipelinedMux.merge_eq.1]
  have data : PipelinedMux.mergeDataOut g.rmux s.rmux (s.rdMuxInputs c) = s.rdMuxDataOut c := by
    rw [State.rdMuxDataOut, PipelinedMux.merge_eq.2, PipelinedMux.merge_eq.2]
  have ack : (s.rdMuxInputs c).mergeAckIn = s.bank.readAck (s.bankCycle c) := rfl
  rw [PipelinedMux.taken, same, data, ack]
  cases acks : s.bank.readAck (s.bankCycle c)
  · rw [Bool.and_false]
  · rw [(readAck_enables acks).1, Bool.and_true]

theorem taken_store : PipelinedMux.taken g.wmux s.wmux (s.wrMuxInputs c) =
    if s.bank.writeAck (s.bankCycle c) then some (s.wrMuxDataOut c) else none := by
  have same : PipelinedMux.mergeReqOut g.wmux s.wmux (s.wrMuxInputs c) = (s.bankCycle c).writeEnable := by
    have enable : (s.bankCycle c).writeEnable = PipelinedMux.mergeReqOut g.wmux s.wmux (State.wrMuxCycle c false) := rfl
    rw [enable, PipelinedMux.merge_eq.1, PipelinedMux.merge_eq.1]
  have data : PipelinedMux.mergeDataOut g.wmux s.wmux (s.wrMuxInputs c) = s.wrMuxDataOut c := by
    rw [State.wrMuxDataOut, PipelinedMux.merge_eq.2, PipelinedMux.merge_eq.2]
  have ack : (s.wrMuxInputs c).mergeAckIn = s.bank.writeAck (s.bankCycle c) := rfl
  rw [PipelinedMux.taken, same, data, ack]
  cases acks : s.bank.writeAck (s.bankCycle c)
  · rw [Bool.and_false]
  · rw [writeAck_enables acks, Bool.and_true]

/-- What the bank performs for a load port is what the multiplexer gave of that port. -/
theorem performed_loadRequest (i : Nat) : (s.performed c).filterMap (Access.loadRequest i) =
    ((PipelinedMux.taken g.rmux s.rmux (s.rdMuxInputs c)).toList.filter fun x => decide (loadPort x = i)).map loadFields := by
  rw [taken_load]
  unfold State.performed
  by_cases reads : s.bank.readAck (s.bankCycle c) = true
  · have writes : ¬ s.bank.writeAck (s.bankCycle c) = true := fun writes => MemoryBank.State.not_both ⟨reads, writes⟩
    simp only [if_neg writes, if_pos reads, Option.toList_some]
    have port : (((s.bankCycle c).readTag.extractLsb' 0 g.loadPortIdWidth).toNat = i) = (loadPort (s.rdMuxDataOut c) = i) := rfl
    by_cases here : loadPort (s.rdMuxDataOut c) = i
    · simp only [List.filterMap_cons, Access.loadRequest, port, if_pos here, List.filterMap_nil, List.filter_cons,
        decide_eq_true here, if_true, List.filter_nil, List.map_cons, List.map_nil]
      rfl
    · simp only [List.filterMap_cons, Access.loadRequest, port, if_neg here, List.filterMap_nil, List.filter_cons,
        decide_eq_false here, Bool.false_eq_true, if_false, List.filter_nil, List.map_nil]
  · simp only [if_neg reads, Option.toList_none, List.filter_nil, List.map_nil]
    split_ifs <;> rfl

theorem performed_storeRequest (i : Nat) : (s.performed c).filterMap (Access.storeRequest i) =
    ((PipelinedMux.taken g.wmux s.wmux (s.wrMuxInputs c)).toList.filter fun x => decide (storePort x = i)).map
      storeFields := by
  rw [taken_store]
  unfold State.performed
  by_cases writes : s.bank.writeAck (s.bankCycle c) = true
  · simp only [if_pos writes, Option.toList_some]
    have port : (((s.bankCycle c).writeTag.extractLsb' 0 g.storePortIdWidth).toNat = i) =
        (storePort (s.wrMuxDataOut c) = i) := rfl
    by_cases here : storePort (s.wrMuxDataOut c) = i
    · simp only [List.filterMap_cons, Access.storeRequest, port, if_pos here, List.filterMap_nil, List.filter_cons,
        decide_eq_true here, if_true, List.filter_nil, List.map_cons, List.map_nil]
      rfl
    · simp only [List.filterMap_cons, Access.storeRequest, port, if_neg here, List.filterMap_nil, List.filter_cons,
        decide_eq_false here, Bool.false_eq_true, if_false, List.filter_nil, List.map_nil]
  · simp only [if_neg writes, Option.toList_none, List.filter_nil, List.map_nil]
    split_ifs <;> rfl

theorem acceptedLoad_eq (i : Nat) :
    s.acceptedLoad c i = (PipelinedMux.accepted g.rmux s.rmux (s.rdMuxInputs c) i).toList.map loadFields := by
  have fields : loadFields ((s.rdMuxInputs c).mergeDataIn i) = (c.lrAddrIn i, c.lrTagIn i) := loadFields_append _ _ _
  unfold State.acceptedLoad PipelinedMux.accepted
  change (if c.lrReqIn i && _ then _ else _) = List.map loadFields (Option.toList (if c.lrReqIn i && _ then _ else _))
  split_ifs
  · rw [Option.toList_some, List.map_singleton, fields]
  · rfl

theorem acceptedStore_eq (i : Nat) :
    s.acceptedStore c i = (PipelinedMux.accepted g.wmux s.wmux (s.wrMuxInputs c) i).toList.map storeFields := by
  have fields : storeFields ((s.wrMuxInputs c).mergeDataIn i) = (c.srAddrIn i, c.srDataIn i, c.srTagIn i) :=
    storeFields_append _ _ _ _
  unfold State.acceptedStore PipelinedMux.accepted
  change (if c.srReqIn i && _ then _ else _) = List.map storeFields (Option.toList (if c.srReqIn i && _ then _ else _))
  split_ifs
  · rw [Option.toList_some, List.map_singleton, fields]
  · rfl

theorem performed_loadResult (i : Nat) : (s.performed c).filterMap (Access.loadResult i) =
    bankLoads i (s.bank.performedLoad (s.bankCycle c)) := by
  unfold State.performed MemoryBank.State.performedLoad bankLoads
  by_cases reads : s.bank.readAck (s.bankCycle c) = true
  · have writes : ¬ s.bank.writeAck (s.bankCycle c) = true := fun writes => MemoryBank.State.not_both ⟨reads, writes⟩
    simp only [if_neg writes, if_pos reads]
    rfl
  · simp only [if_neg reads]
    split_ifs <;> rfl

theorem performed_storeResult (i : Nat) : (s.performed c).filterMap (Access.storeResult i) =
    bankStores i (s.bank.performedStore (s.bankCycle c)) := by
  unfold State.performed MemoryBank.State.performedStore bankStores
  by_cases writes : s.bank.writeAck (s.bankCycle c) = true
  · simp only [if_pos writes]
    rfl
  · simp only [if_neg writes]
    split_ifs <;> rfl

/-- What the bank hands on for a port is what its queue takes in. -/
theorem taken_loadResult (i : Nat) : bankLoads i (s.bank.takenLoad (s.bankCycle c)) =
    (PipelinedDemux.delivered g.numLoads s.rdDemux (s.rdDemuxCycle c) i).toList.map fun x =>
      (x.extractLsb' g.tagWidth g.dataWidth, x.extractLsb' 0 g.tagWidth) := by
  unfold MemoryBank.State.takenLoad PipelinedDemux.delivered bankLoads
  have accepts : (s.bankCycle c).readResultAccept = PipelinedDemux.ackOut g.numLoads s.rdDemux (s.rdDemuxCycle c) := rfl
  have offers : (s.rdDemuxCycle c).reqIn = s.bank.readResultReady := rfl
  have fields : ((s.rdDemuxCycle c).dataIn.extractLsb' g.tagWidth g.dataWidth,
      (s.rdDemuxCycle c).dataIn.extractLsb' 0 g.tagWidth) =
      ((s.bank.readData : BitVec g.dataWidth), s.bank.readTagOut.extractLsb' g.loadPortIdWidth g.tagWidth) :=
    Prod.ext (extractLsb'_append_high _ _) (extractLsb'_append_low _ _)
  rw [accepts, offers]
  by_cases taken : (s.bank.readResultReady && PipelinedDemux.ackOut g.numLoads s.rdDemux (s.rdDemuxCycle c)) = true
  · rw [taken, Bool.true_and]
    simp only [if_true, List.filterMap_cons, List.filterMap_nil]
    by_cases here : (s.bank.readTagOut.extractLsb' 0 g.loadPortIdWidth).toNat = i
    · have named : (s.rdDemuxCycle c).selIn.toNat = i := here
      simp only [if_pos here, decide_eq_true named, if_true, Option.toList_some, List.map_singleton, fields]
    · have named : ¬ (s.rdDemuxCycle c).selIn.toNat = i := here
      simp only [if_neg here, decide_eq_false named, Bool.false_eq_true, if_false, Option.toList_none, List.map_nil]
  · simp [taken]

theorem taken_storeResult (i : Nat) : bankStores i (s.bank.takenStore (s.bankCycle c)) =
    (PipelinedDemux.delivered g.numStores s.wrDemux (s.wrDemuxCycle c) i).toList := by
  unfold MemoryBank.State.takenStore PipelinedDemux.delivered bankStores
  have accepts : (s.bankCycle c).writeResultAccept = PipelinedDemux.ackOut g.numStores s.wrDemux (s.wrDemuxCycle c) := rfl
  have offers : (s.wrDemuxCycle c).reqIn = s.bank.writeResultReady := rfl
  rw [accepts, offers]
  by_cases taken : (s.bank.writeResultReady && PipelinedDemux.ackOut g.numStores s.wrDemux (s.wrDemuxCycle c)) = true
  · rw [taken, Bool.true_and]
    simp only [if_true, List.filterMap_cons, List.filterMap_nil]
    by_cases here : (s.bank.writeTagOut.extractLsb' 0 g.storePortIdWidth).toNat = i
    · have named : (s.wrDemuxCycle c).selIn.toNat = i := here
      simp only [if_pos here, decide_eq_true named, if_true, Option.toList_some]
      rfl
    · have named : ¬ (s.wrDemuxCycle c).selIn.toNat = i := here
      simp only [if_neg here, decide_eq_false named, Bool.false_eq_true, if_false, Option.toList_none]
  · simp [taken]

end Step

end Ahir.Hardware.UnorderedMemory
