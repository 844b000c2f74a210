import Ahir.Hardware.UnorderedDelivery

/-!
# Every accepted request is served

When no more requests come, every round in which each port takes a completion at
some time does some of the work that is left, however long the ports refuse in
between.  So every request that was accepted is performed and completed.
-/

set_option autoImplicit false

namespace Ahir.Hardware.UnorderedMemory
variable {g : Generics}

structure Cycle.Quiet (c : Cycle g) : Prop where
  loads : ∀ i < g.numLoads, c.lrReqIn i = false
  stores : ∀ i < g.numStores, c.srReqIn i = false

/-- Quiet cycles during which each port would take a completion at some time. -/
structure Round (cs : List (Cycle g)) : Prop where
  quiet : ∀ c ∈ cs, c.Quiet
  loads : ∀ i < g.numLoads, ∃ c ∈ cs, c.lcReqIn i = true
  stores : ∀ i < g.numStores, ∃ c ∈ cs, c.scReqIn i = true

/-- The work that is left for loads: to leave each stage, the bank and the queue of the port. -/
def loadsLeft (s : State g) (q : Contents g) : Nat :=
  3 * PipelinedMux.work g.rmux q.rmux + 2 * s.bank.pendingLoad.length + ∑ i ∈ Finset.range g.numLoads, (q.rdDemux i).length

def storesLeft (s : State g) (q : Contents g) : Nat :=
  3 * PipelinedMux.work g.wmux q.wmux + 2 * s.bank.pendingStore.length +
    ∑ i ∈ Finset.range g.numStores, (q.wrDemux i).length

def loadsDone (s : State g) (c : Cycle g) : Nat :=
  PipelinedMux.passes g.rmux s.rmux (s.rdMuxInputs c) + (s.bank.takenLoad (s.bankCycle c)).length +
    PipelinedDemux.completedCount g.numLoads s.rdDemux (s.rdDemuxCycle c)

def storesDone (s : State g) (c : Cycle g) : Nat :=
  PipelinedMux.passes g.wmux s.wmux (s.wrMuxInputs c) + (s.bank.takenStore (s.bankCycle c)).length +
    PipelinedDemux.completedCount g.numStores s.wrDemux (s.wrDemuxCycle c)

section Quiet
variable {s : State g} {c : Cycle g} {q q' : Contents g}

theorem performedLoad_le : (s.bank.performedLoad (s.bankCycle c)).length ≤
    PipelinedMux.passes g.rmux s.rmux (s.rdMuxInputs c) := by
  have taken := PipelinedMux.taken_le_passes (g := g.rmux) (s := s.rmux) (c := s.rdMuxInputs c)
  rw [taken_load] at taken
  refine le_trans (le_of_eq ?_) taken
  unfold MemoryBank.State.performedLoad
  split_ifs <;> rfl

theorem performedStore_le : (s.bank.performedStore (s.bankCycle c)).length ≤
    PipelinedMux.passes g.wmux s.wmux (s.wrMuxInputs c) := by
  have taken := PipelinedMux.taken_le_passes (g := g.wmux) (s := s.wmux) (c := s.wrMuxInputs c)
  rw [taken_store] at taken
  refine le_trans (le_of_eq ?_) taken
  unfold MemoryBank.State.performedStore
  split_ifs <;> rfl

theorem takenLoad_length : (s.bank.takenLoad (s.bankCycle c)).length =
    if (s.rdDemuxCycle c).reqIn && PipelinedDemux.ackOut g.numLoads s.rdDemux (s.rdDemuxCycle c) then 1 else 0 := by
  unfold MemoryBank.State.takenLoad
  have offers : (s.rdDemuxCycle c).reqIn = s.bank.readResultReady := rfl
  have accepts : (s.bankCycle c).readResultAccept = PipelinedDemux.ackOut g.numLoads s.rdDemux (s.rdDemuxCycle c) := rfl
  rw [offers, accepts]
  split_ifs <;> rfl

theorem takenStore_length : (s.bank.takenStore (s.bankCycle c)).length =
    if (s.wrDemuxCycle c).reqIn && PipelinedDemux.ackOut g.numStores s.wrDemux (s.wrDemuxCycle c) then 1 else 0 := by
  unfold MemoryBank.State.takenStore
  have offers : (s.wrDemuxCycle c).reqIn = s.bank.writeResultReady := rfl
  have accepts : (s.bankCycle c).writeResultAccept = PipelinedDemux.ackOut g.numStores s.wrDemux (s.wrDemuxCycle c) := rfl
  rw [offers, accepts]
  split_ifs <;> rfl

theorem Step.loadsLeft_le (step : Step s c q q') (quiet : c.Quiet) :
    loadsLeft (s.next c) q' + loadsDone s c ≤ loadsLeft s q := by
  have tree := PipelinedMux.work_of_quiet step.rmux quiet.loads
  have bank := congrArg List.length (MemoryBank.State.loads_step (s := s.bank) (c := s.bankCycle c))
  have queues := PipelinedDemux.count_next step.rdDemux
  have performs := performedLoad_le (s := s) (c := c)
  rw [← takenLoad_length] at queues
  rw [List.length_append, List.length_append] at bank
  have after : (s.next c).bank = s.bank.next (s.bankCycle c) := rfl
  unfold loadsLeft loadsDone
  rw [after]
  omega

theorem Step.storesLeft_le (step : Step s c q q') (quiet : c.Quiet) :
    storesLeft (s.next c) q' + storesDone s c ≤ storesLeft s q := by
  have tree := PipelinedMux.work_of_quiet step.wmux quiet.stores
  have bank := congrArg List.length (MemoryBank.State.stores_step (s := s.bank) (c := s.bankCycle c))
  have queues := PipelinedDemux.count_next step.wrDemux
  have performs := performedStore_le (s := s) (c := c)
  rw [← takenStore_length] at queues
  rw [List.length_append, List.length_append] at bank
  have after : (s.next c).bank = s.bank.next (s.bankCycle c) := rfl
  unfold storesLeft storesDone
  rw [after]
  omega

/-! ### Some of the work is done -/

theorem rdDemux_served (inv : Inv s q) {i : Nat} (isPort : i < g.numLoads) (waits : q.rdDemux i ≠ [])
    (takes : c.lcReqIn i = true) : 0 < loadsDone s c := by
  have count := PipelinedDemux.completedCount_pos (c := s.rdDemuxCycle c) isPort (inv.rdDemux i) waits takes
  unfold loadsDone
  omega

theorem wrDemux_served (inv : Inv s q) {i : Nat} (isPort : i < g.numStores) (waits : q.wrDemux i ≠ [])
    (takes : c.scReqIn i = true) : 0 < storesDone s c := by
  have count := PipelinedDemux.completedCount_pos (c := s.wrDemuxCycle c) isPort (inv.wrDemux i) waits takes
  unfold storesDone
  omega

/-- A result that stays in the bank would have gone to the empty queue of its port. -/
theorem bankLoad_served (inv : Inv s q) (queues : ∀ i < g.numLoads, q.rdDemux i = []) (idle : loadsDone s c = 0) :
    s.bank.readResultReady = false := by
  by_contra ready
  have ready : s.bank.readResultReady = true := Bool.eq_true_of_not_eq_false ready
  have isPort := inv.loadHomed _ (show _ ∈ s.bank.pendingLoad by
    rw [MemoryBank.State.pendingLoad, if_pos ready]
    exact List.mem_singleton_self _)
  have room : PipelinedDemux.ackOut g.numLoads s.rdDemux (s.rdDemuxCycle c) = true := by
    have held := inv.rdDemux (s.bank.readTagOut.extractLsb' 0 g.loadPortIdWidth).toNat
    rw [queues _ isPort] at held
    exact PipelinedDemux.ackOut_of_empty (c := s.rdDemuxCycle c) isPort rfl held ready
  have count := takenLoad_length (s := s) (c := c)
  have offers : (s.rdDemuxCycle c).reqIn = true := ready
  rw [room, offers, Bool.and_self, if_pos rfl] at count
  unfold loadsDone at idle
  omega

theorem bankStore_served (inv : Inv s q) (queues : ∀ i < g.numStores, q.wrDemux i = []) (idle : storesDone s c = 0) :
    s.bank.writeResultReady = false := by
  by_contra ready
  have ready : s.bank.writeResultReady = true := Bool.eq_true_of_not_eq_false ready
  have isPort := inv.storeHomed _ (show _ ∈ s.bank.pendingStore by
    rw [MemoryBank.State.pendingStore, if_pos ready]
    exact List.mem_singleton_self _)
  have room : PipelinedDemux.ackOut g.numStores s.wrDemux (s.wrDemuxCycle c) = true := by
    have held := inv.wrDemux (s.bank.writeTagOut.extractLsb' 0 g.storePortIdWidth).toNat
    rw [queues _ isPort] at held
    exact PipelinedDemux.ackOut_of_empty (c := s.wrDemuxCycle c) isPort rfl held ready
  have count := takenStore_length (s := s) (c := c)
  have offers : (s.wrDemuxCycle c).reqIn = true := ready
  rw [room, offers, Bool.and_self, if_pos rfl] at count
  unfold storesDone at idle
  omega

theorem bank_ready (noLoad : s.bank.readResultReady = false) (noStore : s.bank.writeResultReady = false) :
    s.bank.ready (s.bankCycle c) = true := by
  unfold MemoryBank.State.readResultReady at noLoad
  unfold MemoryBank.State.writeResultReady at noStore
  unfold MemoryBank.State.ready
  cases state : s.bank.fsmState with
  | idle => rfl
  | rdone => exact absurd noLoad (by rw [state]; decide)
  | wdone => exact absurd noStore (by rw [state]; decide)

theorem writeAck_of_ready (ready : s.bank.ready (s.bankCycle c) = true) (enable : (s.bankCycle c).writeEnable = true) :
    s.bank.writeAck (s.bankCycle c) = true := by
  unfold MemoryBank.State.writeAck MemoryBank.State.writeActive
  rw [ready, enable]
  cases (s.bankCycle c).readEnable <;> rfl

theorem readAck_of_ready (ready : s.bank.ready (s.bankCycle c) = true) (noStore : (s.bankCycle c).writeEnable = false)
    (enable : (s.bankCycle c).readEnable = true) : s.bank.readAck (s.bankCycle c) = true := by
  unfold MemoryBank.State.readAck MemoryBank.State.writeActive MemoryBank.State.readActive
  rw [ready, noStore, enable]
  rfl

/-- When the queues of the ports are empty, a cycle that does nothing has nothing to do. -/
theorem left_eq_zero (inv : Inv s q) (rdQueues : ∀ i < g.numLoads, q.rdDemux i = [])
    (wrQueues : ∀ i < g.numStores, q.wrDemux i = []) (noLoads : loadsDone s c = 0) (noStores : storesDone s c = 0) :
    loadsLeft s q + storesLeft s q = 0 := by
  have noLoad := bankLoad_served inv rdQueues noLoads
  have noStore := bankStore_served inv wrQueues noStores
  have ready := bank_ready (c := c) noLoad noStore
  have mergeStore : PipelinedMux.mergeReqOut g.wmux s.wmux (s.wrMuxInputs c) = (s.bankCycle c).writeEnable := by
    have enable : (s.bankCycle c).writeEnable = PipelinedMux.mergeReqOut g.wmux s.wmux (State.wrMuxCycle c false) := rfl
    rw [enable, PipelinedMux.merge_eq.1, PipelinedMux.merge_eq.1]
  have mergeLoad : PipelinedMux.mergeReqOut g.rmux s.rmux (s.rdMuxInputs c) = (s.bankCycle c).readEnable := by
    have enable : (s.bankCycle c).readEnable = PipelinedMux.mergeReqOut g.rmux s.rmux (State.rdMuxCycle c false) := rfl
    rw [enable, PipelinedMux.merge_eq.1, PipelinedMux.merge_eq.1]
  have takesStore : (s.bankCycle c).writeEnable = true →
      0 < (PipelinedMux.taken g.wmux s.wmux (s.wrMuxInputs c)).toList.length := by
    intro enable
    rw [taken_store, if_pos (writeAck_of_ready ready enable)]
    exact Nat.one_pos
  have noEnable : (s.bankCycle c).writeEnable = false := by
    by_contra enable
    have taken := takesStore (Bool.eq_true_of_not_eq_false enable)
    have passes := PipelinedMux.taken_le_passes (g := g.wmux) (s := s.wmux) (c := s.wrMuxInputs c)
    unfold storesDone at noStores
    omega
  have stores : PipelinedMux.work g.wmux q.wmux = 0 := by
    by_contra waits
    have passes := inv.wmux.passes_pos (c := s.wrMuxInputs c) (Nat.pos_of_ne_zero waits)
      fun stands => takesStore (mergeStore ▸ stands)
    unfold storesDone at noStores
    omega
  have loads : PipelinedMux.work g.rmux q.rmux = 0 := by
    by_contra waits
    have passes := inv.rmux.passes_pos (c := s.rdMuxInputs c) (Nat.pos_of_ne_zero waits) fun stands => by
      rw [taken_load, if_pos (readAck_of_ready ready noEnable (mergeLoad ▸ stands))]
      exact Nat.one_pos
    unfold loadsDone at noLoads
    omega
  have rdCount : ∑ i ∈ Finset.range g.numLoads, (q.rdDemux i).length = 0 := Finset.sum_eq_zero fun i member => by
    rw [rdQueues i (Finset.mem_range.mp member)]
    rfl
  have wrCount : ∑ i ∈ Finset.range g.numStores, (q.wrDemux i).length = 0 := Finset.sum_eq_zero fun i member => by
    rw [wrQueues i (Finset.mem_range.mp member)]
    rfl
  unfold loadsLeft storesLeft MemoryBank.State.pendingLoad MemoryBank.State.pendingStore
  rw [noLoad, noStore, loads, stores, rdCount, wrCount]
  rfl

theorem waiting_eq_nil (none : loadsLeft s q = 0) {i : Nat} (isPort : i < g.numLoads) :
    q.waitingLoads i = [] ∧ q.pendingLoads s i = [] := by
  unfold loadsLeft at none
  have queue : q.rdDemux i = [] := by
    have count := Finset.single_le_sum (f := fun i => (q.rdDemux i).length) (fun _ _ => Nat.zero_le _)
      (Finset.mem_range.mpr isPort)
    exact List.length_eq_zero_iff.mp (by omega)
  have bank : s.bank.pendingLoad = [] := List.length_eq_zero_iff.mp (by omega)
  unfold Contents.waitingLoads Contents.pendingLoads
  rw [PipelinedMux.row_eq_nil (by omega) isPort, queue, bank]
  exact ⟨rfl, rfl⟩

theorem waitingStores_eq_nil (none : storesLeft s q = 0) {i : Nat} (isPort : i < g.numStores) :
    q.waitingStores i = [] ∧ q.pendingStores s i = [] := by
  unfold storesLeft at none
  have queue : q.wrDemux i = [] := by
    have count := Finset.single_le_sum (f := fun i => (q.wrDemux i).length) (fun _ _ => Nat.zero_le _)
      (Finset.mem_range.mpr isPort)
    exact List.length_eq_zero_iff.mp (by omega)
  have bank : s.bank.pendingStore = [] := List.length_eq_zero_iff.mp (by omega)
  unfold Contents.waitingStores Contents.pendingStores
  rw [PipelinedMux.row_eq_nil (by omega) isPort, queue, bank]
  exact ⟨rfl, rfl⟩

end Quiet

def left (s : State g) (q : Contents g) : Nat := loadsLeft s q + storesLeft s q

section Rounds
variable {s : State g} {cs : List (Cycle g)} {q q' : Contents g}

theorem Steps.left_le (steps : Steps s cs q q') (quiet : ∀ c ∈ cs, c.Quiet) : left (s.run cs) q' ≤ left s q := by
  induction steps with
  | nil inv => exact Nat.le_refl _
  | @cons s c cs q q₁ q' inv step rest ih =>
      have here := quiet c List.mem_cons_self
      have loads := step.loadsLeft_le here
      have stores := step.storesLeft_le here
      have later := ih fun later member => quiet later (List.mem_cons_of_mem _ member)
      have run : s.run (c :: cs) = (s.next c).run cs := rfl
      rw [run]
      unfold left at later ⊢
      omega

/-- What waits until a cycle takes it, and is then worked on, leaves less in the end. -/
theorem Steps.left_lt {waits : Contents g → Prop} {takes : Cycle g → Prop}
    (served : ∀ {s : State g} {c : Cycle g} {q : Contents g}, Inv s q → waits q → takes c →
      0 < loadsDone s c + storesDone s c)
    (stays : ∀ {s : State g} {c : Cycle g} {q q' : Contents g}, Step s c q q' → waits q → ¬ takes c → waits q')
    (steps : Steps s cs q q') (quiet : ∀ c ∈ cs, c.Quiet) (now : waits q) (taken : ∃ c ∈ cs, takes c) :
    left (s.run cs) q' < left s q := by
  induction steps with
  | nil inv => exact absurd taken (by simp)
  | @cons s c cs q q₁ q' inv step rest ih =>
      have here := quiet c List.mem_cons_self
      have loads := step.loadsLeft_le here
      have stores := step.storesLeft_le here
      have quietRest : ∀ c ∈ cs, c.Quiet := fun later member => quiet later (List.mem_cons_of_mem _ member)
      have run : s.run (c :: cs) = (s.next c).run cs := rfl
      rw [run]
      by_cases done : takes c
      · have works := served inv now done
        have later := rest.left_le quietRest
        unfold left at later ⊢
        omega
      · obtain ⟨d, member, takesLater⟩ := taken
        rcases List.mem_cons.mp member with rfl | member
        · exact absurd takesLater done
        · have later := ih quietRest (stays step now done) ⟨d, member, takesLater⟩
          unfold left at later ⊢
          omega

theorem Steps.load_served (steps : Steps s cs q q') (quiet : ∀ c ∈ cs, c.Quiet) {i : Nat} (isPort : i < g.numLoads)
    (waits : q.rdDemux i ≠ []) (takes : ∃ c ∈ cs, c.lcReqIn i = true) : left (s.run cs) q' < left s q :=
  steps.left_lt (fun inv waits takes => Nat.add_pos_left (rdDemux_served inv isPort waits takes) _)
    (fun step waits refuses => PipelinedDemux.waits_of_refused (step.rdDemux i isPort) refuses waits) quiet waits takes

theorem Steps.store_served (steps : Steps s cs q q') (quiet : ∀ c ∈ cs, c.Quiet) {i : Nat} (isPort : i < g.numStores)
    (waits : q.wrDemux i ≠ []) (takes : ∃ c ∈ cs, c.scReqIn i = true) : left (s.run cs) q' < left s q :=
  steps.left_lt (fun inv waits takes => Nat.add_pos_right _ (wrDemux_served inv isPort waits takes))
    (fun step waits refuses => PipelinedDemux.waits_of_refused (step.wrDemux i isPort) refuses waits) quiet waits takes

theorem Steps.round (steps : Steps s cs q q') (round : Round cs) :
    left (s.run cs) q' < left s q ∨ left (s.run cs) q' = 0 := by
  by_cases rdWaits : ∃ i < g.numLoads, q.rdDemux i ≠ []
  · obtain ⟨i, isPort, waits⟩ := rdWaits
    exact .inl (steps.load_served round.quiet isPort waits (round.loads i isPort))
  by_cases wrWaits : ∃ i < g.numStores, q.wrDemux i ≠ []
  · obtain ⟨i, isPort, waits⟩ := wrWaits
    exact .inl (steps.store_served round.quiet isPort waits (round.stores i isPort))
  push Not at rdWaits wrWaits
  cases steps with
  | nil inv =>
      obtain ⟨c, member, _⟩ := round.loads 0 g.loads_pos
      exact absurd member List.not_mem_nil
  | @cons _ c cs _ q₁ _ inv step rest =>
      have here := round.quiet c List.mem_cons_self
      have loads := step.loadsLeft_le here
      have stores := step.storesLeft_le here
      have later := rest.left_le fun later member => round.quiet later (List.mem_cons_of_mem _ member)
      have run : s.run (c :: cs) = (s.next c).run cs := rfl
      rw [run]
      by_cases idle : loadsDone s c = 0 ∧ storesDone s c = 0
      · have none := left_eq_zero inv rdWaits wrWaits idle.1 idle.2
        unfold left at later ⊢
        omega
      · unfold left at later ⊢
        omega

theorem Steps.append {ds : List (Cycle g)} {q₁ : Contents g} (first : Steps s cs q q₁) (second : Steps (s.run cs) ds q₁ q') :
    Steps s (cs ++ ds) q q' := by
  induction first with
  | nil _ => exact second
  | cons inv step _ ih => exact .cons inv step (ih second)

theorem Inv.rounds : ∀ (rounds : List (List (Cycle g))) {s : State g} {q : Contents g}, Inv s q →
    (∀ r ∈ rounds, Round r) → left s q ≤ rounds.length →
      ∃ q', Steps s rounds.flatten q q' ∧ left (s.run rounds.flatten) q' = 0 := by
  intro rounds
  induction rounds with
  | nil => exact fun inv _ enough => ⟨_, .nil inv, Nat.le_zero.mp enough⟩
  | cons r rounds ih =>
      intro s q inv all enough
      obtain ⟨q₁, steps⟩ := inv.steps r
      have fewer : left (s.run r) q₁ ≤ rounds.length := by
        rw [List.length_cons] at enough
        rcases steps.round (all r List.mem_cons_self) with less | none <;> omega
      obtain ⟨q', rest, none⟩ := ih steps.inv (fun later member => all later (List.mem_cons_of_mem _ member)) fewer
      have run : s.run (r :: rounds).flatten = (s.run r).run rounds.flatten := List.foldl_append
      exact ⟨q', steps.append rest, run ▸ none⟩

end Rounds

/-! ### The whole run -/

def Access.Homed : Access g → Prop
  | .load port .. => port < g.numLoads
  | .store port .. => port < g.numStores

theorem performed_homed {s : State g} {c : Cycle g} {q : Contents g} (inv : Inv s q) : ∀ access ∈ s.performed c, access.Homed := by
  intro access member
  unfold State.performed at member
  simp only at member
  split_ifs at member with writes reads
  · rw [List.mem_singleton.mp member]
    exact inv.writeTag_homed writes
  · rw [List.mem_singleton.mp member]
    exact inv.readTag_homed reads
  · exact absurd member List.not_mem_nil

theorem Steps.homed {s : State g} {cs : List (Cycle g)} {q q' : Contents g} (steps : Steps s cs q q') :
    ∀ access ∈ State.trace State.performed s cs, access.Homed := by
  induction steps with
  | nil _ => exact fun _ member => absurd member List.not_mem_nil
  | cons inv _ _ ih =>
      intro access member
      rcases List.mem_append.mp member with here | later
      · exact performed_homed inv access here
      · exact ih access later

theorem Steps.loads {s : State g} {cs : List (Cycle g)} {q q' : Contents g} (steps : Steps s cs q q') {i : Nat}
    (isPort : i < g.numLoads) :
    q.waitingLoads i ++ State.trace (fun s c => s.acceptedLoad c i) s cs =
        (State.trace State.performed s cs).filterMap (Access.loadRequest i) ++ q'.waitingLoads i ∧
      q.pendingLoads s i ++ (State.trace State.performed s cs).filterMap (Access.loadResult i) =
        State.trace (fun s c => s.completedLoad c i) s cs ++ q'.pendingLoads (s.run cs) i := by
  rw [trace_filterMap, trace_filterMap]
  exact ⟨Steps.law (fun _ q => q.waitingLoads i) (fun _ _ _ _ inv step => step.loads_wait inv isPort) steps,
    Steps.law (fun s q => q.pendingLoads s i) (fun _ _ _ _ _ step => step.loads_pend isPort) steps⟩

theorem Steps.stores {s : State g} {cs : List (Cycle g)} {q q' : Contents g} (steps : Steps s cs q q') {i : Nat}
    (isPort : i < g.numStores) :
    q.waitingStores i ++ State.trace (fun s c => s.acceptedStore c i) s cs =
        (State.trace State.performed s cs).filterMap (Access.storeRequest i) ++ q'.waitingStores i ∧
      q.pendingStores s i ++ (State.trace State.performed s cs).filterMap (Access.storeResult i) =
        State.trace (fun s c => s.completedStore c i) s cs ++ q'.pendingStores (s.run cs) i := by
  rw [trace_filterMap, trace_filterMap]
  exact ⟨Steps.law (fun _ q => q.waitingStores i) (fun _ _ _ _ inv step => step.stores_wait inv isPort) steps,
    Steps.law (fun s q => q.pendingStores s i) (fun _ _ _ _ _ step => step.stores_pend isPort) steps⟩

/-- What a run from reset shows: `log` is what the bank performs. -/
structure Delivers (s : State g) (cs : List (Cycle g)) (log : List (Access g)) : Prop where
  /-- The bank is a memory, and a load has the word that was there. -/
  reads : Access.Reads s.contents log
  contents : (s.run cs).contents = log.foldl Access.apply s.contents
  homed : ∀ access ∈ log, access.Homed
  /-- What is performed for a port is what it was promised, in its order, up to what waits. -/
  loads : ∀ i < g.numLoads, log.filterMap (Access.loadRequest i) <+: State.trace (fun s c => s.acceptedLoad c i) s cs
  stores : ∀ i < g.numStores, log.filterMap (Access.storeRequest i) <+: State.trace (fun s c => s.acceptedStore c i) s cs
  /-- What completes at a port is what was performed for it, in its order, up to what waits. -/
  loadResults : ∀ i < g.numLoads, State.trace (fun s c => s.completedLoad c i) s cs <+: log.filterMap (Access.loadResult i)
  storeResults : ∀ i < g.numStores,
    State.trace (fun s c => s.completedStore c i) s cs <+: log.filterMap (Access.storeResult i)

structure Served (s : State g) (cs : List (Cycle g)) (log : List (Access g)) : Prop where
  loads : ∀ i < g.numLoads, log.filterMap (Access.loadRequest i) = State.trace (fun s c => s.acceptedLoad c i) s cs
  stores : ∀ i < g.numStores, log.filterMap (Access.storeRequest i) = State.trace (fun s c => s.acceptedStore c i) s cs
  loadResults : ∀ i < g.numLoads, State.trace (fun s c => s.completedLoad c i) s cs = log.filterMap (Access.loadResult i)
  storeResults : ∀ i < g.numStores,
    State.trace (fun s c => s.completedStore c i) s cs = log.filterMap (Access.storeResult i)

theorem left_reset (s : State g) (c : Cycle g) :
    left (s.reset c) ⟨fun _ _ => [], fun _ _ => [], fun _ => [], fun _ => []⟩ = 0 := by
  have loads : (s.reset c).bank.pendingLoad = [] := rfl
  have stores : (s.reset c).bank.pendingStore = [] := rfl
  simp [left, loadsLeft, storesLeft, PipelinedMux.work, PipelinedMux.stageCount, loads, stores]

theorem Steps.served {s : State g} {cs : List (Cycle g)} {q q' : Contents g} (steps : Steps s cs q q')
    (none : left s q = 0) (done : left (s.run cs) q' = 0) : Served s cs (State.trace State.performed s cs) := by
  unfold left at none done
  have loads := fun i isPort => waiting_eq_nil (s := s) (q := q) (i := i) (by omega) isPort
  have loadsDone := fun i isPort => waiting_eq_nil (s := s.run cs) (q := q') (i := i) (by omega) isPort
  have stores := fun i isPort => waitingStores_eq_nil (s := s) (q := q) (i := i) (by omega) isPort
  have storesDone := fun i isPort => waitingStores_eq_nil (s := s.run cs) (q := q') (i := i) (by omega) isPort
  refine ⟨fun i isPort => ?_, fun i isPort => ?_, fun i isPort => ?_, fun i isPort => ?_⟩
  · have law := (steps.loads isPort).1
    rw [(loads i isPort).1, (loadsDone i isPort).1, List.append_nil] at law
    exact law.symm
  · have law := (steps.stores isPort).1
    rw [(stores i isPort).1, (storesDone i isPort).1, List.append_nil] at law
    exact law.symm
  · have law := (steps.loads isPort).2
    rw [(loads i isPort).2, (loadsDone i isPort).2, List.append_nil] at law
    exact law.symm
  · have law := (steps.stores isPort).2
    rw [(stores i isPort).2, (storesDone i isPort).2, List.append_nil] at law
    exact law.symm

theorem Steps.delivers {s : State g} {cs : List (Cycle g)} {q q' : Contents g} (steps : Steps s cs q q')
    (none : left s q = 0) : Delivers s cs (State.trace State.performed s cs) := by
  obtain ⟨reads, contents⟩ := run_memory cs s
  unfold left at none
  refine ⟨reads, contents, steps.homed, fun i isPort => ⟨q'.waitingLoads i, ?_⟩, fun i isPort => ⟨q'.waitingStores i, ?_⟩,
    fun i isPort => ⟨q'.pendingLoads (s.run cs) i, ?_⟩, fun i isPort => ⟨q'.pendingStores (s.run cs) i, ?_⟩⟩
  · rw [← (steps.loads isPort).1, (waiting_eq_nil (s := s) (by omega) isPort).1]
    rfl
  · rw [← (steps.stores isPort).1, (waitingStores_eq_nil (s := s) (by omega) isPort).1]
    rfl
  · rw [← (steps.loads isPort).2, (waiting_eq_nil (by omega) isPort).2]
    rfl
  · rw [← (steps.stores isPort).2, (waitingStores_eq_nil (by omega) isPort).2]
    rfl

/-- From reset on nothing is lost, duplicated or misrouted; and once no more requests come,
so many rounds of completions later everything that was accepted is served. -/
theorem unorderedMemory_delivers (s₀ : State g) (c₀ : Cycle g) (cs : List (Cycle g)) :
    Delivers (s₀.reset c₀) cs (State.trace State.performed (s₀.reset c₀) cs) ∧
      ∃ enough, ∀ rounds : List (List (Cycle g)), (∀ r ∈ rounds, Round r) → enough ≤ rounds.length →
        Served (s₀.reset c₀) (cs ++ rounds.flatten)
          (State.trace State.performed (s₀.reset c₀) (cs ++ rounds.flatten)) := by
  obtain ⟨q, steps⟩ := (inv_reset s₀ c₀).steps cs
  refine ⟨steps.delivers (left_reset s₀ c₀), left ((s₀.reset c₀).run cs) q, fun rounds all enough => ?_⟩
  obtain ⟨q', rest, none⟩ := steps.inv.rounds rounds all enough
  have run : (s₀.reset c₀).run (cs ++ rounds.flatten) = ((s₀.reset c₀).run cs).run rounds.flatten := List.foldl_append
  exact (steps.append rest).served (left_reset s₀ c₀) (run ▸ none)

end Ahir.Hardware.UnorderedMemory
