import Ahir.Hardware.UnorderedRun

/-!
# Every request is performed and completed once

The steps of the parts taken together, over whole runs, and what happens when no
more requests come.
-/

set_option autoImplicit false

namespace Ahir.Hardware.UnorderedMemory
variable {g : Generics}

structure Step (s : State g) (c : Cycle g) (q q' : Contents g) : Prop where
  inv : Inv (s.next c) q'
  rmux : ∀ stage output, stage < g.rmux.numberOfStages → output < g.rmux.stageWidth (stage + 1) →
    q.rmux stage output ++ ((queueBase 2).pushed (s.rmux stage output)
        (PipelinedMux.request g.rmux s.rmux (s.rdMuxInputs c) stage output)).toList =
      (PipelinedMux.moved g.rmux s.rmux (s.rdMuxInputs c) (stage + 1) output).toList ++ q'.rmux stage output
  wmux : ∀ stage output, stage < g.wmux.numberOfStages → output < g.wmux.stageWidth (stage + 1) →
    q.wmux stage output ++ ((queueBase 2).pushed (s.wmux stage output)
        (PipelinedMux.request g.wmux s.wmux (s.wrMuxInputs c) stage output)).toList =
      (PipelinedMux.moved g.wmux s.wmux (s.wrMuxInputs c) (stage + 1) output).toList ++ q'.wmux stage output
  rdDemux : ∀ i < g.numLoads,
    q.rdDemux i ++ (PipelinedDemux.delivered g.numLoads s.rdDemux (s.rdDemuxCycle c) i).toList =
      (PipelinedDemux.completed s.rdDemux (s.rdDemuxCycle c) i).toList ++ q'.rdDemux i
  wrDemux : ∀ i < g.numStores,
    q.wrDemux i ++ (PipelinedDemux.delivered g.numStores s.wrDemux (s.wrDemuxCycle c) i).toList =
      (PipelinedDemux.completed s.wrDemux (s.wrDemuxCycle c) i).toList ++ q'.wrDemux i

section Step
variable {s : State g} {c : Cycle g} {q q' : Contents g}

theorem Inv.readTag_homed (inv : Inv s q) (reads : s.bank.readAck (s.bankCycle c) = true) :
    ((s.bankCycle c).readTag.extractLsb' 0 g.loadPortIdWidth).toNat < g.numLoads := by
  have move : PipelinedMux.moved g.rmux s.rmux (s.rdMuxInputs c) g.rmux.numberOfStages 0 = some (s.rdMuxDataOut c) := by
    rw [PipelinedMux.moved_last, taken_load, if_pos reads]
  exact (inv.rmux.moved_homed (rdMux_fits _) (Nat.le_refl _) (g.rmux.stageWidth_pos _) move).1

theorem Inv.writeTag_homed (inv : Inv s q) (writes : s.bank.writeAck (s.bankCycle c) = true) :
    ((s.bankCycle c).writeTag.extractLsb' 0 g.storePortIdWidth).toNat < g.numStores := by
  have move : PipelinedMux.moved g.wmux s.wmux (s.wrMuxInputs c) g.wmux.numberOfStages 0 = some (s.wrMuxDataOut c) := by
    rw [PipelinedMux.moved_last, taken_store, if_pos writes]
  exact (inv.wmux.moved_homed (wrMux_fits _) (Nat.le_refl _) (g.wmux.stageWidth_pos _) move).1

theorem Inv.step (inv : Inv s q) : ∃ q', Step s c q q' := by
  obtain ⟨rmux', rmuxHolds, rmuxLaw⟩ := inv.rmux.queues (c := s.rdMuxInputs c) (rdMux_fits _)
  obtain ⟨wmux', wmuxHolds, wmuxLaw⟩ := inv.wmux.queues (c := s.wrMuxInputs c) (wrMux_fits _)
  obtain ⟨rd', rdHolds, rdLaw⟩ := PipelinedDemux.step (c := s.rdDemuxCycle c) inv.rdDemux
  obtain ⟨wr', wrHolds, wrLaw⟩ := PipelinedDemux.step (c := s.wrDemuxCycle c) inv.wrDemux
  refine ⟨⟨rmux', wmux', rd', wr'⟩, ⟨rmuxHolds, wmuxHolds, rdHolds, wrHolds, ?_, ?_⟩, rmuxLaw, wmuxLaw,
    rdLaw, wrLaw⟩
  · intro r member
    have known : r ∈ s.bank.pendingLoad ++ s.bank.performedLoad (s.bankCycle c) := by
      rw [MemoryBank.State.loads_step]
      exact List.mem_append_right _ member
    rcases List.mem_append.mp known with waits | performs
    · exact inv.loadHomed r waits
    · unfold MemoryBank.State.performedLoad at performs
      split_ifs at performs with reads
      · obtain rfl := List.mem_singleton.mp performs
        exact inv.readTag_homed reads
      · exact absurd performs List.not_mem_nil
  · intro r member
    have known : r ∈ s.bank.pendingStore ++ s.bank.performedStore (s.bankCycle c) := by
      rw [MemoryBank.State.stores_step]
      exact List.mem_append_right _ member
    rcases List.mem_append.mp known with waits | performs
    · exact inv.storeHomed r waits
    · unfold MemoryBank.State.performedStore at performs
      split_ifs at performs with writes
      · obtain rfl := List.mem_singleton.mp performs
        exact inv.writeTag_homed writes
      · exact absurd performs List.not_mem_nil

theorem Step.loads_wait (step : Step s c q q') (inv : Inv s q) {i : Nat} (isPort : i < g.numLoads) :
    q.waitingLoads i ++ s.acceptedLoad c i =
      (s.performed c).filterMap (Access.loadRequest i) ++ q'.waitingLoads i := by
  have rows := congrArg (List.map loadFields) (inv.rmux.rows (rdMux_fits _) step.rmux isPort)
  rw [List.map_append, List.map_append] at rows
  rw [acceptedLoad_eq, performed_loadRequest]
  exact rows

theorem Step.stores_wait (step : Step s c q q') (inv : Inv s q) {i : Nat} (isPort : i < g.numStores) :
    q.waitingStores i ++ s.acceptedStore c i =
      (s.performed c).filterMap (Access.storeRequest i) ++ q'.waitingStores i := by
  have rows := congrArg (List.map storeFields) (inv.wmux.rows (wrMux_fits _) step.wmux isPort)
  rw [List.map_append, List.map_append] at rows
  rw [acceptedStore_eq, performed_storeRequest]
  exact rows

theorem Step.loads_pend (step : Step s c q q') {i : Nat} (isPort : i < g.numLoads) :
    q.pendingLoads s i ++ (s.performed c).filterMap (Access.loadResult i) =
      s.completedLoad c i ++ q'.pendingLoads (s.next c) i := by
  have bank := congrArg (bankLoads i) (MemoryBank.State.loads_step (s := s.bank) (c := s.bankCycle c))
  have queue := congrArg (List.map fun x : BitVec (g.dataWidth + g.tagWidth) =>
    (x.extractLsb' g.tagWidth g.dataWidth, x.extractLsb' 0 g.tagWidth)) (step.rdDemux i isPort)
  unfold bankLoads at bank
  rw [List.filterMap_append, List.filterMap_append] at bank
  rw [List.map_append, List.map_append, ← taken_loadResult] at queue
  rw [performed_loadResult]
  unfold Contents.pendingLoads State.completedLoad
  rw [List.append_assoc, ← List.append_assoc _ (List.map _ (q'.rdDemux i)), ← queue, List.append_assoc]
  exact congrArg _ bank

theorem Step.stores_pend (step : Step s c q q') {i : Nat} (isPort : i < g.numStores) :
    q.pendingStores s i ++ (s.performed c).filterMap (Access.storeResult i) =
      s.completedStore c i ++ q'.pendingStores (s.next c) i := by
  have bank := congrArg (bankStores i) (MemoryBank.State.stores_step (s := s.bank) (c := s.bankCycle c))
  have queue := step.wrDemux i isPort
  unfold bankStores at bank
  rw [List.filterMap_append, List.filterMap_append] at bank
  rw [← taken_storeResult] at queue
  rw [performed_storeResult]
  unfold Contents.pendingStores State.completedStore
  rw [List.append_assoc, ← List.append_assoc _ (q'.wrDemux i), ← queue, List.append_assoc]
  exact congrArg _ bank

theorem contents_next : (s.next c).contents = (s.performed c).foldl Access.apply s.contents := by
  have memory := MemoryBank.State.contents_next (s := s.bank) (c := s.bankCycle c)
  unfold State.contents State.performed
  by_cases writes : s.bank.writeAck (s.bankCycle c) = true
  · simp only [if_pos writes] at memory ⊢
    exact memory
  · simp only [if_neg writes] at memory ⊢
    split_ifs <;> exact memory

theorem performed_reads : Access.Reads s.contents (s.performed c) := by
  unfold State.performed
  simp only
  split_ifs
  · exact trivial
  · exact ⟨rfl, trivial⟩
  · exact trivial

end Step

/-! ### Runs -/

inductive Steps : State g → List (Cycle g) → Contents g → Contents g → Prop
  | nil {s : State g} {q : Contents g} (inv : Inv s q) : Steps s [] q q
  | cons {s : State g} {c : Cycle g} {cs : List (Cycle g)} {q q₁ q' : Contents g} (inv : Inv s q)
      (step : Step s c q q₁) (rest : Steps (s.next c) cs q₁ q') : Steps s (c :: cs) q q'

theorem Inv.steps : ∀ (cs : List (Cycle g)) {s : State g} {q : Contents g}, Inv s q → ∃ q', Steps s cs q q' := by
  intro cs
  induction cs with
  | nil => exact fun inv => ⟨_, .nil inv⟩
  | cons c cs ih =>
      intro s q inv
      obtain ⟨q₁, step⟩ := inv.step (c := c)
      obtain ⟨q', rest⟩ := ih step.inv
      exact ⟨q', .cons inv step rest⟩

theorem Steps.inv {s : State g} {cs : List (Cycle g)} {q q' : Contents g} (steps : Steps s cs q q') :
    Inv (s.run cs) q' := by
  induction steps with
  | nil inv => exact inv
  | cons _ _ _ ih => exact ih

/-- What holds of each cycle between what is there, what comes and what goes holds of the run. -/
theorem Steps.law {α : Type} (there : State g → Contents g → List α) {come go : State g → Cycle g → List α}
    (law : ∀ s c q q', Inv s q → Step s c q q' → there s q ++ come s c = go s c ++ there (s.next c) q')
    {s : State g} {cs : List (Cycle g)} {q q' : Contents g} (steps : Steps s cs q q') :
    there s q ++ State.trace come s cs = State.trace go s cs ++ there (s.run cs) q' := by
  induction steps with
  | nil inv => exact List.append_nil _
  | @cons s c cs q q₁ q' inv step rest ih =>
      calc there s q ++ (come s c ++ State.trace come (s.next c) cs)
          = (go s c ++ there (s.next c) q₁) ++ State.trace come (s.next c) cs := by
            rw [← List.append_assoc, law s c q q₁ inv step]
        _ = go s c ++ (State.trace go (s.next c) cs ++ there ((s.next c).run cs) q') := by rw [List.append_assoc, ih]
        _ = State.trace go s (c :: cs) ++ there (s.run (c :: cs)) q' := by
            rw [← List.append_assoc]
            rfl

theorem trace_filterMap {α β : Type} (f : α → Option β) (seen : State g → Cycle g → List α) : ∀ (cs : List (Cycle g)) (s : State g),
    (State.trace seen s cs).filterMap f = State.trace (fun s c => (seen s c).filterMap f) s cs := by
  intro cs
  induction cs with
  | nil => exact fun _ => rfl
  | cons c cs ih => exact fun s => by rw [State.trace, List.filterMap_append, ih]; rfl

theorem Access.reads_append {memory : BitVec g.addrWidth → BitVec g.dataWidth} : ∀ {log rest : List (Access g)},
    Reads memory log → Reads (log.foldl apply memory) rest → Reads memory (log ++ rest) := by
  intro log
  induction log generalizing memory with
  | nil => exact fun _ reads => reads
  | cons access log ih =>
      intro rest first second
      cases access with
      | load port addr tag word => exact ⟨first.1, ih first.2 second⟩
      | store port addr data tag => exact @ih (Function.update memory addr data) _ first second

theorem run_memory : ∀ (cs : List (Cycle g)) (s : State g),
    Access.Reads s.contents (State.trace State.performed s cs) ∧
      (s.run cs).contents = (State.trace State.performed s cs).foldl Access.apply s.contents := by
  intro cs
  induction cs with
  | nil => exact fun s => ⟨trivial, rfl⟩
  | cons c cs ih =>
      intro s
      obtain ⟨reads, contents⟩ := ih (s.next c)
      rw [contents_next] at reads contents
      refine ⟨Access.reads_append performed_reads reads, ?_⟩
      rw [State.trace, List.foldl_append]
      exact contents

theorem inv_reset (s : State g) (c : Cycle g) :
    Inv (s.reset c) ⟨fun _ _ => [], fun _ _ => [], fun _ => [], fun _ => []⟩ := by
  refine ⟨PipelinedMux.holds_reset, PipelinedMux.holds_reset, fun i => ?_, fun i => ?_, fun r member => ?_,
    fun r member => ?_⟩
  · exact (queueBaseWithEmptyFull_fifo false false 2).reset _ _
  · exact (queueBaseWithEmptyFull_fifo false false 2).reset _ _
  · exact absurd member List.not_mem_nil
  · exact absurd member List.not_mem_nil

end Ahir.Hardware.UnorderedMemory
