import Ahir.Run.Chronicle
import Ahir.ControlPath.GroupDelete

/-!
# Reducing the group graph

`Reduce_CPElement_Group_Graph` eliminates dead groups, merges groups into the
nucleii that lead to them, merges once more what has one predecessor only, and
collapses the connected components of pure transitions.  The operations on the
graph are recorded in a chronicle.
-/

set_option autoImplicit false

namespace Ahir.ControlPath
open Ahir.Graph Ahir.Run

inductive GroupOperation where
  | deleteGroups (absorbedElements : List Nat)
  | mergeGroups (part whole : Nat)
  | collapsePureTransitionSet (tset : List Nat)

/-- `count[g] = count[g] + 1`. -/
def countVisit (count : Nat → Nat) (g : Nat) : Nat → Nat := fun h => if h = g then count g + 1 else count h

namespace GroupGraph
variable {E : Type} [DecidableEq E]

abbrev Reduction (E : Type) : Type := Chronicle (GroupGraph E) GroupOperation

/-- `Generate_Successor_Vector` for all groups. -/
def generateSuccessorVectors (C : GroupGraph E) : GroupGraph E :=
  { C with group := fun g =>
      if C.Live g then { C.group g with successorVector := (C.group g).successors } else C.group g }

section EliminateDeadGroups

structure DeadSearch where
  queue : List Nat
  onQueue : List Nat
  outVisitCount : Nat → Nat
  inVisitCount : Nat → Nat
  absorbed : List Nat

variable (m : Memory E) (C : GroupGraph E)

/-- `succ` is reached from the dead group on top. -/
def visitDead (s : DeadSearch) (succ : Nat) : DeadSearch :=
  if succ ∈ s.onQueue then s
  else if succ ∈ s.absorbed then s
  else if (C.group succ).hasInputTransition then s
  else
    let s' := if s.inVisitCount succ + 1 = (C.group succ).predecessors.length then
        { s with
          absorbed := insertPointer m.below succ s.absorbed
          onQueue := succ :: s.onQueue
          queue := succ :: s.queue }
      else s
    { s' with inVisitCount := countVisit s.inVisitCount succ }

def searchDead : Nat → DeadSearch → Option (List Nat)
  | 0, s => if s.queue = [] then some s.absorbed else none
  | fuel + 1, s =>
      match s.queue with
      | [] => some s.absorbed
      | top :: rest =>
          if s.outVisitCount top = (C.group top).successors.length then
            searchDead fuel { s with queue := rest, onQueue := erasePointer top s.onQueue }
          else
            match (C.group top).successorVector[s.outVisitCount top]? with
            | none => none
            | some succ =>
                searchDead fuel
                  (C.visitDead m { s with outVisitCount := countVisit s.outVisitCount top } succ)

def eliminateDeadGroups (fuel : Nat) (R : Reduction E) : Option (Reduction E) := do
  let R := R.revise R.current.generateSuccessorVectors
  let deadNucleii := insertPointers m.below []
    (R.current.cpelementGroups.filter fun g => (R.current.group g).hasDeadTransition)
  let absorbed ← R.current.searchDead m fuel
    ⟨deadNucleii.reverse, deadNucleii.reverse, fun _ => 0, fun _ => 0, deadNucleii⟩
  some (R.record (.deleteGroups absorbed) (R.current.deleteGroups absorbed))

end EliminateDeadGroups

section ReduceFromNucleus

def isNucleus (g : CPElementGroup E) : Bool :=
  g.predecessors.isEmpty || !g.markedPredecessors.isEmpty || g.hasInputTransition ||
    g.isBoundAsOutputFromCPFunction || g.isDelayElement ||
    (g.hasDeadTransition || g.hasTiedHighTransition || g.hasLeftOpenTransition)

structure AbsorbSearch where
  queue : List Nat
  onQueue : List Nat
  outVisitCount : Nat → Nat
  inVisitCount : Nat → Nat
  reductionVector : List Nat
  unabsorbed : List Nat

variable (m : Memory E) (C : GroupGraph E)

/-- `succ` is reached from `top`. -/
def visitAbsorbable (absorbed : List Nat) (top : Nat) (s : AbsorbSearch) (succ : Nat) : AbsorbSearch :=
  if succ ∈ absorbed then s
  else if succ ∈ s.onQueue then s
  else
    let s := { s with unabsorbed := insertPointer m.below succ s.unabsorbed }
    if (C.group top).canPotentiallyAbsorb (C.group succ) then
      let s' := if s.inVisitCount succ + 1 = (C.group succ).predecessors.length then
          { s with
            reductionVector := s.reductionVector ++ [succ]
            onQueue := succ :: s.onQueue
            queue := succ :: s.queue }
        else s
      { s' with inVisitCount := countVisit s.inVisitCount succ }
    else s

def searchAbsorbable (absorbed : List Nat) : Nat → AbsorbSearch → Option AbsorbSearch
  | 0, s => if s.queue = [] then some s else none
  | fuel + 1, s =>
      match s.queue with
      | [] => some s
      | top :: rest =>
          if s.outVisitCount top = (C.group top).successors.length then
            searchAbsorbable absorbed fuel { s with queue := rest, onQueue := erasePointer top s.onQueue }
          else
            match (C.group top).successorVector[s.outVisitCount top]? with
            | none => none
            | some succ =>
                searchAbsorbable absorbed fuel (C.visitAbsorbable m absorbed top
                  { s with outVisitCount := countVisit s.outVisitCount top } succ)

/-- The turn of the last loop of `Reduce_From_Nucleus` for `succ`. -/
def absorb (nucleus : Nat) (Ru : Reduction E × List Nat) (succ : Nat) :
    Option (Reduction E × List Nat) :=
  if (Ru.1.current.group nucleus).canPotentiallyAbsorb (Ru.1.current.group succ) then do
    let C ← Ru.1.current.mergeGroups m succ nucleus
    some (Ru.1.record (.mergeGroups succ nucleus) C, erasePointer succ Ru.2)
  else some Ru

def reduceFromNucleus (fuel : Nat) (nucleus : Nat) (absorbed : List Nat)
    (Ru : Reduction E × List Nat) : Option (Reduction E × List Nat) := do
  let s ← Ru.1.current.searchAbsorbable m absorbed fuel
    ⟨[nucleus], [], fun _ => 0, fun _ => 0, [], Ru.2⟩
  s.reductionVector.foldlM (absorb m nucleus) (Ru.1, s.unabsorbed)

def reduceFromNucleii (fuel : Nat) : Nat → List Nat → Reduction E × List Nat → Option (Reduction E)
  | 0, _, (R, nucleii) => if nucleii = [] then some R else none
  | turns + 1, absorbed, (R, nucleii) =>
      match nucleii with
      | [] => some R
      | nucleus :: rest => do
          let absorbed := insertPointer m.below nucleus absorbed
          let Ru ← reduceFromNucleus m fuel nucleus absorbed (R, rest)
          reduceFromNucleii fuel turns absorbed Ru

end ReduceFromNucleus

section LastGasp

def isReductionCandidate (g : CPElementGroup E) : Bool :=
  !g.isBoundAsOutputFromCPFunction && !g.hasInputTransition && g.markedPredecessors.isEmpty &&
    !g.isDelayElement && decide (g.predecessors.length = 1)

/-- The condition under which `Last_Gasp_Reduce` merges `g` into `pg`. -/
def mayMerge (g pg : CPElementGroup E) : Bool :=
  decide (g.pipelineParent = pg.pipelineParent) &&
    decide (g.associatedCPFunction = pg.associatedCPFunction) &&
    (g.pipelineParent.isSome ||
      !(pg.isJoin && g.isMerge) && !(pg.isMerge && g.isJoin) &&
        !(g.isBranch && pg.isFork) && !(g.isFork && pg.isBranch))

variable (m : Memory E)

def lastGaspTurn (R : Reduction E) (g : Nat) : Option (Reduction E) := do
  let pg ← (R.current.group g).predecessors.head?
  if mayMerge (R.current.group g) (R.current.group pg) then do
    let C ← R.current.mergeGroups m g pg
    some (R.record (.mergeGroups g pg) C)
  else some R

def lastGaspReduce (R : Reduction E) : Option (Reduction E) :=
  (R.current.cpelementGroups.filter fun g => isReductionCandidate (R.current.group g)).foldlM
    (lastGaspTurn m) R

end LastGasp

section Collapse
variable (m : Memory E) (connectedComponents : List Nat → List (Nat × Nat) → List (List Nat))

def pureTransitionGroups (C : GroupGraph E) : List Nat :=
  C.cpelementGroups.filter fun g => (C.group g).isPureTransitionGroup

def pureTransitionEdges (C : GroupGraph E) : List (Nat × Nat) :=
  C.pureTransitionGroups.flatMap fun g =>
    ((C.group g).successors.filter fun s => (C.group s).isPureTransitionGroup &&
      decide ((C.group g).pipelineParent = (C.group s).pipelineParent)).map fun s => (g, s)

def collapseTurn (R : Reduction E) (tset : List Nat) : Option (Reduction E) := do
  let C ← R.current.collapsePureTransitionSet m tset
  some (R.record (.collapsePureTransitionSet tset) C)

/-- `connectedComponents` is that of the graph library. -/
def collapsePureTransitionComponents (R : Reduction E) : Option (Reduction E) :=
  (connectedComponents R.current.pureTransitionGroups R.current.pureTransitionEdges).foldlM
    (collapseTurn m) R

end Collapse

def reduceCPElementGroupGraph (m : Memory E)
    (connectedComponents : List Nat → List (Nat × Nat) → List (List Nat)) (fuel : Nat)
    (C : GroupGraph E) : Option (Reduction E) := do
  let R ← eliminateDeadGroups m fuel (Chronicle.start C)
  let R := R.revise R.current.generateSuccessorVectors
  let nucleii := insertPointers m.below []
    (R.current.cpelementGroups.filter fun g => isNucleus (R.current.group g))
  let R ← reduceFromNucleii m fuel fuel [] (R, nucleii)
  let R ← lastGaspReduce m R
  collapsePureTransitionComponents m connectedComponents R

/-- When an operation leaves no reference to a group that is gone. -/
def GroupOperationSafe (C : GroupGraph E) : GroupOperation → Prop
  | .deleteGroups absorbedElements => C.DeletesCleanly absorbedElements
  | .mergeGroups part whole => part ≠ whole ∧ (C.group part).predecessors = [whole]
  | .collapsePureTransitionSet _ => True

abbrev Accounted (R : Reduction E) (held : GroupGraph E → Prop) : Prop :=
  Chronicle.Accounted GroupGraph.WellFormed GroupOperationSafe R held

variable {m : Memory E} {C : GroupGraph E}

section Bookkeeping

omit [DecidableEq E] in
theorem generateSuccessorVectors_same (C : GroupGraph E) :
    C.generateSuccessorVectors.forward = C.forward ∧ C.generateSuccessorVectors.marked = C.marked ∧
      ∀ g, (C.generateSuccessorVectors.group g).elements = (C.group g).elements := by
  simp only [forward, marked, generateSuccessorVectors, apply_ite CPElementGroup.successors,
    apply_ite CPElementGroup.predecessors, apply_ite CPElementGroup.markedSuccessors,
    apply_ite CPElementGroup.markedPredecessors, apply_ite CPElementGroup.elements, ite_self,
    implies_true, and_self]

omit [DecidableEq E] in
theorem WellFormed.of_same {C' : GroupGraph E} (wf : C.WellFormed)
    (sameForward : C'.forward = C.forward) (sameMarked : C'.marked = C.marked)
    (groups : C'.cpelementGroups = C.cpelementGroups)
    (mapped : C'.cpelementToGroupMap = C.cpelementToGroupMap)
    (counter : C'.rootIndexCounter = C.rootIndexCounter)
    (elements : ∀ g, (C'.group g).elements = (C.group g).elements) : C'.WellFormed := by
  have live : C'.Live = C.Live := by
    funext g
    rw [Live, Live, groups]
  refine ⟨⟨?_, ?_, ?_, ?_, ?_, ?_⟩, ?_⟩
  · rw [sameForward, live]
    exact wf.forward_closed
  · rw [sameMarked, live]
    exact wf.marked_closed
  · simp only [elements, live, mapped]
    exact wf.members
  · simp only [elements, live, mapped]
    exact wf.belongs
  · rw [groups]
    exact wf.nodup
  · rw [live, counter]
    exact wf.created
  · simp only [elements, live]
    exact wf.occupied

omit [DecidableEq E] in
theorem generateSuccessorVectors_wellFormed :
    C.generateSuccessorVectors.WellFormed ↔ C.WellFormed := by
  obtain ⟨sameForward, sameMarked, elements⟩ := generateSuccessorVectors_same C
  constructor
  · intro wf
    exact wf.of_same sameForward.symm sameMarked.symm rfl rfl rfl fun g => (elements g).symm
  · intro wf
    exact wf.of_same sameForward sameMarked rfl rfl rfl elements

omit [DecidableEq E] in
theorem mem_successorVector {g s : Nat} (isLive : C.Live g)
    (member : s ∈ (C.generateSuccessorVectors.group g).successorVector) : C.forward.succ g s := by
  simp only [generateSuccessorVectors, if_pos isLive] at member
  exact member

end Bookkeeping

section Eliminate

structure DeadSearching (C : GroupGraph E) (s : DeadSearch) : Prop where
  queue_live : ∀ g ∈ s.queue, C.Live g
  absorbed_live : ∀ g ∈ s.absorbed, C.Live g
  nodup : s.absorbed.Nodup

omit [DecidableEq E] in
theorem DeadSearching.visit {s : DeadSearch} (searching : DeadSearching C s) {succ : Nat}
    (isLive : C.Live succ) : DeadSearching C (C.visitDead m s succ) := by
  unfold visitDead
  split_ifs
  · exact searching
  · exact searching
  · exact searching
  · refine ⟨?_, ?_, nodup_insertPointer m.below searching.nodup⟩
    · intro g member
      rcases List.mem_cons.mp member with rfl | member
      · exact isLive
      · exact searching.queue_live g member
    · intro g member
      rcases (mem_insertPointer m.below).mp member with rfl | member
      · exact isLive
      · exact searching.absorbed_live g member
  · exact ⟨searching.queue_live, searching.absorbed_live, searching.nodup⟩

omit [DecidableEq E] in
theorem searchDead_spec (vectors : ∀ g, C.Live g → ∀ s ∈ (C.group g).successorVector, C.Live s) :
    ∀ (fuel : Nat) (s : DeadSearch) (absorbed : List Nat), DeadSearching C s →
      C.searchDead m fuel s = some absorbed → (∀ d ∈ absorbed, C.Live d) ∧ absorbed.Nodup := by
  intro fuel
  induction fuel with
  | zero =>
      intro s absorbed searching run
      rw [searchDead] at run
      split_ifs at run
      obtain rfl := Option.some.inj run
      exact ⟨searching.absorbed_live, searching.nodup⟩
  | succ fuel ih =>
      intro s absorbed searching run
      rw [searchDead] at run
      split at run
      · obtain rfl := Option.some.inj run
        exact ⟨searching.absorbed_live, searching.nodup⟩
      · next top rest front =>
          have liveTop : C.Live top := searching.queue_live top (by simp [front])
          split_ifs at run with done
          · apply ih _ absorbed _ run
            refine ⟨fun g member => searching.queue_live g ?_, searching.absorbed_live, searching.nodup⟩
            rw [front]
            exact List.mem_cons_of_mem top member
          · split at run
            · cases run
            · next succ found =>
                have isLive := vectors top liveTop succ (List.mem_of_getElem? found)
                apply ih _ absorbed _ run
                refine DeadSearching.visit ?_ isLive
                exact ⟨searching.queue_live, searching.absorbed_live, searching.nodup⟩

theorem eliminateDeadGroups_accounted {fuel : Nat} {R R' : Reduction E} {held : GroupGraph E → Prop}
    (account : Accounted R held) (run : eliminateDeadGroups m fuel R = some R') :
    Accounted R' (fun _ => True) := by
  unfold eliminateDeadGroups at run
  obtain ⟨absorbed, search, run⟩ := Option.bind_eq_some_iff.mp run
  obtain rfl := Option.some.inj run
  have revised : Accounted (R.revise R.current.generateSuccessorVectors)
      (fun C => ∀ g, C.Live g → ∀ s ∈ (C.group g).successorVector, C.Live s) := by
    apply account.revise generateSuccessorVectors_wellFormed
    intro wf _ g isLive s member
    exact (wf.forward_closed.successors g s isLive (mem_successorVector isLive member)).1
  apply revised.record
  · intro wf vectors
    have dead : ∀ g ∈ insertPointers m.below [] (R.current.generateSuccessorVectors.cpelementGroups.filter
        fun g => (R.current.generateSuccessorVectors.group g).hasDeadTransition),
        R.current.generateSuccessorVectors.Live g := by
      intro g member
      rcases (mem_insertPointers m.below).mp member with member | member
      · cases member
      · exact (List.mem_filter.mp member).1
    obtain ⟨live, nodup⟩ := searchDead_spec vectors fuel _ absorbed
      ⟨fun g member => dead g (List.mem_reverse.mp member), dead, nodup_insertPointers m.below List.nodup_nil⟩
      search
    exact deleteGroups_wellFormed_iff wf live nodup
  · exact fun _ _ _ => trivial

end Eliminate

section Nucleii

/-- What the loop over the nucleii relies on: they are live and not absorbed, and
the successor vectors of the groups that are not absorbed are up to date. -/
structure Nucleii (absorbed nucleii : List Nat) (C : GroupGraph E) : Prop where
  live : ∀ n ∈ nucleii, C.Live n ∧ n ∉ absorbed
  nodup : nucleii.Nodup
  vectors : ∀ g, C.Live g → g ∉ absorbed → ∀ s ∈ (C.group g).successorVector, C.forward.succ g s

/-- The search from a nucleus stays among live groups that are not absorbed, and
visits a group from its last predecessor once. -/
structure AbsorbSearching (C : GroupGraph E) (absorbed : List Nat) (s : AbsorbSearch) : Prop where
  queue : ∀ g ∈ s.queue, C.Live g ∧ ∀ x ∈ (C.group g).successorVector, C.forward.succ g x
  vector : ∀ g ∈ s.reductionVector, C.Live g ∧ (C.group g).predecessors.length ≤ s.inVisitCount g
  nodup : s.reductionVector.Nodup
  unabsorbed : ∀ n ∈ s.unabsorbed, C.Live n ∧ n ∉ absorbed
  unabsorbed_nodup : s.unabsorbed.Nodup

theorem le_countVisit (count : Nat → Nat) (g h : Nat) : count h ≤ countVisit count g h := by
  unfold countVisit
  split_ifs with same
  · rw [same]
    exact Nat.le_succ _
  · exact Nat.le_refl _

theorem AbsorbSearching.visit {absorbed : List Nat} {s : AbsorbSearch}
    (vectors : ∀ g, C.Live g → g ∉ absorbed → ∀ x ∈ (C.group g).successorVector, C.forward.succ g x)
    (searching : AbsorbSearching C absorbed s) {top succ : Nat} (isLive : C.Live succ) :
    AbsorbSearching C absorbed (C.visitAbsorbable m absorbed top s succ) := by
  have unabsorbed : succ ∉ absorbed → ∀ n ∈ insertPointer m.below succ s.unabsorbed,
      C.Live n ∧ n ∉ absorbed := by
    intro outside n member
    rcases (mem_insertPointer m.below).mp member with rfl | member
    · exact ⟨isLive, outside⟩
    · exact searching.unabsorbed n member
  have nodup := nodup_insertPointer m.below searching.unabsorbed_nodup (x := succ)
  unfold visitAbsorbable
  dsimp only
  split_ifs with inside onQueue absorbs last
  · exact searching
  · exact searching
  · have fresh : succ ∉ s.reductionVector := by
      intro member
      have := (searching.vector succ member).2
      omega
    refine ⟨?_, ?_, ?_, unabsorbed inside, nodup⟩
    · intro g member
      rcases List.mem_cons.mp member with rfl | member
      · exact ⟨isLive, vectors g isLive inside⟩
      · exact searching.queue g member
    · intro g member
      rcases List.mem_append.mp member with member | member
      · obtain ⟨live, counted⟩ := searching.vector g member
        exact ⟨live, Nat.le_trans counted (le_countVisit _ _ _)⟩
      · obtain rfl := List.mem_singleton.mp member
        refine ⟨isLive, ?_⟩
        rw [← last]
        simp [countVisit]
    · refine List.nodup_append.mpr ⟨searching.nodup, List.nodup_singleton succ, ?_⟩
      intro g member h isSucc same
      rw [same, List.mem_singleton.mp isSucc] at member
      exact fresh member
  · refine ⟨searching.queue, ?_, searching.nodup, unabsorbed inside, nodup⟩
    intro g member
    obtain ⟨live, counted⟩ := searching.vector g member
    exact ⟨live, Nat.le_trans counted (le_countVisit _ _ _)⟩
  · exact ⟨searching.queue, searching.vector, searching.nodup, unabsorbed inside, nodup⟩

theorem searchAbsorbable_spec (wf : C.WellFormed) {absorbed : List Nat}
    (vectors : ∀ g, C.Live g → g ∉ absorbed → ∀ x ∈ (C.group g).successorVector, C.forward.succ g x) :
    ∀ (fuel : Nat) (s s' : AbsorbSearch), AbsorbSearching C absorbed s →
      C.searchAbsorbable m absorbed fuel s = some s' → AbsorbSearching C absorbed s' := by
  intro fuel
  induction fuel with
  | zero =>
      intro s s' searching run
      rw [searchAbsorbable] at run
      split_ifs at run
      exact Option.some.inj run ▸ searching
  | succ fuel ih =>
      intro s s' searching run
      rw [searchAbsorbable] at run
      split at run
      · exact Option.some.inj run ▸ searching
      · next top rest front =>
          obtain ⟨liveTop, upToDate⟩ := searching.queue top (by simp [front])
          split_ifs at run with done
          · apply ih _ s' _ run
            refine ⟨fun g member => searching.queue g ?_, searching.vector, searching.nodup,
              searching.unabsorbed, searching.unabsorbed_nodup⟩
            rw [front]
            exact List.mem_cons_of_mem top member
          · split at run
            · cases run
            · next succ found =>
                have arc := upToDate succ (List.mem_of_getElem? found)
                have isLive := (wf.forward_closed.successors top succ liveTop arc).1
                apply ih _ s' _ run
                refine AbsorbSearching.visit vectors ?_ isLive
                exact ⟨searching.queue, searching.vector, searching.nodup, searching.unabsorbed,
                  searching.unabsorbed_nodup⟩

omit [DecidableEq E] in
theorem Nucleii.vectors_insert {absorbed rest : List Nat} {nucleus : Nat}
    (nucleii : Nucleii absorbed (nucleus :: rest) C) : ∀ g, C.Live g →
      g ∉ insertPointer m.below nucleus absorbed → ∀ x ∈ (C.group g).successorVector,
        C.forward.succ g x := by
  intro g isLive outside
  rw [mem_insertPointer, not_or] at outside
  exact nucleii.vectors g isLive outside.2

omit [DecidableEq E] in
theorem Nucleii.start {absorbed rest : List Nat} {nucleus : Nat}
    (nucleii : Nucleii absorbed (nucleus :: rest) C) :
    AbsorbSearching C (insertPointer m.below nucleus absorbed)
      ⟨[nucleus], [], fun _ => 0, fun _ => 0, [], rest⟩ := by
  obtain ⟨liveNucleus, unabsorbedNucleus⟩ := nucleii.live nucleus List.mem_cons_self
  obtain ⟨fresh, nodup⟩ := List.nodup_cons.mp nucleii.nodup
  refine ⟨?_, by simp, by simp, ?_, nodup⟩
  · intro g member
    obtain rfl := List.mem_singleton.mp member
    exact ⟨liveNucleus, nucleii.vectors g liveNucleus unabsorbedNucleus⟩
  · intro n member
    obtain ⟨isLive, outside⟩ := nucleii.live n (List.mem_cons_of_mem nucleus member)
    refine ⟨isLive, ?_⟩
    rw [mem_insertPointer, not_or]
    refine ⟨?_, outside⟩
    rintro rfl
    exact fresh member

structure Absorbing (absorbed : List Nat) (rest unabsorbed : List Nat) (C : GroupGraph E) : Prop
    extends Nucleii absorbed unabsorbed C where
  rest_live : ∀ g ∈ rest, C.Live g
  rest_nodup : rest.Nodup

theorem absorb_turn_accounted {absorbed : List Nat} {nucleus succ : Nat} (inside : nucleus ∈ absorbed) {rest : List Nat}
    {Ru Ru₁ : Reduction E × List Nat} (account : Accounted Ru.1 (Absorbing absorbed (succ :: rest) Ru.2))
    (first : absorb m nucleus Ru succ = some Ru₁) : Accounted Ru₁.1 (Absorbing absorbed rest Ru₁.2) := by
  unfold absorb at first
  split_ifs at first
  · obtain ⟨C', merged, first⟩ := Option.bind_eq_some_iff.mp first
    obtain rfl := Option.some.inj first
    apply account.record
    · intro wf absorbing
      exact mergeGroups_wellFormed_iff wf (absorbing.rest_live succ List.mem_cons_self) merged
    · intro wf absorbing wf'
      have liveSucc := absorbing.rest_live succ List.mem_cons_self
      obtain ⟨distinct, _⟩ := (mergeGroups_wellFormed_iff wf liveSucc merged).mp wf'
      obtain ⟨_, C₁, links, sameForward, _, groups, _, _, _, vectors⟩ := mergeGroups_cases merged
      have live : ∀ g, C'.Live g ↔ Ru.1.current.Live g ∧ g ≠ succ := by
        intro g
        rw [Live, groups, mem_erasePointer]
        rfl
      obtain ⟨fresh, nodup⟩ := List.nodup_cons.mp absorbing.rest_nodup
      refine ⟨⟨?_, absorbing.nodup.filter _, ?_⟩, ?_, nodup⟩
      · intro n member
        obtain ⟨member, other⟩ := mem_erasePointer.mp member
        obtain ⟨isLive, outside⟩ := absorbing.live n member
        exact ⟨(live n).mpr ⟨isLive, other⟩, outside⟩
      · intro g isLive outside s member
        rw [vectors] at member
        rw [sameForward, ((moveLinks_spec distinct links).1 g s).1]
        refine Or.inl ⟨absorbing.vectors g ((live g).mp isLive).1 outside s member, ?_⟩
        rintro ⟨rfl, _⟩
        exact outside inside
      · intro g member
        refine (live g).mpr ⟨absorbing.rest_live g (List.mem_cons_of_mem succ member), ?_⟩
        rintro rfl
        exact fresh member
  · obtain rfl := Option.some.inj first
    refine account.mono fun _ absorbing => ⟨absorbing.toNucleii, ?_, ?_⟩
    · exact fun g member => absorbing.rest_live g (List.mem_cons_of_mem succ member)
    · exact (List.nodup_cons.mp absorbing.rest_nodup).2

theorem absorb_accounted {absorbed : List Nat} {nucleus : Nat} (inside : nucleus ∈ absorbed) :
    ∀ (rest : List Nat) (Ru Ru' : Reduction E × List Nat),
      Accounted Ru.1 (Absorbing absorbed rest Ru.2) →
      rest.foldlM (absorb m nucleus) Ru = some Ru' → Accounted Ru'.1 (Nucleii absorbed Ru'.2) := by
  intro rest Ru Ru' account run
  have ended := Run.foldlM_rule (fun rest Ru => Accounted Ru.1 (Absorbing absorbed rest Ru.2))
    (fun _ _ _ _ account turn => absorb_turn_accounted inside account turn) account run
  exact ended.mono fun _ absorbing => absorbing.toNucleii

theorem reduceFromNucleus_accounted {fuel nucleus : Nat} {absorbed rest : List Nat}
    {R : Reduction E} {Ru : Reduction E × List Nat}
    (account : Accounted R (Nucleii absorbed (nucleus :: rest)))
    (run : reduceFromNucleus m fuel nucleus (insertPointer m.below nucleus absorbed) (R, rest) = some Ru) :
    Accounted Ru.1 (Nucleii (insertPointer m.below nucleus absorbed) Ru.2) := by
  unfold reduceFromNucleus at run
  obtain ⟨s, search, run⟩ := Option.bind_eq_some_iff.mp run
  apply absorb_accounted ((mem_insertPointer m.below).mpr (Or.inl rfl)) _ _ _ _ run
  apply account.mono
  intro wf nucleii
  have vectors := nucleii.vectors_insert (m := m)
  have searching := searchAbsorbable_spec wf vectors fuel _ s nucleii.start search
  exact ⟨⟨searching.unabsorbed, searching.unabsorbed_nodup, vectors⟩,
    fun g member => (searching.vector g member).1, searching.nodup⟩

theorem reduceFromNucleii_accounted {fuel : Nat} : ∀ (turns : Nat) (absorbed : List Nat)
    (Ru : Reduction E × List Nat) (R' : Reduction E), Accounted Ru.1 (Nucleii absorbed Ru.2) →
    reduceFromNucleii m fuel turns absorbed Ru = some R' → Accounted R' (fun _ => True) := by
  intro turns
  induction turns with
  | zero =>
      intro absorbed Ru R' account run
      rw [reduceFromNucleii] at run
      split_ifs at run
      exact Option.some.inj run ▸ account.mono fun _ _ => trivial
  | succ turns ih =>
      intro absorbed Ru R' account run
      obtain ⟨R, nucleii⟩ := Ru
      cases nucleii with
      | nil =>
          rw [reduceFromNucleii] at run
          exact Option.some.inj run ▸ account.mono fun _ _ => trivial
      | cons nucleus rest =>
          rw [reduceFromNucleii] at run
          obtain ⟨Ru, first, run⟩ := Option.bind_eq_some_iff.mp run
          exact ih _ Ru R' (reduceFromNucleus_accounted account first) run

end Nucleii

section LastGasp

structure Candidates (rest : List Nat) (C : GroupGraph E) : Prop where
  live : ∀ g ∈ rest, C.Live g
  nodup : rest.Nodup

theorem lastGaspTurn_accounted {g : Nat} {rest : List Nat} {R R₁ : Reduction E}
    (account : Accounted R (Candidates (g :: rest))) (first : lastGaspTurn m R g = some R₁) :
    Accounted R₁ (Candidates rest) := by
  unfold lastGaspTurn at first
  obtain ⟨pg, _, first⟩ := Option.bind_eq_some_iff.mp first
  split_ifs at first
  · obtain ⟨C', merged, first⟩ := Option.bind_eq_some_iff.mp first
    obtain rfl := Option.some.inj first
    apply account.record
    · intro wf candidates
      exact mergeGroups_wellFormed_iff wf (candidates.live g List.mem_cons_self) merged
    · intro wf candidates _
      obtain ⟨_, _, _, _, _, groups, _⟩ := mergeGroups_cases merged
      obtain ⟨fresh, nodup⟩ := List.nodup_cons.mp candidates.nodup
      refine ⟨fun h member => ?_, nodup⟩
      rw [Live, groups, mem_erasePointer]
      refine ⟨candidates.live h (List.mem_cons_of_mem g member), ?_⟩
      rintro rfl
      exact fresh member
  · obtain rfl := Option.some.inj first
    apply account.mono
    intro _ candidates
    exact ⟨fun h member => candidates.live h (List.mem_cons_of_mem g member),
      (List.nodup_cons.mp candidates.nodup).2⟩

theorem lastGaspTurns_accounted : ∀ (rest : List Nat) (R R' : Reduction E),
    Accounted R (Candidates rest) → rest.foldlM (lastGaspTurn m) R = some R' →
    Accounted R' (fun _ => True) := by
  intro rest R R' account run
  have ended := Run.foldlM_rule (fun rest R => Accounted R (Candidates rest))
    (fun _ _ _ _ account turn => lastGaspTurn_accounted account turn) account run
  exact ended.mono fun _ _ => trivial

theorem lastGaspReduce_accounted {R R' : Reduction E} {held : GroupGraph E → Prop}
    (account : Accounted R held) (run : lastGaspReduce m R = some R') :
    Accounted R' (fun _ => True) := by
  apply lastGaspTurns_accounted _ R R' _ run
  apply account.mono
  intro wf _
  exact ⟨fun g member => (List.mem_filter.mp member).1, wf.nodup.filter _⟩

end LastGasp

section Collapse

def PartitionsVertices (connectedComponents : List Nat → List (Nat × Nat) → List (List Nat)) : Prop :=
  ∀ vertices edges, vertices.Nodup → (connectedComponents vertices edges).flatten.Nodup ∧
    ∀ x ∈ (connectedComponents vertices edges).flatten, x ∈ vertices

structure PureSets (rest : List (List Nat)) (C : GroupGraph E) : Prop where
  pure : ∀ g ∈ rest.flatten, C.Live g ∧ C.Unmarked g
  nodup : rest.flatten.Nodup

theorem collapseTurn_accounted {tset : List Nat} {rest : List (List Nat)} {R R₁ : Reduction E}
    (account : Accounted R (PureSets (tset :: rest))) (first : collapseTurn m R tset = some R₁) :
    Accounted R₁ (PureSets rest) := by
  obtain ⟨C', collapsed, first⟩ := Option.bind_eq_some_iff.mp first
  obtain rfl := Option.some.inj first
  have result : R.current.WellFormed → PureSets (tset :: rest) R.current →
      C'.WellFormed ∧ PureSets rest C' := by
    intro wf pureSets
    obtain ⟨nodup, nodupRest, disjoint⟩ := List.nodup_append.mp
      (List.flatten_cons ▸ pureSets.nodup)
    have pure : ∀ g, g ∈ tset ∨ g ∈ rest.flatten → R.current.Live g ∧ R.current.Unmarked g := by
      intro g member
      apply pureSets.pure
      rw [List.flatten_cons]
      exact List.mem_append.mpr member
    obtain ⟨wf', others⟩ := wf.collapsePureTransitionSet nodup (fun g member => pure g (Or.inl member))
      collapsed
    refine ⟨wf', fun g member => ?_, nodupRest⟩
    obtain ⟨isLive, unmarked⟩ := pure g (Or.inr member)
    obtain ⟨isLive', unmarked'⟩ := others g isLive fun inside => disjoint g inside g member rfl
    exact ⟨isLive', unmarked' unmarked⟩
  apply account.record
  · exact fun wf pureSets => iff_of_true (result wf pureSets).1 trivial
  · exact fun wf pureSets _ => (result wf pureSets).2

theorem collapseTurns_accounted : ∀ (rest : List (List Nat)) (R R' : Reduction E),
    Accounted R (PureSets rest) → rest.foldlM (collapseTurn m) R = some R' →
    Accounted R' (fun _ => True) := by
  intro rest R R' account run
  have ended := Run.foldlM_rule (fun rest R => Accounted R (PureSets rest))
    (fun _ _ _ _ account turn => collapseTurn_accounted account turn) account run
  exact ended.mono fun _ _ => trivial

omit [DecidableEq E] in
theorem unmarked_of_isPureTransitionGroup {g : Nat} (isPure : (C.group g).isPureTransitionGroup = true) :
    C.Unmarked g := by
  simp only [CPElementGroup.isPureTransitionGroup, Bool.and_eq_true, List.isEmpty_iff] at isPure
  obtain ⟨⟨⟨⟨_, noPredecessors⟩, noSuccessors⟩, _⟩, _⟩ := isPure
  constructor
  · intro x
    show x ∉ (C.group g).markedSuccessors
    rw [noSuccessors]
    exact List.not_mem_nil
  · intro x
    show x ∉ (C.group g).markedPredecessors
    rw [noPredecessors]
    exact List.not_mem_nil

theorem collapsePureTransitionComponents_accounted
    {connectedComponents : List Nat → List (Nat × Nat) → List (List Nat)}
    (partitions : PartitionsVertices connectedComponents) {R R' : Reduction E}
    {held : GroupGraph E → Prop} (account : Accounted R held)
    (run : collapsePureTransitionComponents m connectedComponents R = some R') :
    Accounted R' (fun _ => True) := by
  apply collapseTurns_accounted _ R R' _ run
  apply account.mono
  intro wf _
  obtain ⟨nodup, inside⟩ := partitions R.current.pureTransitionGroups R.current.pureTransitionEdges
    (wf.nodup.filter _)
  refine ⟨fun g member => ?_, nodup⟩
  obtain ⟨isLive, isPure⟩ := List.mem_filter.mp (inside g member)
  exact ⟨isLive, unmarked_of_isPureTransitionGroup isPure⟩

end Collapse

/-- Every graph that the reduction of a well formed graph goes through is well
formed just when every operation leaves no reference behind. -/
theorem reduceCPElementGroupGraph_wellFormed_iff (m : Memory E)
    {connectedComponents : List Nat → List (Nat × Nat) → List (List Nat)}
    (partitions : PartitionsVertices connectedComponents) (fuel : Nat) {C : GroupGraph E}
    (wf : C.WellFormed) {R : Reduction E}
    (run : reduceCPElementGroupGraph m connectedComponents fuel C = some R) :
    (∀ C' ∈ R.states, C'.WellFormed) ↔
      ∀ step ∈ R.history, GroupOperationSafe step.1 step.2 := by
  unfold reduceCPElementGroupGraph at run
  obtain ⟨R₁, eliminated, run⟩ := Option.bind_eq_some_iff.mp run
  obtain ⟨R₂, reduced, run⟩ := Option.bind_eq_some_iff.mp run
  obtain ⟨R₃, merged, collapsed⟩ := Option.bind_eq_some_iff.mp run
  have start : Accounted (Chronicle.start C) (fun _ => True) := Chronicle.Accounted.start wf trivial
  have first := eliminateDeadGroups_accounted start eliminated
  have nucleii : Accounted (R₁.revise R₁.current.generateSuccessorVectors)
      (Nucleii [] (insertPointers m.below [] (R₁.current.generateSuccessorVectors.cpelementGroups.filter
        fun g => isNucleus (R₁.current.generateSuccessorVectors.group g)))) := by
    apply first.revise generateSuccessorVectors_wellFormed
    intro _ _
    refine ⟨fun n member => ?_, nodup_insertPointers m.below List.nodup_nil, ?_⟩
    · rcases (mem_insertPointers m.below).mp member with member | member
      · cases member
      · exact ⟨(List.mem_filter.mp member).1, List.not_mem_nil⟩
    · intro g isLive _ s member
      rw [(generateSuccessorVectors_same _).1]
      exact mem_successorVector isLive member
  have second := reduceFromNucleii_accounted fuel [] (_, _) R₂ nucleii reduced
  have third := lastGaspReduce_accounted second merged
  exact (collapsePureTransitionComponents_accounted partitions third collapsed).good_iff_safe

section Example

/-- The entry leads to a transition, dead or not, and to a join that has a marked
arc from that transition. -/
def forkWithMarkedArc (isDead : Bool) : GroupGraph Nat where
  cpelementGroups := [0, 1, 2]
  group := fun g =>
    if g = 0 then { elements := [0], successors := [1, 2], hasTransition := true, isFork := true }
    else if g = 1 then
      { elements := [1], predecessors := [0], markedSuccessors := [2], hasTransition := true,
        markedSuccessorDelays := fun h => if h = 2 then 0 else -1, isFork := true,
        hasDeadTransition := isDead }
    else if g = 2 then
      { elements := [2], predecessors := [0], markedPredecessors := [1], hasTransition := true,
        markedPredecessorDelays := fun h => if h = 1 then 0 else -1, isJoin := true }
    else {}
  cpelementToGroupMap := fun e => if e ∈ [0, 1, 2] then some (some e) else none
  rootIndexCounter := 3

theorem forkWithMarkedArc_wellFormed (isDead : Bool) : (forkWithMarkedArc isDead).WellFormed := by
  have lists : ∀ x ∈ [0, 1, 2],
      (∀ y ∈ ((forkWithMarkedArc isDead).group x).successors,
        y ∈ [0, 1, 2] ∧ x ∈ ((forkWithMarkedArc isDead).group y).predecessors) ∧
      (∀ y ∈ ((forkWithMarkedArc isDead).group x).predecessors,
        y ∈ [0, 1, 2] ∧ x ∈ ((forkWithMarkedArc isDead).group y).successors) ∧
      (∀ y ∈ ((forkWithMarkedArc isDead).group x).markedSuccessors,
        y ∈ [0, 1, 2] ∧ x ∈ ((forkWithMarkedArc isDead).group y).markedPredecessors) ∧
      (∀ y ∈ ((forkWithMarkedArc isDead).group x).markedPredecessors,
        y ∈ [0, 1, 2] ∧ x ∈ ((forkWithMarkedArc isDead).group y).markedSuccessors) ∧
      ((forkWithMarkedArc isDead).group x).elements = [x] ∧ x < 3 := by
    cases isDead <;> decide
  have mapped : ∀ x ∈ [0, 1, 2], (forkWithMarkedArc isDead).cpelementToGroupMap x = some (some x) :=
    fun x member => if_pos member
  refine ⟨⟨⟨?_, ?_⟩, ⟨?_, ?_⟩, ?_, ?_, ?_, ?_⟩, ?_⟩
  · exact fun x y isLive arc => (lists x isLive).1 y arc
  · exact fun x y isLive arc => (lists y isLive).2.1 x arc
  · exact fun x y isLive arc => (lists x isLive).2.2.1 y arc
  · exact fun x y isLive arc => (lists y isLive).2.2.2.1 x arc
  · intro g isLive e member
    rw [(lists g isLive).2.2.2.2.1, List.mem_singleton] at member
    rw [member]
    exact mapped g isLive
  · intro e g belongs
    change (if e ∈ [0, 1, 2] then some (some e) else none) = some (some g) at belongs
    split_ifs at belongs with member
    obtain rfl := Option.some.inj (Option.some.inj belongs)
    refine ⟨member, ?_⟩
    rw [(lists e member).2.2.2.2.1]
    exact List.mem_singleton_self e
  · exact (by decide : [0, 1, 2].Nodup)
  · exact fun g isLive => (lists g isLive).2.2.2.2.2
  · intro g isLive
    rw [(lists g isLive).2.2.2.2.1]
    exact List.cons_ne_nil g []

def plainTransitions : Memory Nat where
  info := fun _ =>
    { isTransition := true, isPlace := false, isInput := false, isOutput := false, isDead := false,
      isTiedHigh := false, isLeftOpen := false, isDelayElement := false,
      isBoundAsInputToCPFunction := false, isBoundAsOutputFromCPFunction := false,
      isBoundAsInputToRegion := false, isBoundAsOutputFromRegion := false, numberOfPredecessors := 1,
      numberOfSuccessors := 0, numberOfMarkedPredecessors := 0, numberOfMarkedSuccessors := 1,
      pipelineParent := none, associatedCPFunction := none }
  belowElement := fun x y => decide (x < y)
  below := fun x y => decide (x < y)

/-- The components of a graph that has no edges. -/
def singletonComponents (vertices : List Nat) (_ : List (Nat × Nat)) : List (List Nat) :=
  vertices.map fun x => [x]

theorem singletonComponents_partitionsVertices : PartitionsVertices singletonComponents := by
  intro vertices edges nodup
  have flatten : (singletonComponents vertices edges).flatten = vertices := by
    simp [singletonComponents, ← List.flatMap_def]
  rw [flatten]
  exact ⟨nodup, fun _ member => member⟩

/-- While the transition is not dead it is merged into the entry, its only
predecessor, and all graphs are well formed. -/
theorem reduceCPElementGroupGraph_wellFormed_iff_fork :
    ∃ R, reduceCPElementGroupGraph plainTransitions singletonComponents 8 (forkWithMarkedArc false) = some R ∧
      ((∀ C' ∈ R.states, C'.WellFormed) ↔ ∀ step ∈ R.history, GroupOperationSafe step.1 step.2) ∧
      R.current.cpelementGroups = [0, 2] :=
  ⟨_, rfl, reduceCPElementGroupGraph_wellFormed_iff plainTransitions
    singletonComponents_partitionsVertices 8 (forkWithMarkedArc_wellFormed false) rfl, by decide⟩

/-- When it is dead it is deleted, and the join keeps it as a marked predecessor. -/
theorem reduceCPElementGroupGraph_dangling :
    (forkWithMarkedArc true).WellFormed ∧
      ∃ R, reduceCPElementGroupGraph plainTransitions singletonComponents 8 (forkWithMarkedArc true) = some R ∧
        ¬ R.current.WellFormed := by
  have left : ∃ R, reduceCPElementGroupGraph plainTransitions singletonComponents 8
      (forkWithMarkedArc true) = some R ∧ 2 ∈ R.current.cpelementGroups ∧
        1 ∈ (R.current.group 2).markedPredecessors ∧ 1 ∉ R.current.cpelementGroups :=
    ⟨_, rfl, by decide, by decide, by decide⟩
  obtain ⟨R, run, isLive, listed, gone⟩ := left
  refine ⟨forkWithMarkedArc_wellFormed true, R, run, fun wf => ?_⟩
  exact gone (wf.marked_closed.predecessors 1 2 isLive listed).1

end Example

end GroupGraph

end Ahir.ControlPath
