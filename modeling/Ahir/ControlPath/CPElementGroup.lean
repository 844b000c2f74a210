import Ahir.Graph.Links
import Ahir.ControlPath.CPForkBlock

/-!
# Groups of control path elements

The elements of a control path are gathered in groups, and the groups are
linked by forward and by marked arcs.  A group is named by the root index it
was created with; the set of the groups of a control path is kept in the order
of these indices, a set inside a group in the order of the addresses.

An assertion that does not hold stops the program: the operation is `none`.
-/

set_option autoImplicit false

namespace Ahir.ControlPath
open Ahir.Graph

structure CPElement (E : Type) where
  isTransition : Bool
  isPlace : Bool
  isInput : Bool
  isOutput : Bool
  isDead : Bool
  isTiedHigh : Bool
  isLeftOpen : Bool
  isDelayElement : Bool
  isBoundAsInputToCPFunction : Bool
  isBoundAsOutputFromCPFunction : Bool
  isBoundAsInputToRegion : Bool
  isBoundAsOutputFromRegion : Bool
  numberOfPredecessors : Nat
  numberOfSuccessors : Nat
  numberOfMarkedPredecessors : Nat
  numberOfMarkedSuccessors : Nat
  pipelineParent : Option E
  associatedCPFunction : Option E

structure CPElementGroup (E : Type) where
  elements : List E := []
  successors : List Nat := []
  successorVector : List Nat := []
  predecessors : List Nat := []
  markedPredecessors : List Nat := []
  markedSuccessors : List Nat := []
  markedSuccessorDelays : Nat → Int := fun _ => -1
  markedPredecessorDelays : Nat → Int := fun _ => -1
  hasTransition : Bool := false
  hasPlace : Bool := false
  hasInputTransition : Bool := false
  hasOutputTransition : Bool := false
  hasDeadTransition : Bool := false
  hasTiedHighTransition : Bool := false
  hasLeftOpenTransition : Bool := false
  isJoin : Bool := false
  isFork : Bool := false
  isMerge : Bool := false
  isBranch : Bool := false
  isDelayElement : Bool := false
  isLeftOpen : Bool := false
  isBoundAsInputToCPFunction : Bool := false
  isBoundAsOutputFromCPFunction : Bool := false
  isBoundAsInputToRegion : Bool := false
  isBoundAsOutputFromRegion : Bool := false
  pipelineParent : Option E := none
  associatedCPFunction : Option E := none
  associatedCPRegion : Option E := none

/-- `std::set::erase`. -/
def erasePointer (g : Nat) (set : List Nat) : List Nat := set.filter fun h => h ≠ g

@[simp]
theorem mem_erasePointer {g h : Nat} {set : List Nat} :
    h ∈ erasePointer g set ↔ h ∈ set ∧ h ≠ g := by
  simp [erasePointer]

namespace CPElementGroup
section Links
variable {E : Type} (below : Nat → Nat → Bool) (h : Nat) (delay : Int) (g : CPElementGroup E)

def addSuccessor : CPElementGroup E :=
  { g with successors := insertPointer below h g.successors }

def addPredecessor : CPElementGroup E :=
  { g with predecessors := insertPointer below h g.predecessors }

/-- `Add_Marked_Successor` with `Set_Marked_Successor_Delay`. -/
def addMarkedSuccessor : CPElementGroup E :=
  { g with
    markedSuccessors := insertPointer below h g.markedSuccessors
    markedSuccessorDelays := fun h' => if h' = h then delay else g.markedSuccessorDelays h' }

/-- `Add_Marked_Predecessor` with `Set_Marked_Predecessor_Delay`. -/
def addMarkedPredecessor : CPElementGroup E :=
  { g with
    markedPredecessors := insertPointer below h g.markedPredecessors
    markedPredecessorDelays := fun h' => if h' = h then delay else g.markedPredecessorDelays h' }

def erasePredecessor : CPElementGroup E :=
  { g with predecessors := erasePointer h g.predecessors }

def eraseSuccessor : CPElementGroup E :=
  { g with successors := erasePointer h g.successors }

def eraseSuccessors : CPElementGroup E :=
  { g with
    successors := erasePointer h g.successors
    markedSuccessors := erasePointer h g.markedSuccessors }

def erasePredecessors : CPElementGroup E :=
  { g with
    predecessors := erasePointer h g.predecessors
    markedPredecessors := erasePointer h g.markedPredecessors }

def forgetMarkedSuccessor : CPElementGroup E :=
  { g with
    markedSuccessors := erasePointer h g.markedSuccessors
    markedSuccessorDelays := fun h' => if h' = h then -1 else g.markedSuccessorDelays h' }

def forgetMarkedPredecessor : CPElementGroup E :=
  { g with
    markedPredecessors := erasePointer h g.markedPredecessors
    markedPredecessorDelays := fun h' => if h' = h then -1 else g.markedPredecessorDelays h' }

end Links

variable {E : Type} [DecidableEq E]

/-- `Add_Element`; `belowElement` is the address order of the elements. -/
def addElement (belowElement : E → E → Bool) (info : E → CPElement E) (cpe : E)
    (g : CPElementGroup E) : CPElementGroup E :=
  let i := info cpe
  { g with
    isBoundAsInputToCPFunction := g.isBoundAsInputToCPFunction || i.isBoundAsInputToCPFunction
    isBoundAsOutputFromCPFunction :=
      g.isBoundAsOutputFromCPFunction || i.isBoundAsOutputFromCPFunction
    isBoundAsInputToRegion := g.isBoundAsInputToRegion || i.isBoundAsInputToRegion
    isBoundAsOutputFromRegion := g.isBoundAsOutputFromRegion || i.isBoundAsOutputFromRegion
    hasTransition := g.hasTransition || i.isTransition
    isDelayElement := g.isDelayElement || i.isTransition && i.isDelayElement
    hasInputTransition := g.hasInputTransition || i.isTransition && i.isInput
    hasOutputTransition := g.hasOutputTransition || i.isTransition && i.isOutput
    hasDeadTransition := g.hasDeadTransition || i.isTransition && i.isDead
    hasTiedHighTransition := g.hasTiedHighTransition || i.isTransition && i.isTiedHigh
    hasLeftOpenTransition := g.hasLeftOpenTransition || i.isTransition && i.isLeftOpen
    isJoin := g.isJoin || i.isTransition &&
      (decide (1 < i.numberOfPredecessors) || decide (0 < i.numberOfMarkedPredecessors))
    isFork := g.isFork || i.isTransition &&
      (decide (1 < i.numberOfSuccessors) || decide (0 < i.numberOfMarkedSuccessors))
    hasPlace := g.hasPlace || !i.isTransition && i.isPlace
    isMerge := g.isMerge || !i.isTransition && i.isPlace && decide (1 < i.numberOfPredecessors)
    isBranch := g.isBranch || !i.isTransition && i.isPlace && decide (1 < i.numberOfSuccessors)
    isLeftOpen := g.isLeftOpen || !i.isTransition && i.isPlace && i.isLeftOpen
    elements := insertPointer belowElement cpe g.elements
    pipelineParent := g.pipelineParent.orElse fun _ => i.pipelineParent
    associatedCPFunction := g.associatedCPFunction.orElse fun _ => i.associatedCPFunction }

omit [DecidableEq E] in
def isPureTransitionGroup (g : CPElementGroup E) : Bool :=
  !(g.hasPlace || g.hasInputTransition || g.hasOutputTransition || g.hasDeadTransition ||
    g.hasTiedHighTransition || g.hasLeftOpenTransition || g.isDelayElement ||
    g.isBoundAsInputToCPFunction || g.isBoundAsOutputFromCPFunction ||
    g.isBoundAsInputToRegion || g.isBoundAsOutputFromRegion ||
    g.associatedCPFunction.isSome || g.associatedCPRegion.isSome || g.isLeftOpen) &&
  g.markedPredecessors.isEmpty && g.markedSuccessors.isEmpty &&
  decide (g.successors.length ≤ 1) && g.hasTransition

def canPotentiallyAbsorb (this g : CPElementGroup E) : Bool :=
  if this.associatedCPFunction.isSome && g.associatedCPFunction.isSome &&
      this.associatedCPFunction ≠ g.associatedCPFunction then false
  else if this.isBoundAsInputToCPFunction then false
  else if this.isDelayElement then false
  else if g.isBoundAsOutputFromCPFunction then false
  else if g.isDelayElement then false
  else if g.hasInputTransition then false
  else if !g.markedPredecessors.isEmpty then false
  else if this.pipelineParent ≠ g.pipelineParent then false
  else if g.hasDeadTransition then false
  else if g.hasTiedHighTransition then false
  else if g.hasLeftOpenTransition then false
  else if this.hasPlace then !g.hasTransition
  else if this.hasTransition then !g.hasPlace
  else true

end CPElementGroup

/-- The group graph of a `vcControlPath`: its groups, and to which group an
element belongs.  An element of a deleted group is mapped to `NULL`. -/
structure GroupGraph (E : Type) where
  cpelementGroups : List Nat
  group : Nat → CPElementGroup E
  cpelementToGroupMap : E → Option (Option Nat)
  rootIndexCounter : Nat

namespace GroupGraph
variable {E : Type} (C : GroupGraph E)

def modify (g : Nat) (f : CPElementGroup E → CPElementGroup E) : GroupGraph E :=
  { C with group := fun h => if h = g then f (C.group h) else C.group h }

/-- `g` is among the groups of the control path. -/
def Live (g : Nat) : Prop := g ∈ C.cpelementGroups

instance (g : Nat) : Decidable (C.Live g) := inferInstanceAs (Decidable (g ∈ C.cpelementGroups))

def forward : Links Nat where
  succ := fun g h => h ∈ (C.group g).successors
  pred := fun h g => g ∈ (C.group h).predecessors

def marked : Links Nat where
  succ := fun g h => h ∈ (C.group g).markedSuccessors
  pred := fun h g => g ∈ (C.group h).markedPredecessors

/-- Closed and symmetric: the neighbours of a live group are live and list it
back, its elements belong to it, and an element that was not deleted belongs to
a live group that has it. -/
structure Consistent : Prop where
  forward_closed : C.forward.Closed C.Live
  marked_closed : C.marked.Closed C.Live
  members : ∀ g, C.Live g → ∀ e ∈ (C.group g).elements, C.cpelementToGroupMap e = some (some g)
  belongs : ∀ e g, C.cpelementToGroupMap e = some (some g) → C.Live g ∧ e ∈ (C.group g).elements
  nodup : C.cpelementGroups.Nodup
  created : ∀ g, C.Live g → g < C.rootIndexCounter

/-- A group is made for an element, so no group of the graph is empty. -/
structure WellFormed : Prop extends C.Consistent where
  occupied : ∀ g, C.Live g → (C.group g).elements ≠ []

variable {C}

@[simp]
theorem modify_group (g h : Nat) (f : CPElementGroup E → CPElementGroup E) :
    (C.modify g f).group h = if h = g then f (C.group h) else C.group h := rfl

@[simp]
theorem modify_cpelementGroups (g : Nat) (f : CPElementGroup E → CPElementGroup E) :
    (C.modify g f).cpelementGroups = C.cpelementGroups := rfl

@[simp]
theorem modify_cpelementToGroupMap (g : Nat) (f : CPElementGroup E → CPElementGroup E) :
    (C.modify g f).cpelementToGroupMap = C.cpelementToGroupMap := rfl

@[simp]
theorem modify_rootIndexCounter (g : Nat) (f : CPElementGroup E → CPElementGroup E) :
    (C.modify g f).rootIndexCounter = C.rootIndexCounter := rfl

theorem Consistent.unique (wf : C.Consistent) {g h : Nat} {e : E} (liveG : C.Live g)
    (liveH : C.Live h) (inG : e ∈ (C.group g).elements) (inH : e ∈ (C.group h).elements) : g = h := by
  have first := wf.members g liveG e inG
  rw [wf.members h liveH e inH] at first
  exact (Option.some.inj (Option.some.inj first)).symm

/-- The graph of `n` groups of one element each. -/
def ofGroups (n : Nat) (group : Nat → CPElementGroup Nat) : GroupGraph Nat where
  cpelementGroups := List.range n
  group := fun g => { group g with elements := [g] }
  cpelementToGroupMap := fun e => if e < n then some (some e) else none
  rootIndexCounter := n

theorem ofGroups_wellFormed {n : Nat} {group : Nat → CPElementGroup Nat}
    (successors : ∀ x < n, ∀ y ∈ (group x).successors, y < n ∧ x ∈ (group y).predecessors)
    (predecessors : ∀ y < n, ∀ x ∈ (group y).predecessors, x < n ∧ y ∈ (group x).successors)
    (unmarked : ∀ x < n, (group x).markedSuccessors = [] ∧ (group x).markedPredecessors = []) :
    (ofGroups n group).WellFormed := by
  have live (g : Nat) : (ofGroups n group).Live g ↔ g < n := List.mem_range
  refine ⟨⟨⟨fun x y isLive arc => ?_, fun x y isLive arc => ?_⟩, ⟨fun x y isLive arc => ?_, fun x y isLive arc => ?_⟩,
    fun g isLive e member => ?_, fun e g belongs => ?_, List.nodup_range, fun g isLive => (live g).mp isLive⟩,
    fun g _ => List.cons_ne_nil g []⟩
  · exact (successors x ((live x).mp isLive) y arc).imp_left (live y).mpr
  · exact (predecessors y ((live y).mp isLive) x arc).imp_left (live x).mpr
  · exact absurd ((unmarked x ((live x).mp isLive)).1 ▸ arc : y ∈ []) List.not_mem_nil
  · exact absurd ((unmarked y ((live y).mp isLive)).2 ▸ arc : x ∈ []) List.not_mem_nil
  · rw [List.mem_singleton.mp member]
    exact if_pos ((live g).mp isLive)
  · change (if e < n then some (some e) else none) = some (some g) at belongs
    split_ifs at belongs with inside
    obtain rfl := Option.some.inj (Option.some.inj belongs)
    exact ⟨(live e).mpr inside, List.mem_singleton_self e⟩

end GroupGraph

end Ahir.ControlPath
