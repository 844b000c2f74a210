import Ahir.Graph.BreadthFirst
import Ahir.ControlPath.CompatibilityLabel

/-!
# The compatibility map of a control path

`Connect_Compatibility_Labels` turns the in-arcs of the labels into a graph and
records the descendants of each label in one backward pass over a breadth first
order.  `Update_Compatibility_Map` adds the pairs below different forks of one
label and the pairs found by looking back along unlabeled arcs.
-/

set_option autoImplicit false

namespace Ahir.ControlPath
variable {E : Type} [DecidableEq E]

/-- The label `w` has an in-arc from `u`; unlabeled arcs are looked at only when
there is no labeled one. -/
def LabelArcs.comesFrom (w : LabelArcs E) (u : LabelId E) : Bool :=
  match w.labeledInArc with
  | some (v, _, _) => v = u
  | none => u ∈ w.unlabeledInArcs

/-- The labels with their graph: the successors of a label are added in the
order of the label set. -/
structure LabelGraph (E : Type) where
  arcs : LabelId E → LabelArcs E
  labels : List (LabelId E)
  descendentMap : LabelId E → List (LabelId E)
  compatibleMap : LabelId E → List (LabelId E)

namespace LabelGraph
variable (below : LabelId E → LabelId E → Bool)

def successors (arcs : LabelId E → LabelArcs E) (labels : List (LabelId E)) (u : LabelId E) :
    List (LabelId E) :=
  labels.filter (fun w => (arcs w).comesFrom u)

def sources (arcs : LabelId E → LabelArcs E) (labels : List (LabelId E)) : List (LabelId E) :=
  labels.filter (fun w => (arcs w).labeledInArc = none ∧ (arcs w).unlabeledInArcs = [])

def recordDescendents (next : LabelId E → List (LabelId E))
    (descendentMap : LabelId E → List (LabelId E)) (u : LabelId E) : LabelId E → List (LabelId E) :=
  let adjSet := (next u).foldl (fun set w => insertPointers below set (descendentMap w))
    (insertPointer below u (descendentMap u))
  fun l => if l = u then adjSet else descendentMap l

/-- `Connect_Compatibility_Labels`, which takes the labels in `BFS_Order`; more than one source
fails an assertion.  The search for cycles only reports them. -/
def connect (fuel : Nat) (s : LabelState E) : Option (LabelGraph E) :=
  match sources s.arcs s.labelSet with
  | [source] =>
      match Graph.breadthFirst (successors s.arcs s.labelSet) fuel [source] [] with
      | none => none
      | some order => some {
          arcs := s.arcs
          labels := s.labelSet
          descendentMap := order.reverse.foldl
            (recordDescendents below (successors s.arcs s.labelSet)) (fun _ => [])
          compatibleMap := fun _ => [] }
  | _ => none

variable (g : LabelGraph E)

/-- `vcControlPath::Are_Compatible` on a pair of labels. -/
def areCompatible (u v : LabelId E) : Bool :=
  u = v || v ∈ g.descendentMap u || u ∈ g.descendentMap v ||
    v ∈ g.compatibleMap u || u ∈ g.compatibleMap v

/-- `_compatible_label_map[u].insert(v)`. -/
def recordCompatible (u v : LabelId E) : LabelGraph E :=
  { g with compatibleMap := fun l =>
      if l = u then insertPointer below v (g.compatibleMap l) else g.compatibleMap l }

def markAsCompatible (uset vset : List (LabelId E)) : LabelGraph E :=
  uset.foldl (fun g u => vset.foldl (fun g v => g.recordCompatible below u v) g) g

/-- The forks by which the successors of `u` lie below it, in address order. -/
def forksBelow (addr : Addresses E) (u : LabelId E) : List E :=
  insertPointers addr.element [] ((successors g.arcs g.labels u).filterMap
    (fun w => (g.arcs w).labeledInArc.map (fun arc => arc.2.1)))

/-- `fork_map[t]` for the label `u`: the successors by the fork `t` with all
their descendants. -/
def forkMap (u : LabelId E) (t : E) : List (LabelId E) :=
  (successors g.arcs g.labels u).foldl (fun set w =>
    if (g.arcs w).labeledInArc.map (fun arc => arc.2.1) = some t then
      insertPointers below (insertPointer below w set) (g.descendentMap w)
    else set) []

def markForkPairs (u : LabelId E) : List E → LabelGraph E → LabelGraph E
  | [], g => g
  | t :: later, g =>
      markForkPairs u later
        (later.foldl (fun g t' => g.markAsCompatible below (g.forkMap below u t)
          (g.forkMap below u t')) g)

/-- The loop of `Look_Back_For_Compatibility` over the unlabeled in-arcs. -/
def lookBackUnlabeled (descendentMap : LabelId E → List (LabelId E)) (checkAgainst : LabelId E)
    (further : LabelId E → List (LabelId E) → Option (Bool × List (LabelId E))) :
    List (LabelId E) → List (LabelId E) → Option (Bool × List (LabelId E))
  | [], visited => some (false, visited)
  | upred :: rest, visited =>
      if upred ∈ visited then lookBackUnlabeled descendentMap checkAgainst further rest visited
      else if checkAgainst ∈ descendentMap upred then some (true, visited)
      else match further upred (insertPointer below upred visited) with
      | none => none
      | some (true, visited) => some (true, visited)
      | some (false, visited) =>
          lookBackUnlabeled descendentMap checkAgainst further rest visited

/-- `Look_Back_For_Compatibility`: the answer and the visited set. -/
def lookBack (checkAgainst : LabelId E) :
    Nat → LabelId E → List (LabelId E) → Option (Bool × List (LabelId E))
  | 0, _, _ => none
  | fuel + 1, fromHere, visited =>
      match lookBackUnlabeled below g.descendentMap checkAgainst
          (lookBack checkAgainst fuel) (g.arcs fromHere).unlabeledInArcs visited with
      | none => none
      | some (true, visited) => some (true, visited)
      | some (false, visited) =>
          match (g.arcs fromHere).labeledInArc with
          | none => some (false, visited)
          | some (lpred, _, _) =>
              if checkAgainst ∈ g.descendentMap lpred then some (false, visited)
              else lookBack checkAgainst fuel lpred visited

/-- The second part of `Update_Compatibility_Map` for one pair of labels. -/
def updatePair (fuel : Nat) (u v : LabelId E) : Option (LabelGraph E) :=
  if g.areCompatible u v then some g
  else match g.lookBack below v fuel u [] with
  | none => none
  | some (true, _) => some (g.recordCompatible below u v)
  | some (false, _) => some g

def updateAgainst (fuel : Nat) (u : LabelId E) : List (LabelId E) → LabelGraph E → Option (LabelGraph E)
  | [], g => some g
  | v :: rest, g =>
      match g.updatePair below fuel u v with
      | none => none
      | some g => updateAgainst fuel u rest g

def updatePairs (fuel : Nat) : List (LabelId E) → LabelGraph E → Option (LabelGraph E)
  | [], g => some g
  | u :: rest, g =>
      match updateAgainst below fuel u rest g with
      | none => none
      | some g => updatePairs fuel rest g

def updateCompatibilityMap (addr : Addresses E) (fuel : Nat) : Option (LabelGraph E) :=
  updatePairs addr.label fuel g.labels
    (g.labels.foldl (fun g u => markForkPairs addr.label u (g.forksBelow addr u) g) g)

end LabelGraph

structure CompatibilityResult (E : Type) where
  compatibilityLabel : E → Option (LabelId E)
  graph : LabelGraph E

/-- `vcControlPath::Compute_Compatibility_Labels`, the block being the fork block
of the control path. -/
def computeCompatibilityLabels (addr : Addresses E) (sub : SubBlockLabels E) (B : CPForkBlock E)
    (fuel : Nat) : Option (CompatibilityResult E) :=
  match computeForkBlockLabels addr sub B fuel with
  | none => none
  | some s =>
      match LabelGraph.connect addr.label fuel s with
      | none => none
      | some g =>
          match g.updateCompatibilityMap addr fuel with
          | none => none
          | some g => some ⟨s.compatibilityLabel, g⟩

/-- `Are_Compatible` of the labels of two elements. -/
def CompatibilityResult.compatibleElements (r : CompatibilityResult E) (a b : E) : Bool :=
  match r.compatibilityLabel a, r.compatibilityLabel b with
  | some u, some v => r.graph.areCompatible u v
  | _, _ => false

end Ahir.ControlPath
