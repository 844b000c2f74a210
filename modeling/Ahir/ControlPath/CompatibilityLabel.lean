import Ahir.ControlPath.PrecedenceOrder

/-!
# Compatibility labels of a fork block

`Compute_Compatibility_Labels` visits the block in precedence order.  Each
vertex gathers a label with an unlabeled arc from what reaches it, reduces it,
and passes the reduced label on; a fork passes on one new label for each of its
successors, below the label of the fork by an arc labeled with the fork and the
position.

A label is named by the allocation that made it.  A sub-block makes labels of
its own below the label that is handed to it; they are named after the elements
of the sub-block, which are not vertices of this block.
-/

set_option autoImplicit false

namespace Ahir.ControlPath

/-- The labels that can be made: the one the block inherits, the one made for
an element that is about to be reached, the one made for a way out of a fork. -/
inductive LabelId (E : Type) where
  | inherited
  | forElement (cpe : E)
  | forFork (t : E) (idx : Nat)
  deriving DecidableEq

/-- Membership in a label set is decided by the equality of labels. -/
instance {E : Type} [DecidableEq E] : LawfulBEq (LabelId E) := inferInstance

/-- The in-arcs of a `vcCompatibilityLabel`. -/
structure LabelArcs (E : Type) where
  labeledInArc : Option (LabelId E × E × Nat)
  unlabeledInArcs : List (LabelId E)

structure Addresses (E : Type) where
  element : E → E → Bool
  label : LabelId E → LabelId E → Bool

/-- What the pass works on: the labels, the compatibility label set of the
control path, `nl_map` and the label of each element. -/
structure LabelState (E : Type) where
  arcs : LabelId E → LabelArcs E
  labelSet : List (LabelId E)
  nlMap : E → Option (LabelId E)
  compatibilityLabel : E → Option (LabelId E)

section Reduce
variable {E : Type} [DecidableEq E] (below : LabelId E → LabelId E → Bool)
  (arcs : LabelId E → LabelArcs E) (numberOfSuccessors : E → Nat)

def eliminateUnlabeledPaths (unlabeled : List (LabelId E)) : List (LabelId E) :=
  insertPointers below (unlabeled.filter (fun u => (arcs u).unlabeledInArcs = []))
    (unlabeled.flatMap (fun u => (arcs u).unlabeledInArcs))

/-- The labels all of whose branches by some fork are there.  `reduceMap` lists
a parent and a fork once for each branch counted so far. -/
def insertSetLoop : List (LabelId E × E) → List (LabelId E) → List (LabelId E) → List (LabelId E)
  | _, insertSet, [] => insertSet
  | reduceMap, insertSet, u :: rest =>
      match (arcs u).labeledInArc with
      | none => insertSetLoop reduceMap insertSet rest
      | some (v, t, _) =>
          insertSetLoop ((v, t) :: reduceMap)
            (if reduceMap.count (v, t) + 1 = numberOfSuccessors t
              then insertPointer below v insertSet else insertSet) rest

/-- The labels that lie by a labeled arc under one of the insert set. -/
def eraseSet (insertSet unlabeled : List (LabelId E)) : List (LabelId E) :=
  unlabeled.filter (fun u =>
    match (arcs u).labeledInArc with
    | none => false
    | some (v, _, _) => v ∈ insertSet)

/-- One pass of the loop of `Reduce`: the new unlabeled in-arcs and the change
flag, nothing when an assertion fails. -/
def reducePass (unlabeled : List (LabelId E)) : Option (List (LabelId E) × Bool) :=
  let sources := eliminateUnlabeledPaths below arcs unlabeled
  if sources.any (fun u => (arcs u).unlabeledInArcs ≠ []) then none
  else
    let insertSet := insertSetLoop below arcs numberOfSuccessors [] [] sources
    let erased := eraseSet arcs insertSet sources
    some (insertPointers below (sources.filter (fun u => u ∉ erased)) insertSet,
      decide (erased ≠ [] ∨ insertSet ≠ []))

/-- The loop of `Reduce` on the unlabeled in-arcs of `this`: the in-arcs that
are left and the label returned. -/
def reduceLoop (this : LabelId E) : Nat → List (LabelId E) →
    Option (List (LabelId E) × LabelId E)
  | 0, _ => none
  | fuel + 1, unlabeled =>
      if unlabeled ≠ [] ∧ (arcs this).labeledInArc ≠ none then none
      else match unlabeled with
      | [] => some ([], this)
      | [u] => some ([u], u)
      | u :: v :: rest =>
          match reducePass below arcs numberOfSuccessors (u :: v :: rest) with
          | none => none
          | some ([w], _) => some ([w], w)
          | some (kept, true) => reduceLoop this fuel kept
          | some (kept, false) => some (kept, this)

end Reduce

namespace LabelState
variable {E : Type} [DecidableEq E] (below : LabelId E → LabelId E → Bool)

def makeCompatibilityLabel (s : LabelState E) (l : LabelId E) (inArcs : LabelArcs E) :
    LabelState E :=
  { s with
    arcs := fun m => if m = l then inArcs else s.arcs m
    labelSet := insertPointer below l s.labelSet }

def deleteCompatibilityLabel (s : LabelState E) (l : LabelId E) : LabelState E :=
  { s with labelSet := s.labelSet.filter (fun m => m ≠ l) }

/-- The label under which `ncpe` gathers its in-arcs, made when it is not there. -/
def findOrMakeLabel (s : LabelState E) (ncpe : E) : LabelState E × LabelId E :=
  match s.nlMap ncpe with
  | some nnl => (s, nnl)
  | none =>
      ({ s.makeCompatibilityLabel below (.forElement ncpe) ⟨none, []⟩ with
          nlMap := fun e => if e = ncpe then some (.forElement ncpe) else s.nlMap e },
        .forElement ncpe)

/-- `nnl->Add_In_Arc(u)`. -/
def addInArc (s : LabelState E) (nnl u : LabelId E) : LabelState E :=
  { s with arcs := fun m =>
      if m = nnl then ⟨(s.arcs m).labeledInArc, insertPointer below u (s.arcs m).unlabeledInArcs⟩
      else s.arcs m }

/-- `Reduce` leaves these in-arcs to the label. -/
def setUnlabeledInArcs (s : LabelState E) (l : LabelId E) (unlabeled : List (LabelId E)) :
    LabelState E :=
  { s with arcs := fun m => if m = l then ⟨(s.arcs m).labeledInArc, unlabeled⟩ else s.arcs m }

def setCompatibilityLabel (s : LabelState E) (cpe : E) (l : LabelId E) : LabelState E :=
  { s with
    nlMap := fun e => if e = cpe then some l else s.nlMap e
    compatibilityLabel := fun e => if e = cpe then some l else s.compatibilityLabel e }

/-- The reduced label becomes the one of the vertex; the label it replaces is deleted. -/
def settle (s : LabelState E) (cpe : E) (nl : LabelId E) (unlabeled : List (LabelId E))
    (reduced : LabelId E) : LabelState E :=
  let s := s.setUnlabeledInArcs nl unlabeled
  (if reduced ≠ nl then s.deleteCompatibilityLabel nl else s).setCompatibilityLabel cpe reduced

end LabelState

/-- The labels a sub-block makes when a label is handed to it. -/
abbrev SubBlockLabels (E : Type) := E → LabelId E → List (LabelId E × LabelArcs E)

section Compute
variable {E : Type} [DecidableEq E] (addr : Addresses E) (sub : SubBlockLabels E)
  (B : CPForkBlock E)

/-- The label of an element that is not a transition goes to its successor. -/
def passAlong (reduced : LabelId E) (s : LabelState E) (ncpe : E) : LabelState E :=
  let (s, nnl) := s.findOrMakeLabel addr.label ncpe
  s.addInArc addr.label nnl reduced

/-- The label of the transition `t` goes to the successor at the position `idx`,
through a new label when `t` is a fork. -/
def passOn (t : E) (reduced : LabelId E) (s : LabelState E) (way : E × Nat) : LabelState E :=
  let (ncpe, idx) := way
  let (s, nnl) := s.findOrMakeLabel addr.label ncpe
  if (B.successors t).length = 1 then s.addInArc addr.label nnl reduced
  else
    let flabel := LabelId.forFork t idx
    (s.makeCompatibilityLabel addr.label flabel ⟨some (reduced, t, idx), []⟩).addInArc
      addr.label nnl flabel

/-- What the loop does once the label of `cpe` is reduced. -/
def passToSuccessors (cpe : E) (reduced : LabelId E) (s : LabelState E) : Option (LabelState E) :=
  if B.isTransition cpe then
    some ((B.successors cpe).zipIdx.foldl (passOn addr B cpe reduced) s)
  else
    let s := (sub cpe reduced).foldl
      (fun s made => s.makeCompatibilityLabel addr.label made.1 made.2) s
    -- there should be exactly one successor
    if (B.successors cpe).length = 1 then
      some ((B.successors cpe).foldl (passAlong addr reduced) s)
    else none

/-- One turn of the loop of `vcCPForkBlock::Compute_Compatibility_Labels`. -/
def visit (fuel : Nat) (s : LabelState E) (cpe : E) : Option (LabelState E) :=
  match s.nlMap cpe with
  | none => none
  | some nl =>
      match reduceLoop addr.label s.arcs (fun t => (B.successors t).length) nl fuel
          (s.arcs nl).unlabeledInArcs with
      | none => none
      | some (unlabeled, reduced) =>
          passToSuccessors addr sub B cpe reduced (s.settle cpe nl unlabeled reduced)

def visitAll (fuel : Nat) : List E → LabelState E → Option (LabelState E)
  | [], s => some s
  | cpe :: rest, s =>
      match visit addr sub B fuel s cpe with
      | none => none
      | some s => visitAll fuel rest s

/-- The state in which the control path hands its own label to the block. -/
def inheritedState : LabelState E where
  arcs := fun _ => ⟨none, []⟩
  labelSet := [.inherited]
  nlMap := fun e => if e = B.entry then some .inherited else none
  compatibilityLabel := fun _ => none

/-- `vcCPForkBlock::Compute_Compatibility_Labels`. -/
def computeForkBlockLabels (fuel : Nat) : Option (LabelState E) :=
  match B.precedenceOrder addr.element fuel with
  | none => none
  | some order => visitAll addr sub B fuel order (inheritedState B)

end Compute

end Ahir.ControlPath
