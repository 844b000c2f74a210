import Mathlib.Data.List.Sort
import Mathlib.Logic.Relation
import Mathlib.Tactic
import Ahir.Graph.TopologicalSort

/-!
# Fork blocks of a control path

The elements of a control path are the members of a type `E`.  A fork block is
a directed graph over some of them: each element keeps the lists of its
predecessors and successors, the block keeps its fork and join maps.

A `std::set` of pointers is kept in the order of the addresses, so its
contents are modelled by a list that is built in that order.  The order itself
is a parameter: nothing depends on where an object was allocated.
-/

set_option autoImplicit false

namespace Ahir.ControlPath

section PointerSets
variable {α : Type} [DecidableEq α] (below : α → α → Bool)

/-- `std::set::insert` for a set of pointers with the address order `below`. -/
def insertPointer (x : α) (set : List α) : List α :=
  if x ∈ set then set else set.orderedInsert (fun a b => below a b = true) x

/-- `std::set::insert` of a range. -/
def insertPointers (set range : List α) : List α :=
  range.foldl (fun set x => insertPointer below x set) set

@[simp]
theorem mem_insertPointer {x y : α} {set : List α} :
    y ∈ insertPointer below x set ↔ y = x ∨ y ∈ set := by
  unfold insertPointer
  split_ifs with present
  · constructor
    · exact Or.inr
    · rintro (rfl | member)
      · exact present
      · exact member
  · exact List.mem_orderedInsert ..

theorem nodup_insertPointer {x : α} {set : List α} (nodup : set.Nodup) :
    (insertPointer below x set).Nodup := by
  unfold insertPointer
  split_ifs with present
  · exact nodup
  · exact (List.perm_orderedInsert _ x set).nodup_iff.mpr (List.nodup_cons.mpr ⟨present, nodup⟩)

@[simp]
theorem mem_insertPointers {y : α} {set range : List α} :
    y ∈ insertPointers below set range ↔ y ∈ set ∨ y ∈ range := by
  unfold insertPointers
  induction range generalizing set with
  | nil => simp
  | cons x rest ih =>
      rw [List.foldl_cons, ih, mem_insertPointer, List.mem_cons]
      tauto

theorem nodup_insertPointers {set range : List α} (nodup : set.Nodup) :
    (insertPointers below set range).Nodup := by
  unfold insertPointers
  induction range generalizing set with
  | nil => exact nodup
  | cons x rest ih => exact ih (nodup_insertPointer below nodup)

end PointerSets

structure CPForkBlock (E : Type) where
  entry : E
  exit : E
  elements : List E
  isTransition : E → Bool
  predecessors : E → List E
  successors : E → List E
  forkMap : E → List E
  joinMap : E → List E

namespace CPForkBlock
variable {E : Type} (B : CPForkBlock E)

/-- The vertices of the block: `$entry`, `$exit` and the elements between. -/
def vertices : List E := B.entry :: B.exit :: B.elements

def inside : Set E := {x | x ∈ B.vertices}

/-- `y` is a successor of the vertex `x`. -/
def Arc (x y : E) : Prop := x ∈ B.vertices ∧ y ∈ B.successors x

/-- `x` must precede `y`, or is `y`. -/
def Precedes : E → E → Prop := Relation.ReflTransGen B.Arc

/-- An acyclic block with one entry and one exit, every vertex reachable from
the entry and reaching the exit, its predecessor and successor lists mirrored. -/
structure WellFormed : Prop where
  successors_inside : ∀ x ∈ B.vertices, ∀ y ∈ B.successors x, y ∈ B.vertices
  predecessors_inside : ∀ y ∈ B.vertices, ∀ x ∈ B.predecessors y, x ∈ B.vertices
  mirrored : ∀ x ∈ B.vertices, ∀ y ∈ B.vertices, y ∈ B.successors x ↔ x ∈ B.predecessors y
  successors_nodup : ∀ x ∈ B.vertices, (B.successors x).Nodup
  predecessors_nodup : ∀ x ∈ B.vertices, (B.predecessors x).Nodup
  entry_first : B.predecessors B.entry = []
  exit_last : B.successors B.exit = []
  acyclic : ∀ x, ¬ Relation.TransGen B.Arc x x
  from_entry : ∀ x ∈ B.vertices, B.Precedes B.entry x
  to_exit : ∀ x ∈ B.vertices, B.Precedes x B.exit

variable {B}

theorem entry_mem : B.entry ∈ B.vertices := by simp [vertices]

namespace WellFormed

theorem arc_iff (wf : B.WellFormed) {x y : E} :
    B.Arc x y ↔ y ∈ B.vertices ∧ x ∈ B.predecessors y := by
  constructor
  · rintro ⟨insideX, isNext⟩
    have insideY := wf.successors_inside x insideX y isNext
    exact ⟨insideY, (wf.mirrored x insideX y insideY).mp isNext⟩
  · rintro ⟨insideY, isPrev⟩
    have insideX := wf.predecessors_inside y insideY x isPrev
    exact ⟨insideX, (wf.mirrored x insideX y insideY).mpr isPrev⟩

theorem exists_predecessor (wf : B.WellFormed) {x : E} (inside : x ∈ B.vertices)
    (notEntry : x ≠ B.entry) : ∃ y, B.Arc y x := by
  rcases Relation.ReflTransGen.cases_tail (wf.from_entry x inside) with same | ⟨y, _, arc⟩
  · exact absurd same notEntry
  · exact ⟨y, arc⟩

theorem wellFounded (wf : B.WellFormed) :
    WellFounded (fun x y : {x // x ∈ B.vertices} => B.Arc x.val y.val) := by
  classical
  have trans : IsTrans {x // x ∈ B.vertices} (fun x y => Relation.TransGen B.Arc x.val y.val) :=
    ⟨fun _ _ _ first second => first.trans second⟩
  have irrefl : Std.Irrefl (fun x y : {x // x ∈ B.vertices} => Relation.TransGen B.Arc x.val y.val) :=
    ⟨fun x => wf.acyclic x.val⟩
  exact Subrelation.wf (fun arc => Relation.TransGen.single arc)
    (Finite.wellFounded_of_trans_of_irrefl
      (fun x y : {x // x ∈ B.vertices} => Relation.TransGen B.Arc x.val y.val))

end WellFormed

end CPForkBlock

/-- The numbers of the vertices of a block with two elements. -/
instance fourVertices : NeZero 4 := ⟨by decide⟩

def diamond : CPForkBlock (Fin 4) where
  entry := 0
  exit := 3
  elements := [1, 2]
  isTransition := fun _ => true
  predecessors := fun x => match x with | 0 => [] | 1 => [0] | 2 => [0] | 3 => [1, 2]
  successors := fun x => match x with | 0 => [1, 2] | 1 => [3] | 2 => [3] | 3 => []
  forkMap := fun x => match x with | 0 => [1, 2] | 1 => [3] | 2 => [3] | 3 => []
  joinMap := fun x => match x with | 0 => [] | 1 => [0] | 2 => [0] | 3 => [1, 2]

theorem diamond_wellFormed : diamond.WellFormed := by
  have arc : ∀ x y : Fin 4, y ∈ diamond.successors x → diamond.Arc x y := by
    have inside : ∀ x : Fin 4, x ∈ diamond.vertices := by decide
    exact fun x y isNext => ⟨inside x, isNext⟩
  have upwards : ∀ x y : Fin 4, y ∈ diamond.successors x → x.val < y.val := by decide
  refine ⟨by decide, by decide, by decide, by decide, by decide, rfl, rfl,
    Graph.acyclic_of_rising _ fun x y arc => upwards x y arc.2, ?_, ?_⟩
  · intro x _
    have first : ∀ y ∈ diamond.successors 0, diamond.Precedes 0 y :=
      fun y isNext => Relation.ReflTransGen.single (arc 0 y isNext)
    fin_cases x
    · exact Relation.ReflTransGen.refl
    · exact first 1 (by decide)
    · exact first 2 (by decide)
    · exact (first 1 (by decide)).tail (arc 1 3 (by decide))
  · intro x _
    fin_cases x
    · exact (Relation.ReflTransGen.single (arc 0 1 (by decide))).tail (arc 1 3 (by decide))
    · exact Relation.ReflTransGen.single (arc 1 3 (by decide))
    · exact Relation.ReflTransGen.single (arc 2 3 (by decide))
    · exact Relation.ReflTransGen.refl

end Ahir.ControlPath
