import Ahir.Graph.TopologicalSort
import Ahir.ControlPath.Compatible

/-!
# The descendants of the labels

`Connect_Compatibility_Labels` goes backwards through a breadth first order of the labels and takes
over what the successors of each have recorded.  A label has its descendants then if it comes
before its successors in that order.
-/

set_option autoImplicit false

namespace Ahir.ControlPath
open Ahir.Graph
variable {E : Type} [DecidableEq E]

namespace LabelGraph
variable {below : LabelId E → LabelId E → Bool} {next : LabelId E → List (LabelId E)}

def swept (below : LabelId E → LabelId E → Bool) (next : LabelId E → List (LabelId E)) (order : List (LabelId E)) :
    LabelId E → List (LabelId E) :=
  order.reverse.foldl (recordDescendents below next) (fun _ => [])

theorem mem_swept_cons {order : List (LabelId E)} {u w v : LabelId E} :
    v ∈ swept below next (u :: order) w ↔
      v ∈ swept below next order w ∨ w = u ∧ (v = u ∨ ∃ y ∈ next u, v ∈ swept below next order y) := by
  rw [swept, List.reverse_cons, List.foldl_append]
  exact mem_recordDescendents

theorem of_mem_swept {order : List (LabelId E)} {w v : LabelId E} (member : v ∈ swept below next order w) :
    w ∈ order ∧ v ∈ order := by
  induction order generalizing w with
  | nil => exact absurd member List.not_mem_nil
  | cons u rest ih =>
      rcases mem_swept_cons.mp member with old | ⟨rfl, rfl | ⟨y, _, old⟩⟩
      · exact ⟨List.mem_cons_of_mem u (ih old).1, List.mem_cons_of_mem u (ih old).2⟩
      · exact ⟨List.mem_cons_self, List.mem_cons_self⟩
      · exact ⟨List.mem_cons_self, List.mem_cons_of_mem w (ih old).2⟩

/-- The pass is right just when the successors of each label come behind it. -/
theorem swept_iff_forward {order : List (LabelId E)} (nodup : order.Nodup)
    (acyclic : ∀ x, ¬ Relation.TransGen (fun u w => w ∈ next u) x x) :
    (∀ u ∈ order, ∀ v, v ∈ swept below next order u ↔ Relation.ReflTransGen (fun u w => w ∈ next u) u v) ↔
      Forward next order := by
  induction order with
  | nil => simp [Forward]
  | cons u rest ih =>
      obtain ⟨fresh, nodup⟩ := List.nodup_cons.mp nodup
      have others : ∀ w ∈ rest, ∀ v, v ∈ swept below next (u :: rest) w ↔ v ∈ swept below next rest w := by
        intro w member v
        rw [mem_swept_cons, or_iff_left]
        exact fun both => fresh (both.1 ▸ member)
      have here (v : LabelId E) : v ∈ swept below next (u :: rest) u ↔
          v = u ∨ ∃ y ∈ next u, v ∈ swept below next rest y := by
        rw [mem_swept_cons, or_iff_right fun old => fresh (of_mem_swept old).1]
        simp only [true_and]
      have tail : (∀ w ∈ rest, ∀ v, v ∈ swept below next (u :: rest) w ↔
          Relation.ReflTransGen (fun u w => w ∈ next u) w v) ↔ Forward next rest := by
        rw [← ih nodup]
        refine forall₂_congr fun w member => forall_congr' fun v => ?_
        rw [others w member]
      rw [List.forall_mem_cons, tail, Forward]
      refine and_congr_left fun forward => ?_
      constructor
      · intro exact_ y isNext
        rcases (here y).mp ((exact_ y).mpr (Relation.ReflTransGen.single isNext)) with same | ⟨z, _, recorded⟩
        · exact absurd (Relation.TransGen.single (same ▸ isNext)) (acyclic u)
        · exact (of_mem_swept recorded).2
      · intro behind v
        rw [here, Relation.ReflTransGen.cases_head_iff, eq_comm]
        refine or_congr_right (exists_congr fun y => and_congr_right fun isNext => ?_)
        rw [← others y (behind y isNext)]
        exact (tail.mpr forward) y (behind y isNext) v

end LabelGraph

namespace LabelState
variable (s : LabelState E)

/-- `w` is a successor of the label `u`. -/
def Succeeds (u w : LabelId E) : Prop := w ∈ LabelGraph.successors s.arcs s.labelSet u

structure AcyclicLabels : Prop where
  nodup : s.labelSet.Nodup
  inside : ∀ w ∈ s.labelSet, ∀ u, (s.arcs w).comesFrom u = true → u ∈ s.labelSet
  acyclic : ∀ x, ¬ Relation.TransGen s.Succeeds x x

/-- The descendants of each label are what its successors lead to. -/
def RecordsClosure (g : LabelGraph E) : Prop :=
  ∀ u ∈ s.labelSet, ∀ v, v ∈ g.descendentMap u ↔ Relation.ReflTransGen s.Succeeds u v

variable {s}

theorem AcyclicLabels.source_or_succeeds (labels : s.AcyclicLabels) {w : LabelId E} (member : w ∈ s.labelSet) :
    w ∈ LabelGraph.sources s.arcs s.labelSet ∨ ∃ u ∈ s.labelSet, s.Succeeds u w := by
  have found {u : LabelId E} (comes : (s.arcs w).comesFrom u = true) : ∃ u ∈ s.labelSet, s.Succeeds u w :=
    ⟨u, labels.inside w member u comes, List.mem_filter.mpr ⟨member, comes⟩⟩
  cases labeled : (s.arcs w).labeledInArc with
  | some arc =>
      obtain ⟨v, t, i⟩ := arc
      refine Or.inr (found (?_ : (s.arcs w).comesFrom v = true))
      simp [LabelArcs.comesFrom, labeled]
  | none =>
      cases unlabeled : (s.arcs w).unlabeledInArcs with
      | nil => exact Or.inl (List.mem_filter.mpr ⟨member, by simp [labeled, unlabeled]⟩)
      | cons v rest =>
          refine Or.inr (found (?_ : (s.arcs w).comesFrom v = true))
          simp [LabelArcs.comesFrom, labeled, unlabeled]

theorem AcyclicLabels.leadsTo (labels : s.AcyclicLabels) {source : LabelId E}
    (isSource : LabelGraph.sources s.arcs s.labelSet = [source]) :
    ∀ w ∈ s.labelSet, ∃ word, LeadsTo (LabelGraph.successors s.arcs s.labelSet) source word w := by
  let edges := s.labelSet.flatMap fun u => (LabelGraph.successors s.arcs s.labelSet u).map fun w => (u, w)
  have mem_edges (u w : LabelId E) : (u, w) ∈ edges ↔ u ∈ s.labelSet ∧ s.Succeeds u w := by
    simp [edges, Succeeds]
  have graph : AcyclicGraph s.labelSet edges := by
    refine ⟨fun u w edge => ?_, fun x around => labels.acyclic x ?_⟩
    · obtain ⟨inside, isNext⟩ := (mem_edges u w).mp edge
      exact ⟨inside, (List.mem_filter.mp isNext).1⟩
    · exact Relation.TransGen.mono (fun u w edge => ((mem_edges u w).mp edge).2) _ _ around
  refine graph.induction fun w member earlier => ?_
  rcases labels.source_or_succeeds member with first | ⟨u, inside, isNext⟩
  · rw [isSource, List.mem_singleton] at first
    exact ⟨[], first ▸ LeadsTo.nil⟩
  · obtain ⟨word, leads⟩ := earlier u ((mem_edges u w).mpr ⟨inside, isNext⟩)
    obtain ⟨i, at_⟩ := List.mem_iff_getElem?.mp isNext
    exact ⟨word ++ [i], leads.snoc at_⟩

end LabelState

open LabelState LabelGraph in
/-- The label of each arc must be reached sooner than the label the arc leads to. -/
theorem connect_closure_iff {below : LabelId E → LabelId E → Bool} {s : LabelState E} (labels : s.AcyclicLabels)
    {fuel : Nat} (enough : s.labelSet.length ≤ fuel) :
    (∃ g, connect below fuel s = some g ∧ s.RecordsClosure g) ↔
      ∃ source, sources s.arcs s.labelSet = [source] ∧
        ∀ u w, s.Succeeds u w → Sooner (successors s.arcs s.labelSet) source u w := by
  rw [connect.eq_def]
  split
  next source isSource =>
    have inside : ∀ u ∈ s.labelSet, ∀ w ∈ successors s.arcs s.labelSet u, w ∈ s.labelSet :=
      fun u _ w isNext => (List.mem_filter.mp isNext).1
    have sourceInside : source ∈ s.labelSet := by
      have : source ∈ sources s.arcs s.labelSet := isSource ▸ List.mem_singleton_self source
      exact (List.mem_filter.mp this).1
    have begun : Searched (successors s.arcs s.labelSet) source ([] ++ [source]) (fun _ => []) fun p _ => p ∈ [] :=
      Searched.begin.congr (fun _ _ done => done.elim) fun _ _ _ isDone _ => absurd isDone List.not_mem_nil
    obtain ⟨order, word, run, within, searched⟩ := breadthFirst_spec inside fuel [source] []
      (fun x member => List.mem_singleton.mp member ▸ sourceInside) enough begun
    have complete (u : LabelId E) : u ∈ order ↔ u ∈ s.labelSet := by
      refine ⟨within u, fun member => ?_⟩
      obtain ⟨other, leads⟩ := labels.leadsTo isSource u member
      exact (searched.first leads).1
    have pass := (@swept_iff_forward E _ below _ order searched.nodup labels.acyclic).trans searched.forward_iff
    rw [run]
    simp only [complete] at pass
    constructor
    · rintro ⟨g, isGraph, closure⟩
      obtain rfl := Option.some.inj isGraph
      refine ⟨source, isSource, fun u w isNext => ?_⟩
      exact pass.mp closure u (labels.inside w (List.mem_filter.mp isNext).1 u (List.mem_filter.mp isNext).2) w isNext
    · rintro ⟨source', isSource', sooner⟩
      obtain rfl : source = source' := by simpa using isSource.symm.trans isSource'
      exact ⟨_, rfl, pass.mpr fun u _ w isNext => sooner u w isNext⟩
  next several =>
    constructor
    · rintro ⟨g, isGraph, _⟩
      cases isGraph
    · rintro ⟨source, isSource, _⟩
      exact absurd isSource (several source)

section Example
open LabelState LabelGraph

/-- The fork `0` has two ways out, and both lead to the join `2`. -/
def equalPaths : LabelState (Fin 3) where
  arcs := fun l => match l with
    | .forFork 0 i => ⟨some (.inherited, 0, i), []⟩
    | .forElement 2 => ⟨none, [.forFork 0 0, .forFork 0 1]⟩
    | _ => ⟨none, []⟩
  labelSet := [.inherited, .forFork 0 0, .forFork 0 1, .forElement 2]
  nlMap := fun _ => none
  compatibilityLabel := fun _ => none

def equalPathsLevel : LabelId (Fin 3) → Nat
  | .inherited => 0
  | .forFork _ _ => 1
  | .forElement _ => 2

theorem equalPaths_level {u w : LabelId (Fin 3)} (isNext : equalPaths.Succeeds u w) :
    equalPathsLevel w = equalPathsLevel u + 1 ∧ u ∈ equalPaths.labelSet := by
  obtain ⟨member, comes⟩ := List.mem_filter.mp isNext
  simp only [equalPaths, List.mem_cons, List.not_mem_nil, or_false] at member
  rcases member with rfl | rfl | rfl | rfl
  · simp [equalPaths, LabelArcs.comesFrom] at comes
  · obtain rfl : LabelId.inherited = u := by simpa [equalPaths, LabelArcs.comesFrom] using comes
    exact ⟨rfl, by decide⟩
  · obtain rfl : LabelId.inherited = u := by simpa [equalPaths, LabelArcs.comesFrom] using comes
    exact ⟨rfl, by decide⟩
  · have either : u = .forFork 0 0 ∨ u = .forFork 0 1 := by simpa [equalPaths, LabelArcs.comesFrom] using comes
    rcases either with rfl | rfl
    · exact ⟨rfl, by decide⟩
    · exact ⟨rfl, by decide⟩

theorem equalPaths_acyclic : equalPaths.AcyclicLabels := by
  refine ⟨by decide, fun w member u comes => (equalPaths_level (List.mem_filter.mpr ⟨member, comes⟩)).2,
    acyclic_of_rising equalPathsLevel fun u w isNext => ?_⟩
  rw [(equalPaths_level isNext).1]
  exact Nat.lt_succ_self _

theorem equalPaths_leadsTo {word : List Nat} {w : LabelId (Fin 3)}
    (leads : LeadsTo (successors equalPaths.arcs equalPaths.labelSet) .inherited word w) :
    word.length = equalPathsLevel w := by
  induction leads with
  | nil => rfl
  | snoc _ isNext ih => rw [List.length_append, ih, List.length_singleton, (equalPaths_level (List.mem_of_getElem? isNext)).1]

/-- Each label is reached sooner than those one level below it. -/
theorem connect_closure_equalPaths :
    ∃ g, connect (fun _ _ => true) 4 equalPaths = some g ∧ equalPaths.RecordsClosure g := by
  have isSource : sources equalPaths.arcs equalPaths.labelSet = [.inherited] := by decide
  refine (connect_closure_iff equalPaths_acyclic (by decide)).mpr ⟨.inherited, isSource, fun u w isNext => ?_⟩
  obtain ⟨level, member⟩ := equalPaths_level isNext
  obtain ⟨word, leads⟩ := equalPaths_acyclic.leadsTo isSource u member
  refine ⟨word, leads, fun word' leads' => wordPlace_lt.mpr (Or.inl ?_)⟩
  rw [equalPaths_leadsTo leads, equalPaths_leadsTo leads', level]
  exact Nat.lt_succ_self _

/-- The fork `0` has a way out to the join `2` and one to the fork `1`, which has a way out to `2` too. -/
def unequalPaths : LabelState (Fin 3) where
  arcs := fun l => match l with
    | .forFork 0 i => ⟨some (.inherited, 0, i), []⟩
    | .forFork 1 i => ⟨some (.forFork 0 1, 1, i), []⟩
    | .forElement 2 => ⟨none, [.forFork 0 0, .forFork 1 0]⟩
    | _ => ⟨none, []⟩
  labelSet := [.inherited, .forFork 0 0, .forFork 0 1, .forFork 1 0, .forFork 1 1, .forElement 2]
  nlMap := fun _ => none
  compatibilityLabel := fun _ => none

theorem unequalPaths_acyclic : unequalPaths.AcyclicLabels := by
  have inside : ∀ w ∈ unequalPaths.labelSet, ∀ u, (unequalPaths.arcs w).comesFrom u = true →
      u ∈ unequalPaths.labelSet ∧ unequalPaths.labelSet.idxOf u < unequalPaths.labelSet.idxOf w := by
    intro w member u comes
    simp only [unequalPaths, List.mem_cons, List.not_mem_nil, or_false] at member
    rcases member with rfl | rfl | rfl | rfl | rfl | rfl
    · simp [unequalPaths, LabelArcs.comesFrom] at comes
    · obtain rfl : LabelId.inherited = u := by simpa [unequalPaths, LabelArcs.comesFrom] using comes
      decide
    · obtain rfl : LabelId.inherited = u := by simpa [unequalPaths, LabelArcs.comesFrom] using comes
      decide
    · obtain rfl : LabelId.forFork 0 1 = u := by simpa [unequalPaths, LabelArcs.comesFrom] using comes
      decide
    · obtain rfl : LabelId.forFork 0 1 = u := by simpa [unequalPaths, LabelArcs.comesFrom] using comes
      decide
    · have either : u = .forFork 0 0 ∨ u = .forFork 1 0 := by
        simpa [unequalPaths, LabelArcs.comesFrom] using comes
      rcases either with rfl | rfl
      · decide
      · decide
  refine ⟨by decide, fun w member u comes => (inside w member u comes).1,
    acyclic_of_rising unequalPaths.labelSet.idxOf fun u w isNext => ?_⟩
  obtain ⟨member, comes⟩ := List.mem_filter.mp isNext
  exact (inside w member u comes).2

/-- The join is reached from the first way out, before the second fork is. -/
theorem unequalPaths_not_closed : unequalPaths.AcyclicLabels ∧
    ¬ ∃ g, connect (fun _ _ => true) 6 unequalPaths = some g ∧ unequalPaths.RecordsClosure g := by
  refine ⟨unequalPaths_acyclic, ?_⟩
  rintro ⟨g, run, closure⟩
  have isNext : unequalPaths.Succeeds (.forFork 1 0) (.forElement 2) :=
    List.mem_filter.mpr ⟨by decide, by decide⟩
  have recorded := (closure (.forFork 1 0) (by decide) (.forElement 2)).mpr (Relation.ReflTransGen.single isNext)
  have missing : (connect (fun _ _ => true) 6 unequalPaths).map
      (fun g => decide (LabelId.forElement 2 ∈ g.descendentMap (.forFork 1 0))) = some false := by decide +kernel
  rw [run, Option.map_some, decide_eq_true recorded] at missing
  exact Bool.noConfusion (Option.some.inj missing)

end Example

end Ahir.ControlPath
