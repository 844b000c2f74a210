import Ahir.Graph.Nested
import Ahir.ControlPath.LabelClosure

/-!
# Labels that form a tree

Without joins each label but the first hangs by one labeled arc below a label that was
made before it.  A breadth first search then takes every label before those below it, so
that the descendants are complete, and looking back finds nothing.  Two labels end up
compatible when one is above the other or when they are below different forks of one label,
and stay incompatible below two ways out of one fork.
-/

set_option autoImplicit false

namespace Ahir.ControlPath
open Ahir.Graph Relation
variable {E : Type} [DecidableEq E]

/-- Each label but `root` hangs by one arc below a label of less depth. -/
structure LabelTree (s : LabelState E) (root : LabelId E) (depth : LabelId E → Nat) : Prop where
  nodup : s.labelSet.Nodup
  root_mem : root ∈ s.labelSet
  root_arcs : s.arcs root = ⟨none, []⟩
  hangs : ∀ w ∈ s.labelSet, w ≠ root → ∃ v t i, s.arcs w = ⟨some (v, t, i), []⟩ ∧ v ∈ s.labelSet ∧ depth v < depth w
  bounded : ∀ w ∈ s.labelSet, depth w < s.labelSet.length

/-- The label `c` hangs below `a` by the fork `t`. -/
def ForkArc (s : LabelState E) (a : LabelId E) (t : E) (c : LabelId E) : Prop :=
  c ∈ s.labelSet ∧ ∃ i, s.arcs c = ⟨some (a, t, i), []⟩

section ForkArc
variable {s : LabelState E}

omit [DecidableEq E] in
theorem ForkArc.unique {a a' c : LabelId E} {t t' : E} (first : ForkArc s a t c) (second : ForkArc s a' t' c) :
    a = a' ∧ t = t' := by
  obtain ⟨-, i, arcs⟩ := first
  obtain ⟨-, i', arcs'⟩ := second
  rw [arcs] at arcs'
  obtain ⟨rfl, rfl, -⟩ : a = a' ∧ t = t' ∧ i = i' := by simpa using arcs'
  exact ⟨rfl, rfl⟩

theorem ForkArc.succeeds {a c : LabelId E} {t : E} (arc : ForkArc s a t c) : s.Succeeds a c := by
  obtain ⟨inside, i, arcs⟩ := arc
  exact List.mem_filter.mpr ⟨inside, by simp [LabelArcs.comesFrom, arcs]⟩

end ForkArc

namespace LabelTree
variable {s : LabelState E} {root : LabelId E} {depth : LabelId E → Nat}

section Tree
variable (tree : LabelTree s root depth)
include tree

theorem forkArc_of_succeeds {u w : LabelId E} (succeeds : s.Succeeds u w) : ∃ t, ForkArc s u t w := by
  obtain ⟨inside, comes⟩ := List.mem_filter.mp succeeds
  have isNotRoot : w ≠ root := by
    rintro rfl
    simp [LabelArcs.comesFrom, tree.root_arcs] at comes
  obtain ⟨v, t, i, arcs, -, -⟩ := tree.hangs w inside isNotRoot
  obtain rfl : v = u := by simpa [LabelArcs.comesFrom, arcs] using comes
  exact ⟨t, inside, i, arcs⟩

theorem rises {u w : LabelId E} (succeeds : s.Succeeds u w) : u ∈ s.labelSet ∧ depth u < depth w := by
  obtain ⟨t, inside, i, arcs⟩ := tree.forkArc_of_succeeds succeeds
  have isNotRoot : w ≠ root := by
    rintro rfl
    rw [tree.root_arcs] at arcs
    simp at arcs
  obtain ⟨v, t', i', arcs', parent, deeper⟩ := tree.hangs w inside isNotRoot
  obtain ⟨rfl, -⟩ := ForkArc.unique ⟨inside, i, arcs⟩ ⟨inside, i', arcs'⟩
  exact ⟨parent, deeper⟩

theorem parent_unique {u u' w : LabelId E} (first : s.Succeeds u w) (second : s.Succeeds u' w) : u = u' := by
  obtain ⟨t, arc⟩ := tree.forkArc_of_succeeds first
  obtain ⟨t', arc'⟩ := tree.forkArc_of_succeeds second
  exact (ForkArc.unique arc arc').1

theorem acyclicLabels : s.AcyclicLabels where
  nodup := tree.nodup
  inside := fun _ inside _ comes => (tree.rises (List.mem_filter.mpr ⟨inside, comes⟩)).1
  acyclic := acyclic_of_rising depth fun _ _ succeeds => (tree.rises succeeds).2

theorem sources_eq : LabelGraph.sources s.arcs s.labelSet = [root] := by
  refine List.perm_singleton.mp ((List.perm_ext_iff_of_nodup (tree.nodup.filter _) (List.nodup_singleton root)).mpr
    fun w => ?_)
  rw [List.mem_filter, List.mem_singleton]
  constructor
  · rintro ⟨inside, isSource⟩
    by_contra isNotRoot
    obtain ⟨v, t, i, arcs, -, -⟩ := tree.hangs w inside isNotRoot
    simp [arcs] at isSource
  · rintro rfl
    exact ⟨tree.root_mem, by simp [tree.root_arcs]⟩

theorem sooner {order : List (LabelId E)} {word : LabelId E → List Nat}
    (searched : Searched (LabelGraph.successors s.arcs s.labelSet) root order word fun p _ => p ∈ order)
    {u w : LabelId E} (insideU : u ∈ order) (insideW : w ∈ order) (succeeds : s.Succeeds u w) :
    Sooner (LabelGraph.successors s.arcs s.labelSet) root u w := by
  rw [searched.sooner_iff insideU insideW]
  have leads := searched.leads w insideW
  generalize word w = path at leads
  cases leads with
  | nil =>
      obtain ⟨t, -, i, arcs⟩ := tree.forkArc_of_succeeds succeeds
      rw [tree.root_arcs] at arcs
      simp at arcs
  | @snoc before p _ i leads isNext =>
      obtain rfl := tree.parent_unique (List.mem_of_getElem? isNext) succeeds
      refine (searched.first leads).2.trans_lt (wordPlace_lt.mpr (.inl ?_))
      rw [List.length_append]
      exact Nat.lt_succ_self _

theorem connect_closure {below : LabelId E → LabelId E → Bool} {fuel : Nat} (enough : s.labelSet.length ≤ fuel) :
    ∃ g, LabelGraph.connect below fuel s = some g ∧ s.RecordsClosure g := by
  let next := LabelGraph.successors s.arcs s.labelSet
  have labels := tree.acyclicLabels
  have inside : ∀ u ∈ s.labelSet, ∀ w ∈ next u, w ∈ s.labelSet := fun u _ w isNext => (List.mem_filter.mp isNext).1
  have begun : Searched next root ([] ++ [root]) (fun _ => []) fun p _ => p ∈ [] :=
    Searched.begin.congr (fun _ _ done => done.elim) fun _ _ _ isDone _ => absurd isDone List.not_mem_nil
  obtain ⟨order, word, run, within, searched⟩ := breadthFirst_spec inside fuel [root] []
    (fun x member => List.mem_singleton.mp member ▸ tree.root_mem) enough begun
  have complete (u : LabelId E) : u ∈ order ↔ u ∈ s.labelSet := by
    refine ⟨within u, fun member => ?_⟩
    obtain ⟨other, leads⟩ := labels.leadsTo tree.sources_eq u member
    exact (searched.first leads).1
  have forward : Forward next order := searched.forward_iff.mpr fun u insideU w isNext =>
    tree.sooner searched insideU ((complete w).mpr (List.mem_filter.mp isNext).1) isNext
  have closure := (@LabelGraph.swept_iff_forward E _ below next order searched.nodup labels.acyclic).mpr forward
  rw [LabelGraph.connect.eq_def, tree.sources_eq]
  dsimp only
  rw [run]
  exact ⟨_, rfl, fun u member v => closure u ((complete u).mpr member) v⟩

end Tree

end LabelTree

/-! ### What the update marks -/

namespace LabelGraph
variable {below : LabelId E → LabelId E → Bool} {addr : Addresses E} {g g' : LabelGraph E}

structure SameLabels (g g' : LabelGraph E) : Prop where
  arcs : g'.arcs = g.arcs
  labels : g'.labels = g.labels
  descendentMap : g'.descendentMap = g.descendentMap

omit [DecidableEq E] in
theorem SameLabels.refl (g : LabelGraph E) : SameLabels g g := ⟨rfl, rfl, rfl⟩

omit [DecidableEq E] in
theorem SameLabels.trans {g'' : LabelGraph E} (first : SameLabels g g') (second : SameLabels g' g'') : SameLabels g g'' :=
  ⟨second.arcs.trans first.arcs, second.labels.trans first.labels, second.descendentMap.trans first.descendentMap⟩

structure Marks (g g' : LabelGraph E) (pairs : LabelId E → LabelId E → Prop) : Prop where
  same : SameLabels g g'
  compatible : ∀ u v, v ∈ g'.compatibleMap u ↔ v ∈ g.compatibleMap u ∨ pairs u v

omit [DecidableEq E] in
theorem Marks.congr {pairs pairs' : LabelId E → LabelId E → Prop} (marks : Marks g g' pairs)
    (same : ∀ u v, pairs u v ↔ pairs' u v) : Marks g g' pairs' :=
  ⟨marks.same, fun u v => (marks.compatible u v).trans (or_congr_right (same u v))⟩

omit [DecidableEq E] in
theorem Marks.trans {g'' : LabelGraph E} {pairs pairs' : LabelId E → LabelId E → Prop} (first : Marks g g' pairs)
    (second : Marks g' g'' pairs') : Marks g g'' fun u v => pairs u v ∨ pairs' u v := by
  refine ⟨first.same.trans second.same, fun u v => ?_⟩
  rw [second.compatible, first.compatible, or_assoc]

omit [DecidableEq E] in
theorem Marks.fold {I : Type} {f : LabelGraph E → I → LabelGraph E} {pairs : I → LabelId E → LabelId E → Prop}
    (turn : ∀ g', SameLabels g g' → ∀ i, Marks g' (f g' i) (pairs i)) (items : List I) (same : SameLabels g g') :
    Marks g' (items.foldl f g') fun u v => ∃ i ∈ items, pairs i u v := by
  induction items generalizing g' with
  | nil => exact ⟨.refl g', by simp⟩
  | cons i items ih =>
      have first := turn g' same i
      exact (first.trans (ih (same.trans first.same))).congr fun u v => by simp

theorem recordCompatible_marks (g : LabelGraph E) (u v : LabelId E) :
    Marks g (g.recordCompatible below u v) fun a b => a = u ∧ b = v := by
  refine ⟨⟨rfl, rfl, rfl⟩, fun a b => ?_⟩
  by_cases same : a = u
  · simp [recordCompatible, same, or_comm]
  · simp [recordCompatible, same]

theorem markAsCompatible_marks (g : LabelGraph E) (uset vset : List (LabelId E)) :
    Marks g (g.markAsCompatible below uset vset) fun a b => a ∈ uset ∧ b ∈ vset := by
  have inner (g' : LabelGraph E) (u : LabelId E) := @Marks.fold E g' g' _ (fun g v => g.recordCompatible below u v) _
    (fun g'' _ v => g''.recordCompatible_marks u v) vset (.refl g')
  exact (Marks.fold (fun g' _ u => inner g' u) uset (.refl g)).congr fun a b => by simp

theorem forkMap_congr (same : SameLabels g g') (u : LabelId E) (t : E) : g'.forkMap below u t = g.forkMap below u t := by
  rw [forkMap, forkMap, same.arcs, same.labels, same.descendentMap]

theorem markForkPairs_marks (g : LabelGraph E) (u : LabelId E) (forks : List E) :
    Marks g (g.markForkPairs below u forks) fun a b => ∃ t t', List.Sublist [t, t'] forks ∧
      a ∈ g.forkMap below u t ∧ b ∈ g.forkMap below u t' := by
  induction forks generalizing g with
  | nil => exact ⟨.refl g, by simp [markForkPairs]⟩
  | cons t later ih =>
      let mark (g : LabelGraph E) (t' : E) := g.markAsCompatible below (g.forkMap below u t) (g.forkMap below u t')
      have first : Marks g (later.foldl mark g) fun a b =>
          ∃ t' ∈ later, a ∈ g.forkMap below u t ∧ b ∈ g.forkMap below u t' :=
        Marks.fold (fun g' same t' => (g'.markAsCompatible_marks _ _).congr fun a b => by
          rw [forkMap_congr same, forkMap_congr same]) later (.refl g)
      have rest := ih (later.foldl mark g)
      simp only [forkMap_congr first.same] at rest
      refine (first.trans rest).congr fun a b => ?_
      constructor
      · rintro (⟨t', isLater, marked⟩ | ⟨t₁, t₂, pair, marked⟩)
        · exact ⟨t, t', (List.singleton_sublist.mpr isLater).cons_cons t, marked⟩
        · exact ⟨t₁, t₂, pair.cons t, marked⟩
      · rintro ⟨t₁, t₂, pair, marked⟩
        rcases List.sublist_cons_iff.mp pair with pair | ⟨r, same, pair⟩
        · exact .inr ⟨t₁, t₂, pair, marked⟩
        · obtain ⟨rfl, rfl⟩ := List.cons.inj same
          exact .inl ⟨t₂, List.singleton_sublist.mp pair, marked⟩

theorem mem_forksBelow {u : LabelId E} {t : E} : t ∈ g.forksBelow addr u ↔
    ∃ c ∈ successors g.arcs g.labels u, (g.arcs c).labeledInArc.map (fun arc => arc.2.1) = some t := by
  simp [forksBelow]

theorem mem_forkMap {u a : LabelId E} {t : E} : a ∈ g.forkMap below u t ↔
    ∃ c ∈ successors g.arcs g.labels u, (g.arcs c).labeledInArc.map (fun arc => arc.2.1) = some t ∧
      (a = c ∨ a ∈ g.descendentMap c) := by
  have loop (labels set : List (LabelId E)) : a ∈ labels.foldl (fun set w =>
      if (g.arcs w).labeledInArc.map (fun arc => arc.2.1) = some t then
        insertPointers below (insertPointer below w set) (g.descendentMap w) else set) set ↔
      a ∈ set ∨ ∃ c ∈ labels, (g.arcs c).labeledInArc.map (fun arc => arc.2.1) = some t ∧
        (a = c ∨ a ∈ g.descendentMap c) := by
    induction labels generalizing set with
    | nil => simp
    | cons c labels ih =>
        rw [List.foldl_cons, ih]
        simp only [List.mem_cons, exists_eq_or_imp]
        split_ifs with isFork
        · simp only [mem_insertPointers, mem_insertPointer, isFork, true_and, or_assoc, or_left_comm]
        · simp only [isFork, false_and, false_or]
  rw [forkMap, loop]
  simp

end LabelGraph

namespace LabelTree
variable {s : LabelState E} {root : LabelId E} {depth : LabelId E → Nat} (tree : LabelTree s root depth)
include tree

theorem lookBack_false {g : LabelGraph E} {below : LabelId E → LabelId E → Bool} (arcs : g.arcs = s.arcs)
    (v : LabelId E) (fuel : Nat) (u : LabelId E) (visited : List (LabelId E)) (inside : u ∈ s.labelSet)
    (enough : depth u < fuel) : g.lookBack below v fuel u visited = some (false, visited) := by
  induction fuel generalizing u with
  | zero => exact absurd enough (Nat.not_lt_zero _)
  | succ fuel ih =>
      by_cases isRoot : u = root
      · simp [LabelGraph.lookBack, LabelGraph.lookBackUnlabeled, arcs, isRoot, tree.root_arcs]
      · obtain ⟨above, t, i, hangs, parent, deeper⟩ := tree.hangs u inside isRoot
        simp only [LabelGraph.lookBack, arcs, hangs, LabelGraph.lookBackUnlabeled]
        split_ifs
        · rfl
        · exact ih above parent (deeper.trans_le (Nat.le_of_lt_succ enough))

theorem updatePairs_eq {g : LabelGraph E} {below : LabelId E → LabelId E → Bool} (arcs : g.arcs = s.arcs) {fuel : Nat}
    (enough : s.labelSet.length ≤ fuel) {labels : List (LabelId E)} (inside : labels ⊆ s.labelSet) :
    g.updatePairs below fuel labels = some g := by
  have pair {u v : LabelId E} (insideU : u ∈ s.labelSet) : g.updatePair below fuel u v = some g := by
    unfold LabelGraph.updatePair
    rw [tree.lookBack_false arcs v fuel u [] insideU ((tree.bounded u insideU).trans_le enough)]
    split_ifs
    · rfl
    · rfl
  have against {u : LabelId E} (insideU : u ∈ s.labelSet) (rest : List (LabelId E)) :
      g.updateAgainst below fuel u rest = some g := by
    induction rest with
    | nil => rfl
    | cons v rest ih =>
        rw [LabelGraph.updateAgainst, pair insideU]
        exact ih
  induction labels with
  | nil => rfl
  | cons u rest ih =>
      rw [LabelGraph.updatePairs, against (inside List.mem_cons_self)]
      exact ih (List.subset_of_cons_subset inside)

/-- A label is compatible with those above it, with those below it, and with those that are
below another fork of a label above it. -/
theorem compatible_iff (addr : Addresses E) {fuel : Nat} (enough : s.labelSet.length ≤ fuel) :
    ∃ g g', LabelGraph.connect addr.label fuel s = some g ∧ g.updateCompatibilityMap addr fuel = some g' ∧
      ∀ u ∈ s.labelSet, ∀ v ∈ s.labelSet, g'.areCompatible u v = true ↔
        ReflTransGen s.Succeeds u v ∨ ReflTransGen s.Succeeds v u ∨ ∃ a t t' c c', t ≠ t' ∧ ForkArc s a t c ∧
          ForkArc s a t' c' ∧ ReflTransGen s.Succeeds c u ∧ ReflTransGen s.Succeeds c' v := by
  obtain ⟨g, isGraph, closure⟩ := @connect_closure E _ s root depth tree addr.label fuel enough
  obtain ⟨recorded, unmarked⟩ := recorded_of_connect isGraph
  let mark (g : LabelGraph E) (u : LabelId E) := g.markForkPairs addr.label u (g.forksBelow addr u)
  have marks : LabelGraph.Marks g (g.labels.foldl mark g) fun a b => ∃ u ∈ g.labels, ∃ t t',
      List.Sublist [t, t'] (g.forksBelow addr u) ∧ a ∈ g.forkMap addr.label u t ∧ b ∈ g.forkMap addr.label u t' := by
    refine LabelGraph.Marks.fold (fun g' same u => (g'.markForkPairs_marks u _).congr fun a b => ?_) g.labels (.refl g)
    simp only [LabelGraph.forkMap_congr same, LabelGraph.forksBelow, same.arcs, same.labels]
  refine ⟨g, g.labels.foldl mark g, isGraph, ?_, fun u insideU v insideV => ?_⟩
  · exact tree.updatePairs_eq (marks.same.arcs.trans recorded.arcs) enough (recorded.labels ▸ List.Subset.refl _)
  have arc_iff (a c : LabelId E) (t : E) : (c ∈ LabelGraph.successors g.arcs g.labels a ∧
      (g.arcs c).labeledInArc.map (fun arc => arc.2.1) = some t) ↔ ForkArc s a t c := by
    rw [recorded.arcs, recorded.labels]
    constructor
    · rintro ⟨succeeds, isFork⟩
      obtain ⟨t', arc⟩ := tree.forkArc_of_succeeds succeeds
      obtain ⟨inside, i, arcs⟩ := arc
      obtain rfl : t' = t := by simpa [arcs] using isFork
      exact ⟨inside, i, arcs⟩
    · intro arc
      obtain ⟨inside, i, arcs⟩ := id arc
      exact ⟨arc.succeeds, by simp [arcs]⟩
  have below_iff (a b : LabelId E) (t : E) : b ∈ g.forkMap addr.label a t ↔
      ∃ c, ForkArc s a t c ∧ ReflTransGen s.Succeeds c b := by
    rw [LabelGraph.mem_forkMap]
    constructor
    · rintro ⟨c, succeeds, isFork, isBelow⟩
      have arc := (arc_iff a c t).mp ⟨succeeds, isFork⟩
      refine ⟨c, arc, ?_⟩
      rcases isBelow with rfl | isBelow
      · exact .refl
      · exact (closure c arc.1 b).mp isBelow
    · rintro ⟨c, arc, isBelow⟩
      obtain ⟨succeeds, isFork⟩ := (arc_iff a c t).mpr arc
      exact ⟨c, succeeds, isFork, .inr ((closure c arc.1 b).mpr isBelow)⟩
  have fork_iff (a : LabelId E) (t : E) : t ∈ g.forksBelow addr a ↔ ∃ c, ForkArc s a t c := by
    rw [LabelGraph.mem_forksBelow]
    exact exists_congr fun c => arc_iff a c t
  have distinct (a : LabelId E) : (g.forksBelow addr a).Nodup := nodup_insertPointers _ List.nodup_nil
  have marked (u v : LabelId E) : v ∈ (g.labels.foldl mark g).compatibleMap u ↔ ∃ a t t' c c',
      List.Sublist [t, t'] (g.forksBelow addr a) ∧ ForkArc s a t c ∧ ForkArc s a t' c' ∧
        ReflTransGen s.Succeeds c u ∧ ReflTransGen s.Succeeds c' v := by
    rw [marks.compatible, unmarked, or_iff_right List.not_mem_nil]
    simp only [below_iff]
    constructor
    · rintro ⟨a, -, t, t', pair, ⟨c, arc, isBelow⟩, c', arc', isBelow'⟩
      exact ⟨a, t, t', c, c', pair, arc, arc', isBelow, isBelow'⟩
    · rintro ⟨a, t, t', c, c', pair, arc, arc', isBelow, isBelow'⟩
      have inside : a ∈ g.labels := recorded.labels ▸ (tree.rises arc.succeeds).1
      exact ⟨a, inside, t, t', pair, ⟨c, arc, isBelow⟩, c', arc', isBelow'⟩
  simp only [LabelGraph.areCompatible, Bool.or_eq_true, decide_eq_true_eq, marks.same.descendentMap, closure u insideU,
    closure v insideV, marked]
  constructor
  · rintro ((((rfl | isBelow) | isAbove) | ⟨a, t, t', c, c', pair, parts⟩) | ⟨a, t, t', c, c', pair, arc, arc', isBelow, isBelow'⟩)
    · exact .inl .refl
    · exact .inl isBelow
    · exact .inr (.inl isAbove)
    · have differ : t ≠ t' := by simpa using (distinct a).sublist pair
      exact .inr (.inr ⟨a, t, t', c, c', differ, parts⟩)
    · have differ : t ≠ t' := by simpa using (distinct a).sublist pair
      exact .inr (.inr ⟨a, t', t, c', c, differ.symm, arc', arc, isBelow', isBelow⟩)
  · rintro (isBelow | isAbove | ⟨a, t, t', c, c', differ, arc, arc', isBelow, isBelow'⟩)
    · exact .inl (.inl (.inl (.inr isBelow)))
    · exact .inl (.inl (.inr isAbove))
    · rcases pair_sublist_total ((fork_iff a t).mpr ⟨c, arc⟩) ((fork_iff a t').mpr ⟨c', arc'⟩) differ with pair | pair
      · exact .inl (.inr ⟨a, t, t', c, c', pair, arc, arc', isBelow, isBelow'⟩)
      · exact .inr ⟨a, t', t, c', c, pair, arc', arc, isBelow', isBelow⟩

/-! ### Two ways out of one fork -/

theorem comparable {c d w : LabelId E} (belowC : ReflTransGen s.Succeeds c w) (belowD : ReflTransGen s.Succeeds d w) :
    ReflTransGen s.Succeeds c d ∨ ReflTransGen s.Succeeds d c := by
  have unique : Relator.RightUnique (Function.swap s.Succeeds) := fun _ _ _ first second => tree.parent_unique first second
  rcases ReflTransGen.total_of_right_unique unique belowC.swap belowD.swap with up | up
  · exact .inr up.swap
  · exact .inl up.swap

theorem siblings_disjoint {a c d w : LabelId E} (underC : s.Succeeds a c) (underD : s.Succeeds a d) (differ : c ≠ d)
    (belowC : ReflTransGen s.Succeeds c w) : ¬ ReflTransGen s.Succeeds d w := by
  have apart {c d : LabelId E} (underC : s.Succeeds a c) (underD : s.Succeeds a d) (differ : c ≠ d) :
      ¬ ReflTransGen s.Succeeds c d := by
    intro path
    rcases ReflTransGen.cases_tail path with same | ⟨b, path, last⟩
    · exact differ same.symm
    · obtain rfl := tree.parent_unique last underD
      exact tree.acyclicLabels.acyclic b (TransGen.head' underC path)
  intro belowD
  rcases tree.comparable belowC belowD with path | path
  · exact apart underC underD differ path
  · exact apart underD underC differ.symm path

/-- What is below two ways out of one fork is not below another fork, nor one below the other. -/
theorem siblings_apart {a c d u v : LabelId E} {t : E} (arcC : ForkArc s a t c) (arcD : ForkArc s a t d) (differ : c ≠ d)
    (belowC : ReflTransGen s.Succeeds c u) (belowD : ReflTransGen s.Succeeds d v) :
    ¬ (ReflTransGen s.Succeeds u v ∨ ReflTransGen s.Succeeds v u ∨ ∃ a t t' c c', t ≠ t' ∧ ForkArc s a t c ∧
      ForkArc s a t' c' ∧ ReflTransGen s.Succeeds c u ∧ ReflTransGen s.Succeeds c' v) := by
  rintro (path | path | ⟨a', t₁, t₂, c', d', forks, arcC', arcD', belowC', belowD'⟩)
  · exact tree.siblings_disjoint arcC.succeeds arcD.succeeds differ (belowC.trans path) belowD
  · exact tree.siblings_disjoint arcC.succeeds arcD.succeeds differ belowC (belowD.trans path)
  · have same (isSame : c = c') : False := by
      subst isSame
      obtain ⟨rfl, rfl⟩ := ForkArc.unique arcC arcC'
      have other : d ≠ d' := by
        rintro rfl
        exact forks (ForkArc.unique arcD arcD').2
      exact tree.siblings_disjoint arcD.succeeds arcD'.succeeds other belowD belowD'
    rcases tree.comparable belowC belowC' with path | path
    · rcases ReflTransGen.cases_tail path with isSame | ⟨b, path, last⟩
      · exact same isSame.symm
      · obtain rfl := tree.parent_unique last arcC'.succeeds
        exact tree.siblings_disjoint arcC.succeeds arcD.succeeds differ ((path.tail arcD'.succeeds).trans belowD') belowD
    · rcases ReflTransGen.cases_tail path with isSame | ⟨b, path, last⟩
      · exact same isSame
      · obtain rfl := tree.parent_unique last arcC.succeeds
        have other : c' ≠ d' := by
          rintro rfl
          exact forks (ForkArc.unique arcC' arcD').2
        exact tree.siblings_disjoint arcC'.succeeds arcD'.succeeds other ((path.tail arcD.succeeds).trans belowD) belowD'

end LabelTree

/-! ### Labels made one after the other -/

/-- `Make_Compatibility_Label` for each. -/
def LabelState.makeAll (below : LabelId E → LabelId E → Bool) (labels : List (LabelId E × LabelArcs E))
    (s : LabelState E) : LabelState E :=
  labels.foldl (fun s m => s.makeCompatibilityLabel below m.1 m.2) s

def Hangs : List (LabelId E) → List (LabelId E × LabelArcs E) → Prop
  | _, [] => True
  | before, m :: rest => (∃ v ∈ before, ∃ t i, m.2 = ⟨some (v, t, i), []⟩) ∧ Hangs (before ++ [m.1]) rest

omit [DecidableEq E] in
theorem Hangs.append {before : List (LabelId E)} {labels rest : List (LabelId E × LabelArcs E)}
    (first : Hangs before labels) (second : Hangs (before ++ labels.map Prod.fst) rest) : Hangs before (labels ++ rest) := by
  induction labels generalizing before with
  | nil => simpa using second
  | cons m labels ih =>
      obtain ⟨arcs, first⟩ := first
      exact ⟨arcs, ih first (by simpa using second)⟩

omit [DecidableEq E] in
theorem Hangs.parent {before : List (LabelId E)} {labels : List (LabelId E × LabelArcs E)} (hangs : Hangs before labels)
    {m : LabelId E × LabelArcs E} (isMade : m ∈ labels) : ∃ v t i, m.2 = ⟨some (v, t, i), []⟩ ∧
      ∃ front behind, labels = front ++ m :: behind ∧ v ∈ before ++ front.map Prod.fst := by
  induction labels generalizing before with
  | nil => exact absurd isMade List.not_mem_nil
  | cons n labels ih =>
      obtain ⟨⟨v, inside, t, i, arcs⟩, hangs⟩ := hangs
      rcases List.mem_cons.mp isMade with rfl | isMade
      · exact ⟨v, t, i, arcs, [], labels, rfl, by simpa using inside⟩
      · obtain ⟨v, t, i, arcs, front, behind, rfl, inside⟩ := ih hangs isMade
        exact ⟨v, t, i, arcs, n :: front, behind, rfl, by simpa using inside⟩

namespace LabelState
variable {below : LabelId E → LabelId E → Bool} {labels : List (LabelId E × LabelArcs E)} {s : LabelState E}

theorem mem_makeAll {w : LabelId E} : w ∈ (s.makeAll below labels).labelSet ↔ w ∈ s.labelSet ∨ w ∈ labels.map Prod.fst := by
  induction labels generalizing s with
  | nil => simp [makeAll]
  | cons m labels ih =>
      rw [makeAll, List.foldl_cons, ← makeAll, ih]
      simp [makeCompatibilityLabel, or_assoc, or_left_comm]

theorem nodup_makeAll (nodup : s.labelSet.Nodup) : (s.makeAll below labels).labelSet.Nodup := by
  induction labels generalizing s with
  | nil => exact nodup
  | cons m labels ih => exact ih (nodup_insertPointer below nodup)

theorem makeAll_arcs_of_notMem {w : LabelId E} (new : w ∉ labels.map Prod.fst) :
    (s.makeAll below labels).arcs w = s.arcs w := by
  induction labels generalizing s with
  | nil => rfl
  | cons m labels ih =>
      simp only [List.map_cons, List.mem_cons, not_or] at new
      rw [makeAll, List.foldl_cons, ← makeAll, ih new.2]
      exact if_neg new.1

theorem makeAll_arcs_of_mem {m : LabelId E × LabelArcs E} (distinct : (labels.map Prod.fst).Nodup) (isMade : m ∈ labels) :
    (s.makeAll below labels).arcs m.1 = m.2 := by
  induction labels generalizing s with
  | nil => exact absurd isMade List.not_mem_nil
  | cons n labels ih =>
      obtain ⟨new, distinct⟩ := List.nodup_cons.mp distinct
      rw [makeAll, List.foldl_cons, ← makeAll]
      rcases List.mem_cons.mp isMade with rfl | isMade
      · rw [makeAll_arcs_of_notMem new]
        exact if_pos rfl
      · exact ih distinct isMade

theorem makeAll_tree {root : LabelId E} (only : s.labelSet = [root]) (first : s.arcs root = ⟨none, []⟩)
    (distinct : (root :: labels.map Prod.fst).Nodup) (hangs : Hangs [root] labels) :
    LabelTree (s.makeAll below labels) root fun w => (root :: labels.map Prod.fst).idxOf w := by
  obtain ⟨new, nodup⟩ := List.nodup_cons.mp distinct
  have mem_iff (w : LabelId E) : w ∈ (s.makeAll below labels).labelSet ↔ w ∈ root :: labels.map Prod.fst := by
    simp [mem_makeAll, only]
  have nodupSet : (s.makeAll below labels).labelSet.Nodup := nodup_makeAll (only ▸ List.nodup_singleton root)
  have perm := (List.perm_ext_iff_of_nodup nodupSet distinct).mpr mem_iff
  refine ⟨nodupSet, (mem_iff root).mpr List.mem_cons_self, ?_, fun w inside isNotRoot => ?_, fun w inside => ?_⟩
  · rw [makeAll_arcs_of_notMem new, first]
  · have isKey := (List.mem_cons.mp ((mem_iff w).mp inside)).resolve_left isNotRoot
    obtain ⟨m, isMade, rfl⟩ := List.mem_map.mp isKey
    obtain ⟨v, t, i, arcs, front, behind, split, isBefore⟩ := hangs.parent isMade
    have order : root :: labels.map Prod.fst = ([root] ++ front.map Prod.fst) ++ m.1 :: behind.map Prod.fst := by
      simp [split]
    have late : m.1 ∉ [root] ++ front.map Prod.fst := by
      rw [order] at distinct
      exact fun early => (List.nodup_append.mp distinct).2.2 _ early _ List.mem_cons_self rfl
    refine ⟨v, t, i, (makeAll_arcs_of_mem nodup isMade).trans arcs, (mem_iff v).mpr ?_, ?_⟩
    · rw [order]
      exact List.mem_append_left _ isBefore
    · rw [order, List.idxOf_append_of_mem isBefore, List.idxOf_append_of_notMem late]
      exact Nat.lt_add_right _ (List.idxOf_lt_length_of_mem isBefore)
  · rw [perm.length_eq]
    exact List.idxOf_lt_length_of_mem ((mem_iff w).mp inside)

end LabelState

end Ahir.ControlPath
