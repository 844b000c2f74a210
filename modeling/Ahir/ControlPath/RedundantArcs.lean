import Mathlib.Data.List.ReduceOption
import Ahir.Graph.TopologicalSort
import Ahir.ControlPath.RedundantPairs

/-!
# Eliminating redundant dependencies

`Eliminate_Redundant_Dependencies` removes the pairs of the depth first search,
computes all longest path lengths of what is left and removes every arc whose
ends are further than one arc apart.  The lists are edited while they are gone
through, so an arc behind a removed one is passed over; whatever stays, the
reachability of the block is that of before.
-/

set_option autoImplicit false

namespace Ahir.ControlPath.CPForkBlock
open Ahir.Graph
variable {E : Type} [DecidableEq E] (B : CPForkBlock E)

/-- A pair `(u, v)` is removed from the fork map of `u` and the join map of `v`. -/
def removePair (pair : E × E) : CPForkBlock E :=
  let B := if B.isTransition pair.1 then B.removeForkPoint pair.1 pair.2 else B
  if B.isTransition pair.2 then B.removeJoinPoint pair.2 pair.1 else B

def removePairs (pairs : List (E × E)) : CPForkBlock E := pairs.foldl removePair B

/-- The vertices of the graph that is sorted; the null vertex leads to the sources. -/
def sortedVertices : List (Option E) := none :: B.vertices.map some

def sortedEdges : List (Option E × Option E) :=
  B.vertices.flatMap fun u =>
    if B.predecessors u = [] then [(none, some u)]
    else (B.predecessors u).map fun v => (some v, some u)

/-- An arc of the block, by the predecessors of its end. -/
def BackArc (x y : E) : Prop := x ∈ B.vertices ∧ y ∈ B.vertices ∧ x ∈ B.predecessors y

/-- Update all path lengths to `v` by the arc from `u`. -/
def relaxArc (vertexVector : List E) (d : E → E → Nat) (u v : E) : E → E → Nat :=
  vertexVector.foldl (fun d w =>
    if (0 < d w u ∨ w = u) ∧ d w v < d w u + 1 then
      fun a b => if a = w ∧ b = v then d w u + 1 else d a b
    else d) d

def relaxVertex (d : E → E → Nat) : Option E → E → E → Nat
  | none => d
  | some v => (B.predecessors v).foldl (fun d u => relaxArc B.vertices d u v) d

/-- `All_Pairs_Longest_Paths` from the order the sort has given. -/
def allPairsLongestPaths (precedenceOrder : List (Option E)) : E → E → Nat :=
  precedenceOrder.reverse.foldl B.relaxVertex (fun _ _ => 0)

/-- The arc at position `idx` goes when its ends are further than one arc apart. -/
def removeAt (d : E → E → Nat) (u : E) (B : CPForkBlock E) (idx : Nat) : CPForkBlock E :=
  match (B.successors u)[idx]? with
  | none => B
  | some v =>
      if 1 < d u v then
        let B := if B.isTransition v then B.removeJoinPoint v u else B
        if B.isTransition u then B.removeForkPoint u v else B
      else B

/-- `Remove_Redundant_Arcs`: the positions run to the length the list had at first. -/
def removeRedundantArcs (below : E → E → Bool) (d : E → E → Nat) : CPForkBlock E :=
  (insertPointers below [] B.vertices).foldl (fun B u =>
    (List.range (B.successors u).length).foldl (removeAt d u) B) B

/-- `Eliminate_Redundant_Dependencies`; `topologicalSort` is the sort of the graph library. -/
def eliminateRedundantDependencies (below : E → E → Bool)
    (topologicalSort : List (Option E) → List (Option E × Option E) → List (Option E))
    (redundantPairs : List (E × E)) : CPForkBlock E :=
  let B := B.removePairs redundantPairs
  B.removeRedundantArcs below
    (B.allPairsLongestPaths (topologicalSort B.sortedVertices B.sortedEdges))

variable {B}

section Relax
variable {vertexVector : List E} {d : E → E → Nat} {u v : E}

/-- The update reaches the entries of `v` only, and these by the arc from `u`. -/
theorem relaxArc_apply (distinct : u ≠ v) (a b : E) :
    relaxArc vertexVector d u v a b =
      if b = v ∧ a ∈ vertexVector ∧ (0 < d a u ∨ a = u) then max (d a v) (d a u + 1) else d a b := by
  unfold relaxArc
  induction vertexVector generalizing d with
  | nil => simp
  | cons w rest ih =>
      rw [List.foldl_cons, ih]
      by_cases isV : b = v
      · subst isV
        by_cases better : (0 < d w u ∨ w = u) ∧ d w b < d w u + 1
        · rw [if_pos better]
          by_cases isW : a = w
          · subst isW
            simp only [distinct, and_false, if_false, true_and, List.mem_cons, true_or, better.1,
              and_true, if_true]
            split_ifs <;> omega
          · simp only [isW, false_and, if_false, true_and, List.mem_cons, false_or]
        · rw [if_neg better]
          by_cases isW : a = w
          · subst isW
            simp only [true_and, List.mem_cons, true_or]
            by_cases fromU : 0 < d a u ∨ a = u
            · have already : d a u + 1 ≤ d a b := Nat.le_of_not_lt fun less => better ⟨fromU, less⟩
              simp only [fromU, and_true, Nat.max_eq_left already, ite_self]
            · simp only [fromU, and_false, if_false]
          · simp only [isW, true_and, List.mem_cons, false_or]
      · simp only [isV, false_and, if_false]
        split_ifs with better
        · simp [isV]
        · rfl

end Relax

/-- The lengths are right for the vertices of `done`, and untouched for the others. -/
structure Relaxed (B : CPForkBlock E) (done : List E) (d : E → E → Nat) : Prop where
  attained : ∀ x y, 0 < d x y → PathOf B.Arc (d x y) x y
  fresh : ∀ x y, y ∉ done → d x y = 0
  bound : ∀ n x y, y ∈ done → PathOf B.Arc n x y → 0 < n → n ≤ d x y

theorem relax_predecessors {v : E} : ∀ (us : List E) (d : E → E → Nat),
    (∀ u ∈ us, B.Arc u v ∧ u ≠ v) → (∀ x y, 0 < d x y → PathOf B.Arc (d x y) x y) →
    let d' := us.foldl (fun d u => relaxArc B.vertices d u v) d
    (∀ x y, 0 < d' x y → PathOf B.Arc (d' x y) x y) ∧ (∀ x y, y ≠ v → d' x y = d x y) ∧
      (∀ x, d x v ≤ d' x v) ∧
      ∀ u ∈ us, ∀ x ∈ B.vertices, (0 < d x u ∨ x = u) → d x u + 1 ≤ d' x v := by
  intro us
  induction us with
  | nil => exact fun d _ attained => ⟨attained, fun _ _ _ => rfl, fun _ => Nat.le_refl _, by simp⟩
  | cons u rest ih =>
      intro d arcs attained
      obtain ⟨arc, distinct⟩ := arcs u List.mem_cons_self
      have attained' : ∀ x y, 0 < relaxArc B.vertices d u v x y →
          PathOf B.Arc (relaxArc B.vertices d u v x y) x y := by
        intro x y
        rw [relaxArc_apply distinct]
        split_ifs with updated
        · intro _
          obtain ⟨rfl, _, fromU⟩ := updated
          rcases Nat.le_total (d x u + 1) (d x y) with longer | longer
          · rw [Nat.max_eq_left longer]
            exact attained x y (by omega)
          · rw [Nat.max_eq_right longer]
            apply PathOf.snoc _ arc
            rcases Nat.eq_zero_or_pos (d x u) with none | some
            · rw [none]
              rcases fromU with some | rfl
              · omega
              · exact PathOf.refl x
            · exact attained x u some
        · exact attained x y
      obtain ⟨attainedAll, others, grows, longest⟩ :=
        ih (relaxArc B.vertices d u v) (fun w member => arcs w (List.mem_cons_of_mem u member)) attained'
      have same : ∀ x y, y ≠ v → relaxArc B.vertices d u v x y = d x y := by
        intro x y otherY
        rw [relaxArc_apply distinct, if_neg fun updated => otherY updated.1]
      refine ⟨attainedAll, ?_, ?_, ?_⟩
      · intro x y otherY
        exact (others x y otherY).trans (same x y otherY)
      · intro x
        refine Nat.le_trans ?_ (grows x)
        rw [relaxArc_apply distinct]
        split_ifs <;> omega
      · intro w member x inside fromW
        rcases List.mem_cons.mp member with rfl | member
        · refine Nat.le_trans ?_ (grows x)
          rw [relaxArc_apply distinct, if_pos ⟨rfl, inside, fromW⟩]
          exact Nat.le_max_right _ _
        · have otherW := (arcs w (List.mem_cons_of_mem u member)).2
          have longest' := longest w member x inside
          rw [same x w otherW] at longest'
          exact longest' fromW

theorem Relaxed.vertex (linked : B.Linked) (acyclic : ∀ x, ¬ Relation.TransGen B.Arc x x)
    {done : List E} {d : E → E → Nat} (relaxed : Relaxed B done d) {v : E}
    (inside : v ∈ B.vertices) (earlier : ∀ u ∈ B.predecessors v, u ∈ done) :
    Relaxed B (done ++ [v]) (B.relaxVertex d (some v)) := by
  have arcs : ∀ u ∈ B.predecessors v, B.Arc u v ∧ u ≠ v := by
    intro u isPrev
    have arc : B.Arc u v := linked.arc_iff.mpr ⟨inside, isPrev⟩
    refine ⟨arc, ?_⟩
    rintro rfl
    exact acyclic u (Relation.TransGen.single arc)
  obtain ⟨attained, others, grows, longest⟩ :=
    relax_predecessors (B.predecessors v) d arcs relaxed.attained
  refine ⟨attained, ?_, ?_⟩
  · intro x y later
    simp only [List.mem_append, List.mem_singleton, not_or] at later
    exact (others x y later.2).trans (relaxed.fresh x y later.1)
  · intro n x y isDone path positive
    by_cases isV : y = v
    · subst isV
      cases path with
      | refl _ => omega
      | @snoc m _ u _ path arc =>
          have isPrev := (linked.arc_iff.mp arc).2
          rcases Nat.eq_zero_or_pos m with rfl | some
          · obtain rfl := path.of_zero
            have := longest x isPrev x arc.1 (Or.inr rfl)
            exact Nat.le_trans (Nat.succ_le_succ (Nat.zero_le _)) this
          · have before := relaxed.bound m x u (earlier u isPrev) path some
            have insideX : x ∈ B.vertices := by
              rcases Relation.ReflTransGen.cases_head path.reaches with rfl | ⟨_, arc', _⟩
              · exact arc.1
              · exact arc'.1
            have := longest u isPrev x insideX (Or.inl (by omega))
            exact Nat.le_trans (Nat.succ_le_succ before) this
    · rcases List.mem_append.mp isDone with isDone | member
      · show n ≤ ((B.predecessors v).foldl (fun d u => relaxArc B.vertices d u v) d) x y
        rw [others x y isV]
        exact relaxed.bound n x y isDone path positive
      · exact absurd (List.mem_singleton.mp member) isV

omit [DecidableEq E] in
theorem Relaxed.start : Relaxed B [] (fun _ _ => 0) :=
  ⟨fun _ _ positive => absurd positive (Nat.lt_irrefl 0), fun _ _ _ => rfl,
    fun _ _ _ isDone => absurd isDone List.not_mem_nil⟩

omit [DecidableEq E] in
theorem mem_sortedVertices {x : E} : some x ∈ B.sortedVertices ↔ x ∈ B.vertices := by
  simp [sortedVertices]

omit [DecidableEq E] in
theorem mem_sortedEdges {source : Option E} {x : E} :
    (source, some x) ∈ B.sortedEdges ↔
      x ∈ B.vertices ∧ (source = none ∧ B.predecessors x = [] ∨
        ∃ u ∈ B.predecessors x, source = some u) := by
  simp only [sortedEdges, List.mem_flatMap]
  constructor
  · rintro ⟨y, inside, edge⟩
    split_ifs at edge with isSource
    · simp only [List.mem_singleton, Prod.mk.injEq, Option.some.injEq] at edge
      obtain ⟨rfl, rfl⟩ := edge
      exact ⟨inside, Or.inl ⟨rfl, isSource⟩⟩
    · simp only [List.mem_map, Prod.mk.injEq, Option.some.injEq] at edge
      obtain ⟨u, isPrev, rfl, rfl⟩ := edge
      exact ⟨inside, Or.inr ⟨u, isPrev, rfl⟩⟩
  · rintro ⟨inside, ⟨rfl, isSource⟩ | ⟨u, isPrev, rfl⟩⟩
    · exact ⟨x, inside, by simp [isSource]⟩
    · refine ⟨x, inside, ?_⟩
      rw [if_neg (List.ne_nil_of_mem isPrev)]
      exact List.mem_map.mpr ⟨u, isPrev, rfl⟩

omit [DecidableEq E] in
theorem none_not_target {source : Option E} : (source, none) ∉ B.sortedEdges := by
  simp only [sortedEdges, List.mem_flatMap, not_exists, not_and]
  intro y _
  split_ifs <;> simp

omit [DecidableEq E] in
/-- The graph that is sorted has no cycles but those of the block. -/
theorem sortedEdges_acyclic (acyclic : ∀ x, ¬ Relation.TransGen B.BackArc x x) (start : Option E) :
    ¬ Relation.TransGen (fun a b => (a, b) ∈ B.sortedEdges) start start := by
  have arc : ∀ x ∈ B.vertices, ∀ target, (some x, target) ∈ B.sortedEdges →
      ∃ y ∈ B.vertices, target = some y ∧ B.BackArc x y := by
    intro x insideX target edge
    cases target with
    | none => exact absurd edge none_not_target
    | some y =>
        obtain ⟨insideY, ⟨isNull, _⟩ | ⟨u, isPrev, same⟩⟩ := mem_sortedEdges.mp edge
        · cases isNull
        · obtain rfl := Option.some.inj same
          exact ⟨y, insideY, rfl, insideX, insideY, isPrev⟩
  have arcs : ∀ x ∈ B.vertices, ∀ target, Relation.TransGen (fun a b => (a, b) ∈ B.sortedEdges) (some x) target →
      ∃ y ∈ B.vertices, target = some y ∧ Relation.TransGen B.BackArc x y := by
    intro x insideX target path
    induction path with
    | single edge =>
        obtain ⟨y, insideY, isY, step⟩ := arc x insideX _ edge
        exact ⟨y, insideY, isY, Relation.TransGen.single step⟩
    | tail _ edge ih =>
        obtain ⟨y, insideY, rfl, before⟩ := ih
        obtain ⟨z, insideZ, isZ, step⟩ := arc y insideY _ edge
        exact ⟨z, insideZ, isZ, before.tail step⟩
  intro around
  obtain ⟨_, _, edge⟩ := Relation.TransGen.tail'_iff.mp around
  cases start with
  | none => exact none_not_target edge
  | some x =>
      have inside := (mem_sortedEdges.mp edge).1
      obtain ⟨y, _, same, cycle⟩ := arcs x inside _ around
      obtain rfl := Option.some.inj same
      exact acyclic x cycle

theorem sortedGraph_acyclic (linked : B.Linked) (acyclic : ∀ x, ¬ Relation.TransGen B.Arc x x) :
    AcyclicGraph B.sortedVertices B.sortedEdges := by
  have arcs : ∀ x y, B.BackArc x y → B.Arc x y := fun x y arc => linked.arc_iff.mpr ⟨arc.2.1, arc.2.2⟩
  refine ⟨?_, sortedEdges_acyclic fun x around => acyclic x (Relation.TransGen.mono arcs x x around)⟩
  intro source target edge
  cases target with
  | none => exact absurd edge none_not_target
  | some x =>
      obtain ⟨inside, ⟨rfl, _⟩ | ⟨u, isPrev, rfl⟩⟩ := mem_sortedEdges.mp edge
      · exact ⟨by simp [sortedVertices], mem_sortedVertices.mpr inside⟩
      · have insideU := linked.predecessors_inside x inside u isPrev
        exact ⟨mem_sortedVertices.mpr insideU, mem_sortedVertices.mpr inside⟩

/-- Where each vertex comes after its predecessors, the updates leave all longest paths. -/
theorem longestPaths_of_order (linked : B.Linked) (acyclic : ∀ x, ¬ Relation.TransGen B.Arc x x)
    {order : List (Option E)}
    (earlier : ∀ before v after, order.reverse = before ++ some v :: after →
      v ∈ B.vertices ∧ ∀ u ∈ B.predecessors v, some u ∈ before)
    (complete : ∀ x ∈ B.vertices, some x ∈ order) : LongestPaths B.Arc (B.allPairsLongestPaths order) := by
  have turns : ∀ (todo done : List (Option E)) (d : E → E → Nat), order.reverse = done ++ todo →
      Relaxed B done.reduceOption d →
      Relaxed B order.reverse.reduceOption (todo.foldl B.relaxVertex d) := by
    intro todo
    induction todo with
    | nil =>
        intro done d split relaxed
        rw [split, List.append_nil]
        exact relaxed
    | cons vertex todo ih =>
        intro done d split relaxed
        apply ih (done ++ [vertex]) (B.relaxVertex d vertex) (by rw [split, List.append_assoc]; rfl)
        rw [List.reduceOption_append]
        cases vertex with
        | none => simpa [relaxVertex] using relaxed
        | some v =>
            obtain ⟨inside, before⟩ := earlier done v todo split
            apply relaxed.vertex linked acyclic inside
            intro u isPrev
            exact List.reduceOption_mem_iff.mpr (before u isPrev)
  have relaxed := turns order.reverse [] (fun _ _ => 0) rfl Relaxed.start
  refine ⟨relaxed.attained, ?_⟩
  intro n x y path positive
  apply relaxed.bound n x y _ path positive
  have inside : y ∈ B.vertices := by
    cases path with
    | refl _ => omega
    | snoc _ arc => exact linked.successors_inside _ arc.1 y arc.2
  rw [List.reduceOption_mem_iff, List.mem_reverse]
  exact complete y inside

theorem allPairsLongestPaths_longest (linked : B.Linked)
    (acyclic : ∀ x, ¬ Relation.TransGen B.Arc x x) {order : List (Option E)}
    (sorted : ReverseTopological B.sortedVertices B.sortedEdges order) :
    LongestPaths B.Arc (B.allPairsLongestPaths order) := by
  refine longestPaths_of_order linked acyclic (fun before v after split => ?_) fun x inside => ?_
  · have listed : some v ∈ order := by
      rw [← List.mem_reverse, split]
      simp
    have inside := mem_sortedVertices.mp ((sorted.complete (some v)).mp listed)
    refine ⟨inside, fun u isPrev => ?_⟩
    have edge : (some u, some v) ∈ B.sortedEdges := mem_sortedEdges.mpr ⟨inside, Or.inr ⟨u, isPrev, rfl⟩⟩
    have insideU := mem_sortedVertices.mpr (linked.predecessors_inside v inside u isPrev)
    exact sorted.sources_first split edge insideU
  · exact (sorted.complete (some x)).mpr (mem_sortedVertices.mpr inside)

/-- What a step takes away at most, a loop of such steps does. -/
theorem foldl_shrinks {S : Type} {f : CPForkBlock E → S → CPForkBlock E} {gone : E → E → Prop}
    (step : ∀ (B : CPForkBlock E) (x : S), B.Linked → Shrinks B (f B x) gone) (xs : List S) :
    ∀ B : CPForkBlock E, B.Linked → Shrinks B (xs.foldl f B) gone := by
  intro B linked
  refine List.foldlRecOn (motive := fun B' => Shrinks B B' gone) xs f (Shrinks.refl linked gone)
    fun B' shrinks x _ => ?_
  exact (shrinks.trans (step B' x shrinks.linked)).mono fun _ _ => or_self_iff.mp

theorem removePair_shrinks (linked : B.Linked) (pair : E × E) :
    Shrinks B (B.removePair pair) (fun a b => (a, b) = pair) := by
  have fork : Shrinks B (if B.isTransition pair.1 then B.removeForkPoint pair.1 pair.2 else B)
      (fun a b => a = pair.1 ∧ b = pair.2) := by
    split_ifs
    · exact removeForkPoint_shrinks linked pair.1 pair.2
    · exact Shrinks.refl linked _
  have join : ∀ B' : CPForkBlock E, B'.Linked →
      Shrinks B' (if B'.isTransition pair.2 then B'.removeJoinPoint pair.2 pair.1 else B')
        (fun a b => a = pair.1 ∧ b = pair.2) := by
    intro B' linked'
    split_ifs
    · exact removeJoinPoint_shrinks linked' pair.2 pair.1
    · exact Shrinks.refl linked' _
  refine (fork.trans (join _ fork.linked)).mono ?_
  rintro a b (⟨rfl, rfl⟩ | ⟨rfl, rfl⟩)
  · rfl
  · rfl

theorem removePairs_shrinks (linked : B.Linked) (pairs : List (E × E)) :
    Shrinks B (B.removePairs pairs) (fun a b => (a, b) ∈ pairs) := by
  induction pairs generalizing B with
  | nil => exact Shrinks.refl linked _
  | cons pair rest ih =>
      have first := removePair_shrinks linked pair
      refine (first.trans (ih first.linked)).mono ?_
      rintro a b (isPair | member)
      · exact isPair ▸ List.mem_cons_self
      · exact List.mem_cons_of_mem pair member

theorem removeAt_shrinks (linked : B.Linked) (d : E → E → Nat) (u : E) (idx : Nat) :
    Shrinks B (removeAt d u B idx) (fun a b => 1 < d a b) := by
  unfold removeAt
  split
  · exact Shrinks.refl linked _
  · next v _ =>
      by_cases far : 1 < d u v
      · rw [if_pos far]
        have join : Shrinks B (if B.isTransition v then B.removeJoinPoint v u else B)
            (fun a b => 1 < d a b) := by
          split_ifs
          · refine (removeJoinPoint_shrinks linked v u).mono ?_
            rintro a b ⟨rfl, rfl⟩
            exact far
          · exact Shrinks.refl linked _
        have fork : ∀ B' : CPForkBlock E, B'.Linked →
            Shrinks B' (if B'.isTransition u then B'.removeForkPoint u v else B')
              (fun a b => 1 < d a b) := by
          intro B' linked'
          split_ifs
          · refine (removeForkPoint_shrinks linked' u v).mono ?_
            rintro a b ⟨rfl, rfl⟩
            exact far
          · exact Shrinks.refl linked' _
        exact (join.trans (fork _ join.linked)).mono fun _ _ => or_self_iff.mp
      · rw [if_neg far]
        exact Shrinks.refl linked _

theorem removeRedundantArcs_shrinks (linked : B.Linked) (below : E → E → Bool) (d : E → E → Nat) :
    Shrinks B (B.removeRedundantArcs below d) (fun a b => 1 < d a b) := by
  refine foldl_shrinks ?_ _ B linked
  intro B' u linked'
  exact foldl_shrinks (fun B'' idx linked'' => removeAt_shrinks linked'' d u idx) _ B' linked'

theorem removePairs_precedes (linked : B.Linked) {fuel : Nat} {s : DfsState E} (run : B.dfsOrder fuel = some s)
    (x y : E) : (B.removePairs s.redundantPairs).Precedes x y ↔ B.Precedes x y := by
  have pairs := removePairs_shrinks linked s.redundantPairs
  apply reaches_iff_of_justified (fun _ _ => pairs.arc_of_arc)
  intro a b arc
  by_cases isPair : (a, b) ∈ s.redundantPairs
  · refine Relation.ReflTransGen.mono ?_ _ _ (redundantPairs_justified linked run (a, b) isPair)
    intro a' b' link
    exact pairs.arc_kept link.1 link.2
  · exact Relation.ReflTransGen.single (pairs.arc_kept arc isPair)

theorem removeRedundantArcs_precedes (linked : B.Linked) (below : E → E → Bool) {d : E → E → Nat}
    (longest : LongestPaths B.Arc d) (x y : E) : (B.removeRedundantArcs below d).Precedes x y ↔ B.Precedes x y := by
  have arcs := removeRedundantArcs_shrinks linked below d
  apply reaches_iff_of_justified (fun _ _ => arcs.arc_of_arc)
  apply longest.justified
  intro a b arc near
  exact arcs.arc_kept arc (Nat.not_lt.mpr near)

/-- What is left by the depth first search is sorted, so the path lengths are right. -/
theorem removePairs_longest (linked : B.Linked) (acyclic : ∀ x, ¬ Relation.TransGen B.Arc x x)
    {topologicalSort : List (Option E) → List (Option E × Option E) → List (Option E)}
    (sorts : SortsTopologically topologicalSort) (pairs : List (E × E)) :
    (∀ x, ¬ Relation.TransGen (B.removePairs pairs).Arc x x) ∧
      LongestPaths (B.removePairs pairs).Arc ((B.removePairs pairs).allPairsLongestPaths
        (topologicalSort (B.removePairs pairs).sortedVertices (B.removePairs pairs).sortedEdges)) := by
  have shrinks := removePairs_shrinks linked pairs
  have acyclic' : ∀ x, ¬ Relation.TransGen (B.removePairs pairs).Arc x x :=
    fun x around => acyclic x (Relation.TransGen.mono (fun _ _ => shrinks.arc_of_arc) _ _ around)
  have sorted := sorts _ _ (sortedGraph_acyclic shrinks.linked acyclic')
  exact ⟨acyclic', allPairsLongestPaths_longest shrinks.linked acyclic' sorted⟩

/-- The whole pass keeps the order of the elements. -/
theorem eliminateRedundantDependencies_precedes (linked : B.Linked)
    (acyclic : ∀ x, ¬ Relation.TransGen B.Arc x x) (below : E → E → Bool)
    {topologicalSort : List (Option E) → List (Option E × Option E) → List (Option E)}
    (sorts : SortsTopologically topologicalSort) {fuel : Nat}
    (enough : 2 * B.vertices.length ≤ fuel + 1) :
    ∃ s, B.dfsOrder fuel = some s ∧ ∀ x y,
      (B.eliminateRedundantDependencies below topologicalSort s.redundantPairs).Precedes x y ↔
        B.Precedes x y := by
  obtain ⟨s, run⟩ := dfsOrder_total linked enough
  refine ⟨s, run, fun x y => ?_⟩
  have pairs := removePairs_shrinks linked s.redundantPairs
  have longest := (removePairs_longest linked acyclic sorts s.redundantPairs).2
  have second := removeRedundantArcs_precedes pairs.linked below longest x y
  have first := removePairs_precedes linked run x y
  exact second.trans first

/-- A chain of three arcs and the two shortcuts from its entry. -/
def shortcuts : CPForkBlock (Fin 4) where
  entry := 0
  exit := 3
  elements := [1, 2]
  isTransition := fun _ => true
  predecessors := fun x => match x with | 0 => [] | 1 => [0] | 2 => [1, 0] | 3 => [2, 0]
  successors := fun x => match x with | 0 => [1, 2, 3] | 1 => [2] | 2 => [3] | 3 => []
  forkMap := fun x => match x with | 0 => [1, 2, 3] | 1 => [2] | 2 => [3] | 3 => []
  joinMap := fun x => match x with | 0 => [] | 1 => [0] | 2 => [1, 0] | 3 => [2, 0]

theorem shortcuts_linked : shortcuts.Linked := ⟨by decide, by decide, by decide⟩

theorem eliminateRedundantDependencies_precedes_shortcuts :
    ∃ s, shortcuts.dfsOrder 7 = some s ∧ ∀ x y,
      (shortcuts.eliminateRedundantDependencies (fun a b => a < b) sinksFirst
        s.redundantPairs).Precedes x y ↔ shortcuts.Precedes x y := by
  have upwards : ∀ x y : Fin 4, y ∈ shortcuts.successors x → x.val < y.val := by decide
  exact eliminateRedundantDependencies_precedes shortcuts_linked
    (acyclic_of_rising _ fun x y arc => upwards x y arc.2) (fun a b => a < b) sinksFirst_sorts (by decide)

end Ahir.ControlPath.CPForkBlock
