import Ahir.ControlPath.RedundantArcs

/-!
# All longest paths of a fork block

`All_Pairs_Longest_Paths` goes through the vertices in a topological order that the
graph library gives, not in the order of `DFS_Order`.  It looks at the predecessors only,
so the successors need not mirror them.  An element may also have predecessors outside of
the block, such as the place it is bound to; the graph has them as vertices of their own.
-/

set_option autoImplicit false

namespace Ahir.ControlPath.CPForkBlock
open Ahir.Graph
variable {E : Type} [DecidableEq E] (B : CPForkBlock E)

/-- `Add_Vertex`: a vertex is in the graph once. -/
def addVertex (vertices : List (Option E)) (v : Option E) : List (Option E) :=
  if v ∈ vertices then vertices else vertices ++ [v]

/-- The vertices of the graph; `Add_Edge` adds both of its ends. -/
def graphVertices : List (Option E) :=
  (B.sortedVertices ++ B.sortedEdges.flatMap fun edge => [edge.1, edge.2]).foldl addVertex []

/-- `Topological_Sort` of the wrapper: what the library writes goes to the front of a queue,
which is read from its back. -/
def topologicalSort (librarySort : List (Option E) → List (Option E × Option E) → List (Option E)) :
    List (Option E) :=
  let reversePrecOrder := (librarySort B.graphVertices B.sortedEdges).foldl (fun queue v => v :: queue) []
  reversePrecOrder.reverse

/-- The vertices in the order in which the lengths of their paths are computed. -/
def visited (precedenceOrder : List (Option E)) : List E := precedenceOrder.reverse.reduceOption

def PredecessorsFirst (order : List E) : Prop :=
  ∀ before x after, order = before ++ x :: after → x ∈ B.vertices → ∀ u ∈ B.predecessors x, u ∈ before

/-- The lengths are those of the longest paths, and 0 without one; all elements are visited once, each after its
predecessors. -/
structure AllPairs (precedenceOrder : List (Option E)) : Prop where
  longest : LongestPaths B.BackArc (B.allPairsLongestPaths precedenceOrder)
  unreachable : ∀ x y, (∀ n, 0 < n → ¬ PathOf B.BackArc n x y) → B.allPairsLongestPaths precedenceOrder x y = 0
  nodup : (visited precedenceOrder).Nodup
  complete : ∀ x ∈ B.vertices, x ∈ visited precedenceOrder
  predecessorsFirst : B.PredecessorsFirst (visited precedenceOrder)

def inner : CPForkBlock E :=
  { B with
    predecessors := fun y => (B.predecessors y).filter fun x => x ∈ B.vertices
    successors := fun x => B.vertices.dedup.flatMap fun y => List.replicate ((B.predecessors y).count x) y }

variable {B}

theorem count_flatMap_replicate (c : E → Nat) {l : List E} (nodup : l.Nodup) (y : E) :
    (l.flatMap fun x => List.replicate (c x) x).count y = if y ∈ l then c y else 0 := by
  induction l with
  | nil => rfl
  | cons a l ih =>
      obtain ⟨fresh, nodup⟩ := List.nodup_cons.mp nodup
      rw [List.flatMap_cons, List.count_append, ih nodup, List.count_replicate]
      by_cases here : a = y
      · subst here
        simp [fresh]
      · simp [here, Ne.symm here]

theorem mem_inner_predecessors {x y : E} : x ∈ B.inner.predecessors y ↔ x ∈ B.vertices ∧ x ∈ B.predecessors y := by
  rw [inner, List.mem_filter, decide_eq_true_iff, and_comm]

theorem inner_linked : B.inner.Linked := by
  have counted := fun x y => count_flatMap_replicate (fun y => (B.predecessors y).count x) (List.nodup_dedup B.vertices) y
  refine ⟨fun x _ y isNext => ?_, fun y _ x isPrev => (mem_inner_predecessors.mp isPrev).1, fun x insideX y insideY => ?_⟩
  · by_contra outside
    have none := counted x y
    have absent : y ∉ B.vertices.dedup := fun mem => outside (List.mem_dedup.mp mem)
    rw [if_neg absent] at none
    exact List.count_eq_zero.mp none isNext
  · have mirrored := counted x y
    rw [if_pos (List.mem_dedup.mpr (show y ∈ B.vertices from insideY))] at mirrored
    refine mirrored.trans (Eq.symm ?_)
    exact List.count_filter (decide_eq_true (show x ∈ B.vertices from insideX))

theorem inner_arc : B.inner.Arc = B.BackArc := by
  funext x y
  refine propext (inner_linked.arc_iff.trans ?_)
  rw [mem_inner_predecessors]
  exact ⟨fun ⟨insideY, insideX, isPrev⟩ => ⟨insideX, insideY, isPrev⟩,
    fun ⟨insideX, insideY, isPrev⟩ => ⟨insideY, insideX, isPrev⟩⟩

/-! ## The graph that is sorted -/

theorem mem_foldl_addVertex {v : Option E} {more : List (Option E)} :
    ∀ {vertices : List (Option E)}, v ∈ more.foldl addVertex vertices ↔ v ∈ vertices ∨ v ∈ more := by
  induction more with
  | nil => simp
  | cons w more ih =>
      intro vertices
      rw [List.foldl_cons, ih, addVertex, List.mem_cons]
      split_ifs with present
      · constructor
        · tauto
        · rintro (inside | rfl | inside)
          · exact .inl inside
          · exact .inl present
          · exact .inr inside
      · rw [List.mem_append, List.mem_singleton]
        tauto

theorem mem_graphVertices {v : Option E} :
    v ∈ B.graphVertices ↔ v ∈ B.sortedVertices ∨ ∃ edge ∈ B.sortedEdges, v = edge.1 ∨ v = edge.2 := by
  unfold graphVertices
  rw [mem_foldl_addVertex]
  simp

theorem graph_acyclic (acyclic : ∀ x, ¬ Relation.TransGen B.BackArc x x) :
    AcyclicGraph B.graphVertices B.sortedEdges := by
  refine ⟨fun source target edge => ?_, sortedEdges_acyclic acyclic⟩
  exact ⟨mem_graphVertices.mpr (.inr ⟨_, edge, .inl rfl⟩), mem_graphVertices.mpr (.inr ⟨_, edge, .inr rfl⟩)⟩

/-! ## What lies outside -/

section Outside
variable {d : E → E → Nat} {u v : E}

theorem relaxArc_of_ne {vertexVector : List E} {b : E} (other : b ≠ v) (a : E) :
    relaxArc vertexVector d u v a b = d a b := by
  unfold relaxArc
  induction vertexVector generalizing d with
  | nil => rfl
  | cons w rest ih =>
      rw [List.foldl_cons, ih]
      split_ifs
      · exact if_neg fun here => other here.2
      · rfl

def Bare (B : CPForkBlock E) (d : E → E → Nat) : Prop := ∀ w, ∀ u ∉ B.vertices, d w u = 0

theorem Bare.relaxArc_eq (bare : Bare B d) (outside : u ∉ B.vertices) : relaxArc B.vertices d u v = d := by
  have unchanged : ∀ vertexVector : List E, u ∉ vertexVector → relaxArc vertexVector d u v = d := by
    intro vertexVector absent
    unfold relaxArc
    induction vertexVector with
    | nil => rfl
    | cons w rest ih =>
        obtain ⟨otherW, absent⟩ := List.ne_and_not_mem_of_not_mem_cons absent
        have stays : ¬ ((0 < d w u ∨ w = u) ∧ d w v < d w u + 1) := by
          rintro ⟨positive | rfl, _⟩
          · exact absurd (bare w u outside) positive.ne'
          · exact otherW rfl
        rw [List.foldl_cons, if_neg stays]
        exact ih absent
  exact unchanged B.vertices outside

theorem Bare.relaxArc (bare : Bare B d) (inside : v ∈ B.vertices) : Bare B (relaxArc B.vertices d u v) := by
  intro w x outside
  have other : x ≠ v := by
    rintro rfl
    exact outside inside
  rw [relaxArc_of_ne other]
  exact bare w x outside

theorem Bare.foldl_relaxArc (inside : v ∈ B.vertices) (us : List E) : ∀ {d : E → E → Nat}, Bare B d →
    us.foldl (fun d u => CPForkBlock.relaxArc B.vertices d u v) d =
        (us.filter fun u => u ∈ B.vertices).foldl (fun d u => CPForkBlock.relaxArc B.vertices d u v) d ∧
      Bare B (us.foldl (fun d u => CPForkBlock.relaxArc B.vertices d u v) d) := by
  induction us with
  | nil => exact fun bare => ⟨rfl, bare⟩
  | cons u us ih =>
      intro d bare
      by_cases insideU : u ∈ B.vertices
      · rw [List.filter_cons_of_pos (by simpa using insideU), List.foldl_cons, List.foldl_cons]
        exact ih (bare.relaxArc inside)
      · rw [List.filter_cons_of_neg (by simpa using insideU), List.foldl_cons, bare.relaxArc_eq insideU]
        exact ih bare

theorem Bare.relaxVertex (bare : Bare B d) (inside : v ∈ B.vertices) :
    B.relaxVertex d (some v) = B.inner.relaxVertex d (some v) ∧ Bare B (B.relaxVertex d (some v)) :=
  Bare.foldl_relaxArc inside (B.predecessors v) bare

theorem Bare.relaxVertex_eq (bare : Bare B d) (away : ∀ u ∈ B.predecessors v, u ∉ B.vertices) :
    B.relaxVertex d (some v) = d := by
  have unchanged : ∀ us : List E, (∀ u ∈ us, u ∉ B.vertices) →
      us.foldl (fun d u => CPForkBlock.relaxArc B.vertices d u v) d = d := by
    intro us outside
    induction us with
    | nil => rfl
    | cons u us ih =>
        rw [List.foldl_cons, bare.relaxArc_eq (outside u List.mem_cons_self)]
        exact ih fun w member => outside w (List.mem_cons_of_mem u member)
  exact unchanged (B.predecessors v) away

def isInner (B : CPForkBlock E) (vertex : Option E) : Bool := vertex.all fun v => v ∈ B.vertices

theorem allPairsLongestPaths_filter {order : List (Option E)}
    (away : ∀ v, some v ∈ order → v ∉ B.vertices → ∀ u ∈ B.predecessors v, u ∉ B.vertices) :
    B.allPairsLongestPaths order = B.inner.allPairsLongestPaths (order.filter B.isInner) := by
  have turns : ∀ (todo : List (Option E)) (d : E → E → Nat), (∀ vertex ∈ todo, vertex ∈ order) → Bare B d →
      todo.foldl B.relaxVertex d = (todo.filter B.isInner).foldl B.inner.relaxVertex d := by
    intro todo
    induction todo with
    | nil => exact fun _ _ _ => rfl
    | cons vertex todo ih =>
        intro d listed bare
        have rest : ∀ vertex ∈ todo, vertex ∈ order := fun w member => listed w (List.mem_cons_of_mem vertex member)
        cases vertex with
        | none => exact ih d rest bare
        | some v =>
            by_cases inside : v ∈ B.vertices
            · obtain ⟨same, bare⟩ := bare.relaxVertex inside
              have kept : B.isInner (some v) = true := decide_eq_true inside
              rw [List.filter_cons_of_pos kept, List.foldl_cons, List.foldl_cons, ← same]
              exact ih _ rest bare
            · have idle := bare.relaxVertex_eq (away v (listed _ List.mem_cons_self) inside)
              have dropped : ¬ B.isInner (some v) = true := by simpa [isInner] using inside
              rw [List.filter_cons_of_neg dropped, List.foldl_cons, idle]
              exact ih d rest bare
  unfold allPairsLongestPaths
  rw [turns order.reverse _ (fun vertex => List.mem_reverse.mp) fun _ _ _ => rfl, List.filter_reverse]

end Outside

theorem predecessors_before {order : List (Option E)} (sorted : ReverseTopological B.graphVertices B.sortedEdges order)
    {before after : List (Option E)} {x u : E} (split : order.reverse = before ++ some x :: after)
    (inside : x ∈ B.vertices) (isPrev : u ∈ B.predecessors x) : some u ∈ before := by
  have edge : (some u, some x) ∈ B.sortedEdges := mem_sortedEdges.mpr ⟨inside, .inr ⟨u, isPrev, rfl⟩⟩
  exact sorted.sources_first split edge (mem_graphVertices.mpr (.inr ⟨_, edge, .inl rfl⟩))

theorem inner_earlier {order : List (Option E)} (sorted : ReverseTopological B.graphVertices B.sortedEdges order)
    {before after : List (Option E)} {v : E} (split : (order.filter B.isInner).reverse = before ++ some v :: after) :
    v ∈ B.vertices ∧ ∀ u ∈ B.inner.predecessors v, some u ∈ before := by
  rw [← List.filter_reverse] at split
  obtain ⟨front, rest, whole, fronts, rests⟩ := List.filter_eq_append_iff.mp split
  obtain ⟨skipped, back, rfl, outside, inside, -⟩ := List.filter_eq_cons_iff.mp rests
  have insideV : v ∈ B.vertices := of_decide_eq_true inside
  refine ⟨insideV, fun u isPrev => ?_⟩
  obtain ⟨insideU, isPrev⟩ := mem_inner_predecessors.mp isPrev
  have isInner : B.isInner (some u) = true := decide_eq_true insideU
  rw [← List.append_assoc] at whole
  rcases List.mem_append.mp (predecessors_before sorted whole insideV isPrev) with early | isSkipped
  · rw [← fronts]
    exact List.mem_filter.mpr ⟨early, isInner⟩
  · exact absurd isInner (outside _ isSkipped)

omit [DecidableEq E] in
theorem nodup_visited {order : List (Option E)} (nodup : order.Nodup) : (visited order).Nodup := by
  refine (List.nodup_reverse.mpr nodup).filterMap fun a b x isA isB => ?_
  exact (Option.mem_def.mp isA).trans (Option.mem_def.mp isB).symm

theorem predecessorsFirst_visited {order : List (Option E)}
    (sorted : ReverseTopological B.graphVertices B.sortedEdges order) : B.PredecessorsFirst (visited order) := by
  intro before x after split inside u isPrev
  have here : visited order = before ++ ([x] ++ after) := split
  obtain ⟨front, rest, whole, fronts, rests⟩ := (List.reduceOption_eq_append_iff _ _ _).mp here
  obtain ⟨middle, back, rfl, middles, -⟩ := (List.reduceOption_eq_append_iff _ _ _).mp rests
  obtain ⟨m, n, rfl⟩ := (List.reduceOption_eq_singleton_iff _ _).mp middles
  have listed : order.reverse = (front ++ List.replicate m none) ++ some x :: (List.replicate n none ++ back) := by
    rw [whole]
    simp
  have early := predecessors_before sorted listed inside isPrev
  rw [← fronts, List.reduceOption_mem_iff]
  simpa [List.mem_replicate] using early

theorem allPairs_topologicalSort {librarySort : List (Option E) → List (Option E × Option E) → List (Option E)}
    (sorts : SortsTopologically librarySort)
    (entered : ∀ y ∈ B.vertices, ∀ x ∈ B.predecessors y, x ∉ B.vertices → ∀ u ∈ B.predecessors x, u ∉ B.vertices)
    (acyclic : ∀ x, ¬ Relation.TransGen B.BackArc x x) : B.AllPairs (B.topologicalSort librarySort) := by
  have isSort : B.topologicalSort librarySort = librarySort B.graphVertices B.sortedEdges := by
    rw [topologicalSort, List.foldl_flip_cons_eq_append]
    simp
  rw [isSort]
  have sorted := sorts _ _ (graph_acyclic acyclic)
  generalize librarySort B.graphVertices B.sortedEdges = order at sorted
  have complete : ∀ x ∈ B.vertices, some x ∈ order := fun x inside =>
    (sorted.complete (some x)).mpr (mem_graphVertices.mpr (.inl (mem_sortedVertices.mpr inside)))
  have away : ∀ v, some v ∈ order → v ∉ B.vertices → ∀ u ∈ B.predecessors v, u ∉ B.vertices := by
    intro v listed outside
    rcases mem_graphVertices.mp ((sorted.complete _).mp listed) with inside | ⟨⟨source, target⟩, edge, rfl | rfl⟩
    · exact absurd (mem_sortedVertices.mp inside) outside
    · cases target with
      | none => exact absurd edge none_not_target
      | some y =>
          obtain ⟨insideY, ⟨isNull, _⟩ | ⟨u, isPrev, same⟩⟩ := mem_sortedEdges.mp edge
          · cases isNull
          · obtain rfl := Option.some.inj same
            exact entered y insideY v isPrev outside
    · exact absurd (mem_sortedEdges.mp edge).1 outside
  have longest : LongestPaths B.BackArc (B.allPairsLongestPaths order) := by
    rw [← inner_arc, allPairsLongestPaths_filter away]
    refine longestPaths_of_order inner_linked (by rwa [inner_arc]) (fun before v after => inner_earlier sorted) ?_
    exact fun x inside => List.mem_filter.mpr ⟨complete x inside, decide_eq_true inside⟩
  refine ⟨longest, fun x y unreachable => ?_, nodup_visited sorted.nodup, fun x inside => ?_,
    predecessorsFirst_visited sorted⟩
  · by_contra some
    exact unreachable _ (Nat.pos_of_ne_zero some) (longest.attained x y (Nat.pos_of_ne_zero some))
  · rw [visited, List.reduceOption_mem_iff, List.mem_reverse]
    exact complete x inside

/-- Two ways from the entry to the element before the exit. -/
def twoWays : CPForkBlock Nat where
  entry := 0
  exit := 1
  elements := [2, 3, 4]
  isTransition := fun _ => true
  predecessors := fun x => match x with | 1 => [4] | 2 => [0] | 3 => [0] | 4 => [2, 3] | _ => []
  successors := fun x => match x with | 0 => [2, 3] | 2 => [4] | 3 => [4] | 4 => [1] | _ => []
  forkMap := fun x => match x with | 0 => [2, 3] | 2 => [4] | 3 => [4] | 4 => [1] | _ => []
  joinMap := fun x => match x with | 1 => [4] | 2 => [0] | 3 => [0] | 4 => [2, 3] | _ => []

/-- The entry of this block is bound to the place 5 around it. -/
def boundWays : CPForkBlock Nat :=
  { twoWays with predecessors := fun x => if x = 0 then [5] else twoWays.predecessors x }

theorem ways_acyclic {B : CPForkBlock Nat} (isWays : B = twoWays ∨ B = boundWays) (x : Nat) :
    ¬ Relation.TransGen B.BackArc x x := by
  let rank : Nat → Nat := fun x => match x with | 0 => 0 | 1 => 3 | 4 => 2 | _ => 1
  have rising : ∀ y ∈ B.vertices, ∀ x ∈ B.predecessors y, x ∈ B.vertices → rank x < rank y := by
    rcases isWays with rfl | rfl <;> decide
  exact acyclic_of_rising rank (fun x y arc => rising y arc.2.1 x arc.2.2 arc.1) x

theorem allPairs_boundWays : boundWays.AllPairs (boundWays.topologicalSort sinksFirst) :=
  allPairs_topologicalSort sinksFirst_sorts (by decide) (ways_acyclic (Or.inr rfl))

/-- `DFS_Order` goes down the first way and comes to the join before the second. -/
theorem dfsOrder_twoWays :
    (∀ x, ¬ Relation.TransGen twoWays.BackArc x x) ∧ ∃ s, twoWays.dfsOrder 9 = some s ∧ s.ordered = [0, 2, 4, 1, 3] ∧
      3 ∈ twoWays.predecessors 4 ∧ ¬ twoWays.PredecessorsFirst s.ordered := by
  have order : (twoWays.dfsOrder 9).map DfsState.ordered = some [0, 2, 4, 1, 3] := by decide
  obtain ⟨s, run, ordered⟩ := Option.map_eq_some_iff.mp order
  refine ⟨ways_acyclic (Or.inl rfl), s, run, ordered, by decide, fun first => ?_⟩
  have before := first [0, 2] 4 [1, 3] ordered (by decide) 3 (by decide)
  exact absurd before (by decide)

end Ahir.ControlPath.CPForkBlock
