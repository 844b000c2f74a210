import Mathlib.Data.List.Nodup
import Mathlib.Data.Fintype.EquivFin
import Mathlib.Logic.Relation
import Mathlib.Order.WellFounded
import Mathlib.Tactic

/-!
# Reverse topological orders

What a topological sort gives back when its result is filled from the sinks to
the sources: every vertex once, the targets of its edges before it.  Taking a
sink of what is left, turn by turn, is such a sort.
-/

set_option autoImplicit false

namespace Ahir.Graph
variable {V : Type}

structure ReverseTopological (vertices : List V) (edges : List (V × V)) (order : List V) : Prop where
  nodup : order.Nodup
  complete : ∀ x, x ∈ order ↔ x ∈ vertices
  targets_first : ∀ before x after, order = before ++ x :: after →
    ∀ y, (x, y) ∈ edges → y ∈ before

structure AcyclicGraph (vertices : List V) (edges : List (V × V)) : Prop where
  inside : ∀ x y, (x, y) ∈ edges → x ∈ vertices ∧ y ∈ vertices
  acyclic : ∀ x, ¬ Relation.TransGen (fun a b => (a, b) ∈ edges) x x

/-- `sort` puts the vertices of every acyclic graph in such an order. -/
def SortsTopologically (sort : List V → List (V × V) → List V) : Prop :=
  ∀ vertices edges, AcyclicGraph vertices edges →
    ReverseTopological vertices edges (sort vertices edges)

/-- Read from its end, the order has the sources of the edges first. -/
theorem ReverseTopological.sources_first {vertices : List V} {edges : List (V × V)} {order : List V}
    (sorted : ReverseTopological vertices edges order) {before after : List V} {x y : V}
    (split : order.reverse = before ++ x :: after) (edge : (y, x) ∈ edges) (inside : y ∈ vertices) :
    y ∈ before := by
  have nodup : (before ++ x :: after).Nodup := split ▸ List.nodup_reverse.mpr sorted.nodup
  have member : y ∈ before ++ x :: after := by
    rw [← split]
    exact List.mem_reverse.mpr ((sorted.complete y).mpr inside)
  have reversed : order = (before ++ x :: after).reverse := by
    rw [← split, List.reverse_reverse]
  rcases List.mem_append.mp member with member | member
  · exact member
  · obtain ⟨left, right, split'⟩ := List.append_of_mem member
    have whole : before ++ x :: after = (before ++ left) ++ y :: right := by rw [split', List.append_assoc]
    have order' : order = right.reverse ++ y :: (before ++ left).reverse := by
      rw [reversed, whole]
      simp
    have early := sorted.targets_first _ _ _ order' x edge
    rw [List.mem_reverse] at early
    rw [whole] at nodup
    cases left with
    | nil =>
        rw [List.nil_append] at split'
        have same := (List.cons.inj split').1
        rw [← same] at nodup
        simp only [List.append_nil] at nodup
        exact absurd early (List.nodup_cons.mp nodup.of_append_right).1
    | cons z left =>
        have same := (List.cons.inj split').1
        exact absurd (List.mem_cons_of_mem y early)
          fun late => List.disjoint_of_nodup_append nodup (by simp [same]) late

theorem acyclic_of_rising {R : Type} [Preorder R] {arc : V → V → Prop} (rank : V → R)
    (rising : ∀ x y, arc x y → rank x < rank y) (x : V) : ¬ Relation.TransGen arc x x := by
  intro around
  have above : Relation.TransGen (· < ·) (rank x) (rank x) := around.lift rank rising
  rw [Relation.transGen_eq_self] at above
  exact lt_irrefl _ above

theorem exists_rank {arc : V → V → Prop} (vertices : List V) (inside : ∀ x y, arc x y → x ∈ vertices)
    (acyclic : ∀ x, ¬ Relation.TransGen arc x x) :
    ∃ rank : V → Nat, (∀ x y, arc x y → rank x < rank y) ∧ ∀ x, rank x ≤ vertices.length := by
  classical
  refine ⟨fun y => (vertices.toFinset.filter fun x => Relation.TransGen arc x y).card, fun x y isArc => ?_, fun y => ?_⟩
  · refine Finset.card_lt_card (Finset.ssubset_iff_of_subset ?_ |>.mpr ⟨x, ?_, ?_⟩)
    · intro z member
      rw [Finset.mem_filter] at member ⊢
      exact ⟨member.1, member.2.tail isArc⟩
    · exact Finset.mem_filter.mpr ⟨List.mem_toFinset.mpr (inside x y isArc), Relation.TransGen.single isArc⟩
    · exact fun member => acyclic x (Finset.mem_filter.mp member).2
  · exact (Finset.card_filter_le _ _).trans (List.toFinset_card_le _)

section Sinks
variable [DecidableEq V]

/-- The vertices of `rest` join `order`, a sink of those left at each turn. -/
def takeSinks (edges : List (V × V)) : Nat → List V → List V → List V
  | 0, _, order => order
  | turns + 1, rest, order =>
      match rest.find? (fun x => rest.all fun y => (x, y) ∉ edges) with
      | none => order
      | some x => takeSinks edges turns (rest.filter fun y => y ≠ x) (order ++ [x])

def sinksFirst (vertices : List V) (edges : List (V × V)) : List V :=
  takeSinks edges vertices.length vertices []

omit [DecidableEq V] in
theorem AcyclicGraph.exists_sink {vertices : List V} {edges : List (V × V)}
    (graph : AcyclicGraph vertices edges) {rest : List V} (left : rest ≠ []) :
    ∃ x ∈ rest, ∀ y ∈ rest, (x, y) ∉ edges := by
  classical
  obtain ⟨rank, upwards, _⟩ := exists_rank vertices (fun x y edge => (graph.inside x y edge).1) graph.acyclic
  obtain ⟨x, member, greatest⟩ := rest.toFinset.exists_max_image rank ((List.toFinset_nonempty_iff rest).mpr left)
  refine ⟨x, List.mem_toFinset.mp member, fun y isLeft edge => ?_⟩
  exact Nat.not_lt.mpr (greatest y (List.mem_toFinset.mpr isLeft)) (upwards x y edge)

omit [DecidableEq V] in
/-- What holds of a vertex as soon as it holds of those with an edge to it holds of all. -/
theorem AcyclicGraph.induction {vertices : List V} {edges : List (V × V)} (graph : AcyclicGraph vertices edges)
    {holds : V → Prop} (step : ∀ x ∈ vertices, (∀ y, (y, x) ∈ edges → holds y) → holds x) :
    ∀ x ∈ vertices, holds x := by
  classical
  let earlier : {x // x ∈ vertices} → {x // x ∈ vertices} → Prop :=
    fun x y => Relation.TransGen (fun a b => (a, b) ∈ edges) x.val y.val
  have trans : IsTrans _ earlier := ⟨fun _ _ _ first second => first.trans second⟩
  have irrefl : Std.Irrefl earlier := ⟨fun x => graph.acyclic x.val⟩
  have wf : WellFounded earlier := Finite.wellFounded_of_trans_of_irrefl earlier
  have all : ∀ x : {x // x ∈ vertices}, holds x.val := by
    intro x
    induction x using wf.induction with
    | h x ih =>
        apply step x.val x.property
        intro y edge
        exact ih ⟨y, (graph.inside y x.val edge).1⟩ (.single edge)
  exact fun x member => all ⟨x, member⟩

/-- The turns so far: `order` is sorted, and its edges stay in it. -/
structure Taking (vertices : List V) (edges : List (V × V)) (rest order : List V) : Prop where
  nodup : order.Nodup
  complete : ∀ x, x ∈ vertices ↔ x ∈ order ∨ x ∈ rest
  disjoint : ∀ x ∈ rest, x ∉ order
  targets_first : ∀ before x after, order = before ++ x :: after →
    ∀ y, (x, y) ∈ edges → y ∈ before

theorem Taking.step {vertices : List V} {edges : List (V × V)}
    (graph : AcyclicGraph vertices edges) {rest order : List V}
    (taking : Taking vertices edges rest order) {x : V} (isLeft : x ∈ rest)
    (isSink : ∀ y ∈ rest, (x, y) ∉ edges) :
    Taking vertices edges (rest.filter fun y => y ≠ x) (order ++ [x]) := by
  have fresh := taking.disjoint x isLeft
  refine ⟨?_, ?_, ?_, ?_⟩
  · exact List.nodup_append.mpr ⟨taking.nodup, List.nodup_singleton x, by
      intro a member b isX same
      rw [List.mem_singleton.mp isX] at same
      exact fresh (same ▸ member)⟩
  · intro y
    rw [taking.complete y]
    simp only [List.mem_append, List.mem_singleton, List.mem_filter, decide_eq_true_eq]
    by_cases same : y = x
    · simp [same, isLeft]
    · simp [same]
  · intro y member
    simp only [List.mem_filter, decide_eq_true_eq] at member
    simp only [List.mem_append, List.mem_singleton, not_or]
    exact ⟨taking.disjoint y member.1, member.2⟩
  · intro before z after split y edge
    rcases List.eq_nil_or_concat after with rfl | ⟨front, last, rfl⟩
    · obtain ⟨rfl, same⟩ := List.append_inj' split rfl
      obtain rfl := (List.cons.inj same).1
      -- the target of a sink's edge has been taken
      have inside := (taking.complete y).mp (graph.inside x y edge).2
      exact inside.resolve_right fun late => isSink y late edge
    · have split' : order ++ [x] = (before ++ z :: front) ++ [last] := by simpa using split
      obtain ⟨rfl, _⟩ := List.append_inj' split' rfl
      exact taking.targets_first before z front rfl y edge

theorem takeSinks_sorts {vertices : List V} {edges : List (V × V)}
    (graph : AcyclicGraph vertices edges) : ∀ (turns : Nat) (rest order : List V),
    Taking vertices edges rest order → rest.length ≤ turns →
    ReverseTopological vertices edges (takeSinks edges turns rest order) := by
  have finish : ∀ order, Taking vertices edges [] order → ReverseTopological vertices edges order := by
    intro order taking
    refine ⟨taking.nodup, fun x => ?_, taking.targets_first⟩
    rw [taking.complete x]
    simp
  intro turns
  induction turns with
  | zero =>
      intro rest order taking enough
      obtain rfl := List.length_eq_zero_iff.mp (Nat.le_zero.mp enough)
      exact finish order taking
  | succ turns ih =>
      intro rest order taking enough
      rw [takeSinks]
      split
      · next none =>
          -- an acyclic rest without a sink is empty
          have empty : rest = [] := by
            by_contra left
            obtain ⟨x, isLeft, isSink⟩ := graph.exists_sink left
            have := List.find?_eq_none.mp none x isLeft
            simp only [List.all_eq_true, decide_eq_true_eq] at this
            exact this isSink
          subst empty
          exact finish order taking
      · next x found =>
          have isLeft := List.mem_of_find?_eq_some found
          have isSink := List.find?_some found
          simp only [List.all_eq_true, decide_eq_true_eq] at isSink
          apply ih _ _ (taking.step graph isLeft isSink)
          have shorter : (rest.filter fun y => y ≠ x).length < rest.length :=
            List.length_filter_lt_length_iff_exists.mpr ⟨x, isLeft, by simp⟩
          omega

theorem sinksFirst_sorts : SortsTopologically (sinksFirst : List V → List (V × V) → List V) := by
  intro vertices edges graph
  apply takeSinks_sorts graph _ _ _ _ (Nat.le_refl _)
  exact ⟨List.nodup_nil, by simp, by simp, by simp⟩

end Sinks

end Ahir.Graph
