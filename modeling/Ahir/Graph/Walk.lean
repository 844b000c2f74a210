import Mathlib.Data.List.Chain
import Mathlib.Data.Set.Basic
import Mathlib.Logic.Relation
import Mathlib.Tactic

/-!
# Full walks of a directed graph with one entry and one exit

A full walk runs from the entry to the exit along arcs.  When the vertices are
ranked so that every arc goes up, two vertices of one full walk are ordered by
a directed path, and a full walk can be continued from any of its vertices
along another full walk through that vertex.
-/

set_option autoImplicit false

namespace Ahir.Graph

variable {V : Type}

structure FullWalk (arc : V → V → Prop) (entry exit : V) (walk : List V) : Prop where
  chain : walk.IsChain arc
  starts : walk.head? = some entry
  ends : walk.getLast? = some exit

/-- The walk goes along the arc from `tail` to `head`. -/
def Uses (walk : List V) (tail head : V) : Prop :=
  ∃ before after, walk = before ++ tail :: head :: after

theorem Uses.tail_mem {walk : List V} {tail head : V} (uses : Uses walk tail head) :
    tail ∈ walk := by
  obtain ⟨before, after, rfl⟩ := uses
  simp

/-- Where nothing goes around and all but `first` have something before them, `first` leads to all. -/
theorem reaches_of_before {arc : V → V → Prop} {vertices : List V} {first : V}
    (acyclic : ∀ x, ¬ Relation.TransGen arc x x)
    (before : ∀ x ∈ vertices, x ≠ first → ∃ y ∈ vertices, arc y x) :
    ∀ x ∈ vertices, Relation.ReflTransGen arc first x := by
  classical
  have trans : IsTrans {x // x ∈ vertices} fun x y => Relation.TransGen arc x.val y.val :=
    ⟨fun _ _ _ one two => one.trans two⟩
  have irrefl : Std.Irrefl fun x y : {x // x ∈ vertices} => Relation.TransGen arc x.val y.val :=
    ⟨fun x => acyclic x.val⟩
  have founded := Finite.wellFounded_of_trans_of_irrefl
    fun x y : {x // x ∈ vertices} => Relation.TransGen arc x.val y.val
  intro x inside
  induction hx : (⟨x, inside⟩ : {x // x ∈ vertices}) using founded.induction generalizing x with
  | _ _ ih =>
      subst hx
      by_cases isFirst : x = first
      · rw [isFirst]
      · obtain ⟨y, insideY, step⟩ := before x inside isFirst
        exact (ih ⟨y, insideY⟩ (Relation.TransGen.single step) y insideY rfl).tail step

/-- Where nothing goes around and all but `last` lead on, all lead to `last`. -/
theorem reaches_of_after {arc : V → V → Prop} {vertices : List V} {last : V}
    (acyclic : ∀ x, ¬ Relation.TransGen arc x x)
    (after : ∀ x ∈ vertices, x ≠ last → ∃ y ∈ vertices, arc x y) :
    ∀ x ∈ vertices, Relation.ReflTransGen arc x last := by
  have backwards : ∀ x, ¬ Relation.TransGen (Function.swap arc) x x :=
    fun x cycle => acyclic x (Relation.transGen_swap.mp cycle)
  exact fun x inside => Relation.reflTransGen_swap.mp (reaches_of_before backwards after x inside)

section Walks
variable {arc : V → V → Prop} {entry exit : V}

theorem chain_reaches {first : V} : ∀ {walk : List V}, (first :: walk).IsChain arc →
    ∀ last ∈ first :: walk, Relation.ReflTransGen arc first last := by
  intro walk
  induction walk generalizing first with
  | nil =>
      intro _ last member
      rw [List.mem_singleton.mp member]
  | cons second rest ih =>
      intro chain last member
      rw [List.isChain_cons_cons] at chain
      rcases List.mem_cons.mp member with rfl | member
      · exact Relation.ReflTransGen.refl
      · exact Relation.ReflTransGen.head chain.1 (ih chain.2 last member)

theorem exists_chain_of_reaches {first last : V} (path : Relation.ReflTransGen arc first last) :
    ∃ walk : List V, (first :: walk).IsChain arc ∧ (first :: walk).getLast? = some last := by
  induction path using Relation.ReflTransGen.head_induction_on with
  | refl => exact ⟨[], List.IsChain.singleton _, rfl⟩
  | @head a b step _ ih =>
      obtain ⟨walk, chain, ends⟩ := ih
      exact ⟨b :: walk, List.isChain_cons_cons.mpr ⟨step, chain⟩, by simpa using ends⟩

theorem FullWalk.split {walk : List V} {x : V} (_full : FullWalk arc entry exit walk)
    (member : x ∈ walk) : ∃ before after, walk = before ++ x :: after :=
  List.append_of_mem member

theorem FullWalk.reroute {before after before' after' : List V} {x : V}
    (full : FullWalk arc entry exit (before ++ x :: after))
    (full' : FullWalk arc entry exit (before' ++ x :: after')) :
    FullWalk arc entry exit (before ++ x :: after') := by
  refine ⟨?_, ?_, ?_⟩
  · have left : (before ++ [x]).IsChain arc := by
      have chain := full.chain
      rw [List.append_cons] at chain
      exact chain.left_of_append
    have right : ([x] ++ after').IsChain arc := full'.chain.right_of_append
    simpa using left.append_overlap right (by simp)
  · have starts := full.starts
    cases before with
    | nil => simpa using starts
    | cons first rest => simpa using starts
  · have ends := full'.ends
    rw [List.getLast?_append_of_ne_nil _ (by simp)] at ends ⊢
    exact ends

/-- Every vertex between the entry and the exit lies on a full walk. -/
theorem exists_fullWalk_through {x : V} (fromEntry : Relation.ReflTransGen arc entry x)
    (toExit : Relation.ReflTransGen arc x exit) :
    ∃ before after, FullWalk arc entry exit (before ++ x :: after) := by
  obtain ⟨after, chainAfter, endsAfter⟩ := exists_chain_of_reaches toExit
  obtain ⟨walk, chainBefore, endsBefore⟩ := exists_chain_of_reaches fromEntry
  obtain ⟨before, splitBefore⟩ := List.getLast?_eq_some_iff.mp endsBefore
  refine ⟨before, after, ?_, ?_, ?_⟩
  · have left : (before ++ [x]).IsChain arc := splitBefore ▸ chainBefore
    have right : ([x] ++ after).IsChain arc := chainAfter
    simpa using left.append_overlap right (by simp)
  · cases before with
    | nil =>
        rw [List.nil_append] at splitBefore
        simp [(List.cons.inj splitBefore).1]
    | cons first rest => simp [(List.cons.inj splitBefore).1]
  · rw [List.getLast?_append_of_ne_nil _ (by simp)]
    exact endsAfter

/-- Every arc between the entry and the exit is used by a full walk. -/
theorem exists_fullWalk_uses {tail head : V} (step : arc tail head)
    (fromEntry : Relation.ReflTransGen arc entry tail)
    (toExit : Relation.ReflTransGen arc head exit) :
    ∃ before after, FullWalk arc entry exit (before ++ tail :: head :: after) := by
  obtain ⟨before, _, full⟩ := exists_fullWalk_through fromEntry
    (Relation.ReflTransGen.head step toExit)
  obtain ⟨after, chainAfter, endsAfter⟩ := exists_chain_of_reaches toExit
  refine ⟨before, after, ?_, ?_, ?_⟩
  · have left : (before ++ [tail]).IsChain arc := by
      have chain := full.chain
      rw [List.append_cons] at chain
      exact chain.left_of_append
    have right : ([tail] ++ head :: after).IsChain arc :=
      List.isChain_cons_cons.mpr ⟨step, chainAfter⟩
    simpa using left.append_overlap right (by simp)
  · have starts := full.starts
    cases before <;> simpa using starts
  · rw [List.getLast?_append_of_ne_nil _ (by simp), List.getLast?_cons_cons]
    exact endsAfter

/-- The arc a full walk takes out of a vertex other than the exit. -/
theorem FullWalk.uses_of_mem {walk : List V} {x : V} (full : FullWalk arc entry exit walk)
    (member : x ∈ walk) (notExit : x ≠ exit) : ∃ y, arc x y ∧ Uses walk x y := by
  obtain ⟨before, after, rfl⟩ := List.append_of_mem member
  cases after with
  | nil =>
      have ends := full.ends
      simp only [List.getLast?_append, List.getLast?_singleton, Option.some_or,
        Option.some.injEq] at ends
      exact absurd ends notExit
  | cons y rest =>
      have chain := full.chain.right_of_append
      exact ⟨y, (List.isChain_cons_cons.mp chain).1, before, rest, rfl⟩

/-- The arc a full walk takes into a vertex other than the entry. -/
theorem FullWalk.uses_into_of_mem {walk : List V} {x : V} (full : FullWalk arc entry exit walk)
    (member : x ∈ walk) (notEntry : x ≠ entry) : ∃ y, arc y x ∧ Uses walk y x := by
  obtain ⟨before, after, rfl⟩ := List.append_of_mem member
  rcases List.eq_nil_or_concat before with rfl | ⟨rest, y, rfl⟩
  · have starts := full.starts
    simp only [List.nil_append, List.head?_cons, Option.some.injEq] at starts
    exact absurd starts notEntry
  · have chain := full.chain
    rw [List.concat_eq_append, List.append_assoc] at chain
    exact ⟨y, (List.isChain_cons_cons.mp chain.right_of_append).1, rest, after, by simp⟩

theorem FullWalk.comparable {walk : List V} {x y : V} (full : FullWalk arc entry exit walk)
    (hx : x ∈ walk) (hy : y ∈ walk) :
    Relation.ReflTransGen arc x y ∨ Relation.ReflTransGen arc y x := by
  obtain ⟨before, after, rfl⟩ := List.append_of_mem hx
  rcases List.mem_append.mp hy with member | member
  · obtain ⟨left, right, rfl⟩ := List.append_of_mem member
    right
    have chain := full.chain
    rw [List.append_assoc] at chain
    exact chain_reaches chain.right_of_append x (by simp)
  · exact Or.inl (chain_reaches full.chain.right_of_append y member)

section Ranked
variable {rank : V → Nat} (upward : ∀ a b, arc a b → rank a < rank b)
include upward

theorem rank_le_of_reaches {x y : V} (path : Relation.ReflTransGen arc x y) :
    rank x ≤ rank y := by
  induction path with
  | refl => exact Nat.le_refl _
  | tail _ step ih => exact Nat.le_of_lt (Nat.lt_of_le_of_lt ih (upward _ _ step))

/-- An arc that starts below `x` is taken before `x` is reached, so it stays in
the walk whatever the walk does after `x`. -/
theorem FullWalk.uses_before {before after : List V} {x tail head : V}
    (full : FullWalk arc entry exit (before ++ x :: after))
    (uses : Uses (before ++ x :: after) tail head) (below : rank tail < rank x)
    (after' : List V) : Uses (before ++ x :: after') tail head := by
  obtain ⟨left, right, split⟩ := uses
  rcases List.append_eq_append_iff.mp split with ⟨mid, leftEq, midEq⟩ | ⟨mid, beforeEq, midEq⟩
  · have member : tail ∈ x :: after := by rw [midEq]; simp
    have reach := chain_reaches full.chain.right_of_append tail member
    have := rank_le_of_reaches upward reach
    omega
  · cases mid with
    | nil =>
        simp only [List.nil_append, List.cons.injEq] at midEq
        rw [midEq.1] at below
        omega
    | cons first rest =>
        simp only [List.cons_append, List.cons.injEq] at midEq
        obtain ⟨rfl, midEq⟩ := midEq
        cases rest with
        | nil =>
            simp only [List.nil_append, List.cons.injEq] at midEq
            obtain ⟨rfl, rfl⟩ := midEq
            exact ⟨left, after', by simp [beforeEq]⟩
        | cons second rest =>
            simp only [List.cons_append, List.cons.injEq] at midEq
            obtain ⟨rfl, rfl⟩ := midEq
            exact ⟨left, rest ++ x :: after', by simp [beforeEq]⟩

end Ranked

end Walks

end Ahir.Graph
