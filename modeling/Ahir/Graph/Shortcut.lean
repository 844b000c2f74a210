import Mathlib.Data.List.Basic
import Mathlib.Logic.Relation
import Mathlib.Tactic

/-!
# Removing shortcuts

An arc may be removed when a path of arcs that stay leads the same way.  The
longest path lengths of an acyclic graph find such arcs: along a longest path
each arc is itself the longest path between its ends, so the arcs whose ends
are further apart can all be removed at once.
-/

set_option autoImplicit false

namespace Ahir.Graph
variable {V : Type} {arc kept : V → V → Prop}

/-- A path of `n` arcs. -/
inductive PathOf (arc : V → V → Prop) : Nat → V → V → Prop where
  | refl (x : V) : PathOf arc 0 x x
  | snoc {n : Nat} {x y z : V} : PathOf arc n x y → arc y z → PathOf arc (n + 1) x z

theorem PathOf.trans {m n : Nat} {x y z : V} (first : PathOf arc m x y) (second : PathOf arc n y z) :
    PathOf arc (m + n) x z := by
  induction second with
  | refl _ => exact first
  | snoc _ step ih => exact PathOf.snoc (ih first) step

theorem PathOf.single {x y : V} (step : arc x y) : PathOf arc 1 x y :=
  PathOf.snoc (PathOf.refl x) step

theorem PathOf.of_zero {x y : V} (path : PathOf arc 0 x y) : x = y := by
  cases path
  rfl

theorem PathOf.reaches {n : Nat} {x y : V} (path : PathOf arc n x y) :
    Relation.ReflTransGen arc x y := by
  induction path with
  | refl _ => exact Relation.ReflTransGen.refl
  | snoc _ step ih => exact ih.tail step

/-- What is left reaches as far when every arc can be made up for. -/
theorem reaches_iff_of_justified (fewer : ∀ x y, kept x y → arc x y)
    (justified : ∀ x y, arc x y → Relation.ReflTransGen kept x y) {x y : V} :
    Relation.ReflTransGen kept x y ↔ Relation.ReflTransGen arc x y := by
  constructor
  · intro path
    induction path with
    | refl => exact Relation.ReflTransGen.refl
    | tail _ step ih => exact ih.tail (fewer _ _ step)
  · intro path
    induction path with
    | refl => exact Relation.ReflTransGen.refl
    | tail _ step ih => exact ih.trans (justified _ _ step)

/-- `d x y` is the length of the longest path from `x` to `y`, and 0 without one. -/
structure LongestPaths (arc : V → V → Prop) (d : V → V → Nat) : Prop where
  attained : ∀ x y, 0 < d x y → PathOf arc (d x y) x y
  bound : ∀ n x y, PathOf arc n x y → 0 < n → n ≤ d x y

theorem LongestPaths.pos_trans {d : V → V → Nat} (longest : LongestPaths arc d) {x y z : V}
    (first : 0 < d x y) (second : 0 < d y z) : 0 < d x z := by
  have path := (longest.attained x y first).trans (longest.attained y z second)
  have := longest.bound _ x z path (by omega)
  omega

theorem LongestPaths.self_eq_zero {d : V → V → Nat} (longest : LongestPaths arc d)
    (acyclic : ∀ x, ¬ Relation.TransGen arc x x) (x : V) : d x x = 0 := by
  by_contra some
  have path := longest.attained x x (Nat.pos_of_ne_zero some)
  obtain ⟨n, length⟩ := Nat.exists_eq_succ_of_ne_zero some
  rw [length] at path
  cases path with
  | snoc before step => exact acyclic x (Relation.TransGen.tail' before.reaches step)

theorem LongestPaths.reaches_of_longest {d : V → V → Nat} (longest : LongestPaths arc d)
    (keeps : ∀ x y, arc x y → d x y ≤ 1 → kept x y) {n : Nat} {x y : V} (path : PathOf arc n x y)
    (longer : ∀ m, PathOf arc m x y → m ≤ n) : Relation.ReflTransGen kept x y := by
  induction path with
  | refl _ => exact Relation.ReflTransGen.refl
  | @snoc n x y z path step ih =>
      have before : ∀ m, PathOf arc m x y → m ≤ n := by
        intro m other
        have := longer (m + 1) (PathOf.snoc other step)
        omega
      refine (ih before).tail (keeps y z step ?_)
      by_contra far
      have detour := longest.attained y z (by omega)
      have := longer (n + d y z) (path.trans detour)
      omega

theorem exists_pathOf {x y : V} (path : Relation.ReflTransGen arc x y) : ∃ n, PathOf arc n x y := by
  induction path with
  | refl => exact ⟨0, PathOf.refl x⟩
  | tail _ step ih =>
      obtain ⟨n, before⟩ := ih
      exact ⟨n + 1, PathOf.snoc before step⟩

/-- The ends of a path are further than one arc apart when a third vertex lies between them. -/
theorem LongestPaths.one_lt_iff {d : V → V → Nat} (longest : LongestPaths arc d)
    (acyclic : ∀ x, ¬ Relation.TransGen arc x x) (x y : V) :
    1 < d x y ↔ ∃ z, z ≠ x ∧ z ≠ y ∧ Relation.ReflTransGen arc x z ∧ Relation.ReflTransGen arc z y := by
  constructor
  · intro far
    obtain ⟨n, length⟩ : ∃ n, d x y = n + 2 := ⟨d x y - 2, by omega⟩
    have path := longest.attained x y (by omega)
    rw [length] at path
    cases path with
    | @snoc _ _ z _ before step =>
        refine ⟨z, ?_, ?_, before.reaches, Relation.ReflTransGen.single step⟩
        · rintro rfl
          cases before with
          | snoc first back => exact acyclic _ (Relation.TransGen.tail' first.reaches back)
        · rintro rfl
          exact acyclic _ (Relation.TransGen.single step)
  · rintro ⟨z, notFirst, notLast, first, second⟩
    obtain ⟨m, first⟩ := exists_pathOf first
    obtain ⟨n, second⟩ := exists_pathOf second
    have some : m ≠ 0 := by
      rintro rfl
      exact notFirst first.of_zero.symm
    have more : n ≠ 0 := by
      rintro rfl
      exact notLast second.of_zero
    have := longest.bound (m + n) x y (first.trans second) (by omega)
    omega

theorem LongestPaths.justified {d : V → V → Nat} (longest : LongestPaths arc d)
    (keeps : ∀ x y, arc x y → d x y ≤ 1 → kept x y) (x y : V) (step : arc x y) :
    Relation.ReflTransGen kept x y := by
  have some : 1 ≤ d x y := longest.bound 1 x y (PathOf.single step) Nat.one_pos
  refine longest.reaches_of_longest keeps (longest.attained x y some) ?_
  intro m path
  rcases Nat.eq_zero_or_pos m with rfl | positive
  · exact Nat.zero_le _
  · exact longest.bound m x y path positive

end Ahir.Graph
