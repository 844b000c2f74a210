import Mathlib.Tactic

/-!
# Nested graphs

The nodes of a nested graph may hold nodes of their own.  Arcs join nodes that are held
by the same node; in the flat graph of the leaves such an arc goes from the exit of one to
the entry of the other.  When everything within a node lies between its entry and its
exit, one leaf reaches another in the flat graph just when this is so for two nodes that
they are under.
-/

set_option autoImplicit false

namespace Ahir.Graph
open Relation

/-- `child x b`: the node `b` holds the node `x`. -/
structure NestedGraph (V : Type) where
  child : V → V → Prop
  arc : V → V → Prop
  entry : V → V
  exit : V → V

namespace NestedGraph
variable {V : Type} (N : NestedGraph V)

def IsLeaf (x : V) : Prop := ∀ y, ¬ N.child y x

/-- `e` is `x` or somewhere in it. -/
def Under (e x : V) : Prop := ReflTransGen N.child e x

def Flat (e f : V) : Prop := ∃ x y, N.arc x y ∧ N.exit x = e ∧ N.entry y = f

structure Nested : Prop where
  wellFounded : WellFounded N.child
  unique : ∀ x b b', N.child x b → N.child x b' → b = b'
  siblings : ∀ x y, N.arc x y → ∃ b, N.child x b ∧ N.child y b
  ofLeaf : ∀ x, N.IsLeaf x → N.entry x = x ∧ N.exit x = x
  entryOf : ∀ x b, N.child x b → N.child (N.entry b) b ∧ N.IsLeaf (N.entry b)
  exitOf : ∀ x b, N.child x b → N.child (N.exit b) b ∧ N.IsLeaf (N.exit b)

structure Sound : Prop where
  fromEntry : ∀ x b, N.child x b → ReflTransGen N.arc (N.entry b) x
  toExit : ∀ x b, N.child x b → ReflTransGen N.arc x (N.exit b)

variable {N}

section Nested
variable (nested : N.Nested)
include nested

theorem Nested.entry_under (x : V) : N.IsLeaf (N.entry x) ∧ N.Under (N.entry x) x := by
  by_cases leaf : N.IsLeaf x
  · rw [(nested.ofLeaf x leaf).1]
    exact ⟨leaf, .refl⟩
  · obtain ⟨y, inside⟩ := not_forall_not.mp leaf
    obtain ⟨isChild, isLeaf⟩ := nested.entryOf y x inside
    exact ⟨isLeaf, .single isChild⟩

theorem Nested.exit_under (x : V) : N.IsLeaf (N.exit x) ∧ N.Under (N.exit x) x := by
  by_cases leaf : N.IsLeaf x
  · rw [(nested.ofLeaf x leaf).2]
    exact ⟨leaf, .refl⟩
  · obtain ⟨y, inside⟩ := not_forall_not.mp leaf
    obtain ⟨isChild, isLeaf⟩ := nested.exitOf y x inside
    exact ⟨isLeaf, .single isChild⟩

theorem Nested.walk_siblings {x y b : V} (walk : ReflTransGen N.arc x y) (inside : N.child x b) : N.child y b := by
  induction walk with
  | refl => exact inside
  | tail _ step ih =>
      obtain ⟨b', isChild, next⟩ := nested.siblings _ _ step
      rwa [nested.unique _ _ _ ih isChild]

theorem Nested.transGen_siblings {x y : V} (walk : TransGen N.arc x y) : ∃ b, N.child x b ∧ N.child y b := by
  obtain ⟨next, step, rest⟩ := TransGen.head'_iff.mp walk
  obtain ⟨b, first, second⟩ := nested.siblings _ _ step
  exact ⟨b, first, nested.walk_siblings rest second⟩

/-- A walk among nodes that can be crossed is a walk in the flat graph. -/
theorem Nested.flatten {x y b : V} (inside : N.child x b)
    (across : ∀ z, N.child z b → ReflTransGen N.Flat (N.entry z) (N.exit z)) (walk : ReflTransGen N.arc x y) :
    ReflTransGen N.Flat (N.entry x) (N.entry y) ∧ ReflTransGen N.Flat (N.exit x) (N.exit y) := by
  induction walk with
  | refl => exact ⟨.refl, .refl⟩
  | @tail z y walk step ih =>
      have inZ := nested.walk_siblings walk inside
      have inY := nested.walk_siblings (walk.tail step) inside
      have flat : N.Flat (N.exit z) (N.entry y) := ⟨z, y, step, rfl, rfl⟩
      exact ⟨(ih.1.trans (across z inZ)).tail flat, (ih.2.tail flat).trans (across y inY)⟩

variable (sound : N.Sound)
include sound

theorem Nested.across (x : V) : ReflTransGen N.Flat (N.entry x) (N.exit x) := by
  induction x using nested.wellFounded.induction with
  | _ b ih =>
      by_cases leaf : N.IsLeaf b
      · rw [(nested.ofLeaf b leaf).1, (nested.ofLeaf b leaf).2]
      · obtain ⟨y, inside⟩ := not_forall_not.mp leaf
        obtain ⟨inEntry, leafEntry⟩ := nested.entryOf y b inside
        obtain ⟨inExit, leafExit⟩ := nested.exitOf y b inside
        have flat := (nested.flatten inEntry ih (sound.toExit _ _ inEntry)).1
        rwa [(nested.ofLeaf _ leafEntry).1, (nested.ofLeaf _ leafExit).1] at flat

theorem Nested.walk {x y : V} (walk : TransGen N.arc x y) : TransGen N.Flat (N.exit x) (N.entry y) := by
  obtain ⟨z, step, rest⟩ := TransGen.head'_iff.mp walk
  obtain ⟨b, -, inside⟩ := nested.siblings _ _ step
  refine TransGen.head' ⟨x, z, step, rfl, rfl⟩ ?_
  exact (nested.flatten inside (fun z _ => nested.across sound z) rest).1

/-- A leaf lies between the entry and the exit of every node that it is under. -/
theorem Nested.between {e x : V} (leaf : N.IsLeaf e) (under : N.Under e x) :
    ReflTransGen N.Flat (N.entry x) e ∧ ReflTransGen N.Flat e (N.exit x) := by
  induction under with
  | refl =>
      obtain ⟨sameEntry, sameExit⟩ := nested.ofLeaf e leaf
      rw [sameEntry, sameExit]
      exact ⟨.refl, .refl⟩
  | @tail z b _ inside ih =>
      obtain ⟨inEntry, leafEntry⟩ := nested.entryOf z b inside
      obtain ⟨-, leafExit⟩ := nested.exitOf z b inside
      have across := fun z (_ : N.child z b) => nested.across sound z
      have first := (nested.flatten inEntry across (sound.fromEntry z b inside)).1
      have last := (nested.flatten inside across (sound.toExit z b inside)).2
      rw [(nested.ofLeaf _ leafEntry).1] at first
      rw [(nested.ofLeaf _ leafExit).2] at last
      exact ⟨first.trans ih.1, ih.2.trans last⟩

/-- One leaf reaches another just when a node over the one reaches a node over the other. -/
theorem Nested.reaches_iff {e f : V} (leafE : N.IsLeaf e) (leafF : N.IsLeaf f) :
    TransGen N.Flat e f ↔ ∃ x y, N.Under e x ∧ N.Under f y ∧ TransGen N.arc x y := by
  constructor
  · intro path
    clear leafE leafF
    induction path with
    | single step =>
        obtain ⟨x, y, isArc, rfl, rfl⟩ := step
        exact ⟨x, y, (nested.exit_under x).2, (nested.entry_under y).2, .single isArc⟩
    | tail _ step ih =>
        obtain ⟨x, y, underX, underY, walk⟩ := ih
        obtain ⟨x', y', isArc, rfl, rfl⟩ := step
        have underY' := (nested.entry_under y').2
        obtain ⟨b', inX', inY'⟩ := nested.siblings _ _ isArc
        obtain ⟨b, inX, inY⟩ := nested.transGen_siblings walk
        -- Both `y` and `x'` are over the leaf between, so one is under the other.
        rcases ReflTransGen.total_of_right_unique (fun z b b' => nested.unique z b b') underY
          (nested.exit_under x').2 with up | down
        · rcases ReflTransGen.cases_head up with rfl | ⟨z, inZ, above⟩
          · exact ⟨x, y', underX, underY', walk.tail isArc⟩
          · rw [← nested.unique y b z inY inZ] at above
            exact ⟨x', y', (underX.tail inX).trans above, underY', .single isArc⟩
        · rcases ReflTransGen.cases_head down with rfl | ⟨z, inZ, above⟩
          · exact ⟨x, y', underX, underY', walk.tail isArc⟩
          · rw [← nested.unique x' b' z inX' inZ] at above
            exact ⟨x, y, underX, (underY'.tail inY').trans above, walk⟩
  · rintro ⟨x, y, underX, underY, walk⟩
    exact TransGen.trans_right (nested.between sound leafE underX).2
      ((nested.walk sound walk).trans_left (nested.between sound leafF underY).1)

end Nested

end NestedGraph

/-! ### A list as a graph -/

section Lists
variable {V : Type} {a b x y z : V} {l : List V}

theorem pair_sublist_cons : List.Sublist [x, y] (a :: l) ↔ x = a ∧ y ∈ l ∨ List.Sublist [x, y] l := by
  rw [List.sublist_cons_iff, or_comm]
  refine or_congr_left ⟨?_, ?_⟩
  · rintro ⟨r, same, inside⟩
    obtain ⟨rfl, rfl⟩ := List.cons.inj same
    exact ⟨rfl, List.singleton_sublist.mp inside⟩
  · rintro ⟨rfl, inside⟩
    exact ⟨[y], rfl, List.singleton_sublist.mpr inside⟩

theorem pair_infix_cons : [x, y] <:+: a :: l ↔ x = a ∧ l.head? = some y ∨ [x, y] <:+: l := by
  rw [List.infix_cons_iff, List.cons_prefix_cons]
  cases l with
  | nil => simp
  | cons c l => rw [List.cons_prefix_cons, and_iff_left List.nil_prefix, List.head?_cons, Option.some_inj, eq_comm (a := c)]

theorem pair_infix_concat : [x, y] <:+: l ++ [b] ↔ [x, y] <:+: l ∨ l.getLast? = some x ∧ y = b := by
  induction l with
  | nil => simp [pair_infix_cons]
  | cons a l ih =>
      rw [List.cons_append, pair_infix_cons, ih, pair_infix_cons]
      cases l with
      | nil => simpa using and_congr eq_comm eq_comm
      | cons c l => simp [or_assoc]

theorem pair_sublist_trans (distinct : l.Nodup) (first : List.Sublist [x, y] l) (second : List.Sublist [y, z] l) :
    List.Sublist [x, z] l := by
  induction l with
  | nil => simp at first
  | cons a l ih =>
      obtain ⟨new, distinct⟩ := List.nodup_cons.mp distinct
      have inside {p q : V} (pair : List.Sublist [p, q] l) : p ∈ l ∧ q ∈ l :=
        ⟨pair.subset List.mem_cons_self, pair.subset (.tail p List.mem_cons_self)⟩
      rw [pair_sublist_cons] at first second ⊢
      rcases second with ⟨rfl, -⟩ | second
      · rcases first with ⟨-, isIn⟩ | first
        · exact absurd isIn new
        · exact absurd (inside first).2 new
      · rcases first with ⟨isFirst, -⟩ | first
        · exact .inl ⟨isFirst, (inside second).2⟩
        · exact .inr (ih distinct first second)

theorem pair_sublist_total (insideX : x ∈ l) (insideY : y ∈ l) (differ : x ≠ y) :
    List.Sublist [x, y] l ∨ List.Sublist [y, x] l := by
  induction l with
  | nil => exact absurd insideX List.not_mem_nil
  | cons a l ih =>
      simp only [pair_sublist_cons]
      rcases List.mem_cons.mp insideX with rfl | laterX
      · exact .inl (.inl ⟨rfl, (List.mem_cons.mp insideY).resolve_left differ.symm⟩)
      · rcases List.mem_cons.mp insideY with rfl | laterY
        · exact .inr (.inl ⟨rfl, laterX⟩)
        · exact (ih laterX laterY).imp .inr .inr

/-- Steps from each element of a list to the next lead from an element to all behind it. -/
theorem transGen_infix_iff (distinct : l.Nodup) : TransGen (fun x y => [x, y] <:+: l) x y ↔ List.Sublist [x, y] l := by
  constructor
  · intro walk
    induction walk with
    | single step => exact step.sublist
    | tail _ step ih => exact pair_sublist_trans distinct ih step.sublist
  · clear distinct
    induction l generalizing x with
    | nil => simp
    | cons a l ih =>
        intro before
        have inner {p : V} (pair : List.Sublist [p, y] l) : TransGen (fun x y => [x, y] <:+: a :: l) p y :=
          TransGen.mono (fun _ _ step => pair_infix_cons.mpr (.inr step)) _ _ (ih pair)
        rcases pair_sublist_cons.mp before with ⟨rfl, isIn⟩ | before
        · cases l with
          | nil => simp at isIn
          | cons c l =>
              have step : [x, c] <:+: x :: c :: l := pair_infix_cons.mpr (.inl ⟨rfl, rfl⟩)
              rcases List.mem_cons.mp isIn with rfl | isIn
              · exact .single step
              · exact .head step (inner (pair_sublist_cons.mpr (.inl ⟨rfl, isIn⟩)))
        · exact inner before

end Lists

end Ahir.Graph
