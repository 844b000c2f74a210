import Mathlib.Data.List.Nodup
import Mathlib.Data.List.Perm.Basic
import Mathlib.Logic.Function.Basic
import Mathlib.Tactic

/-!
# First fit

Items are put into groups of their kind one after the other, each into the first
group that accepts it, or into a new group.  The test may be undefined, and then
the whole run is.  When the test implies a symmetric relation to the members of
the group up to some condition, the groups end up pairwise related just when the
condition is met each time an item joins a group.
-/

set_option autoImplicit false

namespace Ahir.Run

structure FirstFit (A K : Type) where
  kind : A → Option K
  accepts : A → List A → Option Bool
  insert : A → List A → List A
  insert_perm : ∀ x g, x ∉ g → (insert x g).Perm (x :: g)

namespace FirstFit
variable {A K : Type} [DecidableEq K] (F : FirstFit A K)

def place (x : A) : List (List A) → Option (List (List A))
  | [] => some [[x]]
  | g :: rest =>
      match F.accepts x g with
      | none => none
      | some true => some (F.insert x g :: rest)
      | some false => (place x rest).map (g :: ·)

/-- The group that `x` joins. -/
def host (x : A) : List (List A) → Option (List A)
  | [] => none
  | g :: rest => if F.accepts x g = some true then some g else host x rest

def turn (groups : K → List (List A)) (x : A) : Option (K → List (List A)) :=
  match F.kind x with
  | none => some groups
  | some k => (F.place x (groups k)).map (Function.update groups k)

def fill (items : List A) : Option (K → List (List A)) := items.foldlM F.turn fun _ => []

variable {F} {x : A} {items : List A} {groups groups' : K → List (List A)}

omit [DecidableEq K] in
theorem place_cases : ∀ {gs gs' : List (List A)}, F.place x gs = some gs' →
    (∃ before g after, gs = before ++ g :: after ∧ F.accepts x g = some true ∧
      F.host x gs = some g ∧ gs' = before ++ F.insert x g :: after) ∨
    F.host x gs = none ∧ gs' = gs ++ [[x]] := by
  intro gs
  induction gs with
  | nil =>
      intro gs' run
      obtain rfl := Option.some.inj run
      exact Or.inr ⟨rfl, rfl⟩
  | cons g rest ih =>
      intro gs' run
      rw [place] at run
      rw [host]
      split at run
      · cases run
      · next accepted =>
          obtain rfl := Option.some.inj run
          exact Or.inl ⟨[], g, rest, rfl, accepted, if_pos accepted, rfl⟩
      · next rejected =>
          obtain ⟨rest', placed, rfl⟩ := Option.map_eq_some_iff.mp run
          have skip : ¬ F.accepts x g = some true := by
            rw [rejected]
            decide
          rw [if_neg skip]
          rcases ih placed with ⟨before, h, after, rfl, accepted, found, rfl⟩ | ⟨found, rfl⟩
          · exact Or.inl ⟨g :: before, h, after, rfl, accepted, found, rfl⟩
          · exact Or.inr ⟨found, rfl⟩

structure Filled (F : FirstFit A K) (items : List A) (groups : K → List (List A)) : Prop where
  perm : ∀ k, (groups k).flatten.Perm (items.filter fun x => F.kind x = some k)
  occupied : ∀ k, ∀ g ∈ groups k, g ≠ []

theorem Filled.mem (filled : F.Filled items groups) {k : K} {g : List A} (inside : g ∈ groups k)
    (member : x ∈ g) : x ∈ items := by
  have listed := (filled.perm k).mem_iff.mp (List.mem_flatten_of_mem inside member)
  exact (List.mem_filter.mp listed).1

theorem Filled.turn (filled : F.Filled items groups) (fresh : x ∉ items)
    (run : F.turn groups x = some groups') : F.Filled (items ++ [x]) groups' := by
  rw [FirstFit.turn] at run
  split at run
  · next kindless =>
      obtain rfl := Option.some.inj run
      refine ⟨fun k => ?_, filled.occupied⟩
      rw [List.filter_append, List.filter_cons_of_neg (by simp [kindless]), List.filter_nil,
        List.append_nil]
      exact filled.perm k
  · next k ofKind =>
      obtain ⟨gs, placed, rfl⟩ := Option.map_eq_some_iff.mp run
      have outside : ∀ g ∈ groups k, x ∉ g := fun g inside member => fresh (filled.mem inside member)
      have result : gs.flatten.Perm ((groups k).flatten ++ [x]) ∧ ∀ g ∈ gs, g ≠ [] := by
        rcases place_cases placed with ⟨before, g, after, split, _, _, rfl⟩ | ⟨_, rfl⟩
        · have inserted := F.insert_perm x g (outside g (by simp [split]))
          constructor
          · rw [split]
            simp only [List.flatten_append, List.flatten_cons, List.append_assoc]
            apply List.Perm.append_left
            calc (F.insert x g ++ after.flatten).Perm (x :: g ++ after.flatten) :=
                  inserted.append_right _
              _ = [x] ++ (g ++ after.flatten) := rfl
              List.Perm _ ((g ++ after.flatten) ++ [x]) := List.perm_append_comm
              _ = g ++ (after.flatten ++ [x]) := List.append_assoc _ _ _
          · intro h inside
            rcases List.mem_append.mp inside with inside | inside
            · exact filled.occupied k h (by simp [split, inside])
            · rcases List.mem_cons.mp inside with rfl | inside
              · intro empty
                exact List.cons_ne_nil x g (List.perm_nil.mp (empty ▸ inserted).symm)
              · exact filled.occupied k h (by simp [split, inside])
        · refine ⟨by simp, fun g inside => ?_⟩
          rcases List.mem_append.mp inside with inside | inside
          · exact filled.occupied k g inside
          · rw [List.mem_singleton.mp inside]
            exact List.cons_ne_nil x []
      constructor
      · intro k'
        rw [List.filter_append]
        by_cases same : k' = k
        · subst same
          rw [Function.update_self, List.filter_cons_of_pos (by simp [ofKind]), List.filter_nil]
          exact result.1.trans ((filled.perm k').append_right [x])
        · have other : ¬ some k = some k' := fun eq => same (Option.some.inj eq).symm
          rw [Function.update_of_ne same, List.filter_cons_of_neg (by simp [ofKind, other]),
            List.filter_nil, List.append_nil]
          exact filled.perm k'
      · intro k' g inside
        by_cases same : k' = k
        · subst same
          rw [Function.update_self] at inside
          exact result.2 g inside
        · rw [Function.update_of_ne same] at inside
          exact filled.occupied k' g inside

theorem fill_append_singleton : F.fill (items ++ [x]) = (F.fill items).bind (F.turn · x) := by
  simp [fill, List.foldlM_append]

theorem fill_filled (nodup : items.Nodup) (run : F.fill items = some groups) :
    F.Filled items groups := by
  induction items using List.reverseRecOn generalizing groups with
  | nil =>
      obtain rfl := Option.some.inj run
      exact ⟨fun _ => List.Perm.refl _, fun _ _ inside => absurd inside List.not_mem_nil⟩
  | append_singleton items x ih =>
      rw [fill_append_singleton] at run
      obtain ⟨before, filledBefore, run⟩ := Option.bind_eq_some_iff.mp run
      obtain ⟨nodup, _, disjoint⟩ := List.nodup_append.mp nodup
      have fresh : x ∉ items := fun member => disjoint x member x (List.mem_singleton_self x) rfl
      exact (ih nodup filledBefore).turn fresh run

section Pairwise
variable {R : A → A → Prop} {fits : A → List A → Prop}

def Related (R : A → A → Prop) (groups : K → List (List A)) : Prop :=
  ∀ k, ∀ g ∈ groups k, g.Pairwise R

/-- The turn of `x` in `groups` goes well. -/
def FitsIn (F : FirstFit A K) (fits : A → List A → Prop) (groups : K → List (List A)) (x : A) : Prop :=
  ∀ k, F.kind x = some k →
    (F.place x (groups k)).isSome = true ∧ ∀ g, F.host x (groups k) = some g → fits x g

theorem Related.of_turn (symm : ∀ x y, R x y → R y x) (filled : F.Filled items groups) (fresh : x ∉ items)
    (run : F.turn groups x = some groups') (related : Related R groups') : Related R groups := by
  rw [FirstFit.turn] at run
  split at run
  · obtain rfl := Option.some.inj run
    exact related
  · next k ofKind =>
      obtain ⟨gs, placed, rfl⟩ := Option.map_eq_some_iff.mp run
      intro k' g inside
      have after := related k'
      by_cases same : k' = k
      · subst same
        rw [Function.update_self] at after
        rcases place_cases placed with ⟨left, h, right, split, _, _, rfl⟩ | ⟨_, rfl⟩
        · rw [split] at inside
          rcases List.mem_append.mp inside with inside | inside
          · exact after g (List.mem_append_left _ inside)
          · rcases List.mem_cons.mp inside with rfl | inside
            · have member : g ∈ groups k' := by simp [split]
              have outside : x ∉ g := fun isIn => fresh (filled.mem member isIn)
              have joined := after (F.insert x g) (by simp)
              exact (List.pairwise_cons.mp (((F.insert_perm x g outside).pairwise_iff (symm _ _)).mp joined)).2
            · exact after g (by simp [inside])
        · exact after g (List.mem_append_left _ inside)
      · rw [Function.update_of_ne same] at after
        exact after g inside

theorem turn_related_iff (symm : ∀ x y, R x y → R y x)
    (accepted : ∀ x g, g ≠ [] → g.Pairwise R → F.accepts x g = some true →
      ((∀ y ∈ g, R x y) ↔ fits x g))
    (filled : F.Filled items groups) (fresh : x ∉ items) (related : Related R groups) :
    (∃ groups', F.turn groups x = some groups' ∧ Related R groups') ↔ F.FitsIn fits groups x := by
  unfold FirstFit.turn FitsIn
  split
  · next kindless =>
      refine iff_of_true ⟨groups, rfl, related⟩ ?_
      intro k ofKind
      rw [kindless] at ofKind
      cases ofKind
  · next k ofKind =>
      have only : ∀ k', F.kind x = some k' → k' = k := by
        intro k' ofKind'
        rw [ofKind] at ofKind'
        exact (Option.some.inj ofKind').symm
      constructor
      · rintro ⟨groups', run, related'⟩ k' ofKind'
        obtain rfl := only k' ofKind'
        obtain ⟨gs, placed, rfl⟩ := Option.map_eq_some_iff.mp run
        refine ⟨Option.isSome_of_mem placed, fun g hosted => ?_⟩
        rcases place_cases placed with ⟨left, h, right, split, accepts, found, rfl⟩ | ⟨alone, _⟩
        · rw [found] at hosted
          obtain rfl := Option.some.inj hosted
          have inside : h ∈ groups k' := by simp [split]
          have outside : x ∉ h := fun member => fresh (filled.mem inside member)
          have joined := related' k' (F.insert x h) (by simp)
          have members := List.pairwise_cons.mp (((F.insert_perm x h outside).pairwise_iff (symm _ _)).mp joined)
          exact (accepted x h (filled.occupied k' h inside) members.2 accepts).mp members.1
        · rw [alone] at hosted
          cases hosted
      · intro fitsIn
        obtain ⟨defined, hosted⟩ := fitsIn k ofKind
        obtain ⟨gs, placed⟩ := Option.isSome_iff_exists.mp defined
        refine ⟨Function.update groups k gs, by rw [placed]; rfl, ?_⟩
        intro k' g inside
        by_cases same : k' = k
        · subst same
          rw [Function.update_self] at inside
          rcases place_cases placed with ⟨left, h, right, split, accepts, found, rfl⟩ | ⟨_, rfl⟩
          · rcases List.mem_append.mp inside with inside | inside
            · exact related k' g (by simp [split, inside])
            · rcases List.mem_cons.mp inside with rfl | inside
              · have member : h ∈ groups k' := by simp [split]
                have outside : x ∉ h := fun isIn => fresh (filled.mem member isIn)
                have before := related k' h member
                rw [(F.insert_perm x h outside).pairwise_iff (symm _ _), List.pairwise_cons]
                refine ⟨?_, before⟩
                exact (accepted x h (filled.occupied k' h member) before accepts).mpr (hosted h found)
              · exact related k' g (by simp [split, inside])
          · rcases List.mem_append.mp inside with inside | inside
            · exact related k' g inside
            · rw [List.mem_singleton.mp inside]
              exact List.pairwise_singleton R x
        · rw [Function.update_of_ne same] at inside
          exact related k' g inside

theorem fill_related_iff (symm : ∀ x y, R x y → R y x)
    (accepted : ∀ x g, g ≠ [] → g.Pairwise R → F.accepts x g = some true →
      ((∀ y ∈ g, R x y) ↔ fits x g)) (nodup : items.Nodup) :
    (∃ groups, F.fill items = some groups ∧ Related R groups) ↔
      ∀ before x after, items = before ++ x :: after → ∀ groups, F.fill before = some groups →
        F.FitsIn fits groups x := by
  induction items using List.reverseRecOn with
  | nil =>
      refine iff_of_true ⟨fun _ => [], rfl, fun _ _ inside => absurd inside List.not_mem_nil⟩ ?_
      intro before x after split
      simp at split
  | append_singleton items x ih =>
      obtain ⟨nodup, _, disjoint⟩ := List.nodup_append.mp nodup
      have fresh : x ∉ items := fun member => disjoint x member x (List.mem_singleton_self x) rfl
      have splits : (∀ before y after, items ++ [x] = before ++ y :: after →
          ∀ groups, F.fill before = some groups → F.FitsIn fits groups y) ↔
          (∀ before y after, items = before ++ y :: after →
            ∀ groups, F.fill before = some groups → F.FitsIn fits groups y) ∧
          ∀ groups, F.fill items = some groups → F.FitsIn fits groups x := by
        constructor
        · intro turns
          refine ⟨fun before y after split => turns before y (after ++ [x]) ?_, turns items x [] rfl⟩
          rw [split, List.append_assoc, List.cons_append]
        · rintro ⟨earlier, last⟩ before y after split
          rcases List.eq_nil_or_concat after with rfl | ⟨after, z, rfl⟩
          · obtain ⟨rfl, same⟩ := List.append_inj' split rfl
            obtain rfl := (List.cons.inj same).1
            exact last
          · rw [List.concat_eq_append, ← List.cons_append, ← List.append_assoc] at split
            obtain ⟨split, _⟩ := List.append_inj' split rfl
            exact earlier before y after split
      rw [splits, ← ih nodup, fill_append_singleton]
      constructor
      · rintro ⟨groups', run, related'⟩
        obtain ⟨groups, filled, run⟩ := Option.bind_eq_some_iff.mp run
        have isFilled := fill_filled nodup filled
        have related := related'.of_turn symm isFilled fresh run
        refine ⟨⟨groups, filled, related⟩, fun groups₁ filled₁ => ?_⟩
        rw [filled] at filled₁
        obtain rfl := Option.some.inj filled₁
        exact (turn_related_iff symm accepted isFilled fresh related).mp ⟨groups', run, related'⟩
      · rintro ⟨⟨groups, filled, related⟩, last⟩
        obtain ⟨groups', run, related'⟩ :=
          (turn_related_iff symm accepted (fill_filled nodup filled) fresh related).mpr (last groups filled)
        exact ⟨groups', Option.bind_eq_some_iff.mpr ⟨groups, filled, run⟩, related'⟩

end Pairwise

end FirstFit

end Ahir.Run
