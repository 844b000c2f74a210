import Mathlib.Data.List.Basic

/-!
# What holds throughout a list

A condition on each entry of a list and the entries before it.
-/

set_option autoImplicit false

namespace Ahir.Data
variable {α : Type} {P : List α → α → Prop} {xs : List α} {x : α}

def Throughout (P : List α → α → Prop) (xs : List α) : Prop :=
  ∀ before x after, xs = before ++ x :: after → P before x

theorem Throughout.of_append {ys : List α} (all : Throughout P (xs ++ ys)) : Throughout P xs := by
  rintro before x after rfl
  exact all before x (after ++ ys) (by rw [List.append_assoc, List.cons_append])

theorem throughout_snoc_iff : Throughout P (xs ++ [x]) ↔ Throughout P xs ∧ P xs x := by
  constructor
  · intro all
    exact ⟨all.of_append, all xs x [] rfl⟩
  · rintro ⟨all, last⟩ before y after split
    rcases List.eq_nil_or_concat after with rfl | ⟨after, z, rfl⟩
    · obtain ⟨rfl, isLast⟩ := List.append_inj' split rfl
      obtain rfl := List.singleton_inj.mp isLast
      exact last
    · rw [List.concat_eq_append, ← List.cons_append, ← List.append_assoc] at split
      exact all before y after (List.append_inj' split rfl).1

theorem throughout_iff_getElem : Throughout P xs ↔ ∀ i, (inside : i < xs.length) → P (xs.take i) xs[i] := by
  constructor
  · intro all i inside
    apply all (xs.take i) xs[i] (xs.drop (i + 1))
    rw [← List.drop_eq_getElem_cons inside, List.take_append_drop]
  · rintro all before x after rfl
    have here := all before.length (by simp)
    simpa using here

theorem throughout_and_iff {Q : List α → α → Prop} :
    Throughout (fun before x => P before x ∧ Q before x) xs ↔ Throughout P xs ∧ Throughout Q xs :=
  ⟨fun all => ⟨fun before x after split => (all before x after split).1, fun before x after split => (all before x after split).2⟩,
    fun both before x after split => ⟨both.1 before x after split, both.2 before x after split⟩⟩

theorem throughout_map_iff {β : Type} {f : β → α} {ys : List β} :
    Throughout P (ys.map f) ↔ Throughout (fun before y => P (before.map f) (f y)) ys := by
  rw [throughout_iff_getElem, throughout_iff_getElem]
  simp only [List.length_map, List.getElem_map, List.map_take]

instance [∀ before x, Decidable (P before x)] : Decidable (Throughout P xs) :=
  decidable_of_iff (∀ i, (inside : i < xs.length) → P (xs.take i) xs[i]) throughout_iff_getElem.symm

end Ahir.Data
