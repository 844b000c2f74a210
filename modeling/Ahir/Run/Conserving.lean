import Mathlib.Tactic

/-!
# Machines that hand on what they take in

A machine that takes values in and gives values out, turn after turn.  When each
turn obeys the law of a queue, as long as its inputs are allowed, then a run gives
out what it has taken in, in order, but for what is still held.
-/

set_option autoImplicit false

namespace Ahir.Run
variable {S I V : Type} (next : S → I → S)

/-- What the turns of a run add to a list. -/
def collect (f : S → I → List V) : S → List I → List V
  | _, [] => []
  | s, i :: is => f s i ++ collect f (next s i) is

/-- Every input is one that the state of its turn allows. -/
def Allowed (allows : S → I → Prop) : S → List I → Prop
  | _, [] => True
  | s, i :: is => allows s i ∧ Allowed allows (next s i) is

/-- `holds s q`: the state holds the values `q`, the one that is to be given out next first. -/
structure Conserves (allows : S → I → Prop) (takes gives : S → I → List V) (holds : S → List V → Prop) : Prop where
  step : ∀ s i q, holds s q → allows s i → ∃ q', holds (next s i) q' ∧ q ++ takes s i = gives s i ++ q'

theorem collect_of_inputs (f : I → List V) (s : S) (is : List I) : collect next (fun _ i => f i) s is = is.flatMap f := by
  induction is generalizing s with
  | nil => rfl
  | cons i is ih => rw [collect, ih, List.flatMap_cons]

theorem map_collect {W : Type} (h : List V → List W) (nil : h [] = []) (append : ∀ xs ys, h (xs ++ ys) = h xs ++ h ys)
    (f : S → I → List V) (s : S) (is : List I) : h (collect next f s is) = collect next (fun s i => h (f s i)) s is := by
  induction is generalizing s with
  | nil => exact nil
  | cons i is ih => rw [collect, collect, append, ih]

variable {next} {allows : S → I → Prop} {takes gives : S → I → List V} {holds : S → List V → Prop}

instance decidableAllowed [∀ s i, Decidable (allows s i)] : (s : S) → (is : List I) → Decidable (Allowed next allows s is)
  | _, [] => inferInstanceAs (Decidable True)
  | s, i :: is =>
      have : Decidable (Allowed next allows (next s i) is) := decidableAllowed (next s i) is
      inferInstanceAs (Decidable (_ ∧ _))

theorem Conserves.run (conserves : Conserves next allows takes gives holds) :
    ∀ (is : List I) (s : S) (q : List V), holds s q → Allowed next allows s is →
      ∃ q', holds (is.foldl next s) q' ∧ q ++ collect next takes s is = collect next gives s is ++ q' := by
  intro is
  induction is with
  | nil =>
      intro s q held _
      exact ⟨q, held, List.append_nil q⟩
  | cons i is ih =>
      rintro s q held ⟨allowed, rest⟩
      obtain ⟨q₁, held₁, law⟩ := conserves.step s i q held allowed
      obtain ⟨q', held', law'⟩ := ih (next s i) q₁ held₁ rest
      refine ⟨q', held', ?_⟩
      calc q ++ collect next takes s (i :: is)
          = (q ++ takes s i) ++ collect next takes (next s i) is := by rw [collect, List.append_assoc]
        _ = gives s i ++ (q₁ ++ collect next takes (next s i) is) := by rw [law, List.append_assoc]
        _ = collect next gives s (i :: is) ++ q' := by rw [law', collect, List.append_assoc]

end Ahir.Run
