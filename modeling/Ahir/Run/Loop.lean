import Mathlib.Tactic

/-!
# Loops

The rule for a loop over a list whose turns may stop the program.  The invariant speaks
of the items that are left, so that it may say what the loop still relies on.
-/

set_option autoImplicit false

namespace Ahir.Run
variable {S X : Type} {turn : S → X → Option S}

theorem foldlM_rule (holds : List X → S → Prop)
    (step : ∀ x rest s s', holds (x :: rest) s → turn s x = some s' → holds rest s') :
    ∀ {items : List X} {s s' : S}, holds items s → items.foldlM turn s = some s' → holds [] s' := by
  intro items
  induction items with
  | nil =>
      intro s s' start run
      obtain rfl := Option.some.inj run
      exact start
  | cons x rest ih =>
      intro s s' start run
      rw [List.foldlM_cons] at run
      obtain ⟨next, first, run⟩ := Option.bind_eq_some_iff.mp run
      exact ih (step x rest s next start first) run

theorem foldlM_keeps (keeps : S → Prop) (step : ∀ s x s', keeps s → turn s x = some s' → keeps s')
    {items : List X} {s s' : S} (start : keeps s) (run : items.foldlM turn s = some s') : keeps s' :=
  foldlM_rule (fun _ => keeps) (fun x _ s s' => step s x s') start run

end Ahir.Run
