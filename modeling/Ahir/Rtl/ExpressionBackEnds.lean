import Ahir.Rtl.CExpression
import Ahir.Rtl.VhdlExpression

/-!
# The two texts of an expression

What the C text computes is compared with the value of the VHDL text.
-/

set_option autoImplicit false

namespace Ahir.Rtl
open Ahir.BitVectors

/-- Both texts have a value, and the same one, whatever the objects hold. -/
def Expression.SameMeaning (e : Expression) : Prop :=
  ∀ (left : Leftovers) (objects : String → BitVector), e.Fits objects →
    ∃ x, e.cValue left objects = some x ∧ e.vhdlValue objects = some x

/-- The texts of a plain expression mean the same.  One with a broken operation in it, or
with a slice of what cannot be sliced, has no meaning in VHDL. -/
theorem Expression.sameMeaning_of_plain (e : Expression) (typed : e.WellTyped) :
    (e.plain = true → e.SameMeaning) ∧ (e.broken = true → ∀ objects, e.vhdlValue objects = none) :=
  ⟨fun plain left _ fits => ⟨_, e.cValue_of_plain left typed plain fits, e.vhdlValue_of_plain typed plain fits⟩,
    e.vhdlValue_of_broken⟩

/-- A byte: `a + b` if `a = b`, and else the lower half of `a` with one behind it. -/
theorem Expression.sameMeaning_byte :
    let a : Expression := .object "a" ⟨false, 8⟩
    let b : Expression := .object "b" ⟨false, 8⟩
    Expression.SameMeaning (.ternary (.binary .equal a b) (.binary .plus a b)
      (.binary .concat (.slice a 3 0) (.literal ⟨false, 4⟩ 1))) := by
  intro a b
  have typed : (Expression.ternary (.binary .equal a b) (.binary .plus a b)
      (.binary .concat (.slice a 3 0) (.literal ⟨false, 4⟩ 1))).WellTyped := by
    simp [WellTyped, a, b, inferAsserts, type, inferType]
  exact (Expression.sameMeaning_of_plain _ typed).1 (by decide)

/-- `a < b` of signed bytes: the VHDL text `uLessThan(a = b)` has no meaning, and the C text
compares `-1` and `0` as if they were not signed. -/
theorem Expression.not_sameMeaning :
    let e : Expression := .binary .less (.object "a" ⟨true, 8⟩) (.object "b" ⟨true, 8⟩)
    let objects : String → BitVector := fun id =>
      if id = "a" then ⟨8, [255], [0], rfl, rfl, by decide⟩ else ⟨8, [0], [0], rfl, rfl, by decide⟩
    e.WellTyped ∧ e.Fits objects ∧ ¬ e.SameMeaning ∧ e.cValue (fun _ w pos => ⟨cleared w pos, rfl⟩) objects = some ⟨1, 0⟩ := by
  intro e objects
  have fits : e.Fits objects := by
    constructor
    · exact ⟨rfl, by decide⟩
    · exact ⟨rfl, by decide⟩
  refine ⟨⟨Nat.succ_pos 7, Nat.succ_pos 7, rfl⟩, fits, fun same => ?_, by decide +kernel⟩
  obtain ⟨x, _, vhdl⟩ := same (fun _ w pos => ⟨cleared w pos, rfl⟩) objects fits
  rw [e.vhdlValue_of_broken rfl objects] at vhdl
  exact Option.some_ne_none x vhdl.symm

end Ahir.Rtl
