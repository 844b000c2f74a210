import Ahir.BitVectors.Values

/-!
# Canonical vectors

What an operation leaves above the width of its result.  Operations that write whole
bytes clear the top byte at their end; the mask is right from a width of five on.
-/

set_option autoImplicit false

namespace Ahir.BitVectors
open Ahir.Data

namespace BitVector

theorem Canonical.copyLoop {t : BitVector} (canonical : t.Canonical) (r : BitVector) (source target : Nat → Nat)
    (n : Nat) : (copyLoop r source target t n).Canonical := by
  induction n with
  | zero => exact canonical
  | succ n ih => exact (ih.setBit _ _).setUndefinedBit _ _

theorem Canonical.foldl {α : Type} {f : BitVector → α → BitVector}
    (step : ∀ t a, t.Canonical → (f t a).Canonical) (l : List α) {t : BitVector} (canonical : t.Canonical) :
    (l.foldl f t).Canonical := by
  induction l generalizing t with
  | nil => exact canonical
  | cons a l ih => exact ih (step t a canonical)

theorem Canonical.compareInto (holds flags : Compared → Bool) (signed : Bool) (r s t : BitVector) :
    (compareInto holds flags signed r s t).Canonical := by
  unfold BitVector.compareInto
  dsimp only
  split
  · exact (canonical_clear t).setBit 0 true
  · split
    · exact (canonical_clear t).setUndefinedBit 0 true
    · exact canonical_clear t

end BitVector

/-- The operations that produce a value: all but the reductions, which set one bit of
what they are given, and the encoders, which may flag all of it. -/
def Operation.producesValue : Operation → Bool
  | .reduceOr | .reduceAnd | .reduceXor | .decode | .encode | .priorityEncode => false
  | _ => true

/-- Values of width `w` have one form: what operations produce has nothing above its
width, and so are the same bytes exactly when they are the same number. -/
structure CanonicalForm (w : Nat) : Prop where
  result : ∀ (op : Operation) (r s t result : BitVector), op.producesValue = true → r.Canonical → s.Canonical →
    op.apply r s t = some result → result.width = w → result.Canonical
  unique : ∀ x y : BitVector, x.Canonical → y.Canonical → x.width = w → y.width = w →
    (x.bytes = y.bytes ↔ (x.residue w).toNat = (y.residue w).toNat)

namespace BitVector

theorem canonical_cleared {w : Nat} (five : 5 ≤ w) {x : BitVector} (width : x.clearUnusedBits.width = w) :
    x.clearUnusedBits.Canonical := by
  rw [width_clearUnusedBits] at width
  exact x.canonical_clearUnusedBits (by omega)

theorem canonical_apply {w : Nat} (five : 5 ≤ w) {op : Operation} {r s t result : BitVector}
    (value : op.producesValue = true) (eq : op.apply r s t = some result) (width : result.width = w) :
    result.Canonical := by
  have clear := t.canonical_clear
  cases op with
  | reduceOr | reduceAnd | reduceXor | decode | encode | priorityEncode => cases value
  | or | nor | and | nand | xor | xnor | not | increment | plus | minus | mul | div | smul | assignUint64 =>
      obtain rfl := Option.some.inj eq
      exact canonical_cleared five width
  | sdiv =>
      simp only [Operation.apply, sdiv] at eq
      split at eq
      · cases eq
      · cases eq
        exact canonical_cleared five width
  | bitsel =>
      obtain rfl := Option.some.inj eq
      exact (clear.setBit 0 _).setUndefinedBit 0 _
  | concatenate =>
      obtain rfl := Option.some.inj eq
      exact (clear.copyLoop _ _ _ _).copyLoop _ _ _ _
  | slice | insert | rotateLeft | rotateRight =>
      obtain rfl := Option.some.inj eq
      exact clear.copyLoop _ _ _ _
  | shiftRight signed =>
      obtain rfl := Option.some.inj eq
      unfold shiftRight at width ⊢
      have fill : (shiftFill signed r t).Canonical := by
        unfold shiftFill
        split
        · refine canonical_clearUnusedBits _ ?_
          split at width
          · rw [width_copyLoop, width_shiftFill] at width
            exact five.trans width.ge
          · rw [width_shiftFill] at width
            exact five.trans width.ge
        · exact clear
      split
      · exact fill.copyLoop _ _ _ _
      · exact fill
  | shiftLeft =>
      obtain rfl := Option.some.inj eq
      unfold shiftLeft
      split
      · exact clear.copyLoop _ _ _ _
      · exact clear
  | equal | notEqual | less | lessEqual | greater | greaterEqual =>
      obtain rfl := Option.some.inj eq
      exact Canonical.compareInto _ _ _ _ _ _
  | cast signed =>
      obtain rfl := Option.some.inj eq
      unfold cast
      dsimp only
      split
      · exact Canonical.foldl (fun t i canonical => (canonical.setBit i _).setUndefinedBit i _) _
          (clear.copyLoop _ _ _ _)
      · exact clear.copyLoop _ _ _ _
  | assignString init =>
      obtain rfl := Option.some.inj eq
      unfold assignString
      split
      · exact Canonical.foldl (fun t i canonical => canonical.setBit _ _) _ clear
      · exact clear

end BitVector

/-- All bits of the complement of zero are set, those above the vector too: below a width of
five the mask keeps some of them. -/
theorem BitVector.not_clear_not_canonical (x : BitVector) (small : x.width < 5) : ¬ (x.clear.not x).Canonical := by
  intro canonical
  have above := canonical x.width (by rw [BitVector.not, width_clearUnusedBits, width_withBytes])
  have inside : x.width / 8 < nbytes x.width := by
    have pos := nbytes_pos x.width_pos
    omega
  unfold BitVector.not at above
  rw [bit_clearUnusedBits, bit_withBytes _ _ _ inside, BitVec.getLsbD_not, getLsbD_getByte, bit_clear,
    width_withBytes, decide_eq_true (Nat.mod_lt _ (by decide))] at above
  have pos := x.width_pos
  generalize x.width = w at *
  interval_cases w <;> revert above <;> decide

/-- The vector of width `w` that is zero. -/
def zero (w : Nat) (pos : 0 < w) : BitVector :=
  ⟨w, List.replicate (nbytes w) 0, List.replicate (nbytes w) 0, List.length_replicate, List.length_replicate, pos⟩

theorem not_canonicalForm {w : Nat} (pos : 0 < w) (small : w < 5) : ¬ CanonicalForm w := by
  intro form
  have canonical := (zero w pos).canonical_clear
  refine (zero w pos).not_clear_not_canonical small ?_
  exact form.result .not _ (zero w pos).clear _ _ rfl canonical canonical rfl (BitVector.width_clearUnusedBits _)

/-- Vectors have a canonical form from a width of five on, and below it they have none. -/
theorem canonicalForm_iff (w : Nat) (pos : 0 < w) : CanonicalForm w ↔ 5 ≤ w := by
  constructor
  · intro form
    by_contra small
    exact not_canonicalForm pos (by omega) form
  · intro five
    refine ⟨fun op r s t result value _ _ eq width => BitVector.canonical_apply five value eq width,
      fun x y canonicalX canonicalY widthX widthY => ?_⟩
    have iff := canonicalX.bytes_eq_iff canonicalY (widthX.trans widthY.symm)
    rwa [widthX, widthY] at iff

theorem canonicalForm_twelve : CanonicalForm 12 := (canonicalForm_iff 12 (by decide)).mpr (by decide)

/-- In one bit the complement of zero is `255`. -/
theorem not_canonicalForm_one :
    let x : BitVector := ⟨1, [0], [0], rfl, rfl, by decide⟩
    (Operation.not.apply x x x).map (fun t => t.bytes) = some [255] ∧ ¬ CanonicalForm 1 :=
  ⟨by decide, not_canonicalForm (by decide) (by decide)⟩

end Ahir.BitVectors
