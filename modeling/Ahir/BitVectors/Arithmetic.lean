import Ahir.BitVectors.Defined

/-!
# Sums, differences and products

The arithmetic operations go over the bytes or over a word of 64 bits.  On defined
vectors they are the arithmetic of integers modulo a power of two.
-/

set_option autoImplicit false

namespace Ahir.BitVectors
open Ahir.Data

namespace BitVector

/-- The number that the bits of a vector stand for. -/
def number (x : BitVector) : Nat := (x.residue x.width).toNat

/-- The same with the top bit as the sign. -/
def signedNumber (x : BitVector) : Int := (x.residue x.width).toInt

/-- A defined vector of width `w` that stands for an integer modulo `2 ^ w`. -/
structure IsModulo (x : BitVector) (w : Nat) (k : Int) : Prop where
  width : x.width = w
  defined : x.hasUndefinedBit = false
  number : (x.number : Int) = k % 2 ^ w

theorem toInt_emod {w : Nat} (x : BitVec w) : x.toInt % 2 ^ w = x.toNat := by
  have range : (x.toNat : Int) < 2 ^ w := by exact_mod_cast x.isLt
  have same : x.toInt % ((2 ^ w : Nat) : Int) = x.toNat % ((2 ^ w : Nat) : Int) := by
    rw [BitVec.toInt_eq_toNat_bmod, Int.bmod_emod]
  push_cast at same
  rw [same, Int.emod_eq_of_lt (Int.natCast_nonneg _) range]

section
variable {r s t : BitVector} {w : Nat} {f g : Nat → Bool}

theorem has_bit (width : r.width = w) (defined : r.hasUndefinedBit = false) : r.Has w r.bit :=
  ⟨width, fun _ _ => rfl, fun i below => hasUndefinedBit_eq_false.mp defined i (width ▸ below)⟩

theorem Has.isModulo (has : r.Has w f) {k : Int} (value : ((lowBits w f).toNat : Int) = k % 2 ^ w) :
    r.IsModulo w k := by
  refine ⟨has.width, has.hasUndefinedBit, ?_⟩
  obtain rfl := has.width
  rw [BitVector.number, has.residue]
  exact value

theorem Has.increment (has : r.Has w f) : (increment r).Has w (lowBits w f + BitVec.ofNat w 1).getLsbD := by
  refine ⟨(width_increment _).trans has.width, fun i below => ?_, fun i below => ?_⟩
  · have sum := residue_increment r has.width.ge
    rw [has.residue] at sum
    rw [← sum, BitVector.residue, getLsbD_lowBits, decide_eq_true below, Bool.true_and]
  · rw [undefinedBit_increment _ (by rwa [has.width]), has.defined i below]

theorem has_pack (word : BitVec 64) (width : t.width = w) (narrow : w ≤ 64) : (pack word t).Has w word.getLsbD := by
  refine ⟨(width_pack _ _).trans width, fun i below => ?_, fun i below => ?_⟩
  · rw [bit_pack _ _ (by omega), if_pos (by omega)]
  · rw [undefinedBit_pack _ _ (by omega), decide_eq_false (by omega), Bool.false_and]

theorem lowBits_getLsbD_setWidth (word : BitVec 64) (w : Nat) : lowBits w word.getLsbD = word.setWidth w :=
  lowBits_eq fun i below => by rw [BitVec.getLsbD_setWidth, decide_eq_true below, Bool.true_and]

/-- The low bits of a product of words are the product of the low bits, with signs or without. -/
theorem setWidth_mul_toUint64 (signed : Bool) (widthR : r.width = w) (widthS : s.width = w) (narrow : w ≤ 64) :
    (toUint64 signed r * toUint64 signed s).setWidth w = r.residue w * s.residue w := by
  rw [BitVec.setWidth_mul _ _ narrow, setWidth_toUint64 _ _ narrow widthR.ge, setWidth_toUint64 _ _ narrow widthS.ge]

/-- The operations on vectors of one width are the arithmetic modulo a power of two, the
products up to 64 bits. -/
theorem arithmetic_modulo (widthR : r.width = w) (widthS : s.width = w) (widthT : t.width = w)
    (definedR : r.hasUndefinedBit = false) (definedS : s.hasUndefinedBit = false) :
    (increment r).IsModulo w (r.number + 1) ∧
      (plus r s t).IsModulo w (r.number + s.number) ∧
      (minus r s t).IsModulo w (r.number - s.number) ∧
      (w ≤ 64 → (mul r s t).IsModulo w (r.number * s.number) ∧
        (smul r s t).IsModulo w (r.signedNumber * s.signedNumber)) := by
  have hasR := has_bit widthR definedR
  have hasS := has_bit widthS definedS
  have numberR : r.number = (r.residue w).toNat := by rw [← widthR]; rfl
  have numberS : s.number = (s.residue w).toNat := by rw [← widthS]; rfl
  have signedR : r.signedNumber = (r.residue w).toInt := by rw [← widthR]; rfl
  have signedS : s.signedNumber = (s.residue w).toInt := by rw [← widthS]; rfl
  rw [numberR, numberS, signedR, signedS]
  refine ⟨hasR.increment.isModulo ?_, (hasR.plus hasS widthT).isModulo ?_, (hasR.minus hasS widthT).isModulo ?_,
    fun narrow => ⟨(has_pack _ widthT narrow).isModulo ?_, (has_pack _ widthT narrow).isModulo ?_⟩⟩
  · rw [lowBits_getLsbD, BitVec.toNat_add, BitVec.toNat_ofNat, Nat.add_mod_mod]
    push_cast
    rfl
  · rw [lowBits_getLsbD, BitVec.toNat_add]
    push_cast
    rfl
  · rw [lowBits_getLsbD, BitVec.toNat_sub, Int.natCast_emod, Nat.cast_add, Nat.cast_sub (le_of_lt (BitVec.isLt _))]
    push_cast
    rw [sub_add_eq_add_sub, add_sub_assoc, Int.add_emod_left]
    rfl
  · rw [lowBits_getLsbD_setWidth, setWidth_mul_toUint64 false widthR widthS narrow, BitVec.toNat_mul]
    push_cast
    rfl
  · rw [lowBits_getLsbD_setWidth, setWidth_mul_toUint64 true widthR widthS narrow, BitVec.toNat_mul, Int.natCast_emod,
      Nat.cast_mul, ← toInt_emod, ← toInt_emod]
    push_cast
    rw [← Int.mul_emod]

/-- All ones and one in twelve bits: the carry goes through the byte boundary. -/
theorem arithmetic_modulo_twelve :
    let r : BitVector := ⟨12, [255, 15], [0, 0], rfl, rfl, by decide⟩
    let s : BitVector := ⟨12, [1, 0], [0, 0], rfl, rfl, by decide⟩
    (plus r s r).IsModulo 12 (4095 + 1) ∧ (smul r s r).IsModulo 12 (-1 * 1) := by
  intro r s
  obtain ⟨-, sum, -, products⟩ :=
    arithmetic_modulo (r := r) (s := s) (t := r) (w := 12) rfl rfl rfl (by decide) (by decide)
  have numbers : r.number = 4095 ∧ s.number = 1 ∧ r.signedNumber = -1 ∧ s.signedNumber = 1 := by decide
  obtain ⟨numberR, numberS, signedR, signedS⟩ := numbers
  rw [numberR, numberS] at sum
  have product := (products (by decide)).2
  rw [signedR, signedS] at product
  exact ⟨sum, product⟩

end

end BitVector
end Ahir.BitVectors
