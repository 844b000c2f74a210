import Ahir.BitVectors.Undefined

/-!
# Flags that do not suffice

For each operation two runs that differ in a flagged bit and in a bit of the result
that is not.
-/

set_option autoImplicit false

namespace Ahir.BitVectors
open Ahir.Data

namespace BitVector
variable {r s t : BitVector}

theorem bytes_withValue (x : BitVector) (v : Nat) :
    (x.withValue v).bytes = (List.range (nbytes x.width)).map fun k =>
      lowBits 8 fun j => decide (8 * k + j < x.width) && v.testBit (8 * k + j) := rfl

theorem toUint64_withValue (x : BitVector) {v : Nat} (below : v < 2 ^ x.width) :
    toUint64 false (x.withValue v) = BitVec.ofNat 64 v := by
  refine BitVec.eq_of_getLsbD_eq fun k low => ?_
  rw [BitVec.getLsbD_ofNat, decide_eq_true low, Bool.true_and]
  by_cases inside : k < x.width
  · rw [getLsbD_toUint64 _ (x.withValue v) low inside, bit_withValue, decide_eq_true inside, Bool.true_and]
  · have outside : x.width ≤ k := by omega
    rw [getLsbD_toUint64_of_le rfl low (show (x.withValue v).width ≤ k from outside)]
    exact (Nat.testBit_lt_two_pow (below.trans_le (Nat.pow_le_pow_right (by decide) outside))).symm

theorem toUint64_withValue_zero (signed : Bool) (x : BitVector) : toUint64 signed (x.withValue 0) = 0 := by
  have plus : (signed && (x.withValue 0).signBit) = false := by
    rw [signBit_eq, bit_withValue, Nat.zero_testBit, Bool.and_false, Bool.and_false]
  refine BitVec.eq_of_getLsbD_eq fun k low => ?_
  refine Eq.trans ?_ (getLsbD_ofNat_zero 64 k).symm
  by_cases inside : k < x.width
  · rw [getLsbD_toUint64 _ (x.withValue 0) low inside, bit_withValue, Nat.zero_testBit, Bool.and_false]
  · exact getLsbD_toUint64_of_le plus low (Nat.le_of_not_lt inside)

theorem shiftAmount_withValue (x : BitVector) {v : Nat} (below : v < 2 ^ x.width) (word : v < 2 ^ 32) :
    (x.withValue v).shiftAmount = v := by
  unfold shiftAmount
  rw [toUint64_withValue x below, BitVec.toNat_ofNat, Nat.mod_eq_of_lt (word.trans (by decide)), Nat.mod_eq_of_lt word]

theorem shiftAmount_pow (x : BitVector) {i : Nat} (below : i < x.width) (low : i < 32) :
    (x.withValue (2 ^ i)).shiftAmount = 2 ^ i :=
  shiftAmount_withValue x (Nat.pow_lt_pow_right (by decide) below) (Nat.pow_lt_pow_right (by decide) low)

theorem shiftAmount_zero (x : BitVector) : (x.withValue 0).shiftAmount = 0 :=
  shiftAmount_withValue x (Nat.two_pow_pos _) (by decide)

/-- A bit of the vector is the top bit of the bits up to it. -/
theorem bit_eq_decide (x : BitVector) (j : Nat) : x.bit j = decide (2 ^ j ≤ (x.residue (j + 1)).toNat) := by
  have top : (x.residue (j + 1)).getLsbD j = x.bit j := by
    rw [residue, getLsbD_lowBits, decide_eq_true (Nat.lt_succ_self j), Bool.true_and]
  have msb := BitVec.msb_eq_decide (x.residue (j + 1))
  rw [BitVec.msb_eq_getLsbD_last, Nat.add_sub_cancel, top] at msb
  exact msb

theorem bit_increment_withValue (r : BitVector) (v : Nat) {j : Nat} (below : j < r.width) :
    (increment (r.withValue v)).bit j = decide (2 ^ j ≤ (v + 1) % 2 ^ (j + 1)) := by
  rw [bit_eq_decide, residue_increment (r.withValue v) (show j + 1 ≤ r.width from below),
    residue_withValue r v below, ← BitVec.ofNat_add, BitVec.toNat_ofNat]

theorem bit_plus_withValue (v u : Nat) {j : Nat} (belowR : j < r.width) (belowS : j < s.width) (below : j < t.width) :
    (plus (r.withValue v) (s.withValue u) t).bit j = decide (2 ^ j ≤ (v + u) % 2 ^ (j + 1)) := by
  rw [bit_eq_decide, residue_plus _ _ _ below, residue_withValue r v belowR, residue_withValue s u belowS,
    ← BitVec.ofNat_add, BitVec.toNat_ofNat]

theorem bit_minus_withValue (v u : Nat) {j : Nat} (belowR : j < r.width) (belowS : j < s.width) (below : j < t.width)
    (small : u < 2 ^ (j + 1)) :
    (minus (r.withValue v) (s.withValue u) t).bit j = decide (2 ^ j ≤ (2 ^ (j + 1) - u + v) % 2 ^ (j + 1)) := by
  rw [bit_eq_decide, residue_minus _ _ _ below, residue_withValue r v belowR, residue_withValue s u belowS,
    BitVec.toNat_sub, BitVec.toNat_ofNat, BitVec.toNat_ofNat, Nat.mod_eq_of_lt small, Nat.add_mod_mod]

end BitVector

namespace Operation
open BitVector
variable {op : Operation} {r s t : BitVector}

theorem Noninterfering.apply_withValue (sound : op.Noninterfering r s t) {v v' u u' : Nat}
    (agreeR : (r.withValue v).Agree (r.withValue v')) (agreeS : (s.withValue u).Agree (s.withValue u'))
    {a b : BitVector} (first : op.apply (r.withValue v) (s.withValue u) t = some a)
    (second : op.apply (r.withValue v') (s.withValue u') t = some b) {i : Nat} (below : i < a.width)
    (unflagged : a.undefinedBit i = false) : a.bit i = b.bit i :=
  sound _ _ _ _ (sameMarks_withValue r v) agreeR (sameMarks_withValue s u) agreeS a b first second i below unflagged

theorem increment_leaks (sound : Operation.increment.Noninterfering r s t) :
    UpwardClosed r.width r.undefinedBit := by
  intro i j less below flag
  by_contra unflagged
  have unflagged : r.undefinedBit j = false := Bool.eq_false_iff.mpr unflagged
  have small : (2 ^ j - 1) ^^^ 2 ^ i < 2 ^ j :=
    Nat.xor_lt_two_pow (by have := Nat.two_pow_pos j; omega) (Nat.pow_lt_pow_right (by decide) less)
  have ne : (2 ^ j - 1) ^^^ 2 ^ i ≠ 2 ^ j - 1 := by
    intro eq
    have bit := congrArg (fun v => v.testBit i) eq
    simp only [Nat.testBit_xor, Nat.testBit_two_pow_self, Nat.testBit_two_pow_sub_one, less, decide_true] at bit
    exact Bool.false_ne_true bit
  have agree : (r.withValue (2 ^ j - 1)).Agree (r.withValue ((2 ^ j - 1) ^^^ 2 ^ i)) := by
    refine agree_withValue fun k _ defined => ?_
    have apart : i ≠ k := by
      rintro rfl
      exact Bool.false_ne_true (defined.symm.trans flag)
    rw [Nat.testBit_xor, Nat.testBit_two_pow_of_ne apart, Bool.xor_false]
  have bits := sound.apply_withValue agree (Agree.refl (s.withValue 0)) rfl rfl
    (i := j) (by rwa [width_increment])
    ((undefinedBit_increment (r.withValue (2 ^ j - 1)) below).trans unflagged)
  have pos := Nat.two_pow_pos j
  have top : 2 ^ (j + 1) = 2 * 2 ^ j := by ring
  rw [bit_increment_withValue _ _ below, bit_increment_withValue _ _ below, Nat.mod_eq_of_lt (by omega),
    Nat.mod_eq_of_lt (by omega), decide_eq_true (by omega), decide_eq_false (by omega)] at bits
  exact Bool.false_ne_true bits.symm

theorem carry_pow {i j : Nat} (less : i < j) :
    2 ^ i + (2 ^ j - 2 ^ i) = 2 ^ j ∧ 2 ^ j - 2 ^ i < 2 ^ j ∧ 2 ^ i < 2 ^ j ∧ 2 ^ (j + 1) = 2 * 2 ^ j := by
  have power : 2 ^ i < 2 ^ j := Nat.pow_lt_pow_right (by decide) less
  have pos := Nat.two_pow_pos i
  refine ⟨by omega, by omega, power, by ring⟩

theorem plus_leaks (sized : Operation.plus.WellSized r s t) (sound : Operation.plus.Noninterfering r s t) :
    UpwardClosed t.width fun i => r.undefinedBit i || s.undefinedBit i := by
  intro i j less below flag
  by_contra unflagged
  have unflagged := Bool.eq_false_iff.mpr unflagged
  have belowR : j < r.width := sized.1 ▸ below
  have belowS : j < s.width := sized.2 ▸ below
  obtain ⟨sum, rest, power, top⟩ := carry_pow less
  have pos := Nat.two_pow_pos i
  rcases Bool.or_eq_true_iff.mp flag with flagR | flagS
  · have bits := sound.apply_withValue (agree_withValue_pow flagR) (Agree.refl (s.withValue (2 ^ j - 2 ^ i))) rfl rfl
      (i := j) (by rwa [width_plus]) ((undefinedBit_plus _ _ _ below).trans unflagged)
    rw [bit_plus_withValue _ _ belowR belowS below, bit_plus_withValue _ _ belowR belowS below, sum, Nat.zero_add,
      Nat.mod_eq_of_lt (by omega), Nat.mod_eq_of_lt (by omega), decide_eq_false (by omega),
      decide_eq_true (by omega)] at bits
    exact Bool.false_ne_true bits
  · have bits := sound.apply_withValue (Agree.refl (r.withValue (2 ^ j - 2 ^ i))) (agree_withValue_pow flagS) rfl rfl
      (i := j) (by rwa [width_plus]) ((undefinedBit_plus _ _ _ below).trans unflagged)
    rw [bit_plus_withValue _ _ belowR belowS below, bit_plus_withValue _ _ belowR belowS below,
      Nat.add_comm _ (2 ^ i), sum, Nat.add_zero,
      Nat.mod_eq_of_lt (by omega), Nat.mod_eq_of_lt (by omega), decide_eq_false (by omega),
      decide_eq_true (by omega)] at bits
    exact Bool.false_ne_true bits

theorem minus_leaks (sized : Operation.minus.WellSized r s t) (sound : Operation.minus.Noninterfering r s t) :
    UpwardClosed t.width fun i => r.undefinedBit i || s.undefinedBit i := by
  intro i j less below flag
  by_contra unflagged
  have unflagged := Bool.eq_false_iff.mpr unflagged
  have belowR : j < r.width := sized.1 ▸ below
  have belowS : j < s.width := sized.2 ▸ below
  obtain ⟨sum, rest, power, top⟩ := carry_pow less
  have pos := Nat.two_pow_pos i
  rcases Bool.or_eq_true_iff.mp flag with flagR | flagS
  · have bits := sound.apply_withValue (agree_withValue_pow flagR) (Agree.refl (s.withValue (2 ^ i))) rfl rfl
      (i := j) (by rwa [width_minus]) ((undefinedBit_minus _ _ _ below).trans unflagged)
    rw [bit_minus_withValue _ _ belowR belowS below (by omega), bit_minus_withValue _ _ belowR belowS below (by omega),
      Nat.sub_add_cancel (by omega), Nat.mod_self, Nat.add_zero, Nat.mod_eq_of_lt (by omega),
      decide_eq_true (by omega), decide_eq_false (by omega)] at bits
    exact Bool.false_ne_true bits.symm
  · have bits := sound.apply_withValue (Agree.refl (r.withValue 0)) (agree_withValue_pow flagS) rfl rfl
      (i := j) (by rwa [width_minus]) ((undefinedBit_minus _ _ _ below).trans unflagged)
    rw [bit_minus_withValue _ _ belowR belowS below (by omega), bit_minus_withValue _ _ belowR belowS below (by omega),
      Nat.sub_zero, Nat.add_zero, Nat.add_zero, Nat.mod_self, Nat.mod_eq_of_lt (by omega),
      decide_eq_false (by omega), decide_eq_true (by omega)] at bits
    exact Bool.false_ne_true bits

theorem Noninterfering.packed (sound : op.Noninterfering r s t) {v v' u u' : Nat}
    (agreeR : (r.withValue v).Agree (r.withValue v')) (agreeS : (s.withValue u).Agree (s.withValue u'))
    {word word' : BitVec 64} (first : op.apply (r.withValue v) (s.withValue u) t = some (pack word t))
    (second : op.apply (r.withValue v') (s.withValue u') t = some (pack word' t)) {k : Nat} (low : k < 64)
    (below : k < t.width) : word.getLsbD k = word'.getLsbD k := by
  have bits := sound.apply_withValue agreeR agreeS first second (i := k) (by rwa [width_pack])
    (by rw [undefinedBit_pack _ _ below, decide_eq_false (by omega), Bool.false_and])
  rwa [bit_pack _ _ below, bit_pack _ _ below, if_pos low, if_pos low] at bits

theorem getLsbD_mul_one (signed : Bool) (r s : BitVector) {i : Nat} (low : i < 64) (belowR : i < r.width)
    (belowS : i < s.width) :
    (toUint64 signed (r.withValue (2 ^ i)) * toUint64 signed (s.withValue 1)).getLsbD i = true := by
  have product : (toUint64 signed (r.withValue (2 ^ i)) * toUint64 signed (s.withValue 1)).setWidth (i + 1) =
      BitVec.ofNat (i + 1) (2 ^ i) := by
    rw [BitVec.setWidth_mul _ _ (by omega),
      setWidth_toUint64 signed (r.withValue (2 ^ i)) (by omega) (show i + 1 ≤ r.width from belowR),
      setWidth_toUint64 signed (s.withValue 1) (by omega) (show i + 1 ≤ s.width from belowS),
      residue_withValue r _ belowR, residue_withValue s _ belowS, ← BitVec.ofNat_mul, Nat.mul_one]
  have bit := congrArg (fun word => word.getLsbD i) product
  rwa [BitVec.getLsbD_setWidth, BitVec.getLsbD_ofNat, Nat.testBit_two_pow_self, decide_eq_true (Nat.lt_succ_self i),
    Bool.true_and, Bool.true_and] at bit

theorem mul_leaks (signed : Bool) (widthR : r.width = t.width) (widthS : s.width = t.width)
    (sound : op.Noninterfering r s t)
    (applies : ∀ r' s', op.apply r' s' t = some (pack (toUint64 signed r' * toUint64 signed s') t)) :
    r.DefinedBelow 64 ∧ s.DefinedBelow 64 := by
  constructor <;> intro i below low <;> by_contra flag
  · have bits := sound.packed (agree_withValue_pow ((Bool.not_eq_false _).mp flag)) (Agree.refl (s.withValue 1))
      (applies _ _) (applies _ _) low (by omega)
    rw [toUint64_withValue_zero, show ∀ x : BitVec 64, 0 * x = 0 from fun x => BitVec.zero_mul,
      getLsbD_mul_one signed r s low below (by omega)] at bits
    exact Bool.false_ne_true ((getLsbD_ofNat_zero 64 i).symm.trans bits)
  · have bits := sound.packed (Agree.refl (r.withValue 1)) (agree_withValue_pow ((Bool.not_eq_false _).mp flag))
      (applies _ _) (applies _ _) low (by omega)
    rw [toUint64_withValue_zero, show ∀ x : BitVec 64, x * 0 = 0 from fun x => BitVec.mul_zero, BitVec.mul_comm,
      getLsbD_mul_one signed s r low below (by omega)] at bits
    exact Bool.false_ne_true ((getLsbD_ofNat_zero 64 i).symm.trans bits)

theorem toUint64_pow_ne (signed : Bool) (x : BitVector) {i : Nat} (low : i < 64) (below : i < x.width) :
    toUint64 signed (x.withValue (2 ^ i)) ≠ 0 := by
  intro zero
  have bit := getLsbD_toUint64 signed (x.withValue (2 ^ i)) low below
  rw [zero, bit_withValue, decide_eq_true below, Nat.testBit_two_pow_self] at bit
  exact Bool.false_ne_true ((getLsbD_ofNat_zero 64 i).symm.trans bit)

theorem toUint64_congr (signed : Bool) {x y : BitVector} (width : x.width = y.width) (bytes : x.bytes = y.bytes) :
    toUint64 signed x = toUint64 signed y := by
  have sign : x.signBit = y.signBit := by
    unfold signBit getByte
    rw [width, bytes]
  have unpacked : unpack signed x = unpack signed y := by
    refine lowBits_congr fun k _ => ?_
    unfold BitVector.bit
    rw [width, bytes, sign]
  unfold toUint64
  rw [unpacked, sign, width]

theorem toUint64_withValue_congr (signed : Bool) (same : r.width = s.width) (v : Nat) :
    toUint64 signed (r.withValue v) = toUint64 signed (s.withValue v) := by
  refine toUint64_congr signed same ?_
  rw [bytes_withValue, bytes_withValue, same]

/-- A quotient that is zero for a zero on either side and one for words that are the same. -/
theorem div_leaks (signed : Bool) (quotient : BitVec 64 → BitVec 64 → BitVec 64)
    (zeroLeft : ∀ x, quotient 0 x = 0) (zeroRight : ∀ x, quotient x 0 = 0) (self : ∀ x, x ≠ 0 → quotient x x = 1)
    (widthR : r.width = t.width) (widthS : s.width = t.width) (sound : op.Noninterfering r s t)
    (applies : ∀ r' s', toUint64 signed r' = 0 ∨ toUint64 signed s' = 0 ∨ toUint64 signed r' = toUint64 signed s' →
      op.apply r' s' t = some (pack (quotient (toUint64 signed r') (toUint64 signed s')) t)) :
    r.DefinedBelow 64 ∧ s.DefinedBelow 64 := by
  have same (i : Nat) : toUint64 signed (r.withValue (2 ^ i)) = toUint64 signed (s.withValue (2 ^ i)) :=
    toUint64_withValue_congr signed (widthR.trans widthS.symm) _
  have one (i : Nat) (low : i < 64) (below : i < r.width) :
      quotient (toUint64 signed (r.withValue (2 ^ i))) (toUint64 signed (s.withValue (2 ^ i))) = 1 := by
    rw [← same i]
    exact self _ (toUint64_pow_ne signed r low below)
  constructor <;> intro i below low <;> by_contra flag
  · have bits := sound.packed (agree_withValue_pow ((Bool.not_eq_false _).mp flag)) (Agree.refl (s.withValue (2 ^ i)))
      (applies _ _ (.inl (toUint64_withValue_zero _ _))) (applies _ _ (.inr (.inr (same i)))) (by decide : 0 < 64)
      t.width_pos
    rw [toUint64_withValue_zero, zeroLeft, one i low below] at bits
    exact absurd bits (by decide)
  · have bits := sound.packed (Agree.refl (r.withValue (2 ^ i))) (agree_withValue_pow ((Bool.not_eq_false _).mp flag))
      (applies _ _ (.inr (.inl (toUint64_withValue_zero _ _)))) (applies _ _ (.inr (.inr (same i)))) (by decide : 0 < 64)
      t.width_pos
    rw [toUint64_withValue_zero, zeroRight, one i low (by omega)] at bits
    exact absurd bits (by decide)

theorem shiftLeft_leaks (sized : Operation.shiftLeft.WellSized r s t)
    (sound : Operation.shiftLeft.Noninterfering r s t) : s.DefinedBelow 32 := by
  intro i below low
  by_contra flag
  have power := Nat.two_pow_pos i
  have pos := t.width_pos
  have spec := shiftLeft_spec (r := r.withValue 1) (s := s.withValue (2 ^ i)) sized pos
  have spec' := shiftLeft_spec (r := r.withValue 1) (s := s.withValue 0) sized pos
  rw [shiftAmount_pow s below low, decide_eq_false (by omega), Bool.false_and, Bool.false_and] at spec
  rw [shiftAmount_zero, decide_eq_true (le_refl 0), bit_withValue, decide_eq_true (by rw [sized]; exact pos)] at spec'
  have bits := sound.apply_withValue (Agree.refl (r.withValue 1))
    (agree_withValue_pow ((Bool.not_eq_false _).mp flag)).symm rfl rfl (i := 0) (by rwa [width_shiftLeft]) spec.2
  rw [spec.1, spec'.1] at bits
  exact absurd bits (by decide)

/-- A shift by nothing keeps a bit, and a shift by a flagged bit of the amount moves it away. -/
theorem shiftRight_leaks {signed : Bool} (sized : (Operation.shiftRight signed).WellSized r s t)
    (sound : (Operation.shiftRight signed).Noninterfering r s t) {p : Nat} (inside : p < t.width)
    (top : t.width ≤ p + 2 ∧ (signed = false → t.width ≤ p + 1))
    (sign : signed = true → p + 1 < t.width ∧ r.undefinedBit (t.width - 1) = false) : s.DefinedBelow 32 := by
  intro i below low
  by_contra flag
  have power := Nat.two_pow_pos i
  have minus : (signed && (r.withValue (2 ^ p)).signBit) = false := by
    cases signed with
    | false => rfl
    | true =>
        have apart : p ≠ r.width - 1 := by
          have := sign rfl
          rw [WellSized] at sized
          omega
        rw [Bool.true_and, signBit_eq, bit_withValue, width_withValue, Nat.testBit_two_pow_of_ne apart, Bool.and_false]
  have spec := shiftRight_spec (r := r.withValue (2 ^ p)) (s := s.withValue (2 ^ i)) signed sized inside
  have spec' := shiftRight_spec (r := r.withValue (2 ^ p)) (s := s.withValue 0) signed sized inside
  rw [shiftAmount_zero, Nat.add_zero, if_pos inside, bit_withValue, Nat.testBit_two_pow_self,
    decide_eq_true (by rw [sized]; exact inside)] at spec'
  rw [shiftAmount_pow s below low, minus] at spec
  have moved : (BitVector.shiftRight signed (r.withValue (2 ^ p)) (s.withValue (2 ^ i)) t).bit p = false ∧
      (BitVector.shiftRight signed (r.withValue (2 ^ p)) (s.withValue (2 ^ i)) t).undefinedBit p = false := by
    rw [spec.1, spec.2]
    by_cases copied : p + 2 ^ i < t.width
    · rw [if_pos copied, decide_eq_true copied, bit_withValue, Nat.testBit_two_pow_of_ne (by omega), Bool.and_false,
        Bool.true_and, undefinedBit_withValue]
      cases signed with
      | false =>
          have := top.2 rfl
          omega
      | true =>
          rw [show p + 2 ^ i = t.width - 1 by omega]
          exact ⟨rfl, (sign rfl).2⟩
    · rw [if_neg copied, decide_eq_false copied, Bool.false_and]
      exact ⟨rfl, rfl⟩
  have bits := sound.apply_withValue (Agree.refl (r.withValue (2 ^ p)))
    (agree_withValue_pow ((Bool.not_eq_false _).mp flag)).symm rfl rfl (i := p) (by rwa [width_shiftRight]) moved.2
  rw [moved.1, spec'.1] at bits
  exact absurd bits (by decide)

theorem shiftRight_sign_leaks (sized : (Operation.shiftRight true).WellSized r s t)
    (sound : (Operation.shiftRight true).Noninterfering r s t) : r.undefinedBit (r.width - 1) = false := by
  by_contra flag
  have pos := t.width_pos
  rw [WellSized] at sized
  have last : t.width - 1 < t.width := by omega
  have amount : (s.withValue 1).shiftAmount = 1 :=
    shiftAmount_withValue s (Nat.one_lt_two_pow (by have := s.width_pos; omega)) (by decide)
  have spec (v : Nat) := shiftRight_spec (r := r.withValue v) (s := s.withValue 1) true sized last
  simp only [amount, show ¬ t.width - 1 + 1 < t.width by omega, decide_false, if_false, Bool.true_and, Bool.false_and,
    signBit_eq, bit_withValue, width_withValue] at spec
  have bits := sound.apply_withValue (agree_withValue_pow ((Bool.not_eq_false _).mp flag)) (Agree.refl (s.withValue 1))
    rfl rfl (i := t.width - 1) (by rwa [width_shiftRight]) (spec 0).2
  rw [(spec 0).1, (spec _).1, Nat.zero_testBit, Nat.testBit_two_pow_self, decide_eq_true (by omega)] at bits
  exact absurd bits (by decide)

theorem cast_leaks (sound : (Operation.cast true).Noninterfering r s t) (wider : r.width < t.width) :
    r.undefinedBit (r.width - 1) = false := by
  by_contra flag
  have pos := r.width_pos
  have spec (v : Nat) := cast_spec true t (r.withValue v) wider
  simp only [width_withValue, Nat.lt_irrefl, if_false, Bool.true_and, signBit_eq, bit_withValue] at spec
  have bits := sound.apply_withValue (agree_withValue_pow ((Bool.not_eq_false _).mp flag)) (Agree.refl (s.withValue 0))
    rfl rfl (i := r.width) (by rwa [width_cast])
    ((spec 0).2.trans (by rw [Nat.zero_testBit, Bool.and_false, Bool.false_and]))
  rw [(spec 0).1, (spec _).1, Nat.zero_testBit, Nat.testBit_two_pow_self, decide_eq_true (by omega)] at bits
  exact absurd bits (by decide)

theorem rotateAmount_withValue (v : Nat) {u : Nat} (below : u < 2 ^ s.width) (word : u < 2 ^ 64) :
    rotateAmount (r.withValue v) (s.withValue u) = u % r.width := by
  unfold rotateAmount
  rw [toUint64_withValue s below, BitVec.toNat_ofNat, Nat.mod_eq_of_lt word, width_withValue]

/-- The position that the bit at `p` is taken from, for an amount. -/
theorem rotate_leaks (source : Nat → Nat → Nat) (same : r.width = t.width)
    (applies : ∀ v u, op.apply (r.withValue v) (s.withValue u) t =
      some (copyLoop (r.withValue v) (source (rotateAmount (r.withValue v) (s.withValue u))) id t.clear r.width))
    (stays : ∀ p < r.width, source 0 p = p)
    (moves : ∀ a p, a < r.width → p < r.width → source a p < r.width ∧ (source a p = p → a = 0))
    (sound : op.Noninterfering r s t) :
    (∀ i < r.width, r.undefinedBit i = true) ∨
      ∀ i < s.width, i < 64 → s.undefinedBit i = true → r.width ∣ 2 ^ i := by
  by_contra both
  push Not at both
  obtain ⟨⟨p, inside, unflagged⟩, i, below, low, flag, divides⟩ := both
  have amount : rotateAmount (r.withValue (2 ^ p)) (s.withValue (2 ^ i)) = 2 ^ i % r.width :=
    rotateAmount_withValue _ (Nat.pow_lt_pow_right (by decide) below) (Nat.pow_lt_pow_right (by decide) low)
  have amount' : rotateAmount (r.withValue (2 ^ p)) (s.withValue 0) = 0 := by
    rw [rotateAmount_withValue _ (Nat.two_pow_pos _) (by decide), Nat.zero_mod]
  have apart := moves (2 ^ i % r.width) p (Nat.mod_lt _ r.width_pos) inside
  have kept := rotate_spec (r := r.withValue (2 ^ p)) (source 0) same (same ▸ inside)
    (by rw [stays p inside]; exact inside)
  have moved := rotate_spec (r := r.withValue (2 ^ p)) (source (2 ^ i % r.width)) same (same ▸ inside) apart.1
  have first := applies (2 ^ p) 0
  have second := applies (2 ^ p) (2 ^ i)
  rw [amount'] at first
  rw [amount] at second
  rw [stays p inside, width_withValue, undefinedBit_withValue, bit_withValue, Nat.testBit_two_pow_self,
    decide_eq_true inside] at kept
  rw [width_withValue, bit_withValue, Nat.testBit_two_pow_of_ne fun eq => divides (Nat.dvd_of_mod_eq_zero
    (apart.2 eq.symm)), Bool.and_false] at moved
  have bits := sound.apply_withValue (Agree.refl (r.withValue (2 ^ p))) (agree_withValue_pow flag) first second
    (i := p) (by rw [width_copyLoop]; exact same ▸ inside) (kept.2.trans (Bool.eq_false_iff.mpr unflagged))
  rw [kept.1, moved.1] at bits
  exact absurd bits (by decide)

/-- Selecting where the two indices show: `i` with a bit that is not flagged. -/
theorem bitsel_leaks_of_unflagged (sound : Operation.bitsel.Noninterfering r s t) {i j : Nat}
    (small : i < 2 ^ min s.width 32) (small' : j < 2 ^ min s.width 32)
    (agreeS : (s.withValue i).Agree (s.withValue j)) (defined : r.getUndefinedBit i = false) :
    i = j ∨ r.width ≤ i ∧ r.width ≤ j := by
  have index {k : Nat} (small : k < 2 ^ min s.width 32) : (toUint64 false (s.withValue k)).toNat % 2 ^ 32 = k := by
    have le₁ : 2 ^ min s.width 32 ≤ 2 ^ s.width := Nat.pow_le_pow_right (by decide) (by omega)
    have le₂ : 2 ^ min s.width 32 ≤ 2 ^ 32 := Nat.pow_le_pow_right (by decide) (by omega)
    exact shiftAmount_withValue s (small.trans_le le₁) (small.trans_le le₂)
  by_contra apart
  push Not at apart
  have pick (v : Nat) : (r.withValue v).getBit i = (r.withValue v).getBit j := by
    have bits := sound.apply_withValue (Agree.refl (r.withValue v)) agreeS rfl rfl (i := 0) (width_pos _)
      (by rw [(bitsel_spec _ _ _).2, index small]; exact defined)
    rwa [(bitsel_spec _ _ _).1, (bitsel_spec _ _ _).1, index small, index small'] at bits
  have get (v k : Nat) : (r.withValue v).getBit k = (decide (k < r.width) && v.testBit k) := by
    unfold getBit
    rw [width_withValue, bit_withValue, ← Bool.and_assoc, Bool.and_self]
  simp only [get] at pick
  by_cases inside : i < r.width
  · have bits := pick (2 ^ i)
    rw [decide_eq_true inside, Nat.testBit_two_pow_self, Nat.testBit_two_pow_of_ne apart.1, Bool.and_false] at bits
    exact Bool.false_ne_true bits.symm
  · have bits := pick (2 ^ j)
    rw [decide_eq_false inside, decide_eq_true (apart.2 (by omega)), Nat.testBit_two_pow_self, Bool.false_and] at bits
    exact Bool.false_ne_true bits

theorem bitsel_leaks (sound : Operation.bitsel.Noninterfering r s t) :
    Operation.bitsel.FlagsSuffice r s t := by
  intro i j small small' same
  have agreeS : (s.withValue i).Agree (s.withValue j) := by
    refine agree_withValue fun k inside defined => ?_
    by_cases low : k < 32
    · exact same k inside low defined
    · have high : 2 ^ min s.width 32 ≤ 2 ^ k := Nat.pow_le_pow_right (by decide) (by omega)
      rw [Nat.testBit_lt_two_pow (small.trans_le high), Nat.testBit_lt_two_pow (small'.trans_le high)]
  by_cases flag : r.getUndefinedBit i = true
  · by_cases flag' : r.getUndefinedBit j = true
    · exact .inr (.inr ⟨flag, flag'⟩)
    · rcases bitsel_leaks_of_unflagged sound small' small agreeS.symm (Bool.eq_false_iff.mpr flag') with eq | outside
      · exact .inl eq.symm
      · exact .inr (.inl outside.symm)
  · exact (bitsel_leaks_of_unflagged sound small small' agreeS (Bool.eq_false_iff.mpr flag)).imp_right .inl

theorem flagsSuffice_of_noninterfering (sized : op.WellSized r s t) (sound : op.Noninterfering r s t) :
    op.FlagsSuffice r s t := by
  cases op with
  | increment => exact increment_leaks sound
  | plus => exact plus_leaks sized sound
  | minus => exact minus_leaks sized sound
  | mul => exact mul_leaks false sized.1 sized.2 sound fun _ _ => rfl
  | smul => exact mul_leaks true sized.1 sized.2 sound fun _ _ => rfl
  | div =>
      exact div_leaks false (fun x y => x / y) (fun _ => BitVec.zero_udiv) (fun _ => BitVec.udiv_zero)
        (fun x ne => BitVec.udiv_self.trans (if_neg (by simpa using ne))) sized.1 sized.2 sound fun _ _ _ => rfl
  | sdiv =>
      refine div_leaks true BitVec.sdiv (fun _ => BitVec.zero_sdiv) (fun _ => BitVec.sdiv_zero)
        (fun x ne => BitVec.sdiv_self.trans (if_neg (by simpa using ne))) sized.1 sized.2 sound fun r' s' safe => ?_
      refine if_neg ?_
      rintro ⟨least, minusOne⟩
      rw [least, minusOne] at safe
      revert safe
      decide
  | bitsel => exact bitsel_leaks sound
  | shiftLeft => exact shiftLeft_leaks sized sound
  | shiftRight signed =>
      have pos := t.width_pos
      cases signed with
      | false => exact shiftRight_leaks sized sound (p := t.width - 1) (by omega) (by omega) nofun
      | true =>
          have sign := shiftRight_sign_leaks sized sound
          refine ⟨sign, ?_⟩
          have same : r.width = t.width := sized
          by_cases one : r.width = 1
          · exact .inl one
          · exact .inr (shiftRight_leaks sized sound (p := t.width - 2) (by omega) ⟨by omega, by simp⟩ fun _ =>
              ⟨by omega, same ▸ sign⟩)
  | rotateLeft =>
      refine rotate_leaks (fun a I => if a ≤ I then I - a else I + r.width - a) sized (fun _ _ => rfl)
        (fun p inside => ?_) (fun a p small inside => ?_) sound
      · rw [if_pos (Nat.zero_le p), Nat.sub_zero]
      · split <;> omega
  | rotateRight =>
      refine rotate_leaks (fun a I => (I + a) % r.width) sized (fun _ _ => rfl)
        (fun p inside => Nat.mod_eq_of_lt inside) (fun a p small inside => ⟨Nat.mod_lt _ r.width_pos, ?_⟩) sound
      intro eq
      by_cases wraps : p + a < r.width
      · rw [Nat.mod_eq_of_lt wraps] at eq
        omega
      · rw [Nat.mod_eq_sub_mod (by omega), Nat.mod_eq_of_lt (by omega)] at eq
        omega
  | cast signed =>
      cases signed with
      | false => trivial
      | true => exact cast_leaks sound
  | _ => trivial

/-- The flags of an operation's result are sound for exactly these flags of its inputs. -/
theorem noninterfering_iff (op : Operation) (r s t : BitVector) (sized : op.WellSized r s t) :
    op.Noninterfering r s t ↔ op.FlagsSuffice r s t := by
  constructor
  · exact flagsSuffice_of_noninterfering sized
  · intro suffice r₁ r₂ s₁ s₂ marksR agreeR marksS agreeS a b first second i below unflagged
    exact apply_agree (sized.of_sameMarks marksR marksS) (suffice.of_sameMarks marksR marksS) agreeR agreeS first second
      below unflagged

/-- A difference of bytes of which only the top bit is not defined. -/
theorem minus_noninterfering :
    let r : BitVector := ⟨8, [0], [128], rfl, rfl, by decide⟩
    Operation.minus.Noninterfering r r r := by
  have low : ∀ i < 7, bitAt [(128 : Byte)] i = false := by decide
  refine (noninterfering_iff .minus _ _ _ ⟨rfl, rfl⟩).mpr fun i j less below flag => ?_
  change j < 8 at below
  change (bitAt [(128 : Byte)] i || bitAt [(128 : Byte)] i) = true at flag
  rw [low i (by omega)] at flag
  exact absurd flag (by decide)

/-- A factor that is not defined in its lowest bit: the product is defined and differs. -/
theorem mul_not_noninterfering :
    let r : BitVector := ⟨8, [0], [1], rfl, rfl, by decide⟩
    let s : BitVector := ⟨8, [1], [0], rfl, rfl, by decide⟩
    (r.withValue 0).Agree (r.withValue 1) ∧
      (BitVector.mul (r.withValue 0) s s).undefinedBytes = [0] ∧ (BitVector.mul (r.withValue 0) s s).bytes = [0] ∧
      (BitVector.mul (r.withValue 1) s s).undefinedBytes = [0] ∧ (BitVector.mul (r.withValue 1) s s).bytes = [1] ∧
      ¬ ∀ (op : Operation) (r s t : BitVector), op.WellSized r s t → op.Noninterfering r s t := by
  intro r s
  have agree : (r.withValue 0).Agree (r.withValue 1) := agree_withValue_pow (i := 0) (by decide)
  have flags : (BitVector.mul (r.withValue 0) s s).undefinedBytes = [0] := by decide +kernel
  have bytes : (BitVector.mul (r.withValue 0) s s).bytes = [0] := by decide +kernel
  have bytes' : (BitVector.mul (r.withValue 1) s s).bytes = [1] := by decide +kernel
  refine ⟨agree, flags, bytes, by decide +kernel, bytes', fun noninterfering => ?_⟩
  have bits := noninterfering .mul r s s ⟨rfl, rfl⟩ _ _ s s (sameMarks_withValue r 0) agree ⟨rfl, rfl⟩ (Agree.refl s) _ _ rfl rfl
    0 (BitVector.width_pos _) (by rw [undefinedBit, flags]; decide)
  rw [BitVector.bit, BitVector.bit, bytes, bytes'] at bits
  exact absurd bits (by decide)

end Operation
end Ahir.BitVectors
