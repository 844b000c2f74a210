import Ahir.Value.Storage

/-!
# Comparison of values

`Greater` looks for the top bit in which two values differ; the other comparisons
call it.  `Signed` has its own, which look at the signs first.
-/

set_option autoImplicit false

namespace Ahir.Value
open Ahir.Data

namespace Unsigned

/-- The loop of `Greater` over the bits below `idx`: `ret_val` and `equal`. -/
def greaterLoop (a b : Unsigned) : Nat → Bool × Bool
  | 0 => (true, true)
  | idx + 1 =>
      if !a.getBit idx && b.getBit idx then (false, false)
      else if a.getBit idx && !b.getBit idx then (true, false)
      else greaterLoop a b idx

def greater (a b : Unsigned) : Bool :=
  let (retVal, equal) := greaterLoop a b a.width
  retVal && !equal

def lessThan (a b : Unsigned) : Bool := b.greater a
def greaterEqual (a b : Unsigned) : Bool := a.greater b && !b.greater a
def lessEqual (a b : Unsigned) : Bool := a.lessThan b && !a.greater b
def equal (a b : Unsigned) : Bool := !a.greater b && !a.lessThan b

/-- `Is_Negative` of the class of the object. -/
def isNegative (v : Unsigned) : Bool :=
  match v.kind with
  | .unsigned => false
  | .signed => v.getBit (v.width - 1)

end Unsigned

namespace Signed

def greater (a other : Unsigned) : Bool :=
  if a.isNegative && !other.isNegative then false
  else if !a.isNegative && other.isNegative then true
  else if a.isNegative then Unsigned.greater other a
  else Unsigned.greater a other

def lessThan (a b : Unsigned) : Bool := greater b a
def greaterEqual (a b : Unsigned) : Bool := greater a b && !greater b a
def lessEqual (a b : Unsigned) : Bool := lessThan a b && !greater a b

end Signed

structure Comparison where
  greater : Bool
  lessThan : Bool
  equal : Bool
  greaterEqual : Bool
  lessEqual : Bool
  deriving DecidableEq

/-- The comparisons of the class of `a`; `Equal` is that of `Unsigned` for both. -/
def Unsigned.comparison (a b : Unsigned) : Comparison :=
  match a.kind with
  | .unsigned => ⟨a.greater b, a.lessThan b, a.equal b, a.greaterEqual b, a.lessEqual b⟩
  | .signed =>
      ⟨Signed.greater a b, Signed.lessThan a b, a.equal b, Signed.greaterEqual a b,
        Signed.lessEqual a b⟩

namespace Comparison

/-- The answers for two integers under their order: each comparison says what it is
named after, one of less, equal and greater holds, and the other two follow. -/
structure Ordered (c : Comparison) (x y : Int) : Prop where
  less_iff : c.lessThan = true ↔ x < y
  equal_iff : c.equal = true ↔ x = y
  greater_iff : c.greater = true ↔ x > y
  exactlyOne : (c.lessThan.toNat + c.equal.toNat + c.greater.toNat) = 1
  greaterEqual_iff : c.greaterEqual = true ↔ ¬ c.lessThan = true
  lessEqual_iff : c.lessEqual = true ↔ ¬ c.greater = true

/-- If each of two neighbours is greater, then the first is greater than the last; and so
for the other four. -/
def Transitive (ab bc ac : Comparison) : Prop :=
  (ab.greater = true → bc.greater = true → ac.greater = true) ∧
  (ab.lessThan = true → bc.lessThan = true → ac.lessThan = true) ∧
  (ab.equal = true → bc.equal = true → ac.equal = true) ∧
  (ab.greaterEqual = true → bc.greaterEqual = true → ac.greaterEqual = true) ∧
  (ab.lessEqual = true → bc.lessEqual = true → ac.lessEqual = true)

end Comparison

namespace Unsigned
variable (a b c : Unsigned)

theorem greaterLoop_iff (n : Nat) :
    ((greaterLoop a b n).1 && !(greaterLoop a b n).2) =
      decide ((b.residue n).toNat < (a.residue n).toNat) := by
  induction n with
  | zero => simp [greaterLoop, Subsingleton.elim (a.residue 0) (b.residue 0)]
  | succ n ih =>
      have ha := (a.residue n).isLt
      have hb := (b.residue n).isLt
      unfold residue at ih ha hb ⊢
      rw [toNat_lowBits_succ, toNat_lowBits_succ, greaterLoop]
      cases bitA : a.getBit n <;> cases bitB : b.getBit n
      · simpa using ih
      · simp
        omega
      · simp
        omega
      · simpa using ih

/-- `Greater` of the class `Unsigned` compares the residues, whatever the class of the objects. -/
theorem greater_eq (same : a.width = b.width) :
    a.greater b = decide ((b.residue b.width).toNat < (a.residue a.width).toNat) := by
  unfold greater
  rw [← same]
  exact greaterLoop_iff a b a.width

theorem equal_eq (same : a.width = b.width) :
    a.equal b = decide ((a.residue a.width).toNat = (b.residue b.width).toNat) := by
  unfold equal lessThan
  rw [greater_eq a b same, greater_eq b a same.symm]
  by_cases eq : (a.residue a.width).toNat = (b.residue b.width).toNat
  · simp [eq]
  · rw [decide_eq_false eq]
    rcases Nat.lt_or_gt_of_ne eq with less | greater
    · rw [decide_eq_true less, Bool.not_true, Bool.and_false]
    · rw [decide_eq_true greater, Bool.not_true, Bool.false_and]

theorem isNegative_iff_two_mul (v : Unsigned) (signed : v.kind = .signed) :
    v.isNegative = true ↔ 2 ^ v.width ≤ 2 * (v.residue v.width).toNat := by
  have sign := BitVec.msb_eq_true_iff_two_mul_ge (x := v.residue v.width)
  unfold isNegative
  rw [signed, ← v.msb_residue]
  exact sign

theorem number_eq (v : Unsigned) :
    v.number = (v.residue v.width).toNat - if v.isNegative then (2 ^ v.width : Nat) else 0 := by
  unfold number
  cases kind : v.kind with
  | unsigned => simp [isNegative, kind]
  | signed =>
      have sign := v.isNegative_iff_two_mul kind
      dsimp only
      rw [BitVec.toInt_eq_toNat_cond]
      by_cases negative : v.isNegative = true
      · rw [if_neg (by have := sign.mp negative; omega), if_pos negative]
      · rw [if_pos (by have := mt sign.mpr negative; omega), if_neg negative]
        exact (Int.sub_zero _).symm

theorem isNegative_iff (v : Unsigned) : v.isNegative = true ↔ v.number < 0 := by
  have bound := (v.residue v.width).isLt
  rw [number_eq]
  cases v.isNegative with
  | true => simp only [if_true, true_iff]; omega
  | false => simp only [Bool.false_eq_true, if_false, false_iff]; omega

end Unsigned

/-- The order that `Greater` follows: negative integers stand the other way round. -/
def Outranks (x y : Int) : Prop := if x < 0 ∧ y < 0 then x < y else y < x

instance (x y : Int) : Decidable (Outranks x y) := by
  unfold Outranks
  infer_instance

theorem Outranks.asymm {x y : Int} (outranks : Outranks x y) : ¬ Outranks y x := by
  unfold Outranks at *
  split at outranks <;> split <;> omega

theorem Outranks.trans {x y z : Int} (first : Outranks x y) (second : Outranks y z) :
    Outranks x z := by
  unfold Outranks at *
  split at first <;> split at second <;> split <;> omega

namespace Unsigned
variable {a b : Unsigned}

theorem outranks_of_not_both {x y : Int} (notBoth : ¬ (x < 0 ∧ y < 0)) : Outranks x y ↔ y < x := by
  unfold Outranks
  rw [if_neg notBoth]

theorem outranks_of_both {x y : Int} (both : x < 0 ∧ y < 0) : Outranks x y ↔ x < y := by
  unfold Outranks
  rw [if_pos both]

theorem number_lt_iff (sameWidth : a.width = b.width) (sameSign : a.isNegative = b.isNegative) :
    a.number < b.number ↔ (a.residue a.width).toNat < (b.residue b.width).toNat := by
  rw [number_eq, number_eq, sameSign, sameWidth]
  omega

theorem signedGreater_iff (sameWidth : a.width = b.width) :
    Signed.greater a b = true ↔ Outranks a.number b.number := by
  have negA := a.isNegative_iff
  have negB := b.isNegative_iff
  unfold Signed.greater
  rw [a.greater_eq b sameWidth, b.greater_eq a sameWidth.symm]
  cases signA : a.isNegative <;> cases signB : b.isNegative <;> rw [signA] at negA <;> rw [signB] at negB
  · have order := number_lt_iff sameWidth.symm (signB.trans signA.symm)
    rw [outranks_of_not_both (by simp only [← negA, false_and, reduceCtorEq, not_false_eq_true])]
    simpa using order.symm
  · rw [outranks_of_not_both (by simp [← negA])]
    simp at negA negB ⊢
    omega
  · rw [outranks_of_not_both (by simp [← negB])]
    simp at negA negB ⊢
    omega
  · have order := number_lt_iff sameWidth (signA.trans signB.symm)
    rw [outranks_of_both ⟨negA.mp rfl, negB.mp rfl⟩]
    simpa using order.symm

theorem greater_comparison_iff (sameKind : a.kind = b.kind) (sameWidth : a.width = b.width) :
    (a.comparison b).greater = true ↔ Outranks a.number b.number := by
  unfold comparison
  cases kind : a.kind with
  | signed => exact signedGreater_iff sameWidth
  | unsigned =>
      have plusA : a.isNegative = false := by rw [isNegative, kind]
      have plusB : b.isNegative = false := by rw [isNegative, ← sameKind, kind]
      have nonneg := mt a.isNegative_iff.mpr (Bool.eq_false_iff.mp plusA)
      rw [outranks_of_not_both fun both => nonneg both.1,
        number_lt_iff sameWidth.symm (plusB.trans plusA.symm)]
      dsimp only
      rw [a.greater_eq b sameWidth, decide_eq_true_iff]

theorem isNegative_congr (sameKind : a.kind = b.kind) (sameWidth : a.width = b.width)
    (same : (a.residue a.width).toNat = (b.residue b.width).toNat) : a.isNegative = b.isNegative := by
  cases kind : a.kind with
  | unsigned =>
      unfold isNegative
      rw [← sameKind, kind]
  | signed =>
      rw [Bool.eq_iff_iff, a.isNegative_iff_two_mul kind,
        b.isNegative_iff_two_mul (sameKind.symm.trans kind), same, sameWidth]

theorem number_inj (sameKind : a.kind = b.kind) (sameWidth : a.width = b.width) :
    a.number = b.number ↔ (a.residue a.width).toNat = (b.residue b.width).toNat := by
  constructor
  · intro eq
    have sign : a.isNegative = b.isNegative := by
      rw [Bool.eq_iff_iff, a.isNegative_iff, b.isNegative_iff, eq]
    rw [number_eq, number_eq, sign, sameWidth] at eq
    rw [sameWidth]
    omega
  · intro eq
    rw [number_eq, number_eq, isNegative_congr sameKind sameWidth eq, eq, sameWidth]

theorem comparison_of_greater (sameKind : a.kind = b.kind) :
    a.comparison b =
      ⟨(a.comparison b).greater, (b.comparison a).greater, a.equal b,
        (a.comparison b).greater && !(b.comparison a).greater,
        (b.comparison a).greater && !(a.comparison b).greater⟩ := by
  unfold comparison
  rw [← sameKind]
  cases a.kind <;> rfl

theorem comparison_eq (sameKind : a.kind = b.kind) (sameWidth : a.width = b.width) :
    a.comparison b =
      ⟨Outranks a.number b.number, Outranks b.number a.number, a.number = b.number,
        Outranks a.number b.number, Outranks b.number a.number⟩ := by
  have greater : (a.comparison b).greater = decide (Outranks a.number b.number) := by
    rw [Bool.eq_iff_iff, greater_comparison_iff sameKind sameWidth, decide_eq_true_iff]
  have less : (b.comparison a).greater = decide (Outranks b.number a.number) := by
    rw [Bool.eq_iff_iff, greater_comparison_iff sameKind.symm sameWidth.symm, decide_eq_true_iff]
  have equal : a.equal b = decide (a.number = b.number) := by
    rw [a.equal_eq b sameWidth, decide_eq_decide, number_inj sameKind sameWidth]
  rw [comparison_of_greater sameKind, greater, less, equal]
  have asymm := Outranks.asymm (x := a.number) (y := b.number)
  by_cases first : Outranks a.number b.number
  · rw [decide_eq_true first, decide_eq_false (asymm first), Bool.not_false, Bool.and_true, Bool.not_true,
      Bool.and_false]
  · rw [decide_eq_false first, Bool.not_false, Bool.and_true, Bool.false_and]

end Unsigned

namespace Comparison

/-- The answers are those of the order just when the integers differ and are not both
negative. -/
theorem ordered_iff (x y : Int) :
    Ordered ⟨Outranks x y, Outranks y x, x = y, Outranks x y, Outranks y x⟩ x y ↔
      x ≠ y ∧ ¬ (x < 0 ∧ y < 0) := by
  constructor
  · intro ordered
    have less := ordered.less_iff
    have notLess := ordered.greaterEqual_iff
    simp only [decide_eq_true_iff] at less notLess
    refine ⟨fun eq => ?_, fun both => ?_⟩
    · subst eq
      exact absurd (notLess.mpr (by rw [less]; omega)) (by rw [less]; omega)
    · rw [Unsigned.outranks_of_both ⟨both.2, both.1⟩] at less
      rw [Unsigned.outranks_of_both both, Unsigned.outranks_of_both ⟨both.2, both.1⟩] at notLess
      omega
  · rintro ⟨ne, notBoth⟩
    have greater := Unsigned.outranks_of_not_both notBoth
    have less := Unsigned.outranks_of_not_both fun both => notBoth ⟨both.2, both.1⟩
    refine ⟨?_, ?_, ?_, ?_, ?_, ?_⟩ <;> simp only [decide_eq_true_iff, greater, less]
    · rcases Int.lt_or_gt_of_ne ne with lt | gt
      · rw [decide_eq_true lt, decide_eq_false ne, decide_eq_false (Int.lt_asymm lt)]
        rfl
      · rw [decide_eq_true gt, decide_eq_false ne, decide_eq_false (Int.lt_asymm gt)]
        rfl
    · omega
    · omega

end Comparison

/-- The comparisons of a class agree with the order of the integers on just those pairs
that differ and are not both negative; and they are transitive over any third value. -/
theorem Unsigned.comparison_ordered (a b : Unsigned) (sameKind : a.kind = b.kind)
    (sameWidth : a.width = b.width) :
    ((a.comparison b).Ordered a.number b.number ∧
        ∀ c : Unsigned, b.kind = c.kind → b.width = c.width →
          Comparison.Transitive (a.comparison b) (b.comparison c) (a.comparison c)) ↔
      a.number ≠ b.number ∧ ¬ (a.number < 0 ∧ b.number < 0) := by
  rw [comparison_eq sameKind sameWidth, Comparison.ordered_iff, and_iff_left_iff_imp]
  intro _ c sameKind' sameWidth'
  rw [comparison_eq sameKind' sameWidth', comparison_eq (sameKind.trans sameKind') (sameWidth.trans sameWidth')]
  simp only [Comparison.Transitive, decide_eq_true_iff]
  exact ⟨Outranks.trans, fun first second => Outranks.trans second first, Eq.trans, Outranks.trans,
    fun first second => Outranks.trans second first⟩

theorem Unsigned.comparison_ordered_byte :
    let two : Unsigned := ⟨.signed, 8, [2], rfl, by decide⟩
    let minusOne : Unsigned := ⟨.signed, 8, [255], rfl, by decide⟩
    (two.comparison minusOne).Ordered two.number minusOne.number :=
  ((Unsigned.comparison_ordered ⟨.signed, 8, [2], rfl, by decide⟩ ⟨.signed, 8, [255], rfl, by decide⟩
    rfl rfl).mpr (by decide)).1

/-- `5 >= 5` is denied to be, and of `-1` and `-2` the smaller is said to be greater. -/
theorem Unsigned.comparison_not_ordered :
    let five : Unsigned := ⟨.unsigned, 8, [5], rfl, by decide⟩
    let minusOne : Unsigned := ⟨.signed, 8, [255], rfl, by decide⟩
    let minusTwo : Unsigned := ⟨.signed, 8, [254], rfl, by decide⟩
    ((five.comparison five).greaterEqual = false ∧ ¬ (five.comparison five).Ordered five.number five.number) ∧
      (minusTwo.comparison minusOne).greater = true ∧ minusTwo.number = -2 ∧ minusOne.number = -1 ∧
      ¬ (minusTwo.comparison minusOne).Ordered minusTwo.number minusOne.number := by
  refine ⟨⟨by decide, fun ordered => ?_⟩, by decide, by decide, by decide, fun ordered => ?_⟩
  · exact absurd (ordered.greaterEqual_iff.mpr (by decide)) (by decide)
  · exact absurd (ordered.greater_iff.mp (by decide)) (by decide)

end Ahir.Value
