import Ahir.Aa.FoldedOperations
import Ahir.Aa.Aa2VC

/-!
# The two generators

Operation by operation, and then for whole expressions, the C statements leave the value that
the operators of the virtual circuit have.
-/

set_option autoImplicit false

namespace Ahir.Aa.BackEnds
open Ahir.Value (Unsigned)

section Operations
variable {m n : Nat}

theorem foldl_or (l : List Nat) (f : Nat → Bool) (start : Bool) :
    l.foldl (fun result i => result || f i) start = (start || (l.filter f).length != 0) := by
  induction l generalizing start with
  | nil => cases start <;> rfl
  | cons i l ih =>
      rw [List.foldl_cons, ih]
      by_cases isSet : f i = true
      · rw [isSet, List.filter_cons_of_pos isSet, List.length_cons, Bool.or_true, Bool.true_or]
        cases start <;> rfl
      · rw [Bool.eq_false_iff.mpr isSet, Bool.or_false, List.filter_cons_of_neg isSet]

theorem foldl_and (l : List Nat) (f : Nat → Bool) (start : Bool) :
    l.foldl (fun result i => result && f i) start = (start && (l.filter f).length == l.length) := by
  induction l generalizing start with
  | nil => cases start <;> rfl
  | cons i l ih =>
      rw [List.foldl_cons, ih]
      by_cases isSet : f i = true
      · rw [isSet, List.filter_cons_of_pos isSet, List.length_cons, List.length_cons, Bool.and_true]
        cases start <;> simp
      · have less := List.length_filter_le f l
        have ne : ((l.filter f).length == l.length + 1) = false := beq_false_of_ne (by omega)
        rw [Bool.eq_false_iff.mpr isSet, Bool.and_false, Bool.false_and, List.filter_cons_of_neg isSet, List.length_cons, ne,
          Bool.and_false]

theorem foldl_xor (l : List Nat) (f : Nat → Bool) (start : Bool) :
    l.foldl (fun result i => xor result (f i)) start = xor start ((l.filter f).length % 2 == 1) := by
  induction l generalizing start with
  | nil => cases start <;> rfl
  | cons i l ih =>
      rw [List.foldl_cons, ih]
      by_cases isSet : f i = true
      · rw [isSet, List.filter_cons_of_pos isSet, List.length_cons]
        rcases Nat.mod_two_eq_zero_or_one (l.filter f).length with even | odd
        · rw [even, Nat.add_mod, even]
          cases start <;> rfl
        · rw [odd, Nat.add_mod, odd]
          cases start <;> rfl
      · rw [Bool.eq_false_iff.mpr isSet, List.filter_cons_of_neg isSet, Bool.xor_false]

theorem decode_eq (x : BitVec n) : BitVec.ofNat (2 ^ n) (2 ^ x.toNat) = Hardware.Subprograms.genericDecode x := by
  refine BitVec.eq_of_getLsbD_eq fun i below => ?_
  rw [Hardware.Subprograms.getLsbD_genericDecode x below, BitVec.getLsbD_ofNat, Nat.testBit_two_pow, decide_eq_true below,
    Bool.true_and]
  exact decide_eq_decide.mpr eq_comm

theorem unary_agrees {s t : IntegerType} {op : UnaryOperation} (types : op.Types s t) (x : BitVec s.width) :
    (printCUnaryOperation op).result t.width x = (writeVcUnaryOperator op).result t.width x := by
  cases types with
  | not t => exact (BitVec.setWidth_eq _).trans (congrArg _ (BitVec.setWidth_eq x).symm)
  | priorityEncode t => rfl
  | decode n => exact (decode_eq x).trans (BitVec.setWidth_eq _).symm
  | encode n => rfl
  | bitreduceOr t => exact congrArg (fun b => (BitVec.ofBool b).setWidth 1) (foldl_or _ _ false).symm
  | bitreduceAnd t =>
      have all := foldl_and (List.range s.width) x.getLsbD true
      rw [List.length_range] at all
      exact congrArg (fun b => (BitVec.ofBool b).setWidth 1) all.symm
  | bitreduceXor t =>
      have parity := foldl_xor (List.range s.width) x.getLsbD false
      rw [Bool.false_xor] at parity
      exact congrArg (fun b => (BitVec.ofBool b).setWidth 1) parity.symm

theorem conversion_agrees (s t : IntegerType) (bitCast : Bool) (x : BitVec s.width) :
    (printCTypeCastOperation bitCast t).result t.width x = (writeVcConversion s t bitCast).result t.width x := by
  unfold printCTypeCastOperation writeVcConversion
  cases bitCast with
  | true => rfl
  | false =>
      simp only [Bool.false_or, Bool.or_eq_true, decide_eq_true_eq, Bool.and_eq_true, Bool.not_eq_true', Bool.false_eq_true,
        if_false]
      by_cases same : t = s
      · subst same
        rw [if_pos (Or.inl rfl)]
        simp only [CUnary.result, VcUnaryOperator.result, VcUnaryOperator.vhdlOpId, pad, BitVec.ofInt_toInt, BitVec.ofNat_toNat,
          BitVec.setWidth_eq, ite_self]
      · cases signedTarget : t.isSigned with
        | true =>
            rw [if_neg (by simp [same])]
            cases s.isSigned <;> rfl
        | false =>
            cases s.isSigned with
            | true =>
                rw [if_neg (by simp [same])]
                exact BitVec.ofNat_toNat _ x
            | false =>
                rw [if_pos (Or.inr ⟨rfl, rfl⟩)]
                exact BitVec.ofNat_toNat _ x

theorem interlock_agrees {s t : IntegerType} (bitCast : Bool) (plain : (!t.isSigned || t.width == s.width) = true)
    (x : BitVec s.width) : (printCTypeCastOperation bitCast t).result t.width x = pad t.width x := by
  obtain ⟨signed, w⟩ := t
  cases bitCast with
  | true => rfl
  | false =>
      cases signed with
      | false => exact BitVec.ofNat_toNat _ x
      | true =>
          obtain rfl : w = s.width := eq_of_beq plain
          exact (BitVec.ofInt_toInt).trans (BitVec.setWidth_eq x).symm

theorem product_eq (x y : BitVec n) : (x.setWidth (n + n) * y.setWidth (n + n)).setWidth n = x * y := by
  rw [BitVec.setWidth_mul _ _ (Nat.le_add_right n n), BitVec.setWidth_setWidth_of_le _ (Nat.le_add_right n n),
    BitVec.setWidth_setWidth_of_le _ (Nat.le_add_right n n), BitVec.setWidth_eq, BitVec.setWidth_eq]

/-- But for the rotation to the left, one function is called, and it agrees with the procedure. -/
theorem binary_agrees {s t u : IntegerType} {op : BinaryOperation} (types : op.Types s t u) (notRol : op ≠ .rol) :
    ∃ f, printCBinaryOperation s op = [f] ∧ ∀ (x : BitVec s.width) (y : BitVec t.width),
      f.result u.width x y = (writeVcBinaryOperator s u op).result u.width x y := by
  cases types with
  | concat m n => exact ⟨_, rfl, fun _ _ => rfl⟩
  | bitsel s t => exact ⟨_, rfl, fun _ _ => rfl⟩
  | compare isCompare t =>
      cases op with
      | equal => exact ⟨_, rfl, fun x y => by
          simp only [CBinary.result, writeVcBinaryOperator, VcBinaryOperator.result, VcBinaryOperator.vhdlOpId,
            BinaryProcedure.result, equal_eq, BitVec.setWidth_eq]⟩
      | notEqual => exact ⟨_, rfl, fun x y => by
          simp only [CBinary.result, writeVcBinaryOperator, VcBinaryOperator.result, VcBinaryOperator.vhdlOpId,
            BinaryProcedure.result, bne, equal_eq, BitVec.setWidth_eq]⟩
      | less => exact ⟨_, rfl, fun x y => by
          simp only [CBinary.result, writeVcBinaryOperator, less_eq]
          cases s.isSigned <;> simp only [VcBinaryOperator.result, VcBinaryOperator.vhdlOpId, BinaryProcedure.result,
            BitVec.setWidth_eq, if_true, Bool.false_eq_true, if_false]⟩
      | lessEqual => exact ⟨_, rfl, fun x y => by
          simp only [CBinary.result, writeVcBinaryOperator, lessEqual_eq]
          cases s.isSigned <;> simp only [VcBinaryOperator.result, VcBinaryOperator.vhdlOpId, BinaryProcedure.result,
            BitVec.setWidth_eq, if_true, Bool.false_eq_true, if_false]⟩
      | greater => exact ⟨_, rfl, fun x y => by
          simp only [CBinary.result, writeVcBinaryOperator, gt_iff_lt, less_eq]
          cases s.isSigned <;> simp only [VcBinaryOperator.result, VcBinaryOperator.vhdlOpId, BinaryProcedure.result,
            BitVec.setWidth_eq, if_true, Bool.false_eq_true, if_false]⟩
      | greaterEqual => exact ⟨_, rfl, fun x y => by
          simp only [CBinary.result, writeVcBinaryOperator, ge_iff_le, lessEqual_eq]
          cases s.isSigned <;> simp only [VcBinaryOperator.result, VcBinaryOperator.vhdlOpId, BinaryProcedure.result,
            BitVec.setWidth_eq, if_true, Bool.false_eq_true, if_false]⟩
      | _ => exact absurd isCompare Bool.false_ne_true
  | same isSame t =>
      cases op with
      | or => exact ⟨_, rfl, fun _ _ => rfl⟩
      | and => exact ⟨_, rfl, fun _ _ => rfl⟩
      | xor => exact ⟨_, rfl, fun _ _ => rfl⟩
      | nor => exact ⟨_, rfl, fun _ _ => rfl⟩
      | nand => exact ⟨_, rfl, fun _ _ => rfl⟩
      | xnor => exact ⟨_, rfl, fun _ _ => rfl⟩
      | shl => exact ⟨_, rfl, fun _ _ => rfl⟩
      | ror => exact ⟨_, rfl, fun _ _ => rfl⟩
      | rol => exact absurd rfl notRol
      | shr => exact ⟨_, rfl, fun x y => by
          simp only [CBinary.result, writeVcBinaryOperator, shiftRight_eq]
          cases s.isSigned <;> exact (BitVec.setWidth_eq _).symm⟩
      | plus => exact ⟨_, rfl, fun x y => by
          simp only [CBinary.result, writeVcBinaryOperator, VcBinaryOperator.result, VcBinaryOperator.vhdlOpId,
            BinaryProcedure.result, BitVec.ofNat_add, BitVec.ofNat_toNat]⟩
      | minus => exact ⟨_, rfl, fun x y => by
          simp only [CBinary.result, writeVcBinaryOperator, VcBinaryOperator.result, VcBinaryOperator.vhdlOpId,
            BinaryProcedure.result, difference_eq, BitVec.setWidth_eq]⟩
      | mul => exact ⟨_, rfl, fun x y => by
          simp only [writeVcBinaryOperator, VcBinaryOperator.result, VcBinaryOperator.vhdlOpId, BinaryProcedure.result, product_eq,
            ← mul_eq s.isSigned x y]
          cases s.isSigned <;> rfl⟩
      | _ => simp [BinaryOperation.isCompare] at isSame

theorem slice_eq (width lowIndex : Nat) (x : BitVec m) :
    (x.extractLsb' lowIndex (width + lowIndex - 1 + 1 - lowIndex)).setWidth width = x.extractLsb' lowIndex width := by
  refine BitVec.eq_of_getLsbD_eq fun i below => ?_
  have inner : i < width + lowIndex - 1 + 1 - lowIndex := by omega
  rw [BitVec.getLsbD_setWidth, BitVec.getLsbD_extractLsb', BitVec.getLsbD_extractLsb', decide_eq_true below,
    decide_eq_true inner, Bool.true_and]

/-- A test of one bit is true in C when its bit is set. -/
theorem cTrue_eq (signed : Bool) {x : BitVec m} (narrow : m ≤ 1) : cTrue signed x = x.getLsbD 0 := by
  rcases Nat.le_one_iff_eq_zero_or_eq_one.mp narrow with rfl | rfl
  · obtain rfl : x = 0#0 := BitVec.of_length_zero
    cases signed <;> rfl
  · rcases BitVec.eq_zero_or_eq_one x with rfl | rfl
    · cases signed <;> rfl
    · cases signed <;> rfl

end Operations

def Form.Agrees : Form → Prop
  | .binary op => op ≠ .rol
  | .ternary testWidth => testWidth ≤ 1
  | .folded operation => operation.Typed → operation.Safe
  | _ => True

section Folded
variable {t : IntegerType}

theorem value_of_evaluate (flags : Flags) {e : AaExpression t} {v : Unsigned} (evaluated : e.evaluate = .value v)
    (objects : Assignment) : (writeVc flags e).value objects = v.residue t.width := by
  cases e with
  | reference t name => cases evaluated
  | constant u => rw [Evaluation.value.inj evaluated]; rfl
  | _ =>
      rw [writeVc]
      simp only [evaluated]
      rfl

/-- The evaluation of an expression does not end the program, and its operators have the value that
the C functions give. -/
structure AaExpression.Alike (e : AaExpression t) : Prop where
  evaluated : e.evaluate ≠ .failed
  value : ∀ flags objects, (writeVc flags e).value objects = e.cMeaning objects

theorem AaExpression.Alike.cMeaning_eq {e : AaExpression t} (alike : e.Alike) {v : Unsigned}
    (evaluated : e.evaluate = .value v) (objects : Assignment) : e.cMeaning objects = v.residue t.width :=
  (alike.value ⟨fun _ => false, fun _ => false⟩ objects).symm.trans (value_of_evaluate _ evaluated objects)

/-- What is done with constants only is done as the C functions do it, where that is safe. -/
theorem alike_of_folded (o : ConstantOperation) {e : AaExpression o.target} (evaluated : e.evaluate = .ofOption o.perform)
    (meaning : ∀ objects, e.cMeaning objects = o.cResult) (typed : o.Typed) (safe : o.Typed → o.Safe) : e.Alike := by
  obtain ⟨r, performed, result⟩ := (ConstantOperation.performs_iff typed).mpr (safe typed)
  rw [performed] at evaluated
  refine ⟨fun failed => ?_, fun flags objects => ?_⟩
  · exact Evaluation.noConfusion (evaluated.symm.trans failed)
  · rw [value_of_evaluate flags evaluated, meaning, ← result]

theorem alike_of_notConstant {e : AaExpression t} (evaluated : e.evaluate = .notConstant)
    (value : ∀ flags objects, (writeVc flags e).value objects = e.cMeaning objects) : e.Alike :=
  ⟨fun failed => Evaluation.noConfusion (evaluated.symm.trans failed), value⟩

end Folded

section Forms
variable {s t u : IntegerType} {rest : AaExpression s}

theorem alike_typeCast (bitCast : Bool) (alike : rest.Alike) (uses : (AaExpression.typeCast bitCast t rest).Uses Form.Agrees) :
    (AaExpression.typeCast bitCast t rest).Alike := by
  have form := uses.1
  cases operand : rest.evaluate with
  | failed => exact absurd operand alike.evaluated
  | value v =>
      obtain rfl := AaExpression.typeOf_evaluate operand
      simp only [operand] at form
      have evaluated : (AaExpression.typeCast bitCast t rest).evaluate =
          .ofOption (ConstantOperation.typeCast bitCast t v).perform := by
        simp only [AaExpression.evaluate, operand]
      have meaning (objects : Assignment) :
          (AaExpression.typeCast bitCast t rest).cMeaning objects = (ConstantOperation.typeCast bitCast t v).cResult := by
        rw [AaExpression.cMeaning, alike.cMeaning_eq operand]
        rfl
      exact alike_of_folded (.typeCast bitCast t v) evaluated meaning trivial form
  | notConstant =>
      have evaluated : (AaExpression.typeCast bitCast t rest).evaluate = .notConstant := by
        simp only [AaExpression.evaluate, operand]
      refine alike_of_notConstant evaluated fun flags objects => ?_
      rw [writeVc, AaExpression.cMeaning, ← alike.value flags objects]
      simp only [evaluated, driver]
      split
      · next plain => exact (interlock_agrees bitCast (Bool.and_eq_true_iff.mp (Bool.and_eq_true_iff.mp plain).1).2 _).symm
      · exact (conversion_agrees s t bitCast _).symm

theorem alike_slice (width lowIndex : Nat) (fits : lowIndex + width ≤ s.width) (alike : rest.Alike)
    (uses : (AaExpression.slice width lowIndex fits rest).Uses Form.Agrees) :
    (AaExpression.slice width lowIndex fits rest).Alike := by
  have form := uses.1
  cases operand : rest.evaluate with
  | failed => exact absurd operand alike.evaluated
  | value v =>
      obtain rfl := AaExpression.typeOf_evaluate operand
      simp only [operand] at form
      have evaluated : (AaExpression.slice width lowIndex fits rest).evaluate =
          .ofOption (ConstantOperation.slice width lowIndex v).perform := by
        simp only [AaExpression.evaluate, operand]
      have meaning (objects : Assignment) :
          (AaExpression.slice width lowIndex fits rest).cMeaning objects =
            (ConstantOperation.slice width lowIndex v).cResult := by
        rw [AaExpression.cMeaning, alike.cMeaning_eq operand]
        rfl
      exact alike_of_folded (.slice width lowIndex v) evaluated meaning fits form
  | notConstant =>
      have evaluated : (AaExpression.slice width lowIndex fits rest).evaluate = .notConstant := by
        simp only [AaExpression.evaluate, operand]
      refine alike_of_notConstant evaluated fun flags objects => ?_
      rw [writeVc, AaExpression.cMeaning, ← alike.value flags objects]
      simp only [evaluated, driver]
      exact slice_eq width lowIndex _

theorem alike_unary {op : UnaryOperation} (types : op.Types s t) (alike : rest.Alike)
    (uses : (AaExpression.unary op types rest).Uses Form.Agrees) : (AaExpression.unary op types rest).Alike := by
  have form := uses.1
  cases operand : rest.evaluate with
  | failed => exact absurd operand alike.evaluated
  | value v =>
      obtain rfl := AaExpression.typeOf_evaluate operand
      simp only [operand] at form
      have evaluated : (AaExpression.unary op types rest).evaluate = .ofOption (ConstantOperation.unary op t v).perform := by
        simp only [AaExpression.evaluate, operand]
      have meaning (objects : Assignment) :
          (AaExpression.unary op types rest).cMeaning objects = (ConstantOperation.unary op t v).cResult := by
        rw [AaExpression.cMeaning, alike.cMeaning_eq operand]
        rfl
      exact alike_of_folded (.unary op t v) evaluated meaning types form
  | notConstant =>
      have evaluated : (AaExpression.unary op types rest).evaluate = .notConstant := by
        simp only [AaExpression.evaluate, operand]
      refine alike_of_notConstant evaluated fun flags objects => ?_
      rw [writeVc, AaExpression.cMeaning, ← alike.value flags objects]
      simp only [evaluated, driver]
      exact (unary_agrees types _).symm

theorem alike_binary {op : BinaryOperation} (types : op.Types s t u) {first : AaExpression s} {second : AaExpression t}
    (alike1 : first.Alike) (alike2 : second.Alike) (uses : (AaExpression.binary op types first second).Uses Form.Agrees) :
    (AaExpression.binary op types first second).Alike := by
  have form := uses.1
  have operators (notRol : op ≠ .rol) (evaluated : (AaExpression.binary op types first second).evaluate = .notConstant) :
      (AaExpression.binary op types first second).Alike := by
    obtain ⟨f, calls, agrees⟩ := binary_agrees types notRol
    have last : lastCall s op = f := by simp only [lastCall, calls, List.getLast_singleton]
    refine alike_of_notConstant evaluated fun flags objects => ?_
    rw [writeVc, AaExpression.cMeaning, ← alike1.value flags objects, ← alike2.value flags objects, last]
    simp only [evaluated, driver]
    exact (agrees _ _).symm
  cases operand1 : first.evaluate with
  | failed => exact absurd operand1 alike1.evaluated
  | notConstant =>
      simp only [operand1] at form
      refine operators form ?_
      cases operand2 : second.evaluate with
      | failed => exact absurd operand2 alike2.evaluated
      | _ => simp only [AaExpression.evaluate, operand1, operand2]
  | value v =>
      cases operand2 : second.evaluate with
      | failed => exact absurd operand2 alike2.evaluated
      | notConstant =>
          simp only [operand1, operand2] at form
          exact operators form (by simp only [AaExpression.evaluate, operand1, operand2])
      | value w =>
          obtain rfl := AaExpression.typeOf_evaluate operand1
          obtain rfl := AaExpression.typeOf_evaluate operand2
          simp only [operand1, operand2] at form
          have evaluated : (AaExpression.binary op types first second).evaluate =
              .ofOption (ConstantOperation.binary op u v w).perform := by
            simp only [AaExpression.evaluate, operand1, operand2]
          have meaning (objects : Assignment) :
              (AaExpression.binary op types first second).cMeaning objects = (ConstantOperation.binary op u v w).cResult := by
            rw [AaExpression.cMeaning, alike1.cMeaning_eq operand1, alike2.cMeaning_eq operand2]
            rfl
          exact alike_of_folded (.binary op u v w) evaluated meaning types form

theorem alike_ternary {test : AaExpression s} {ifTrue ifFalse : AaExpression t} (alike : test.Alike) (alike1 : ifTrue.Alike)
    (alike2 : ifFalse.Alike) (uses : (AaExpression.ternary test ifTrue ifFalse).Uses Form.Agrees) :
    (AaExpression.ternary test ifTrue ifFalse).Alike := by
  have form := uses.1
  have operators (narrow : s.width ≤ 1) (evaluated : (AaExpression.ternary test ifTrue ifFalse).evaluate = .notConstant) :
      (AaExpression.ternary test ifTrue ifFalse).Alike := by
    refine alike_of_notConstant evaluated fun flags objects => ?_
    rw [writeVc, AaExpression.cMeaning, ← alike.value flags objects, ← alike1.value flags objects,
      ← alike2.value flags objects, cTrue_eq _ narrow]
    simp only [evaluated, driver]
    rfl
  cases operand : test.evaluate with
  | failed => exact absurd operand alike.evaluated
  | notConstant =>
      simp only [operand] at form
      refine operators form ?_
      cases operand1 : ifTrue.evaluate with
      | failed => exact absurd operand1 alike1.evaluated
      | _ =>
          cases operand2 : ifFalse.evaluate with
          | failed => exact absurd operand2 alike2.evaluated
          | _ => simp only [AaExpression.evaluate, operand, operand1, operand2]
  | value c =>
      cases operand1 : ifTrue.evaluate with
      | failed => exact absurd operand1 alike1.evaluated
      | notConstant =>
          simp only [operand, operand1] at form
          refine operators form ?_
          cases operand2 : ifFalse.evaluate with
          | failed => exact absurd operand2 alike2.evaluated
          | _ => simp only [AaExpression.evaluate, operand, operand1, operand2]
      | value v =>
          cases operand2 : ifFalse.evaluate with
          | failed => exact absurd operand2 alike2.evaluated
          | notConstant =>
              simp only [operand, operand1, operand2] at form
              exact operators form (by simp only [AaExpression.evaluate, operand, operand1, operand2])
          | value w =>
              obtain rfl := AaExpression.typeOf_evaluate operand
              have typed : typeOf v = t ∧ typeOf w = t :=
                ⟨AaExpression.typeOf_evaluate operand1, AaExpression.typeOf_evaluate operand2⟩
              simp only [operand, operand1, operand2] at form
              have evaluated : (AaExpression.ternary test ifTrue ifFalse).evaluate =
                  .ofOption (ConstantOperation.ternary t c v w).perform := by
                simp only [AaExpression.evaluate, operand, operand1, operand2]
              have meaning (objects : Assignment) : (AaExpression.ternary test ifTrue ifFalse).cMeaning objects =
                  (ConstantOperation.ternary t c v w).cResult := by
                rw [AaExpression.cMeaning, alike.cMeaning_eq operand, alike1.cMeaning_eq operand1, alike2.cMeaning_eq operand2]
                rfl
              exact alike_of_folded (.ternary t c v w) evaluated meaning typed form

theorem alike_of_uses (e : AaExpression t) (uses : e.Uses Form.Agrees) : e.Alike := by
  induction e with
  | reference t name => exact ⟨Evaluation.noConfusion, fun _ _ => rfl⟩
  | constant v => exact ⟨Evaluation.noConfusion, fun _ _ => rfl⟩
  | typeCast bitCast t rest ih => exact alike_typeCast bitCast (ih uses.2) uses
  | slice width lowIndex fits rest ih => exact alike_slice width lowIndex fits (ih uses.2) uses
  | unary op types rest ih => exact alike_unary types (ih uses.2) uses
  | binary op types first second ih1 ih2 => exact alike_binary types (ih1 uses.2.1) (ih2 uses.2.2) uses
  | ternary test ifTrue ifFalse ih ih1 ih2 =>
      exact alike_ternary (ih uses.2.1) (ih1 uses.2.2.1) (ih2 uses.2.2.2) uses

end Forms

section Expressions

/-- Something is written for the expression, and the statements leave the value that the operators
have, whatever the objects hold, which conversions are written as buffers, and what was in the
variables before. -/
structure AaExpression.SameMeaning {t : IntegerType} (e : AaExpression t) : Prop where
  evaluated : e.evaluate ≠ .failed
  same : ∀ flags leftovers objects, e.cValue leftovers objects = (writeVc flags e).value objects

theorem AaExpression.sameMeaning_of_uses {t : IntegerType} (e : AaExpression t) (uses : e.Uses Form.Agrees) :
    e.SameMeaning := by
  have alike := alike_of_uses e uses
  refine ⟨alike.evaluated, fun flags leftovers objects => ?_⟩
  rw [e.cValue_eq, alike.value]

theorem AaExpression.Uses.mono {allowed allowed' : Form → Prop} (le : ∀ form, allowed form → allowed' form)
    {t : IntegerType} {e : AaExpression t} (uses : e.Uses allowed) : e.Uses allowed' := by
  induction e with
  | reference t name => trivial
  | constant v => trivial
  | typeCast bitCast t rest ih => exact ⟨le _ uses.1, ih uses.2⟩
  | slice width lowIndex fits rest ih => exact ⟨le _ uses.1, ih uses.2⟩
  | unary op types rest ih => exact ⟨le _ uses.1, ih uses.2⟩
  | binary op types first second ih1 ih2 => exact ⟨le _ uses.1, ih1 uses.2.1, ih2 uses.2.2⟩
  | ternary test ifTrue ifFalse ih ih1 ih2 => exact ⟨le _ uses.1, ih uses.2.1, ih1 uses.2.2.1, ih2 uses.2.2.2⟩

def plainFlags : Flags := ⟨fun _ => false, fun _ => false⟩

/-- `(a <o< b)` -/
def rotated (n : Nat) : AaExpression (.uint n) :=
  .binary .rol (.same (by decide) _) (.reference _ "a") (.reference _ "b")

theorem rotated_differs : ¬ (rotated 1).SameMeaning := fun meaning =>
  absurd (meaning.same plainFlags (fun n _ => 0#n) fun n name => BitVec.ofNat n (if name = "b" then 1 else 0)) (by decide)

/-- `($mux c a b)` -/
def multiplexed (n : Nat) : AaExpression (.uint 1) :=
  .ternary (.reference (.uint n) "c") (.reference (.uint 1) "a") (.reference (.uint 1) "b")

/-- A test of more than one bit may be a number other than zero whose lowest bit is clear. -/
theorem multiplexed_differs {n : Nat} (wide : 1 < n) : ¬ (multiplexed n).SameMeaning := by
  intro meaning
  have all := meaning.same plainFlags (fun n _ => 0#n)
    fun n name => BitVec.ofNat n (if name = "c" then 2 else if name = "a" then 1 else 0)
  have two : (2#n).toNat = 2 := by
    rw [BitVec.toNat_ofNat]
    exact Nat.mod_eq_of_lt (Nat.pow_lt_pow_right Nat.one_lt_two wide)
  have test : cTrue false (2#n) = true := by
    rw [cTrue, integerOf, if_neg Bool.false_ne_true, two]
    decide
  have bit : (2#n).getLsbD 0 = false := by
    rw [BitVec.getLsbD, two]
    decide
  simp only [multiplexed, AaExpression.cValue_eq, AaExpression.cMeaning, if_true, test, writeVc, AaExpression.evaluate, driver,
    VcTree.value, bit, Bool.false_eq_true, if_false] at all
  exact absurd all (by decide)

theorem exists_constant {t : IntegerType} {v : Unsigned} (typed : typeOf v = t) : ∃ e : AaExpression t,
    e.evaluate = .value v ∧ (∀ allowed, e.Uses allowed) ∧ ∀ objects, e.cMeaning objects = v.residue t.width := by
  subst typed
  exact ⟨.constant v, rfl, fun _ => trivial, fun _ => rfl⟩

theorem exists_folded {o : ConstantOperation} (typed : o.Typed) : ∃ e : AaExpression o.target,
    e.evaluate = .ofOption o.perform ∧ (∀ allowed : Form → Prop, allowed (.folded o) → e.Uses allowed) ∧
      ∀ objects, e.cMeaning objects = o.cResult := by
  cases o with
  | typeCast bitCast t v =>
      exact ⟨.typeCast bitCast t (.constant v), rfl, fun _ isAllowed => ⟨isAllowed, trivial⟩, fun _ => rfl⟩
  | slice width lowIndex v =>
      have fits : lowIndex + width ≤ (typeOf v).width := typed
      exact ⟨.slice width lowIndex fits (.constant v), rfl, fun _ isAllowed => ⟨isAllowed, trivial⟩, fun _ => rfl⟩
  | unary op t v =>
      exact ⟨.unary op typed (.constant v), rfl, fun _ isAllowed => ⟨isAllowed, trivial⟩, fun _ => rfl⟩
  | binary op t u v =>
      exact ⟨.binary op typed (.constant u) (.constant v), rfl, fun _ isAllowed => ⟨isAllowed, trivial, trivial⟩,
        fun _ => rfl⟩
  | ternary t test u v =>
      obtain ⟨e1, evaluated1, uses1, meaning1⟩ := exists_constant typed.1
      obtain ⟨e2, evaluated2, uses2, meaning2⟩ := exists_constant typed.2
      have evaluated : (AaExpression.ternary (.constant test) e1 e2).evaluate =
          .ofOption (ConstantOperation.ternary t test u v).perform := by
        simp only [AaExpression.evaluate, evaluated1, evaluated2]
      have uses (allowed : Form → Prop) (isAllowed : allowed (.folded (.ternary t test u v))) :
          (AaExpression.ternary (.constant test) e1 e2).Uses allowed := by
        refine ⟨?_, trivial, uses1 allowed, uses2 allowed⟩
        simp only [AaExpression.evaluate, evaluated1, evaluated2]
        exact isAllowed
      have meaning (objects : Assignment) : (AaExpression.ternary (.constant test) e1 e2).cMeaning objects =
          (ConstantOperation.ternary t test u v).cResult := by
        rw [AaExpression.cMeaning, meaning1, meaning2]
        rfl
      exact ⟨_, evaluated, uses, meaning⟩

/-- It has one meaning only where it is performed as the C functions do it. -/
theorem performs_of_sameMeaning {o : ConstantOperation} {e : AaExpression o.target}
    (evaluated : e.evaluate = .ofOption o.perform) (cMeaning : ∀ objects, e.cMeaning objects = o.cResult)
    (meaning : e.SameMeaning) : o.Performs := by
  cases performed : o.perform with
  | none => exact absurd (evaluated.trans (congrArg _ performed)) meaning.evaluated
  | some r =>
      refine ⟨r, performed, ?_⟩
      have same := meaning.same plainFlags (fun n _ => 0#n) fun n _ => 0#n
      rw [performed] at evaluated
      rw [e.cValue_eq, cMeaning, value_of_evaluate plainFlags evaluated] at same
      exact same.symm

/-- The generators give one meaning to all expressions of those forms, exactly when a rotation
to the left is not among them, and no multiplexer whose test has more than one bit, and what is
done with constants only is safe. -/
theorem sameMeaning_iff (allowed : Form → Prop) :
    (∀ (t : IntegerType) (e : AaExpression t), e.Uses allowed → e.SameMeaning) ↔
      ¬ allowed (.binary .rol) ∧ (∀ testWidth, allowed (.ternary testWidth) → testWidth ≤ 1) ∧
        ∀ o, allowed (.folded o) → o.Typed → o.Safe := by
  constructor
  · intro all
    refine ⟨fun rol => rotated_differs (all _ _ ⟨rol, trivial, trivial⟩), fun testWidth mux => ?_,
      fun o folded typed => ?_⟩
    · by_contra wide
      exact multiplexed_differs (Nat.lt_of_not_le wide) (all _ _ ⟨mux, trivial, trivial, trivial⟩)
    · obtain ⟨e, evaluated, uses, cMeaning⟩ := exists_folded typed
      exact (ConstantOperation.performs_iff typed).mp
        (performs_of_sameMeaning evaluated cMeaning (all _ e (uses allowed folded)))
  · intro ⟨noRol, narrow, safe⟩ t e uses
    refine e.sameMeaning_of_uses (uses.mono fun form isAllowed => ?_)
    cases form with
    | binary op => exact fun isRol => noRol (isRol ▸ isAllowed)
    | ternary testWidth => exact narrow testWidth isAllowed
    | folded o => exact safe o isAllowed
    | typeCast bitCast => trivial
    | slice => trivial
    | unary op => trivial

/-- One and two: the sum is three, but the rotation is four. -/
theorem rotated_not_sameMeaning : ¬ (rotated 8).SameMeaning := fun meaning =>
  absurd (meaning.same plainFlags (fun n _ => 0#n) fun n name => BitVec.ofNat n (if name = "a" then 1 else 2)) (by decide)

end Expressions

end Ahir.Aa.BackEnds
