import Ahir.Aa.IntegerExpression
import Ahir.Aa.ConstantFolding

/-!
# Constant expressions

What `Evaluate` makes of an expression before anything is written for it: an operation on
constants is performed, and its value takes the place of the operation in the virtual
circuit.
-/

set_option autoImplicit false

namespace Ahir.Aa.BackEnds
open Ahir.Value
open Ahir.Hardware.OperatorPackage (Operation)

def BinaryOperation.operation : BinaryOperation → Operation
  | .or => .or
  | .and => .and
  | .xor => .xor
  | .nor => .nor
  | .nand => .nand
  | .xnor => .xnor
  | .shl => .shl
  | .shr => .shr
  | .ror => .ror
  | .rol => .rol
  | .plus => .plus
  | .minus => .minus
  | .mul => .mul
  | .equal => .equal
  | .notEqual => .notEqual
  | .less => .less
  | .lessEqual => .lessEqual
  | .greater => .greater
  | .greaterEqual => .greaterEqual
  | .concat => .concat
  | .bitsel => .bitsel

/-- The class of the value of an expression of a type. -/
def IntegerType.kind (t : IntegerType) : Kind := if t.isSigned then .signed else .unsigned

/-- `Assign_Expression_Value`; a new value asserts that its width is positive. -/
def assignExpressionValue (t : IntegerType) (exprValue : Unsigned) : Option Unsigned :=
  if pos : 0 < t.width then some (exprValue.assign t.kind t.width pos) else none

def performSliceOperation (v : Unsigned) (hi li : Int) : Option Unsigned :=
  if pos : 0 < (hi - li + 1).toNat then some (v.slice hi li pos) else none

/-- An operation all of whose operands are constants, by their values, and its type. -/
inductive ConstantOperation where
  | typeCast (bitCast : Bool) (t : IntegerType) (v : Unsigned)
  | slice (width lowIndex : Nat) (v : Unsigned)
  | unary (op : UnaryOperation) (t : IntegerType) (v : Unsigned)
  | binary (op : BinaryOperation) (t : IntegerType) (u v : Unsigned)
  | ternary (t : IntegerType) (test ifTrue ifFalse : Unsigned)

namespace ConstantOperation

def target : ConstantOperation → IntegerType
  | typeCast _ t _ => t
  | slice width _ _ => .uint width
  | unary _ t _ => t
  | binary _ t _ _ => t
  | ternary t _ _ _ => t

def Typed : ConstantOperation → Prop
  | typeCast _ _ _ => True
  | slice width lowIndex v => lowIndex + width ≤ v.width
  | unary op t v => op.Types (typeOf v) t
  | binary op t u v => op.Types (typeOf u) (typeOf v) t
  | ternary t _ ifTrue ifFalse => typeOf ifTrue = t ∧ typeOf ifFalse = t

/-- The value that `Evaluate` assigns, unless the program ends there. -/
def perform : ConstantOperation → Option Unsigned
  | typeCast _ t v => assignExpressionValue t v
  | slice width lowIndex v =>
      (performSliceOperation v (lowIndex + width - 1) lowIndex).bind (assignExpressionValue (.uint width))
  -- for the other operations there is no value, and it is assigned all the same
  | unary op t v => if op = .not then assignExpressionValue t (performUnaryOperation v) else none
  | binary op t u v => (performBinaryOperation 1 op.operation u v).bind (assignExpressionValue t)
  | ternary t test ifTrue ifFalse => assignExpressionValue t (if test.toBoolean then ifTrue else ifFalse)

end ConstantOperation

/-- What `Evaluate` makes of an expression: its value, or nothing, or the end of the program by
an assertion, a null pointer, or calls without an end. -/
inductive Evaluation where
  | value (v : Unsigned)
  | notConstant
  | failed

def Evaluation.ofOption : Option Unsigned → Evaluation
  | some v => value v
  | none => failed

def AaExpression.evaluate : {t : IntegerType} → AaExpression t → Evaluation
  | _, .reference _ _ => .notConstant
  | _, .constant v => .value v
  | _, .typeCast bitCast t rest =>
      match rest.evaluate with
      | .value v => .ofOption (ConstantOperation.typeCast bitCast t v).perform
      | other => other
  | _, .slice width lowIndex _ rest =>
      match rest.evaluate with
      | .value v => .ofOption (ConstantOperation.slice width lowIndex v).perform
      | other => other
  | t, .unary op _ rest =>
      match rest.evaluate with
      | .value v => .ofOption (ConstantOperation.unary op t v).perform
      | other => other
  | t, .binary op _ first second =>
      match first.evaluate, second.evaluate with
      | .failed, _ => .failed
      | _, .failed => .failed
      | .value u, .value v => .ofOption (ConstantOperation.binary op t u v).perform
      | _, _ => .notConstant
  | t, .ternary test ifTrue ifFalse =>
      match test.evaluate, ifTrue.evaluate, ifFalse.evaluate with
      | .failed, _, _ => .failed
      | _, .failed, _ => .failed
      | _, _, .failed => .failed
      | .value c, .value u, .value v => .ofOption (ConstantOperation.ternary t c u v).perform
      | _, _, _ => .notConstant

/-- What a program can use to build an expression; what is done with constants only is told by
their values. -/
inductive Form where
  | typeCast (bitCast : Bool)
  | slice
  | unary (op : UnaryOperation)
  | binary (op : BinaryOperation)
  | ternary (testWidth : Nat)
  | folded (operation : ConstantOperation)

/-- An expression that is built from some of the forms only. -/
def AaExpression.Uses (allowed : Form → Prop) : {t : IntegerType} → AaExpression t → Prop
  | _, .reference _ _ => True
  | _, .constant _ => True
  | _, .typeCast bitCast t rest =>
      allowed (match rest.evaluate with
        | .value v => .folded (.typeCast bitCast t v)
        | _ => .typeCast bitCast) ∧ rest.Uses allowed
  | _, .slice width lowIndex _ rest =>
      allowed (match rest.evaluate with
        | .value v => .folded (.slice width lowIndex v)
        | _ => .slice) ∧ rest.Uses allowed
  | t, .unary op _ rest =>
      allowed (match rest.evaluate with
        | .value v => .folded (.unary op t v)
        | _ => .unary op) ∧ rest.Uses allowed
  | t, .binary op _ first second =>
      allowed (match first.evaluate, second.evaluate with
        | .value u, .value v => .folded (.binary op t u v)
        | _, _ => .binary op) ∧ first.Uses allowed ∧ second.Uses allowed
  | t, @AaExpression.ternary s _ test ifTrue ifFalse =>
      allowed (match test.evaluate, ifTrue.evaluate, ifFalse.evaluate with
        | .value c, .value u, .value v => .folded (.ternary t c u v)
        | _, _, _ => .ternary s.width) ∧ test.Uses allowed ∧ ifTrue.Uses allowed ∧ ifFalse.Uses allowed

section Values
variable {t : IntegerType} {v : Unsigned}

theorem typeOf_assignExpressionValue {u : Unsigned} (assigned : assignExpressionValue t u = some v) : typeOf v = t := by
  unfold assignExpressionValue at assigned
  split at assigned
  · next pos =>
      obtain rfl := Option.some.inj assigned
      obtain ⟨isSigned, width⟩ := t
      refine congrArg₂ IntegerType.mk ?_ (u.width_assign pos)
      rw [u.kind_assign pos, IntegerType.kind]
      cases isSigned <;> rfl
  · exact absurd assigned (Option.some_ne_none v).symm

theorem ConstantOperation.typeOf_perform {operation : ConstantOperation} (performed : operation.perform = some v) :
    typeOf v = operation.target := by
  cases operation with
  | typeCast bitCast t u => exact typeOf_assignExpressionValue performed
  | slice width lowIndex u =>
      obtain ⟨_, _, assigned⟩ := Option.bind_eq_some_iff.mp performed
      exact typeOf_assignExpressionValue assigned
  | unary op t u =>
      simp only [perform, Option.ite_none_right_eq_some] at performed
      exact typeOf_assignExpressionValue performed.2
  | binary op t u u' =>
      obtain ⟨_, _, assigned⟩ := Option.bind_eq_some_iff.mp performed
      exact typeOf_assignExpressionValue assigned
  | ternary t test u u' => exact typeOf_assignExpressionValue performed

theorem ConstantOperation.typeOf_value {operation : ConstantOperation}
    (evaluated : .ofOption operation.perform = Evaluation.value v) : typeOf v = operation.target := by
  refine typeOf_perform ?_
  cases performed : operation.perform with
  | none => rw [performed] at evaluated; cases evaluated
  | some u => rw [performed] at evaluated; exact congrArg some (Evaluation.value.inj evaluated)

theorem AaExpression.typeOf_evaluate {e : AaExpression t} (evaluated : e.evaluate = .value v) : typeOf v = t := by
  cases e with
  | reference t name => cases evaluated
  | constant u => exact congrArg typeOf (Evaluation.value.inj evaluated).symm
  | typeCast bitCast t rest =>
      cases operand : rest.evaluate <;> simp only [evaluate, operand, reduceCtorEq] at evaluated
      exact ConstantOperation.typeOf_value evaluated
  | slice width lowIndex fits rest =>
      cases operand : rest.evaluate <;> simp only [evaluate, operand, reduceCtorEq] at evaluated
      exact ConstantOperation.typeOf_value evaluated
  | unary op types rest =>
      cases operand : rest.evaluate <;> simp only [evaluate, operand, reduceCtorEq] at evaluated
      exact ConstantOperation.typeOf_value evaluated
  | binary op types first second =>
      cases operand1 : first.evaluate <;> cases operand2 : second.evaluate <;>
        simp only [evaluate, operand1, operand2, reduceCtorEq] at evaluated
      exact ConstantOperation.typeOf_value evaluated
  | ternary test ifTrue ifFalse =>
      cases operand : test.evaluate <;> cases operand1 : ifTrue.evaluate <;> cases operand2 : ifFalse.evaluate <;>
        simp only [evaluate, operand, operand1, operand2, reduceCtorEq] at evaluated
      exact ConstantOperation.typeOf_value evaluated

end Values

end Ahir.Aa.BackEnds
