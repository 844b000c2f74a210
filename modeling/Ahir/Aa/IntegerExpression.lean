import Ahir.Value.Storage
import Mathlib.Algebra.Ring.Nat

/-!
# Integer expressions

The expressions of Aa over operands of the integer types, with the types that their
operations ask for.
-/

set_option autoImplicit false

namespace Ahir.Aa.BackEnds
open Ahir.Value (Unsigned)

/-- `AaUintType` and `AaIntType`. -/
structure IntegerType where
  isSigned : Bool
  width : Nat
  deriving DecidableEq

abbrev IntegerType.uint (width : Nat) : IntegerType := ⟨false, width⟩

abbrev typeOf (v : Unsigned) : IntegerType := ⟨v.kind == .signed, v.width⟩

inductive UnaryOperation where
  | not | decode | encode | priorityEncode | bitreduceOr | bitreduceAnd | bitreduceXor
  deriving DecidableEq

/-- The binary operations but for the division, and for those on floats. -/
inductive BinaryOperation where
  | or | and | xor | nor | nand | xnor | shl | shr | ror | rol | plus | minus | mul
  | equal | notEqual | less | lessEqual | greater | greaterEqual | concat | bitsel
  deriving DecidableEq

/-- `Is_Compare_Operation` -/
def BinaryOperation.isCompare : BinaryOperation → Bool
  | .equal | .notEqual | .less | .lessEqual | .greater | .greaterEqual => true
  | _ => false

inductive UnaryOperation.Types : UnaryOperation → IntegerType → IntegerType → Prop where
  | not (t : IntegerType) : Types .not t t
  | priorityEncode (t : IntegerType) : Types .priorityEncode t t
  | decode (n : Nat) : Types .decode (.uint n) (.uint (2 ^ n))
  | encode (n : Nat) : Types .encode (.uint (2 ^ n)) (.uint n)
  | bitreduceOr (t : IntegerType) : Types .bitreduceOr t (.uint 1)
  | bitreduceAnd (t : IntegerType) : Types .bitreduceAnd t (.uint 1)
  | bitreduceXor (t : IntegerType) : Types .bitreduceXor t (.uint 1)

/-- The types of the operands and of the result: the type dependencies of the constructor
and the checks of `Update_Type`. -/
inductive BinaryOperation.Types : BinaryOperation → IntegerType → IntegerType → IntegerType → Prop where
  | same {op : BinaryOperation} (isSame : op.isCompare = false ∧ op ≠ .concat ∧ op ≠ .bitsel) (t : IntegerType) : Types op t t t
  | compare {op : BinaryOperation} (isCompare : op.isCompare = true) (t : IntegerType) : Types op t t (.uint 1)
  | concat (m n : Nat) : Types .concat (.uint m) (.uint n) (.uint (m + n))
  | bitsel (s t : IntegerType) : Types .bitsel s t (.uint 1)

/-- A well-typed expression over references to objects and constants.  A constant is a literal or
a reference to an object that is one, with its value. -/
inductive AaExpression : IntegerType → Type where
  | reference (t : IntegerType) (name : String) : AaExpression t
  | constant (v : Unsigned) : AaExpression (typeOf v)
  | typeCast {s : IntegerType} (bitCast : Bool) (t : IntegerType) (rest : AaExpression s) : AaExpression t
  | slice {s : IntegerType} (width lowIndex : Nat) (fits : lowIndex + width ≤ s.width) (rest : AaExpression s) :
      AaExpression (.uint width)
  | unary {s t : IntegerType} (op : UnaryOperation) (types : op.Types s t) (rest : AaExpression s) : AaExpression t
  | binary {s t u : IntegerType} (op : BinaryOperation) (types : op.Types s t u) (first : AaExpression s)
      (second : AaExpression t) : AaExpression u
  | ternary {s t : IntegerType} (test : AaExpression s) (ifTrue ifFalse : AaExpression t) : AaExpression t

abbrev Assignment : Type := (width : Nat) → String → BitVec width

end Ahir.Aa.BackEnds
