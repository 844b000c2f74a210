import Ahir.BitVectors.Operations

/-!
# Expressions of the rtl language

Expressions over integers of some width, signed or not, and what they mean bit by bit.
-/

set_option autoImplicit false

namespace Ahir.Rtl
open Ahir.Data Ahir.BitVectors

/-- `rtlUnsignedType` and `rtlSignedType` -/
structure RtlType where
  signed : Bool
  width : Nat
  deriving DecidableEq

/-- `rtlOperation`, without those of one operand. -/
inductive Operation where
  | or | and | xor | nor | nand | xnor
  | plus | minus | mul | div
  | shl | shr | ror | rol
  | equal | notEqual | less | lessEqual | greater | greaterEqual
  | concat
  deriving DecidableEq

/-- `rtlExpression`; of the subclasses not `rtlArrayObjectReference`. -/
inductive Expression where
  | literal (type : RtlType) (value : BitVec type.width)
  | object (name : String) (type : RtlType)
  | slice (base : Expression) (high low : Nat)
  | not (rest : Expression)
  | binary (op : Operation) (first second : Expression)
  | ternary (test ifTrue ifFalse : Expression)

/-- `Infer_And_Set_Type` -/
def inferType (op : Operation) (first second : RtlType) : RtlType :=
  match op with
  | .or | .and | .xor | .nor | .nand | .xnor | .plus | .minus | .mul | .div => first
  | .shl | .shr | .ror | .rol => first
  | .equal | .notEqual | .less | .lessEqual | .greater | .greaterEqual => ⟨false, 1⟩
  | .concat => ⟨first.signed, first.width + second.width⟩

/-- What `Infer_And_Set_Type` asserts. -/
def inferAsserts (op : Operation) (first second : RtlType) : Prop :=
  match op with
  | .shl | .shr | .ror | .rol => True
  | .concat => first.signed = second.signed
  | _ => first = second

namespace Expression

/-- `Get_Type` -/
def type : Expression → RtlType
  | .literal type _ => type
  | .object _ type => type
  | .slice _ high low => ⟨false, high - low + 1⟩
  | .not rest => rest.type
  | .binary op first second => inferType op first.type second.type
  | .ternary _ ifTrue _ => ifTrue.type

/-- Types are as the constructors assert, no vector is empty, and slices are inside. -/
def WellTyped : Expression → Prop
  | .literal type _ => 0 < type.width
  | .object _ type => 0 < type.width
  | .slice base high low => base.WellTyped ∧ low ≤ high ∧ high < base.type.width
  | .not rest => rest.WellTyped
  | .binary op first second => first.WellTyped ∧ second.WellTyped ∧ inferAsserts op first.type second.type
  | .ternary test ifTrue ifFalse =>
      test.WellTyped ∧ ifTrue.WellTyped ∧ ifFalse.WellTyped ∧ ifTrue.type = ifFalse.type

/-- The objects that are read have defined values of their types. -/
def Fits (objects : String → BitVector) : Expression → Prop
  | .literal _ _ => True
  | .object name type => (objects name).width = type.width ∧ ∀ i < type.width, (objects name).undefinedBit i = false
  | .slice base _ _ => base.Fits objects
  | .not rest => rest.Fits objects
  | .binary _ first second => first.Fits objects ∧ second.Fits objects
  | .ternary test ifTrue ifFalse => test.Fits objects ∧ ifTrue.Fits objects ∧ ifFalse.Fits objects

end Expression

/-- The bits of the result of an operation on operands of `m` and `n` bits, where both
printers have one in mind. -/
def meaning (op : Operation) (m n : Nat) (f g : Nat → Bool) (i : Nat) : Bool :=
  match op with
  | .or => f i || g i
  | .and => f i && g i
  | .xor => f i ^^ g i
  | .nor => !(f i || g i)
  | .nand => !(f i && g i)
  | .xnor => !(f i ^^ g i)
  | .plus => (lowBits m f + lowBits m g).getLsbD i
  | .minus => (lowBits m f - lowBits m g).getLsbD i
  | .equal => decide (i = 0) && decide (lowBits m f = lowBits m g)
  | .notEqual => decide (i = 0) && !decide (lowBits m f = lowBits m g)
  | .concat => if i < n then g i else f (i - n)
  | .mul | .div | .shl | .shr | .ror | .rol | .less | .lessEqual | .greater | .greaterEqual => false

def Operation.plain : Operation → Bool
  | .or | .and | .xor | .nor | .nand | .xnor | .plus | .minus | .equal | .notEqual | .concat => true
  | .mul | .div | .shl | .shr | .ror | .rol | .less | .lessEqual | .greater | .greaterEqual => false

/-- The operations of which one printer or both print what is not in their language. -/
def Operation.broken : Operation → Bool
  | .div | .shl | .shr | .ror | .rol | .less | .lessEqual | .greater | .greaterEqual => true
  | _ => false

def Operation.numeric : Operation → Bool
  | .plus | .minus | .mul => true
  | _ => false

namespace Expression

def bits (objects : String → BitVector) : Expression → Nat → Bool
  | .literal _ value => value.getLsbD
  | .object name _ => (objects name).bit
  | .slice base _ low => fun i => base.bits objects (i + low)
  | .not rest => fun i => !rest.bits objects i
  | .binary op first second =>
      meaning op first.type.width second.type.width (first.bits objects) (second.bits objects)
  | .ternary test ifTrue ifFalse =>
      fun i => if test.bits objects 0 then ifTrue.bits objects i else ifFalse.bits objects i

/-- The names that a slice can be taken of, with the indices that the slice has. -/
def sliceable : Expression → Bool
  | .object _ _ => true
  | .binary op _ _ => decide (op = .equal)
  | .slice base _ low => base.sliceable && decide (low = 0)
  | _ => false

def unsliceable : Expression → Bool
  | .object _ _ => false
  | .slice _ _ _ => false
  | .binary op _ _ => decide (op ≠ .equal)
  | .literal _ _ | .not _ | .ternary _ _ _ => true

def untyped : Expression → Bool
  | .literal _ _ => true
  | .binary op first second => decide (op = .concat) && first.untyped && second.untyped
  | _ => false

def ambiguous (op : Operation) (first second : Expression) : Bool := op.numeric && (first.untyped || second.untyped)

/-- Some operation in the expression is broken, a conversion is ambiguous, or a slice is of
what cannot be sliced. -/
def broken : Expression → Bool
  | .literal _ _ => false
  | .object _ _ => false
  | .slice base _ _ => base.broken || base.unsliceable
  | .not rest => rest.broken
  | .binary op first second => op.broken || first.broken || second.broken || ambiguous op first second
  | .ternary test ifTrue ifFalse => test.broken || ifTrue.broken || ifFalse.broken

/-- Only plain operations without ambiguous conversions, selections by one bit, and slices of
what can be sliced. -/
def plain : Expression → Bool
  | .literal _ _ => true
  | .object _ _ => true
  | .slice base _ _ => base.plain && base.sliceable
  | .not rest => rest.plain
  | .binary op first second => op.plain && first.plain && second.plain && !ambiguous op first second
  | .ternary test ifTrue ifFalse => test.plain && ifTrue.plain && ifFalse.plain && decide (test.type.width = 1)

theorem width_pos {e : Expression} (typed : e.WellTyped) : 0 < e.type.width := by
  induction e with
  | literal type value => exact typed
  | object name type => exact typed
  | slice base high low ih => exact Nat.succ_pos _
  | not rest ih => exact ih typed
  | ternary test ifTrue ifFalse ihTest ihTrue ihFalse => exact ihTrue typed.2.1
  | binary op first second ihFirst ihSecond =>
      have pos := ihFirst typed.1
      cases op <;> first | exact pos | exact Nat.one_pos | exact Nat.add_pos_left pos _

end Expression
theorem width_eq_of_inferAsserts {op : Operation} (plain : op.plain = true) (ne : op ≠ .concat) {first second : RtlType}
    (typed : inferAsserts op first second) : first.width = second.width := by
  cases op with
  | or | and | xor | nor | nand | xnor | plus | minus | equal | notEqual => exact congrArg RtlType.width typed
  | concat => exact absurd rfl ne
  | mul | div | shl | shr | ror | rol | less | lessEqual | greater | greaterEqual =>
      exact absurd plain Bool.false_ne_true

end Ahir.Rtl
