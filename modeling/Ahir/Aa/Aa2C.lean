import Ahir.Aa.IntegerExpression
import Ahir.Hardware.Encoders
import Mathlib.Logic.Function.Basic

/-!
# The statements of the C generator

The statements that are written for an expression, with the functions on bit vectors taken
to compute what they are named after.
-/

set_option autoImplicit false

namespace Ahir.Aa.BackEnds

inductive CUnary where
  | bitVectorNot | bitVectorDecode | bitVectorEncode | bitVectorPriorityEncode
  | bitVectorReduceOr | bitVectorReduceAnd | bitVectorReduceXor
  | bitVectorCastToBitVector (signed : Bool)
  | bitVectorBitcastToBitVector
  | bitVectorSlice (lowIndex : Nat)

inductive CBinary where
  | bitVectorOr | bitVectorAnd | bitVectorXor | bitVectorNor | bitVectorNand | bitVectorXnor
  | bitVectorShiftLeft | bitVectorShiftRight (signed : Bool) | bitVectorRotateRight | bitVectorRotateLeft
  | bitVectorPlus | bitVectorMinus | bitVectorMul | bitVectorSmul
  | bitVectorEqual (signed : Bool) | bitVectorNotEqual (signed : Bool) | bitVectorLess (signed : Bool)
  | bitVectorLessEqual (signed : Bool) | bitVectorGreater (signed : Bool) | bitVectorGreaterEqual (signed : Bool)
  | bitVectorConcatenate | bitVectorBitsel

section Print

def printCTypeCastOperation (bitCast : Bool) (tgtType : IntegerType) : CUnary :=
  if bitCast then .bitVectorBitcastToBitVector else .bitVectorCastToBitVector tgtType.isSigned

def printCUnaryOperation : UnaryOperation → CUnary
  | .not => .bitVectorNot
  | .decode => .bitVectorDecode
  | .encode => .bitVectorEncode
  | .priorityEncode => .bitVectorPriorityEncode
  | .bitreduceOr => .bitVectorReduceOr
  | .bitreduceAnd => .bitVectorReduceAnd
  | .bitreduceXor => .bitVectorReduceXor

/-- `Print_C_Binary_Operation`: the calls that are written, one after the other, with the same
operands and the same target. -/
def printCBinaryOperation (src1Type : IntegerType) : BinaryOperation → List CBinary
  | .or => [.bitVectorOr]
  | .and => [.bitVectorAnd]
  | .xor => [.bitVectorXor]
  | .nor => [.bitVectorNor]
  | .nand => [.bitVectorNand]
  | .xnor => [.bitVectorXnor]
  | .shl => [.bitVectorShiftLeft]
  | .shr => [.bitVectorShiftRight src1Type.isSigned]
  | .ror => [.bitVectorRotateRight]
  -- the case has no break, and the next one is that of the sum
  | .rol => [.bitVectorRotateLeft, .bitVectorPlus]
  | .plus => [.bitVectorPlus]
  | .minus => [.bitVectorMinus]
  | .mul => [if src1Type.isSigned then .bitVectorSmul else .bitVectorMul]
  | .equal => [.bitVectorEqual src1Type.isSigned]
  | .notEqual => [.bitVectorNotEqual src1Type.isSigned]
  | .less => [.bitVectorLess src1Type.isSigned]
  | .lessEqual => [.bitVectorLessEqual src1Type.isSigned]
  | .greater => [.bitVectorGreater src1Type.isSigned]
  | .greaterEqual => [.bitVectorGreaterEqual src1Type.isSigned]
  | .concat => [.bitVectorConcatenate]
  | .bitsel => [.bitVectorBitsel]

/-- A variable that is declared with so many bits: an object, or the variable of an
expression, by its index. -/
inductive CVariable (width : Nat) where
  | object (name : String)
  | expr (index : Nat)

inductive CCode where
  | skip
  | constant {n : Nat} (value : BitVec n) (tgt : CVariable n)
  | unary {m n : Nat} (f : CUnary) (src : CVariable m) (tgt : CVariable n)
  | binary {m k n : Nat} (f : CBinary) (src1 : CVariable m) (src2 : CVariable k) (tgt : CVariable n)
  | seq (first second : CCode)
  | ifElse {m : Nat} (signed : Bool) (test : CVariable m) (ifTrue ifFalse : CCode)

def printCalls {m k n : Nat} (src1 : CVariable m) (src2 : CVariable k) (tgt : CVariable n) : List CBinary → CCode
  | [] => .skip
  | f :: fs => .seq (.binary f src1 src2 tgt) (printCalls src1 src2 tgt fs)

/-- `PrintC` of an expression whose parts have the indices from `k` on: what is written, the
variable of the expression, and the next index. -/
def printC : {t : IntegerType} → AaExpression t → Nat → CCode × CVariable t.width × Nat
  | _, .reference _ name, k => (.skip, .object name, k)
  -- `Print_C_Assignment_To_Constant`
  | _, .constant v, k => (.constant (v.residue v.width) (.expr k), .expr k, k + 1)
  | _, .typeCast bitCast t rest, k =>
      let (text, src, k) := printC rest k
      (.seq text (.unary (printCTypeCastOperation bitCast t) src (CVariable.expr k : CVariable t.width)), .expr k, k + 1)
  | _, .slice width lowIndex _ rest, k =>
      let (text, src, k) := printC rest k
      (.seq text (.unary (.bitVectorSlice lowIndex) src (CVariable.expr k : CVariable width)), .expr k, k + 1)
  | t, .unary op _ rest, k =>
      let (text, src, k) := printC rest k
      (.seq text (.unary (printCUnaryOperation op) src (CVariable.expr k : CVariable t.width)), .expr k, k + 1)
  | u, @AaExpression.binary s _ _ op _ first second, k =>
      let (text1, src1, k) := printC first k
      let (text2, src2, k) := printC second k
      (.seq text1 (.seq text2 (printCalls src1 src2 (CVariable.expr k : CVariable u.width) (printCBinaryOperation s op))),
        .expr k, k + 1)
  | t, @AaExpression.ternary s _ test ifTrue ifFalse, k =>
      let (text, src, k) := printC test k
      let (text1, src1, k) := printC ifTrue k
      let (text2, src2, k) := printC ifFalse k
      -- the operands are evaluated in the branches
      (.seq text (.ifElse s.isSigned src
          (.seq text1 (.unary (.bitVectorCastToBitVector t.isSigned) src1 (CVariable.expr k : CVariable t.width)))
          (.seq text2 (.unary (.bitVectorCastToBitVector t.isSigned) src2 (CVariable.expr k : CVariable t.width)))),
        .expr k, k + 1)

end Print

section Meaning
variable {m k n : Nat}

def population (x : BitVec m) : Nat := ((List.range m).filter fun i => x.getLsbD i).length

def CUnary.result (n : Nat) (x : BitVec m) : CUnary → BitVec n
  | .bitVectorNot => (~~~x).setWidth n
  | .bitVectorDecode => BitVec.ofNat n (2 ^ x.toNat)
  | .bitVectorEncode => (Hardware.Subprograms.genericEncode x).setWidth n
  | .bitVectorPriorityEncode => (Hardware.Subprograms.priorityEncode x).setWidth n
  | .bitVectorReduceOr => (BitVec.ofBool (population x != 0)).setWidth n
  | .bitVectorReduceAnd => (BitVec.ofBool (population x == m)).setWidth n
  | .bitVectorReduceXor => (BitVec.ofBool (population x % 2 == 1)).setWidth n
  | .bitVectorCastToBitVector signed => if signed then BitVec.ofInt n x.toInt else BitVec.ofNat n x.toNat
  | .bitVectorBitcastToBitVector => x.setWidth n
  | .bitVectorSlice lowIndex => x.extractLsb' lowIndex n

def integerOf (signed : Bool) (x : BitVec m) : Int := if signed then x.toInt else x.toNat

def CBinary.result (n : Nat) (x : BitVec m) (y : BitVec k) : CBinary → BitVec n
  | .bitVectorOr => x.setWidth n ||| y.setWidth n
  | .bitVectorAnd => x.setWidth n &&& y.setWidth n
  | .bitVectorXor => x.setWidth n ^^^ y.setWidth n
  | .bitVectorNor => ~~~(x.setWidth n ||| y.setWidth n)
  | .bitVectorNand => ~~~(x.setWidth n &&& y.setWidth n)
  | .bitVectorXnor => ~~~(x.setWidth n ^^^ y.setWidth n)
  | .bitVectorShiftLeft => (x <<< y.toNat).setWidth n
  | .bitVectorShiftRight signed => BitVec.ofInt n (integerOf signed x >>> y.toNat)
  | .bitVectorRotateRight => (x.rotateRight y.toNat).setWidth n
  | .bitVectorRotateLeft => (x.rotateLeft y.toNat).setWidth n
  | .bitVectorPlus => BitVec.ofNat n (x.toNat + y.toNat)
  | .bitVectorMinus => BitVec.ofInt n (x.toNat - y.toNat)
  | .bitVectorMul => BitVec.ofNat n (x.toNat * y.toNat)
  | .bitVectorSmul => BitVec.ofInt n (x.toInt * y.toInt)
  | .bitVectorEqual signed => (BitVec.ofBool (integerOf signed x == integerOf signed y)).setWidth n
  | .bitVectorNotEqual signed => (BitVec.ofBool (integerOf signed x != integerOf signed y)).setWidth n
  | .bitVectorLess signed => (BitVec.ofBool (integerOf signed x < integerOf signed y)).setWidth n
  | .bitVectorLessEqual signed => (BitVec.ofBool (integerOf signed x ≤ integerOf signed y)).setWidth n
  | .bitVectorGreater signed => (BitVec.ofBool (integerOf signed x > integerOf signed y)).setWidth n
  | .bitVectorGreaterEqual signed => (BitVec.ofBool (integerOf signed x ≥ integerOf signed y)).setWidth n
  | .bitVectorConcatenate => (x ++ y).setWidth n
  | .bitVectorBitsel => (BitVec.ofBool (x.getLsbD y.toNat)).setWidth n

/-- `C_Value_Expression` as a condition: the number that `bit_vector_to_uint64` makes. -/
def cTrue (signed : Bool) (x : BitVec m) : Bool := BitVec.ofInt 64 (integerOf signed x) != 0#64

section Results

theorem integerOf_eq_iff (signed : Bool) (x y : BitVec n) : integerOf signed x = integerOf signed y ↔ x = y := by
  cases signed with
  | true => exact BitVec.toInt_inj
  | false => exact Int.ofNat_inj.trans BitVec.toNat_inj

theorem equal_eq (signed : Bool) (x y : BitVec n) : (integerOf signed x == integerOf signed y) = (x == y) := by
  rw [Bool.eq_iff_iff, beq_iff_eq, beq_iff_eq]
  exact integerOf_eq_iff signed x y

theorem less_eq (signed : Bool) (x y : BitVec n) :
    decide (integerOf signed x < integerOf signed y) = if signed then x.slt y else x.ult y := by
  cases signed with
  | true => rfl
  | false => exact decide_eq_decide.mpr Int.ofNat_lt

theorem lessEqual_eq (signed : Bool) (x y : BitVec n) :
    decide (integerOf signed x ≤ integerOf signed y) = if signed then x.sle y else x.ule y := by
  cases signed with
  | true => rfl
  | false => exact decide_eq_decide.mpr Int.ofNat_le

theorem shiftRight_eq (signed : Bool) (x : BitVec n) (k : Nat) :
    BitVec.ofInt n (integerOf signed x >>> k) = if signed then x.sshiftRight k else x >>> k := by
  cases signed with
  | true => rfl
  | false =>
      refine BitVec.eq_of_toNat_eq ?_
      have le : x.toNat >>> k < 2 ^ n := (Nat.shiftRight_le _ _).trans_lt x.isLt
      have shifted : integerOf false x >>> k = ((x.toNat >>> k : Nat) : Int) := rfl
      rw [shifted, BitVec.ofInt_natCast, BitVec.toNat_ofNat, Nat.mod_eq_of_lt le]
      exact (BitVec.toNat_ushiftRight x k).symm

theorem mul_eq (signed : Bool) (x y : BitVec n) :
    (if signed then BitVec.ofInt n (x.toInt * y.toInt) else BitVec.ofNat n (x.toNat * y.toNat)) = x * y := by
  cases signed with
  | true => rw [if_pos rfl, BitVec.ofInt_mul, BitVec.ofInt_toInt, BitVec.ofInt_toInt]
  | false =>
      rw [if_neg Bool.false_ne_true, BitVec.ofNat_mul, BitVec.ofNat_toNat, BitVec.ofNat_toNat, BitVec.setWidth_eq,
        BitVec.setWidth_eq]

theorem sum_eq (x y : BitVec n) : BitVec.ofNat n (x.toNat + y.toNat) = x + y := by
  rw [BitVec.ofNat_add, BitVec.ofNat_toNat, BitVec.ofNat_toNat, BitVec.setWidth_eq, BitVec.setWidth_eq]

theorem difference_eq (x y : BitVec n) : BitVec.ofInt n (x.toNat - y.toNat) = x - y := by
  rw [Int.sub_eq_add_neg, BitVec.ofInt_add, BitVec.ofInt_neg, BitVec.ofInt_natCast, BitVec.ofInt_natCast, BitVec.ofNat_toNat,
    BitVec.ofNat_toNat, BitVec.setWidth_eq, BitVec.setWidth_eq, BitVec.sub_eq_add_neg]

theorem cast_self (signed : Bool) (x : BitVec n) : (CUnary.bitVectorCastToBitVector signed).result n x = x := by
  change (if signed then BitVec.ofInt n x.toInt else BitVec.ofNat n x.toNat) = x
  rw [BitVec.ofInt_toInt, BitVec.ofNat_toNat, BitVec.setWidth_eq, ite_self]

end Results

structure CStore where
  objects : Assignment
  exprs : (width : Nat) → Nat → BitVec width

namespace CStore

def read {width : Nat} (s : CStore) : CVariable width → BitVec width
  | .object name => s.objects width name
  | .expr index => s.exprs width index

def write {width : Nat} (s : CStore) (v : CVariable width) (x : BitVec width) : CStore :=
  match v with
  | .object name => { s with objects := Function.update s.objects width (Function.update (s.objects width) name x) }
  | .expr index => { s with exprs := Function.update s.exprs width (Function.update (s.exprs width) index x) }

end CStore

def CCode.exec : CCode → CStore → CStore
  | .skip, s => s
  | .constant value tgt, s => s.write tgt value
  | @CCode.unary _ n f src tgt, s => s.write tgt (f.result n (s.read src))
  | @CCode.binary _ _ n f src1 src2 tgt, s => s.write tgt (f.result n (s.read src1) (s.read src2))
  | .seq first second, s => second.exec (first.exec s)
  | .ifElse signed test ifTrue ifFalse, s => if cTrue signed (s.read test) then ifTrue.exec s else ifFalse.exec s

/-- The value that the statements for an expression leave in its variable, whatever was in
the variables of expressions before. -/
def AaExpression.cValue {t : IntegerType} (e : AaExpression t) (leftovers : (width : Nat) → Nat → BitVec width)
    (objects : Assignment) : BitVec t.width :=
  ((printC e 0).1.exec ⟨objects, leftovers⟩).read (printC e 0).2.1

end Meaning

end Ahir.Aa.BackEnds
