import Ahir.Aa.ConstantExpression
import Ahir.Hardware.Encoders

/-!
# The operators of the virtual circuit

The operators that are chosen for an expression, and the values on their wires, with the
procedures of the operator package taken to compute what they are named after.
-/

set_option autoImplicit false

namespace Ahir.Aa.BackEnds

/-- The operators with one input, by what is written for them. -/
inductive VcUnaryOperator where
  | not | assign | assignStoS | assignUtoS | assignStoU
  | decode | encode | priorityEncode | reduceOr | reduceAnd | reduceXor

inductive VcBinaryOperator where
  | or | and | xor | nor | nand | xnor | shl | shr | shra | ror | rol | plus | minus | mul
  | eq | neq | slt | ult | sle | ule | sgt | ugt | sge | uge | concat | bitsel

inductive VcTree : Nat → Type where
  | wire {n : Nat} (name : String) : VcTree n
  | constant {n : Nat} (value : BitVec n) : VcTree n
  | interlockBuffer {m n : Nat} (src : VcTree m) : VcTree n
  | slice {m n : Nat} (highIndex lowIndex : Nat) (src : VcTree m) : VcTree n
  | unary {m n : Nat} (op : VcUnaryOperator) (src : VcTree m) : VcTree n
  | binary {m k n : Nat} (op : VcBinaryOperator) (src1 : VcTree m) (src2 : VcTree k) : VcTree n
  | select {m n : Nat} (test : VcTree m) (ifTrue ifFalse : VcTree n) : VcTree n

section Write

/-- `Write_VC_Unary_Operator` for a conversion, `__NOP`. -/
def writeVcConversion (srcType targetType : IntegerType) (bitcastFlag : Bool) : VcUnaryOperator :=
  if bitcastFlag || targetType = srcType || (!targetType.isSigned && !srcType.isSigned) then .assign
  else if targetType.isSigned then (if srcType.isSigned then .assignStoS else .assignUtoS)
  else .assignStoU

/-- `Write_VC_Unary_Operator` for the other operations. -/
def writeVcUnaryOperator : UnaryOperation → VcUnaryOperator
  | .not => .not
  | .decode => .decode
  | .encode => .encode
  | .priorityEncode => .priorityEncode
  | .bitreduceOr => .reduceOr
  | .bitreduceAnd => .reduceAnd
  | .bitreduceXor => .reduceXor

def writeVcBinaryOperator (src1Type targetType : IntegerType) : BinaryOperation → VcBinaryOperator
  | .or => .or
  | .and => .and
  | .xor => .xor
  | .nor => .nor
  | .nand => .nand
  | .xnor => .xnor
  | .shl => .shl
  | .shr => if targetType.isSigned then .shra else .shr
  | .ror => .ror
  | .rol => .rol
  | .plus => .plus
  | .minus => .minus
  | .mul => .mul
  | .equal => .eq
  | .notEqual => .neq
  | .less => if src1Type.isSigned then .slt else .ult
  | .lessEqual => if src1Type.isSigned then .sle else .ule
  | .greater => if src1Type.isSigned then .sgt else .ugt
  | .greaterEqual => if src1Type.isSigned then .sge else .uge
  | .concat => .concat
  | .bitsel => .bitsel

structure Flags where
  isTrivial : {t : IntegerType} → AaExpression t → Bool
  isIntermediate : {t : IntegerType} → AaExpression t → Bool

/-- `Get_VC_Driver_Name`: the constant wire of an expression with a value, for which no operator is
written, or the wire behind its operator. -/
def driver {n : Nat} (evaluation : Evaluation) (operator : VcTree n) : VcTree n :=
  match evaluation with
  | .value v => .constant (v.residue n)
  | _ => operator

/-- `Write_VC_Datapath_Instances`, and `Write_VC_Constant_Wire_Declarations` for the constants. -/
def writeVc (flags : Flags) : {t : IntegerType} → AaExpression t → VcTree t.width
  | _, .reference _ name => .wire name
  | _, .constant v => .constant (v.residue v.width)
  | _, @AaExpression.typeCast s bitCast t rest =>
      let e := @AaExpression.typeCast s bitCast t rest
      let ilbFlag := flags.isTrivial e && (!t.isSigned || t.width == s.width)
      let flowThrough := flags.isTrivial e && flags.isIntermediate e
      driver e.evaluate
        (if ilbFlag && !flowThrough then .interlockBuffer (writeVc flags rest)
        else .unary (writeVcConversion s t bitCast) (writeVc flags rest))
  | _, .slice width lowIndex fits rest =>
      driver (AaExpression.slice width lowIndex fits rest).evaluate
        (.slice (width + lowIndex - 1) lowIndex (writeVc flags rest))
  | _, .unary op types rest =>
      driver (AaExpression.unary op types rest).evaluate (.unary (writeVcUnaryOperator op) (writeVc flags rest))
  | u, @AaExpression.binary s _ _ op types first second =>
      driver (AaExpression.binary op types first second).evaluate
        (.binary (writeVcBinaryOperator s u op) (writeVc flags first) (writeVc flags second))
  | _, .ternary test ifTrue ifFalse =>
      driver (AaExpression.ternary test ifTrue ifFalse).evaluate
        (.select (writeVc flags test) (writeVc flags ifTrue) (writeVc flags ifFalse))

end Write

section Procedures

inductive UnaryProcedure where
  | apIntNot | apIntToApIntSigned | apIntToApIntUnsigned | apIntDecode | apIntEncode | apIntPriorityEncode
  | apIntBitreduceOr | apIntBitreduceAnd | apIntBitreduceXor

inductive BinaryProcedure where
  | apIntOr | apIntAnd | apIntXor | apIntNor | apIntNand | apIntXnor | apIntSHL | apIntLSHR | apIntASHR | apIntROR | apIntROL
  | apIntAdd | apIntSub | apIntMul | apIntEq | apIntNe | apIntSlt | apIntUlt | apIntSle | apIntUle | apIntSgt | apIntUgt
  | apIntSge | apIntUge | apConcat | apBitsel

/-- `Get_VHDL_Op_Id`; an assignment between types of one kind is an interlock buffer. -/
def VcUnaryOperator.vhdlOpId : VcUnaryOperator → Option UnaryProcedure
  | .not => some .apIntNot
  | .assign => none
  | .assignStoS => some .apIntToApIntSigned
  | .assignUtoS => some .apIntToApIntSigned
  | .assignStoU => some .apIntToApIntUnsigned
  | .decode => some .apIntDecode
  | .encode => some .apIntEncode
  | .priorityEncode => some .apIntPriorityEncode
  | .reduceOr => some .apIntBitreduceOr
  | .reduceAnd => some .apIntBitreduceAnd
  | .reduceXor => some .apIntBitreduceXor

def VcBinaryOperator.vhdlOpId : VcBinaryOperator → BinaryProcedure
  | .or => .apIntOr
  | .and => .apIntAnd
  | .xor => .apIntXor
  | .nor => .apIntNor
  | .nand => .apIntNand
  | .xnor => .apIntXnor
  | .shl => .apIntSHL
  | .shr => .apIntLSHR
  | .shra => .apIntASHR
  | .ror => .apIntROR
  | .rol => .apIntROL
  | .plus => .apIntAdd
  | .minus => .apIntSub
  | .mul => .apIntMul
  | .eq => .apIntEq
  | .neq => .apIntNe
  | .slt => .apIntSlt
  | .ult => .apIntUlt
  | .sle => .apIntSle
  | .ule => .apIntUle
  | .sgt => .apIntSgt
  | .ugt => .apIntUgt
  | .sge => .apIntSge
  | .uge => .apIntUge
  | .concat => .apConcat
  | .bitsel => .apBitsel

variable {m k : Nat}

def reduce (gate : Bool → Bool → Bool) (start : Bool) (x : BitVec m) : Bool :=
  (List.range m).foldl (fun result i => gate result (x.getLsbD i)) start

def UnaryProcedure.result (n : Nat) (x : BitVec m) : UnaryProcedure → BitVec n
  | .apIntNot => ~~~(x.setWidth n)
  | .apIntToApIntSigned => x.signExtend n
  | .apIntToApIntUnsigned => x.setWidth n
  | .apIntDecode => (Hardware.Subprograms.genericDecode x).setWidth n
  | .apIntEncode => (Hardware.Subprograms.genericEncode x).setWidth n
  | .apIntPriorityEncode => (Hardware.Subprograms.priorityEncode x).setWidth n
  | .apIntBitreduceOr => (BitVec.ofBool (reduce (· || ·) false x)).setWidth n
  | .apIntBitreduceAnd => (BitVec.ofBool (reduce (· && ·) true x)).setWidth n
  | .apIntBitreduceXor => (BitVec.ofBool (reduce xor false x)).setWidth n

/-- Where a procedure asks for operands of one length, they have it. -/
def BinaryProcedure.result (n : Nat) (l : BitVec m) (r : BitVec k) : BinaryProcedure → BitVec n
  | .apIntOr => l.setWidth n ||| r.setWidth n
  | .apIntAnd => l.setWidth n &&& r.setWidth n
  | .apIntXor => l.setWidth n ^^^ r.setWidth n
  | .apIntNor => ~~~(l.setWidth n ||| r.setWidth n)
  | .apIntNand => ~~~(l.setWidth n &&& r.setWidth n)
  | .apIntXnor => ~~~(l.setWidth n ^^^ r.setWidth n)
  | .apIntSHL => (l <<< r.toNat).setWidth n
  | .apIntLSHR => (l >>> r.toNat).setWidth n
  | .apIntASHR => (l.sshiftRight r.toNat).setWidth n
  | .apIntROR => (l.rotateRight r.toNat).setWidth n
  | .apIntROL => (l.rotateLeft r.toNat).setWidth n
  | .apIntAdd => l.setWidth n + r.setWidth n
  | .apIntSub => l.setWidth n - r.setWidth n
  | .apIntMul => (l.setWidth (m + k) * r.setWidth (m + k)).setWidth n
  | .apIntEq => (BitVec.ofBool (l == r.setWidth m)).setWidth n
  | .apIntNe => (BitVec.ofBool (l != r.setWidth m)).setWidth n
  | .apIntSlt => (BitVec.ofBool (l.slt (r.setWidth m))).setWidth n
  | .apIntUlt => (BitVec.ofBool (l.ult (r.setWidth m))).setWidth n
  | .apIntSle => (BitVec.ofBool (l.sle (r.setWidth m))).setWidth n
  | .apIntUle => (BitVec.ofBool (l.ule (r.setWidth m))).setWidth n
  | .apIntSgt => (BitVec.ofBool ((r.setWidth m).slt l)).setWidth n
  | .apIntUgt => (BitVec.ofBool ((r.setWidth m).ult l)).setWidth n
  | .apIntSge => (BitVec.ofBool ((r.setWidth m).sle l)).setWidth n
  | .apIntUge => (BitVec.ofBool ((r.setWidth m).ule l)).setWidth n
  | .apConcat => (l ++ r).setWidth n
  | .apBitsel => (BitVec.ofBool (l.getLsbD r.toNat)).setWidth n

/-- The value that an interlock buffer hands on: the lowest bits, with zeros above them. -/
def pad (n : Nat) (x : BitVec m) : BitVec n := x.setWidth n

def VcUnaryOperator.result (n : Nat) (x : BitVec m) (op : VcUnaryOperator) : BitVec n :=
  match op.vhdlOpId with
  | some procedure => procedure.result n x
  | none => pad n x

def VcBinaryOperator.result (n : Nat) (l : BitVec m) (r : BitVec k) (op : VcBinaryOperator) : BitVec n :=
  op.vhdlOpId.result n l r

def VcTree.value (objects : Assignment) : {n : Nat} → VcTree n → BitVec n
  | n, .wire name => objects n name
  | _, .constant value => value
  | n, .interlockBuffer src => pad n (src.value objects)
  | n, .slice highIndex lowIndex src => ((src.value objects).extractLsb' lowIndex (highIndex + 1 - lowIndex)).setWidth n
  | n, .unary op src => op.result n (src.value objects)
  | n, .binary op src1 src2 => op.result n (src1.value objects) (src2.value objects)
  | _, .select test ifTrue ifFalse =>
      -- the port for the test has one bit
      if (test.value objects).getLsbD 0 then ifTrue.value objects else ifFalse.value objects

end Procedures

end Ahir.Aa.BackEnds
