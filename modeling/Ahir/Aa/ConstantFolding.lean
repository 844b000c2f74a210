import Ahir.Hardware.OperatorPackage
import Ahir.Value.Compare
import Ahir.Value.Rearrange

/-!
# Constant folding

An operation on constants is performed when the program is compiled.  What it gives
should be what the procedure of the operation would give at run time.
-/

set_option autoImplicit false

namespace Ahir.Aa
open Ahir.Value Ahir.Hardware Ahir.Hardware.OperatorPackage

def vector (v : Unsigned) : Vector := ⟨v.width, v.residue v.width⟩

/-- `Is("AaIntType")` of the type of a value. -/
def isInt (v : Unsigned) : Bool := v.kind == .signed

/-- `icrv`, a value of one bit. -/
def boolean (b : Bool) : Unsigned := (Unsigned.resetAndClear .unsigned 1 (by decide)).setBit 0 b

def ofOneWidth (irv v result : Unsigned) : Option Unsigned :=
  if irv.width = v.width then some result else none

/-- `Get_Bit` asserts that the bit is in the storage. -/
def getBit? (irv : Unsigned) (idx : Int) : Option Bool :=
  if 0 ≤ idx ∧ idx.toNat / 64 < arraySize irv.width then some (irv.getBit idx.toNat) else none

/-- `Perform_Unary_Operation`; there is only the complement. -/
def performUnaryOperation (v : Unsigned) : Unsigned := v.copy.complement

/-- `Perform_Binary_Operation`, in calls nested not deeper than `fuel`. -/
def performBinaryOperation (fuel : Nat) (op : Operation) (u v : Unsigned) : Option Unsigned :=
  let irv := u.copy
  match op with
  | .or => ofOneWidth irv v (irv.or v)
  | .and => ofOneWidth irv v (irv.and v)
  | .nor => ofOneWidth irv v (irv.nor v)
  | .nand => ofOneWidth irv v (irv.nand v)
  | .xor => ofOneWidth irv v (irv.xor v)
  | .xnor => ofOneWidth irv v (irv.xnor v)
  | .shl => some (irv.shiftLeft v.toInt)
  | .shr => some (irv.shiftRight v.toInt)
  | .rol => irv.rotateLeft fuel v.toInt
  | .ror => irv.rotateRight fuel v.toInt
  | .plus => ofOneWidth irv v (irv.add v)
  | .minus => ofOneWidth irv v (irv.subtract v)
  | .div => if irv.width = v.width then irv.divide v else none
  | .mul => ofOneWidth irv v (irv.multiply v)
  | .equal => ofOneWidth irv v (boolean (irv.equal v))
  | .notEqual => ofOneWidth irv v (boolean !(irv.equal v))
  | .less => ofOneWidth irv v (boolean (irv.lessThan v))
  | .lessEqual => ofOneWidth irv v (boolean (irv.lessEqual v))
  | .greater => ofOneWidth irv v (boolean (irv.greater v))
  | .greaterEqual => ofOneWidth irv v (boolean (irv.greaterEqual v))
  | .concat => some (irv.concatenate v)
  | .bitsel => (getBit? irv v.toInt).map boolean

/-- The operand types that a program can have: an amount, an index and what is appended can
be of any integer type, other operands are of one. -/
def WellTyped (op : Operation) (u v : Unsigned) : Prop :=
  match op with
  | .shl | .shr | .rol | .ror | .concat | .bitsel => True
  | _ => u.kind = v.kind ∧ u.width = v.width

/-- Folding ends, with the vector that the procedure computes. -/
def Agrees (op : Operation) (u v : Unsigned) : Prop :=
  ∃ fuel result, performBinaryOperation fuel op u v = some result ∧
    twoInputOperation op (isInt u) (u.residue u.width) (v.residue v.width) = some (vector result)

/-- What an operation on constants is folded to; a call that calls itself does so without an end,
so that one level is as good as more. -/
def FoldsTo (op : Operation) (u v : Unsigned) {n : Nat} (x : BitVec n) : Prop :=
  ∃ result, performBinaryOperation 1 op u v = some result ∧ result.width = n ∧ result.residue n = x

/-- An amount or an index below a bound, with nothing above it in its first word. -/
def Below (v : Unsigned) (bound : Nat) : Prop :=
  v.toUinteger.toNat = (v.residue v.width).toNat ∧ (v.residue v.width).toNat < bound

def Covered (op : Operation) (u v : Unsigned) : Prop :=
  match op with
  | .or | .and | .nor | .nand | .xor | .xnor | .plus | .minus | .equal | .notEqual | .concat => True
  | .mul => u.width ≤ 64
  | .div => False
  | .shl => Below v (2 ^ min 31 (ceilLog2 u.width + 1))
  | .shr => Below v (2 ^ min 31 (ceilLog2 u.width + 1)) ∧ (u.isNegative = false ∨ (v.residue v.width).toNat = 0)
  | .rol | .ror => Below v 1
  | .less | .greater => u.isNegative = v.isNegative
  | .lessEqual | .greaterEqual => u.isNegative = v.isNegative ∧ u.residue u.width ≠ v.residue u.width
  | .bitsel => Below v (min (2 ^ 31) u.width)

section Vectors
variable {u v : Unsigned}

theorem vector_eq {n : Nat} {x : BitVec n} (width : u.width = n) (residue : u.residue n = x) :
    vector u = ⟨n, x⟩ := by
  subst width residue
  rfl

theorem residue_boolean (b : Bool) : (boolean b).residue 1 = BitVec.ofBool b := by
  cases b <;> decide

theorem ofOneWidth_copy (same : u.width = v.width) (result : Unsigned) :
    ofOneWidth u.copy v result = some result :=
  if_pos (u.width_copy.trans same)

theorem ofOneLength_self {n : Nat} (f : {k : Nat} → BitVec k → BitVec k → Vector) (l r : BitVec n) :
    ofOneLength f l r = some (f l r) := by
  unfold ofOneLength
  rw [dif_pos rfl, BitVec.cast_eq]

theorem FoldsTo.agrees {op : Operation} {n : Nat} {x : BitVec n} (folds : FoldsTo op u v x)
    (procedure : twoInputOperation op (isInt u) (u.residue u.width) (v.residue v.width) = some ⟨n, x⟩) :
    Agrees op u v := by
  obtain ⟨result, folded, width, residue⟩ := folds
  exact ⟨1, result, folded, by rw [procedure, vector_eq width residue]⟩

theorem FoldsTo.agrees_of_same {op : Operation} {n : Nat} {x : BitVec n} (folds : FoldsTo op u v x)
    (same : u.width = v.width)
    (procedure : twoInputOperation op (isInt u) (u.residue u.width) (v.residue u.width) = some ⟨n, x⟩) : Agrees op u v := by
  refine folds.agrees (.trans ?_ procedure)
  rw [same]

theorem greater_copy (same : u.width = v.width) :
    u.copy.greater v = (v.residue u.width).ult (u.residue u.width) := by
  rw [Unsigned.greater_eq _ _ (u.width_copy.trans same), BitVec.ult_eq_decide, ← same, Unsigned.width_copy,
    u.residue_copy rfl]

theorem lessThan_copy (same : u.width = v.width) :
    u.copy.lessThan v = (u.residue u.width).ult (v.residue u.width) := by
  rw [Unsigned.lessThan, Unsigned.greater_eq _ _ (u.width_copy.trans same).symm, BitVec.ult_eq_decide, ← same,
    Unsigned.width_copy, u.residue_copy rfl]

theorem equal_copy (same : u.width = v.width) :
    u.copy.equal v = (u.residue u.width == v.residue u.width) := by
  rw [Unsigned.equal_eq _ _ (u.width_copy.trans same), ← same, Unsigned.width_copy, u.residue_copy rfl,
    Bool.eq_iff_iff, decide_eq_true_iff, beq_iff_eq, BitVec.toNat_inj]

theorem ult_and_not_ult {n : Nat} (x y : BitVec n) : (x.ult y && !y.ult x) = x.ult y := by
  rw [BitVec.ult_eq_decide, BitVec.ult_eq_decide]
  by_cases less : x.toNat < y.toNat
  · rw [decide_eq_true less, decide_eq_false (show ¬ y.toNat < x.toNat by omega)]
    rfl
  · rw [decide_eq_false less]
    rfl

theorem lessEqual_copy (same : u.width = v.width) :
    u.copy.lessEqual v = (u.residue u.width).ult (v.residue u.width) := by
  rw [Unsigned.lessEqual, lessThan_copy same, greater_copy same, ult_and_not_ult]

theorem greaterEqual_copy (same : u.width = v.width) :
    u.copy.greaterEqual v = (v.residue u.width).ult (u.residue u.width) := by
  have less : v.greater u.copy = (u.residue u.width).ult (v.residue u.width) := lessThan_copy same
  rw [Unsigned.greaterEqual, less, greater_copy same, ult_and_not_ult]

theorem ult_of_ne {n : Nat} {x y : BitVec n} (ne : x ≠ y) : x.ult y = x.ule y := by
  have ne : x.toNat ≠ y.toNat := fun eq => ne (BitVec.eq_of_toNat_eq eq)
  rw [BitVec.ule_eq_decide, BitVec.ult_eq_decide]
  exact decide_eq_decide.mpr (by omega)

/-- The sign bits of operands of one type are alike where their signs are, or no procedure asks for them. -/
theorem msb_of_sameSign (kind : u.kind = v.kind) (same : u.width = v.width) (sameSign : u.isNegative = v.isNegative)
    (signed : isInt u = true) : (u.residue u.width).msb = (v.residue u.width).msb := by
  have kindU : u.kind = .signed := eq_of_beq signed
  have kindV : v.kind = .signed := kind.symm.trans kindU
  have signV : (v.residue u.width).msb = v.getBit (v.width - 1) := by rw [same, v.msb_residue]
  rw [u.msb_residue, signV]
  simpa only [Unsigned.isNegative, kindU, kindV] using sameSign

theorem toInt_of_below {bound : Nat} (below : Below v bound) (le : bound ≤ 2 ^ 31) :
    v.toInt = (v.residue v.width).toNat :=
  v.toInt_of_exact below.1 (below.2.trans_le le)

theorem amount_of_below {m : Nat} (below : Below v (2 ^ min 31 (ceilLog2 m + 1))) :
    shiftAmount m (v.residue v.width) = v.toInt.toNat := by
  have le : 2 ^ min 31 (ceilLog2 m + 1) ≤ 2 ^ 31 := Nat.pow_le_pow_right (by decide) (Nat.min_le_left _ _)
  have fits : 2 ^ min 31 (ceilLog2 m + 1) ≤ 2 ^ (ceilLog2 m + 1) :=
    Nat.pow_le_pow_right (by decide) (Nat.min_le_right _ _)
  unfold shiftAmount
  rw [toNat_toUnsigned (below.2.trans_le fits), toInt_of_below below le, Int.toNat_natCast]

end Vectors

section Folds
variable {u v : Unsigned}

theorem performBinaryOperation_succ (fuel : Nat) (op : Operation) (u v : Unsigned) :
    performBinaryOperation (fuel + 1) op u v = performBinaryOperation 1 op u v := by
  have rotation : Unsigned.rotate (fuel + 1) u.copy v.toInt = Unsigned.rotate 1 u.copy v.toInt := by
    by_cases pos : 0 < v.toInt
    · rw [Unsigned.rotate_of_pos pos, Unsigned.rotate_of_pos pos]
    · rw [Unsigned.rotate_of_nonpos (Int.not_lt.mp pos), Unsigned.rotate_of_nonpos (Int.not_lt.mp pos)]
  cases op with
  | rol => exact rotation
  | ror => exact rotation
  | _ => rfl

/-- An operation on two operands of one width whose result is another of it. -/
theorem foldsTo_of_residue {op : Operation} {result : Unsigned} {x : BitVec u.width} (same : u.width = v.width)
    (folded : performBinaryOperation 1 op u v = ofOneWidth u.copy v result) (width : result.width = u.width)
    (residue : result.residue u.width = x) : FoldsTo op u v x :=
  ⟨result, folded.trans (ofOneWidth_copy same result), width, residue⟩

theorem foldsTo_of_boolean {op : Operation} {b : Bool} (same : u.width = v.width)
    (folded : performBinaryOperation 1 op u v = ofOneWidth u.copy v (boolean b)) : FoldsTo op u v (BitVec.ofBool b) :=
  ⟨boolean b, folded.trans (ofOneWidth_copy same (boolean b)), rfl, residue_boolean b⟩

theorem residue_complement_wordwise {op : UWord → UWord → UWord} {x : BitVec u.width}
    (residue : (u.copy.wordwise op v).residue u.width = x) :
    (u.copy.wordwise op v).complement.residue u.width = ~~~x := by
  rw [Unsigned.residue_complement (show (u.copy.wordwise op v).width = u.width from u.width_copy), residue]

section OneWidth
variable (same : u.width = v.width)
include same

theorem foldsTo_bitwise :
    FoldsTo .or u v (u.residue u.width ||| v.residue u.width) ∧
      FoldsTo .and u v (u.residue u.width &&& v.residue u.width) ∧
      FoldsTo .xor u v (u.residue u.width ^^^ v.residue u.width) ∧
      FoldsTo .nor u v (~~~(u.residue u.width ||| v.residue u.width)) ∧
      FoldsTo .nand u v (~~~(u.residue u.width &&& v.residue u.width)) ∧
      FoldsTo .xnor u v (~~~(u.residue u.width ^^^ v.residue u.width)) := by
  have width := u.width_copy
  have or : (u.copy.or v).residue u.width = u.residue u.width ||| v.residue u.width := by
    rw [Unsigned.residue_or width, u.residue_copy rfl]
  have and : (u.copy.and v).residue u.width = u.residue u.width &&& v.residue u.width := by
    rw [Unsigned.residue_and width, u.residue_copy rfl]
  have xor : (u.copy.xor v).residue u.width = u.residue u.width ^^^ v.residue u.width := by
    rw [Unsigned.residue_xor width, u.residue_copy rfl]
  refine ⟨?_, ?_, ?_, ?_, ?_, ?_⟩
  · exact foldsTo_of_residue same rfl width or
  · exact foldsTo_of_residue same rfl width and
  · exact foldsTo_of_residue same rfl width xor
  · exact foldsTo_of_residue same rfl width (residue_complement_wordwise or)
  · exact foldsTo_of_residue same rfl width (residue_complement_wordwise and)
  · exact foldsTo_of_residue same rfl width (residue_complement_wordwise xor)

theorem foldsTo_plus : FoldsTo .plus u v (u.residue u.width + v.residue u.width) := by
  have width : u.copy.width = v.width := u.width_copy.trans same
  refine foldsTo_of_residue same rfl ((Unsigned.width_add width).trans u.width_copy) ?_
  rw [Unsigned.residue_add u.width_copy same.symm, u.residue_copy rfl]

theorem foldsTo_minus : FoldsTo .minus u v (u.residue u.width - v.residue u.width) := by
  have width : u.copy.width = v.width := u.width_copy.trans same
  refine foldsTo_of_residue same rfl ((Unsigned.width_subtract width).trans u.width_copy) ?_
  rw [Unsigned.residue_subtract u.width_copy same.symm, u.residue_copy rfl]

theorem foldsTo_mul (le : u.width ≤ 64) : FoldsTo .mul u v (u.residue u.width * v.residue u.width) := by
  have width : (u.copy.multiply v).width = u.width := by
    rw [Unsigned.multiply, if_neg (by omega)]
    exact u.width_copy
  refine foldsTo_of_residue same rfl width ?_
  rw [Unsigned.residue_multiply same.symm le, u.residue_copy rfl]

theorem foldsTo_mul_of_lt (lt : 64 < u.width) : FoldsTo .mul u v (u.residue u.width) := by
  have stays : u.copy.multiply v = u.copy := if_pos (by omega)
  refine foldsTo_of_residue same rfl ?_ ?_
  · rw [stays]
    exact u.width_copy
  · rw [stays]
    exact u.residue_copy rfl

theorem foldsTo_equal : FoldsTo .equal u v (BitVec.ofBool (u.residue u.width == v.residue u.width)) := by
  rw [← equal_copy same]
  exact foldsTo_of_boolean same rfl

theorem foldsTo_notEqual : FoldsTo .notEqual u v (BitVec.ofBool !(u.residue u.width == v.residue u.width)) := by
  rw [← equal_copy same]
  exact foldsTo_of_boolean same rfl

/-- The order is that of unsigned numbers, and both strict and not it is strict. -/
theorem foldsTo_less {op : Operation} (less : op = .less ∨ op = .lessEqual) :
    FoldsTo op u v (BitVec.ofBool ((u.residue u.width).ult (v.residue u.width))) := by
  rcases less with rfl | rfl
  · rw [← lessThan_copy same]
    exact foldsTo_of_boolean same rfl
  · rw [← lessEqual_copy same]
    exact foldsTo_of_boolean same rfl

theorem foldsTo_greater {op : Operation} (greater : op = .greater ∨ op = .greaterEqual) :
    FoldsTo op u v (BitVec.ofBool ((v.residue u.width).ult (u.residue u.width))) := by
  rcases greater with rfl | rfl
  · rw [← greater_copy same]
    exact foldsTo_of_boolean same rfl
  · rw [← greaterEqual_copy same]
    exact foldsTo_of_boolean same rfl

end OneWidth

theorem foldsTo_shl : FoldsTo .shl u v (u.residue u.width <<< v.toInt.toNat) := by
  obtain ⟨width, residue⟩ := Unsigned.shiftLeft_spec u.width_copy v.toInt
  rw [u.residue_copy rfl] at residue
  exact ⟨_, rfl, width, residue⟩

theorem foldsTo_shr : FoldsTo .shr u v (u.residue u.width >>> v.toInt.toNat) := by
  obtain ⟨width, residue⟩ := Unsigned.shiftRight_spec u.width_copy v.toInt
  rw [u.residue_copy rfl] at residue
  exact ⟨_, rfl, width, residue⟩

theorem foldsTo_rotation {op : Operation} (rotation : op = .rol ∨ op = .ror) (stays : v.toInt ≤ 0) :
    FoldsTo op u v (u.residue u.width) := by
  have folded := Unsigned.rotate_of_nonpos stays 0 u.copy
  rcases rotation with rfl | rfl
  · exact ⟨u.copy, folded, u.width_copy, u.residue_copy rfl⟩
  · exact ⟨u.copy, folded, u.width_copy, u.residue_copy rfl⟩

theorem rotation_of_pos {op : Operation} (rotation : op = .rol ∨ op = .ror) (pos : 0 < v.toInt) (fuel : Nat) :
    performBinaryOperation fuel op u v = none := by
  rcases rotation with rfl | rfl
  · exact Unsigned.rotate_of_pos pos fuel u.copy
  · exact Unsigned.rotate_of_pos pos fuel u.copy

theorem foldsTo_concat : FoldsTo .concat u v (u.residue u.width ++ v.residue v.width) :=
  ⟨_, rfl, (u.copy.width_concatenate v).trans (by rw [u.width_copy]),
    (u.copy.residue_concatenate v u.width_copy rfl).trans (by rw [u.residue_copy rfl])⟩

theorem foldsTo_bitsel {b : Bool} (bit : getBit? u.copy v.toInt = some b) : FoldsTo .bitsel u v (BitVec.ofBool b) :=
  ⟨boolean b, congrArg (Option.map boolean) bit, rfl, residue_boolean b⟩

end Folds

section Procedures
variable {u v : Unsigned}

theorem agrees_bitwise {op : Operation}
    (bitwise : op = .or ∨ op = .and ∨ op = .nor ∨ op = .nand ∨ op = .xor ∨ op = .xnor) (same : u.width = v.width) :
    Agrees op u v := by
  obtain ⟨or, and, xor, nor, nand, xnor⟩ := foldsTo_bitwise same
  rcases bitwise with rfl | rfl | rfl | rfl | rfl | rfl
  · exact or.agrees_of_same same (by rw [twoInputOperation, ofOneLength_self, apIntOr])
  · exact and.agrees_of_same same (by rw [twoInputOperation, ofOneLength_self, apIntAnd])
  · exact nor.agrees_of_same same (by rw [twoInputOperation, ofOneLength_self, apIntNor])
  · exact nand.agrees_of_same same (by rw [twoInputOperation, ofOneLength_self, apIntNand])
  · exact xor.agrees_of_same same (by rw [twoInputOperation, ofOneLength_self, apIntXor])
  · exact xnor.agrees_of_same same (by rw [twoInputOperation, ofOneLength_self, apIntXnor])

theorem agrees_mul (same : u.width = v.width) (le : u.width ≤ 64) : Agrees .mul u v := by
  refine (foldsTo_mul same le).agrees_of_same same ?_
  rw [twoInputOperation, ofOneLength_self, apIntMul_eq]

theorem agrees_shl (below : Below v (2 ^ min 31 (ceilLog2 u.width + 1))) : Agrees .shl u v := by
  refine foldsTo_shl.agrees ?_
  rw [← amount_of_below below]
  rfl

/-- Shifts to the right are alike where there is no sign to go on with. -/
theorem sshiftRight_eq {n : Nat} {x : BitVec n} {k : Nat} (plain : x.msb = false ∨ k = 0) :
    x.sshiftRight k = x >>> k := by
  rcases plain with plus | rfl
  · exact BitVec.sshiftRight_eq_of_msb_false plus
  · rw [BitVec.sshiftRight_zero, BitVec.ushiftRight_zero]

theorem agrees_shr (below : Below v (2 ^ min 31 (ceilLog2 u.width + 1)))
    (plain : u.isNegative = false ∨ (v.residue v.width).toNat = 0) : Agrees .shr u v := by
  have le : 2 ^ min 31 (ceilLog2 u.width + 1) ≤ 2 ^ 31 := Nat.pow_le_pow_right (by decide) (Nat.min_le_left _ _)
  refine foldsTo_shr.agrees ?_
  rw [twoInputOperation, apIntLSHR, apIntASHR, amount_of_below below]
  by_cases signed : isInt u = true
  · rw [if_pos signed]
    refine congrArg (fun y => some (Sigma.mk _ y)) (sshiftRight_eq (plain.imp (fun plus => ?_) fun zero => ?_))
    · rw [u.msb_residue]
      simpa only [Unsigned.isNegative, eq_of_beq signed] using plus
    · rw [toInt_of_below below le, zero]
      rfl
  · rw [if_neg signed]

theorem agrees_rotation {op : Operation} (rotation : op = .rol ∨ op = .ror) (below : Below v 1) : Agrees op u v := by
  have zero : (v.residue v.width).toNat = 0 := Nat.lt_one_iff.mp below.2
  have stays : v.toInt ≤ 0 := by rw [toInt_of_below below (by decide), zero]; rfl
  have amount : shiftAmount u.width (v.residue v.width) = 0 := by
    unfold shiftAmount
    rw [toNat_toUnsigned (by rw [zero]; exact Nat.two_pow_pos _), zero]
  refine (foldsTo_rotation rotation stays).agrees ?_
  rcases rotation with rfl | rfl
  · rw [twoInputOperation, apIntROL, amount, BitVec.rotateLeft_def]
    simp [BitVec.ushiftRight_eq_zero]
  · rw [twoInputOperation, apIntROR, amount, BitVec.rotateRight_def]
    simp

theorem some_of_alike {signed : Bool} {x y : BitVec 1} (alike : signed = true → x = y) :
    some (⟨1, if signed then x else y⟩ : Vector) = some ⟨1, y⟩ := by
  cases signed with
  | false => rfl
  | true => rw [if_pos rfl, alike rfl]

section Order
variable (kind : u.kind = v.kind) (same : u.width = v.width) (sameSign : u.isNegative = v.isNegative)
include kind same sameSign

theorem agrees_less : Agrees .less u v := by
  refine (foldsTo_less same (.inl rfl)).agrees_of_same same ?_
  rw [twoInputOperation, ofOneLength_self]
  exact some_of_alike fun signed =>
    congrArg BitVec.ofBool (slt_of_sameSign (msb_of_sameSign kind same sameSign signed))

theorem agrees_greater : Agrees .greater u v := by
  refine (foldsTo_greater same (.inl rfl)).agrees_of_same same ?_
  rw [twoInputOperation, ofOneLength_self]
  exact some_of_alike fun signed =>
    congrArg BitVec.ofBool (slt_of_sameSign (msb_of_sameSign kind same sameSign signed).symm)

theorem agrees_lessEqual (ne : u.residue u.width ≠ v.residue u.width) : Agrees .lessEqual u v := by
  refine (foldsTo_less same (.inr rfl)).agrees_of_same same ?_
  rw [twoInputOperation, ofOneLength_self, ult_of_ne ne]
  exact some_of_alike fun signed =>
    congrArg BitVec.ofBool (sle_of_sameSign (msb_of_sameSign kind same sameSign signed))

theorem agrees_greaterEqual (ne : u.residue u.width ≠ v.residue u.width) : Agrees .greaterEqual u v := by
  refine (foldsTo_greater same (.inr rfl)).agrees_of_same same ?_
  rw [twoInputOperation, ofOneLength_self, ult_of_ne ne.symm]
  exact some_of_alike fun signed =>
    congrArg BitVec.ofBool (sle_of_sameSign (msb_of_sameSign kind same sameSign signed).symm)

end Order

theorem agrees_bitsel (below : Below v (min (2 ^ 31) u.width)) : Agrees .bitsel u v := by
  have index := toInt_of_below below (Nat.min_le_left _ _)
  have inside : (v.residue v.width).toNat < u.width := below.2.trans_le (Nat.min_le_right _ _)
  have bit : getBit? u.copy v.toInt = some (u.getBit (v.residue v.width).toNat) := by
    unfold getBit?
    rw [index, Int.toNat_natCast, u.width_copy, if_pos ⟨Int.natCast_nonneg _, div_lt_arraySize inside⟩,
      u.getBit_copy inside]
  refine (foldsTo_bitsel bit).agrees ?_
  rw [twoInputOperation, apBitsel_eq inside, Unsigned.getLsbD_residue, decide_eq_true inside, Bool.true_and]

end Procedures

/-- The complement of every value, and every other operation where it is covered, is
folded to what its procedure computes. -/
theorem folding_agrees :
    (∀ v : Unsigned, vector (performUnaryOperation v) = ⟨v.width, apIntNot (v.residue v.width)⟩) ∧
      ∀ (op : Operation) (u v : Unsigned), WellTyped op u v → Covered op u v → Agrees op u v := by
  constructor
  · intro v
    refine vector_eq v.width_copy ?_
    unfold performUnaryOperation
    rw [Unsigned.residue_complement v.width_copy, v.residue_copy rfl, apIntNot]
  · intro op u v typed covered
    cases op with
    | or => exact agrees_bitwise (by simp) typed.2
    | and => exact agrees_bitwise (by simp) typed.2
    | nor => exact agrees_bitwise (by simp) typed.2
    | nand => exact agrees_bitwise (by simp) typed.2
    | xor => exact agrees_bitwise (by simp) typed.2
    | xnor => exact agrees_bitwise (by simp) typed.2
    | shl => exact agrees_shl covered
    | shr => exact agrees_shr covered.1 covered.2
    | rol => exact agrees_rotation (by simp) covered
    | ror => exact agrees_rotation (by simp) covered
    | plus => exact (foldsTo_plus typed.2).agrees_of_same typed.2 (by rw [twoInputOperation, ofOneLength_self, apIntAdd])
    | minus => exact (foldsTo_minus typed.2).agrees_of_same typed.2 (by rw [twoInputOperation, ofOneLength_self, apIntSub])
    | div => exact covered.elim
    | mul => exact agrees_mul typed.2 covered
    | equal => exact (foldsTo_equal typed.2).agrees_of_same typed.2 (by rw [twoInputOperation, ofOneLength_self, apIntEq])
    | notEqual => exact (foldsTo_notEqual typed.2).agrees_of_same typed.2 (by rw [twoInputOperation, ofOneLength_self, apIntNe])
    | less => exact agrees_less typed.1 typed.2 covered
    | lessEqual => exact agrees_lessEqual typed.1 typed.2 covered.1 covered.2
    | greater => exact agrees_greater typed.1 typed.2 covered
    | greaterEqual => exact agrees_greaterEqual typed.1 typed.2 covered.1 covered.2
    | concat => exact foldsTo_concat.agrees rfl
    | bitsel => exact agrees_bitsel covered

/-- `-3 < -2` of signed bytes, and `5` shifted to the left by `9`. -/
theorem folding_agrees_byte :
    let minusThree : Unsigned := ⟨.signed, 8, [253], rfl, by decide⟩
    let minusTwo : Unsigned := ⟨.signed, 8, [254], rfl, by decide⟩
    let five : Unsigned := ⟨.unsigned, 8, [5], rfl, by decide⟩
    let nine : Unsigned := ⟨.unsigned, 8, [9], rfl, by decide⟩
    Agrees .less minusThree minusTwo ∧ Agrees .shl five nine :=
  ⟨folding_agrees.2 .less _ _ ⟨rfl, rfl⟩ rfl,
    folding_agrees.2 .shl _ _ trivial ⟨by decide, by decide +kernel⟩⟩

/-- In 65 bits `2 * 3` is folded to `2`; and a byte shifted by `16` loses all its bits when it
is folded and none at run time, where the amount has four bits. -/
theorem not_folding_agrees :
    let two : Unsigned := ⟨.unsigned, 65, [2, 0], rfl, by decide⟩
    let three : Unsigned := ⟨.unsigned, 65, [3, 0], rfl, by decide⟩
    let five : Unsigned := ⟨.unsigned, 8, [5], rfl, by decide⟩
    let sixteen : Unsigned := ⟨.unsigned, 8, [16], rfl, by decide⟩
    (WellTyped .mul two three ∧ ¬ Agrees .mul two three) ∧
      WellTyped .shl five sixteen ∧ ¬ Agrees .shl five sixteen := by
  refine ⟨⟨⟨rfl, rfl⟩, ?_⟩, trivial, ?_⟩
  · rintro ⟨_, _, folded, agrees⟩
    rw [← Option.some.inj folded] at agrees
    exact absurd agrees (by decide +kernel)
  · rintro ⟨_, _, folded, agrees⟩
    rw [← Option.some.inj folded] at agrees
    exact absurd agrees (by decide +kernel)

end Ahir.Aa
