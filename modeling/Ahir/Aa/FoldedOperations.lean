import Ahir.Aa.CStatements
import Ahir.Aa.ConstantExpression
import Ahir.Value.ManySteps

/-!
# Operations on constants

Where the value that is assigned to an operation on constants is the one that the C functions
compute.
-/

set_option autoImplicit false

namespace Ahir.Aa.BackEnds
open Ahir.Value Ahir.Data

/-- Where performing a binary operation gives what the C functions do.  The amounts and the index
are the number of the second operand for the functions, and an `int` from its first word for what
is performed. -/
def BinaryOperation.Safe (op : BinaryOperation) (u v : Unsigned) : Prop :=
  let x := u.residue u.width
  let y := (v.residue v.width).toNat
  match op with
  | .or | .and | .xor | .nor | .nand | .xnor | .plus | .minus | .equal | .notEqual | .concat => True
  | .mul => u.width ≤ 64 ∨ x * v.residue u.width = x
  | .shl => v.toInt.toNat = y ∨ x <<< min v.toInt.toNat y = 0#u.width
  | .shr =>
      if u.isNegative then v.toInt ≤ 0 ∧ (y = 0 ∨ x = BitVec.allOnes u.width)
      else v.toInt.toNat = y ∨ x >>> min v.toInt.toNat y = 0#u.width
  | .rol => v.toInt ≤ 0 ∧ y = 0
  | .ror => v.toInt ≤ 0 ∧ x.rotateRight y = x
  | .less | .greater => u.isNegative = v.isNegative
  | .lessEqual | .greaterEqual => u.isNegative = v.isNegative ∧ x ≠ v.residue u.width
  | .bitsel => getBit? u.copy v.toInt = some (x.getLsbD y)

namespace ConstantOperation

def cResult : (operation : ConstantOperation) → BitVec operation.target.width
  | typeCast bitCast t v => (printCTypeCastOperation bitCast t).result t.width (v.residue v.width)
  | slice width lowIndex v => (CUnary.bitVectorSlice lowIndex).result width (v.residue v.width)
  | unary op t v => (printCUnaryOperation op).result t.width (v.residue v.width)
  | binary op t u v => (lastCall (typeOf u) op).result t.width (u.residue u.width) (v.residue v.width)
  | ternary t test u v =>
      if cTrue (typeOf test).isSigned (test.residue test.width) then u.residue t.width else v.residue t.width

def Performs (operation : ConstantOperation) : Prop :=
  ∃ v, operation.perform = some v ∧ v.residue operation.target.width = operation.cResult

/-- Where that is so, in terms of the values. -/
def Safe : ConstantOperation → Prop
  | typeCast bitCast t v =>
      0 < t.width ∧ ∀ i, v.width ≤ i → i < t.width →
        v.bitAbove t.kind i = (!bitCast && t.isSigned && v.getBit (v.width - 1))
  | slice width _ _ => 0 < width
  | unary op _ _ => op = .not
  | binary op _ u v => op.Safe u v
  | ternary _ test u v =>
      test.toBoolean = cTrue (typeOf test).isSigned (test.residue test.width) ∨ u.residue u.width = v.residue u.width

end ConstantOperation

section Assigned
variable {t : IntegerType} {v : Unsigned}

theorem performs_iff_of_assign {o : ConstantOperation} (pos : 0 < o.target.width)
    (perform : o.perform = assignExpressionValue o.target v) (same : v.width = o.target.width) :
    o.Performs ↔ v.residue o.target.width = o.cResult := by
  unfold ConstantOperation.Performs
  rw [perform, assignExpressionValue, dif_pos pos]
  constructor
  · rintro ⟨w, eq, residue⟩
    rw [← residue, ← Option.some.inj eq, v.residue_assign pos same]
  · exact fun residue => ⟨_, rfl, (v.residue_assign pos same).trans residue⟩

theorem not_performs {o : ConstantOperation} (perform : o.perform = none) : ¬ o.Performs := by
  rintro ⟨w, eq, _⟩
  exact Option.some_ne_none w (eq.symm.trans perform)

theorem getLsbD_cast (bitCast : Bool) {m : Nat} (x : BitVec m) {i : Nat} (below : i < t.width) :
    ((printCTypeCastOperation bitCast t).result t.width x).getLsbD i =
      if i < m then x.getLsbD i else (!bitCast && t.isSigned && x.msb) := by
  have zeros : (x.setWidth t.width).getLsbD i = if i < m then x.getLsbD i else false := by
    rw [BitVec.getLsbD_setWidth, decide_eq_true below, Bool.true_and]
    split
    · rfl
    · next above => exact BitVec.getLsbD_of_ge x i (Nat.not_lt.mp above)
  cases bitCast with
  | true => exact zeros
  | false =>
      change (if t.isSigned then BitVec.ofInt t.width x.toInt else BitVec.ofNat t.width x.toNat).getLsbD i = _
      cases t.isSigned with
      | true =>
          rw [if_pos rfl, ← BitVec.signExtend, BitVec.getLsbD_signExtend, decide_eq_true below]
          simp only [Bool.true_and, Bool.not_false]
      | false =>
          rw [if_neg Bool.false_ne_true, BitVec.ofNat_toNat, zeros]
          rfl

theorem performs_typeCast (bitCast : Bool) :
    (ConstantOperation.typeCast bitCast t v).Performs ↔ (ConstantOperation.typeCast bitCast t v).Safe := by
  by_cases pos : 0 < t.width
  · unfold ConstantOperation.Performs
    have perform : (ConstantOperation.typeCast bitCast t v).perform = some (v.assign t.kind t.width pos) := dif_pos pos
    let result := (printCTypeCastOperation bitCast t).result t.width (v.residue v.width)
    have bits (i : Nat) (below : i < t.width) : (v.assign t.kind t.width pos).getBit i = result.getLsbD i ↔
        (v.width ≤ i → v.bitAbove t.kind i = (!bitCast && t.isSigned && v.getBit (v.width - 1))) := by
      rw [v.getBit_assign pos below, getLsbD_cast bitCast _ below, v.getLsbD_residue, v.msb_residue]
      by_cases own : i < v.width
      · rw [if_pos own, if_pos own, decide_eq_true own, Bool.true_and]
        exact iff_of_true rfl fun above => absurd own (Nat.not_lt.mpr above)
      · rw [if_neg own, if_neg own]
        exact ⟨fun eq _ => eq, fun eq => eq (Nat.not_lt.mp own)⟩
    rw [perform]
    constructor
    · rintro ⟨w, eq, residue⟩
      have residue : (v.assign t.kind t.width pos).residue t.width = result := by rw [Option.some.inj eq]; exact residue
      refine ⟨pos, fun i above below => (bits i below).mp ?_ above⟩
      rw [← residue, Unsigned.getLsbD_residue, decide_eq_true below, Bool.true_and]
    · rintro ⟨-, above⟩
      exact ⟨_, rfl, lowBits_eq fun i below => (bits i below).mpr fun le => above i le below⟩
  · exact iff_of_false (not_performs (dif_neg pos)) fun safe => pos safe.1

theorem performs_slice {width lowIndex : Nat} (fits : lowIndex + width ≤ v.width) :
    (ConstantOperation.slice width lowIndex v).Performs ↔ 0 < width := by
  by_cases positive : 0 < width
  · have pos : 0 < ((lowIndex + width - 1 : Int) - lowIndex + 1).toNat := by omega
    obtain ⟨same, residue⟩ := v.slice_spec positive fits pos
    refine iff_of_true ((performs_iff_of_assign (o := .slice width lowIndex v) positive ?_ same).mpr residue) positive
    rw [ConstantOperation.perform, performSliceOperation, dif_pos pos]
    rfl
  · refine iff_of_false (not_performs ?_) positive
    rw [ConstantOperation.perform, performSliceOperation, dif_neg (by omega)]
    rfl

theorem performs_unary {op : UnaryOperation} (types : op.Types (typeOf v) t) :
    (ConstantOperation.unary op t v).Performs ↔ op = .not := by
  by_cases complement : op = .not
  · subst complement
    obtain rfl : typeOf v = t := by cases types; rfl
    have same : (performUnaryOperation v).width = v.width := v.width_copy
    refine iff_of_true ((performs_iff_of_assign (o := .unary .not (typeOf v) v) v.width_pos rfl same).mpr ?_) rfl
    exact (Unsigned.residue_complement v.width_copy).trans
      ((congrArg _ (v.residue_copy rfl)).trans (BitVec.setWidth_eq _).symm)
  · exact iff_of_false (not_performs (if_neg complement)) complement

theorem ite_eq_ite_iff {α : Type} (b c : Bool) (x y : α) :
    (if b then x else y) = (if c then x else y) ↔ b = c ∨ x = y := by
  cases b <;> cases c <;> simp [eq_comm]

theorem performs_ternary {test w : Unsigned} (typed : typeOf v = t ∧ typeOf w = t) :
    (ConstantOperation.ternary t test v w).Performs ↔ (ConstantOperation.ternary t test v w).Safe := by
  obtain ⟨rfl, same⟩ := typed
  have width : w.width = v.width := congrArg IntegerType.width same
  refine (performs_iff_of_assign (o := .ternary (typeOf v) test v w) v.width_pos rfl ?_).trans ?_
  · split
    · rfl
    · exact width
  · have chosen : (if test.toBoolean then v else w).residue v.width =
        if test.toBoolean then v.residue v.width else w.residue v.width := apply_ite (fun u => u.residue v.width) _ v w
    exact (Eq.congr_left chosen).trans (ite_eq_ite_iff _ _ _ _)

end Assigned

section Binary
variable {t : IntegerType} {u v : Unsigned}

theorem performs_iff_of_folds (op : BinaryOperation) (t : IntegerType) {x : BitVec t.width}
    (folds : FoldsTo op.operation u v x) :
    (ConstantOperation.binary op t u v).Performs ↔ x = (ConstantOperation.binary op t u v).cResult := by
  obtain ⟨result, folded, width, rfl⟩ := folds
  refine performs_iff_of_assign (width ▸ result.width_pos : 0 < t.width) ?_ width
  rw [ConstantOperation.perform, folded]
  rfl

theorem not_performs_rotation {op : BinaryOperation} (rotation : op = .rol ∨ op = .ror) (pos : 0 < v.toInt) :
    ¬ (ConstantOperation.binary op t u v).Performs := by
  have endless : performBinaryOperation 1 op.operation u v = none := by
    rcases rotation with rfl | rfl
    · exact rotation_of_pos (.inl rfl) pos 1
    · exact rotation_of_pos (.inr rfl) pos 1
  refine not_performs ?_
  rw [ConstantOperation.perform, endless]
  rfl

theorem performs_concat {m n : Nat} (first : typeOf u = .uint m) (second : typeOf v = .uint n) :
    (ConstantOperation.binary .concat (.uint (m + n)) u v).Performs := by
  obtain rfl : u.width = m := congrArg IntegerType.width first
  obtain rfl : v.width = n := congrArg IntegerType.width second
  exact (performs_iff_of_folds .concat (.uint (u.width + v.width)) foldsTo_concat).mpr (BitVec.setWidth_eq _).symm

theorem performs_bitsel :
    (ConstantOperation.binary .bitsel (.uint 1) u v).Performs ↔
      getBit? u.copy v.toInt = some ((u.residue u.width).getLsbD (v.residue v.width).toNat) := by
  cases bit : getBit? u.copy v.toInt with
  | none =>
      refine iff_of_false (not_performs ?_) (Option.some_ne_none _).symm
      rw [ConstantOperation.perform, BinaryOperation.operation, performBinaryOperation, bit]
      rfl
  | some b =>
      refine (performs_iff_of_folds .bitsel (.uint 1) (foldsTo_bitsel bit)).trans ?_
      have result : (ConstantOperation.binary .bitsel (.uint 1) u v).cResult =
          BitVec.ofBool ((u.residue u.width).getLsbD (v.residue v.width).toNat) := BitVec.setWidth_eq _
      rw [result, Option.some.injEq]
      exact BitVec.ofBool_eq_iff_eq

section Moves

/-- Two moves of one thing are alike when they go as far, or when the shorter leaves nothing. -/
theorem move_eq_iff {α : Type} (move : α → Nat → α) (zero : α) (add : ∀ x a b, move x (a + b) = move (move x a) b)
    (still : ∀ d, move zero d = zero) (gone : ∀ x d, 0 < d → move x d = x → x = zero) (x : α) (a b : Nat) :
    move x a = move x b ↔ a = b ∨ move x (min a b) = zero := by
  have further (a d : Nat) (pos : 0 < d) : move x a = move x (a + d) ↔ move x a = zero := by
    rw [add]
    constructor
    · exact fun eq => gone _ d pos eq.symm
    · exact fun eq => by rw [eq, still]
  rcases Nat.lt_trichotomy a b with less | rfl | less
  · obtain ⟨d, rfl⟩ := Nat.exists_eq_add_of_lt less
    rw [Nat.min_eq_left less.le, Nat.add_assoc, further a (d + 1) (Nat.succ_pos d)]
    exact ⟨.inr, fun or => or.resolve_left (by omega)⟩
  · exact iff_of_true rfl (.inl rfl)
  · obtain ⟨d, rfl⟩ := Nat.exists_eq_add_of_lt less
    rw [Nat.min_eq_right less.le, eq_comm, Nat.add_assoc, further b (d + 1) (Nat.succ_pos d)]
    exact ⟨.inr, fun or => or.resolve_left (by omega)⟩

variable {n : Nat} (x : BitVec n)

theorem shiftLeft_eq_iff (a b : Nat) : x <<< a = x <<< b ↔ a = b ∨ x <<< min a b = 0#n := by
  refine move_eq_iff (fun (y : BitVec n) d => y <<< d) (0#n) (fun y a b => BitVec.shiftLeft_add y a b)
    (fun d => BitVec.zero_shiftLeft d) (fun y d pos eq => ?_) x a b
  refine BitVec.eq_of_getLsbD_eq fun i below => ?_
  rw [BitVec.getLsbD_zero]
  -- the lowest bit that is set would come from one below it
  induction i using Nat.strong_induction_on with
  | _ i ih =>
      rw [← eq, BitVec.getLsbD_shiftLeft]
      by_cases low : i < d
      · rw [decide_eq_true low, Bool.not_true, Bool.and_false, Bool.false_and]
      · rw [ih (i - d) (by omega) (by omega), Bool.and_false]

theorem shiftRight_eq_iff (a b : Nat) : x >>> a = x >>> b ↔ a = b ∨ x >>> min a b = 0#n := by
  refine move_eq_iff (fun (y : BitVec n) d => y >>> d) (0#n) (fun y a b => BitVec.shiftRight_add y a b)
    (fun d => BitVec.zero_ushiftRight) (fun y d pos eq => ?_) x a b
  have half : y.toNat / 2 ^ d = y.toNat := by
    rw [← Nat.shiftRight_eq_div_pow, ← BitVec.toNat_ushiftRight]
    exact congrArg BitVec.toNat eq
  refine BitVec.eq_of_toNat_eq (Nat.eq_zero_of_not_pos fun positive => ?_)
  exact (Nat.div_lt_self positive (Nat.one_lt_two_pow pos.ne')).ne half

theorem ediv_eq_self_iff {z : Int} (negative : z < 0) (b : Nat) : z / 2 ^ b = z ↔ b = 0 ∨ z = -1 := by
  have pos : (0 : Int) < 2 ^ b := by positivity
  constructor
  · intro eq
    rcases Nat.eq_zero_or_pos b with zero | positive
    · exact .inl zero
    · have two : (2 : Int) ≤ 2 ^ b :=
        calc (2 : Int) = 2 ^ 1 := rfl
          _ ≤ 2 ^ b := pow_le_pow_right₀ (by decide) positive
      have above := Int.lt_ediv_add_one_mul_self z pos
      rw [eq] at above
      right
      by_contra ne
      have below : (z + 1) * 2 ^ b ≤ (z + 1) * 2 := Int.mul_le_mul_of_nonpos_left (by omega) two
      omega
  · rintro (rfl | rfl)
    · rw [pow_zero, Int.ediv_one]
    · rw [Int.neg_one_ediv, Int.sign_eq_one_of_pos pos]

theorem ushiftRight_eq_sshiftRight_iff (negative : x.msb = true) (a b : Nat) :
    x >>> a = x.sshiftRight b ↔ a = 0 ∧ (b = 0 ∨ x = BitVec.allOnes n) := by
  have positive : 0 < n := by
    by_contra zero
    obtain rfl : n = 0 := by omega
    exact Bool.false_ne_true ((congrArg BitVec.msb BitVec.of_length_zero).symm.trans negative)
  have minusOne : x = BitVec.allOnes n ↔ x.toInt = -1 := by
    rw [← BitVec.toInt_inj, BitVec.toInt_allOnes, if_pos positive]
  rw [minusOne, ← ediv_eq_self_iff (BitVec.toInt_neg_of_msb_true negative), ← Unsigned.toInt_sshiftRight_eq,
    BitVec.toInt_inj]
  constructor
  · intro same
    have msb := congrArg BitVec.msb same
    rw [BitVec.msb_ushiftRight, BitVec.msb_sshiftRight, negative, Bool.and_true, Bool.not_eq_true', decide_eq_false_iff_not,
      Nat.not_lt, Nat.le_zero] at msb
    rw [msb, BitVec.ushiftRight_zero] at same
    exact ⟨msb, same.symm⟩
  · rintro ⟨rfl, same⟩
    rw [BitVec.ushiftRight_zero, same]

end Moves

section Orders
variable {n : Nat} (signed : Bool) (x y : BitVec n)

/-- Without the sign the order is another one between numbers of different signs. -/
theorem ult_eq_less_iff : x.ult y = decide (integerOf signed x < integerOf signed y) ↔ (signed = true → x.msb = y.msb) := by
  rw [less_eq]
  cases signed with
  | false => exact iff_of_true rfl fun absurd => (Bool.false_ne_true absurd).elim
  | true =>
      rw [if_pos rfl, BitVec.slt_eq_ult]
      cases x.msb <;> cases y.msb <;> simp

theorem ult_eq_lessEqual_iff : x.ult y = decide (integerOf signed x ≤ integerOf signed y) ↔
    (signed = true → x.msb = y.msb) ∧ x ≠ y := by
  by_cases equal : x = y
  · subst equal
    refine iff_of_false ?_ fun both => both.2 rfl
    rw [decide_eq_true (Int.le_refl _), BitVec.ult_eq_decide, decide_eq_false (Nat.lt_irrefl _)]
    exact Bool.false_ne_true
  · rw [and_iff_left equal, lessEqual_eq, ult_of_ne equal]
    cases signed with
    | false => exact iff_of_true rfl fun absurd => (Bool.false_ne_true absurd).elim
    | true =>
        rw [if_pos rfl, BitVec.sle_eq_ule]
        cases x.msb <;> cases y.msb <;> simp

end Orders

theorem isNegative_iff_msb (u : Unsigned) :
    u.isNegative = true ↔ (typeOf u).isSigned = true ∧ (u.residue u.width).msb = true := by
  rw [u.msb_residue]
  unfold Unsigned.isNegative
  cases kind : u.kind with
  | unsigned => simp [kind]
  | signed => simp [kind]

section OneWidth
variable (same : v.width = u.width)
include same

theorem performs_iff_of_last (op : BinaryOperation) (t : IntegerType) {x y : BitVec t.width}
    (last : (lastCall (typeOf u) op).result t.width (u.residue u.width) (v.residue u.width) = y)
    (folds : FoldsTo op.operation u v x) : (ConstantOperation.binary op t u v).Performs ↔ x = y := by
  have result : (ConstantOperation.binary op t u v).cResult =
      (lastCall (typeOf u) op).result t.width (u.residue u.width) (v.residue v.width) := rfl
  rw [performs_iff_of_folds op t folds, result, same, last]

/-- The operands of the last call have the width already that it cuts them to. -/
theorem performs_of_last (op : BinaryOperation) (operate : BitVec u.width → BitVec u.width → BitVec u.width)
    (last : (lastCall (typeOf u) op).result u.width (u.residue u.width) (v.residue u.width) =
      operate ((u.residue u.width).setWidth u.width) ((v.residue u.width).setWidth u.width))
    (folds : FoldsTo op.operation u v (operate (u.residue u.width) (v.residue u.width))) :
    (ConstantOperation.binary op (typeOf u) u v).Performs :=
  (performs_iff_of_last same op (typeOf u) last folds).mpr (by rw [BitVec.setWidth_eq, BitVec.setWidth_eq])

theorem performs_bitwise {op : BinaryOperation}
    (bitwise : op = .or ∨ op = .and ∨ op = .xor ∨ op = .nor ∨ op = .nand ∨ op = .xnor) :
    (ConstantOperation.binary op (typeOf u) u v).Performs := by
  obtain ⟨or, and, xor, nor, nand, xnor⟩ := foldsTo_bitwise same.symm
  rcases bitwise with rfl | rfl | rfl | rfl | rfl | rfl
  · exact performs_of_last same .or (fun x y => x ||| y) rfl or
  · exact performs_of_last same .and (fun x y => x &&& y) rfl and
  · exact performs_of_last same .xor (fun x y => x ^^^ y) rfl xor
  · exact performs_of_last same .nor (fun x y => ~~~(x ||| y)) rfl nor
  · exact performs_of_last same .nand (fun x y => ~~~(x &&& y)) rfl nand
  · exact performs_of_last same .xnor (fun x y => ~~~(x ^^^ y)) rfl xnor

theorem performs_plus : (ConstantOperation.binary .plus (typeOf u) u v).Performs :=
  (performs_iff_of_last same .plus (typeOf u) (sum_eq _ _) (foldsTo_plus same.symm)).mpr rfl

theorem performs_minus : (ConstantOperation.binary .minus (typeOf u) u v).Performs :=
  (performs_iff_of_last same .minus (typeOf u) (difference_eq _ _) (foldsTo_minus same.symm)).mpr rfl

theorem performs_mul : (ConstantOperation.binary .mul (typeOf u) u v).Performs ↔
    u.width ≤ 64 ∨ u.residue u.width * v.residue u.width = u.residue u.width := by
  have product : (lastCall (typeOf u) .mul).result u.width (u.residue u.width) (v.residue u.width) =
      u.residue u.width * v.residue u.width := by
    rw [← mul_eq (typeOf u).isSigned]
    change (if (typeOf u).isSigned then CBinary.bitVectorSmul else .bitVectorMul).result u.width _ _ = _
    cases (typeOf u).isSigned <;> rfl
  by_cases narrow : u.width ≤ 64
  · refine iff_of_true ?_ (.inl narrow)
    exact (performs_iff_of_last same .mul (typeOf u) product (foldsTo_mul same.symm narrow)).mpr rfl
  · rw [performs_iff_of_last same .mul (typeOf u) product (foldsTo_mul_of_lt same.symm (Nat.lt_of_not_le narrow))]
    exact ⟨fun eq => .inr eq.symm, fun or => (or.resolve_left narrow).symm⟩

theorem performs_iff_of_compared (op : BinaryOperation) {b c : Bool}
    (last : (lastCall (typeOf u) op).result 1 (u.residue u.width) (v.residue u.width) = (BitVec.ofBool c).setWidth 1)
    (folds : FoldsTo op.operation u v (BitVec.ofBool b)) :
    (ConstantOperation.binary op (.uint 1) u v).Performs ↔ b = c := by
  rw [performs_iff_of_last same op (.uint 1) (last.trans (BitVec.setWidth_eq _)) folds]
  exact BitVec.ofBool_eq_iff_eq

theorem performs_equality {op : BinaryOperation} (equality : op = .equal ∨ op = .notEqual) :
    (ConstantOperation.binary op (.uint 1) u v).Performs := by
  rcases equality with rfl | rfl
  · exact (performs_iff_of_compared same .equal rfl (foldsTo_equal same.symm)).mpr (equal_eq _ _ _).symm
  · refine (performs_iff_of_compared same .notEqual rfl (foldsTo_notEqual same.symm)).mpr ?_
    rw [bne, equal_eq]

theorem performs_shl : (ConstantOperation.binary .shl (typeOf u) u v).Performs ↔ BinaryOperation.Safe .shl u v := by
  unfold BinaryOperation.Safe
  dsimp only
  rw [performs_iff_of_last same .shl (typeOf u) (BitVec.setWidth_eq _) foldsTo_shl, shiftLeft_eq_iff, same]

theorem performs_shr : (ConstantOperation.binary .shr (typeOf u) u v).Performs ↔ BinaryOperation.Safe .shr u v := by
  rw [performs_iff_of_last same .shr (typeOf u) (shiftRight_eq _ _ _) foldsTo_shr]
  unfold BinaryOperation.Safe
  dsimp only
  rw [same]
  by_cases negative : u.isNegative = true
  · obtain ⟨signed, msb⟩ := (isNegative_iff_msb u).mp negative
    rw [if_pos signed, if_pos negative, ushiftRight_eq_sshiftRight_iff _ msb, Int.toNat_eq_zero]
  · have logical : (if (typeOf u).isSigned then (u.residue u.width).sshiftRight (v.residue u.width).toNat
        else u.residue u.width >>> (v.residue u.width).toNat) = u.residue u.width >>> (v.residue u.width).toNat := by
      split
      · next signed =>
          refine BitVec.sshiftRight_eq_of_msb_false (Bool.eq_false_iff.mpr fun msb => ?_)
          exact negative ((isNegative_iff_msb u).mpr ⟨signed, msb⟩)
      · rfl
    rw [logical, if_neg negative, shiftRight_eq_iff]

theorem performs_rol : (ConstantOperation.binary .rol (typeOf u) u v).Performs ↔ BinaryOperation.Safe .rol u v := by
  by_cases stays : v.toInt ≤ 0
  · rw [performs_iff_of_last same .rol (typeOf u) (sum_eq _ _) (foldsTo_rotation (.inl rfl) stays)]
    unfold BinaryOperation.Safe
    dsimp only
    rw [same, and_iff_right stays, BitVec.self_eq_add_right, ← BitVec.toNat_inj]
    rfl
  · exact iff_of_false (not_performs_rotation (.inl rfl) (Int.not_le.mp stays)) fun safe => stays safe.1

theorem performs_ror : (ConstantOperation.binary .ror (typeOf u) u v).Performs ↔ BinaryOperation.Safe .ror u v := by
  by_cases stays : v.toInt ≤ 0
  · rw [performs_iff_of_last same .ror (typeOf u) (BitVec.setWidth_eq _) (foldsTo_rotation (.inr rfl) stays)]
    unfold BinaryOperation.Safe
    dsimp only
    rw [same, and_iff_right stays, eq_comm]
  · exact iff_of_false (not_performs_rotation (.inr rfl) (Int.not_le.mp stays)) fun safe => stays safe.1

theorem sameSign_iff (kind : v.kind = u.kind) :
    ((typeOf u).isSigned = true → (u.residue u.width).msb = (v.residue u.width).msb) ↔ u.isNegative = v.isNegative := by
  have signedV : (typeOf v).isSigned = (typeOf u).isSigned := by rw [typeOf, typeOf, kind]
  have msb : (v.residue u.width).msb = (v.residue v.width).msb := by rw [same]
  rw [msb, Bool.eq_iff_iff (a := u.isNegative), isNegative_iff_msb, isNegative_iff_msb, signedV, and_congr_right_iff,
    ← Bool.eq_iff_iff]

theorem performs_less {op : BinaryOperation} (kind : v.kind = u.kind)
    (order : op = .less ∨ op = .greater ∨ op = .lessEqual ∨ op = .greaterEqual) :
    (ConstantOperation.binary op (.uint 1) u v).Performs ↔ op.Safe u v := by
  have sameSign := sameSign_iff same kind
  have sameSign' : ((typeOf u).isSigned = true → (v.residue u.width).msb = (u.residue u.width).msb) ↔
      u.isNegative = v.isNegative := (imp_congr_right fun _ => eq_comm).trans sameSign
  rcases order with rfl | rfl | rfl | rfl
  · rw [performs_iff_of_compared same .less rfl (foldsTo_less same.symm (.inl rfl))]
    exact (ult_eq_less_iff _ _ _).trans sameSign
  · rw [performs_iff_of_compared same .greater rfl (foldsTo_greater same.symm (.inl rfl))]
    exact (ult_eq_less_iff _ _ _).trans sameSign'
  · rw [performs_iff_of_compared same .lessEqual rfl (foldsTo_less same.symm (.inr rfl))]
    exact (ult_eq_lessEqual_iff _ _ _).trans (and_congr_left' sameSign)
  · rw [performs_iff_of_compared same .greaterEqual rfl (foldsTo_greater same.symm (.inr rfl))]
    exact (ult_eq_lessEqual_iff _ _ _).trans (and_congr sameSign' ne_comm)

end OneWidth

theorem kind_of_typeOf (same : typeOf v = typeOf u) : v.kind = u.kind := by
  have signed : (v.kind == .signed) = (u.kind == .signed) := congrArg IntegerType.isSigned same
  revert signed
  cases v.kind <;> cases u.kind <;> decide

theorem performs_binary {op : BinaryOperation} (types : op.Types (typeOf u) (typeOf v) t) :
    (ConstantOperation.binary op t u v).Performs ↔ op.Safe u v := by
  generalize first : typeOf u = s at types
  generalize second : typeOf v = s' at types
  cases types with
  | concat m n => exact iff_of_true (performs_concat first second) trivial
  | bitsel s t => exact performs_bitsel
  | compare isCompare t =>
      have typesEq : typeOf v = typeOf u := second.trans first.symm
      have same : v.width = u.width := congrArg IntegerType.width typesEq
      have kind : v.kind = u.kind := kind_of_typeOf typesEq
      cases op with
      | equal => exact iff_of_true (performs_equality same (.inl rfl)) trivial
      | notEqual => exact iff_of_true (performs_equality same (.inr rfl)) trivial
      | less => exact performs_less same kind (by simp)
      | lessEqual => exact performs_less same kind (by simp)
      | greater => exact performs_less same kind (by simp)
      | greaterEqual => exact performs_less same kind (by simp)
      | _ => exact absurd isCompare Bool.false_ne_true
  | same isSame t =>
      subst first
      have same : v.width = u.width := congrArg IntegerType.width second
      cases op with
      | or => exact iff_of_true (performs_bitwise same (by simp)) trivial
      | and => exact iff_of_true (performs_bitwise same (by simp)) trivial
      | xor => exact iff_of_true (performs_bitwise same (by simp)) trivial
      | nor => exact iff_of_true (performs_bitwise same (by simp)) trivial
      | nand => exact iff_of_true (performs_bitwise same (by simp)) trivial
      | xnor => exact iff_of_true (performs_bitwise same (by simp)) trivial
      | shl => exact performs_shl same
      | shr => exact performs_shr same
      | ror => exact performs_ror same
      | rol => exact performs_rol same
      | plus => exact iff_of_true (performs_plus same) trivial
      | minus => exact iff_of_true (performs_minus same) trivial
      | mul => exact performs_mul same
      | _ => simp [BinaryOperation.isCompare] at isSame

end Binary

/-- An operation on constants is performed as the C statements do it, exactly where it is safe. -/
theorem ConstantOperation.performs_iff {o : ConstantOperation} (typed : o.Typed) : o.Performs ↔ o.Safe := by
  cases o with
  | typeCast bitCast t v => exact performs_typeCast bitCast
  | slice width lowIndex v => exact performs_slice typed
  | unary op t v => exact performs_unary typed
  | binary op t u v => exact performs_binary typed
  | ternary t test u v => exact performs_ternary typed

end Ahir.Aa.BackEnds
