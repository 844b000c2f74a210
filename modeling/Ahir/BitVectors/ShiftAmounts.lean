import Ahir.BitVectors.Shifts

/-!
# Shift amounts

A shift takes its amount from the lowest 32 bits of a vector, and a rotation from the
lowest 64 and then modulo the width.
-/

set_option autoImplicit false

namespace Ahir.BitVectors
open Ahir.Data Ahir.Hardware Ahir.Hardware.ShiftOperation
open BitVector
variable {w : Nat}

structure MovesExactly (w : Nat) (s : BitVector) : Prop where
  left : ∀ r t : BitVector, r.width = w → t.width = w →
    (BitVector.shiftLeft r s t).number = r.number * 2 ^ s.number % 2 ^ w
  right : ∀ r t : BitVector, r.width = w → t.width = w →
    (BitVector.shiftRight false r s t).number = r.number / 2 ^ s.number
  arithmetic : ∀ r t : BitVector, r.width = w → t.width = w →
    (BitVector.shiftRight true r s t).signedNumber = r.signedNumber / 2 ^ s.number
  saturated : ∀ r t : BitVector, r.width = w → t.width = w → w ≤ s.number →
    (BitVector.shiftLeft r s t).number = 0 ∧ (BitVector.shiftRight false r s t).number = 0 ∧
      (BitVector.shiftRight true r s t).signedNumber = if r.signBit then -1 else 0
  rotatedLeft : ∀ r t : BitVector, r.width = w → t.width = w →
    (BitVector.rotateLeft r s t).residue w = (r.residue w).rotateLeft (s.number % w)
  rotatedRight : ∀ r t : BitVector, r.width = w → t.width = w →
    (BitVector.rotateRight r s t).residue w = (r.residue w).rotateRight (s.number % w)
  undone : ∀ r t t' : BitVector, r.width = w → t.width = w → t'.width = w →
    (BitVector.rotateRight (BitVector.rotateLeft r s t) s t').residue w = r.residue w

/-- What is cut off the amount makes no difference: for a shift the rest of it is still as
large as the width, and for a rotation the rest is the same modulo the width. -/
def CutAlike (w amount : Nat) : Prop :=
  (amount < 2 ^ 32 ∨ w ≤ amount % 2 ^ 32) ∧ amount % 2 ^ 64 % w = amount % w

theorem number_eq {x : BitVector} (width : x.width = w) : x.number = (x.residue w).toNat := by
  subst width
  rfl

theorem signedNumber_eq_toInt {x : BitVector} (width : x.width = w) : x.signedNumber = (x.residue w).toInt := by
  subst width
  rfl

theorem exists_residue (pos : 0 < w) (l : BitVec w) : ∃ x : BitVector, x.width = w ∧ x.residue w = l := by
  obtain ⟨x, has⟩ := exists_has pos l
  exact ⟨x, has.width, by rw [has.residue, lowBits_getLsbD]⟩

theorem CutAlike.sameMove {amount : Nat} (alike : CutAlike w amount) (op : ShiftOperation) :
    op.SameMove w (simulatedAmount amount op) amount := by
  obtain ⟨shift, rotation⟩ := alike
  have less : amount % 2 ^ 32 ≤ amount := Nat.mod_le _ _
  cases op with
  | shl | lshr =>
      rcases shift with small | out
      · exact .inl (Nat.mod_eq_of_lt small)
      · exact .inr ⟨out, out.trans less⟩
  | ashr =>
      rcases shift with small | out
      · exact .inl (Nat.mod_eq_of_lt small)
      · exact .inr ⟨(Nat.sub_le w 1).trans out, (Nat.sub_le w 1).trans (out.trans less)⟩
  | rol | ror => exact rotation

theorem cutAlike_of_sameMove {amount : Nat} (shift : SameMove w (simulatedAmount amount shl) amount shl)
    (rotation : SameMove w (simulatedAmount amount rol) amount rol) : CutAlike w amount := by
  refine ⟨?_, rotation⟩
  rcases shift with eq | out
  · exact .inl (eq ▸ Nat.mod_lt amount (Nat.two_pow_pos 32))
  · exact .inr out.1

/-- The quotient of a number that has fewer bits than it is shifted by. -/
theorem toInt_div_two_pow_of_le (l : BitVec w) {n : Nat} (out : w ≤ n) :
    l.toInt / 2 ^ n = if l.msb then -1 else 0 := by
  have wide : (2 : Int) ^ w ≤ 2 ^ n := by exact_mod_cast Nat.pow_le_pow_right Nat.two_pos out
  have below : (l.toNat : Int) < 2 ^ w := by exact_mod_cast l.isLt
  have pos : (0 : Int) < 2 ^ n := by positivity
  rw [BitVec.toInt_eq_msb_cond]
  cases l.msb with
  | false =>
      rw [if_neg Bool.false_ne_true, if_neg Bool.false_ne_true]
      exact Int.ediv_eq_zero_of_lt (Int.natCast_nonneg _) (below.trans_le wide)
  | true =>
      rw [if_pos rfl, if_pos rfl]
      push_cast
      apply Int.le_antisymm
      · exact Int.lt_add_one_iff.mp (Int.ediv_lt_of_lt_mul pos (by omega))
      · exact Int.le_ediv_of_mul_le pos (by omega)

theorem rotateRight_rotateLeft (l : BitVec w) (n : Nat) : (l.rotateLeft n).rotateRight n = l := by
  refine BitVec.eq_of_getLsbD_eq fun i below => ?_
  have less : n % w < w := Nat.mod_lt _ (by omega)
  rw [BitVec.getLsbD_rotateRight]
  by_cases inside : i < w - n % w
  · rw [decide_eq_true inside, cond_true, BitVec.getLsbD_rotateLeft, decide_eq_false (by omega), cond_false,
      decide_eq_true (by omega : n % w + i < w), Bool.true_and, Nat.add_sub_cancel_left]
  · rw [decide_eq_false inside, cond_false, decide_eq_true below, Bool.true_and, BitVec.getLsbD_rotateLeft,
      decide_eq_true (by omega), cond_true]
    congr 1
    omega

theorem movesExactly_of_residue {s : BitVector}
    (moved : ∀ (op : ShiftOperation) (r t : BitVector), r.width = w → t.width = w →
      (simulate op r s t).residue w = op.move (r.residue w) s.number) :
    MovesExactly w s := by
  have left (r t : BitVector) (widthR : r.width = w) (widthT : t.width = w) :
      (BitVector.shiftLeft r s t).number = r.number * 2 ^ s.number % 2 ^ w := by
    have result := moved shl r t widthR widthT
    rw [number_eq ((width_shiftLeft r s t).trans widthT), number_eq widthR, ← Nat.shiftLeft_eq, ← BitVec.toNat_shiftLeft]
    exact congrArg BitVec.toNat result
  have right (r t : BitVector) (widthR : r.width = w) (widthT : t.width = w) :
      (BitVector.shiftRight false r s t).number = r.number / 2 ^ s.number := by
    have result := moved lshr r t widthR widthT
    rw [number_eq ((width_shiftRight false r s t).trans widthT), number_eq widthR, ← Nat.shiftRight_eq_div_pow,
      ← BitVec.toNat_ushiftRight]
    exact congrArg BitVec.toNat result
  have arithmetic (r t : BitVector) (widthR : r.width = w) (widthT : t.width = w) :
      (BitVector.shiftRight true r s t).signedNumber = r.signedNumber / 2 ^ s.number := by
    have result := moved ashr r t widthR widthT
    have value := congrArg BitVec.toInt result
    rw [move, BitVec.toInt_sshiftRight, Int.shiftRight_eq_div_pow] at value
    rw [signedNumber_eq_toInt ((width_shiftRight true r s t).trans widthT), signedNumber_eq_toInt widthR]
    exact_mod_cast value
  have rotatedLeft (r t : BitVector) (widthR : r.width = w) (widthT : t.width = w) :
      (BitVector.rotateLeft r s t).residue w = (r.residue w).rotateLeft (s.number % w) := by
    rw [BitVec.rotateLeft_mod_eq_rotateLeft]
    exact moved rol r t widthR widthT
  have rotatedRight (r t : BitVector) (widthR : r.width = w) (widthT : t.width = w) :
      (BitVector.rotateRight r s t).residue w = (r.residue w).rotateRight (s.number % w) := by
    rw [BitVec.rotateRight_mod_eq_rotateRight]
    exact moved ror r t widthR widthT
  refine ⟨left, right, arithmetic, fun r t widthR widthT out => ⟨?_, ?_, ?_⟩, rotatedLeft, rotatedRight,
    fun r t t' widthR widthT widthT' => ?_⟩
  · rw [left r t widthR widthT]
    exact Nat.mod_eq_zero_of_dvd ((pow_dvd_pow 2 out).mul_left _)
  · rw [right r t widthR widthT, number_eq widthR]
    exact Nat.div_eq_of_lt ((BitVec.isLt _).trans_le (Nat.pow_le_pow_right Nat.two_pos out))
  · rw [arithmetic r t widthR widthT, signedNumber_eq_toInt widthR, toInt_div_two_pow_of_le _ out, ← msb_residue, widthR]
  · rw [rotatedRight _ _ ((width_rotateLeft r s t).trans widthT) widthT', rotatedLeft r t widthR widthT]
    exact rotateRight_rotateLeft _ _

theorem movesExactly_iff (pos : 0 < w) (s : BitVector) : MovesExactly w s ↔ CutAlike w s.number := by
  constructor
  · intro moves
    refine cutAlike_of_sameMove (sameMove_of_forall pos fun l => ?_) (sameMove_of_forall pos fun l => ?_)
    · obtain ⟨r, width, rfl⟩ := exists_residue pos l
      rw [← residue_simulate shl width width]
      apply BitVec.eq_of_toNat_eq
      rw [← number_eq ((width_simulate shl r s r).trans width), move, BitVec.toNat_shiftLeft, Nat.shiftLeft_eq,
        ← number_eq width]
      exact moves.left r r width width
    · obtain ⟨r, width, rfl⟩ := exists_residue pos l
      rw [← residue_simulate rol width width, move, ← BitVec.rotateLeft_mod_eq_rotateLeft]
      exact moves.rotatedLeft r r width width
  · intro alike
    refine movesExactly_of_residue fun op r t widthR widthT => ?_
    rw [residue_simulate op widthR widthT, move_of_sameMove (alike.sameMove op)]

theorem movesExactly_three : MovesExactly 8 ⟨4, [3], [0], rfl, rfl, by decide⟩ :=
  (movesExactly_iff (by decide) _).mpr ⟨.inl (by decide), by decide⟩

/-- An amount of 2 ^ 32 leaves eight bits where they are. -/
theorem not_movesExactly_two_pow_thirtyTwo :
    let s : BitVector := ⟨40, [0, 0, 0, 0, 1], [0, 0, 0, 0, 0], rfl, rfl, by decide⟩
    let r : BitVector := ⟨8, [1], [0], rfl, rfl, by decide⟩
    s.number = 2 ^ 32 ∧ (BitVector.shiftLeft r s r).number = 1 ∧ ¬ MovesExactly 8 s := by
  intro s r
  have number : s.number = 2 ^ 32 := by decide +kernel
  have kept : (BitVector.shiftLeft r s r).number = 1 := by decide +kernel
  refine ⟨number, kept, fun moves => ?_⟩
  have cleared := (moves.saturated r r rfl rfl (by rw [number]; decide)).1
  rw [kept] at cleared
  exact Nat.one_ne_zero cleared

end Ahir.BitVectors
