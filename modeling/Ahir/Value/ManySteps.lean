import Ahir.Value.Rearrange

/-!
# Shifts and rotations by many steps

An operation by `idx` steps is a loop over one of a single step.  Which of the two it
calls decides what it does.
-/

set_option autoImplicit false

namespace Ahir.Value
open Ahir.Data

namespace Unsigned
variable (v : Unsigned)

/-- `Shift_Right` by one of the class `Signed`. -/
def signedShiftRightOne : Unsigned :=
  let signBit := v.getBit (v.width - 1)
  v.shiftRightOne.setBit (v.width - 1) signBit

def rotateLeftOne : Unsigned :=
  let highBit := v.getBit (v.width - 1)
  v.shiftLeftOne.setBit 0 highBit

def rotateRightOne : Unsigned :=
  let lowBit := v.getBit 0
  v.shiftRightOne.setBit (v.width - 1) lowBit

@[simp] theorem kind_signedShiftRightOne : v.signedShiftRightOne.kind = v.kind := v.kind_shiftRightOne
@[simp] theorem width_signedShiftRightOne : v.signedShiftRightOne.width = v.width := v.width_shiftRightOne

theorem getBit_shiftRightOne {i : Nat} (below : i < v.width) :
    v.shiftRightOne.getBit i = (decide (i ≠ v.width - 1) && v.getBit (i + 1)) := by
  obtain ⟨width, _, bits⟩ := v.shiftRightLoop_eq _ (Nat.sub_one_lt v.width_pos.ne')
  rw [shiftRightOne, getBit_setBit _ (by omega), bits i]
  by_cases top : v.width - 1 = i
  · simp [top]
  · rw [if_neg top, if_pos (by omega), decide_eq_true (Ne.symm top), Bool.true_and]

theorem residue_signedShiftRightOne {n : Nat} (hv : v.width = n) :
    v.signedShiftRightOne.residue n = (v.residue n).sshiftRight 1 := by
  subst hv
  have pos := v.width_pos
  refine lowBits_eq fun i below => ?_
  have inside : decide (v.width ≤ i) = false := decide_eq_false (by omega)
  rw [signedShiftRightOne, getBit_setBit _ (by rw [width_shiftRightOne]; omega), v.getBit_shiftRightOne below,
    BitVec.getLsbD_sshiftRight, inside, Bool.not_false, Bool.true_and, msb_residue, getLsbD_residue]
  by_cases top : v.width - 1 = i
  · rw [if_pos top, if_neg (by omega)]
  · rw [if_neg top, if_pos (by omega), decide_eq_true (Ne.symm top), decide_eq_true (by omega), Nat.add_comm]

theorem sshiftRight_iterate {n : Nat} (x : BitVec n) (k : Nat) :
    (fun y : BitVec n => y.sshiftRight 1)^[k] x = x.sshiftRight k := by
  induction k with
  | zero => simp
  | succ k ih => rw [Function.iterate_succ_apply', ih, BitVec.sshiftRight_add]

theorem kind_iterate {f : Unsigned → Unsigned} (kind : ∀ u, (f u).kind = u.kind) (k : Nat) :
    (f^[k] v).kind = v.kind := by
  induction k with
  | zero => rfl
  | succ k ih => rw [Function.iterate_succ_apply', kind, ih]

section Signed
variable {v}

theorem number_of_signed (signed : v.kind = .signed) : v.number = (v.residue v.width).toInt := by
  rw [number, signed]

@[simp]
theorem kind_shiftRight (idx : Int) : (v.shiftRight idx).kind = v.kind := by
  rw [shiftRight, kind_signExtend, kind_iterate v kind_shiftRightOne]

theorem number_shiftRight (signed : v.kind = .signed) (k : Nat) :
    (v.shiftRight k).number = (v.residue v.width >>> k).toInt := by
  obtain ⟨width, residue⟩ := shiftRight_spec (v := v) rfl k
  rw [number_of_signed (by rw [kind_shiftRight, signed]), width, residue, Int.toNat_natCast]

theorem toInt_sshiftRight_eq {n : Nat} (x : BitVec n) (k : Nat) : (x.sshiftRight k).toInt = x.toInt / 2 ^ k := by
  rw [BitVec.toInt_sshiftRight, Int.shiftRight_eq_div_pow, Nat.cast_pow, Nat.cast_ofNat]

/-- Steps of the class `Signed` divide by powers of two and round down. -/
theorem number_signedShiftRightOne_iterate (signed : v.kind = .signed) (k : Nat) :
    (signedShiftRightOne^[k] v).number = v.number / 2 ^ k := by
  obtain ⟨width, residue⟩ := residue_iterate (v := v) (g := fun y => y.sshiftRight 1) width_signedShiftRightOne
    (fun u hu => u.residue_signedShiftRightOne hu) rfl k
  rw [number_of_signed (by rw [kind_iterate v kind_signedShiftRightOne, signed]), width, residue,
    sshiftRight_iterate, toInt_sshiftRight_eq, number_of_signed signed]

end Signed

/-- `Shift_Right(k)` of the class `Signed` is the arithmetic shift, and as many steps as `k`. -/
structure ShiftsArithmetically (k : Nat) : Prop where
  kind : (v.shiftRight k).kind = .signed
  width : (v.shiftRight k).width = v.width
  number : (v.shiftRight k).number = v.number / 2 ^ k
  steps : (v.shiftRight k).number = (signedShiftRightOne^[k] v).number

section Signed
variable {v}

theorem shiftsArithmetically_iff_number (signed : v.kind = .signed) (k : Nat) :
    v.ShiftsArithmetically k ↔ (v.residue v.width >>> k).toInt = ((v.residue v.width).sshiftRight k).toInt := by
  rw [toInt_sshiftRight_eq, ← number_shiftRight signed, ← number_of_signed signed]
  constructor
  · exact ShiftsArithmetically.number
  · intro number
    have steps := number_signedShiftRightOne_iterate signed k
    exact ⟨by rw [kind_shiftRight, signed], (shiftRight_spec rfl k).1, number, number.trans steps.symm⟩

/-- The loop calls the one-step shift of the class `Unsigned`, which clears the top bit. -/
theorem shiftsArithmetically_iff (signed : v.kind = .signed) (k : Nat) :
    v.ShiftsArithmetically k ↔ 0 ≤ v.number ∨ k = 0 := by
  rw [shiftsArithmetically_iff_number signed, number_of_signed signed]
  constructor
  · intro same
    by_contra shifted
    obtain ⟨negative, positive⟩ := not_or.mp shifted
    have msb : (v.residue v.width).msb = true := by
      rw [BitVec.msb_eq_toInt]
      exact decide_eq_true (by omega)
    have cleared : (v.residue v.width >>> k).msb = false := by
      rw [BitVec.msb_ushiftRight, decide_eq_true (by omega), Bool.not_true, Bool.false_and]
    rw [BitVec.toInt_inj] at same
    rw [same, BitVec.msb_sshiftRight, msb] at cleared
    exact Bool.false_ne_true cleared.symm
  · intro kept
    cases kept with
    | inl nonneg =>
        have msb : (v.residue v.width).msb = false := by
          rw [BitVec.msb_eq_toInt]
          exact decide_eq_false (by omega)
        rw [BitVec.sshiftRight_eq_of_msb_false msb]
    | inr zero => rw [zero, BitVec.ushiftRight_zero, BitVec.sshiftRight_zero]

end Signed

/-- `-1` in eight bits. -/
def minusOne : Unsigned := ⟨.signed, 8, [0xffffffffffffffff], rfl, by decide⟩

theorem shiftsArithmetically_five :
    (⟨.signed, 8, [5], rfl, by decide⟩ : Unsigned).ShiftsArithmetically 1 :=
  (shiftsArithmetically_iff rfl 1).mpr (.inl (by decide))

theorem minusOne_shiftRight :
    minusOne.kind = .signed ∧ minusOne.number / 2 ^ 1 = -1 ∧ (minusOne.shiftRight 1).number = 127 ∧
      ¬ minusOne.ShiftsArithmetically 1 := by
  have divided : minusOne.number / 2 ^ 1 = -1 := by decide
  have shifted : (minusOne.shiftRight 1).number = 127 := by decide +kernel
  refine ⟨rfl, divided, shifted, fun arithmetic => ?_⟩
  have number := arithmetic.number
  rw [Nat.cast_one, shifted, divided] at number
  exact absurd number (by decide)

/-- `Rotate_Left(idx)` returns, with `u`. -/
def RotatesLeft (idx : Int) (u : Unsigned) : Prop := ∃ fuel, v.rotateLeft fuel idx = some u

/-- `Rotate_Right(idx)` returns, with `u`. -/
def RotatesRight (idx : Int) (u : Unsigned) : Prop := ∃ fuel, v.rotateRight fuel idx = some u

/-- Rotations by `k` return and undo each other; one by the width changes nothing. -/
structure RotationLaws (k : Nat) : Prop where
  right : ∃ u, v.RotatesRight k u
  undone : ∃ u, v.RotatesLeft k u ∧ ∃ w, u.RotatesRight k w ∧ w.width = v.width ∧
    w.residue v.width = v.residue v.width
  identity : k = v.width → ∃ u, v.RotatesLeft k u ∧ u.width = v.width ∧ u.residue v.width = v.residue v.width

/-- A rotation by `k` begins with one by `k`. -/
theorem rotationLaws_iff (k : Nat) : v.RotationLaws k ↔ k = 0 := by
  constructor
  · intro laws
    by_contra positive
    obtain ⟨u, fuel, returned⟩ := laws.right
    have never : v.rotateRight fuel k = none := rotate_of_pos (by omega) fuel v
    rw [never] at returned
    exact absurd returned (by simp)
  · intro zero
    subst zero
    have still : ∀ u : Unsigned, rotate 1 u (0 : Nat) = some u := fun u => rotate_of_nonpos le_rfl 0 u
    refine ⟨⟨v, 1, still v⟩, ⟨v, ⟨1, still v⟩, v, ⟨1, still v⟩, rfl, rfl⟩, fun full => ?_⟩
    exact absurd full v.width_pos.ne

theorem not_rotatesRight_one :
    let v : Unsigned := ⟨.unsigned, 4, [2], rfl, by decide⟩
    (∀ u, ¬ v.RotatesLeft 1 u) ∧ (∀ u, ¬ v.RotatesRight 1 u) ∧ ¬ v.RotationLaws 1 := by
  intro v
  have never : ∀ (fuel : Nat) (u : Unsigned), rotate fuel v 1 ≠ some u := by
    intro fuel u
    rw [rotate_of_pos one_pos fuel v]
    simp
  refine ⟨fun u ⟨fuel, returned⟩ => never fuel u returned, fun u ⟨fuel, returned⟩ => never fuel u returned, ?_⟩
  intro laws
  obtain ⟨u, fuel, returned⟩ := laws.right
  exact never fuel u returned

end Unsigned
end Ahir.Value
