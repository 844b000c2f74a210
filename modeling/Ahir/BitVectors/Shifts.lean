import Ahir.BitVectors.Canonical
import Ahir.BitVectors.Encoders
import Ahir.BitVectors.Words
import Ahir.Hardware.UnsignedShifter

/-!
# Shifts of the two models

The simulation model, the procedures of the operator package and the pipelined shifter
each take the shift amount from other bits of the operand.
-/

set_option autoImplicit false

namespace Ahir.Hardware.ShiftOperation
open OperatorPackage
variable {w n : Nat}

def proc : ShiftOperation → BitVec w → BitVec n → BitVec w
  | shl => apIntSHL
  | lshr => apIntLSHR
  | ashr => apIntASHR
  | rol => apIntROL
  | ror => apIntROR

/-- Two amounts by which vectors of `w` bits are moved alike. -/
def SameMove (w a b : Nat) : ShiftOperation → Prop
  | shl | lshr => a = b ∨ w ≤ a ∧ w ≤ b
  | ashr => a = b ∨ w - 1 ≤ a ∧ w - 1 ≤ b
  | rol | ror => a % w = b % w

theorem proc_eq (op : ShiftOperation) (l : BitVec w) (r : BitVec n) :
    op.proc l r = op.move l (r.toNat % 2 ^ (ceilLog2 w + 1)) := by
  have amount : OperatorPackage.shiftAmount w r = r.toNat % 2 ^ (ceilLog2 w + 1) := by
    unfold OperatorPackage.shiftAmount toUnsigned
    rw [BitVec.toNat_setWidth]
    rcases Nat.le_total (ceilLog2 w + 1) n with le | le
    · rw [Nat.min_eq_left le]
    · rw [Nat.min_eq_right le, Nat.mod_eq_of_lt r.isLt,
        Nat.mod_eq_of_lt (r.isLt.trans_le (Nat.pow_le_pow_right Nat.two_pos le))]
  rw [← amount]
  cases op <;> rfl

/-- Where the bits of the two results are told apart by the place from which on they are set. -/
theorem sameShift_of_bits {m a b : Nat} (same : ∀ k < m, decide (a ≤ k) = decide (b ≤ k)) :
    a = b ∨ m ≤ a ∧ m ≤ b := by
  by_contra differ
  rw [not_or, not_and_or] at differ
  rcases Nat.lt_or_ge a b with less | ge
  · have := decide_eq_decide.mp (same a (by omega))
    omega
  · have := decide_eq_decide.mp (same b (by omega))
    omega

theorem getLsbD_allOnes_shiftLeft {k : Nat} (below : k < w) (a : Nat) :
    (BitVec.allOnes w <<< a).getLsbD k = decide (a ≤ k) := by
  rw [BitVec.getLsbD_shiftLeft, BitVec.getLsbD_allOnes, decide_eq_true below, decide_eq_true (by omega : k - a < w),
    Bool.true_and, Bool.and_true, Bool.eq_iff_iff, Bool.not_eq_true', decide_eq_false_iff_not, decide_eq_true_iff, not_lt]

theorem getLsbD_allOnes_ushiftRight {k : Nat} (below : k < w) (a : Nat) :
    (BitVec.allOnes w >>> a).getLsbD (w - 1 - k) = decide (a ≤ k) := by
  rw [BitVec.getLsbD_ushiftRight, BitVec.getLsbD_allOnes]
  exact decide_eq_decide.mpr (by omega)

theorem getLsbD_intMin_sshiftRight {k : Nat} (below : k < w - 1) (a : Nat) :
    ((BitVec.intMin w).sshiftRight a).getLsbD (w - 1 - 1 - k) = !decide (a ≤ k) := by
  rw [BitVec.getLsbD_sshiftRight, decide_eq_false (by omega : ¬ w ≤ w - 1 - 1 - k), Bool.not_false, Bool.true_and,
    BitVec.getLsbD_intMin, BitVec.msb_intMin, decide_eq_true (by omega : 0 < w), ← decide_not, Bool.eq_iff_iff,
    decide_eq_true_iff]
  by_cases inside : a + (w - 1 - 1 - k) < w
  · rw [if_pos inside, decide_eq_true_iff]
    omega
  · rw [if_neg inside]
    exact ⟨fun _ => by omega, fun _ => rfl⟩

theorem getLsbD_one_rotateLeft {k : Nat} (below : k < w) (a : Nat) :
    ((1#w).rotateLeft a).getLsbD k = decide (k = a % w) := by
  have less : a % w < w := Nat.mod_lt a (by omega)
  rw [BitVec.getLsbD_rotateLeft, BitVec.getLsbD_one, BitVec.getLsbD_one, decide_eq_true (by omega : 0 < w),
    decide_eq_true below, Bool.true_and, Bool.true_and, Bool.true_and]
  by_cases wrapped : k < a % w
  · rw [decide_eq_true wrapped, cond_true]
    exact decide_eq_decide.mpr (by omega)
  · rw [decide_eq_false wrapped, cond_false]
    exact decide_eq_decide.mpr (by omega)

theorem getLsbD_one_rotateRight {k : Nat} (below : k < w) (a : Nat) :
    ((1#w).rotateRight a).getLsbD (w - 1 - k) = decide (k + 1 = a % w ∨ k + 1 = w ∧ a % w = 0) := by
  have less : a % w < w := Nat.mod_lt a (by omega)
  rw [BitVec.getLsbD_rotateRight, BitVec.getLsbD_one, BitVec.getLsbD_one, decide_eq_true (by omega : 0 < w),
    decide_eq_true (by omega : w - 1 - k < w), Bool.true_and, Bool.true_and, Bool.true_and]
  by_cases wrapped : w - 1 - k < w - a % w
  · rw [decide_eq_true wrapped, cond_true]
    exact decide_eq_decide.mpr (by omega)
  · rw [decide_eq_false wrapped, cond_false]
    exact decide_eq_decide.mpr (by omega)

theorem sameMove_of_forall {op : ShiftOperation} (pos : 0 < w) {a b : Nat}
    (same : ∀ l : BitVec w, op.move l a = op.move l b) : op.SameMove w a b := by
  have bits (l : BitVec w) (k : Nat) : (op.move l a).getLsbD k = (op.move l b).getLsbD k := by rw [same l]
  cases op with
  | shl =>
      refine sameShift_of_bits fun k below => ?_
      rw [← getLsbD_allOnes_shiftLeft below, ← getLsbD_allOnes_shiftLeft below]
      exact bits (BitVec.allOnes w) k
  | lshr =>
      refine sameShift_of_bits fun k below => ?_
      rw [← getLsbD_allOnes_ushiftRight below, ← getLsbD_allOnes_ushiftRight below]
      exact bits (BitVec.allOnes w) (w - 1 - k)
  | ashr =>
      refine sameShift_of_bits fun k below => ?_
      rw [← Bool.not_inj_iff, ← getLsbD_intMin_sshiftRight below, ← getLsbD_intMin_sshiftRight below]
      exact bits (BitVec.intMin w) (w - 1 - 1 - k)
  | rol =>
      have less := Nat.mod_lt a pos
      have bit := bits (1#w) (a % w)
      rw [move, move, getLsbD_one_rotateLeft less, getLsbD_one_rotateLeft less, decide_eq_true rfl] at bit
      show a % w = b % w
      exact of_decide_eq_true bit.symm
  | ror =>
      have less := Nat.mod_lt a pos
      have lessB := Nat.mod_lt b pos
      have top := bits (1#w) (w - 1 - (w - 1))
      have place := bits (1#w) (w - 1 - (a % w - 1))
      rw [move, move, getLsbD_one_rotateRight (by omega), getLsbD_one_rotateRight (by omega), decide_eq_decide] at top place
      show a % w = b % w
      omega

theorem sshiftRight_of_le (l : BitVec w) {a : Nat} (le : w - 1 ≤ a) :
    l.sshiftRight a = l.sshiftRight (w - 1) := by
  have filled (c : Nat) (leC : w - 1 ≤ c) (i : Nat) (below : i < w) : (l.sshiftRight c).getLsbD i = l.msb := by
    rw [BitVec.getLsbD_sshiftRight, decide_eq_false (by omega : ¬ w ≤ i), Bool.not_false, Bool.true_and]
    by_cases inside : c + i < w
    · rw [if_pos inside, BitVec.msb_eq_getLsbD_last, show c + i = w - 1 by omega]
    · rw [if_neg inside]
  exact BitVec.eq_of_getLsbD_eq fun i below => (filled a le i below).trans (filled _ le_rfl i below).symm

theorem move_of_sameMove {op : ShiftOperation} {a b : Nat} (same : op.SameMove w a b) (l : BitVec w) :
    op.move l a = op.move l b := by
  cases op with
  | shl =>
      cases same with
      | inl eq => rw [eq]
      | inr out => exact (BitVec.shiftLeft_eq_zero out.1).trans (BitVec.shiftLeft_eq_zero out.2).symm
  | lshr =>
      cases same with
      | inl eq => rw [eq]
      | inr out => exact (BitVec.ushiftRight_eq_zero out.1).trans (BitVec.ushiftRight_eq_zero out.2).symm
  | ashr =>
      cases same with
      | inl eq => rw [eq]
      | inr out => exact (sshiftRight_of_le l out.1).trans (sshiftRight_of_le l out.2).symm
  | rol =>
      show l.rotateLeft a = l.rotateLeft b
      rw [← BitVec.rotateLeft_mod_eq_rotateLeft, show a % w = b % w from same, BitVec.rotateLeft_mod_eq_rotateLeft]
  | ror =>
      show l.rotateRight a = l.rotateRight b
      rw [← BitVec.rotateRight_mod_eq_rotateRight, show a % w = b % w from same, BitVec.rotateRight_mod_eq_rotateRight]

end Ahir.Hardware.ShiftOperation

namespace Ahir.BitVectors
open Ahir.Data Ahir.Hardware Ahir.Hardware.ShiftOperation Ahir.Hardware.Subprograms Ahir.Hardware.UnsignedShifter Ahir.Run
open BitVector
variable {w n : Nat}

/-- The function of the simulation model: the vector `r` moved by `s` and put into `t`. -/
def simulate : ShiftOperation → BitVector → BitVector → BitVector → BitVector
  | .shl => BitVector.shiftLeft
  | .lshr => BitVector.shiftRight false
  | .ashr => BitVector.shiftRight true
  | .rol => BitVector.rotateLeft
  | .ror => BitVector.rotateRight

def simulatedAmount (amount : Nat) : ShiftOperation → Nat
  | .shl | .lshr | .ashr => amount % 2 ^ 32
  | .rol | .ror => amount % 2 ^ 64

theorem toNat_toUint64_mod (s : BitVector) : (toUint64 false s).toNat = s.number % 2 ^ 64 := by
  have word : toUint64 false s = (s.residue s.width).setWidth 64 := by
    refine BitVec.eq_of_getLsbD_eq fun k below => ?_
    rw [BitVec.getLsbD_setWidth, decide_eq_true below, Bool.true_and]
    by_cases inside : k < s.width
    · rw [getLsbD_toUint64 false s below inside, BitVector.residue, getLsbD_lowBits, decide_eq_true inside, Bool.true_and]
    · rw [getLsbD_toUint64_of_le rfl below (by omega), BitVec.getLsbD_of_ge _ _ (by omega)]
  rw [word, BitVec.toNat_setWidth]
  rfl

theorem Has.number {x : BitVector} {v : BitVec n} (has : x.Has n v.getLsbD) : x.number = v.toNat := by
  have width := has.width
  subst width
  rw [BitVector.number, has.residue, lowBits_getLsbD]

theorem width_simulate (op : ShiftOperation) (r s t : BitVector) : (simulate op r s t).width = t.width := by
  cases op with
  | shl => exact width_shiftLeft _ _ _
  | lshr | ashr => exact width_shiftRight _ _ _ _
  | rol => exact width_rotateLeft _ _ _
  | ror => exact width_rotateRight _ _ _

theorem residue_simulate (op : ShiftOperation) {r s t : BitVector} (widthR : r.width = w) (width : t.width = w) :
    (simulate op r s t).residue w = op.move (r.residue w) (simulatedAmount s.number op) := by
  have same : r.width = t.width := by rw [widthR, width]
  have amount : s.shiftAmount = s.number % 2 ^ 32 := by
    unfold shiftAmount
    rw [toNat_toUint64_mod, Nat.mod_mod_of_dvd _ (by decide)]
  have rotation : rotateAmount r s = s.number % 2 ^ 64 % w := by
    unfold rotateAmount
    rw [toNat_toUint64_mod, widthR]
  have sign : r.signBit = (r.residue w).msb := by rw [← msb_residue, widthR]
  have bit (i : Nat) (below : i < w) : r.bit i = (r.residue w).getLsbD i := by
    rw [BitVector.residue, getLsbD_lowBits, decide_eq_true below, Bool.true_and]
  refine lowBits_eq fun i below => ?_
  cases op with
  | shl =>
      show (shiftLeft r s t).bit i = (r.residue w <<< (s.number % 2 ^ 32)).getLsbD i
      rw [(shiftLeft_spec same (by omega)).1, amount, bit _ (by omega), BitVec.getLsbD_shiftLeft,
        decide_eq_true below, Bool.true_and]
      by_cases low : i < s.number % 2 ^ 32
      · rw [decide_eq_true low, decide_eq_false (by omega)]
        rfl
      · rw [decide_eq_false low, decide_eq_true (by omega)]
        rfl
  | lshr =>
      show (shiftRight false r s t).bit i = (r.residue w >>> (s.number % 2 ^ 32)).getLsbD i
      rw [(shiftRight_spec false same (by omega)).1, amount, BitVec.getLsbD_ushiftRight, width, Nat.add_comm]
      by_cases inside : s.number % 2 ^ 32 + i < w
      · rw [if_pos inside, bit _ inside]
      · rw [if_neg inside, BitVec.getLsbD_of_ge _ _ (by omega)]
        rfl
  | ashr =>
      show (shiftRight true r s t).bit i = ((r.residue w).sshiftRight (s.number % 2 ^ 32)).getLsbD i
      rw [(shiftRight_spec true same (by omega)).1, amount, BitVec.getLsbD_sshiftRight, width, Nat.add_comm,
        sign, decide_eq_false (by omega : ¬ w ≤ i), Bool.not_false, Bool.true_and, Bool.true_and]
      by_cases inside : s.number % 2 ^ 32 + i < w
      · rw [if_pos inside, if_pos inside, bit _ inside]
      · rw [if_neg inside, if_neg inside]
  | rol =>
      show (rotateLeft r s t).bit i = ((r.residue w).rotateLeft (s.number % 2 ^ 64)).getLsbD i
      have less : s.number % 2 ^ 64 % w < w := Nat.mod_lt _ (by omega)
      rw [(rotateLeft_spec same (by omega)).1, rotation, widthR, BitVec.getLsbD_rotateLeft]
      by_cases wrapped : i < s.number % 2 ^ 64 % w
      · rw [if_neg (by omega), decide_eq_true wrapped, cond_true, bit _ (by omega)]
        congr 1
        omega
      · rw [if_pos (by omega), decide_eq_false wrapped, cond_false, bit _ (by omega), decide_eq_true below,
          Bool.true_and]
  | ror =>
      show (rotateRight r s t).bit i = ((r.residue w).rotateRight (s.number % 2 ^ 64)).getLsbD i
      have less : s.number % 2 ^ 64 % w < w := Nat.mod_lt _ (by omega)
      rw [(rotateRight_spec same (by omega)).1, rotation, widthR, BitVec.getLsbD_rotateRight,
        bit _ (Nat.mod_lt _ (by omega))]
      by_cases inside : i < w - s.number % 2 ^ 64 % w
      · rw [decide_eq_true inside, cond_true, Nat.mod_eq_of_lt (by omega), Nat.add_comm]
      · rw [decide_eq_false inside, cond_false, decide_eq_true below, Bool.true_and, Nat.mod_eq_sub_mod (by omega),
          Nat.mod_eq_of_lt (by omega)]
        congr 1
        omega

theorem simulate_has (op : ShiftOperation) {r s t : BitVector} {l : BitVec w} {v : BitVec n} (hasR : r.Has w l.getLsbD)
    (hasS : s.Has n v.getLsbD) (width : t.width = w) :
    (simulate op r s t).Has w (op.move l (simulatedAmount v.toNat op)).getLsbD := by
  have same : r.width = t.width := by rw [hasR.width, width]
  have moved := residue_simulate op (s := s) hasR.width width
  rw [hasR.residue, lowBits_eq fun _ _ => rfl, Has.number hasS] at moved
  refine ⟨(width_simulate op r s t).trans width, fun i below => ?_, fun i below => ?_⟩
  · rw [← moved, BitVector.residue, getLsbD_lowBits, decide_eq_true below, Bool.true_and]
  cases op with
  | shl =>
      show (shiftLeft r s t).undefinedBit i = false
      rw [(shiftLeft_spec same (by omega)).2, hasR.defined _ (by omega), Bool.and_false]
  | lshr =>
      show (shiftRight false r s t).undefinedBit i = false
      rw [(shiftRight_spec false same (by omega)).2]
      by_cases inside : i + s.shiftAmount < t.width
      · rw [hasR.defined _ (by omega), Bool.and_false]
      · rw [decide_eq_false inside, Bool.false_and]
  | ashr =>
      show (shiftRight true r s t).undefinedBit i = false
      rw [(shiftRight_spec true same (by omega)).2]
      by_cases inside : i + s.shiftAmount < t.width
      · rw [hasR.defined _ (by omega), Bool.and_false]
      · rw [decide_eq_false inside, Bool.false_and]
  | rol =>
      show (rotateLeft r s t).undefinedBit i = false
      have less : rotateAmount r s < w := hasR.width ▸ rotateAmount_lt r s
      rw [(rotateLeft_spec same (by omega)).2, hasR.width]
      split <;> exact hasR.defined _ (by omega)
  | ror =>
      show (rotateRight r s t).undefinedBit i = false
      rw [(rotateRight_spec same (by omega)).2, hasR.width]
      exact hasR.defined _ (Nat.mod_lt _ (by omega))

/-- The three ways to move vectors of `w` bits by `v` give one result. -/
structure ShiftsAgree (op : ShiftOperation) (w : Nat) (v : BitVec n) : Prop where
  simulated : ∀ (l : BitVec w) (r s t : BitVector), r.Has w l.getLsbD → s.Has n v.getLsbD → t.width = w →
    (simulate op r s t).Has w (op.proc l v).getLsbD
  pipelined : op.pipelined = true → ∀ (tagWidth : Nat) (stages : Nat → Stage w n tagWidth)
    (before after : List (Bool × Input w n tagWidth)) (i : Input w n tagWidth), i.slvR = v →
    (entered after).length = pipeDepth w n - 1 →
    (output (runStalling (step op) stages (before ++ (false, i) :: after))).map
      (fun s => (s.result, s.tag, s.active)) = some (op.proc i.slvL v, i.tagIn, i.inRdy)

/-- The amount as each of them takes it: its lowest 32 bits (64 for a rotation), one bit more
than the positions of a vector need, and just those. -/
def AmountsAgree (op : ShiftOperation) (w amount : Nat) : Prop :=
  op.SameMove w (simulatedAmount amount op) (amount % 2 ^ (ceilLog2 w + 1)) ∧
    (op.pipelined = true → 1 < w ∧ op.SameMove w (amount % 2 ^ ceilLog2 w) (amount % 2 ^ (ceilLog2 w + 1)))

theorem exists_has (pos : 0 < n) (v : BitVec n) : ∃ x : BitVector, x.Has n v.getLsbD := by
  refine ⟨(zero n pos).clear.withValue v.toNat, rfl, fun i below => ?_, fun i _ => ?_⟩
  · rw [bit_withValue, decide_eq_true (show i < (zero n pos).clear.width from below), Bool.true_and,
      BitVec.testBit_toNat]
  · rw [undefinedBit_withValue, undefinedBit_clear]

theorem Has.unique {x : BitVector} {a b : BitVec w} (hasA : x.Has w a.getLsbD) (hasB : x.Has w b.getLsbD) : a = b :=
  BitVec.eq_of_getLsbD_eq fun i below => (hasA.bit i below).symm.trans (hasB.bit i below)

/-- The significant bits of a shift amount, for vectors of more than one bit. -/
theorem toNat_setWidth_numSigBits (two : 1 < w) (pos : 0 < n) (v : BitVec n) :
    (v.setWidth (numSigBits w n)).toNat = v.toNat % 2 ^ ceilLog2 w := by
  have bits : 0 < ceilLog2 w := Nat.clog_pos (by decide) two
  rw [BitVec.toNat_setWidth]
  unfold numSigBits
  rcases Nat.le_total n (ceilLog2 w) with le | le
  · rw [Nat.min_eq_left le, Nat.max_eq_right pos, Nat.mod_eq_of_lt v.isLt,
      Nat.mod_eq_of_lt (v.isLt.trans_le (Nat.pow_le_pow_right Nat.two_pos le))]
  · rw [Nat.min_eq_right le, Nat.max_eq_right bits]

/-- The result that the pipelined shifter gives, if its cycles move it to the end. -/
theorem output_result {op : ShiftOperation} (pipe : op.pipelined = true) (two : 1 < w) (pos : 0 < n) {tagWidth : Nat}
    (stages : Nat → Stage w n tagWidth) (before after : List (Bool × Input w n tagWidth)) (i : Input w n tagWidth)
    (cycles : (entered after).length = pipeDepth w n - 1) :
    (output (runStalling (step op) stages (before ++ (false, i) :: after))).map (fun s => (s.result, s.tag, s.active)) =
      some (op.move i.slvL (i.slvR.toNat % 2 ^ ceilLog2 w), i.tagIn, i.inRdy) := by
  rw [output_runStalling pipe two stages before after i cycles, toNat_setWidth_numSigBits two pos]
  rfl

/-- The models agree on all vectors of one width just when they take the amount alike. -/
theorem shiftsAgree_iff (op : ShiftOperation) (posW : 0 < w) (posN : 0 < n) (v : BitVec n) :
    ShiftsAgree op w v ↔ AmountsAgree op w v.toNat := by
  constructor
  · intro agree
    refine ⟨sameMove_of_forall posW fun l => ?_, fun pipe => ?_⟩
    · obtain ⟨r, hasR⟩ := exists_has posW l
      obtain ⟨s, hasS⟩ := exists_has posN v
      rw [← proc_eq]
      exact Has.unique (simulate_has op hasR hasS hasR.width) (agree.simulated l r s r hasR hasS hasR.width)
    · let run (l : BitVec w) : List (Bool × Input w n 0) := List.replicate (pipeDepth w n - 1) (false, ⟨l, v, 0#0, true⟩)
      have length (l : BitVec w) : (entered (run l)).length = pipeDepth w n - 1 := by
        rw [entered_replicate, List.length_replicate]
      have result (l : BitVec w) := agree.pipelined pipe 0 (fun _ => ⟨l, 0#0, 0#_, true⟩) [] (run l) ⟨l, v, 0#0, true⟩
        rfl (length l)
      have two : 1 < w := by
        by_contra one
        have undriven := result 0#w
        unfold output at undriven
        rw [if_neg one] at undriven
        exact Option.some_ne_none _ undriven.symm
      refine ⟨two, sameMove_of_forall posW fun l => ?_⟩
      have moved := (output_result pipe two posN _ _ _ _ (length l)).symm.trans (result l)
      rw [← proc_eq]
      exact (Prod.mk.inj (Option.some.inj moved)).1
  · intro agree
    refine ⟨fun l r s t hasR hasS width => ?_, fun pipe tagWidth stages before after i same cycles => ?_⟩
    · rw [proc_eq, ← move_of_sameMove agree.1]
      exact simulate_has op hasR hasS width
    · obtain ⟨two, amounts⟩ := agree.2 pipe
      rw [output_result pipe two posN stages before after i cycles, proc_eq, same, move_of_sameMove amounts]

theorem amountsAgree_of_lt (op : ShiftOperation) (two : 1 < w) (wide : w ≤ 2 ^ 32) {amount : Nat} (below : amount < w) :
    AmountsAgree op w amount := by
  have inside : amount < 2 ^ ceilLog2 w := below.trans_le (le_two_pow_ceilLog2 w)
  have simulated : simulatedAmount amount op = amount := by
    cases op <;> exact Nat.mod_eq_of_lt (by omega)
  have refl (a : Nat) : op.SameMove w a a := by
    cases op with
    | shl | lshr | ashr => exact .inl rfl
    | rol | ror => rfl
  unfold AmountsAgree
  rw [simulated, Nat.mod_eq_of_lt inside,
    Nat.mod_eq_of_lt (inside.trans_le (Nat.pow_le_pow_right Nat.two_pos (Nat.le_succ _)))]
  exact ⟨refl amount, fun _ => ⟨two, refl amount⟩⟩

/-- Three bits shifted to the left by two. -/
theorem shiftsAgree_two : ShiftsAgree .shl 3 2#2 :=
  (shiftsAgree_iff .shl (by decide) (by decide) 2#2).mpr
    (amountsAgree_of_lt .shl (by decide) (by decide) (by decide))

/-- A vector of eight bits is empty when the simulation has shifted it by 16, and unchanged
when the procedure of the package has. -/
theorem not_shiftsAgree_sixteen : ¬ ShiftsAgree .shl 8 16#8 := by
  intro agree
  have result := agree.simulated 1#8 (.mk 8 [1#8] [0#8] rfl rfl (by decide)) (.mk 8 [16#8] [0#8] rfl rfl (by decide))
    (.mk 8 [0#8] [0#8] rfl rfl (by decide)) ⟨rfl, by decide, by decide⟩ ⟨rfl, by decide, by decide⟩ rfl
  have bit := result.bit 0 (by decide)
  rw [proc_eq] at bit
  have cleared : BitVector.bit (simulate .shl (.mk 8 [1#8] [0#8] rfl rfl (by decide))
      (.mk 8 [16#8] [0#8] rfl rfl (by decide)) (.mk 8 [0#8] [0#8] rfl rfl (by decide))) 0 = false := by decide +kernel
  have kept : (ShiftOperation.shl.move 1#8 ((16#8).toNat % 2 ^ (ceilLog2 8 + 1))).getLsbD 0 = true := by
    rw [show ceilLog2 8 = 3 from ceilLog2_two_pow 3]
    rfl
  rw [cleared, kept] at bit
  exact Bool.false_ne_true bit

end Ahir.BitVectors
