import Ahir.BitVectors.Undefined

/-!
# Operations on defined vectors

A vector of which every bit is defined has a value, and so has the result of each
operation on such vectors.
-/

set_option autoImplicit false

namespace Ahir.BitVectors
open Ahir.Data

namespace BitVector

/-- The vector has `n` bits, which are those of `f`, and all are defined. -/
structure Has (x : BitVector) (n : Nat) (f : Nat → Bool) : Prop where
  width : x.width = n
  bit : ∀ i < n, x.bit i = f i
  defined : ∀ i < n, x.undefinedBit i = false

section Logical
variable {r s t : BitVector} {n : Nat} {f g : Nat → Bool}

theorem Has.residue (has : r.Has n f) : r.residue n = lowBits n f := lowBits_congr has.bit

theorem Has.hasUndefinedBit (has : r.Has n f) : r.hasUndefinedBit = false :=
  hasUndefinedBit_eq_false.mpr fun i below => has.defined i (has.width ▸ below)

theorem Has.congr (has : r.Has n f) (same : ∀ i < n, f i = g i) : r.Has n g :=
  ⟨has.width, fun i below => (has.bit i below).trans (same i below), has.defined⟩

/-- A logical operation whose flag is clear where those of both operands are. -/
theorem Has.bytewise {value : Byte → Byte → Byte} {undefined : Byte → Byte → Byte → Byte → Byte}
    (valueBit : Bool → Bool → Bool) (undefinedBit : Bool → Bool → Bool → Bool → Bool)
    (valueBitwise : ∀ x y : Byte, ∀ j < 8, (value x y).getLsbD j = valueBit (x.getLsbD j) (y.getLsbD j))
    (undefinedBitwise : ∀ rb urb sb usb : Byte, ∀ j < 8, (undefined rb urb sb usb).getLsbD j =
      undefinedBit (rb.getLsbD j) (urb.getLsbD j) (sb.getLsbD j) (usb.getLsbD j))
    (clear : ∀ rb sb, undefinedBit rb false sb false = false) (hasR : r.Has n f) (hasS : s.Has n g)
    (width : t.width = n) : (bytewise value undefined r s t).Has n fun i => valueBit (f i) (g i) := by
  refine ⟨(width_bytewise _ _ _ _ _).trans width, fun i below => ?_, fun i below => ?_⟩
  · rw [bit_bytewise valueBit valueBitwise _ _ _ _ (by omega), hasR.bit i below, hasS.bit i below]
  · rw [undefinedBit_bytewise undefinedBit undefinedBitwise _ _ _ _ (by omega), hasR.defined i below,
      hasS.defined i below, clear]

section Operands
variable (hasR : r.Has n f) (hasS : s.Has n g) (width : t.width = n)
include hasR hasS width

theorem Has.or : (or r s t).Has n fun i => f i || g i :=
  hasR.bytewise Bool.or orFlag (fun _ _ _ _ => BitVec.getLsbD_or) getLsbD_undefinedOr (by decide) hasS width

theorem Has.and : (and r s t).Has n fun i => f i && g i :=
  hasR.bytewise Bool.and andFlag (fun _ _ _ _ => BitVec.getLsbD_and) getLsbD_undefinedAnd (by decide) hasS width

theorem Has.xor : (xor r s t).Has n fun i => f i ^^ g i :=
  hasR.bytewise Bool.xor (fun _ u _ v => u || v) (fun _ _ _ _ => BitVec.getLsbD_xor) getLsbD_undefinedXor
    (by decide) hasS width

theorem Has.nor : (nor r s t).Has n fun i => !(f i || g i) :=
  hasR.bytewise (fun x y => !(x || y)) orFlag
    (fun x y j below => (getLsbD_not_of_lt _ below).trans (congrArg Bool.not BitVec.getLsbD_or)) getLsbD_undefinedOr
    (by decide) hasS width

theorem Has.nand : (nand r s t).Has n fun i => !(f i && g i) :=
  hasR.bytewise (fun x y => !(x && y)) andFlag
    (fun x y j below => (getLsbD_not_of_lt _ below).trans (congrArg Bool.not BitVec.getLsbD_and)) getLsbD_undefinedAnd
    (by decide) hasS width

theorem Has.xnor : (xnor r s t).Has n fun i => !(f i ^^ g i) :=
  hasR.bytewise (fun x y => !(x ^^ y)) (fun _ u _ v => u || v)
    (fun x y j below => (getLsbD_not_of_lt _ below).trans (congrArg Bool.not BitVec.getLsbD_xor)) getLsbD_undefinedXor
    (by decide) hasS width

theorem Has.plus : (plus r s t).Has n (lowBits n f + lowBits n g).getLsbD := by
  refine ⟨(width_plus _ _ _).trans width, fun i below => ?_, fun i below => ?_⟩
  · have sum := residue_plus r s t width.ge
    rw [hasR.residue, hasS.residue] at sum
    rw [← sum, BitVector.residue, getLsbD_lowBits, decide_eq_true below, Bool.true_and]
  · rw [undefinedBit_plus _ _ _ (by omega), hasR.defined i below, hasS.defined i below, Bool.or_false]

theorem Has.minus : (minus r s t).Has n (lowBits n f - lowBits n g).getLsbD := by
  refine ⟨(width_minus _ _ _).trans width, fun i below => ?_, fun i below => ?_⟩
  · have difference := residue_minus r s t width.ge
    rw [hasR.residue, hasS.residue] at difference
    rw [← difference, BitVector.residue, getLsbD_lowBits, decide_eq_true below, Bool.true_and]
  · rw [undefinedBit_minus _ _ _ (by omega), hasR.defined i below, hasS.defined i below, Bool.or_false]

end Operands

theorem Has.not (has : r.Has n f) (width : t.width = n) : (not r t).Has n fun i => !f i := by
  refine ⟨(width_not _ _).trans width, fun i below => ?_, fun i below => ?_⟩
  · rw [bit_not _ _ (by omega), has.bit i below]
  · rw [undefinedBit_not _ _ (by omega), has.defined i below]

theorem compareLoop_eq_isEqual (r s : BitVector) (n : Nat) :
    compareLoop r s n = .isEqual ↔ ∀ i < n, r.getBit i = s.getBit i := by
  induction n with
  | zero => simp [compareLoop]
  | succ n ih =>
      have all : (∀ i < n + 1, r.getBit i = s.getBit i) ↔ r.getBit n = s.getBit n ∧ ∀ i < n, r.getBit i = s.getBit i := by
        rw [Nat.forall_lt_succ_right, and_comm]
      rw [all, compareLoop]
      cases r.getBit n <;> cases s.getBit n <;> simp [ih]

theorem compare_eq_isEqual (hasR : r.Has n f) (hasS : s.Has n g) :
    compare false r s = .isEqual ↔ lowBits n f = lowBits n g := by
  unfold BitVector.compare
  rw [hasR.hasUndefinedBit, hasS.hasUndefinedBit]
  simp only [Bool.or_self, Bool.false_and, Bool.and_false, Bool.false_eq_true, if_false]
  rw [compareLoop_eq_isEqual, hasR.width, lowBits_inj]
  refine forall_congr' fun i => imp_congr_right fun below => ?_
  rw [getBit_of_lt (by rwa [hasR.width]), getBit_of_lt (by rwa [hasS.width]), hasR.bit i below, hasS.bit i below]

/-- A comparison that sets its one bit as it answers, and flags nothing. -/
theorem has_compareInto {holds flags : Compared → Bool} {signed : Bool} (width : t.width = 1)
    (unflagged : holds (compare signed r s) = false → flags (compare signed r s) = false) :
    (compareInto holds flags signed r s t).Has 1 fun _ => holds (compare signed r s) := by
  have pos : 0 < t.clear.width := t.clear.width_pos
  unfold compareInto
  dsimp only
  cases answer : holds (compare signed r s) with
  | true =>
      rw [if_pos rfl]
      refine ⟨(width_setBit _ _ _).trans width, fun i below => ?_, fun i below => ?_⟩
      · rw [bit_setBit, if_pos ⟨by omega, pos⟩]
      · rw [undefinedBit_setBit, undefinedBit_clear]
  | false =>
      rw [if_neg Bool.false_ne_true, unflagged answer, if_neg Bool.false_ne_true]
      exact ⟨width, fun i _ => bit_clear t i, fun i _ => undefinedBit_clear t i⟩

theorem Has.equal (hasR : r.Has n f) (hasS : s.Has n g) (width : t.width = 1) :
    (equal false r s t).Has 1 fun i => decide (i = 0) && decide (lowBits n f = lowBits n g) := by
  refine (has_compareInto width fun _ => rfl).congr fun i below => ?_
  rw [decide_eq_true (show i = 0 by omega), Bool.true_and, decide_eq_decide, compare_eq_isEqual hasR hasS]

theorem Has.notEqual (hasR : r.Has n f) (hasS : s.Has n g) (width : t.width = 1) :
    (notEqual false r s t).Has 1 fun i => decide (i = 0) && !decide (lowBits n f = lowBits n g) := by
  refine (has_compareInto width fun _ => rfl).congr fun i below => ?_
  rw [decide_eq_true (show i = 0 by omega), Bool.true_and, ← decide_not, decide_eq_decide, ne_eq,
    compare_eq_isEqual hasR hasS]

end Logical

section Copies
variable {r s t : BitVector} {m n : Nat} {f g : Nat → Bool}

theorem Has.slice {low : Nat} (has : r.Has m f) (width : t.width = n) (inside : low + n ≤ m) :
    (slice r t low).Has n fun i => f (i + low) := by
  have copied {i : Nat} (below : i < n) := slice_spec (r := r) (t := t) (k := low) (i := i)
    (by rw [width, has.width]; exact inside) (by rw [width]; exact below)
  refine ⟨(width_slice r t low).trans width, fun i below => ?_, fun i below => ?_⟩
  · rw [(copied below).1, has.bit _ (by omega)]
  · rw [(copied below).2, has.defined _ (by omega)]

theorem Has.concatenate (hasR : r.Has m f) (hasS : s.Has n g) (width : t.width = m + n) :
    (concatenate r s t).Has (m + n) fun i => if i < n then g i else f (i - n) := by
  have copied {i : Nat} (below : i < m + n) := concatenate_spec (r := r) (s := s) (t := t) (i := i)
    (by rw [width, hasR.width, hasS.width]) (by rw [width]; exact below)
  refine ⟨(width_concatenate r s t).trans width, fun i below => ?_, fun i below => ?_⟩
  · rw [(copied below).1, hasS.width]
    by_cases first : i < n
    · rw [if_pos first, if_pos first, hasS.bit i first]
    · rw [if_neg first, if_neg first, hasR.bit _ (by omega)]
  · rw [(copied below).2, hasS.width]
    by_cases first : i < n
    · rw [if_pos first, hasS.defined i first]
    · rw [if_neg first, hasR.defined _ (by omega)]

theorem Has.cast (has : r.Has n f) (width : t.width = n) : (cast false t r).Has n f := by
  refine ⟨(width_cast _ _ _).trans width, fun i below => ?_, fun i below => ?_⟩
  · rw [(cast_spec false t r (by omega)).1, if_pos (by rw [has.width]; exact below), has.bit i below]
  · rw [(cast_spec false t r (by omega)).2, if_pos (by rw [has.width]; exact below), has.defined i below]

/-- A vector of one bit, taken as an integer, is zero just when the bit is not set. -/
theorem Has.toUint64_ne_zero (has : r.Has 1 f) (signed : Bool) : toUint64 signed r ≠ 0 ↔ f 0 = true := by
  have bit : (toUint64 signed r).getLsbD 0 = f 0 := by
    rw [getLsbD_toUint64 signed r (by decide) (by rw [has.width]; decide), has.bit 0 Nat.one_pos]
  constructor
  · intro ne
    by_contra clear
    refine ne (BitVec.eq_of_getLsbD_eq fun i below => ?_)
    have sign : (signed && r.signBit) = false := by
      rw [signBit_eq, has.width, has.bit 0 Nat.one_pos, Bool.eq_false_iff.mpr clear, Bool.and_false]
    rw [getLsbD_ofNat_zero]
    by_cases first : i = 0
    · rw [first, bit, Bool.eq_false_iff.mpr clear]
    · exact getLsbD_toUint64_of_le sign below (by rw [has.width]; omega)
  · intro set zero
    rw [zero, getLsbD_ofNat_zero, set] at bit
    exact Bool.false_ne_true bit

theorem has_assignString {init : List Char} (length : init.length = t.width) :
    (assignString t init).Has t.width fun i => decide (init.getD (t.width - i - 1) ' ' = '1') := by
  let step (u : BitVector) (i : Nat) := u.setBit (t.width - i - 1) (decide (init.getD i ' ' = '1'))
  have written (k : Nat) (le : k ≤ t.width) : ((List.range k).foldl step t.clear).width = t.width ∧
      ∀ i < t.width, ((List.range k).foldl step t.clear).undefinedBit i = false ∧
        (t.width - k ≤ i → ((List.range k).foldl step t.clear).bit i =
          decide (init.getD (t.width - i - 1) ' ' = '1')) := by
    induction k with
    | zero => exact ⟨rfl, fun i below => ⟨undefinedBit_clear t i, fun above => by omega⟩⟩
    | succ k ih =>
        obtain ⟨width, bits⟩ := ih (by omega)
        rw [List.range_succ, List.foldl_append, List.foldl_cons, List.foldl_nil]
        refine ⟨(width_setBit _ _ _).trans width, fun i below => ⟨?_, fun above => ?_⟩⟩
        · rw [undefinedBit_setBit]
          exact (bits i below).1
        · rw [bit_setBit]
          by_cases here : t.width - k - 1 = i
          · rw [if_pos ⟨here, by omega⟩, show t.width - i - 1 = k by omega]
          · rw [if_neg fun both => here both.1]
            exact (bits i below).2 (by omega)
  obtain ⟨width, bits⟩ := written t.width le_rfl
  unfold assignString
  rw [if_pos length]
  exact ⟨width, fun i below => (bits i below).2 (by omega), fun i below => (bits i below).1⟩

end Copies
end BitVector
end Ahir.BitVectors
