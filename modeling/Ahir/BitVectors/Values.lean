import Ahir.BitVectors.Operations

/-!
# What the operations compute

The bits and the flags of a result below its width, from those of the inputs.
-/

set_option autoImplicit false

namespace Ahir.BitVectors
open Ahir.Data

namespace BitVector

section Bytewise

@[simp]
theorem width_bytewise (value : Byte → Byte → Byte) (undefined : Byte → Byte → Byte → Byte → Byte)
    (r s t : BitVector) : (bytewise value undefined r s t).width = t.width := by
  unfold bytewise
  rw [width_clearUnusedBits, width_withBytes]

theorem bit_bytewise {value : Byte → Byte → Byte} (onBits : Bool → Bool → Bool)
    (bitwise : ∀ x y : Byte, ∀ j < 8, (value x y).getLsbD j = onBits (x.getLsbD j) (y.getLsbD j))
    (undefined : Byte → Byte → Byte → Byte → Byte) (r s t : BitVector) {i : Nat} (below : i < t.width) :
    (bytewise value undefined r s t).bit i = onBits (r.bit i) (s.bit i) := by
  unfold bytewise
  rw [bit_clearUnusedBits_of_lt _ (by rwa [width_withBytes]), bit_withBytes _ _ _ (div_lt_nbytes below),
    bitwise _ _ _ (Nat.mod_lt _ (by decide)), getLsbD_getByte, getLsbD_getByte]

theorem undefinedBit_bytewise {undefined : Byte → Byte → Byte → Byte → Byte}
    (onBits : Bool → Bool → Bool → Bool → Bool)
    (bitwise : ∀ rb urb sb usb : Byte, ∀ j < 8, (undefined rb urb sb usb).getLsbD j =
      onBits (rb.getLsbD j) (urb.getLsbD j) (sb.getLsbD j) (usb.getLsbD j))
    (value : Byte → Byte → Byte) (r s t : BitVector) {i : Nat} (below : i < t.width) :
    (bytewise value undefined r s t).undefinedBit i =
      onBits (r.bit i) (r.undefinedBit i) (s.bit i) (s.undefinedBit i) := by
  unfold bytewise
  rw [undefinedBit_clearUnusedBits, undefinedBit_withBytes _ _ _ (div_lt_nbytes below),
    bitwise _ _ _ _ _ (Nat.mod_lt _ (by decide)), getLsbD_getByte, getLsbD_getByte, getLsbD_getUndefinedByte,
    getLsbD_getUndefinedByte]

theorem bit_not (src dest : BitVector) {i : Nat} (below : i < dest.width) :
    (not src dest).bit i = !src.bit i := by
  unfold BitVector.not
  rw [bit_clearUnusedBits_of_lt _ (by rwa [width_withBytes]), bit_withBytes _ _ _ (div_lt_nbytes below),
    BitVec.getLsbD_not, decide_eq_true (Nat.mod_lt _ (by decide)), Bool.true_and, getLsbD_getByte]

theorem undefinedBit_not (src dest : BitVector) {i : Nat} (below : i < dest.width) :
    (not src dest).undefinedBit i = src.undefinedBit i := by
  unfold BitVector.not
  rw [undefinedBit_clearUnusedBits, undefinedBit_withBytes _ _ _ (div_lt_nbytes below), getLsbD_getUndefinedByte]

end Bytewise

section Sum

/-- The carries between bytes are those of a ripple carry adder of the bits. -/
theorem byteCarry_eq (f g : Nat → Bool) {op1 op2 : Nat → Byte} (c : Bool)
    (bits1 : ∀ k, ∀ j < 8, (op1 k).getLsbD j = f (8 * k + j)) (bits2 : ∀ k, ∀ j < 8, (op2 k).getLsbD j = g (8 * k + j))
    (k : Nat) : byteCarry op1 op2 c.toNat k = (carryInto c f g (8 * k)).toNat := by
  induction k with
  | zero => rfl
  | succ k ih =>
      have word1 : lowBits 8 (fun j => f (8 * k + j)) = op1 k := lowBits_eq fun j below => (bits1 k j below).symm
      have word2 : lowBits 8 (fun j => g (8 * k + j)) = op2 k := lowBits_eq fun j below => (bits2 k j below).symm
      rw [byteCarry, ih, show 8 * (k + 1) = 8 * k + 8 by ring, carryInto_add, carryInto_eq _ _ _ (le_refl 8), word1,
        word2, BitVec.carry_width]
      by_cases carries : 256 ≤ (op1 k).toNat + (op2 k).toNat + (carryInto c f g (8 * k)).toNat
      · rw [if_pos carries, decide_eq_true carries]
        rfl
      · rw [if_neg carries, decide_eq_false carries]
        rfl

theorem getLsbD_byteSum (f g : Nat → Bool) {op1 op2 : Nat → Byte} (c : Bool)
    (bits1 : ∀ k, ∀ j < 8, (op1 k).getLsbD j = f (8 * k + j)) (bits2 : ∀ k, ∀ j < 8, (op2 k).getLsbD j = g (8 * k + j))
    (i : Nat) : (byteSum op1 op2 c.toNat (i / 8)).getLsbD (i % 8) = sumBit (f i) (g i) (carryInto c f g i) := by
  have position : 8 * (i / 8) + i % 8 = i := by omega
  have hj : i % 8 < 8 := Nat.mod_lt _ (by decide)
  have carry := carryInto_add c f g (8 * (i / 8)) (i % 8)
  have word1 : lowBits 8 (fun j => f (8 * (i / 8) + j)) = op1 (i / 8) :=
    lowBits_eq fun j below => (bits1 (i / 8) j below).symm
  have word2 : lowBits 8 (fun j => g (8 * (i / 8) + j)) = op2 (i / 8) :=
    lowBits_eq fun j below => (bits2 (i / 8) j below).symm
  rw [position, carryInto_eq _ _ _ (le_of_lt hj), word1, word2] at carry
  have sum : byteSum op1 op2 c.toNat (i / 8) =
      op1 (i / 8) + op2 (i / 8) + (BitVec.ofBool (carryInto c f g (8 * (i / 8)))).setWidth 8 := by
    unfold byteSum
    rw [byteCarry_eq f g c bits1 bits2]
    refine BitVec.eq_of_toNat_eq ?_
    simp [BitVec.toNat_add]
  rw [sum, BitVec.getLsbD_add_add_bool hj, ← carry, bits1 _ _ hj, bits2 _ _ hj, position]
  unfold sumBit
  rw [Bool.xor_assoc]

theorem residue_withBytes_byteSum (t : BitVector) (f g : Nat → Bool) {op1 op2 : Nat → Byte} (c : Bool)
    (bits1 : ∀ k, ∀ j < 8, (op1 k).getLsbD j = f (8 * k + j)) (bits2 : ∀ k, ∀ j < 8, (op2 k).getLsbD j = g (8 * k + j))
    (undefined : Nat → Byte) {n : Nat} (le : n ≤ t.width) :
    ((t.withBytes (byteSum op1 op2 c.toNat) undefined).clearUnusedBits).residue n =
      lowBits n f + lowBits n g + (BitVec.ofBool c).setWidth n := by
  rw [residue_clearUnusedBits _ (by rwa [width_withBytes]), ← lowBits_sumBit]
  refine lowBits_congr fun i below => ?_
  rw [bit_withBytes _ _ _ (div_lt_nbytes (by omega)), getLsbD_byteSum f g c bits1 bits2]

theorem getLsbD_getByte_mul_add (x : BitVector) (k j : Nat) (hj : j < 8) :
    (x.getByte k).getLsbD j = x.bit (8 * k + j) := (bitAt_mul_add x.bytes k hj).symm

theorem residue_plus (r s t : BitVector) {n : Nat} (le : n ≤ t.width) :
    (plus r s t).residue n = r.residue n + s.residue n := by
  have sum := t.residue_withBytes_byteSum r.bit s.bit false r.getLsbD_getByte_mul_add s.getLsbD_getByte_mul_add
    (fun i => r.getUndefinedByte i ||| s.getUndefinedByte i) le
  rw [show (BitVec.ofBool false).setWidth n = BitVec.ofNat n 0 by simp, BitVec.add_zero] at sum
  exact sum

theorem residue_increment (s : BitVector) {n : Nat} (le : n ≤ s.width) :
    (increment s).residue n = s.residue n + BitVec.ofNat n 1 := by
  have sum := s.residue_withBytes_byteSum s.bit (fun _ => false) true s.getLsbD_getByte_mul_add
    (fun _ _ _ => getLsbD_ofNat_zero 8 _) s.getUndefinedByte le
  have none : lowBits n (fun _ => false) = BitVec.ofNat n 0 := lowBits_eq fun i _ => BitVec.getLsbD_zero.symm
  have one : (BitVec.ofBool true).setWidth n = BitVec.ofNat n 1 := by
    refine BitVec.eq_of_toNat_eq ?_
    simp
  rw [none, BitVec.add_zero, one] at sum
  exact sum

theorem residue_not (src dest : BitVector) {n : Nat} (le : n ≤ dest.width) :
    (not src dest).residue n = ~~~src.residue n := by
  refine lowBits_eq fun i below => ?_
  rw [bit_not _ _ (by omega), BitVec.getLsbD_not, residue, getLsbD_lowBits, decide_eq_true below, Bool.true_and,
    Bool.true_and]

theorem residue_minus (r s t : BitVector) {n : Nat} (le : n ≤ t.width) :
    (minus r s t).residue n = r.residue n - s.residue n := by
  have width : (plus r (not s t) (not s t)).width = t.width := by simp [plus, BitVector.not]
  have widthNot : (not s t).width = t.width := by simp [BitVector.not]
  have width' : (increment (plus r (not s t) (not s t))).width = t.width := by rw [← width]; simp [increment]
  unfold minus
  dsimp only
  rw [residue_clearUnusedBits _ (by omega), residue_increment _ (by omega), residue_plus _ _ _ (by omega),
    residue_not _ _ le, BitVec.sub_eq_add_neg, BitVec.neg_eq_not_add, BitVec.add_assoc]

end Sum

section Words

theorem signBit_eq (x : BitVector) : x.signBit = x.bit (x.width - 1) := x.getLsbD_getByte (x.width - 1)

theorem getLsbD_unpack (signed : Bool) (x : BitVector) {k : Nat} (below : k < 64) :
    (unpack signed x).getLsbD k = if k / 8 < nbytes x.width then x.bit k else signed && x.signBit := by
  unfold unpack
  rw [getLsbD_lowBits, decide_eq_true below, Bool.true_and]

theorem getLsbD_truncateUint64 (word : BitVec 64) (width : Nat) {k : Nat} (below : k < 64) :
    (truncateUint64 word width).getLsbD k = (word.getLsbD k && decide (k < width)) := by
  unfold truncateUint64
  by_cases narrow : width < 64
  · rw [if_pos narrow, BitVec.getLsbD_and, BitVec.getLsbD_not, BitVec.getLsbD_shiftLeft, BitVec.getLsbD_not,
      getLsbD_ofNat_zero, decide_eq_true below]
    by_cases inside : k < width
    · simp [inside]
    · simp [inside, show k - width < 64 by omega]
  · rw [if_neg narrow, decide_eq_true (by omega), Bool.and_true]

theorem getLsbD_toUint64 (signed : Bool) (x : BitVector) {k : Nat} (below : k < 64) (inside : k < x.width) :
    (toUint64 signed x).getLsbD k = x.bit k := by
  have byte := div_lt_nbytes inside
  unfold toUint64
  split
  · rw [getLsbD_unpack _ _ below, if_pos byte]
  · rw [getLsbD_truncateUint64 _ _ below, getLsbD_unpack _ _ below, if_pos byte, decide_eq_true inside, Bool.and_true]

theorem getLsbD_toUint64_of_le {signed : Bool} {x : BitVector} (plus : (signed && x.signBit) = false) {k : Nat}
    (below : k < 64) (outside : x.width ≤ k) : (toUint64 signed x).getLsbD k = false := by
  unfold toUint64
  rw [if_neg (by rw [plus]; exact Bool.false_ne_true), getLsbD_truncateUint64 _ _ below, decide_eq_false (by omega),
    Bool.and_false]

theorem setWidth_toUint64 (signed : Bool) (x : BitVector) {n : Nat} (le : n ≤ 64) (inside : n ≤ x.width) :
    (toUint64 signed x).setWidth n = x.residue n := by
  refine BitVec.eq_of_getLsbD_eq fun k below => ?_
  rw [BitVec.getLsbD_setWidth, decide_eq_true below, Bool.true_and, residue, getLsbD_lowBits, decide_eq_true below,
    Bool.true_and, getLsbD_toUint64 _ _ (by omega) (by omega)]

theorem toNat_toUint64_false (x : BitVector) (le : x.width ≤ 64) :
    (toUint64 false x).toNat = (x.residue x.width).toNat := by
  have word : toUint64 false x = (x.residue x.width).setWidth 64 := by
    refine BitVec.eq_of_getLsbD_eq fun k below => ?_
    rw [BitVec.getLsbD_setWidth, decide_eq_true below, Bool.true_and, residue, getLsbD_lowBits]
    by_cases inside : k < x.width
    · rw [getLsbD_toUint64 _ _ below inside, decide_eq_true inside, Bool.true_and]
    · rw [getLsbD_toUint64_of_le rfl below (by omega), decide_eq_false inside, Bool.false_and]
  rw [word, BitVec.toNat_setWidth_of_le le]

theorem bit_pack (word : BitVec 64) (dest : BitVector) {i : Nat} (below : i < dest.width) :
    (pack word dest).bit i = if i < 64 then word.getLsbD i else dest.bit i := by
  unfold pack
  rw [bit_clearUnusedBits_of_lt _ (by rwa [width_withBytes]), bit_withBytes _ _ _ (div_lt_nbytes below)]
  by_cases low : i < 64
  · rw [if_pos (by omega), if_pos low, BitVec.getLsbD_extractLsb', decide_eq_true (Nat.mod_lt _ (by decide)),
      Bool.true_and, Nat.div_add_mod]
  · rw [if_neg (by omega), if_neg low, getLsbD_getByte]

theorem undefinedBit_pack (word : BitVec 64) (dest : BitVector) {i : Nat} (below : i < dest.width) :
    (pack word dest).undefinedBit i = (decide (64 ≤ i) && dest.undefinedBit i) := by
  unfold pack
  rw [undefinedBit_clearUnusedBits, undefinedBit_withBytes _ _ _ (div_lt_nbytes below)]
  by_cases low : i < 64
  · rw [if_pos (by omega), getLsbD_ofNat_zero, decide_eq_false (by omega), Bool.false_and]
  · rw [if_neg (by omega), getLsbD_getUndefinedByte, decide_eq_true (by omega), Bool.true_and]

theorem width_pack (word : BitVec 64) (dest : BitVector) : (pack word dest).width = dest.width := by
  unfold pack
  rw [width_clearUnusedBits, width_withBytes]

end Words

section Copy

@[simp]
theorem width_copyLoop (r : BitVector) (source target : Nat → Nat) (t : BitVector) (n : Nat) :
    (copyLoop r source target t n).width = t.width := by
  induction n with
  | zero => rfl
  | succ n ih => rw [copyLoop, width_setUndefinedBit, width_setBit, ih]

@[simp]
theorem width_shiftFill (signed : Bool) (r t : BitVector) : (shiftFill signed r t).width = t.width := by
  unfold shiftFill
  split
  · exact width_clearUnusedBits _
  · rfl

theorem copyLoop_of_ne (r : BitVector) (source target : Nat → Nat) (t : BitVector) {n i : Nat}
    (apart : ∀ J < n, target J ≠ i) :
    (copyLoop r source target t n).bit i = t.bit i ∧
      (copyLoop r source target t n).undefinedBit i = t.undefinedBit i := by
  induction n with
  | zero => exact ⟨rfl, rfl⟩
  | succ n ih =>
      have last := apart n (Nat.lt_succ_self n)
      rw [copyLoop, bit_setUndefinedBit, bit_setBit, undefinedBit_setUndefinedBit, undefinedBit_setBit,
        if_neg fun both => last both.1, if_neg fun both => last both.1]
      exact ih fun J below => apart J (Nat.lt_succ_of_lt below)

theorem copyLoop_target (r : BitVector) (source target : Nat → Nat) (t : BitVector) {n J : Nat} (step : J < n)
    (inside : target J < t.width) (last : ∀ J' < n, J < J' → target J' ≠ target J) :
    (copyLoop r source target t n).bit (target J) = r.getBit (source J) ∧
      (copyLoop r source target t n).undefinedBit (target J) = r.getUndefinedBit (source J) := by
  induction n with
  | zero => omega
  | succ n ih =>
      rw [copyLoop, bit_setUndefinedBit, bit_setBit, undefinedBit_setUndefinedBit, undefinedBit_setBit, width_setBit,
        width_copyLoop]
      by_cases eq : J = n
      · rw [← eq, if_pos ⟨rfl, inside⟩, if_pos ⟨rfl, inside⟩]
        exact ⟨rfl, rfl⟩
      · have ne := last n (Nat.lt_succ_self n) (by omega)
        rw [if_neg fun both => ne both.1, if_neg fun both => ne both.1]
        exact ih (by omega) fun J' below after => last J' (Nat.lt_succ_of_lt below) after

end Copy

section Positions
variable {r s t : BitVector}

theorem getBit_of_lt {x : BitVector} {i : Nat} (below : i < x.width) : x.getBit i = x.bit i := by
  rw [getBit, decide_eq_true below, Bool.true_and]

theorem getUndefinedBit_of_lt {x : BitVector} {i : Nat} (below : i < x.width) :
    x.getUndefinedBit i = x.undefinedBit i := by
  rw [getUndefinedBit, decide_eq_true below, Bool.true_and]

theorem getBit_of_le {x : BitVector} {i : Nat} (outside : x.width ≤ i) : x.getBit i = false := by
  rw [getBit, decide_eq_false (by omega), Bool.false_and]

theorem bitsel_spec (f s t : BitVector) :
    (bitsel f s t).bit 0 = f.getBit ((toUint64 false s).toNat % 2 ^ 32) ∧
      (bitsel f s t).undefinedBit 0 = f.getUndefinedBit ((toUint64 false s).toNat % 2 ^ 32) := by
  have pos : 0 < t.clear.width := t.clear.width_pos
  unfold bitsel
  dsimp only
  rw [bit_setUndefinedBit, bit_setBit, undefinedBit_setUndefinedBit, undefinedBit_setBit, width_setBit,
    if_pos ⟨rfl, pos⟩, if_pos ⟨rfl, pos⟩]
  exact ⟨rfl, rfl⟩

theorem bit_bitsel_of_pos (f s t : BitVector) {i : Nat} (pos : 0 < i) : (bitsel f s t).bit i = false := by
  unfold bitsel
  dsimp only
  rw [bit_setUndefinedBit, bit_setBit, if_neg (by omega), bit_clear]

theorem shiftLeft_spec (same : r.width = t.width) {i : Nat} (below : i < t.width) :
    (shiftLeft r s t).bit i = (decide (s.shiftAmount ≤ i) && r.bit (i - s.shiftAmount)) ∧
      (shiftLeft r s t).undefinedBit i = (decide (s.shiftAmount ≤ i) && r.undefinedBit (i - s.shiftAmount)) := by
  unfold shiftLeft
  by_cases copied : s.shiftAmount ≤ i
  · have position : i - s.shiftAmount + s.shiftAmount = i := by omega
    have step := copyLoop_target r id (fun J => J + s.shiftAmount) t.clear (n := r.width - s.shiftAmount)
      (J := i - s.shiftAmount) (by omega) (by rwa [position]) fun J' _ after => by omega
    rw [id, position, getBit_of_lt (by omega), getUndefinedBit_of_lt (by omega)] at step
    rw [if_pos (by omega), step.1, step.2, decide_eq_true copied, Bool.true_and, Bool.true_and]
    exact ⟨rfl, rfl⟩
  · rw [decide_eq_false copied, Bool.false_and, Bool.false_and]
    split
    · have kept := copyLoop_of_ne r id (fun J => J + s.shiftAmount) t.clear (n := r.width - s.shiftAmount) (i := i)
        fun J _ => by omega
      rw [kept.1, kept.2, bit_clear, undefinedBit_clear]
      exact ⟨rfl, rfl⟩
    · rw [bit_clear, undefinedBit_clear]
      exact ⟨rfl, rfl⟩

theorem shiftFill_spec (signed : Bool) (r t : BitVector) {i : Nat} (below : i < t.width) :
    (shiftFill signed r t).bit i = (signed && r.signBit) ∧ (shiftFill signed r t).undefinedBit i = false := by
  unfold shiftFill
  split
  · next minus =>
      rw [bit_not _ _ (by rwa [clear, width_withBytes]), undefinedBit_not _ _ (by rwa [clear, width_withBytes]),
        bit_clear, undefinedBit_clear, minus]
      exact ⟨rfl, rfl⟩
  · next plus =>
      rw [bit_clear, undefinedBit_clear, Bool.eq_false_iff.mpr plus]
      exact ⟨rfl, rfl⟩

theorem shiftRight_spec (signed : Bool) (same : r.width = t.width) {i : Nat} (below : i < t.width) :
    (shiftRight signed r s t).bit i =
        (if i + s.shiftAmount < t.width then r.bit (i + s.shiftAmount) else signed && r.signBit) ∧
      (shiftRight signed r s t).undefinedBit i =
        (decide (i + s.shiftAmount < t.width) && r.undefinedBit (i + s.shiftAmount)) := by
  have fill := shiftFill_spec signed r t below
  unfold shiftRight
  by_cases copied : i + s.shiftAmount < t.width
  · have step := copyLoop_target r (fun J => J + s.shiftAmount) id (shiftFill signed r t)
      (n := t.width - s.shiftAmount) (J := i) (by omega) (by rwa [width_shiftFill]) fun J' _ after => by
        simp only [id]
        omega
    dsimp only [id] at step
    rw [getBit_of_lt (by omega), getUndefinedBit_of_lt (by omega)] at step
    rw [if_pos (by omega), step.1, step.2, if_pos copied, decide_eq_true copied, Bool.true_and]
    exact ⟨rfl, rfl⟩
  · rw [if_neg copied, decide_eq_false copied, Bool.false_and]
    split
    · have kept := copyLoop_of_ne r (fun J => J + s.shiftAmount) id (shiftFill signed r t)
        (n := t.width - s.shiftAmount) (i := i) fun J less => by
          simp only [id]
          omega
      rw [kept.1, kept.2]
      exact fill
    · exact fill

@[simp]
theorem width_shiftLeft (r s t : BitVector) : (shiftLeft r s t).width = t.width := by
  unfold shiftLeft
  split
  · exact width_copyLoop _ _ _ _ _
  · rfl

@[simp]
theorem width_shiftRight (signed : Bool) (r s t : BitVector) : (shiftRight signed r s t).width = t.width := by
  unfold shiftRight
  split
  · rw [width_copyLoop, width_shiftFill]
  · exact width_shiftFill _ _ _

@[simp]
theorem width_rotateLeft (r s t : BitVector) : (rotateLeft r s t).width = t.width := width_copyLoop _ _ _ _ _

@[simp]
theorem width_rotateRight (r s t : BitVector) : (rotateRight r s t).width = t.width := width_copyLoop _ _ _ _ _

theorem rotate_spec (source : Nat → Nat) (same : r.width = t.width) {i : Nat} (below : i < t.width)
    (inside : source i < r.width) :
    (copyLoop r source id t.clear r.width).bit i = r.bit (source i) ∧
      (copyLoop r source id t.clear r.width).undefinedBit i = r.undefinedBit (source i) := by
  have step := copyLoop_target r source id t.clear (n := r.width) (J := i) (by omega)
    (by rwa [clear, width_withBytes]) fun J' _ after => by
      simp only [id]
      omega
  rw [getBit_of_lt inside, getUndefinedBit_of_lt inside] at step
  exact step

theorem rotateAmount_lt (r s : BitVector) : rotateAmount r s < r.width := Nat.mod_lt _ r.width_pos

theorem rotateLeft_spec (same : r.width = t.width) {i : Nat} (below : i < t.width) :
    (rotateLeft r s t).bit i =
        r.bit (if rotateAmount r s ≤ i then i - rotateAmount r s else i + r.width - rotateAmount r s) ∧
      (rotateLeft r s t).undefinedBit i =
        r.undefinedBit (if rotateAmount r s ≤ i then i - rotateAmount r s else i + r.width - rotateAmount r s) :=
  rotate_spec _ same below (by
    have less := rotateAmount_lt r s
    split <;> omega)

theorem rotateRight_spec (same : r.width = t.width) {i : Nat} (below : i < t.width) :
    (rotateRight r s t).bit i = r.bit ((i + rotateAmount r s) % r.width) ∧
      (rotateRight r s t).undefinedBit i = r.undefinedBit ((i + rotateAmount r s) % r.width) :=
  rotate_spec _ same below (Nat.mod_lt _ r.width_pos)

theorem slice_spec {k : Nat} (inside : k + t.width ≤ r.width) {i : Nat} (below : i < t.width) :
    (slice r t k).bit i = r.bit (i + k) ∧ (slice r t k).undefinedBit i = r.undefinedBit (i + k) := by
  have step := copyLoop_target r (fun J => J + k) id t.clear (n := t.width) (J := i) below
    (show i < t.width from below) fun J' _ after => by
      simp only [id]
      omega
  dsimp only [id] at step
  rwa [getBit_of_lt (by omega), getUndefinedBit_of_lt (by omega)] at step

/-- The low bits are those of `s`, and those above them are the bits of `r`. -/
theorem concatenate_spec (width : t.width = r.width + s.width) {i : Nat} (below : i < t.width) :
    (concatenate r s t).bit i = (if i < s.width then s.bit i else r.bit (i - s.width)) ∧
      (concatenate r s t).undefinedBit i =
        (if i < s.width then s.undefinedBit i else r.undefinedBit (i - s.width)) := by
  have widthLow : (copyLoop s id id t.clear s.width).width = t.width := width_copyLoop _ _ _ _ _
  by_cases first : i < s.width
  · have kept := copyLoop_of_ne r id (fun J => J + s.width) (copyLoop s id id t.clear s.width) (n := r.width) (i := i)
      fun J _ => by omega
    have lower := copyLoop_target s id id t.clear (n := s.width) (J := i) first (show i < t.width from below)
      fun J' _ after => by
        simp only [id]
        omega
    dsimp only [id] at lower
    rw [getBit_of_lt first, getUndefinedBit_of_lt first] at lower
    rw [if_pos first, if_pos first]
    exact ⟨kept.1.trans lower.1, kept.2.trans lower.2⟩
  · have position : i - s.width + s.width = i := by omega
    have upper := copyLoop_target r id (fun J => J + s.width) (copyLoop s id id t.clear s.width) (n := r.width)
      (J := i - s.width) (by omega) (by rwa [position, widthLow]) fun J' _ after => by omega
    rw [id, position, getBit_of_lt (by omega), getUndefinedBit_of_lt (by omega)] at upper
    rw [if_neg first, if_neg first]
    exact upper

/-- The window has the bits of what is inserted, and all others are cleared. -/
theorem insert_spec {low : Nat} (inside : low + r.width ≤ t.width) (i : Nat) :
    (insert r t low).bit i = (decide (low ≤ i ∧ i < low + r.width) && r.bit (i - low)) ∧
      (insert r t low).undefinedBit i = (decide (low ≤ i ∧ i < low + r.width) && r.undefinedBit (i - low)) := by
  by_cases window : low ≤ i ∧ i < low + r.width
  · have position : i - low + low = i := by omega
    have step := copyLoop_target r id (fun J => J + low) t.clear (n := r.width) (J := i - low) (by omega)
      (show i - low + low < t.width by omega) fun J' _ after => by omega
    rw [id, position, getBit_of_lt (by omega), getUndefinedBit_of_lt (by omega)] at step
    rw [decide_eq_true window, Bool.true_and, Bool.true_and]
    exact step
  · have kept := copyLoop_of_ne r id (fun J => J + low) t.clear (n := r.width) (i := i) fun J less => by omega
    rw [bit_clear, undefinedBit_clear] at kept
    rw [decide_eq_false window, Bool.false_and, Bool.false_and]
    exact kept

@[simp]
theorem width_slice (src dest : BitVector) (low : Nat) : (slice src dest low).width = dest.width :=
  width_copyLoop _ _ _ _ _

@[simp]
theorem width_insert (src dest : BitVector) (low : Nat) : (insert src dest low).width = dest.width :=
  width_copyLoop _ _ _ _ _

@[simp]
theorem width_concatenate (f s result : BitVector) : (concatenate f s result).width = result.width := by
  unfold concatenate
  rw [width_copyLoop, width_copyLoop]
  rfl

theorem extend_spec (undefFlag : Bool) (l : List Nat) (t : BitVector) (i : Nat) :
    let extended := l.foldl (fun t i => (t.setBit i true).setUndefinedBit i undefFlag) t
    extended.bit i = (if i ∈ l ∧ i < t.width then true else t.bit i) ∧
      extended.undefinedBit i = (if i ∈ l ∧ i < t.width then undefFlag else t.undefinedBit i) := by
  induction l generalizing t with
  | nil => simp
  | cons a l ih =>
      have rest := ih ((t.setBit a true).setUndefinedBit a undefFlag)
      rw [width_setUndefinedBit, width_setBit, bit_setUndefinedBit, bit_setBit, undefinedBit_setUndefinedBit,
        undefinedBit_setBit, width_setBit] at rest
      rw [List.foldl_cons]
      refine ⟨rest.1.trans ?_, rest.2.trans ?_⟩
      all_goals
        by_cases later : i ∈ l ∧ i < t.width
        · rw [if_pos later, if_pos ⟨List.mem_cons_of_mem a later.1, later.2⟩]
        · rw [if_neg later]
          by_cases here : a = i ∧ a < t.width
          · rw [if_pos here, if_pos ⟨here.1 ▸ List.mem_cons_self, here.1 ▸ here.2⟩]
          · rw [if_neg here, if_neg]
            rintro ⟨mem, below⟩
            rcases List.mem_cons.mp mem with eq | mem
            · exact here ⟨eq.symm, eq ▸ below⟩
            · exact later ⟨mem, below⟩

@[simp]
theorem width_cast (signed : Bool) (dest src : BitVector) : (cast signed dest src).width = dest.width := by
  have extended (undefFlag : Bool) (l : List Nat) (t : BitVector) :
      (l.foldl (fun t i => (t.setBit i true).setUndefinedBit i undefFlag) t).width = t.width := by
    induction l generalizing t with
    | nil => rfl
    | cons a l ih => rw [List.foldl_cons, ih, width_setUndefinedBit, width_setBit]
  unfold cast
  dsimp only
  split
  · rw [extended]
    exact width_copyLoop _ _ _ _ _
  · exact width_copyLoop _ _ _ _ _

theorem cast_spec (signed : Bool) (dest src : BitVector) {i : Nat} (below : i < dest.width) :
    (cast signed dest src).bit i = (if i < src.width then src.bit i else signed && src.signBit) ∧
      (cast signed dest src).undefinedBit i = (if i < src.width then src.undefinedBit i
        else (signed && src.signBit) && src.undefinedBit (src.width - 1)) := by
  have clear : dest.clear.width = dest.width := rfl
  have copied : i < src.width →
      (copyLoop src id id dest.clear (min src.width dest.width)).bit i = src.bit i ∧
        (copyLoop src id id dest.clear (min src.width dest.width)).undefinedBit i = src.undefinedBit i := by
    intro inside
    have step := copyLoop_target src id id dest.clear (n := min src.width dest.width) (J := i) (by omega)
      below fun J' _ after => by
        simp only [id]
        omega
    dsimp only [id] at step
    rwa [getBit_of_lt inside, getUndefinedBit_of_lt inside] at step
  have kept : src.width ≤ i →
      (copyLoop src id id dest.clear (min src.width dest.width)).bit i = false ∧
        (copyLoop src id id dest.clear (min src.width dest.width)).undefinedBit i = false := by
    intro outside
    have same := copyLoop_of_ne src id id dest.clear (n := min src.width dest.width) (i := i) fun J less => by
      simp only [id]
      omega
    rwa [bit_clear, undefinedBit_clear] at same
  unfold cast
  dsimp only
  by_cases inside : i < src.width
  · rw [if_pos inside, if_pos inside]
    split
    · have extended := extend_spec (src.getUndefinedBit (min src.width dest.width - 1))
        (List.range' src.width (dest.width + 1 - src.width))
        (copyLoop src id id dest.clear (min src.width dest.width)) i
      have outside : ¬ i ∈ List.range' src.width (dest.width + 1 - src.width) := by
        rw [List.mem_range'_1]
        omega
      rw [if_neg fun both => outside both.1, if_neg fun both => outside both.1] at extended
      exact ⟨extended.1.trans (copied inside).1, extended.2.trans (copied inside).2⟩
    · exact copied inside
  · rw [if_neg inside, if_neg inside]
    split
    · next minus =>
        have extended := extend_spec (src.getUndefinedBit (min src.width dest.width - 1))
          (List.range' src.width (dest.width + 1 - src.width))
          (copyLoop src id id dest.clear (min src.width dest.width)) i
        have mem : i ∈ List.range' src.width (dest.width + 1 - src.width) := by
          rw [List.mem_range'_1]
          omega
        have pos := src.width_pos
        have least : min src.width dest.width = src.width := by omega
        rw [width_copyLoop, if_pos ⟨mem, below⟩, if_pos ⟨mem, below⟩, least,
          getUndefinedBit_of_lt (by omega)] at extended
        rw [minus, Bool.true_and, least, getUndefinedBit_of_lt (by omega)]
        exact extended
    · next plus =>
        rw [Bool.eq_false_iff.mpr plus, Bool.false_and]
        exact kept (by omega)

end Positions

end BitVector
end Ahir.BitVectors
