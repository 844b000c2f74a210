import Ahir.BitVectors.Defined
import Ahir.Hardware.Encoders

/-!
# Encoders of the two models

The encoders of the simulation model and those of the hardware.
-/

set_option autoImplicit false

namespace Ahir.BitVectors
open Ahir.Data Ahir.Hardware Ahir.Hardware.Subprograms

namespace BitVector
variable {src dest : BitVector} {n : Nat} {v : BitVec n}

theorem width_foldl_setBit (value : Nat → Bool) (l : List Nat) (t : BitVector) :
    (l.foldl (fun t i => t.setBit i (value i)) t).width = t.width := by
  induction l generalizing t with
  | nil => rfl
  | cons i l ih => rw [List.foldl_cons, ih, width_setBit]

theorem has_setBits (dest : BitVector) (value : Nat → Bool) :
    ((List.range dest.width).foldl (fun t i => t.setBit i (value i)) dest.clear).Has dest.width value := by
  have written (k : Nat) (le : k ≤ dest.width) (i : Nat) :
      let t := (List.range k).foldl (fun t i => t.setBit i (value i)) dest.clear
      t.undefinedBit i = false ∧ (i < k → t.bit i = value i) := by
    induction k with
    | zero => exact ⟨undefinedBit_clear dest i, fun below => absurd below (Nat.not_lt_zero i)⟩
    | succ k ih =>
        obtain ⟨flag, bits⟩ := ih (by omega)
        rw [List.range_succ, List.foldl_append, List.foldl_cons, List.foldl_nil]
        dsimp only
        rw [undefinedBit_setBit, bit_setBit, width_foldl_setBit]
        refine ⟨flag, fun below => ?_⟩
        by_cases here : k = i
        · rw [if_pos ⟨here, le⟩, here]
        · rw [if_neg fun both => here both.1]
          exact bits (by omega)
  exact ⟨width_foldl_setBit _ _ _, fun i below => (written _ le_rfl i).2 below, fun i _ => (written _ le_rfl i).1⟩

/-- The number in a vector that is not too wide for a word. -/
theorem Has.toNat_toUint64 (has : src.Has n v.getLsbD) (le : n ≤ 64) : (toUint64 false src).toNat = v.toNat := by
  have bits : lowBits n v.getLsbD = v := lowBits_eq fun _ _ => rfl
  have width := has.width
  subst width
  rw [toNat_toUint64_false src le, has.residue, bits]

theorem Has.getBit (has : src.Has n v.getLsbD) (i : Nat) : src.getBit i = v.getLsbD i := by
  by_cases below : i < n
  · rw [getBit_of_lt (by rw [has.width]; exact below), has.bit i below]
  · rw [getBit_of_le (by rw [has.width]; omega), BitVec.getLsbD_of_ge _ _ (by omega)]

theorem decode_has (has : src.Has n v.getLsbD) (le : n ≤ 64) (width : dest.width = 2 ^ n) :
    (src.decode dest).Has (2 ^ n) (genericDecode v).getLsbD := by
  unfold decode
  rw [has.hasUndefinedBit, if_neg Bool.false_ne_true, has.toNat_toUint64 le]
  have set := has_setBits dest fun i => decide (v.toNat = i)
  rw [width] at set ⊢
  refine set.congr fun i below => ?_
  rw [getLsbD_genericDecode v below]
  exact decide_eq_decide.mpr eq_comm

theorem clear_has_zero (width : dest.width = n) : dest.clear.Has n (0#n).getLsbD :=
  ⟨width, fun i _ => (bit_clear dest i).trans BitVec.getLsbD_zero.symm, fun i _ => undefinedBit_clear dest i⟩

theorem pack_clear_has {i : Nat} (width : dest.width = n) (fits : i < 2 ^ 64) :
    (pack (BitVec.ofNat 64 i) dest.clear).Has n (BitVec.ofNat n i).getLsbD := by
  have widthClear : dest.clear.width = n := width
  refine ⟨(width_pack _ _).trans widthClear, fun k below => ?_, fun k below => ?_⟩
  · rw [bit_pack _ _ (by rw [widthClear]; exact below), bit_clear, BitVec.getLsbD_ofNat, BitVec.getLsbD_ofNat,
      decide_eq_true below, Bool.true_and]
    by_cases word : k < 64
    · rw [if_pos word, decide_eq_true word, Bool.true_and]
    · rw [if_neg word]
      exact (Nat.testBit_lt_two_pow (fits.trans_le (Nat.pow_le_pow_right Nat.two_pos (by omega)))).symm
  · rw [undefinedBit_pack _ _ (by rw [widthClear]; exact below), undefinedBit_clear, Bool.and_false]

theorem filter_getBit (has : src.Has n v.getLsbD) (single : AtMostOneSet v) :
    (∀ k, v.getLsbD k = false) ∧ (List.range src.width).filter src.getBit = [] ∨
      ∃ i < n, v.getLsbD i = true ∧ (List.range src.width).filter src.getBit = [i] := by
  have nodup := (List.nodup_range (n := src.width)).filter src.getBit
  have member (i : Nat) : i ∈ (List.range src.width).filter src.getBit ↔ v.getLsbD i = true := by
    rw [List.mem_filter, List.mem_range, has.getBit, has.width]
    exact ⟨And.right, fun set => ⟨BitVec.lt_of_getLsbD set, set⟩⟩
  generalize (List.range src.width).filter src.getBit = set at nodup member
  cases set with
  | nil => exact .inl ⟨fun k => Bool.eq_false_iff.mpr fun set => List.not_mem_nil ((member k).mpr set), rfl⟩
  | cons i more =>
      have setI := (member i).mp List.mem_cons_self
      refine .inr ⟨i, BitVec.lt_of_getLsbD setI, setI, ?_⟩
      cases more with
      | nil => rfl
      | cons j more =>
          have setJ := (member j).mp (List.mem_cons_of_mem _ List.mem_cons_self)
          have : i ∈ j :: more := by
            rw [single i j setI setJ]
            exact List.mem_cons_self
          exact absurd this (List.nodup_cons.mp nodup).1

theorem encode_has (has : src.Has n v.getLsbD) (fits : n ≤ 2 ^ 64) (width : dest.width = ceilLog2 n)
    (single : AtMostOneSet v) :
    ∃ y, src.encode dest = some y ∧ y.Has (ceilLog2 n) (genericEncode v).getLsbD := by
  unfold encode
  rw [has.hasUndefinedBit, if_neg Bool.false_ne_true]
  cases filter_getBit has single with
  | inl none =>
      dsimp only
      rw [none.2, genericEncode_eq_zero none.1]
      exact ⟨_, rfl, clear_has_zero width⟩
  | inr one =>
      obtain ⟨i, below, set, found⟩ := one
      dsimp only
      rw [found, genericEncode_eq set fun k setK => single k i setK set]
      exact ⟨_, rfl, pack_clear_has width (by omega)⟩

theorem priorityLoop_spec (has : src.Has n v.getLsbD) {k : Nat} (le : k ≤ n) (width : dest.width = n) (i : Nat) :
    (priorityLoop src dest.clear k).undefinedBit i = false ∧
      ((priorityLoop src dest.clear k).bit i = true ↔
        i < k ∧ v.getLsbD i = true ∧ ∀ j, i < j → j < k → v.getLsbD j = false) := by
  induction k with
  | zero =>
      refine ⟨undefinedBit_clear dest i, ?_⟩
      rw [show (priorityLoop src dest.clear 0).bit i = dest.clear.bit i from rfl, bit_clear]
      exact ⟨fun no => absurd no Bool.false_ne_true, fun no => absurd no.1 (Nat.not_lt_zero i)⟩
  | succ k ih =>
      obtain ⟨flag, bits⟩ := ih (by omega)
      unfold priorityLoop
      rw [has.getBit]
      cases top : v.getLsbD k with
      | true =>
          rw [if_pos rfl, undefinedBit_setBit, undefinedBit_clear, bit_setBit, bit_clear]
          refine ⟨rfl, ?_⟩
          by_cases here : k = i
          · subst here
            rw [if_pos ⟨rfl, by rw [show dest.clear.width = n from width]; exact le⟩]
            exact ⟨fun _ => ⟨k.lt_succ_self, top, fun j above below => by omega⟩, fun _ => rfl⟩
          · rw [if_neg fun both => here both.1]
            refine ⟨fun no => absurd no Bool.false_ne_true, fun all => ?_⟩
            have := all.2.2 k (by omega) k.lt_succ_self
            exact this.symm.trans top
      | false =>
          rw [if_neg Bool.false_ne_true]
          refine ⟨flag, bits.trans ⟨fun all => ⟨by omega, all.2.1, fun j above below => ?_⟩, fun all => ?_⟩⟩
          · by_cases last : j = k
            · rw [last, top]
            · exact all.2.2 j above (by omega)
          · have ne : i ≠ k := by
              rintro rfl
              rw [top] at all
              exact Bool.false_ne_true all.2.1
            exact ⟨by omega, all.2.1, fun j above below => all.2.2 j above (by omega)⟩

theorem width_priorityLoop (src t : BitVector) (k : Nat) : (priorityLoop src t k).width = t.width := by
  induction k with
  | zero => rfl
  | succ k ih =>
      unfold priorityLoop
      split
      · exact width_setBit _ _ _
      · exact ih

theorem priorityEncode_has (has : src.Has n v.getLsbD) (width : dest.width = n) :
    (src.priorityEncode dest).Has n (Subprograms.priorityEncode v).getLsbD := by
  unfold priorityEncode
  rw [has.hasUndefinedBit, if_neg Bool.false_ne_true, has.width]
  refine ⟨(width_priorityLoop _ _ _).trans width, fun i below => ?_,
    fun i _ => (priorityLoop_spec has le_rfl width i).1⟩
  rw [Bool.eq_iff_iff, (priorityLoop_spec has le_rfl width i).2, getLsbD_priorityEncode v below]
  exact ⟨And.right, fun both => ⟨below, both⟩⟩

end BitVector

/-- The encoders of the simulation leave what those of the hardware compute, in a vector of
the same length, whatever it held. -/
theorem encoders_agree {src dest : BitVector} {n : Nat} {v : BitVec n} (has : src.Has n v.getLsbD)
    (widthSrc : n < 2 ^ 32) (widthDest : dest.width < 2 ^ 32) :
    (dest.width = 2 ^ n → (src.decode dest).Has (2 ^ n) (genericDecode v).getLsbD) ∧
      (dest.width = ceilLog2 n → AtMostOneSet v →
        ∃ y, src.encode dest = some y ∧ y.Has (ceilLog2 n) (genericEncode v).getLsbD) ∧
      (dest.width = n → (src.priorityEncode dest).Has n (Subprograms.priorityEncode v).getLsbD) ∧
      (dest.width = 2 ^ n → (∀ back : BitVector, back.width = n →
          ∃ y, (src.decode dest).encode back = some y ∧ y.Has n v.getLsbD) ∧
        (genericEncode (genericDecode v)).toNat = v.toNat) := by
  have short (width : dest.width = 2 ^ n) : n ≤ 64 := by
    have : n < 32 := (Nat.pow_lt_pow_iff_right (by decide)).mp (width ▸ widthDest)
    omega
  refine ⟨fun width => BitVector.decode_has has (short width) width,
    fun width => BitVector.encode_has has (by omega) width,
    fun width => BitVector.priorityEncode_has has width,
    fun width => ⟨fun back widthBack => ?_, toNat_genericEncode_genericDecode v⟩⟩
  obtain ⟨y, encoded, hasY⟩ := BitVector.encode_has (BitVector.decode_has has (short width) width)
    (by rw [← width]; omega) (widthBack.trans (ceilLog2_two_pow n).symm) (atMostOneSet_genericDecode v)
  have bits : (genericEncode (genericDecode v)).getLsbD = v.getLsbD := by
    funext i
    rw [BitVec.getLsbD, toNat_genericEncode_genericDecode]
    rfl
  rw [bits, ceilLog2_two_pow] at hasY
  exact ⟨y, encoded, hasY⟩

/-- Two, over vectors of one, two and four bits that are set and not defined. -/
theorem encoders_agree_two :
    let src : BitVector := .mk 2 [2#8] [0#8] rfl rfl (by decide)
    let one : BitVector := .mk 1 [255#8] [255#8] rfl rfl (by decide)
    let two : BitVector := .mk 2 [255#8] [255#8] rfl rfl (by decide)
    let four : BitVector := .mk 4 [255#8] [255#8] rfl rfl (by decide)
    (src.decode four).Has 4 (genericDecode 2#2).getLsbD ∧
      (∃ y, src.encode one = some y ∧ y.Has (ceilLog2 2) (genericEncode 2#2).getLsbD) ∧
      (src.priorityEncode two).Has 2 (Subprograms.priorityEncode 2#2).getLsbD ∧
      ∃ y, (src.decode four).encode two = some y ∧ y.Has 2 (2#2).getLsbD := by
  intro src one two four
  have has : src.Has 2 (2#2).getLsbD := ⟨rfl, by decide, by decide⟩
  have single : AtMostOneSet 2#2 := atMostOneSet_genericDecode 1#1
  exact ⟨(encoders_agree has (by decide) (by decide)).1 rfl,
    (encoders_agree has (by decide) (by decide)).2.1 (by decide) single,
    (encoders_agree has (by decide) (by decide)).2.2.1 rfl,
    ((encoders_agree has (by decide) (by decide)).2.2.2 rfl).1 two rfl⟩

end Ahir.BitVectors
