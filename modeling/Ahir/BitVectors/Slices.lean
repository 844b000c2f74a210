import Ahir.BitVectors.Words

/-!
# Parts of vectors

A slice takes a part of a vector, an insertion is meant to put one in, and a cast keeps
the low bits.  An insertion clears the whole destination first.
-/

set_option autoImplicit false

namespace Ahir.BitVectors
open Ahir.Data

namespace BitVector

structure SameBits (x y : BitVector) : Prop where
  width : x.width = y.width
  bit : ∀ i < y.width, x.bit i = y.bit i
  undefinedBit : ∀ i < y.width, x.undefinedBit i = y.undefinedBit i

/-- `a` is what is sliced from a vector at `low`. -/
def SlicedAs (whole : BitVector) (low : Nat) (a : BitVector) : Prop :=
  ∀ dest : BitVector, dest.width = a.width → (slice whole dest low).SameBits a

structure CastsBack (signed : Bool) (a wide back : BitVector) : Prop where
  value : if signed then (cast true wide a).signedNumber = a.signedNumber else (cast false wide a).number = a.number
  sameBits : (cast signed back (cast signed wide a)).SameBits a

/-- The laws of concatenation, slicing and casting, and those of `x` inserted into `v` at `k`. -/
structure SlicingLaws (x v : BitVector) (k : Nat) : Prop where
  concatenated : ∀ a b result : BitVector, result.width = a.width + b.width →
    SlicedAs (concatenate a b result) b.width a ∧ SlicedAs (concatenate a b result) 0 b
  inserted : SlicedAs (insert x v k) k x
  kept : ∀ i < v.width, ¬ (k ≤ i ∧ i < k + x.width) →
    (insert x v k).bit i = v.bit i ∧ (insert x v k).undefinedBit i = v.undefinedBit i
  casts : ∀ (signed : Bool) (a wide back : BitVector), a.width ≤ wide.width → back.width = a.width →
    CastsBack signed a wide back

/-- Outside of the `n` bits from `k` on all are zero and defined. -/
def ZeroOutside (v : BitVector) (k n : Nat) : Prop :=
  ∀ i < v.width, ¬ (k ≤ i ∧ i < k + n) → v.bit i = false ∧ v.undefinedBit i = false

theorem slicedAs_of_bits {whole a : BitVector} {low : Nat} (inside : low + a.width ≤ whole.width)
    (bit : ∀ i < a.width, whole.bit (i + low) = a.bit i)
    (undefinedBit : ∀ i < a.width, whole.undefinedBit (i + low) = a.undefinedBit i) : SlicedAs whole low a := by
  intro dest width
  have copied {i : Nat} (below : i < a.width) := slice_spec (r := whole) (t := dest) (k := low) (i := i)
    (by rwa [width]) (by rwa [width])
  exact ⟨(width_slice whole dest low).trans width, fun i below => (copied below).1.trans (bit i below),
    fun i below => (copied below).2.trans (undefinedBit i below)⟩

theorem slicedAs_concatenate_high {a b result : BitVector} (width : result.width = a.width + b.width) :
    SlicedAs (concatenate a b result) b.width a := by
  have copied {i : Nat} (below : i < a.width) := concatenate_spec (r := a) (s := b) width (i := i + b.width) (by omega)
  refine slicedAs_of_bits (by rw [width_concatenate]; omega) (fun i below => ?_) fun i below => ?_
  · rw [(copied below).1, if_neg (by omega), Nat.add_sub_cancel]
  · rw [(copied below).2, if_neg (by omega), Nat.add_sub_cancel]

theorem slicedAs_concatenate_low {a b result : BitVector} (width : result.width = a.width + b.width) :
    SlicedAs (concatenate a b result) 0 b := by
  have copied {i : Nat} (below : i < b.width) := concatenate_spec (r := a) (s := b) width (i := i) (by omega)
  refine slicedAs_of_bits (by rw [width_concatenate]; omega) (fun i below => ?_) fun i below => ?_
  · rw [Nat.add_zero, (copied below).1, if_pos below]
  · rw [Nat.add_zero, (copied below).2, if_pos below]

theorem slicedAs_insert {x v : BitVector} {k : Nat} (inside : k + x.width ≤ v.width) : SlicedAs (insert x v k) k x := by
  refine slicedAs_of_bits (by rwa [width_insert]) (fun i below => ?_) fun i below => ?_
  · rw [(insert_spec inside (i + k)).1, decide_eq_true (by omega), Bool.true_and, Nat.add_sub_cancel]
  · rw [(insert_spec inside (i + k)).2, decide_eq_true (by omega), Bool.true_and, Nat.add_sub_cancel]

theorem cast_number (dest src : BitVector) (wider : src.width ≤ dest.width) :
    (cast false dest src).number = src.number := by
  have extended : (cast false dest src).residue dest.width = (src.residue src.width).setWidth dest.width := by
    refine lowBits_eq fun i below => ?_
    rw [(cast_spec false dest src below).1, BitVec.getLsbD_setWidth, decide_eq_true below, Bool.true_and,
      BitVector.residue, getLsbD_lowBits]
    by_cases inside : i < src.width
    · rw [if_pos inside, decide_eq_true inside, Bool.true_and]
    · rw [if_neg inside, decide_eq_false inside, Bool.false_and, Bool.false_and]
  unfold BitVector.number
  rw [width_cast, extended, BitVec.toNat_setWidth_of_le wider]

/-- The low bits of a cast are those of its source, so casting back finds them. -/
theorem castsBack (signed : Bool) {a wide back : BitVector} (wider : a.width ≤ wide.width)
    (width : back.width = a.width) : CastsBack signed a wide back := by
  have there {i : Nat} (below : i < a.width) := cast_spec signed wide a (i := i) (by omega)
  have again {i : Nat} (below : i < a.width) := cast_spec signed back (cast signed wide a) (i := i) (by omega)
  have inside {i : Nat} (below : i < a.width) : i < (cast signed wide a).width := by
    rw [width_cast]
    omega
  refine ⟨?_, (width_cast signed back _).trans width, fun i below => ?_, fun i below => ?_⟩
  · cases signed with
    | false => exact cast_number wide a wider
    | true => exact cast_signedNumber wide a wider
  · rw [(again below).1, if_pos (inside below), (there below).1, if_pos below]
  · rw [(again below).2, if_pos (inside below), (there below).2, if_pos below]

theorem slicingLaws_iff (x v : BitVector) (k : Nat) (inside : k + x.width ≤ v.width) :
    SlicingLaws x v k ↔ v.ZeroOutside k x.width := by
  constructor
  · intro laws i below outside
    have cleared := insert_spec inside i
    rw [decide_eq_false outside, Bool.false_and, Bool.false_and] at cleared
    have kept := laws.kept i below outside
    exact ⟨kept.1.symm.trans cleared.1, kept.2.symm.trans cleared.2⟩
  · intro zero
    refine ⟨fun a b result width => ⟨slicedAs_concatenate_high width, slicedAs_concatenate_low width⟩,
      slicedAs_insert inside, fun i below outside => ?_, fun signed a wide back wider width => castsBack signed wider width⟩
    have cleared := insert_spec inside i
    rw [decide_eq_false outside, Bool.false_and, Bool.false_and] at cleared
    exact ⟨cleared.1.trans (zero i below outside).1.symm, cleared.2.trans (zero i below outside).2.symm⟩

theorem slicingLaws_window :
    let x : BitVector := ⟨4, [5], [0], rfl, rfl, by decide⟩
    let v : BitVector := ⟨12, [0x70, 0], [0x10, 0], rfl, rfl, by decide⟩
    SlicingLaws x v 4 := by
  intro x v
  have zero : ∀ i < 12, ¬ (4 ≤ i ∧ i < 8) → v.bit i = false ∧ v.undefinedBit i = false := by decide
  exact (slicingLaws_iff x v 4 (by decide)).mpr zero

/-- One bit put into a byte of ones leaves a single one. -/
theorem not_slicingLaws_ones :
    let x : BitVector := ⟨1, [1], [0], rfl, rfl, by decide⟩
    let v : BitVector := ⟨8, [255], [0], rfl, rfl, by decide⟩
    (insert x v 3).number = 8 ∧ ¬ SlicingLaws x v 3 := by
  intro x v
  refine ⟨by decide, fun laws => ?_⟩
  have kept := (laws.kept 0 (by decide) (by decide)).1
  revert kept
  decide

end BitVector
end Ahir.BitVectors
