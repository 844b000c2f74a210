import Ahir.Value.Arithmetic

/-!
# Copies, concatenations and rotations

The operations that move whole bits between objects.
-/

set_option autoImplicit false

namespace Ahir.Value
open Ahir.Data

namespace Unsigned
variable (v b : Unsigned)

/-- `Assign` of an object to a new one of its class and width; `Signed` goes over the bits. -/
def copy : Unsigned :=
  match v.kind with
  | .unsigned => v
  | .signed =>
      ((List.range v.width).foldl (fun this idx => this.setBit idx (v.getBit idx))
        (resetAndClear .signed v.width v.width_pos)).signExtend

/-- The words of another object, and zeros for those that it does not have. -/
def assignWords (kind : Kind) (width : Nat) (pos : 0 < width) : Unsigned where
  kind := kind
  width := width
  bitField := (List.range (arraySize width)).map fun idx => v.bitField.getD idx 0
  length_bitField := by rw [List.length_map, List.length_range]
  width_pos := pos

/-- The bits of another object, and then a bit for those that it does not have. -/
def assignBits (kind : Kind) (width : Nat) (pos : 0 < width) (above : Bool) : Unsigned :=
  (List.range width).foldl (fun this idx => this.setBit idx (if idx < v.width then v.getBit idx else above))
    (resetAndClear kind width pos)

/-- `Assign` to a new object of a class and a width. -/
def assign (kind : Kind) (width : Nat) (pos : 0 < width) : Unsigned :=
  match v.kind, kind with
  | .unsigned, kind => (v.assignWords kind width pos).signExtend
  | .signed, .unsigned => v.assignBits .unsigned width pos false
  | .signed, .signed => (v.assignBits .signed width pos (v.getBit (v.width - 1))).signExtend

/-- `Slice` into a new object of the class `Unsigned`, which has the width of the slice. -/
def slice (hi li : Int) (pos : 0 < (hi - li + 1).toNat) : Unsigned :=
  if hi < v.width ∧ 0 ≤ li ∧ li ≤ hi then
    (List.range (hi - li + 1).toNat).foldl (fun this idx => this.setBit idx (v.getBit (idx + li.toNat)))
      (resetAndClear .unsigned (hi - li + 1).toNat pos)
  else resetAndClear .unsigned (hi - li + 1).toNat pos

/-- The `tmp` of `Concatenate`. -/
def joined : Unsigned :=
  let low := (List.range b.width).foldl (fun tmp idx => tmp.setBit idx (b.getBit idx))
    (resetAndClear .unsigned (v.width + b.width) (Nat.add_pos_left v.width_pos b.width))
  (List.range v.width).foldl (fun tmp idx => tmp.setBit (idx + b.width) (v.getBit idx)) low

/-- `Concatenate`; the object keeps its class. -/
def concatenate : Unsigned := { v.joined b with kind := v.kind }.signExtend

/-- `To_Integer`, where an `int` is expected. -/
def toInt : Int := (v.toUinteger.setWidth 32).toInt

/-- The loop of `Rotate_Left(int)` and of `Rotate_Right(int)`, which call themselves. -/
def rotate : Nat → Unsigned → Int → Option Unsigned
  | 0, _, _ => none
  | fuel + 1, this, idx => (List.range idx.toNat).foldlM (fun this _ => rotate fuel this idx) this

def rotateLeft (fuel : Nat) (idx : Int) : Option Unsigned := rotate fuel v idx
def rotateRight (fuel : Nat) (idx : Int) : Option Unsigned := rotate fuel v idx

@[simp]
theorem width_copy : v.copy.width = v.width := by
  unfold copy
  split
  · rfl
  · rw [width_signExtend]
    exact width_foldl_setBit _ _ v.getBit

theorem getBit_copy {i : Nat} (below : i < v.width) : v.copy.getBit i = v.getBit i := by
  unfold copy
  split
  · rfl
  · rw [getBit_signExtend _ (by rw [width_foldl_setBit _ _ v.getBit]; exact below),
      getBit_foldl_setBit _ _ v.getBit]
    · rw [if_pos (List.mem_range.mpr below)]
    · exact fun idx mem => div_lt_arraySize (List.mem_range.mp mem)

theorem residue_copy {n : Nat} (hv : v.width = n) : v.copy.residue n = v.residue n :=
  lowBits_congr fun _ below => v.getBit_copy (by omega)

section Assigned
variable {kind : Kind} {width : Nat} (pos : 0 < width)

theorem width_assignBits (above : Bool) : (v.assignBits kind width pos above).width = width :=
  width_foldl_setBit _ _ fun idx => if idx < v.width then v.getBit idx else above

theorem kind_assignBits (above : Bool) : (v.assignBits kind width pos above).kind = kind :=
  kind_foldl_setBit _ _ fun idx => if idx < v.width then v.getBit idx else above

theorem width_assign : (v.assign kind width pos).width = width := by
  unfold assign
  split
  · rw [width_signExtend]
    rfl
  · exact v.width_assignBits pos false
  · rw [width_signExtend]
    exact v.width_assignBits pos _

theorem kind_assign : (v.assign kind width pos).kind = kind := by
  unfold assign
  split
  · rw [kind_signExtend]
    rfl
  · exact v.kind_assignBits pos false
  · rw [kind_signExtend]
    exact v.kind_assignBits pos _

theorem getBit_assignWords {i : Nat} (below : i < width) : (v.assignWords kind width pos).getBit i = v.getBit i := by
  have inside := div_lt_arraySize below
  unfold getBit assignWords
  dsimp only
  rw [bitAt_map_range inside]
  rfl

theorem getBit_assignBits (above : Bool) {i : Nat} (below : i < width) :
    (v.assignBits kind width pos above).getBit i = if i < v.width then v.getBit i else above := by
  have bits := getBit_foldl_setBit (resetAndClear kind width pos) (List.range width)
    (fun idx => if idx < v.width then v.getBit idx else above) (fun idx mem => div_lt_arraySize (List.mem_range.mp mem)) i
  rw [if_pos (List.mem_range.mpr below)] at bits
  exact bits

def bitAbove (kind : Kind) (i : Nat) : Bool :=
  match v.kind with
  | .unsigned => v.getBit i
  | .signed => kind == .signed && v.getBit (v.width - 1)

theorem getBit_assign {i : Nat} (below : i < width) :
    (v.assign kind width pos).getBit i = if i < v.width then v.getBit i else v.bitAbove kind i := by
  unfold assign
  split
  · next unsigned =>
      rw [getBit_signExtend _ below, v.getBit_assignWords pos below, bitAbove, unsigned, ite_self]
  · next signed =>
      rw [v.getBit_assignBits pos false below, bitAbove, signed]
      rfl
  · next signed =>
      rw [getBit_signExtend _ (by rwa [width_assignBits]), v.getBit_assignBits pos _ below, bitAbove, signed]
      rfl

theorem residue_assign (same : v.width = width) : (v.assign kind width pos).residue width = v.residue width := by
  refine lowBits_congr fun i below => ?_
  rw [v.getBit_assign pos below, if_pos (by omega)]

theorem slice_spec {n lowIndex : Nat} (positive : 0 < n) (fits : lowIndex + n ≤ v.width)
    (pos : 0 < ((lowIndex + n - 1 : Int) - lowIndex + 1).toNat) :
    (v.slice (lowIndex + n - 1) lowIndex pos).width = n ∧
      (v.slice (lowIndex + n - 1) lowIndex pos).residue n = (v.residue v.width).extractLsb' lowIndex n := by
  have size : ((lowIndex + n - 1 : Int) - lowIndex + 1).toNat = n := by omega
  unfold slice
  rw [if_pos (by omega)]
  have width := width_foldl_setBit (resetAndClear .unsigned _ pos) (List.range ((lowIndex + n - 1 : Int) - lowIndex + 1).toNat)
    fun idx => v.getBit (idx + (lowIndex : Int).toNat)
  refine ⟨width.trans size, lowBits_eq fun i below => ?_⟩
  rw [getBit_foldl_setBit _ _ fun idx => v.getBit (idx + (lowIndex : Int).toNat),
    if_pos (List.mem_range.mpr (by omega)), BitVec.getLsbD_extractLsb', getLsbD_residue, decide_eq_true below,
    decide_eq_true (show lowIndex + i < v.width by omega), Bool.true_and, Bool.true_and, Int.toNat_natCast, Nat.add_comm]
  exact fun idx mem => div_lt_arraySize (List.mem_range.mp mem)

end Assigned

theorem joined_eq : (v.joined b).width = v.width + b.width ∧
    ∀ i < v.width + b.width, (v.joined b).getBit i = if i < b.width then b.getBit i else v.getBit (i - b.width) := by
  let start := resetAndClear .unsigned (v.width + b.width) (Nat.add_pos_left v.width_pos b.width)
  let low := (List.range b.width).foldl (fun tmp idx => tmp.setBit idx (b.getBit idx)) start
  have widthLow : low.width = v.width + b.width := width_foldl_setBit start _ b.getBit
  have high : v.joined b =
      ((List.range v.width).map (· + b.width)).foldl
        (fun tmp idx => tmp.setBit idx (v.getBit (idx - b.width))) low := by
    rw [List.foldl_map]
    simp only [Nat.add_sub_cancel]
    rfl
  rw [high, width_foldl_setBit low _ fun idx => v.getBit (idx - b.width)]
  refine ⟨widthLow, fun i below => ?_⟩
  rw [getBit_foldl_setBit low _ fun idx => v.getBit (idx - b.width)]
  · by_cases lower : i < b.width
    · have outside : i ∉ (List.range v.width).map (· + b.width) := by
        rw [List.mem_map]
        rintro ⟨k, _, eq⟩
        omega
      rw [if_neg outside, if_pos lower, getBit_foldl_setBit start _ b.getBit, if_pos (List.mem_range.mpr lower)]
      intro idx mem
      rw [List.mem_range] at mem
      exact div_lt_arraySize (show idx < v.width + b.width by omega)
    · have inside : i ∈ (List.range v.width).map (· + b.width) :=
        List.mem_map.mpr ⟨i - b.width, List.mem_range.mpr (by omega), by omega⟩
      rw [if_pos inside, if_neg lower]
  · intro idx mem
    obtain ⟨k, memK, rfl⟩ := List.mem_map.mp mem
    rw [List.mem_range] at memK
    exact div_lt_arraySize (show k + b.width < low.width by omega)

@[simp]
theorem width_concatenate : (v.concatenate b).width = v.width + b.width := by
  unfold concatenate
  rw [width_signExtend]
  exact (v.joined_eq b).1

theorem residue_concatenate {m n : Nat} (hv : v.width = m) (hb : b.width = n) :
    (v.concatenate b).residue (m + n) = v.residue m ++ b.residue n := by
  obtain ⟨width, bits⟩ := v.joined_eq b
  refine lowBits_eq fun i below => ?_
  have own : (v.concatenate b).getBit i = (v.joined b).getBit i :=
    getBit_signExtend { v.joined b with kind := v.kind } (show i < (v.joined b).width by omega)
  rw [own, bits i (by omega), BitVec.getLsbD_append, getLsbD_residue, getLsbD_residue]
  rw [hb]
  by_cases lower : i < n
  · rw [if_pos lower, if_pos lower, decide_eq_true lower, Bool.true_and]
  · rw [if_neg lower, if_neg lower, decide_eq_true (show i - n < m by omega), Bool.true_and]

theorem rotate_of_pos {idx : Int} (pos : 0 < idx) (fuel : Nat) (this : Unsigned) : rotate fuel this idx = none := by
  induction fuel generalizing this with
  | zero => rfl
  | succ fuel ih =>
      obtain ⟨k, eq⟩ : ∃ k, idx.toNat = k + 1 := ⟨idx.toNat - 1, by omega⟩
      rw [rotate, eq, List.range_succ_eq_map, List.foldlM_cons, ih]
      rfl

theorem rotate_of_nonpos {idx : Int} (nonpos : idx ≤ 0) (fuel : Nat) (this : Unsigned) :
    rotate (fuel + 1) this idx = some this := by
  rw [rotate, Int.toNat_of_nonpos nonpos]
  rfl

theorem toInt_of_exact (exact : v.toUinteger.toNat = (v.residue v.width).toNat)
    (small : (v.residue v.width).toNat < 2 ^ 31) : v.toInt = (v.residue v.width).toNat := by
  have word : (v.toUinteger.setWidth 32).toNat = (v.residue v.width).toNat := by
    rw [BitVec.toNat_setWidth, exact]
    exact Nat.mod_eq_of_lt (small.trans (by decide))
  unfold toInt
  rw [BitVec.toInt_eq_toNat_of_lt (by rw [word]; omega), word]

end Unsigned
end Ahir.Value
