import Ahir.Data.WordArray

/-!
# Bit vectors

A `bit_vector` keeps its bits in bytes, and beside them as many bytes of flags for
the bits that are not defined.  The last byte may have more bits than the width needs.
-/

set_option autoImplicit false

namespace Ahir.BitVectors
open Ahir.Data

abbrev Byte := BitVec 8

def nbytes (x : Nat) : Nat := if x % 8 = 0 then x / 8 else x / 8 + 1

structure BitVector where
  width : Nat
  bytes : List Byte
  undefinedBytes : List Byte
  length_bytes : bytes.length = nbytes width
  length_undefinedBytes : undefinedBytes.length = nbytes width
  width_pos : 0 < width
  deriving DecidableEq

theorem nbytes_pos {w : Nat} (pos : 0 < w) : 0 < nbytes w := by
  unfold nbytes
  split <;> omega

theorem div_lt_nbytes {i w : Nat} (below : i < w) : i / 8 < nbytes w := by
  unfold nbytes
  split <;> omega

theorem nbytes_bounds (w : Nat) : w ≤ 8 * nbytes w ∧ 8 * nbytes w < w + 8 := by
  unfold nbytes
  split <;> omega

namespace BitVector
variable (x : BitVector)

/-- Bit `i` of the byte array. -/
def bit (i : Nat) : Bool := bitAt x.bytes i

/-- Flag `i` of the other array. -/
def undefinedBit (i : Nat) : Bool := bitAt x.undefinedBytes i

def getByte (i : Nat) : Byte := x.bytes.getD i 0
def getUndefinedByte (i : Nat) : Byte := x.undefinedBytes.getD i 0

/-- `bit_vector_get_bit` -/
def getBit (bp : Nat) : Bool := decide (bp < x.width) && x.bit bp

/-- `bit_vector_get_undefined_bit` -/
def getUndefinedBit (bp : Nat) : Bool := decide (bp < x.width) && x.undefinedBit bp

/-- A byte with bit `k` made `b`. -/
def setByteBit (k : Nat) (b : Bool) (byte : Byte) : Byte :=
  if b then byte ||| (1 : Byte) <<< k else byte &&& ~~~((1 : Byte) <<< k)

/-- `bit_vector_set_bit` -/
def setBit (bp : Nat) (b : Bool) : BitVector :=
  if bp < x.width then
    { x with
      bytes := x.bytes.modify (bp / 8) (setByteBit (bp % 8) b)
      length_bytes := by rw [List.length_modify, x.length_bytes] }
  else x

/-- `bit_vector_set_undefined_bit` -/
def setUndefinedBit (bp : Nat) (b : Bool) : BitVector :=
  if bp < x.width then
    { x with
      undefinedBytes := x.undefinedBytes.modify (bp / 8) (setByteBit (bp % 8) b)
      length_undefinedBytes := by rw [List.length_modify, x.length_undefinedBytes] }
  else x

def withBytes (value undefined : Nat → Byte) : BitVector :=
  { x with
    bytes := (List.range (nbytes x.width)).map value
    undefinedBytes := (List.range (nbytes x.width)).map undefined
    length_bytes := by rw [List.length_map, List.length_range]
    length_undefinedBytes := by rw [List.length_map, List.length_range] }

/-- The mask of the top byte in `bit_vector_clear_unused_bits`. -/
def unusedMask (width : Nat) : Byte :=
  (255 : Byte) >>> (8 * nbytes width % width % 256)

/-- `bit_vector_clear_unused_bits` -/
def clearUnusedBits : BitVector :=
  if 8 * nbytes x.width = x.width then x
  else
    { x with
      bytes := x.bytes.modify (nbytes x.width - 1) fun byte => unusedMask x.width &&& byte
      length_bytes := by rw [List.length_modify, x.length_bytes] }

/-- `bit_vector_clear` -/
def clear : BitVector := x.withBytes (fun _ => 0) fun _ => 0

/-- The lowest `n` bits. -/
def residue (n : Nat) : BitVec n := lowBits n x.bit

/-- No bit is set that the vector does not have. -/
def Canonical : Prop := ∀ i, x.width ≤ i → x.bit i = false

@[simp] theorem width_setBit (bp : Nat) (b : Bool) : (x.setBit bp b).width = x.width := by
  unfold setBit
  split <;> rfl

@[simp] theorem width_setUndefinedBit (bp : Nat) (b : Bool) :
    (x.setUndefinedBit bp b).width = x.width := by
  unfold setUndefinedBit
  split <;> rfl

@[simp] theorem width_withBytes (value undefined : Nat → Byte) :
    (x.withBytes value undefined).width = x.width := rfl

@[simp] theorem width_clearUnusedBits : x.clearUnusedBits.width = x.width := by
  unfold clearUnusedBits
  split <;> rfl

theorem getLsbD_setByteBit (k : Nat) (b : Bool) (byte : Byte) {j : Nat} (hj : j < 8) :
    (setByteBit k b byte).getLsbD j = if k = j then b else byte.getLsbD j := by
  unfold setByteBit
  cases b with
  | false =>
      rw [if_neg Bool.false_ne_true, BitVec.getLsbD_and, BitVec.getLsbD_not, getLsbD_one_shiftLeft hj,
        decide_eq_true hj]
      by_cases eq : k = j <;> simp [eq]
  | true =>
      rw [if_pos rfl, BitVec.getLsbD_or, getLsbD_one_shiftLeft hj]
      by_cases eq : k = j <;> simp [eq]

theorem bitAt_modify_setByteBit {bytes : List Byte} {bp : Nat} (inside : bp / 8 < bytes.length) (b : Bool)
    (i : Nat) :
    bitAt (bytes.modify (bp / 8) (setByteBit (bp % 8) b)) i = if bp = i then b else bitAt bytes i := by
  rw [bitAt_modify inside, getLsbD_setByteBit _ _ _ (Nat.mod_lt _ (by decide))]
  by_cases byte : bp / 8 = i / 8
  · rw [if_pos byte]
    have : (bp % 8 = i % 8) = (bp = i) := by rw [eq_iff_iff]; omega
    have own : bytes[bp / 8].getLsbD (i % 8) = bitAt bytes i := by
      simp only [bitAt_of_lt (show i / 8 < bytes.length by omega), byte]
    rw [own]
    simp only [this]
  · rw [if_neg byte, if_neg fun eq => byte (congrArg (· / 8) eq)]

theorem bit_setBit (bp : Nat) (b : Bool) (i : Nat) :
    (x.setBit bp b).bit i = if bp = i ∧ bp < x.width then b else x.bit i := by
  unfold bit setBit
  by_cases below : bp < x.width
  · rw [if_pos below]
    dsimp only
    rw [bitAt_modify_setByteBit (by rw [x.length_bytes]; exact div_lt_nbytes below)]
    simp only [below, and_true]
  · rw [if_neg below, if_neg fun both => below both.2]

theorem undefinedBit_setBit (bp : Nat) (b : Bool) (i : Nat) :
    (x.setBit bp b).undefinedBit i = x.undefinedBit i := by
  unfold setBit
  split <;> rfl

theorem bit_setUndefinedBit (bp : Nat) (b : Bool) (i : Nat) :
    (x.setUndefinedBit bp b).bit i = x.bit i := by
  unfold setUndefinedBit
  split <;> rfl

theorem undefinedBit_setUndefinedBit (bp : Nat) (b : Bool) (i : Nat) :
    (x.setUndefinedBit bp b).undefinedBit i = if bp = i ∧ bp < x.width then b else x.undefinedBit i := by
  unfold undefinedBit setUndefinedBit
  by_cases below : bp < x.width
  · rw [if_pos below]
    dsimp only
    rw [bitAt_modify_setByteBit (by rw [x.length_undefinedBytes]; exact div_lt_nbytes below)]
    simp only [below, and_true]
  · rw [if_neg below, if_neg fun both => below both.2]

theorem bit_withBytes (value undefined : Nat → Byte) {i : Nat} (inside : i / 8 < nbytes x.width) :
    (x.withBytes value undefined).bit i = (value (i / 8)).getLsbD (i % 8) :=
  bitAt_map_range inside value

theorem undefinedBit_withBytes (value undefined : Nat → Byte) {i : Nat} (inside : i / 8 < nbytes x.width) :
    (x.withBytes value undefined).undefinedBit i = (undefined (i / 8)).getLsbD (i % 8) :=
  bitAt_map_range inside undefined

theorem getLsbD_getByte (i : Nat) : (x.getByte (i / 8)).getLsbD (i % 8) = x.bit i := rfl
theorem getLsbD_getUndefinedByte (i : Nat) :
    (x.getUndefinedByte (i / 8)).getLsbD (i % 8) = x.undefinedBit i := rfl

theorem bit_of_le {i : Nat} (outside : nbytes x.width ≤ i / 8) : x.bit i = false :=
  bitAt_of_le (by rwa [x.length_bytes])

theorem canonical_of_bytes (clear : ∀ i < 8 * nbytes x.width, x.width ≤ i → x.bit i = false) : x.Canonical := by
  intro i above
  by_cases inside : i < 8 * nbytes x.width
  · exact clear i inside above
  · exact x.bit_of_le (by omega)

@[simp] theorem undefinedBit_clearUnusedBits (i : Nat) :
    x.clearUnusedBits.undefinedBit i = x.undefinedBit i := by
  unfold clearUnusedBits
  split <;> rfl

@[simp] theorem bit_clear (i : Nat) : x.clear.bit i = false := by
  by_cases inside : i / 8 < nbytes x.width
  · exact (x.bit_withBytes _ _ inside).trans (getLsbD_ofNat_zero 8 _)
  · exact bit_of_le _ (by rw [clear, width_withBytes]; omega)

@[simp] theorem undefinedBit_clear (i : Nat) : x.clear.undefinedBit i = false := by
  by_cases inside : i / 8 < nbytes x.width
  · exact (x.undefinedBit_withBytes _ _ inside).trans (getLsbD_ofNat_zero 8 _)
  · exact bitAt_of_le (by rw [length_undefinedBytes, clear, width_withBytes]; omega)

theorem getLsbD_ones_shiftRight (n j : Nat) : ((255 : Byte) >>> n).getLsbD j = decide (n + j < 8) := by
  rw [BitVec.getLsbD_ushiftRight]
  generalize n + j = k
  by_cases low : k < 8
  · rw [decide_eq_true low]
    interval_cases k <;> rfl
  · rw [decide_eq_false low]
    exact BitVec.getLsbD_of_ge _ _ (by omega)

theorem getLsbD_unusedMask (width j : Nat) :
    (unusedMask width).getLsbD j = decide (8 * nbytes width % width % 256 + j < 8) :=
  getLsbD_ones_shiftRight _ j

theorem bit_clearUnusedBits (i : Nat) :
    x.clearUnusedBits.bit i =
      (x.bit i && decide (8 * nbytes x.width = x.width ∨ nbytes x.width - 1 ≠ i / 8 ∨
        8 * nbytes x.width % x.width % 256 + i % 8 < 8)) := by
  unfold clearUnusedBits
  by_cases exact_ : 8 * nbytes x.width = x.width
  · rw [if_pos exact_, decide_eq_true (.inl exact_), Bool.and_true]
  · rw [if_neg exact_]
    have top : nbytes x.width - 1 < x.bytes.length := by
      rw [x.length_bytes]
      exact Nat.sub_one_lt (nbytes_pos x.width_pos).ne'
    unfold bit
    rw [bitAt_modify top]
    by_cases byte : nbytes x.width - 1 = i / 8
    · have own : x.bytes[nbytes x.width - 1].getLsbD (i % 8) = bitAt x.bytes i := by
        simp only [bitAt_of_lt (show i / 8 < x.bytes.length by omega), byte]
      rw [if_pos byte, BitVec.getLsbD_and, own, getLsbD_unusedMask, Bool.and_comm]
      simp only [exact_, byte, ne_eq, not_true_eq_false, false_or]
    · rw [if_neg byte, decide_eq_true (.inr (.inl byte)), Bool.and_true]

theorem unused_eq {w : Nat} (five : 5 ≤ w) : 8 * nbytes w % w % 256 = 8 * nbytes w - w := by
  have bounds := nbytes_bounds w
  have twice : 8 * nbytes w < 2 * w := by
    by_cases eight : 8 ≤ w
    · omega
    · have : nbytes w = 1 := by unfold nbytes; split <;> omega
      omega
  rw [Nat.mod_eq_sub_mod bounds.1, Nat.mod_eq_of_lt (a := 8 * nbytes w - w) (by omega), Nat.mod_eq_of_lt (by omega)]

theorem bit_clearUnusedBits_of_lt {i : Nat} (below : i < x.width) : x.clearUnusedBits.bit i = x.bit i := by
  have kept : 8 * nbytes x.width = x.width ∨ nbytes x.width - 1 ≠ i / 8 ∨
      8 * nbytes x.width % x.width % 256 + i % 8 < 8 := by
    by_cases five : 5 ≤ x.width
    · have bounds := nbytes_bounds x.width
      have pos := nbytes_pos x.width_pos
      rw [unused_eq five]
      omega
    · have pos := x.width_pos
      generalize x.width = w at *
      interval_cases w <;> simp [nbytes] <;> omega
  rw [bit_clearUnusedBits, decide_eq_true kept, Bool.and_true]

theorem canonical_clearUnusedBits (five : 5 ≤ x.width) : x.clearUnusedBits.Canonical := by
  intro i above
  rw [width_clearUnusedBits] at above
  rw [bit_clearUnusedBits]
  by_cases inside : i / 8 < nbytes x.width
  · have bounds := nbytes_bounds x.width
    rw [unused_eq five, decide_eq_false (by omega), Bool.and_false]
  · rw [bit_of_le _ (by omega), Bool.false_and]

theorem canonical_clear : x.clear.Canonical := fun i _ => x.bit_clear i

theorem Canonical.setBit {x : BitVector} (canonical : x.Canonical) (bp : Nat) (b : Bool) :
    (x.setBit bp b).Canonical := by
  intro i above
  rw [width_setBit] at above
  rw [bit_setBit, if_neg (by omega)]
  exact canonical i above

theorem Canonical.setUndefinedBit {x : BitVector} (canonical : x.Canonical) (bp : Nat) (b : Bool) :
    (x.setUndefinedBit bp b).Canonical := by
  intro i above
  rw [width_setUndefinedBit] at above
  rw [bit_setUndefinedBit]
  exact canonical i above

theorem residue_clearUnusedBits {n : Nat} (le : n ≤ x.width) : x.clearUnusedBits.residue n = x.residue n :=
  lowBits_congr fun _ below => x.bit_clearUnusedBits_of_lt (by omega)

/-- Canonical vectors of one width are the same bytes when they are the same number. -/
theorem Canonical.bytes_eq_iff {x y : BitVector} (canonicalX : x.Canonical) (canonicalY : y.Canonical)
    (same : x.width = y.width) :
    x.bytes = y.bytes ↔ (x.residue x.width).toNat = (y.residue y.width).toNat := by
  constructor
  · intro bytes
    have residue : y.residue y.width = lowBits y.width x.bit := by
      unfold residue bit
      rw [bytes]
    rw [residue, ← same]
    rfl
  · intro number
    rw [← same, BitVec.toNat_inj] at number
    refine ext_bitAt (by rw [x.length_bytes, y.length_bytes, same]) fun i _ => ?_
    by_cases below : i < x.width
    · exact lowBits_inj.mp number i below
    · exact (canonicalX i (by omega)).trans (canonicalY i (by omega)).symm

end BitVector
end Ahir.BitVectors
