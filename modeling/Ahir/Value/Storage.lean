import Ahir.Data.WordArray

/-!
# The storage of a value

`Unsigned` and `Signed` keep the bits of an integer in an array of words.  The last
word may have more bits than the width needs; what is in them is not cleared by
every operation.
-/

set_option autoImplicit false

namespace Ahir.Value
open Ahir.Data

/-- `UWord`, with `__WORD_SIZE__` bits. -/
abbrev UWord := BitVec 64

/-- `Kind()`, the class of an object. -/
inductive Kind where
  | unsigned
  | signed
  deriving DecidableEq

def arraySize (width : Nat) : Nat :=
  if width / 64 * 64 < width then width / 64 + 1 else width / 64

/-- An object of the class `Unsigned` or of the class `Signed` below it. -/
structure Unsigned where
  kind : Kind
  width : Nat
  bitField : List UWord
  length_bitField : bitField.length = arraySize width
  width_pos : 0 < width

theorem div_lt_arraySize {i width : Nat} (below : i < width) : i / 64 < arraySize width := by
  unfold arraySize
  split <;> omega

theorem le_arraySize (width : Nat) : width ≤ 64 * arraySize width := by
  unfold arraySize
  split <;> omega

namespace Unsigned
variable (v : Unsigned)

def getBit (idx : Nat) : Bool := bitAt v.bitField idx

/-- A word with bit `bitIndex` made `b`. -/
def setWordBit (word : UWord) (bitIndex : Nat) (b : Bool) : UWord :=
  let bitMask := (1 : UWord) <<< bitIndex
  (word &&& ~~~bitMask) ||| (if b then bitMask else 0)

def setBit (idx : Nat) (b : Bool) : Unsigned :=
  { v with
    bitField := v.bitField.modify (idx / 64) fun word => setWordBit word (idx % 64) b
    length_bitField := by rw [List.length_modify, v.length_bitField] }

/-- `Reset_And_Clear` of an object of this class. -/
def resetAndClear (kind : Kind) (n : Nat) (pos : 0 < n) : Unsigned :=
  ⟨kind, n, List.replicate (arraySize n) 0, List.length_replicate, pos⟩

/-- The lowest `n` bits. -/
def residue (n : Nat) : BitVec n := lowBits n v.getBit

def number : Int :=
  match v.kind with
  | .unsigned => (v.residue v.width).toNat
  | .signed => (v.residue v.width).toInt

def Clean : Prop := ∀ i, v.width ≤ i → v.getBit i = false

@[simp] theorem width_setBit (idx : Nat) (b : Bool) : (v.setBit idx b).width = v.width := rfl

theorem getLsbD_setWordBit (word : UWord) {i j : Nat} (b : Bool) (hj : j < 64) :
    (setWordBit word i b).getLsbD j = if i = j then b else word.getLsbD j := by
  unfold setWordBit
  rw [BitVec.getLsbD_or, BitVec.getLsbD_and, BitVec.getLsbD_not, getLsbD_one_shiftLeft hj, decide_eq_true hj]
  cases b with
  | false =>
      rw [if_neg Bool.false_ne_true, getLsbD_ofNat_zero]
      by_cases eq : i = j <;> simp [eq]
  | true =>
      rw [if_pos rfl, getLsbD_one_shiftLeft hj]
      by_cases eq : i = j <;> simp [eq]

theorem getBit_setBit_of_lt {idx : Nat} (room : idx / 64 < arraySize v.width) (b : Bool) (j : Nat) :
    (v.setBit idx b).getBit j = if idx = j then b else v.getBit j := by
  unfold getBit setBit
  rw [bitAt_modify (by rwa [v.length_bitField])]
  by_cases word : idx / 64 = j / 64
  · rw [if_pos word, getLsbD_setWordBit _ b (Nat.mod_lt _ (by decide))]
    have : (idx % 64 = j % 64) = (idx = j) := by rw [eq_iff_iff]; omega
    simp only [this, word, bitAt_of_lt (show j / 64 < v.bitField.length by rw [v.length_bitField]; omega)]
  · rw [if_neg word, if_neg fun eq => word (congrArg (· / 64) eq)]

@[simp]
theorem getBit_setBit {idx : Nat} (below : idx < v.width) (b : Bool) (j : Nat) :
    (v.setBit idx b).getBit j = if idx = j then b else v.getBit j :=
  v.getBit_setBit_of_lt (div_lt_arraySize below) b j

@[simp]
theorem getBit_resetAndClear (kind : Kind) (n : Nat) (pos : 0 < n) (i : Nat) :
    (resetAndClear kind n pos).getBit i = false := by
  unfold getBit resetAndClear bitAt
  rw [List.getD_eq_getElem?_getD, List.getElem?_replicate]
  split <;> exact getLsbD_ofNat_zero 64 _

theorem getLsbD_residue (n i : Nat) :
    (v.residue n).getLsbD i = (decide (i < n) && v.getBit i) :=
  getLsbD_lowBits n v.getBit i

theorem msb_residue : (v.residue v.width).msb = v.getBit (v.width - 1) := by
  have below : v.width - 1 < v.width := by have := v.width_pos; omega
  rw [BitVec.msb_eq_getLsbD_last, getLsbD_residue, decide_eq_true below, Bool.true_and]

end Unsigned

end Ahir.Value
