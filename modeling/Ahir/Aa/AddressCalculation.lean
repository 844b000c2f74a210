import Mathlib.Data.BitVec
import Ahir.Aa.AddressFactors

/-!
# Calculation of an address

The offset of an indexed reference is found by `Evaluate` when all indices are
constants.  Otherwise a data path of the address width adds the scaled indices, the
part of the constants and the base address.  What is known when the program is compiled is
computed in an `int`.
-/

set_option autoImplicit false

namespace Ahir.Aa
open Ahir.Data

/-- The loop of `Evaluate` and of the declaration of the constant part, which adds up the indices that are
constants from `addressOffset` on. -/
@[simp]
def addConstants (addressOffset : Int) : List IndexExpression → List Int → List Int → Int
  | e :: indices, scale :: scaleFactors, shift :: shiftFactors =>
      let offset := if shift < 0 then cInt (addressOffset + cInt (e.value * scale)) else cInt (addressOffset + shift)
      addConstants (if e.isConstant then offset else addressOffset) indices scaleFactors shiftFactors
  | _, _, _ => addressOffset

def evaluate (indices : List IndexExpression) (scaleFactors shiftFactors : List Int) : Int :=
  if indices.all IndexExpression.isConstant then addConstants 0 indices scaleFactors shiftFactors else -1

/-- `AaArrayObjectReference::Evaluate` of a constant pointer and constant indices. -/
def evaluatePointer (pointer : Int) (indices : List IndexExpression) (scaleFactors shiftFactors : List Int) : Int :=
  addConstants pointer indices scaleFactors shiftFactors

/-- The base address: `Get_Base_Address`, which is `-1` when it is not known, and the bits
that the data path then has. -/
structure BaseAddress where
  address : Int
  width : Nat
  bits : BitVec width

section DataPath
variable (addressWidth : Nat)

/-- The wires `_scaled` of the indices that are not constants.  The resized index is padded with
zeros or cut, by the equivalence of an unsigned index and by the conversion of a signed one. -/
@[simp]
def scaledIndices : List IndexExpression → List Int → List (BitVec addressWidth)
  | .computed _ bits :: indices, scale :: scaleFactors =>
      let resized := bits.setWidth addressWidth
      (if scale > 1 then resized * BitVec.ofInt addressWidth scale else resized) ::
        scaledIndices indices scaleFactors
  | _ :: indices, _ :: scaleFactors => scaledIndices indices scaleFactors
  | _, _ => []

def finalOffset (indices : List IndexExpression) (scaleFactors shiftFactors : List Int) :
    Option (BitVec addressWidth) :=
  match scaledIndices addressWidth indices scaleFactors with
  | [] => none
  | first :: rest =>
      let lastSum := rest.foldl (fun lastSum scaled => scaled + lastSum) first
      if indices.any IndexExpression.isConstant then
        some (lastSum + BitVec.ofInt addressWidth (addConstants 0 indices scaleFactors shiftFactors))
      else some lastSum

/-- The offset that is added to the base address: a wire, or the constant that is declared. -/
def offsetWire (indices : List IndexExpression) (scaleFactors shiftFactors : List Int) :
    Option (BitVec addressWidth) :=
  if evaluate indices scaleFactors shiftFactors < 0 then finalOffset addressWidth indices scaleFactors shiftFactors
  else some (BitVec.ofInt addressWidth (evaluate indices scaleFactors shiftFactors))

def resizedBase (base : BaseAddress) : BitVec addressWidth :=
  if base.address < 0 then base.bits.setWidth addressWidth else BitVec.ofInt addressWidth base.address

/-- The root address: the constant that is declared, or the wire of the data path. -/
def rootAddress (indices : List IndexExpression) (scaleFactors shiftFactors : List Int)
    (base : BaseAddress) : Option (BitVec addressWidth) :=
  let offsetVal := evaluate indices scaleFactors shiftFactors
  if offsetVal < 0 ∨ base.address < 0 then do
    let offset ← offsetWire addressWidth indices scaleFactors shiftFactors
    some (if offsetVal ≠ 0 ∧ base.address ≠ 0 then offset + resizedBase addressWidth base
      else if base.address ≠ 0 then resizedBase addressWidth base
      else offset)
  else some (BitVec.ofInt addressWidth (cInt (base.address + offsetVal)))

end DataPath

def BaseAddress.number (base : BaseAddress) : Int := if base.address < 0 then base.bits.toNat else base.address

def IndexExpression.part (e : IndexExpression) (scale shift : Int) : Int := if shift < 0 then e.number * scale else shift

@[simp]
def constantSum : List IndexExpression → List Int → List Int → Int
  | e :: indices, scale :: scaleFactors, shift :: shiftFactors =>
      (if e.isConstant then e.part scale shift else 0) + constantSum indices scaleFactors shiftFactors
  | _, _, _ => 0

/-- The sum over all indices, which the data path and `Evaluate` have in parts. -/
@[simp]
def offsetSum : List IndexExpression → List Int → List Int → Int
  | e :: indices, scale :: scaleFactors, shift :: shiftFactors =>
      e.part scale shift + offsetSum indices scaleFactors shiftFactors
  | _, _, _ => 0

/-- No index takes from the offset, and where it is not a constant it is scaled; it and the two factors are there
together. -/
inductive Factors : List IndexExpression → List Int → List Int → Prop where
  | nil : Factors [] [] []
  | constant {e : IndexExpression} {es : List IndexExpression} {ss hs : List Int} (scale shift : Int)
      (constant : e.isConstant = true) (adds : 0 ≤ e.part scale shift) (rest : Factors es ss hs) :
      Factors (e :: es) (scale :: ss) (shift :: hs)
  | computed {type : IndexType} {bits : BitVec type.width} {es : List IndexExpression} {ss hs : List Int}
      (scale : Int) (positive : 0 < scale) (natural : (bits.toNat : Int) = type.number bits) (rest : Factors es ss hs) :
      Factors (.computed type bits :: es) (scale :: ss) (-1 :: hs)

/-- The offset is found, as a number or modulo the address width, and with it the root address, if the sum with the
base address fits in an `int`. -/
structure ExactOffset (indices : List IndexExpression) (scaleFactors shiftFactors : List Int) (offset : Nat) :
    Prop where
  constants : indices.all IndexExpression.isConstant = true → evaluate indices scaleFactors shiftFactors = offset
  computed : indices.all IndexExpression.isConstant = false →
    ∀ addressWidth, finalOffset addressWidth indices scaleFactors shiftFactors = some (BitVec.ofNat addressWidth offset)
  root : ∀ addressWidth (base : BaseAddress), base.address + offset < 2 ^ 31 →
    rootAddress addressWidth indices scaleFactors shiftFactors base =
      some (BitVec.ofInt addressWidth (base.number + offset))

section Sums
variable {indices : List IndexExpression} {scaleFactors shiftFactors : List Int} {addressWidth : Nat}

theorem addConstants_eq (factors : Factors indices scaleFactors shiftFactors) (x : Int) :
    addConstants (cInt x) indices scaleFactors shiftFactors =
      cInt (x + constantSum indices scaleFactors shiftFactors) := by
  induction factors generalizing x with
  | nil => exact congrArg cInt (Int.add_zero x).symm
  | @constant e es ss hs scale shift constant adds rest ih =>
      have now : (if shift < 0 then cInt (cInt x + cInt (e.value * scale)) else cInt (cInt x + shift)) =
          cInt (x + e.part scale shift) := by
        unfold IndexExpression.value IndexExpression.part
        split_ifs <;> simp
      simp only [addConstants, constantSum, if_pos constant]
      rw [now, ih, Int.add_assoc]
  | @computed type bits es ss hs scale positive natural rest ih =>
      have notConstant : (IndexExpression.computed type bits).isConstant = false := rfl
      simp only [addConstants, constantSum, notConstant, Bool.false_eq_true, if_false, Int.zero_add]
      exact ih x

theorem constantSum_nonneg (factors : Factors indices scaleFactors shiftFactors) :
    0 ≤ constantSum indices scaleFactors shiftFactors := by
  induction factors with
  | nil => exact Int.le_refl 0
  | constant scale shift constant adds rest ih =>
      rw [constantSum, if_pos constant]
      omega
  | computed scale positive natural rest ih => exact Int.add_nonneg (Int.le_refl 0) ih

theorem constantSum_le (factors : Factors indices scaleFactors shiftFactors) :
    constantSum indices scaleFactors shiftFactors ≤ offsetSum indices scaleFactors shiftFactors := by
  induction factors with
  | nil => exact Int.le_refl 0
  | constant scale shift constant adds rest ih =>
      rw [constantSum, offsetSum, if_pos constant]
      omega
  | @computed type bits es ss hs scale positive natural rest ih =>
      have adds : 0 ≤ (IndexExpression.computed type bits).part scale (-1) :=
        Int.mul_nonneg (natural.symm ▸ Int.natCast_nonneg _ : 0 ≤ type.number bits) (Int.le_of_lt positive)
      rw [constantSum, offsetSum, if_neg (by simp [IndexExpression.isConstant])]
      omega

/-- The sum of the constants is the whole sum where there is nothing else. -/
theorem constantSum_eq (factors : Factors indices scaleFactors shiftFactors)
    (constants : indices.all IndexExpression.isConstant = true) :
    constantSum indices scaleFactors shiftFactors = offsetSum indices scaleFactors shiftFactors := by
  induction factors with
  | nil => rfl
  | constant scale shift constant adds rest ih =>
      rw [List.all_cons, constant, Bool.true_and] at constants
      rw [constantSum, offsetSum, if_pos constant, ih constants]
  | computed scale positive natural rest ih => exact absurd constants (by simp [IndexExpression.isConstant])

/-- The scaled indices and the constant part add up to the whole sum. -/
theorem sum_scaledIndices (factors : Factors indices scaleFactors shiftFactors) :
    (scaledIndices addressWidth indices scaleFactors).sum +
        BitVec.ofInt addressWidth (constantSum indices scaleFactors shiftFactors) =
      BitVec.ofInt addressWidth (offsetSum indices scaleFactors shiftFactors) := by
  induction factors with
  | nil => rfl
  | @constant e es ss hs scale shift constant adds rest ih =>
      have same : scaledIndices addressWidth (e :: es) (scale :: ss) = scaledIndices addressWidth es ss := by
        cases e with
        | literal text type => rfl
        | constant type bits => rfl
        | computed type bits => exact absurd constant (by simp [IndexExpression.isConstant])
      rw [same, constantSum, offsetSum, if_pos constant, BitVec.ofInt_add, BitVec.ofInt_add, ← ih]
      ac_rfl
  | @computed type bits es ss hs scale positive natural rest ih =>
      have scaled : (if scale > 1 then bits.setWidth addressWidth * BitVec.ofInt addressWidth scale
          else bits.setWidth addressWidth) = BitVec.ofInt addressWidth (type.number bits * scale) := by
        have resized : bits.setWidth addressWidth = BitVec.ofInt addressWidth (type.number bits) := by
          rw [← natural, BitVec.ofInt_natCast, BitVec.ofNat_toNat]
        rw [resized, BitVec.ofInt_mul]
        split_ifs with isScaled
        · rfl
        · obtain rfl : scale = 1 := by omega
          exact (BitVec.mul_one _).symm
      rw [scaledIndices, List.sum_cons, scaled, constantSum, offsetSum, if_neg (by simp [IndexExpression.isConstant]),
        IndexExpression.part, if_pos (by decide), Int.zero_add, BitVec.ofInt_add, ← ih]
      exact BitVec.add_assoc _ _ _

theorem scaledIndices_eq_nil (factors : Factors indices scaleFactors shiftFactors) :
    scaledIndices addressWidth indices scaleFactors = [] ↔ indices.all IndexExpression.isConstant = true := by
  induction factors with
  | nil => exact ⟨fun _ => rfl, fun _ => rfl⟩
  | @constant e es ss hs scale shift constant adds rest ih =>
      rw [List.all_cons, constant, Bool.true_and, ← ih]
      cases e with
      | literal text type => rfl
      | constant type bits => rfl
      | computed type bits => exact absurd constant (by simp [IndexExpression.isConstant])
  | computed scale positive natural rest ih => simp [scaledIndices, IndexExpression.isConstant]

theorem constantSum_of_none (factors : Factors indices scaleFactors shiftFactors)
    (none : indices.any IndexExpression.isConstant = false) :
    constantSum indices scaleFactors shiftFactors = 0 := by
  induction factors with
  | nil => rfl
  | constant scale shift constant adds rest ih => exact absurd none (by simp [constant])
  | computed scale positive natural rest ih =>
      rw [List.any_cons, Bool.or_eq_false_iff] at none
      rw [constantSum, ih none.2, none.1]
      rfl

theorem foldl_add (first : BitVec addressWidth) (rest : List (BitVec addressWidth)) :
    rest.foldl (fun lastSum scaled => scaled + lastSum) first = (first :: rest).sum := by
  induction rest generalizing first with
  | nil => exact (BitVec.add_zero first).symm
  | cons scaled rest ih =>
      rw [List.foldl_cons, ih, List.sum_cons, List.sum_cons, List.sum_cons]
      ac_rfl

theorem addConstants_zero (factors : Factors indices scaleFactors shiftFactors)
    (fits : offsetSum indices scaleFactors shiftFactors < 2 ^ 31) :
    addConstants 0 indices scaleFactors shiftFactors = constantSum indices scaleFactors shiftFactors := by
  have sum := addConstants_eq factors 0
  have low := constantSum_nonneg factors
  have high := constantSum_le factors
  rw [Int.zero_add, cInt_of_fits (x := constantSum _ _ _) (by omega) (by omega)] at sum
  exact sum

theorem finalOffset_eq (factors : Factors indices scaleFactors shiftFactors)
    (fits : offsetSum indices scaleFactors shiftFactors < 2 ^ 31) (computed : indices.all IndexExpression.isConstant = false) :
    finalOffset addressWidth indices scaleFactors shiftFactors =
      some (BitVec.ofInt addressWidth (offsetSum indices scaleFactors shiftFactors)) := by
  have sum := @sum_scaledIndices _ _ _ addressWidth factors
  rw [finalOffset, addConstants_zero factors fits]
  cases wires : scaledIndices addressWidth indices scaleFactors with
  | nil => exact absurd ((scaledIndices_eq_nil factors).mp wires) (by simp [computed])
  | cons first rest =>
      rw [wires] at sum
      simp only [foldl_add]
      cases constants : indices.any IndexExpression.isConstant with
      | true => rw [if_pos rfl, sum]
      | false =>
          rw [constantSum_of_none factors constants, show BitVec.ofInt addressWidth 0 = BitVec.ofNat addressWidth 0 from rfl,
            BitVec.add_zero] at sum
          rw [if_neg (by decide), sum]

/-- Whatever the sum is of, `Evaluate`, the data path and the root address are right about it. -/
theorem exactOffset_of_sum {offset : Nat} (factors : Factors indices scaleFactors shiftFactors) (small : offset < 2 ^ 31)
    (sum : offsetSum indices scaleFactors shiftFactors = offset) :
    ExactOffset indices scaleFactors shiftFactors offset := by
  have fits : offsetSum indices scaleFactors shiftFactors < 2 ^ 31 := by omega
  have constants : indices.all IndexExpression.isConstant = true →
      evaluate indices scaleFactors shiftFactors = offset := by
    intro constants
    rw [evaluate, if_pos constants, addConstants_zero factors fits, constantSum_eq factors constants, sum]
  refine ⟨constants, ?_, ?_⟩
  · intro computed addressWidth
    rw [finalOffset_eq factors fits computed, sum, BitVec.ofInt_natCast]
  · intro addressWidth base fitsBase
    have isBase : resizedBase addressWidth base = BitVec.ofInt addressWidth base.number := by
      unfold resizedBase BaseAddress.number
      split_ifs
      · rw [BitVec.ofInt_natCast, BitVec.ofNat_toNat]
      · rfl
    have failed : indices.all IndexExpression.isConstant = false →
        evaluate indices scaleFactors shiftFactors = -1 := by
      intro computed
      rw [evaluate, computed]
      rfl
    have wire : offsetWire addressWidth indices scaleFactors shiftFactors =
        some (BitVec.ofInt addressWidth offset) := by
      unfold offsetWire
      cases all : indices.all IndexExpression.isConstant with
      | true => rw [constants all, if_neg (Int.not_lt.mpr (Int.natCast_nonneg offset))]
      | false => rw [failed all, if_pos (by decide), finalOffset_eq factors fits all, sum]
    have value : ¬ evaluate indices scaleFactors shiftFactors < 0 →
        evaluate indices scaleFactors shiftFactors = offset := by
      intro found
      cases all : indices.all IndexExpression.isConstant with
      | true => exact constants all
      | false =>
          rw [failed all] at found
          exact absurd (by decide) found
    rw [rootAddress]
    simp only [wire, isBase, Option.bind_eq_bind, Option.bind_some]
    split_ifs with unknown both some_base
    · rw [BitVec.ofInt_add, BitVec.add_comm]
    · have none : offset = 0 := by
        have isZero : evaluate indices scaleFactors shiftFactors = 0 := by
          by_contra other
          exact both ⟨other, some_base⟩
        have found := value (by omega)
        omega
      rw [none, Nat.cast_zero, Int.add_zero]
    · have none : base.number = 0 := by
        have isZero : base.address = 0 := not_not.mp some_base
        rw [BaseAddress.number, if_neg (by omega), isZero]
      rw [none, Int.zero_add]
    · obtain ⟨found, isKnown⟩ := not_or.mp unknown
      rw [value found, BaseAddress.number, if_neg isKnown, cInt_of_fits (by omega) fitsBase]

theorem evaluatePointer_of_sum {offset : Nat} (factors : Factors indices scaleFactors shiftFactors)
    (constants : indices.all IndexExpression.isConstant = true)
    (sum : offsetSum indices scaleFactors shiftFactors = offset) {pointer : Int} (low : -2 ^ 31 ≤ pointer)
    (high : pointer + offset < 2 ^ 31) :
    evaluatePointer pointer indices scaleFactors shiftFactors = pointer + offset := by
  have added := addConstants_eq factors pointer
  rw [constantSum_eq factors constants, sum, cInt_of_fits low (by omega), cInt_of_fits (by omega) high] at added
  exact added

end Sums

section Indexed
open StorageType
variable {t u : StorageType} {e : IndexExpression} {es : List IndexExpression} {path : List Nat} {i wordSize : Nat}

theorem natural_of_reads {type : IndexType} {bits : BitVec type.width}
    (reads : (IndexExpression.computed type bits).Reads i) : (bits.toNat : Int) = type.number bits := by
  have isIndex : type.number bits = i := reads.number_eq
  unfold IndexType.number at isIndex ⊢
  split_ifs at isIndex ⊢ with isUinteger
  · rfl
  · have below := bits.isLt
    rw [BitVec.toInt_eq_toNat_cond] at isIndex ⊢
    split_ifs at isIndex ⊢ <;> omega

theorem factors_cons {ss hs : List Int} {scale : Int} (positive : 0 < scale) (reads : e.Reads i)
    (rest : Factors es ss hs) : Factors (e :: es) (scale :: ss) (-1 :: hs) := by
  have adds : 0 ≤ e.part scale (-1) :=
    Int.mul_nonneg (reads.number_eq ▸ Int.natCast_nonneg i) (Int.le_of_lt positive)
  cases e with
  | literal text type => exact .constant scale (-1) rfl adds rest
  | constant type bits => exact .constant scale (-1) rfl adds rest
  | computed type bits => exact .computed scale positive (natural_of_reads reads) rest

theorem words_pos {size : Nat} (divides : wordSize ∣ size) (positive : 0 < size) :
    (0 : Int) < (size / wordSize : Nat) :=
  Int.natCast_pos.mpr (Nat.div_pos (Nat.le_of_dvd positive divides) (Nat.pos_of_dvd_of_pos divides positive))

/-- The two factors of each index give the offset of the sub-object, in words. -/
theorem offsetSum_eq (indexed : Indexes t es path u) (aligned : t.Aligned wordSize path) :
    Factors es (t.scales wordSize path) (t.shifts wordSize path) ∧
      offsetSum es (t.scales wordSize path) (t.shifts wordSize path) = (t.bitOffset path / wordSize : Nat) ∧
      wordSize ∣ t.bitOffset path := by
  induction indexed with
  | here t => exact ⟨.nil, by simp [offsetSum, bitOffset], Nat.dvd_zero _⟩
  | @element dims t u v e es i path selected reads rest ih =>
      obtain ⟨start, size, positive, below⟩ := aligned u selected
      obtain ⟨factors, sum, divides⟩ := ih below
      have skips : (StorageType.array dims t).skipped i = i * u.size id := by
        cases dims with
        | nil => exact absurd selected (by simp [select])
        | cons d dims =>
            rw [select] at selected
            split_ifs at selected
            obtain rfl := Option.some.inj selected
            rfl
      have isArray : (StorageType.array dims t).isRecord = false := rfl
      rw [scales, shifts, selected, bitOffset_cons selected]
      simp only [isArray, Bool.false_eq_true, if_false]
      refine ⟨factors_cons (words_pos size positive) reads factors, ?_, Nat.dvd_add start divides⟩
      rw [Nat.add_div_of_dvd_right start, skips, Nat.mul_div_assoc i size, offsetSum, sum, IndexExpression.part,
        if_pos (by decide), reads.number_eq]
      push_cast
      rfl
  | @field ts u v e es i path selected constant reads rest ih =>
      obtain ⟨start, size, positive, below⟩ := aligned u selected
      obtain ⟨factors, sum, divides⟩ := ih below
      have isField : (StorageType.record ts).isRecord = true := rfl
      rw [scales, shifts, selected, bitOffset_cons selected]
      simp only [isField, if_true]
      have part : e.part (u.size id / wordSize : Nat) ((StorageType.record ts).skipped i / wordSize : Nat) =
          ((StorageType.record ts).skipped i / wordSize : Nat) := if_neg (Int.not_lt.mpr (Int.natCast_nonneg _))
      refine ⟨.constant _ _ constant (part ▸ Int.natCast_nonneg _) factors, ?_, Nat.dvd_add start divides⟩
      rw [Nat.add_div_of_dvd_right start, offsetSum, sum, part]
      push_cast
      rfl

theorem words_add_le {low size high : Nat} (inside : low + size ≤ high) :
    low / wordSize + size / wordSize ≤ high / wordSize :=
  Nat.div_add_div_le_add_div.trans (Nat.div_le_div_right inside)

/-- In an object whose size fits in an `int`, the word offset of an index path is its bit offset, row-major in
arrays, divided by the word size; sub-objects lie inside and apart; and through a pointer the offset is the same,
after whole objects, if it fits. -/
theorem addressArithmetic_exact (fits : t.size id < 2 ^ 31) (indexed : Indexes t es path u)
    (aligned : t.Aligned wordSize path) :
    (∀ dims elementType indices rest, t = .array dims elementType → dims ≠ [] → path = indices ++ rest →
      InRange dims indices →
      t.bitOffset path = rowMajor dims indices * elementType.size id + elementType.bitOffset rest) ∧
    (wordSize ∣ t.bitOffset path ∧ ∃ scaleFactors shiftFactors,
      (IndexedObject.storage t).updateAddressScalingFactors wordSize es = some scaleFactors ∧
      (IndexedObject.storage t).updateAddressShiftFactors wordSize es = some shiftFactors ∧
      ExactOffset es scaleFactors shiftFactors (t.bitOffset path / wordSize)) ∧
    t.bitOffset path / wordSize + u.size id / wordSize ≤ t.size id / wordSize ∧
    (∀ es' path' u', Indexes t es' path' u' → path.length = path'.length → path ≠ path' →
      t.bitOffset path / wordSize + u.size id / wordSize ≤ t.bitOffset path' / wordSize ∨
      t.bitOffset path' / wordSize + u'.size id / wordSize ≤ t.bitOffset path / wordSize) ∧
    ∀ e i, e.Reads i → wordSize ∣ t.size id → 0 < t.size id →
      i * (t.size id / wordSize) + t.bitOffset path / wordSize < 2 ^ 31 → ∃ scaleFactors shiftFactors,
      (IndexedObject.pointer t).updateAddressScalingFactors wordSize (e :: es) = some scaleFactors ∧
      (IndexedObject.pointer t).updateAddressShiftFactors wordSize (e :: es) = some shiftFactors ∧
      ExactOffset (e :: es) scaleFactors shiftFactors (i * (t.size id / wordSize) + t.bitOffset path / wordSize) ∧
      ((e :: es).all IndexExpression.isConstant = true → ∀ pointer : Int, -2 ^ 31 ≤ pointer →
        pointer + (i * (t.size id / wordSize) + t.bitOffset path / wordSize : Nat) < 2 ^ 31 →
        evaluatePointer pointer (e :: es) scaleFactors shiftFactors =
          pointer + (i * (t.size id / wordSize) + t.bitOffset path / wordSize : Nat)) := by
  obtain ⟨factors, sum, divides⟩ := offsetSum_eq indexed aligned
  have scales := @scalingFactorsFrom_eq _ _ _ _ wordSize _ _ _ fits (.here t) indexed
  have shifts := @shiftFactorsFrom_eq _ _ _ wordSize _ fits indexed
  have inside := bitOffset_add indexed.follow_eq
  have small : t.bitOffset path / wordSize < 2 ^ 31 := Nat.lt_of_le_of_lt (Nat.div_le_self _ _) (by omega)
  refine ⟨?_, ⟨divides, _, _, scales, shifts, exactOffset_of_sum factors small sum⟩, words_add_le inside, ?_, ?_⟩
  · rintro dims elementType indices rest rfl some_dims rfl inRange
    exact bitOffset_array inRange some_dims
  · intro es' path' u' indexed' length differ
    rcases bitOffset_disjoint indexed.follow_eq indexed'.follow_eq length differ with before | after
    · exact Or.inl (words_add_le before)
    · exact Or.inr (words_add_le after)
  · intro e i reads size positive outer
    have all := factors_cons (words_pos size positive) reads factors
    have total : offsetSum (e :: es) ((t.size id / wordSize : Nat) :: t.scales wordSize path)
        (-1 :: t.shifts wordSize path) = (i * (t.size id / wordSize) + t.bitOffset path / wordSize : Nat) := by
      rw [offsetSum, sum, IndexExpression.part, if_pos (by decide), reads.number_eq]
      push_cast
      rfl
    refine ⟨_, _, ?_, ?_, exactOffset_of_sum all outer total, ?_⟩
    · rw [IndexedObject.updateAddressScalingFactors, scales, intSize_eq, tdiv_cInt fits]
      rfl
    · rw [IndexedObject.updateAddressShiftFactors, shifts]
      rfl
    · intro constants pointer low high
      exact evaluatePointer_of_sum all constants total low high

end Indexed

/-- Records of a byte and an array of four half words, in two dimensions. -/
def recordArray : StorageType := .array [2, 3] (.record [.scalar 8, .array [4] (.scalar 16)])

/-- The indices `[i][2][1][3]`, where `i` is 1 at run time. -/
def recordIndices : List IndexExpression :=
  [.computed ⟨true, 4⟩ (BitVec.ofNat 4 1), .literal 2 ⟨true, 32⟩, .literal 1 ⟨true, 32⟩,
    .constant ⟨false, 8⟩ (BitVec.ofNat 8 3)]

section Example
open StorageType

theorem recordArray_indexes : Indexes recordArray recordIndices [1, 2, 1, 3] (.scalar 16) := by
  refine .element rfl ⟨by decide, by decide, fun _ _ => nofun⟩ (.element rfl ⟨by decide, by decide, ?_⟩
    (.field rfl rfl ⟨by decide, by decide, ?_⟩ (.element rfl ⟨by decide, by decide, fun _ _ => nofun⟩ (.here _))))
  · rintro _ _ ⟨⟩
    rfl
  · rintro _ _ ⟨⟩
    rfl

theorem recordArray_aligned : recordArray.Aligned 8 [1, 2, 1, 3] := by
  rintro _ ⟨⟩
  refine ⟨by decide, by decide, by decide, ?_⟩
  rintro _ ⟨⟩
  refine ⟨by decide, by decide, by decide, ?_⟩
  rintro _ ⟨⟩
  refine ⟨by decide, by decide, by decide, ?_⟩
  rintro _ ⟨⟩
  exact ⟨by decide, by decide, by decide, trivial⟩

theorem addressArithmetic_recordArray : recordArray.bitOffset [1, 2, 1, 3] / 8 = 52 ∧
    ∃ scaleFactors shiftFactors,
      (IndexedObject.storage recordArray).updateAddressScalingFactors 8 recordIndices = some scaleFactors ∧
      (IndexedObject.storage recordArray).updateAddressShiftFactors 8 recordIndices = some shiftFactors ∧
      ExactOffset recordIndices scaleFactors shiftFactors (recordArray.bitOffset [1, 2, 1, 3] / 8) :=
  ⟨by decide, (addressArithmetic_exact (by decide) recordArray_indexes recordArray_aligned).2.1.2⟩

example : finalOffset 10 recordIndices [27, 9, 8, 2] [-1, -1, 1, -1] = some (BitVec.ofNat 10 52) := by decide

/-- In an array of more than an `int` holds the offset wraps around, though all indices are in range. -/
theorem addressArithmetic_overflows :
    let t : StorageType := .array [65536, 65536] (.scalar 8)
    let es : List IndexExpression := [.literal 40000 ⟨true, 32⟩, .literal 0 ⟨true, 32⟩]
    Indexes t es [40000, 0] (.scalar 8) ∧ t.Aligned 8 [40000, 0] ∧ es.all IndexExpression.isConstant = true ∧
      ∃ scaleFactors shiftFactors,
        (IndexedObject.storage t).updateAddressScalingFactors 8 es = some scaleFactors ∧
        (IndexedObject.storage t).updateAddressShiftFactors 8 es = some shiftFactors ∧
        t.bitOffset [40000, 0] / 8 = 2621440000 ∧ evaluate es scaleFactors shiftFactors = -1673527296 := by
  refine ⟨.element rfl ⟨by decide, by decide, ?_⟩ (.element rfl ⟨by decide, by decide, ?_⟩ (.here _)), ?_, rfl,
    [65536, 1], [-1, -1], by decide, by decide, by decide, by decide⟩
  · rintro _ _ ⟨⟩
    rfl
  · rintro _ _ ⟨⟩
    rfl
  · rintro _ ⟨⟩
    refine ⟨by decide, by decide, by decide, ?_⟩
    rintro _ ⟨⟩
    exact ⟨by decide, by decide, by decide, trivial⟩

end Example

end Ahir.Aa
