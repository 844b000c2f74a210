import Ahir.Aa.IndexPath

/-!
# Factors of an address

For an indexed reference two functions walk the type: one finds for every prefix of
the indices the size of its element, the other goes down the type and finds where
the fields of records begin.
-/

set_option autoImplicit false

namespace Ahir.Aa
open Ahir.Data

structure IndexType where
  isUinteger : Bool
  width : Nat

/-- The number that the bits of an index are. -/
def IndexType.number (type : IndexType) (bits : BitVec type.width) : Int :=
  if type.isUinteger then bits.toNat else bits.toInt

/-- An index: an `AaConstantLiteralReference`, another constant, or what is computed at run time. -/
inductive IndexExpression where
  | literal (text : Nat) (type : IndexType)
  | constant (type : IndexType) (bits : BitVec type.width)
  | computed (type : IndexType) (bits : BitVec type.width)

namespace IndexExpression

def isConstant : IndexExpression → Bool
  | computed _ _ => false
  | _ => true

def number : IndexExpression → Int
  | literal text type => type.number (BitVec.ofNat type.width text)
  | constant type bits => type.number bits
  | computed type bits => type.number bits

/-- `To_Integer` of the value. -/
def value (e : IndexExpression) : Int := cInt e.number

/-- The index is `i`, which an `int` holds; the type of a literal is wide enough for it. -/
structure Reads (e : IndexExpression) (i : Nat) : Prop where
  number_eq : e.number = i
  fits : i < 2 ^ 31
  text_eq : ∀ text type, e = literal text type → text = i

/-- `Get_Index_Value` of a record with `elements` fields, which reads a literal again with as many
bits as `CeilLog2` counts; an index that is not a constant is an error. -/
def getIndexValue (elements : Nat) : IndexExpression → Int
  | literal text _ => cInt (text % 2 ^ bitLength (elements - 1) : Nat)
  | constant type bits => cInt (type.number bits)
  | computed _ _ => -1

end IndexExpression

/-- An element of a vector at an `int`, after the test that it is inside. -/
def atIndex {A : Type} (xs : List A) (idx : Int) : Option A := if 0 ≤ idx then xs[idx.toNat]? else none

namespace StorageType

/-- `AaArrayType::Get_Element_Type(idx)` -/
def getElementType (dims : List Nat) (t : StorageType) (idx : Nat) : StorageType := arrayOf (dims.drop (idx + 1)) t

mutual

/-- `Get_Element_Type(start_idx, indices)`, for the indices from `start_idx`. -/
def getElementTypeFrom : StorageType → List IndexExpression → Option StorageType
  | .scalar _, _ => none
  | .array dims t, indices =>
      if indices.length ≤ dims.length then some (getElementType dims t (indices.length - 1))
      else t.getElementTypeFrom (indices.drop dims.length)
  | .record _, [] => none
  | .record ts, e :: rest =>
      let idx := e.getIndexValue ts.length
      if 0 ≤ idx then elementTypeFrom ts idx.toNat rest else none

/-- The element type `idx` of a record, or its element. -/
def elementTypeFrom : List StorageType → Nat → List IndexExpression → Option StorageType
  | [], _, _ => none
  | t :: _, 0, rest => if rest.isEmpty then some t else t.getElementTypeFrom rest
  | _ :: ts, idx + 1, rest => elementTypeFrom ts idx rest

end

/-- The loop of `Update_Address_Scaling_Factors` for a composite type, with `index_prefix`. -/
def scalingFactorsFrom (t : StorageType) (wordSize : Nat) (indexPrefix : List IndexExpression) :
    List IndexExpression → Option (List Int)
  | [] => some []
  | e :: rest => do
      let u ← t.getElementTypeFrom (indexPrefix ++ [e])
      let factors ← t.scalingFactorsFrom wordSize (indexPrefix ++ [e]) rest
      some (u.intSize.tdiv wordSize :: factors)

/-- `AaRecordType::Get_Start_Bit_Offset(expr)` -/
def getStartBitOffset (ts : List StorageType) (e : IndexExpression) : Int :=
  let idx := e.getIndexValue ts.length
  if 0 ≤ idx ∧ idx < ts.length then intSizes 0 (ts.take idx.toNat) else 0

/-- The loop of `Update_Address_Shift_Factors`; it asserts that there is a composite type. -/
def shiftFactorsFrom (wordSize : Nat) : StorageType → List IndexExpression → Option (List Int)
  | _, [] => some []
  | .record ts, e :: rest =>
      let soffset := (getStartBitOffset ts e).tdiv wordSize
      match atIndex ts (e.getIndexValue ts.length) with
      | some u => (u.shiftFactorsFrom wordSize rest).map (soffset :: ·)
      | none => if rest.isEmpty then some [soffset] else none
  | .array dims t, _ :: rest => ((getElementType dims t 0).shiftFactorsFrom wordSize rest).map (-1 :: ·)
  | .scalar _, _ :: _ => none

end StorageType

inductive IndexedObject where
  | storage (type : StorageType)
  | pointer (refType : StorageType)

namespace IndexedObject

def updateAddressScalingFactors (wordSize : Nat) : IndexedObject → List IndexExpression → Option (List Int)
  | storage t, indices => t.scalingFactorsFrom wordSize [] indices
  | pointer _, [] => some []
  | pointer refType, _ :: rest => do
      let factors ← refType.scalingFactorsFrom wordSize [] rest
      some (refType.intSize.tdiv wordSize :: factors)

def updateAddressShiftFactors (wordSize : Nat) : IndexedObject → List IndexExpression → Option (List Int)
  | storage t, indices => t.shiftFactorsFrom wordSize indices
  | pointer _, [] => some [-1]
  | pointer refType, _ :: rest => do
      let factors ← refType.shiftFactorsFrom wordSize rest
      some (-1 :: factors)

end IndexedObject

namespace StorageType

/-- The indices lead from one type to another, by a path of numbers that are in range;
those of fields are constants. -/
inductive Indexes : StorageType → List IndexExpression → List Nat → StorageType → Prop where
  | here (t : StorageType) : Indexes t [] [] t
  | element {dims : List Nat} {t u v : StorageType} {e : IndexExpression} {es : List IndexExpression} {i : Nat}
      {path : List Nat} (selected : (StorageType.array dims t).select i = some u) (reads : e.Reads i)
      (rest : Indexes u es path v) : Indexes (.array dims t) (e :: es) (i :: path) v
  | field {ts : List StorageType} {u v : StorageType} {e : IndexExpression} {es : List IndexExpression} {i : Nat}
      {path : List Nat} (selected : (StorageType.record ts).select i = some u) (constant : e.isConstant = true)
      (reads : e.Reads i) (rest : Indexes u es path v) : Indexes (.record ts) (e :: es) (i :: path) v

/-- The word size divides the size and the start of everything on the path, and nothing there is empty. -/
def Aligned (wordSize : Nat) : StorageType → List Nat → Prop
  | _, [] => True
  | t, i :: path => ∀ u, t.select i = some u →
      wordSize ∣ t.skipped i ∧ wordSize ∣ u.size id ∧ 0 < u.size id ∧ u.Aligned wordSize path

def scales (wordSize : Nat) : StorageType → List Nat → List Int
  | _, [] => []
  | t, i :: path =>
      match t.select i with
      | some u => ((u.size id / wordSize : Nat) : Int) :: u.scales wordSize path
      | none => []

def isRecord : StorageType → Bool
  | .record _ => true
  | _ => false

def shifts (wordSize : Nat) : StorageType → List Nat → List Int
  | _, [] => []
  | t, i :: path =>
      match t.select i with
      | some u => (if t.isRecord then ((t.skipped i / wordSize : Nat) : Int) else -1) :: u.shifts wordSize path
      | none => []

end StorageType

section Indexes
open StorageType
variable {t u v : StorageType} {ts : List StorageType} {dims : List Nat} {e : IndexExpression}
  {es rest : List IndexExpression} {i wordSize : Nat} {path path' : List Nat}

theorem tdiv_cInt {size : Nat} (fits : size < 2 ^ 31) : (cInt size).tdiv wordSize = (size / wordSize : Nat) := by
  rw [cInt_natCast fits]
  rfl

theorem IndexExpression.Reads.value_eq (reads : e.Reads i) : e.value = i := by
  rw [IndexExpression.value, reads.number_eq, cInt_natCast reads.fits]

theorem getIndexValue_eq {elements : Nat} (constant : e.isConstant = true) (reads : e.Reads i) (inside : i < elements) :
    e.getIndexValue elements = i := by
  cases e with
  | literal text type =>
      obtain rfl := reads.text_eq text type rfl
      have below : text < 2 ^ bitLength (elements - 1) :=
        Nat.lt_of_le_of_lt (Nat.le_sub_one_of_lt inside) (lt_two_pow_bitLength _)
      rw [IndexExpression.getIndexValue, Nat.mod_eq_of_lt below, cInt_natCast reads.fits]
  | constant type bits => exact reads.value_eq
  | computed type bits => exact absurd constant (by simp [IndexExpression.isConstant])

theorem StorageType.Indexes.follow_eq (indexed : Indexes t es path u) : t.follow path = some u := by
  induction indexed with
  | here t => rfl
  | element selected reads rest ih => exact follow_cons.mpr ⟨_, selected, ih⟩
  | field selected constant reads rest ih => exact follow_cons.mpr ⟨_, selected, ih⟩

theorem StorageType.Indexes.append (indexed : Indexes t es path u) (later : Indexes u rest path' v) :
    Indexes t (es ++ rest) (path ++ path') v := by
  induction indexed with
  | here t => exact later
  | element selected reads _ ih => exact .element selected reads (ih later)
  | field selected constant reads _ ih => exact .field selected constant reads (ih later)

/-- Indices into an array use its dimensions first, and then go on in the element. -/
theorem indexes_array (indexed : Indexes (.array dims t) es path u) (some_index : es ≠ []) :
    if es.length ≤ dims.length then u = arrayOf (dims.drop es.length) t
    else ∃ path', Indexes t (es.drop dims.length) path' u := by
  induction dims generalizing es path with
  | nil =>
      cases indexed with
      | here => exact absurd rfl some_index
      | element selected => exact absurd selected (by simp [select])
  | cons d dims ih =>
      cases indexed with
      | here => exact absurd rfl some_index
      | @element _ _ w _ e es i path selected reads rest =>
          rw [select] at selected
          split_ifs at selected
          obtain rfl := Option.some.inj selected
          simp only [List.length_cons, Nat.add_le_add_iff_right, List.drop_succ_cons]
          cases dims with
          | nil =>
              cases rest with
              | here => exact (if_pos (Nat.zero_le 0)).mpr rfl
              | element selected' reads' rest' =>
                  rw [if_neg (by simp)]
                  exact ⟨_, .element selected' reads' rest'⟩
              | field selected' constant' reads' rest' =>
                  rw [if_neg (by simp)]
                  exact ⟨_, .field selected' constant' reads' rest'⟩
          | cons d' dims =>
              cases es with
              | nil =>
                  cases rest
                  exact (if_pos (Nat.zero_le _)).mpr rfl
              | cons e' es => exact ih rest (List.cons_ne_nil _ _)

theorem elementTypeFrom_eq (isField : ts[i]? = some u) :
    elementTypeFrom ts i rest = if rest.isEmpty then some u else u.getElementTypeFrom rest := by
  induction ts generalizing i with
  | nil => exact absurd isField (by simp)
  | cons t ts ih =>
      cases i with
      | zero =>
          obtain rfl := Option.some.inj isField
          rfl
      | succ i => exact ih isField

/-- The walk over a prefix of the indices finds the type to which they lead. -/
theorem getElementTypeFrom_eq (indexed : Indexes t es path u) (some_index : es ≠ []) :
    t.getElementTypeFrom es = some u := by
  induction t using StorageType.induction generalizing es path u with
  | scalar width =>
      cases indexed
      exact absurd rfl some_index
  | array dims t ih =>
      have walk := indexes_array indexed some_index
      have occupied : 0 < es.length := List.length_pos_iff.mpr some_index
      rw [getElementTypeFrom]
      split_ifs at walk ⊢ with within
      · rw [walk, getElementType, Nat.sub_add_cancel occupied]
      · obtain ⟨path', later⟩ := walk
        apply ih later
        intro none
        have short := List.drop_eq_nil_iff.mp none
        omega
  | record ts ih =>
      cases indexed with
      | here => exact absurd rfl some_index
      | @field _ w _ e rest i path selected constant reads later =>
          obtain ⟨inside, isField⟩ := List.getElem?_eq_some_iff.mp selected
          rw [getElementTypeFrom]
          simp only [getIndexValue_eq constant reads inside, Int.natCast_nonneg, if_true, Int.toNat_natCast]
          rw [elementTypeFrom_eq selected]
          cases rest with
          | nil =>
              cases later
              rfl
          | cons e' rest =>
              exact ih w (isField ▸ List.getElem_mem inside) later (List.cons_ne_nil _ _)

theorem scalingFactorsFrom_eq {indexPrefix : List IndexExpression} (fits : t.size id < 2 ^ 31)
    (before : Indexes t indexPrefix path v) (indexed : Indexes v es path' u) :
    t.scalingFactorsFrom wordSize indexPrefix es = some (v.scales wordSize path') := by
  have inside {w : StorageType} {es' : List IndexExpression} {path'' : List Nat} (indexed' : Indexes t es' path'' w) :
      w.intSize.tdiv wordSize = (w.size id / wordSize : Nat) := by
    have part := bitOffset_add indexed'.follow_eq
    rw [intSize_eq, tdiv_cInt (by omega)]
  induction indexed generalizing indexPrefix path with
  | here => rfl
  | @element dims t' w u' e es i path' selected reads rest ih =>
      have now := before.append (.element selected reads (.here w))
      rw [scalingFactorsFrom, getElementTypeFrom_eq now (by simp), ih now, scales, selected]
      simp only [Option.bind_eq_bind, Option.bind_some, inside now]
  | @field ts w u' e es i path' selected constant reads rest ih =>
      have now := before.append (.field selected constant reads (.here w))
      rw [scalingFactorsFrom, getElementTypeFrom_eq now (by simp), ih now, scales, selected]
      simp only [Option.bind_eq_bind, Option.bind_some, inside now]

theorem shiftFactorsFrom_eq (fits : t.size id < 2 ^ 31) (indexed : Indexes t es path u) :
    t.shiftFactorsFrom wordSize es = some (t.shifts wordSize path) := by
  induction indexed with
  | here t => cases t <;> rfl
  | @element dims t w v e es i path selected reads rest ih =>
      have part := skipped_add selected
      have ih := ih (by omega)
      cases dims with
      | nil => exact absurd selected (by simp [select])
      | cons d dims =>
          rw [shifts, selected, shiftFactorsFrom]
          rw [select] at selected
          split_ifs at selected
          obtain rfl := Option.some.inj selected
          have tail : getElementType (d :: dims) t 0 = arrayOf dims t := rfl
          rw [tail, ih]
          rfl
  | @field ts w v e es i path selected constant reads rest ih =>
      obtain ⟨inside, isField⟩ := List.getElem?_eq_some_iff.mp selected
      have isIndex := getIndexValue_eq constant reads inside
      have isElement : atIndex ts (e.getIndexValue ts.length) = some w := by
        rw [isIndex, atIndex, if_pos (Int.natCast_nonneg i), Int.toNat_natCast]
        exact selected
      have part := skipped_add selected
      have ih := ih (by omega)
      have soffset : (getStartBitOffset ts e).tdiv wordSize = ((StorageType.record ts).skipped i / wordSize : Nat) := by
        rw [getStartBitOffset, isIndex, Int.toNat_natCast, if_pos ⟨Int.natCast_nonneg i, Int.ofNat_lt.mpr inside⟩,
          intSizes_eq]
        have fits : (StorageType.record ts).skipped i < 2 ^ 31 := by omega
        exact tdiv_cInt fits
      simp only [shifts, selected, shiftFactorsFrom, isElement, soffset, ih, Option.map_some, isRecord, if_true]

end Indexes

end Ahir.Aa
