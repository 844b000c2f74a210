import Ahir.Data.CInt
import Ahir.Data.RowMajor

/-!
# Types of stored objects

Scalars, arrays of several dimensions and records, nested to any depth.
-/

set_option autoImplicit false

namespace Ahir.Aa
open Ahir.Data

/-- A type: of a scalar its width, of an array `_dimension` and `_element_type`, of a record
`_element_types`. -/
inductive StorageType where
  | scalar (width : Nat)
  | array (dimensions : List Nat) (elementType : StorageType)
  | record (elementTypes : List StorageType)

namespace StorageType

theorem induction {motive : StorageType → Prop} (scalar : ∀ width, motive (.scalar width))
    (array : ∀ dims t, motive t → motive (.array dims t))
    (record : ∀ ts, (∀ t ∈ ts, motive t) → motive (.record ts)) (t : StorageType) : motive t :=
  @StorageType.rec motive (fun ts => ∀ t ∈ ts, motive t) scalar array record
    (fun _ member => absurd member List.not_mem_nil)
    (fun _ _ head tail => List.forall_mem_cons.mpr ⟨head, tail⟩) t

mutual

/-- `Size`, where a scalar counts as `unit` says: its width, or one. -/
def size (unit : Nat → Nat) : StorageType → Nat
  | .scalar width => unit width
  | .array dims t => size unit t * dims.prod
  | .record ts => sizes unit ts

def sizes (unit : Nat → Nat) : List StorageType → Nat
  | [] => 0
  | t :: ts => size unit t + sizes unit ts

end

mutual

/-- As the grammar has them, arrays have dimensions and records elements, and none is empty. -/
def WellFormed : StorageType → Prop
  | .scalar _ => True
  | .array dims t => dims ≠ [] ∧ 0 < dims.prod ∧ WellFormed t
  | .record ts => ts ≠ [] ∧ AllWellFormed ts

def AllWellFormed : List StorageType → Prop
  | [] => True
  | t :: ts => WellFormed t ∧ AllWellFormed ts

end

theorem allWellFormed_iff {ts : List StorageType} : AllWellFormed ts ↔ ∀ t ∈ ts, t.WellFormed := by
  induction ts with
  | nil => exact ⟨fun _ _ member => absurd member List.not_mem_nil, fun _ => trivial⟩
  | cons t ts ih => rw [AllWellFormed, ih, List.forall_mem_cons]

theorem size_pos {unit : Nat → Nat} (pos : ∀ width, 0 < unit width) {t : StorageType} (formed : t.WellFormed) :
    0 < t.size unit := by
  induction t using induction with
  | scalar width => exact pos width
  | array dims t ih => exact Nat.mul_pos (ih formed.2.2) formed.2.1
  | record ts ih =>
      cases ts with
      | nil => exact absurd rfl formed.1
      | cons t ts => exact Nat.add_pos_left (ih t List.mem_cons_self formed.2.1) _

theorem sizes_take_add {unit : Nat → Nat} {ts : List StorageType} {i : Nat} (inside : i < ts.length) :
    sizes unit (ts.take i) + ts[i].size unit ≤ sizes unit ts := by
  induction ts generalizing i with
  | nil => exact absurd inside (Nat.not_lt_zero i)
  | cons t ts ih =>
      cases i with
      | zero =>
          rw [List.take_zero, sizes, sizes, Nat.zero_add]
          exact Nat.le_add_right _ _
      | succ i =>
          rw [List.take_succ_cons, sizes, sizes, List.getElem_cons_succ, Nat.add_assoc]
          exact Nat.add_le_add_left (ih (Nat.lt_of_succ_lt_succ inside)) _

theorem sizes_take_mono (unit : Nat → Nat) (ts : List StorageType) {i j : Nat} (inside : i < ts.length) (before : i < j)
    (isField : j < ts.length) : sizes unit (ts.take i) + ts[i].size unit ≤ sizes unit (ts.take j) := by
  have short : i < (ts.take j).length := by
    rw [List.length_take]
    omega
  have field := @sizes_take_add unit _ _ short
  rwa [List.take_take, Nat.min_eq_left (Nat.le_of_lt before), List.getElem_take] at field

mutual

/-- `Size`, which is computed in an `int`. -/
def intSize : StorageType → Int
  | .scalar width => cInt width
  | .array dims t => dims.foldl (fun retVal (d : Nat) => cInt (retVal * d)) t.intSize
  | .record ts => intSizes 0 ts

def intSizes (retVal : Int) : List StorageType → Int
  | [] => retVal
  | t :: ts => intSizes (cInt (retVal + t.intSize)) ts

end

theorem foldl_cInt_mul (dims : List Nat) (x : Int) :
    dims.foldl (fun retVal (d : Nat) => cInt (retVal * d)) (cInt x) = cInt (x * (dims.prod : Nat)) := by
  induction dims generalizing x with
  | nil => simp
  | cons d dims ih => rw [List.foldl_cons, cInt_cInt_mul, ih, List.prod_cons, Nat.cast_mul, Int.mul_assoc]

theorem intSizes_of_intSize {ts : List StorageType} (each : ∀ t ∈ ts, t.intSize = cInt (t.size id)) (x : Int) :
    intSizes (cInt x) ts = cInt (x + sizes id ts) := by
  induction ts generalizing x with
  | nil => simp [intSizes, sizes]
  | cons t ts ih =>
      rw [intSizes, each t List.mem_cons_self, cInt_cInt_add, cInt_add_cInt, ih fun u isLater => each u (.tail _ isLater),
        sizes, Nat.cast_add, Int.add_assoc]

theorem intSize_eq (t : StorageType) : t.intSize = cInt (t.size id) := by
  induction t using induction with
  | scalar width => rfl
  | array dims t ih => rw [intSize, ih, foldl_cInt_mul, size, Nat.cast_mul]
  | record ts ih =>
      have sum := intSizes_of_intSize ih 0
      rwa [Int.zero_add] at sum

theorem intSizes_eq (ts : List StorageType) : intSizes 0 ts = cInt (sizes id ts) := intSize_eq (.record ts)

end StorageType
end Ahir.Aa
