import Ahir.Aa.StorageType

/-!
# Index paths

An index selects an element of the first dimension of an array, or a field of a
record; a path selects a sub-object, which begins at the sum of what its indices
skip.
-/

set_option autoImplicit false

namespace Ahir.Aa
open Ahir.Data

namespace StorageType

def arrayOf (dims : List Nat) (t : StorageType) : StorageType := if dims.isEmpty then t else .array dims t

def select : StorageType → Nat → Option StorageType
  | .array (d :: dims) t, i => if i < d then some (arrayOf dims t) else none
  | .record ts, i => ts[i]?
  | _, _ => none

/-- The sub-object of a path; there is one when every index is in range. -/
def follow : StorageType → List Nat → Option StorageType
  | t, [] => some t
  | t, i :: path => (t.select i).bind fun u => u.follow path

def skipped : StorageType → Nat → Nat
  | .array (_ :: dims) t, i => i * (arrayOf dims t).size id
  | .record ts, i => sizes id (ts.take i)
  | _, _ => 0

def bitOffset : StorageType → List Nat → Nat
  | _, [] => 0
  | t, i :: path => t.skipped i + ((t.select i).map fun u => u.bitOffset path).getD 0

theorem size_arrayOf (unit : Nat → Nat) (dims : List Nat) (t : StorageType) :
    (arrayOf dims t).size unit = t.size unit * dims.prod := by
  cases dims with
  | nil => exact (Nat.mul_one _).symm
  | cons d dims => rfl

section Select
variable {t u v : StorageType} {i j : Nat} {path path' : List Nat}

theorem follow_cons : t.follow (i :: path) = some v ↔ ∃ u, t.select i = some u ∧ u.follow path = some v :=
  Option.bind_eq_some_iff

theorem bitOffset_cons (selected : t.select i = some u) : t.bitOffset (i :: path) = t.skipped i + u.bitOffset path := by
  rw [bitOffset, selected]
  rfl

theorem skipped_lt (selected : t.select i = some u) (later : t.select j = some v) (before : i < j) :
    t.skipped i + u.size id ≤ t.skipped j := by
  cases t with
  | scalar width => exact absurd selected (by simp [select])
  | array dims t =>
      cases dims with
      | nil => exact absurd selected (by simp [select])
      | cons d dims =>
          rw [select] at selected
          split_ifs at selected
          obtain rfl := Option.some.inj selected
          calc i * (arrayOf dims t).size id + (arrayOf dims t).size id
              = (i + 1) * (arrayOf dims t).size id := by rw [Nat.add_mul, Nat.one_mul]
            _ ≤ j * (arrayOf dims t).size id := Nat.mul_le_mul_right _ before
  | record ts =>
      obtain ⟨inside, rfl⟩ := List.getElem?_eq_some_iff.mp selected
      obtain ⟨isField, -⟩ := List.getElem?_eq_some_iff.mp later
      exact sizes_take_mono id ts inside before isField

theorem skipped_add (selected : t.select i = some u) : t.skipped i + u.size id ≤ t.size id := by
  cases t with
  | scalar width => exact absurd selected (by simp [select])
  | array dims t =>
      cases dims with
      | nil => exact absurd selected (by simp [select])
      | cons d dims =>
          rw [select] at selected
          split_ifs at selected with inside
          obtain rfl := Option.some.inj selected
          calc i * (arrayOf dims t).size id + (arrayOf dims t).size id
              = (i + 1) * (arrayOf dims t).size id := by rw [Nat.add_mul, Nat.one_mul]
            _ ≤ d * (arrayOf dims t).size id := Nat.mul_le_mul_right _ inside
            _ = t.size id * (d :: dims).prod := by
                rw [size_arrayOf, List.prod_cons]
                ring
  | record ts =>
      obtain ⟨inside, rfl⟩ := List.getElem?_eq_some_iff.mp selected
      exact sizes_take_add inside

theorem bitOffset_add (followed : t.follow path = some u) : t.bitOffset path + u.size id ≤ t.size id := by
  induction path generalizing t with
  | nil =>
      obtain rfl := Option.some.inj followed
      exact Nat.le_of_eq (Nat.zero_add _)
  | cons i path ih =>
      obtain ⟨v, selected, rest⟩ := follow_cons.mp followed
      have below := ih rest
      have inside := skipped_add selected
      rw [bitOffset_cons selected]
      omega

theorem bitOffset_disjoint (followed : t.follow path = some u) (followed' : t.follow path' = some v)
    (length : path.length = path'.length) (differ : path ≠ path') :
    t.bitOffset path + u.size id ≤ t.bitOffset path' ∨ t.bitOffset path' + v.size id ≤ t.bitOffset path := by
  induction path generalizing t path' with
  | nil => exact absurd (List.eq_nil_of_length_eq_zero length.symm).symm differ
  | cons i path ih =>
      cases path' with
      | nil => exact absurd length (by simp)
      | cons j path' =>
          obtain ⟨w, selected, rest⟩ := follow_cons.mp followed
          obtain ⟨w', selected', rest'⟩ := follow_cons.mp followed'
          rw [bitOffset_cons selected, bitOffset_cons selected']
          have inside := bitOffset_add rest
          have inside' := bitOffset_add rest'
          rcases lt_trichotomy i j with before | rfl | after
          · have apart := skipped_lt selected selected' before
            omega
          · obtain rfl := Option.some.inj (selected.symm.trans selected')
            have tails := ih rest rest' (Nat.succ.inj length) fun same => differ (by rw [same])
            omega
          · have apart := skipped_lt selected' selected after
            omega

/-- Indices into all dimensions of an array count its elements in row-major order. -/
theorem bitOffset_array {dims indices : List Nat} (inRange : InRange dims indices) (some_dims : dims ≠ []) :
    (StorageType.array dims t).bitOffset (indices ++ path) =
      rowMajor dims indices * t.size id + t.bitOffset path := by
  induction inRange with
  | nil => exact absurd rfl some_dims
  | @cons i d indices dims inside rest ih =>
      have selected : (StorageType.array (d :: dims) t).select i = some (arrayOf dims t) := if_pos inside
      have tail : (arrayOf dims t).bitOffset (indices ++ path) =
          rowMajor dims indices * t.size id + t.bitOffset path := by
        cases rest with
        | nil => simp [arrayOf, rowMajor]
        | cons inside' rest' => exact ih (List.cons_ne_nil _ _)
      rw [List.cons_append, bitOffset_cons selected, tail, skipped, size_arrayOf, rowMajor]
      ring

end Select

end StorageType
end Ahir.Aa
