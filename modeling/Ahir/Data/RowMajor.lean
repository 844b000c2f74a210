import Mathlib.Tactic

/-!
# Row-major order

The position of an element of an array of several dimensions: the last index counts
ones, and every other one the elements of the dimensions behind it.
-/

set_option autoImplicit false

namespace Ahir.Data

/-- `I1 * (D2 * .. * Dn) + I2 * (D3 * .. * Dn) + .. + In` -/
def rowMajor : List Nat → List Nat → Nat
  | _ :: dims, i :: indices => i * dims.prod + rowMajor dims indices
  | _, _ => 0

/-- As many indices as dimensions, and each inside its dimension. -/
def InRange (dims indices : List Nat) : Prop := List.Forall₂ (fun i d => i < d) indices dims

instance (dims indices : List Nat) : Decidable (InRange dims indices) :=
  inferInstanceAs (Decidable (List.Forall₂ _ _ _))

theorem InRange.length_eq {dims indices : List Nat} (inRange : InRange dims indices) : indices.length = dims.length :=
  List.Forall₂.length_eq inRange

theorem InRange.prod_pos {dims indices : List Nat} (inRange : InRange dims indices) : 0 < dims.prod := by
  induction inRange with
  | nil => exact Nat.one_pos
  | cons inside _ ih => exact Nat.mul_pos (Nat.zero_lt_of_lt inside) ih

theorem rowMajor_lt {dims indices : List Nat} (inRange : InRange dims indices) : rowMajor dims indices < dims.prod := by
  induction inRange with
  | nil => exact Nat.one_pos
  | @cons i d indices dims inside _ ih =>
      calc i * dims.prod + rowMajor dims indices
          < i * dims.prod + dims.prod := Nat.add_lt_add_left ih _
        _ = (i + 1) * dims.prod := by rw [Nat.add_mul, Nat.one_mul]
        _ ≤ d * dims.prod := Nat.mul_le_mul_right _ inside

section ColumnMajor

/-- `I1 + D1 * (I2 + D2 * (.. + In))`: the first index counts ones. -/
def columnMajor : List Nat → List Nat → Nat
  | d :: dims, i :: indices => i + d * columnMajor dims indices
  | _, _ => 0

theorem columnMajor_lt {dims indices : List Nat} (inRange : InRange dims indices) :
    columnMajor dims indices < dims.prod := by
  induction inRange with
  | nil => exact Nat.one_pos
  | @cons i d indices dims inside _ ih =>
      calc i + d * columnMajor dims indices
          < d + d * columnMajor dims indices := Nat.add_lt_add_right inside _
        _ = d * (columnMajor dims indices + 1) := by rw [Nat.mul_add, Nat.mul_one, Nat.add_comm]
        _ ≤ d * dims.prod := Nat.mul_le_mul_left _ ih

theorem columnMajor_inj {dims indices : List Nat} (inRange : InRange dims indices) : ∀ {indices' : List Nat},
    InRange dims indices' → columnMajor dims indices = columnMajor dims indices' → indices = indices' := by
  induction inRange with
  | nil =>
      intro indices' inRange' _
      cases inRange'
      rfl
  | @cons i d indices dims inside _ ih =>
      intro indices' inRange' same
      cases inRange' with
      | @cons i' _ indices' _ inside' rest' =>
          rw [columnMajor, columnMajor] at same
          have first : i = i' := by
            have remainder := congrArg (· % d) same
            simpa only [Nat.add_mul_mod_self_left, Nat.mod_eq_of_lt inside, Nat.mod_eq_of_lt inside'] using remainder
          subst first
          rw [ih rest' (Nat.eq_of_mul_eq_mul_left (Nat.zero_lt_of_lt inside) (Nat.add_left_cancel same))]

/-- Indices in the order of their positions are all indices, each of them once. -/
theorem exhausts_of_columnMajor {dims : List Nat} {visited : List (List Nat)}
    (inRange : ∀ indices ∈ visited, InRange dims indices)
    (positions : visited.map (columnMajor dims) = List.range dims.prod) :
    visited.Nodup ∧ ∀ indices, indices ∈ visited ↔ InRange dims indices := by
  refine ⟨?_, fun indices => ⟨inRange indices, fun isIndex => ?_⟩⟩
  · apply List.Nodup.of_map (columnMajor dims)
    rw [positions]
    exact List.nodup_range
  · have position : columnMajor dims indices ∈ visited.map (columnMajor dims) := by
      rw [positions]
      exact List.mem_range.mpr (columnMajor_lt isIndex)
    obtain ⟨indices', mem, same⟩ := List.mem_map.mp position
    rwa [← columnMajor_inj (inRange indices' mem) isIndex same]

end ColumnMajor

end Ahir.Data
