import Mathlib.Data.List.Basic
import Mathlib.Tactic

/-!
# Circular buffers

The window of `count` cells of an array of `size` cells that begins at `first`
and wraps around.  A value is stored behind the window, and the window is read
from its front.  A stack is the cells below a height, and is read from the top.
-/

set_option autoImplicit false

namespace Ahir.Data
variable {V : Type}

def succWrap (size i : Nat) : Nat := if i = size - 1 then 0 else i + 1

def predWrap (size i : Nat) : Nat := if i = 0 then size - 1 else i - 1

def window (cells : Nat → V) (size first count : Nat) : List V :=
  (List.range count).map fun k => cells ((first + k) % size)

section Indices
variable {size i : Nat}

theorem succWrap_eq_mod (inside : i < size) : succWrap size i = (i + 1) % size := by
  unfold succWrap
  split_ifs with last
  · rw [last, Nat.sub_add_cancel (by omega), Nat.mod_self]
  · rw [Nat.mod_eq_of_lt (by omega)]

theorem predWrap_eq_mod (inside : i < size) : predWrap size i = (i + (size - 1)) % size := by
  unfold predWrap
  split_ifs with first
  · rw [first, Nat.zero_add, Nat.mod_eq_of_lt (by omega)]
  · rw [show i + (size - 1) = i - 1 + size by omega, Nat.add_mod_right, Nat.mod_eq_of_lt (by omega)]

theorem predWrap_lt (inside : i < size) : predWrap size i < size := by
  rw [predWrap_eq_mod inside]
  exact Nat.mod_lt _ (by omega)

theorem offset_ne {first k l : Nat} (distinct : k ≠ l) (boundK : k < size) (boundL : l < size) :
    (first + k) % size ≠ (first + l) % size := by
  intro same
  apply distinct
  have congruent : k ≡ l [MOD size] := Nat.ModEq.add_left_cancel' first same
  rwa [Nat.ModEq, Nat.mod_eq_of_lt boundK, Nat.mod_eq_of_lt boundL] at congruent

/-- A distance leads back to where it begins just when it is a multiple of the size. -/
theorem offset_eq_self_iff {first k : Nat} (inside : first < size) :
    first = (first + k) % size ↔ k % size = 0 := by
  constructor
  · intro same
    have congruent : first + 0 ≡ first + k [MOD size] := by
      rw [Nat.ModEq, Nat.add_zero, ← same, Nat.mod_eq_of_lt inside]
    have := Nat.ModEq.add_left_cancel' first congruent
    rw [Nat.ModEq, Nat.zero_mod] at this
    exact this.symm
  · intro multiple
    rw [Nat.add_mod, multiple, Nat.add_zero, Nat.mod_mod, Nat.mod_eq_of_lt inside]

end Indices

variable {cells : Nat → V} {size first count : Nat}

@[simp]
theorem window_length : (window cells size first count).length = count := by
  simp [window]

@[simp]
theorem window_zero : window cells size first 0 = [] := rfl

theorem window_congr {cells' : Nat → V}
    (same : ∀ k < count, cells' ((first + k) % size) = cells ((first + k) % size)) :
    window cells' size first count = window cells size first count := by
  apply List.map_congr_left
  intro k member
  exact same k (List.mem_range.mp member)

theorem window_succ : window cells size first (count + 1) =
    window cells size first count ++ [cells ((first + count) % size)] := by
  simp [window, List.range_succ]

theorem window_succ_front (inside : first < size) : window cells size first (count + 1) =
    cells first :: window cells size ((first + 1) % size) count := by
  simp only [window, List.range_succ_eq_map, List.map_cons, List.map_map, Nat.add_zero,
    Nat.mod_eq_of_lt inside]
  congr 1
  apply List.map_congr_left
  intro k _
  simp only [Function.comp_apply, Nat.mod_add_mod]
  congr 2
  omega

theorem window_update_behind {v : V} (room : count < size) :
    window (Function.update cells ((first + count) % size) v) size first count =
      window cells size first count := by
  apply window_congr
  intro k inWindow
  rw [Function.update_of_ne]
  exact offset_ne (by omega) (by omega) room

/-- A value stored behind the window and taken into it is its back. -/
theorem window_push {v : V} (room : count < size) :
    window (Function.update cells ((first + count) % size) v) size first (count + 1) =
      window cells size first count ++ [v] := by
  rw [window_succ, window_update_behind room, Function.update_self]

/-- What a turn does that may read the front away and may store a value behind. -/
theorem window_step {v : V} {read write : Bool} (inside : first < size)
    (canRead : read = true → 0 < count) (canWrite : write = true → count - read.toNat < size) :
    window cells size first count ++ (if write then some v else none).toList =
      (if read then some (cells first) else none).toList ++
        window (if write then Function.update cells ((first + count) % size) v else cells) size
          (if read then (first + 1) % size else first) (count - read.toNat + write.toNat) := by
  cases read with
  | false =>
      cases write with
      | false => simp
      | true => simpa using (window_push (v := v) (by simpa using canWrite)).symm
  | true =>
      obtain ⟨n, rfl⟩ := Nat.exists_eq_succ_of_ne_zero (canRead rfl).ne'
      rw [Nat.succ_eq_add_one, window_succ_front inside]
      cases write with
      | false => simp
      | true =>
          have room : n < size := by simpa using canWrite
          have behind : (first + (n + 1)) % size = ((first + 1) % size + n) % size := by
            rw [Nat.mod_add_mod]
            congr 1
            omega
          simp only [if_true, Option.toList_some, Bool.toNat_true, Nat.add_sub_cancel]
          rw [behind, window_push room]
          rfl

def below (cells : Nat → V) (height : Nat) : List V := ((List.range height).map cells).reverse

section Below
variable {height : Nat}

@[simp]
theorem below_length : (below cells height).length = height := by
  simp [below]

@[simp]
theorem below_zero : below cells 0 = [] := rfl

theorem below_succ : below cells (height + 1) = cells height :: below cells height := by
  simp [below, List.range_succ]

theorem below_update {i : Nat} {v : V} (above : height ≤ i) :
    below (Function.update cells i v) height = below cells height := by
  rw [below, below, List.map_congr_left]
  intro k member
  have := List.mem_range.mp member
  exact Function.update_of_ne (by omega) _ _

end Below

end Ahir.Data
