import Ahir.Data.Bits

/-!
# Arrays of words as sequences of bits

Bit `i` of an array of words of `w` bits is bit `i % w` of word `i / w`.
-/

set_option autoImplicit false

namespace Ahir.Data
variable {w : Nat}

def bitAt (words : List (BitVec w)) (i : Nat) : Bool :=
  (words.getD (i / w) 0).getLsbD (i % w)

theorem getLsbD_ofNat_zero (n i : Nat) : (0 : BitVec n).getLsbD i = false := BitVec.getLsbD_zero

theorem getLsbD_one_shiftLeft {k j : Nat} (hj : j < w) :
    ((1 : BitVec w) <<< k).getLsbD j = decide (k = j) := by
  rw [BitVec.getLsbD_shiftLeft, decide_eq_true hj, Bool.true_and]
  by_cases lt : j < k
  · rw [decide_eq_true lt, decide_eq_false (by omega)]
    rfl
  · have one : (1 : BitVec w).getLsbD (j - k) = decide (j - k = 0) := by
      rw [show (1 : BitVec w) = BitVec.ofNat w 1 from rfl, BitVec.getLsbD_one]
      simp [show 0 < w by omega]
    rw [decide_eq_false lt, one]
    have : (j - k = 0) = (k = j) := by rw [eq_iff_iff]; omega
    simp only [this, Bool.not_false, Bool.true_and]

theorem bitAt_of_lt {words : List (BitVec w)} {i : Nat} (inside : i / w < words.length) :
    bitAt words i = words[i / w].getLsbD (i % w) := by
  unfold bitAt
  rw [List.getD_eq_getElem?_getD, List.getElem?_eq_getElem inside, Option.getD_some]

theorem bitAt_of_le {words : List (BitVec w)} {i : Nat} (outside : words.length ≤ i / w) :
    bitAt words i = false := by
  unfold bitAt
  rw [List.getD_eq_getElem?_getD, List.getElem?_eq_none outside, Option.getD_none, getLsbD_ofNat_zero]

theorem bitAt_mul_add (words : List (BitVec w)) (k : Nat) {j : Nat} (hj : j < w) :
    bitAt words (w * k + j) = (words.getD k 0).getLsbD j := by
  unfold bitAt
  rw [Nat.mul_add_div (by omega), Nat.div_eq_of_lt hj, Nat.add_zero, Nat.mul_add_mod, Nat.mod_eq_of_lt hj]

theorem bitAt_modify {words : List (BitVec w)} {k : Nat} (inside : k < words.length)
    (f : BitVec w → BitVec w) (i : Nat) :
    bitAt (words.modify k f) i = if k = i / w then (f words[k]).getLsbD (i % w) else bitAt words i := by
  unfold bitAt
  rw [List.getD_eq_getElem?_getD, List.getElem?_modify]
  by_cases word : k = i / w
  · rw [if_pos word, ← word, List.getElem?_eq_getElem inside]
    simp
  · simp only [if_neg word, id_map', List.getD_eq_getElem?_getD]

theorem bitAt_map {words : List (BitVec w)} {i : Nat} (inside : i / w < words.length)
    (f : BitVec w → BitVec w) : bitAt (words.map f) i = (f words[i / w]).getLsbD (i % w) := by
  rw [bitAt_of_lt (by rwa [List.length_map]), List.getElem_map]

theorem bitAt_mapIdx {words : List (BitVec w)} {i : Nat} (inside : i / w < words.length)
    (f : Nat → BitVec w → BitVec w) :
    bitAt (words.mapIdx f) i = (f (i / w) words[i / w]).getLsbD (i % w) := by
  rw [bitAt_of_lt (by rwa [List.length_mapIdx]), List.getElem_mapIdx]

theorem bitAt_map_range {n i : Nat} (inside : i / w < n) (f : Nat → BitVec w) :
    bitAt ((List.range n).map f) i = (f (i / w)).getLsbD (i % w) := by
  rw [bitAt_of_lt (by rwa [List.length_map, List.length_range]), List.getElem_map, List.getElem_range]

theorem ext_bitAt {words words' : List (BitVec w)} (length : words.length = words'.length)
    (bits : ∀ i < w * words.length, bitAt words i = bitAt words' i) : words = words' := by
  refine List.ext_getElem length fun k inside inside' => BitVec.eq_of_getLsbD_eq fun j hj => ?_
  have room : w * k + j < w * words.length :=
    calc w * k + j < w * k + w := by omega
      _ = w * (k + 1) := by ring
      _ ≤ w * words.length := Nat.mul_le_mul_left w inside
  have bit := bits (w * k + j) room
  rwa [bitAt_mul_add _ _ hj, bitAt_mul_add _ _ hj, List.getD_eq_getElem?_getD, List.getD_eq_getElem?_getD,
    List.getElem?_eq_getElem inside, List.getElem?_eq_getElem inside', Option.getD_some, Option.getD_some] at bit

end Ahir.Data
