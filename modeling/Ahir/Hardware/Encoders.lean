import Ahir.Data.Bits
import Ahir.Hardware.QueueBase

/-!
# Encoders

The functions of the package `Subprograms` that encode and decode.
-/

set_option autoImplicit false

namespace Ahir.Hardware.Subprograms
open Ahir.Data
variable {n : Nat}

/-- One turn of the outer loop of `GenericEncode`. -/
def encodeStep (x : BitVec n) (ret : BitVec (ceilLog2 n)) (i : Nat) : BitVec (ceilLog2 n) :=
  let tmp := BitVec.ofNat (ceilLog2 n) i
  lowBits (ceilLog2 n) fun j => if tmp.getLsbD j then ret.getLsbD j || x.getLsbD i else ret.getLsbD j

def genericEncode (x : BitVec n) : BitVec (ceilLog2 n) := (List.range n).foldl (encodeStep x) 0#(ceilLog2 n)

def genericDecode (x : BitVec n) : BitVec (2 ^ n) := lowBits (2 ^ n) fun i => decide (i = x.toNat)

/-- The loop goes from the left, where the top bit is, and ends at the first bit that is set. -/
def priorityEncode (x : BitVec n) : BitVec n :=
  match (List.range n).find? fun i => x.getLsbD (n - 1 - i) with
  | some i => BitVec.twoPow n (n - 1 - i)
  | none => 0#n

def AtMostOneSet (x : BitVec n) : Prop := ∀ i j, x.getLsbD i = true → x.getLsbD j = true → i = j

theorem getLsbD_foldl_encodeStep (x : BitVec n) {j : Nat} (below : j < ceilLog2 n) (l : List Nat)
    (ret : BitVec (ceilLog2 n)) : (l.foldl (encodeStep x) ret).getLsbD j =
      (ret.getLsbD j || l.any fun i => i.testBit j && x.getLsbD i) := by
  induction l generalizing ret with
  | nil => rw [List.foldl_nil, List.any_nil, Bool.or_false]
  | cons i l ih =>
      have step : (encodeStep x ret i).getLsbD j = (ret.getLsbD j || (i.testBit j && x.getLsbD i)) := by
        unfold encodeStep
        dsimp only
        rw [getLsbD_lowBits, decide_eq_true below, Bool.true_and, BitVec.getLsbD_ofNat, decide_eq_true below,
          Bool.true_and]
        cases i.testBit j with
        | false => rw [if_neg Bool.false_ne_true, Bool.false_and, Bool.or_false]
        | true => rw [if_pos rfl, Bool.true_and]
      rw [List.foldl_cons, ih, step, List.any_cons, Bool.or_assoc]

theorem getLsbD_genericEncode (x : BitVec n) {j : Nat} (below : j < ceilLog2 n) :
    (genericEncode x).getLsbD j = (List.range n).any fun i => i.testBit j && x.getLsbD i := by
  unfold genericEncode
  rw [getLsbD_foldl_encodeStep x below, BitVec.getLsbD_zero, Bool.false_or]

theorem genericEncode_eq {x : BitVec n} {i : Nat} (set : x.getLsbD i = true)
    (alone : ∀ k, x.getLsbD k = true → k = i) : genericEncode x = BitVec.ofNat (ceilLog2 n) i := by
  refine BitVec.eq_of_getLsbD_eq fun j below => ?_
  rw [getLsbD_genericEncode x below, BitVec.getLsbD_ofNat, decide_eq_true below, Bool.true_and, Bool.eq_iff_iff,
    List.any_eq_true]
  constructor
  · intro some
    obtain ⟨k, -, both⟩ := some
    obtain ⟨bit, setK⟩ := (Bool.and_eq_true _ _).mp both
    rwa [← alone k setK]
  · intro bit
    exact ⟨i, List.mem_range.mpr (BitVec.lt_of_getLsbD set), (Bool.and_eq_true _ _).mpr ⟨bit, set⟩⟩

theorem genericEncode_eq_zero {x : BitVec n} (clear : ∀ k, x.getLsbD k = false) :
    genericEncode x = 0#(ceilLog2 n) := by
  refine BitVec.eq_of_getLsbD_eq fun j below => ?_
  rw [getLsbD_genericEncode x below, BitVec.getLsbD_zero, List.any_eq_false]
  intro k _
  rw [clear k, Bool.and_false]
  exact Bool.false_ne_true

theorem getLsbD_genericDecode (x : BitVec n) {i : Nat} (below : i < 2 ^ n) :
    (genericDecode x).getLsbD i = decide (i = x.toNat) := by
  unfold genericDecode
  rw [getLsbD_lowBits, decide_eq_true below, Bool.true_and]

theorem getLsbD_genericDecode_iff (x : BitVec n) (i : Nat) :
    (genericDecode x).getLsbD i = true ↔ i = x.toNat := by
  constructor
  · intro set
    rw [getLsbD_genericDecode x (BitVec.lt_of_getLsbD set)] at set
    exact of_decide_eq_true set
  · intro eq
    rw [getLsbD_genericDecode x (eq ▸ x.isLt)]
    exact decide_eq_true eq

theorem ceilLog2_two_pow (k : Nat) : ceilLog2 (2 ^ k) = k := Nat.clog_pow 2 k (by decide)

theorem toNat_genericEncode_genericDecode (x : BitVec n) : (genericEncode (genericDecode x)).toNat = x.toNat := by
  rw [genericEncode_eq ((getLsbD_genericDecode_iff x _).mpr rfl) fun k => (getLsbD_genericDecode_iff x k).mp,
    BitVec.toNat_ofNat, ceilLog2_two_pow, Nat.mod_eq_of_lt x.isLt]

theorem atMostOneSet_genericDecode (x : BitVec n) : AtMostOneSet (genericDecode x) := by
  intro i j setI setJ
  rw [(getLsbD_genericDecode_iff x i).mp setI, (getLsbD_genericDecode_iff x j).mp setJ]

/-- A bit of the result is set where the same bit of the operand is and none above it. -/
theorem getLsbD_priorityEncode (x : BitVec n) {k : Nat} (below : k < n) :
    (priorityEncode x).getLsbD k = true ↔ x.getLsbD k = true ∧ ∀ j, k < j → j < n → x.getLsbD j = false := by
  unfold priorityEncode
  cases found : (List.range n).find? fun i => x.getLsbD (n - 1 - i) with
  | none =>
      have clear := List.find?_range_eq_none.mp found (n - 1 - k) (by omega)
      rw [show n - 1 - (n - 1 - k) = k by omega, Bool.not_eq_true'] at clear
      dsimp only
      rw [BitVec.getLsbD_zero, clear]
      exact ⟨fun no => absurd no Bool.false_ne_true, fun both => absurd both.1 Bool.false_ne_true⟩
  | some i =>
      obtain ⟨set, mem, first⟩ := List.find?_range_eq_some.mp found
      have inside := List.mem_range.mp mem
      dsimp only
      rw [BitVec.getLsbD_twoPow, Bool.and_eq_true, decide_eq_true_iff, decide_eq_true_iff]
      constructor
      · intro both
        obtain rfl : k = n - 1 - i := both.2.symm
        refine ⟨set, fun j above below => ?_⟩
        have clear := first (n - 1 - j) (by omega)
        rwa [show n - 1 - (n - 1 - j) = j by omega, Bool.not_eq_true'] at clear
      · intro both
        refine ⟨by omega, ?_⟩
        by_contra ne
        by_cases above : k < n - 1 - i
        · have := both.2 _ above (by omega)
          rw [this] at set
          exact Bool.false_ne_true set
        · have clear := first (n - 1 - k) (by omega)
          rw [show n - 1 - (n - 1 - k) = k by omega, both.1] at clear
          exact Bool.false_ne_true clear

end Ahir.Hardware.Subprograms
