import Mathlib.Tactic

/-!
# Words read off a sequence of bits

A store that is only read and written bit by bit is a function from positions to
bits.  Its lowest bits are a `BitVec`; the loops over them are the operations there.
-/

set_option autoImplicit false

namespace Ahir.Data

/-- The lowest `n` bits of `f`. -/
def lowBits (n : Nat) (f : Nat → Bool) : BitVec n :=
  BitVec.ofNat n (Nat.ofBits fun i : Fin n => f i)

@[simp]
theorem getLsbD_lowBits (n : Nat) (f : Nat → Bool) (i : Nat) :
    (lowBits n f).getLsbD i = (decide (i < n) && f i) := by
  unfold lowBits
  rw [BitVec.getLsbD_ofNat]
  by_cases below : i < n
  · rw [Nat.testBit_ofBits_lt _ i below]
  · rw [decide_eq_false below, Bool.false_and, Bool.false_and]

theorem lowBits_congr {n : Nat} {f g : Nat → Bool} (same : ∀ i < n, f i = g i) :
    lowBits n f = lowBits n g := by
  refine BitVec.eq_of_getLsbD_eq fun i below => ?_
  rw [getLsbD_lowBits, getLsbD_lowBits, same i below]

theorem lowBits_inj {n : Nat} {f g : Nat → Bool} :
    lowBits n f = lowBits n g ↔ ∀ i < n, f i = g i := by
  constructor
  · intro same i below
    have bit : (lowBits n f).getLsbD i = (lowBits n g).getLsbD i := by rw [same]
    rwa [getLsbD_lowBits, getLsbD_lowBits, decide_eq_true below, Bool.true_and, Bool.true_and] at bit
  · exact lowBits_congr

theorem lowBits_eq {n : Nat} {f : Nat → Bool} {x : BitVec n} (bits : ∀ i < n, f i = x.getLsbD i) :
    lowBits n f = x := by
  refine BitVec.eq_of_getLsbD_eq fun i below => ?_
  rw [getLsbD_lowBits, bits i below, decide_eq_true below, Bool.true_and]

@[simp]
theorem lowBits_getLsbD {n : Nat} (x : BitVec n) : lowBits n x.getLsbD = x := lowBits_eq fun _ _ => rfl

theorem setWidth_lowBits {m n : Nat} (le : m ≤ n) (f : Nat → Bool) :
    (lowBits n f).setWidth m = lowBits m f := by
  refine BitVec.eq_of_getLsbD_eq fun i below => ?_
  rw [BitVec.getLsbD_setWidth, getLsbD_lowBits, getLsbD_lowBits, decide_eq_true below,
    decide_eq_true (lt_of_lt_of_le below le), Bool.true_and]

theorem toNat_lowBits_succ (n : Nat) (f : Nat → Bool) :
    (lowBits (n + 1) f).toNat = 2 ^ n * (f n).toNat + (lowBits n f).toNat := by
  have top : lowBits (n + 1) f = BitVec.cons (f n) (lowBits n f) := by
    refine lowBits_eq fun i below => ?_
    rw [BitVec.getLsbD_cons, getLsbD_lowBits]
    split
    · next eq => rw [eq]
    · next ne => rw [decide_eq_true (by omega), Bool.true_and]
  rw [top, BitVec.toNat_cons', Nat.shiftLeft_eq, Nat.mul_comm]

theorem toNat_lowBits_add (m n : Nat) (f : Nat → Bool) :
    (lowBits (n + m) f).toNat = (lowBits n f).toNat + 2 ^ n * (lowBits m fun i => f (n + i)).toNat := by
  induction m with
  | zero =>
      have empty : (lowBits 0 fun i => f (n + i)).toNat = 0 := Nat.lt_one_iff.mp (BitVec.isLt _)
      rw [empty, Nat.mul_zero, Nat.add_zero, Nat.add_zero]
  | succ m ih => rw [← Nat.add_assoc, toNat_lowBits_succ, ih, toNat_lowBits_succ, Nat.pow_add]; ring

theorem toNat_lowBits_digits {c : Nat} (pos : 0 < c) (x : Nat → BitVec c) (m : Nat) :
    (lowBits (m * c) fun k => (x (k / c)).getLsbD (k % c)).toNat =
      ∑ j ∈ Finset.range m, (x j).toNat * (2 ^ c) ^ j := by
  induction m with
  | zero =>
      rw [Finset.range_zero, Finset.sum_empty, Nat.zero_mul]
      exact congrArg BitVec.toNat (BitVec.eq_nil (lowBits 0 _))
  | succ m ih =>
      have digit : (lowBits c fun i => (x ((m * c + i) / c)).getLsbD ((m * c + i) % c)) = x m := by
        refine lowBits_eq fun i below => ?_
        rw [Nat.mul_comm, Nat.mul_add_div pos, Nat.div_eq_of_lt below, Nat.add_zero, Nat.mul_add_mod,
          Nat.mod_eq_of_lt below]
      rw [Nat.succ_mul, toNat_lowBits_add, ih, digit, Finset.sum_range_succ, ← Nat.pow_mul, Nat.mul_comm c m,
        Nat.mul_comm (x m).toNat]

theorem toNat_eq_digits {c m : Nat} (pos : 0 < c) (x : BitVec (m * c)) :
    x.toNat = ∑ j ∈ Finset.range m, (x.extractLsb' (j * c) c).toNat * (2 ^ c) ^ j := by
  rw [← toNat_lowBits_digits pos fun j => x.extractLsb' (j * c) c]
  refine congrArg BitVec.toNat (lowBits_eq fun k _ => ?_).symm
  have position : k / c * c + k % c = k := by rw [Nat.mul_comm]; exact Nat.div_add_mod k c
  rw [BitVec.getLsbD_extractLsb', decide_eq_true (Nat.mod_lt k pos), Bool.true_and, position]

/-- Numbers that differ only in bits whose weights are multiples of `w` are the same modulo `w`. -/
theorem mod_two_pow_modEq {w x y : Nat} (n : Nat) (weights : ∀ i < n, x.testBit i ≠ y.testBit i → w ∣ 2 ^ i) :
    x % 2 ^ n ≡ y % 2 ^ n [MOD w] := by
  induction n with
  | zero => rw [Nat.pow_zero, Nat.mod_one, Nat.mod_one]
  | succ n ih =>
      rw [Nat.mod_pow_succ, Nat.mod_pow_succ, ← Nat.toNat_testBit, ← Nat.toNat_testBit]
      refine Nat.ModEq.add (ih fun i below => weights i (Nat.lt_succ_of_lt below)) ?_
      by_cases top : x.testBit n = y.testBit n
      · rw [top]
      · have multiple := weights n (Nat.lt_succ_self n) top
        exact ((Nat.modEq_zero_iff_dvd.mpr (multiple.mul_right _)).trans
          (Nat.modEq_zero_iff_dvd.mpr (multiple.mul_right _)).symm)

/-- The sum at a position into which the carry is `c`. -/
def sumBit (a b c : Bool) : Bool := (a ^^ b) ^^ c

def carryBit (a b c : Bool) : Bool := (a && b) || ((a || b) && c)

theorem carryBit_eq (a b c : Bool) : carryBit a b c = Bool.atLeastTwo a b c := by
  cases a <;> cases b <;> cases c <;> rfl

/-- The carry into position `i` of a ripple carry adder that begins with the carry `c`. -/
def carryInto (c : Bool) (f g : Nat → Bool) : Nat → Bool
  | 0 => c
  | i + 1 => carryBit (f i) (g i) (carryInto c f g i)

theorem carryInto_eq {n : Nat} (c : Bool) (f g : Nat → Bool) {i : Nat} (le : i ≤ n) :
    carryInto c f g i = BitVec.carry i (lowBits n f) (lowBits n g) c := by
  induction i with
  | zero => rw [carryInto, BitVec.carry_zero]
  | succ i ih =>
      have below : i < n := le
      rw [carryInto, carryBit_eq, BitVec.carry_succ, ← ih (le_of_lt below), getLsbD_lowBits,
        getLsbD_lowBits, decide_eq_true below, Bool.true_and, Bool.true_and]

theorem carryInto_congr {n : Nat} (c : Bool) {f f' g g' : Nat → Bool} (sameF : ∀ i < n, f i = f' i)
    (sameG : ∀ i < n, g i = g' i) : carryInto c f g n = carryInto c f' g' n := by
  induction n with
  | zero => rfl
  | succ n ih =>
      rw [carryInto, carryInto, sameF n n.lt_succ_self, sameG n n.lt_succ_self,
        ih (fun i below => sameF i (by omega)) fun i below => sameG i (by omega)]

theorem carryInto_add (c : Bool) (f g : Nat → Bool) (n i : Nat) :
    carryInto c f g (n + i) =
      carryInto (carryInto c f g n) (fun j => f (n + j)) (fun j => g (n + j)) i := by
  induction i with
  | zero => rfl
  | succ i ih => rw [← Nat.add_assoc, carryInto, carryInto, ih]

theorem lowBits_sumBit (n : Nat) (c : Bool) (f g : Nat → Bool) :
    lowBits n (fun i => sumBit (f i) (g i) (carryInto c f g i)) =
      lowBits n f + lowBits n g + (BitVec.ofBool c).setWidth n := by
  refine lowBits_eq fun i below => ?_
  rw [BitVec.getLsbD_add_add_bool below, ← carryInto_eq c f g (le_of_lt below), getLsbD_lowBits,
    getLsbD_lowBits, decide_eq_true below, Bool.true_and, Bool.true_and]
  unfold sumBit
  rw [Bool.xor_assoc]

end Ahir.Data
