import Ahir.BitVectors.Words

/-!
# Tests and comparisons

`bit_vector_is_zero` masks every byte, and the mask of the last one need not be that of
the width.  `bit_vector_compare` goes down the bits, and `uint64_compare` compares words.
-/

set_option autoImplicit false

namespace Ahir.BitVectors
open Ahir.Data

namespace BitVector

/-! ### Zero -/

/-- `bmask` of a byte; `cW` counts in a `uint8_t`. -/
def zeroMask (width i : Nat) : Byte :=
  let cW := 8 * (i + 1) % 256
  let validBitCount := if cW ≤ width then 8 else cW % width
  (255 : Byte) >>> (8 - validBitCount)

/-- `bit_vector_is_zero` -/
def isZero (t : BitVector) : Bool :=
  (List.range (nbytes t.width)).all fun i => decide (zeroMask t.width i &&& t.getByte i = 0)

/-- So many of the lowest bits are looked at. -/
def seenBits (w : Nat) : Nat :=
  if w % 8 = 0 ∨ 248 < w then 8 * nbytes w else 8 * (w / 8) + (8 - w % 8) % w

theorem getLsbD_zeroMask {w i j : Nat} (pos : 0 < w) (inside : i < nbytes w) (below : j < 8) :
    (zeroMask w i).getLsbD j = decide (8 * i + j < seenBits w) := by
  have bounds := nbytes_bounds w
  unfold zeroMask seenBits
  dsimp only
  rw [getLsbD_ones_shiftRight]
  refine decide_eq_decide.mpr ?_
  by_cases whole : w % 8 = 0 ∨ 248 < w
  · rw [if_pos whole, if_pos (by omega)]
    omega
  · rw [if_neg whole]
    push Not at whole
    by_cases last : i = w / 8
    · -- the count is past the width by the bits that the byte has too many
      have rest : 8 * (i + 1) % 256 % w = (8 - w % 8) % w := by
        rw [show 8 * (i + 1) % 256 = (8 - w % 8) + w by omega, Nat.add_mod_right]
      have small : (8 - w % 8) % w ≤ 8 - w % 8 := Nat.mod_le _ _
      rw [if_neg (by omega), rest, last]
      omega
    · rw [if_pos (by omega)]
      omega

theorem testBit_number {t : BitVector} (canonical : t.Canonical) (k : Nat) : t.number.testBit k = t.bit k := by
  rw [BitVector.number, ← BitVec.getLsbD, BitVector.residue, getLsbD_lowBits]
  by_cases inside : k < t.width
  · rw [decide_eq_true inside, Bool.true_and]
  · rw [decide_eq_false inside, Bool.false_and, canonical k (by omega)]

theorem number_mod_eq_zero {t : BitVector} (canonical : t.Canonical) (n : Nat) :
    t.number % 2 ^ n = 0 ↔ ∀ k < n, t.bit k = false := by
  constructor
  · intro zero k below
    have bit := Nat.testBit_mod_two_pow t.number n k
    rwa [zero, Nat.zero_testBit, decide_eq_true below, Bool.true_and, testBit_number canonical, eq_comm] at bit
  · intro clear
    refine Nat.eq_of_testBit_eq fun k => ?_
    rw [Nat.testBit_mod_two_pow, Nat.zero_testBit, testBit_number canonical]
    by_cases below : k < n
    · rw [clear k below, Bool.and_false]
    · rw [decide_eq_false below, Bool.false_and]

theorem isZero_iff {t : BitVector} (canonical : t.Canonical) : t.isZero = true ↔ t.number % 2 ^ seenBits t.width = 0 := by
  have seen : seenBits t.width ≤ 8 * nbytes t.width := by
    have bounds := nbytes_bounds t.width
    have small : (8 - t.width % 8) % t.width ≤ 8 - t.width % 8 := Nat.mod_le _ _
    unfold seenBits
    split_ifs <;> omega
  rw [number_mod_eq_zero canonical, BitVector.isZero, List.all_eq_true]
  constructor
  · intro bytes k below
    have byte := of_decide_eq_true (bytes (k / 8) (List.mem_range.mpr (by omega)))
    have bit := congrArg (fun b : Byte => b.getLsbD (k % 8)) byte
    rwa [BitVec.getLsbD_and, getLsbD_zeroMask t.width_pos (by omega) (Nat.mod_lt _ (by decide)), Nat.div_add_mod,
      decide_eq_true below, Bool.true_and, getLsbD_getByte, getLsbD_ofNat_zero] at bit
  · intro clear i member
    have inside := List.mem_range.mp member
    refine decide_eq_true (BitVec.eq_of_getLsbD_eq fun j below => ?_)
    rw [BitVec.getLsbD_and, getLsbD_zeroMask t.width_pos inside below, getLsbD_ofNat_zero, getLsbD_getByte_mul_add _ _ _ below]
    by_cases looked : 8 * i + j < seenBits t.width
    · rw [clear _ looked, Bool.and_false]
    · rw [decide_eq_false looked, Bool.false_and]

theorem le_seenBits_iff {w : Nat} (pos : 0 < w) : w ≤ seenBits w ↔ w % 8 = 0 ∨ 248 < w ∨ 8 < w ∧ w % 8 ≤ 4 := by
  have bounds := nbytes_bounds w
  unfold seenBits
  by_cases whole : w % 8 = 0 ∨ 248 < w
  · rw [if_pos whole]
    omega
  · rw [if_neg whole]
    push Not at whole
    by_cases short : w < 8
    · have less : (8 - w % 8) % w < w := Nat.mod_lt _ pos
      omega
    · rw [Nat.mod_eq_of_lt (a := 8 - w % 8) (by omega)]
      omega

/-- The test is right when the masks reach all of the width, and else when a bit that is set
is among those that they reach. -/
theorem isZero_exact_iff (t : BitVector) (canonical : t.Canonical) :
    (t.isZero = true ↔ t.number = 0) ↔
      (t.width % 8 = 0 ∨ 248 < t.width ∨ 8 < t.width ∧ t.width % 8 ≤ 4) ∨ t.number = 0 ∨
        t.number % 2 ^ seenBits t.width ≠ 0 := by
  rw [isZero_iff canonical, ← le_seenBits_iff t.width_pos]
  constructor
  · intro isExact
    by_cases zero : t.number = 0
    · exact Or.inr (Or.inl zero)
    · exact Or.inr (Or.inr (mt isExact.mp zero))
  · rintro (all | zero | seen)
    · have fits : t.number < 2 ^ seenBits t.width :=
        lt_of_lt_of_le (BitVec.isLt _) (Nat.pow_le_pow_right Nat.two_pos all)
      rw [Nat.mod_eq_of_lt fits]
    · rw [zero, Nat.zero_mod]
    · exact ⟨fun unseen => absurd unseen seen, fun zero => absurd (by rw [zero, Nat.zero_mod]) seen⟩

theorem isZero_exact_twelve :
    let t : BitVector := ⟨12, [0, 8], [0, 0], rfl, rfl, by decide⟩
    t.isZero = true ↔ t.number = 0 := by
  intro t
  exact (isZero_exact_iff t (canonical_of_bytes t (by decide))).mpr (Or.inl (by decide))

/-- Sixteen in five bits is taken for zero: three of the bits are looked at. -/
theorem isZero_sixteen :
    let t : BitVector := ⟨5, [16], [0], rfl, rfl, by decide⟩
    t.Canonical ∧ t.number = 16 ∧ t.isZero = true ∧ ¬ (t.isZero = true ↔ t.number = 0) := by
  intro t
  exact ⟨canonical_of_bytes t (by decide), by decide⟩

/-! ### Order -/

def Compared.ofInts (x y : Int) : Compared := if x < y then .isLess else if y < x then .isGreater else .isEqual

theorem Compared.ofInts_of_lt {x y : Int} (less : x < y) : Compared.ofInts x y = .isLess := if_pos less

theorem Compared.ofInts_of_gt {x y : Int} (greater : y < x) : Compared.ofInts x y = .isGreater := by
  rw [Compared.ofInts, if_neg (by omega), if_pos greater]

theorem Compared.ofInts_add (x y c : Int) : Compared.ofInts (x + c) (y + c) = Compared.ofInts x y := by
  unfold Compared.ofInts
  simp only [Int.add_lt_add_iff_right]

/-- `uint64_compare`; a word that is shifted by 64 stays, as the amount has six bits. -/
def uint64Compare (signed : Bool) (a b : BitVec 64) (width : Nat) : Compared :=
  let width := if 64 < width then 64 else width
  let sa := signed && a.getLsbD (width - 1)
  let sb := signed && b.getLsbD (width - 1)
  if sa && !sb then .isLess
  else if !sa && sb then .isGreater
  else
    let signExtendMask := BitVec.allOnes 64 <<< (width % 64)
    let a := if sa then a ||| signExtendMask else a
    let b := if sb then b ||| signExtendMask else b
    if a = b then .isEqual
    else if a < b then if sa && sb then .isGreater else .isLess
    else if sa && sb then .isLess else .isGreater

theorem ofInts_top (n : Nat) (f g : Nat → Bool) :
    Compared.ofInts (lowBits (n + 1) f).toNat (lowBits (n + 1) g).toNat =
      if f n && !g n then .isGreater else if g n && !f n then .isLess
      else Compared.ofInts (lowBits n f).toNat (lowBits n g).toNat := by
  have lessF : (lowBits n f).toNat < 2 ^ n := BitVec.isLt _
  have lessG : (lowBits n g).toNat < 2 ^ n := BitVec.isLt _
  rw [toNat_lowBits_succ, toNat_lowBits_succ]
  push_cast
  have top : ((2 : Int) ^ n) = (2 ^ n : Nat) := by push_cast; rfl
  cases f n with
  | false =>
      cases g n with
      | false => simp only [Bool.toNat_false, Nat.cast_zero, mul_zero, zero_add, Bool.false_and, Bool.false_eq_true, if_false]
      | true =>
          rw [Bool.toNat_false, Bool.toNat_true]
          exact Compared.ofInts_of_lt (by omega)
  | true =>
      cases g n with
      | false =>
          rw [Bool.toNat_false, Bool.toNat_true]
          exact Compared.ofInts_of_gt (by omega)
      | true =>
          rw [add_comm _ (Nat.cast _), add_comm _ (Nat.cast _)]
          exact Compared.ofInts_add _ _ _

theorem compareLoop_eq (r s : BitVector) (n : Nat) :
    compareLoop r s n = Compared.ofInts (lowBits n r.getBit).toNat (lowBits n s.getBit).toNat := by
  induction n with
  | zero =>
      have empty : ∀ x : BitVec 0, x.toNat = 0 := fun x => Nat.lt_one_iff.mp x.isLt
      rw [compareLoop, empty, empty]
      rfl
  | succ n ih => rw [compareLoop, ofInts_top, ih]

theorem lowBits_getBit (v : BitVector) : (lowBits v.width v.getBit).toNat = v.number :=
  congrArg BitVec.toNat (lowBits_congr fun _ below => getBit_of_lt below)

theorem signedNumber_eq (v : BitVector) :
    v.signedNumber = if v.signBit then (v.number : Int) - 2 ^ v.width else v.number := by
  rw [BitVector.signedNumber, BitVec.toInt_eq_msb_cond, msb_residue]
  push_cast
  rfl

theorem number_lt (v : BitVector) : (v.number : Int) < 2 ^ v.width := by exact_mod_cast BitVec.isLt _

def expected (signed : Bool) (r s : BitVector) : Compared :=
  if signed then Compared.ofInts r.signedNumber s.signedNumber else Compared.ofInts r.number s.number

section
variable {r s : BitVector} (same : r.width = s.width)
include same

theorem expected_true : expected true r s =
    if r.signBit && !s.signBit then .isLess else if !r.signBit && s.signBit then .isGreater
    else Compared.ofInts r.number s.number := by
  have lessR := number_lt r
  have lessS := number_lt s
  rw [same] at lessR
  rw [expected, if_pos rfl, signedNumber_eq, signedNumber_eq, same]
  cases r.signBit with
  | false =>
      cases s.signBit with
      | false => rfl
      | true =>
          rw [if_neg Bool.false_ne_true, if_pos rfl]
          exact Compared.ofInts_of_gt (by omega)
  | true =>
      cases s.signBit with
      | false =>
          rw [if_neg Bool.false_ne_true, if_pos rfl]
          exact Compared.ofInts_of_lt (by omega)
      | true => exact Compared.ofInts_add r.number s.number (-2 ^ s.width)

theorem compare_exact (signed : Bool) (definedR : r.hasUndefinedBit = false) (definedS : s.hasUndefinedBit = false) :
    compare signed r s = expected signed r s := by
  have loop : compareLoop r s r.width = Compared.ofInts r.number s.number := by
    rw [compareLoop_eq, lowBits_getBit, same, lowBits_getBit]
  unfold BitVector.compare
  rw [definedR, definedS, loop]
  cases signed with
  | false => rfl
  | true =>
      rw [expected_true same]
      rfl

end

/-! ### Words -/

theorem toUint64_of_plus {v : BitVector} {reading : Bool} (plus : (reading && v.signBit) = false) :
    toUint64 reading v = toUint64 false v := by
  refine BitVec.eq_of_getLsbD_eq fun k below => ?_
  by_cases inside : k < v.width
  · rw [getLsbD_toUint64 _ _ below inside, getLsbD_toUint64 _ _ below inside]
  · rw [getLsbD_toUint64_of_le plus below (by omega), getLsbD_toUint64_of_le rfl below (by omega)]

theorem toNat_toUint64_of_plus {v : BitVector} {reading : Bool} (narrow : v.width ≤ 64)
    (plus : (reading && v.signBit) = false) : (toUint64 reading v).toNat = v.number := by
  rw [toUint64_of_plus plus, toNat_toUint64_false v narrow]
  rfl

/-- Below 64 bits the mask makes the word of a negative vector its two's complement. -/
theorem toNat_toUint64_or {v : BitVector} (reading : Bool) (narrow : v.width < 64) (minus : v.signBit = true) :
    (toUint64 reading v ||| BitVec.allOnes 64 <<< v.width).toNat = 2 ^ 64 - 2 ^ v.width + v.number := by
  have word : toUint64 reading v ||| BitVec.allOnes 64 <<< v.width = BitVec.ofInt 64 v.signedNumber := by
    refine BitVec.eq_of_getLsbD_eq fun k below => ?_
    rw [BitVec.getLsbD_or, BitVec.getLsbD_shiftLeft, getLsbD_ofInt_signedNumber v below, decide_eq_true below,
      Bool.true_and, BitVec.getLsbD_allOnes]
    by_cases inside : k < v.width
    · rw [getLsbD_toUint64 _ _ below inside, if_pos inside, decide_eq_true inside, Bool.not_true, Bool.false_and,
        Bool.or_false]
    · rw [if_neg inside, decide_eq_false inside, Bool.not_false, Bool.true_and, decide_eq_true (by omega), Bool.or_true,
        minus]
  have power : (2 : Int) ^ v.width ≤ 2 ^ 64 := by exact_mod_cast Nat.pow_le_pow_right Nat.two_pos narrow.le
  have power' : 2 ^ v.width ≤ 2 ^ 64 := Nat.pow_le_pow_right Nat.two_pos narrow.le
  have less := number_lt v
  have value : (BitVec.ofInt 64 v.signedNumber).toNat = ((v.number : Int) - 2 ^ v.width + 2 ^ 64).toNat := by
    rw [BitVec.toNat_ofInt, signedNumber_eq, minus, if_pos rfl]
    push_cast
    rw [← Int.add_emod_right, Int.emod_eq_of_lt (by omega) (by omega)]
  rw [word, value]
  zify [power', show (0 : Int) ≤ v.number - 2 ^ v.width + 2 ^ 64 by omega]
  rw [Int.toNat_of_nonneg (by omega)]
  omega

theorem ofInts_toNat (a b : BitVec 64) :
    (if a = b then Compared.isEqual else if a < b then .isLess else .isGreater) = Compared.ofInts a.toNat b.toNat := by
  rcases Nat.lt_trichotomy a.toNat b.toNat with less | equal | greater
  · have differ : a ≠ b := fun same => absurd less (by rw [same]; exact Nat.lt_irrefl _)
    rw [if_neg differ, if_pos (show a < b from less), Compared.ofInts_of_lt (by omega)]
  · rw [if_pos (BitVec.eq_of_toNat_eq equal), equal, Compared.ofInts, if_neg (by omega), if_neg (by omega)]
  · have differ : a ≠ b := fun same => absurd greater (by rw [same]; exact Nat.lt_irrefl _)
    rw [if_neg differ, if_neg (show ¬ a < b from Nat.not_lt_of_gt greater), Compared.ofInts_of_gt (by omega)]

theorem ofInts_toNat_swap (a b : BitVec 64) :
    (if a = b then Compared.isEqual else if a < b then .isGreater else .isLess) = Compared.ofInts b.toNat a.toNat := by
  rw [← ofInts_toNat]
  by_cases equal : a = b
  · rw [if_pos equal, if_pos equal.symm]
  · rw [if_neg equal, if_neg (Ne.symm equal)]
    by_cases less : a < b
    · rw [if_pos less, if_neg (show ¬ b < a from Nat.not_lt_of_gt less)]
    · have differ : a.toNat ≠ b.toNat := fun same => equal (BitVec.eq_of_toNat_eq same)
      rw [if_neg less, if_pos (show b < a from lt_of_le_of_ne (Nat.not_lt.mp less) differ.symm)]

theorem Compared.ofInts_comm {x y : Int} : Compared.ofInts y x = Compared.ofInts x y ↔ x = y := by
  constructor
  · intro same
    by_contra differ
    rcases lt_or_gt_of_ne differ with less | greater
    · rw [Compared.ofInts_of_lt less, Compared.ofInts_of_gt less] at same
      cases same
    · rw [Compared.ofInts_of_gt greater, Compared.ofInts_of_lt greater] at same
      cases same
  · rintro rfl
    rfl

theorem Compared.ofInts_eq_isEqual {x y : Int} : Compared.ofInts x y = .isEqual ↔ x = y := by
  unfold Compared.ofInts
  constructor
  · intro equal
    split_ifs at equal with less greater
    omega
  · rintro rfl
    rw [if_neg (lt_irrefl _), if_neg (lt_irrefl _)]

theorem uint64Compare_of_signs {signed sa sb : Bool} {a b : BitVec 64} {width : Nat} (narrow : width ≤ 64)
    (signA : (signed && a.getLsbD (width - 1)) = sa) (signB : (signed && b.getLsbD (width - 1)) = sb) :
    uint64Compare signed a b width =
      let signExtendMask := BitVec.allOnes 64 <<< (width % 64)
      let a := if sa then a ||| signExtendMask else a
      let b := if sb then b ||| signExtendMask else b
      if sa && !sb then .isLess
      else if !sa && sb then .isGreater
      else if a = b then .isEqual
      else if a < b then if sa && sb then .isGreater else .isLess
      else if sa && sb then .isLess else .isGreater := by
  have kept : (if 64 < width then 64 else width) = width := if_neg (by omega)
  unfold uint64Compare
  dsimp only
  rw [kept, signA, signB]

section
variable {r s : BitVector}

theorem sign_toUint64 (signed reading : Bool) (narrow : r.width ≤ 64) :
    (signed && (toUint64 reading r).getLsbD (r.width - 1)) = (signed && r.signBit) := by
  have pos := r.width_pos
  rw [getLsbD_toUint64 _ _ (by omega) (by omega), signBit_eq]

variable (same : r.width = s.width) (narrow : s.width ≤ 64)
include same narrow

theorem signs (signed reading : Bool) :
    (signed && (toUint64 reading r).getLsbD (s.width - 1)) = (signed && r.signBit) := by
  rw [← same]
  exact sign_toUint64 signed reading (by omega)

theorem uint64Compare_plus {signed reading : Bool} (plusR : (signed && r.signBit) = false)
    (plusS : (signed && s.signBit) = false) (read : reading = true → signed = true) :
    uint64Compare signed (toUint64 reading r) (toUint64 reading s) s.width = Compared.ofInts r.number s.number := by
  have readR : (reading && r.signBit) = false := by
    cases reading with
    | false => rfl
    | true => rwa [← read rfl]
  have readS : (reading && s.signBit) = false := by
    cases reading with
    | false => rfl
    | true => rwa [← read rfl]
  rw [uint64Compare_of_signs narrow ((signs same narrow signed reading).trans plusR)
    ((sign_toUint64 signed reading narrow).trans plusS)]
  have order := ofInts_toNat (toUint64 reading r) (toUint64 reading s)
  rw [toNat_toUint64_of_plus (by omega) readR, toNat_toUint64_of_plus narrow readS] at order
  exact order

/-- Two negative words are put the wrong way round, and in 64 bits the mask makes them one. -/
theorem uint64Compare_minus (reading : Bool) (minusR : r.signBit = true) (minusS : s.signBit = true) :
    uint64Compare true (toUint64 reading r) (toUint64 reading s) s.width =
      if s.width = 64 then .isEqual else Compared.ofInts s.number r.number := by
  rw [uint64Compare_of_signs narrow ((signs same narrow true reading).trans minusR)
    ((sign_toUint64 true reading narrow).trans minusS)]
  dsimp only
  by_cases whole : s.width = 64
  · rw [if_pos whole, whole]
    have ones : ∀ a : BitVec 64, a ||| BitVec.allOnes 64 <<< (64 % 64) = BitVec.allOnes 64 := fun a => by
      rw [Nat.mod_self, BitVec.shiftLeft_zero, BitVec.or_allOnes]
    simp only [Bool.and_self, Bool.not_true, Bool.and_false, Bool.false_and, Bool.false_eq_true, if_false, if_true, ones]
  · rw [if_neg whole, Nat.mod_eq_of_lt (by omega)]
    have wordR := toNat_toUint64_or (v := r) reading (by omega) minusR
    have wordS := toNat_toUint64_or (v := s) reading (by omega) minusS
    have order := ofInts_toNat_swap (toUint64 reading r ||| BitVec.allOnes 64 <<< s.width)
      (toUint64 reading s ||| BitVec.allOnes 64 <<< s.width)
    rw [same] at wordR
    rw [wordR, wordS] at order
    rw [Nat.cast_add, Nat.cast_add, add_comm _ (s.number : Int), add_comm _ (r.number : Int),
      Compared.ofInts_add] at order
    exact order

end

/-- The comparison is that of the integers, and up to 64 bits that of the words, which may
have been read with the sign when the comparison is signed. -/
structure CompareExact (signed : Bool) (r s : BitVector) : Prop where
  vectors : compare signed r s = expected signed r s
  words : s.width ≤ 64 → ∀ reading : Bool, (reading = true → signed = true) →
    uint64Compare signed (toUint64 reading r) (toUint64 reading s) s.width = compare signed r s

theorem compareExact_iff (signed : Bool) {r s : BitVector} (same : r.width = s.width)
    (definedR : r.hasUndefinedBit = false) (definedS : s.hasUndefinedBit = false) :
    CompareExact signed r s ↔
      ¬ (s.width ≤ 64 ∧ signed = true ∧ r.signBit = true ∧ s.signBit = true ∧ r.number ≠ s.number) := by
  have vectors := compare_exact same signed definedR definedS
  constructor
  · rintro isExact ⟨narrow, rfl, minusR, minusS, differ⟩
    have words := isExact.words narrow false (fun reads => absurd reads Bool.false_ne_true)
    rw [vectors, expected_true same, minusR, minusS, uint64Compare_minus same narrow false minusR minusS] at words
    change (if s.width = 64 then _ else _) = Compared.ofInts r.number s.number at words
    split_ifs at words with whole
    · exact differ (by exact_mod_cast Compared.ofInts_eq_isEqual.mp words.symm)
    · exact differ (by exact_mod_cast Compared.ofInts_comm.mp words)
  · intro apart
    refine ⟨vectors, fun narrow reading read => ?_⟩
    rw [vectors]
    cases signs : signed with
    | false =>
        subst signs
        rw [uint64Compare_plus same narrow rfl rfl read]
        rfl
    | true =>
        subst signs
        have found := uint64Compare_of_signs narrow (signs same narrow true reading) (sign_toUint64 true reading narrow)
        rw [expected_true same]
        cases minusR : r.signBit with
        | false =>
            cases minusS : s.signBit with
            | false => exact uint64Compare_plus same narrow (by rw [minusR]; rfl) (by rw [minusS]; rfl) read
            | true =>
                rw [minusR, minusS] at found
                exact found
        | true =>
            cases minusS : s.signBit with
            | false =>
                rw [minusR, minusS] at found
                exact found
            | true =>
                have equal : r.number = s.number := by
                  by_contra differ
                  exact apart ⟨narrow, rfl, minusR, minusS, differ⟩
                rw [uint64Compare_minus same narrow reading minusR minusS, equal]
                change _ = Compared.ofInts s.number s.number
                split_ifs with whole
                · exact (Compared.ofInts_eq_isEqual.mpr rfl).symm
                · rfl

theorem compareExact_twelve :
    let r : BitVector := ⟨12, [255, 15], [0, 0], rfl, rfl, by decide⟩
    let s : BitVector := ⟨12, [1, 0], [0, 0], rfl, rfl, by decide⟩
    CompareExact true r s := by
  intro r s
  refine (compareExact_iff true (r := r) (s := s) rfl (by decide) (by decide)).mpr ?_
  rintro ⟨-, -, -, minusS, -⟩
  have plusS : s.signBit = false := by decide
  rw [plusS] at minusS
  cases minusS

/-- In eight bits minus two is found greater than minus one. -/
theorem not_compareExact_eight :
    let r : BitVector := ⟨8, [254], [0], rfl, rfl, by decide⟩
    let s : BitVector := ⟨8, [255], [0], rfl, rfl, by decide⟩
    compare true r s = .isLess ∧ uint64Compare true (toUint64 false r) (toUint64 false s) 8 = .isGreater ∧
      ¬ CompareExact true r s := by
  intro r s
  have less : compare true r s = .isLess := by decide
  have greater : uint64Compare true (toUint64 false r) (toUint64 false s) 8 = .isGreater := by decide +kernel
  refine ⟨less, greater, fun isExact => ?_⟩
  have words := isExact.words (by decide) false (fun reads => absurd reads Bool.false_ne_true)
  rw [less, show s.width = 8 from rfl, greater] at words
  cases words

end BitVector
end Ahir.BitVectors
