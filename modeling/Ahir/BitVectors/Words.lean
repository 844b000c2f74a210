import Ahir.BitVectors.Arithmetic

/-!
# Vectors and 64-bit words

A vector is read into a `uint64_t` and written from one byte by byte.  The bytes that
are read are whole, and at most eight are written.
-/

set_option autoImplicit false

namespace Ahir.BitVectors
open Ahir.Data

namespace BitVector

/-! ### Reading with the sign -/

/-- A negative vector whose last byte has ones above it. -/
def TopFilled (v : BitVector) : Prop :=
  v.signBit = true → ∀ i, v.width ≤ i → i < 8 * nbytes v.width → v.bit i = true

/-- `bit_vector_to_uint64` gives the two's complement of the signed number. -/
def ReadsSigned (v : BitVector) : Prop := toUint64 true v = BitVec.ofInt 64 v.signedNumber

theorem msb_residue (v : BitVector) : (v.residue v.width).msb = v.signBit := by
  have pos := v.width_pos
  rw [BitVec.msb_eq_getLsbD_last, BitVector.residue, getLsbD_lowBits, decide_eq_true (by omega), Bool.true_and,
    signBit_eq]

theorem getLsbD_ofInt_signedNumber (v : BitVector) {k : Nat} (below : k < 64) :
    (BitVec.ofInt 64 v.signedNumber).getLsbD k = if k < v.width then v.bit k else v.signBit := by
  have extended : BitVec.ofInt 64 v.signedNumber = (v.residue v.width).signExtend 64 := rfl
  rw [extended, BitVec.getLsbD_signExtend, decide_eq_true below, Bool.true_and, msb_residue]
  by_cases inside : k < v.width
  · rw [if_pos inside, if_pos inside, BitVector.residue, getLsbD_lowBits, decide_eq_true inside, Bool.true_and]
  · rw [if_neg inside, if_neg inside]

theorem readsSigned_iff (v : BitVector) (narrow : v.width ≤ 64) : v.ReadsSigned ↔ v.TopFilled := by
  have bounds := nbytes_bounds v.width
  constructor
  · intro reads minus i above inside
    have bit := congrArg (fun word => word.getLsbD i) reads
    have below : i < 64 := by omega
    rw [getLsbD_ofInt_signedNumber v below, if_neg (by omega), BitVector.toUint64, minus, Bool.and_self, if_pos rfl,
      getLsbD_unpack _ _ below, if_pos (by omega)] at bit
    exact bit
  · intro filled
    refine BitVec.eq_of_getLsbD_eq fun k below => ?_
    rw [getLsbD_ofInt_signedNumber v below]
    by_cases inside : k < v.width
    · rw [if_pos inside, getLsbD_toUint64 _ _ below inside]
    · rw [if_neg inside]
      cases sign : v.signBit with
      | false => exact getLsbD_toUint64_of_le (by rw [sign, Bool.and_false]) below (by omega)
      | true =>
          rw [BitVector.toUint64, sign, Bool.and_self, if_pos rfl, getLsbD_unpack _ _ below, sign, Bool.and_self]
          split_ifs with byte
          · exact filled sign k (by omega) (by omega)
          · rfl

/-! ### Division and casts -/

theorem signedNumber_eq_zero {v : BitVector} : v.signedNumber = 0 ↔ v.number = 0 := by
  have zero : (v.residue v.width).toInt = 0 ↔ v.residue v.width = BitVec.ofNat v.width 0 := by
    rw [← BitVec.toInt_inj, BitVec.toInt_zero]
  rw [BitVector.signedNumber, zero, BitVector.number, ← BitVec.toNat_inj, BitVec.toNat_ofNat, Nat.zero_mod]

theorem toInt_toUint64 {v : BitVector} (reads : v.ReadsSigned) (narrow : v.width ≤ 64) :
    (toUint64 true v).toInt = v.signedNumber := by
  have extended : BitVec.ofInt 64 v.signedNumber = (v.residue v.width).signExtend 64 := rfl
  rw [reads, extended, BitVec.toInt_signExtend_of_le narrow]
  rfl

/-- The least 64-bit integer and minus one, whose quotient is no 64-bit integer. -/
def Overflows (r s : BitVector) : Prop := r.signedNumber = -2 ^ 63 ∧ s.signedNumber = -1

theorem sdiv_exact {r s : BitVector} (t : BitVector) {w : Nat} (widthR : r.width = w) (widthS : s.width = w)
    (widthT : t.width = w) (narrow : w ≤ 64) (readsR : r.ReadsSigned) (readsS : s.ReadsSigned)
    (fits : ¬ Overflows r s) :
    ∃ q, sdiv r s t = some q ∧ q.IsModulo w (r.signedNumber.tdiv s.signedNumber) := by
  have op1 := toInt_toUint64 readsR (by omega)
  have op2 := toInt_toUint64 readsS (by omega)
  have stays : ¬ (toUint64 true r = BitVec.intMin 64 ∧ toUint64 true s = -1) := by
    rintro ⟨least, minusOne⟩
    refine fits ⟨?_, ?_⟩
    · rw [← op1, least]
      decide
    · rw [← op2, minusOne]
      decide
  refine ⟨_, if_neg stays, (has_pack _ widthT narrow).isModulo ?_⟩
  rw [lowBits_getLsbD_setWidth, BitVec.toNat_setWidth, Int.natCast_emod, ← toInt_emod,
    BitVec.toInt_sdiv_of_ne_or_ne _ _ (by rwa [← not_and_or]), op1, op2]
  push_cast
  exact Int.emod_emod_of_dvd _ (pow_dvd_pow 2 narrow)

theorem cast_signedNumber (dest src : BitVector) (wider : src.width ≤ dest.width) :
    (cast true dest src).signedNumber = src.signedNumber := by
  have width := width_cast true dest src
  have extended : (cast true dest src).residue dest.width = (src.residue src.width).signExtend dest.width := by
    refine lowBits_eq fun i below => ?_
    rw [(cast_spec true dest src below).1, BitVec.getLsbD_signExtend, decide_eq_true below, Bool.true_and, msb_residue]
    by_cases inside : i < src.width
    · rw [if_pos inside, if_pos inside, BitVector.residue, getLsbD_lowBits, decide_eq_true inside,
        Bool.true_and, Bool.true_and]
    · rw [if_neg inside, if_neg inside, Bool.true_and]
  unfold BitVector.signedNumber
  rw [width, extended, BitVec.toInt_signExtend_of_le wider]

/-- The signed reading of two vectors and what is built on it: their quotient, truncated to
the width, and the casts of the first. -/
structure SignedExact (r s t : BitVector) : Prop where
  dividend : r.ReadsSigned
  divisor : s.ReadsSigned
  quotient : s.number ≠ 0 →
    ∃ q, sdiv r s t = some q ∧ q.IsModulo t.width (r.signedNumber.tdiv s.signedNumber)
  casts : ∀ dest : BitVector, r.width ≤ dest.width → (cast true dest r).signedNumber = r.signedNumber

theorem signedExact_iff {w : Nat} (r s t : BitVector) (widthR : r.width = w) (widthS : s.width = w)
    (widthT : t.width = w) (narrow : w ≤ 64) :
    SignedExact r s t ↔ r.TopFilled ∧ s.TopFilled ∧ ¬ Overflows r s := by
  rw [← readsSigned_iff r (by omega), ← readsSigned_iff s (by omega)]
  constructor
  · intro isExact
    refine ⟨isExact.dividend, isExact.divisor, ?_⟩
    rintro ⟨least, minusOne⟩
    have nonzero : s.number ≠ 0 := fun isZero => by
      rw [← signedNumber_eq_zero, minusOne] at isZero
      cases isZero
    obtain ⟨q, quotient, -⟩ := isExact.quotient nonzero
    have stops : sdiv r s t = none := by
      refine if_pos ⟨?_, ?_⟩
      · rw [show toUint64 true r = _ from isExact.dividend, least]
        rfl
      · rw [show toUint64 true s = _ from isExact.divisor, minusOne]
        rfl
    rw [stops] at quotient
    cases quotient
  · rintro ⟨readsR, readsS, fits⟩
    refine ⟨readsR, readsS, fun _ => ?_, fun dest wider => cast_signedNumber dest r wider⟩
    rw [widthT]
    exact sdiv_exact t widthR widthS widthT narrow readsR readsS fits

theorem signedExact_sixteen :
    let r : BitVector := ⟨16, [249, 255], [0, 0], rfl, rfl, by decide⟩
    let s : BitVector := ⟨16, [2, 0], [0, 0], rfl, rfl, by decide⟩
    SignedExact r s r := by
  intro r s
  refine (signedExact_iff (w := 16) r s r rfl rfl rfl (by decide)).mpr ⟨?_, ?_, ?_⟩
  · intro _ i above inside
    have width : r.width = 16 ∧ nbytes r.width = 2 := by decide
    omega
  · intro _ i above inside
    have width : s.width = 16 ∧ nbytes s.width = 2 := by decide
    omega
  · rintro ⟨-, minusOne⟩
    revert minusOne
    decide

/-- In twelve bits minus one is read with zeros above bit eleven. -/
theorem not_signedExact_twelve :
    let v : BitVector := ⟨12, [255, 15], [0, 0], rfl, rfl, by decide⟩
    v.signedNumber = -1 ∧ toUint64 true v = 0xffffffffffff0fff#64 ∧ ¬ SignedExact v v v := by
  intro v
  have word : toUint64 true v = 0xffffffffffff0fff#64 := by decide
  refine ⟨by decide, word, fun isExact => ?_⟩
  have reads := isExact.dividend
  rw [BitVector.ReadsSigned, word] at reads
  revert reads
  decide

/-! ### Writing a word -/

/-- `pack_uint64_into_bit_vector` with its `def_byte`. -/
def packUint64 (signed : Bool) (word : BitVec 64) (bv : BitVector) : BitVector :=
  let negFlag := signed && word.getLsbD 63
  let defByte : Byte := if negFlag then 255 else 0
  let packed : Nat → Byte := fun i =>
    if negFlag then word.extractLsb' (8 * i) 8 &&& defByte else word.extractLsb' (8 * i) 8 ||| defByte
  (bv.withBytes (fun i => if i < 8 then packed i else bv.getByte i)
    fun i => if i < 8 then 0 else bv.getUndefinedByte i).clearUnusedBits

/-- `bit_vector_assign_uint64` -/
def assignUint64 (signed : Bool) (dest : BitVector) (src : BitVec 64) : BitVector := packUint64 signed src dest

theorem assignUint64_eq_pack (signed : Bool) (dest : BitVector) (src : BitVec 64) :
    assignUint64 signed dest src = pack src dest := by
  unfold assignUint64 packUint64 pack
  cases signed && src.getLsbD 63 with
  | false =>
      have kept : ∀ byte : Byte, byte ||| 0 = byte := fun _ => BitVec.or_zero
      simp only [Bool.false_eq_true, if_false, kept]
  | true =>
      have ones : (255 : Byte) = BitVec.allOnes 8 := rfl
      simp only [if_true, ones, BitVec.and_allOnes]

theorem bit_assignUint64_of_le (signed : Bool) (dest : BitVector) (src : BitVec 64) {i : Nat} (above : 64 ≤ i)
    (below : i < dest.width) : (assignUint64 signed dest src).bit i = dest.bit i := by
  rw [assignUint64_eq_pack, bit_pack _ _ below, if_neg (by omega)]

/-- What is assigned is the word, cut to the width or extended to it, whatever the vector
had before, and it can be read back. -/
structure AssignsWord (signed : Bool) (v : BitVector) (x : BitVec 64) : Prop where
  cut : v.width ≤ 64 → (assignUint64 signed v x).number = x.toNat % 2 ^ v.width
  extended : 64 < v.width → (assignUint64 signed v x).residue v.width =
    if signed then x.signExtend v.width else x.setWidth v.width
  defined : ∀ i < nbytes v.width, (assignUint64 signed v x).getUndefinedByte i = 0
  written : ∀ v' : BitVector, v'.width = v.width →
    (assignUint64 signed v' x).bytes = (assignUint64 signed v x).bytes ∧
      (assignUint64 signed v' x).undefinedBytes = (assignUint64 signed v x).undefinedBytes
  readBack : (toUint64 false (assignUint64 signed v x)).toNat = x.toNat % 2 ^ min v.width 64

theorem bytes_pack_congr {v v' : BitVector} (x : BitVec 64) (same : v'.width = v.width) (narrow : v.width ≤ 64) :
    (pack x v').bytes = (pack x v).bytes ∧ (pack x v').undefinedBytes = (pack x v).undefinedBytes := by
  obtain ⟨w, bytes, undefinedBytes, length, lengthUndefined, pos⟩ := v
  obtain ⟨w', bytes', undefinedBytes', length', lengthUndefined', pos'⟩ := v'
  cases same
  have few : nbytes w ≤ 8 := by
    have bounds := nbytes_bounds w
    dsimp only at narrow
    omega
  have word : ∀ other : Nat → Byte, (List.range (nbytes w)).map (fun i => if i < 8 then x.extractLsb' (8 * i) 8 else other i) =
      (List.range (nbytes w)).map fun i => x.extractLsb' (8 * i) 8 := fun other =>
    List.map_congr_left fun i member => if_pos (lt_of_lt_of_le (List.mem_range.mp member) few)
  have flags : ∀ other : Nat → Byte, (List.range (nbytes w)).map (fun i => if i < 8 then (0 : Byte) else other i) =
      (List.range (nbytes w)).map fun _ => 0 := fun other =>
    List.map_congr_left fun i member => if_pos (lt_of_lt_of_le (List.mem_range.mp member) few)
  unfold pack withBytes clearUnusedBits
  dsimp only
  split_ifs <;> simp only [word, flags, and_self]

theorem number_pack (x : BitVec 64) {v : BitVector} (narrow : v.width ≤ 64) :
    (pack x v).number = x.toNat % 2 ^ v.width := by
  rw [BitVector.number, width_pack, (has_pack x rfl narrow).residue, lowBits_getLsbD_setWidth, BitVec.toNat_setWidth]

/-- Up to eight bytes the whole vector is written, and of a longer one the rest is kept. -/
theorem assignsWord_iff (signed : Bool) (v : BitVector) (x : BitVec 64) : AssignsWord signed v x ↔ v.width ≤ 64 := by
  constructor
  · intro assigns
    by_contra wide
    -- bit 64 is in a byte that is not written
    have flipped := (assigns.written (v.setBit 64 (!v.bit 64)) (width_setBit _ _ _)).1
    have bits : (assignUint64 signed (v.setBit 64 (!v.bit 64)) x).bit 64 = (assignUint64 signed v x).bit 64 :=
      congrArg (fun bytes => bitAt bytes 64) flipped
    rw [bit_assignUint64_of_le _ _ _ (Nat.le_refl _) (by rw [width_setBit]; omega),
      bit_assignUint64_of_le _ _ _ (Nat.le_refl _) (by omega), bit_setBit, if_pos ⟨rfl, by omega⟩] at bits
    exact Bool.not_ne_self _ bits
  · intro narrow
    have read : (toUint64 false (pack x v)).toNat = x.toNat % 2 ^ v.width :=
      (toNat_toUint64_false _ (by rwa [width_pack])).trans (number_pack x narrow)
    refine ⟨fun _ => ?_, fun wide => absurd narrow (by omega), fun i inside => ?_, fun v' same => ?_, ?_⟩
    · rw [assignUint64_eq_pack, number_pack x narrow]
    · rw [assignUint64_eq_pack]
      refine BitVec.eq_of_getLsbD_eq fun j below => ?_
      have bounds := nbytes_bounds v.width
      have flag : (pack x v).undefinedBit (8 * i + j) = false := by
        unfold pack
        rw [undefinedBit_clearUnusedBits, undefinedBit_withBytes _ _ _ (by omega), if_pos (by omega), getLsbD_ofNat_zero]
      rw [getLsbD_ofNat_zero, ← flag, ← getLsbD_getUndefinedByte, show (8 * i + j) / 8 = i by omega,
        show (8 * i + j) % 8 = j by omega]
    · rw [assignUint64_eq_pack, assignUint64_eq_pack]
      exact bytes_pack_congr x same narrow
    · rw [assignUint64_eq_pack, read, Nat.min_eq_left narrow]

/-- Nine bytes of ones stay a large number when one is assigned. -/
theorem not_assignsWord_seventyTwo :
    let v : BitVector := ⟨72, List.replicate 9 255, List.replicate 9 0, rfl, rfl, by decide⟩
    (assignUint64 false v 1).bytes = [1, 0, 0, 0, 0, 0, 0, 0, 255] ∧ ¬ AssignsWord false v 1 := by
  intro v
  refine ⟨by decide, fun assigns => ?_⟩
  have wide : 64 < v.width := by decide
  have kept : ((assignUint64 false v 1).residue v.width).getLsbD 64 = true := by
    rw [BitVector.residue, getLsbD_lowBits, decide_eq_true wide, Bool.true_and,
      bit_assignUint64_of_le _ _ _ (Nat.le_refl _) wide]
    decide
  rw [assigns.extended wide, if_neg Bool.false_ne_true, BitVec.getLsbD_setWidth, BitVec.getLsbD_of_ge _ _ (Nat.le_refl _),
    Bool.and_false] at kept
  cases kept

end BitVector
end Ahir.BitVectors
