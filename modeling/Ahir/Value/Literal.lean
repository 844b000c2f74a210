import Mathlib.Data.List.TakeWhile
import Mathlib.Data.Nat.Digits.Defs
import Ahir.Value.Chain

/-!
# Literals

The text from which a value is initialised.  A text that begins with `_b` or `_h` is
read from its end, digit by digit; every other one is a decimal number, of the size
of an `int`.
-/

set_option autoImplicit false

namespace Ahir.Value
open Ahir.Data

section Atoi

def isSpace (c : Char) : Bool := c == ' ' || (decide (9 ≤ c.toNat) && decide (c.toNat ≤ 13))

def scanned (text : List Char) : Int :=
  match text.dropWhile isSpace with
  | '-' :: rest => -(Nat.ofDigitChars 10 (rest.takeWhile Char.isDigit) 0 : Nat)
  | '+' :: rest => (Nat.ofDigitChars 10 (rest.takeWhile Char.isDigit) 0 : Nat)
  | rest => (Nat.ofDigitChars 10 (rest.takeWhile Char.isDigit) 0 : Nat)

/-- `strtol` keeps to the ends of a `long`. -/
def strtol (text : List Char) : Int := max (-2 ^ 63) (min (scanned text) (2 ^ 63 - 1))

/-- `atoi`, which is `(int) strtol(text, NULL, 10)`. -/
def atoi (text : List Char) : BitVec 32 := BitVec.ofInt 32 (strtol text)

def decimal (z : Int) : List Char :=
  if z < 0 then '-' :: Nat.toDigits 10 z.natAbs else Nat.toDigits 10 z.natAbs

theorem takeWhile_toDigits (n : Nat) : (Nat.toDigits 10 n).takeWhile Char.isDigit = Nat.toDigits 10 n := by
  rw [List.takeWhile_eq_self_iff]
  exact fun c mem => Nat.isDigit_of_mem_toDigits (by decide) (by decide) mem

theorem sign_of_isDigit {c : Char} (digit : c.isDigit = true) : isSpace c = false ∧ c ≠ '-' ∧ c ≠ '+' := by
  have range : 48 ≤ c.toNat ∧ c.toNat ≤ 57 := by
    rw [Char.isDigit, Bool.and_eq_true, decide_eq_true_iff, decide_eq_true_iff] at digit
    exact digit
  have blank : c ≠ ' ' := by
    intro eq
    subst eq
    exact absurd range.1 (by decide)
  refine ⟨?_, ?_, ?_⟩
  · rw [isSpace, beq_eq_false_iff_ne.mpr blank, decide_eq_false (p := c.toNat ≤ 13) (by omega), Bool.and_false,
      Bool.false_or]
  · intro eq
    subst eq
    exact absurd range.1 (by decide)
  · intro eq
    subst eq
    exact absurd range.1 (by decide)

theorem scanned_decimal (z : Int) : scanned (decimal z) = z := by
  have number := Nat.ofDigitChars_ten_toDigits (n := z.natAbs)
  unfold decimal
  by_cases negative : z < 0
  · rw [if_pos negative, scanned, List.dropWhile_cons_of_neg (by decide)]
    simp only [takeWhile_toDigits, number]
    omega
  · obtain ⟨d, ds, eq⟩ := List.exists_cons_of_ne_nil (Nat.toDigits_ne_nil (n := z.natAbs) (b := 10))
    have digit : d.isDigit = true :=
      Nat.isDigit_of_mem_toDigits (n := z.natAbs) (b := 10) (by decide) (by decide) (by rw [eq]; exact List.mem_cons_self)
    obtain ⟨blank, minus, plus⟩ := sign_of_isDigit digit
    have all := takeWhile_toDigits z.natAbs
    rw [if_neg negative, scanned]
    rw [eq] at all number ⊢
    rw [List.dropWhile_cons_of_neg (by rw [blank]; exact Bool.false_ne_true)]
    split
    · next head => exact absurd (List.cons.inj head).1 minus
    · next head => exact absurd (List.cons.inj head).1 plus
    · rw [all, number]
      omega

theorem atoi_decimal {z : Int} (long : -2 ^ 63 ≤ z) (long' : z < 2 ^ 63) : atoi (decimal z) = BitVec.ofInt 32 z := by
  rw [atoi, strtol, scanned_decimal, min_eq_left (by omega), max_eq_right (by omega)]

end Atoi

inductive Format where
  | binary
  | hexadecimal
  | decimal

/-- The `format` of `Initialize_From_String`. -/
def format (initValue : List Char) : Format :=
  if 2 < initValue.length then
    match initValue with
    | '_' :: 'b' :: _ => .binary
    | '_' :: 'h' :: _ => .hexadecimal
    | _ => .decimal
  else .decimal

/-- A case of `Hex_To_Binary`; for an unknown character there is a message. -/
def hexDigit : Char → List Char
  | '0' => ['0', '0', '0', '0']
  | '1' => ['0', '0', '0', '1']
  | '2' => ['0', '0', '1', '0']
  | '3' => ['0', '0', '1', '1']
  | '4' => ['0', '1', '0', '0']
  | '5' => ['0', '1', '0', '1']
  | '6' => ['0', '1', '1', '0']
  | '7' => ['0', '1', '1', '1']
  | '8' => ['1', '0', '0', '0']
  | '9' => ['1', '0', '0', '1']
  | 'a' | 'A' => ['1', '0', '1', '0']
  | 'b' | 'B' => ['1', '0', '1', '1']
  | 'c' | 'C' => ['1', '1', '0', '0']
  | 'd' | 'D' => ['1', '1', '0', '1']
  | 'e' | 'E' => ['1', '1', '1', '0']
  | 'f' | 'F' => ['1', '1', '1', '1']
  | _ => ['0', '0', '0', '0']

def hexToBinary (hexString : List Char) : List Char := '_' :: 'b' :: (hexString.drop 2).flatMap hexDigit

namespace Unsigned

/-- The loop of `Initialize_From_Binary_String` over what is left of the text, from its end. -/
def initializeLoop (this : Unsigned) : Nat → List Char → Unsigned
  | _, [] => this
  | bitCount, c :: rest =>
      let this := this.setBit bitCount (c == '1')
      if bitCount + 1 = this.width then this else initializeLoop this (bitCount + 1) rest

def initializeFromBinaryString (this : Unsigned) (initValue : List Char) : Unsigned :=
  this.initializeLoop 0 (initValue.drop 2).reverse

/-- `AtoI` of the class `Unsigned`, whose constructor runs it for objects of both classes. -/
def atoI (ival : List Char) : UWord := (atoi ival).signExtend 64

def atoU (ival : List Char) : UWord := (atoi ival).setWidth 64

def initializeFromString (kind : Kind) (signExtend : Bool) (n : Nat) (pos : 0 < n) (initValue : List Char) : Unsigned :=
  let this := resetAndClear kind n pos
  match format initValue with
  | .decimal => this.updateFirstWord fun _ => if signExtend then atoI initValue else atoU initValue
  | .hexadecimal => this.initializeFromBinaryString (hexToBinary initValue)
  | .binary => this.initializeFromBinaryString initValue

/-- `Unsigned(n, init_value)` or `Signed(n, init_value)`; the class `Signed` asks for `sign_extend`, which its base drops. -/
def ofString (kind : Kind) (n : Nat) (pos : 0 < n) (initValue : String) : Unsigned :=
  initializeFromString kind false n pos initValue.toList

section Binary
variable (v : Unsigned)

theorem width_initializeLoop (bitCount : Nat) (cs : List Char) :
    (v.initializeLoop bitCount cs).width = v.width ∧ (v.initializeLoop bitCount cs).kind = v.kind := by
  induction cs generalizing v bitCount with
  | nil => exact ⟨rfl, rfl⟩
  | cons c cs ih =>
      rw [initializeLoop]
      split
      · exact ⟨rfl, rfl⟩
      · exact ih (v.setBit bitCount (c == '1')) (bitCount + 1)

theorem getBit_initializeLoop {bitCount : Nat} (below : bitCount < v.width) (cs : List Char) {i : Nat}
    (inside : i < v.width) :
    (v.initializeLoop bitCount cs).getBit i =
      if bitCount ≤ i ∧ i < bitCount + cs.length then cs[i - bitCount]? == some '1' else v.getBit i := by
  induction cs generalizing v bitCount with
  | nil =>
      rw [if_neg (by rw [List.length_nil]; omega)]
      rfl
  | cons c cs ih =>
      have bit := v.getBit_setBit below (c == '1') i
      rw [initializeLoop, List.length_cons]
      by_cases here : bitCount = i
      · have now : (c :: cs)[i - bitCount]? = some c := by rw [here, Nat.sub_self, List.getElem?_cons_zero]
        rw [if_pos here] at bit
        have covered : bitCount ≤ i ∧ i < bitCount + (cs.length + 1) := by omega
        rw [if_pos covered, now]
        split
        · exact bit
        · next more =>
            rw [width_setBit] at more
            rw [ih (v.setBit bitCount (c == '1')) (by rw [width_setBit]; omega) inside, if_neg (by omega)]
            exact bit
      · rw [if_neg here] at bit
        split
        · next full =>
            rw [width_setBit] at full
            rw [if_neg (by omega), bit]
        · next more =>
            rw [width_setBit] at more
            rw [ih (v.setBit bitCount (c == '1')) (by rw [width_setBit]; omega) inside, bit]
            have same : (bitCount + 1 ≤ i ∧ i < bitCount + 1 + cs.length) =
                (bitCount ≤ i ∧ i < bitCount + (cs.length + 1)) := by rw [eq_iff_iff]; omega
            simp only [same]
            by_cases later : bitCount ≤ i
            · rw [show i - bitCount = (i - (bitCount + 1)) + 1 by omega, List.getElem?_cons_succ]
            · rw [if_neg (by omega), if_neg (by omega)]

/-- The digits of a text give the bits from the lowest one on. -/
theorem residue_initializeFromBinaryString (kind : Kind) (n : Nat) (pos : 0 < n) (a b : Char) (cs : List Char) :
    ((resetAndClear kind n pos).initializeFromBinaryString (a :: b :: cs)).residue n =
      lowBits n fun i => cs.reverse[i]? == some '1' := by
  refine lowBits_congr fun i below => ?_
  have drop : (a :: b :: cs).drop 2 = cs := rfl
  rw [initializeFromBinaryString, drop, getBit_initializeLoop _ pos _ below, getBit_resetAndClear]
  by_cases inside : i < cs.reverse.length
  · rw [if_pos (by omega), Nat.sub_zero]
  · rw [if_neg (by omega), List.getElem?_eq_none (by omega)]
    rfl

end Binary

section Hexadecimal

def hexChar (upper : Bool) (d : Fin 16) : Char :=
  if upper then ['0', '1', '2', '3', '4', '5', '6', '7', '8', '9', 'A', 'B', 'C', 'D', 'E', 'F'].getD d '0'
  else ['0', '1', '2', '3', '4', '5', '6', '7', '8', '9', 'a', 'b', 'c', 'd', 'e', 'f'].getD d '0'

def hexText (ds : List (Bool × Fin 16)) : List Char := ds.map fun d => hexChar d.1 d.2

def hexNumber (ds : List (Bool × Fin 16)) : Nat := Nat.ofDigits 16 (ds.reverse.map fun d => d.2.val)

theorem hexDigit_hexChar : ∀ (upper : Bool) (d : Fin 16),
    (hexDigit (hexChar upper d)).reverse =
      [0, 1, 2, 3].map fun i => if d.val.testBit i then '1' else '0' := by
  decide

theorem getElem?_hexText (ds : List (Bool × Fin 16)) (i : Nat) :
    (((hexText ds).flatMap hexDigit).reverse[i]? == some '1') = (hexNumber ds).testBit i := by
  have lowest : ((hexText ds).flatMap hexDigit).reverse =
      ds.reverse.flatMap fun d => (hexDigit (hexChar d.1 d.2)).reverse := by
    rw [hexText, List.flatMap_map, List.reverse_flatMap]
    rfl
  rw [lowest, hexNumber]
  generalize ds.reverse = ds
  -- on the digits from the lowest one on
  induction ds generalizing i with
  | nil => simp
  | cons d ds ih =>
      have value : Nat.ofDigits 16 ((d :: ds).map fun d => d.2.val) =
          2 ^ 4 * Nat.ofDigits 16 (ds.map fun d => d.2.val) + d.2.val := by
        rw [List.map_cons, Nat.ofDigits_cons, Nat.add_comm]
        rfl
      rw [List.flatMap_cons, hexDigit_hexChar, value, Nat.testBit_two_pow_mul_add _ d.2.isLt]
      by_cases low : i < 4
      · rw [if_pos low, List.getElem?_append_left low]
        have : i = 0 ∨ i = 1 ∨ i = 2 ∨ i = 3 := by omega
        obtain rfl | rfl | rfl | rfl := this <;> simp only [List.map_cons, List.getElem?_cons_zero,
          List.getElem?_cons_succ] <;> cases d.2.val.testBit _ <;> rfl
      · have later : 4 ≤ i := by omega
        rw [if_neg low, List.getElem?_append_right later]
        exact ih (i - 4)

end Hexadecimal

section Decimal
variable (v : Unsigned)

theorem residue_updateFirstWord (kind : Kind) (n : Nat) (pos : 0 < n) (word : UWord) :
    ((resetAndClear kind n pos).updateFirstWord fun _ => word).residue n = word.setWidth n := by
  refine lowBits_eq fun i below => ?_
  have room := div_lt_arraySize pos
  rw [BitVec.getLsbD_setWidth, decide_eq_true below, Bool.true_and, getBit, updateFirstWord,
    bitAt_modify (by rw [length_bitField]; exact room)]
  by_cases first : 0 = i / 64
  · rw [if_pos first, Nat.mod_eq_of_lt (by omega)]
  · rw [if_neg first, BitVec.getLsbD_of_ge _ _ (by omega)]
    exact getBit_resetAndClear kind n pos i

theorem residue_eq_ofInt : v.residue v.width = BitVec.ofInt v.width v.number := by
  unfold number
  split
  · rw [BitVec.ofInt_natCast, BitVec.ofNat_toNat, BitVec.setWidth_eq]
  · rw [BitVec.ofInt_toInt]

theorem number_bounds : -2 ^ v.width ≤ v.number ∧ v.number < 2 ^ v.width := by
  have below := (v.residue v.width).isLt
  have cast : ((2 ^ v.width : Nat) : Int) = 2 ^ v.width := by rw [Nat.cast_pow, Nat.cast_ofNat]
  unfold number
  split
  · omega
  · rw [BitVec.toInt_eq_toNat_cond]
    split <;> omega

/-- The word that is made of a number of at most 32 bits. -/
theorem setWidth_atoU {z : Int} {n : Nat} (long : -2 ^ 63 ≤ z) (long' : z < 2 ^ 63)
    (small : n ≤ 32 ∨ 0 ≤ z ∧ z < 2 ^ 32) : (atoU (decimal z)).setWidth n = BitVec.ofInt n z := by
  refine BitVec.eq_of_toNat_eq ?_
  have word : (z % 2 ^ 32).toNat % 2 ^ 64 = (z % 2 ^ 32).toNat := Nat.mod_eq_of_lt (by omega)
  rw [BitVec.toNat_setWidth, atoU, atoi_decimal long long', BitVec.toNat_setWidth, BitVec.toNat_ofInt,
    BitVec.toNat_ofInt, Nat.cast_pow, Nat.cast_pow, Nat.cast_ofNat, word]
  have nonneg : 0 ≤ z % 2 ^ 32 := by omega
  have cut : (z % 2 ^ 32).toNat % 2 ^ n = (z % 2 ^ 32 % 2 ^ n).toNat := by
    rw [Int.toNat_emod nonneg (by positivity)]
    congr 1
  rw [cut]
  cases small with
  | inl narrow => rw [Int.emod_emod_of_dvd z (pow_dvd_pow 2 narrow)]
  | inr inside => rw [Int.emod_eq_of_lt inside.1 inside.2]

end Decimal

/-- A value of the same class and width that is initialised from the text is `v`. -/
structure ReadsBack (v : Unsigned) (initValue : String) : Prop where
  kind : (ofString v.kind v.width v.width_pos initValue).kind = v.kind
  width : (ofString v.kind v.width v.width_pos initValue).width = v.width
  number : (ofString v.kind v.width v.width_pos initValue).number = v.number

/-- What can be read back: binary and hexadecimal digits behind what tells them, and decimals of an `int`. -/
structure LiteralsReadBack (v : Unsigned) : Prop where
  binary : v.ReadsBack ("_b" ++ v.toStr)
  hexadecimal : ∀ ds, ds ≠ [] → hexNumber ds = (v.residue v.width).toNat →
    v.ReadsBack ("_h" ++ String.ofList (hexText ds))
  decimal : v.width ≤ 32 ∨ 0 ≤ v.number ∧ v.number < 2 ^ 32 → v.ReadsBack (String.ofList (decimal v.number))

section ReadsBack
variable (v : Unsigned)

theorem width_ofString (kind : Kind) (n : Nat) (pos : 0 < n) (initValue : String) :
    (ofString kind n pos initValue).width = n ∧ (ofString kind n pos initValue).kind = kind := by
  unfold ofString initializeFromString
  split
  · exact ⟨rfl, rfl⟩
  · exact width_initializeLoop _ _ _
  · exact width_initializeLoop _ _ _

theorem readsBack_of_residue {initValue : String}
    (residue : (ofString v.kind v.width v.width_pos initValue).residue v.width = v.residue v.width) :
    v.ReadsBack initValue := by
  obtain ⟨width, kind⟩ := width_ofString v.kind v.width v.width_pos initValue
  refine ⟨kind, width, ?_⟩
  unfold number
  rw [kind, width, residue]

theorem format_binary {cs : List Char} (nonempty : cs ≠ []) : format ('_' :: 'b' :: cs) = .binary := by
  have := List.length_pos_of_ne_nil nonempty
  rw [format, if_pos (by rw [List.length_cons, List.length_cons]; omega)]

theorem format_hexadecimal {cs : List Char} (nonempty : cs ≠ []) : format ('_' :: 'h' :: cs) = .hexadecimal := by
  have := List.length_pos_of_ne_nil nonempty
  rw [format, if_pos (by rw [List.length_cons, List.length_cons]; omega)]

theorem format_of_head {cs : List Char} (other : cs.head? ≠ some '_') : format cs = .decimal := by
  unfold format
  split
  · split
    · exact absurd rfl other
    · exact absurd rfl other
    · rfl
  · rfl

theorem format_decimal (z : Int) : format (decimal z) = .decimal := by
  apply format_of_head
  unfold Value.decimal
  split
  · simp
  · intro isHead
    have digit : ('_' : Char).isDigit = true :=
      Nat.isDigit_of_mem_toDigits (by decide) (by decide) (List.mem_of_mem_head? isHead)
    exact absurd digit (by decide)

theorem readsBack_binary : v.ReadsBack ("_b" ++ v.toStr) := by
  have pos := v.width_pos
  have text : ("_b" ++ v.toStr).toList =
      '_' :: 'b' :: (List.range v.width).reverse.map fun idx => if v.getBit idx then '1' else '0' := by
    rw [String.toList_append, toStr, String.toList_ofList, String.toList_ofList]
    rfl
  apply readsBack_of_residue
  rw [ofString, initializeFromString, text, format_binary (by simp [pos.ne']), residue_initializeFromBinaryString]
  refine lowBits_congr fun i below => ?_
  rw [← List.map_reverse, List.reverse_reverse, List.getElem?_map, List.getElem?_range below, Option.map_some]
  cases v.getBit i <;> rfl

theorem readsBack_hexadecimal {ds : List (Bool × Fin 16)} (nonempty : ds ≠ [])
    (spells : hexNumber ds = (v.residue v.width).toNat) : v.ReadsBack ("_h" ++ String.ofList (hexText ds)) := by
  have text : ("_h" ++ String.ofList (hexText ds)).toList = '_' :: 'h' :: hexText ds := by
    rw [String.toList_append, String.toList_ofList, String.toList_ofList]
    rfl
  apply readsBack_of_residue
  rw [ofString, initializeFromString, text, format_hexadecimal (by simp [hexText, nonempty]), hexToBinary,
    residue_initializeFromBinaryString]
  refine lowBits_eq fun i below => ?_
  rw [List.drop_succ_cons, List.drop_succ_cons, List.drop_zero, getElem?_hexText, spells]
  rfl

theorem readsBack_decimal (small : v.width ≤ 32 ∨ 0 ≤ v.number ∧ v.number < 2 ^ 32) :
    v.ReadsBack (String.ofList (decimal v.number)) := by
  have long : -2 ^ 63 ≤ v.number ∧ v.number < 2 ^ 63 := by
    obtain ⟨lower, upper⟩ := v.number_bounds
    cases small with
    | inl narrow =>
        have : (2 : Int) ^ v.width ≤ 2 ^ 32 := pow_le_pow_right₀ (by decide) narrow
        omega
    | inr inside => omega
  apply readsBack_of_residue
  rw [ofString, initializeFromString, String.toList_ofList, format_decimal]
  exact (residue_updateFirstWord _ _ _ _).trans
    ((setWidth_atoU long.1 long.2 small).trans v.residue_eq_ofInt.symm)

theorem literalsReadBack : v.LiteralsReadBack :=
  ⟨v.readsBack_binary, fun _ nonempty spells => v.readsBack_hexadecimal nonempty spells, v.readsBack_decimal⟩

end ReadsBack

/-- The digits of 2 in four bits are read as a decimal number, and a decimal number of 33 bits loses its top bit. -/
theorem not_readsBack :
    let two : Unsigned := ⟨.unsigned, 4, [2], rfl, by decide⟩
    let wide : Unsigned := ⟨.unsigned, 33, [4294967296], rfl, by decide⟩
    two.toStr = "0010" ∧ (ofString .unsigned 4 (by decide) two.toStr).number = 10 ∧ ¬ two.ReadsBack two.toStr ∧
      decimal wide.number = "4294967296".toList ∧
      (ofString .unsigned 33 (by decide) "4294967296").number = 0 ∧
      ¬ wide.ReadsBack (String.ofList (decimal wide.number)) := by
  intro two wide
  have digits : two.toStr = "0010" := by decide +kernel
  have ten : (ofString .unsigned 4 (by decide) two.toStr).number = 10 := by rw [digits]; decide +kernel
  have spelled : decimal wide.number = "4294967296".toList := by decide +kernel
  have zero : (ofString .unsigned 33 (by decide) "4294967296").number = 0 := by decide +kernel
  refine ⟨digits, ten, fun back => ?_, spelled, zero, fun back => ?_⟩
  · have number : (10 : Int) = two.number := ten.symm.trans back.number
    exact absurd number (by decide)
  · have number := back.number
    rw [spelled, String.ofList_toList] at number
    have lost : (0 : Int) = wide.number := zero.symm.trans number
    exact absurd lost (by decide)

end Unsigned
end Ahir.Value
