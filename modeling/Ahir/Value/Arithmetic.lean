import Ahir.Value.Storage

/-!
# Operations on values

The operations change the storage in place: some go over the bits of the value,
others over whole words.
-/

set_option autoImplicit false

namespace Ahir.Value
open Ahir.Data

namespace Unsigned
variable (v : Unsigned)

/-- Of the class `Signed` the bits above the value get its sign. -/
def signExtend : Unsigned :=
  match v.kind with
  | .unsigned => v
  | .signed =>
      (List.range' v.width (64 * arraySize v.width - v.width)).reverse.foldl
        (fun u idx => u.setBit idx (v.getBit (v.width - 1))) v

/-- The loop of `Add` over the bits below `idx`, with the carry. -/
def addLoop (b : Unsigned) : Nat → Unsigned × Bool
  | 0 => (v, false)
  | idx + 1 =>
      let (this, carry) := addLoop b idx
      let abit := this.getBit idx
      let bbit := b.getBit idx
      (this.setBit idx (sumBit abit bbit carry), carryBit abit bbit carry)

def add (b : Unsigned) : Unsigned := (v.addLoop b b.width).1.signExtend

/-- An assignment to `_bit_field[0]`. -/
def updateFirstWord (f : UWord → UWord) : Unsigned :=
  { v with
    bitField := v.bitField.modify 0 f
    length_bitField := by rw [List.length_modify, v.length_bitField] }

/-- `To_Uinteger` and `_bit_field[0]`. -/
def toUinteger : UWord := v.bitField.getD 0 0

/-- `Multiply`; there is no multiplication above 64 bits, only a message. -/
def multiply (b : Unsigned) : Unsigned :=
  if 64 < b.width then v
  else v.updateFirstWord fun word => word * b.toUinteger

/-- `Divide`; to divide by zero stops the program. -/
def divide (b : Unsigned) : Option Unsigned :=
  if 64 < v.width then some v
  else if b.toUinteger = 0 then none
  else some (v.updateFirstWord fun word => word / b.toUinteger)

def complement : Unsigned :=
  { v with
    bitField := v.bitField.map fun word => ~~~word
    length_bitField := by rw [List.length_map, v.length_bitField] }

/-- The object made from `_b1`. -/
def oneVal (n : Nat) (pos : 0 < n) : Unsigned := (resetAndClear .unsigned n pos).setBit 0 true

/-- `Subtract` adds the complement of a copy of `b`, which is of the class `Unsigned`. -/
def subtract (b : Unsigned) : Unsigned :=
  let tmp : Unsigned := { b with kind := .unsigned }
  v.add (tmp.complement.add (oneVal b.width b.width_pos))

/-- `And`, `Or` and `Xor` go over the words. -/
def wordwise (op : UWord → UWord → UWord) (b : Unsigned) : Unsigned :=
  { v with
    bitField := v.bitField.mapIdx fun idx word => op word (b.bitField.getD idx 0)
    length_bitField := by rw [List.length_mapIdx, v.length_bitField] }

def and (b : Unsigned) : Unsigned := v.wordwise (· &&& ·) b
def or (b : Unsigned) : Unsigned := v.wordwise (· ||| ·) b
def xor (b : Unsigned) : Unsigned := v.wordwise (· ^^^ ·) b
def nand (b : Unsigned) : Unsigned := (v.and b).complement
def nor (b : Unsigned) : Unsigned := (v.or b).complement
def xnor (b : Unsigned) : Unsigned := (v.xor b).complement

/-- The loop of `Shift_Left`, from bit `idx` down. -/
def shiftLeftLoop (v : Unsigned) : Nat → Unsigned
  | 0 => v.setBit 0 false
  | idx + 1 => shiftLeftLoop (v.setBit (idx + 1) (v.getBit idx)) idx

def shiftLeftOne : Unsigned := v.shiftLeftLoop (v.width - 1)

def shiftLeft (idx : Int) : Unsigned := shiftLeftOne^[idx.toNat] v

/-- The loop of `Shift_Right` over the bits below `idx`. -/
def shiftRightLoop : Nat → Unsigned
  | 0 => v
  | idx + 1 =>
      let this := shiftRightLoop idx
      this.setBit idx (this.getBit (idx + 1))

/-- `Shift_Right` by one of the class `Unsigned`, which its `Shift_Right(int)` calls. -/
def shiftRightOne : Unsigned := (v.shiftRightLoop (v.width - 1)).setBit (v.width - 1) false

/-- `Shift_Right(int)` of the class of the object. -/
def shiftRight (idx : Int) : Unsigned := (shiftRightOne^[idx.toNat] v).signExtend

/-- `Resize` of the class of the object. -/
def resize (w : Nat) (pos : 0 < w) : Unsigned :=
  let cw := if v.width < w then arraySize v.width else arraySize w
  let resized : Unsigned :=
    { kind := v.kind
      width := w
      bitField := (List.range (arraySize w)).map fun idx => if idx < cw then v.bitField.getD idx 0 else 0
      length_bitField := by rw [List.length_map, List.length_range]
      width_pos := pos }
  resized.signExtend

def toBoolean : Bool := v.bitField.any fun word => word != 0

def toStr : String :=
  String.ofList ((List.range v.width).reverse.map fun idx => if v.getBit idx then '1' else '0')

theorem width_foldl_setBit (idxs : List Nat) (f : Nat → Bool) :
    (idxs.foldl (fun u idx => u.setBit idx (f idx)) v).width = v.width := by
  induction idxs generalizing v with
  | nil => rfl
  | cons idx idxs ih => exact ih (v.setBit idx (f idx))

theorem kind_foldl_setBit (idxs : List Nat) (f : Nat → Bool) :
    (idxs.foldl (fun u idx => u.setBit idx (f idx)) v).kind = v.kind := by
  induction idxs generalizing v with
  | nil => rfl
  | cons idx idxs ih => exact ih (v.setBit idx (f idx))

theorem getBit_foldl_setBit (idxs : List Nat) (f : Nat → Bool)
    (room : ∀ idx ∈ idxs, idx / 64 < arraySize v.width) (i : Nat) :
    (idxs.foldl (fun u idx => u.setBit idx (f idx)) v).getBit i =
      if i ∈ idxs then f i else v.getBit i := by
  induction idxs generalizing v with
  | nil => rfl
  | cons idx idxs ih =>
      have bit := v.getBit_setBit_of_lt (room idx List.mem_cons_self) (f idx) i
      rw [List.foldl_cons, ih (v.setBit idx (f idx)) fun idx' mem => room idx' (List.mem_cons_of_mem _ mem), bit]
      by_cases rest : i ∈ idxs
      · rw [if_pos rest, if_pos (List.mem_cons_of_mem _ rest)]
      · rw [if_neg rest]
        by_cases eq : idx = i
        · rw [if_pos eq, if_pos (by rw [eq]; exact List.mem_cons_self), eq]
        · rw [if_neg eq, if_neg (by rw [List.mem_cons, not_or]; exact ⟨Ne.symm eq, rest⟩)]

@[simp]
theorem width_signExtend : v.signExtend.width = v.width := by
  unfold signExtend
  split
  · rfl
  · exact v.width_foldl_setBit _ fun _ => v.getBit (v.width - 1)

@[simp]
theorem kind_signExtend : v.signExtend.kind = v.kind := by
  unfold signExtend
  split
  · rfl
  · exact v.kind_foldl_setBit _ fun _ => v.getBit (v.width - 1)

theorem signExtend_of_unsigned (unsigned : v.kind = .unsigned) : v.signExtend = v := by
  unfold signExtend
  rw [unsigned]

theorem getBit_signExtend_of_signed (signed : v.kind = .signed) (i : Nat) :
    v.signExtend.getBit i =
      if v.width ≤ i ∧ i < 64 * arraySize v.width then v.getBit (v.width - 1) else v.getBit i := by
  have le := le_arraySize v.width
  unfold signExtend
  rw [signed]
  dsimp only
  rw [v.getBit_foldl_setBit _ fun _ => v.getBit (v.width - 1)]
  · simp only [List.mem_reverse, List.mem_range'_1, Nat.add_sub_cancel' le]
  · intro idx mem
    rw [List.mem_reverse, List.mem_range'_1] at mem
    omega

@[simp]
theorem getBit_signExtend {i : Nat} (below : i < v.width) : v.signExtend.getBit i = v.getBit i := by
  cases kind : v.kind with
  | unsigned => rw [v.signExtend_of_unsigned kind]
  | signed => rw [v.getBit_signExtend_of_signed kind, if_neg (by omega)]

theorem addLoop_eq (b : Unsigned) (idx : Nat) (le : idx ≤ v.width) :
    (v.addLoop b idx).1.width = v.width ∧ (v.addLoop b idx).1.kind = v.kind ∧
      (v.addLoop b idx).2 = carryInto false v.getBit b.getBit idx ∧
      ∀ i, (v.addLoop b idx).1.getBit i =
        if i < idx then sumBit (v.getBit i) (b.getBit i) (carryInto false v.getBit b.getBit i)
        else v.getBit i := by
  induction idx with
  | zero => exact ⟨rfl, rfl, rfl, fun i => rfl⟩
  | succ idx ih =>
      obtain ⟨width, kind, carry, bits⟩ := ih (by omega)
      have here := bits idx
      rw [if_neg (lt_irrefl idx)] at here
      refine ⟨width, kind, ?_, fun i => ?_⟩ <;> simp only [addLoop]
      · rw [here, carry, carryInto]
      · rw [getBit_setBit _ (by rw [width]; omega), here, carry, bits i]
        by_cases eq : idx = i
        · rw [if_pos eq, if_pos (by omega), eq]
        · rw [if_neg eq]
          have : (i < idx + 1) = (i < idx) := by rw [eq_iff_iff]; omega
          simp only [this]

section Residue
variable {v} {b : Unsigned} {n : Nat}

@[simp]
theorem width_add (same : v.width = b.width) : (v.add b).width = v.width := by
  unfold add
  rw [width_signExtend, (v.addLoop_eq b b.width same.ge).1]

theorem residue_add (hv : v.width = n) (hb : b.width = n) :
    (v.add b).residue n = v.residue n + b.residue n := by
  obtain ⟨width, _, _, bits⟩ := v.addLoop_eq b b.width (by omega)
  have sum := lowBits_sumBit n false v.getBit b.getBit
  rw [show (BitVec.ofBool false).setWidth n = BitVec.ofNat n 0 by simp, BitVec.add_zero] at sum
  unfold residue
  rw [← sum]
  refine lowBits_congr fun i below => ?_
  unfold add
  rw [getBit_signExtend _ (by omega), bits i, if_pos (by omega)]

theorem getBit_complement {i : Nat} (below : i < v.width) : v.complement.getBit i = !v.getBit i := by
  have inside : i / 64 < v.bitField.length := by
    rw [v.length_bitField]
    exact div_lt_arraySize below
  unfold complement getBit
  rw [bitAt_map inside, BitVec.getLsbD_not, decide_eq_true (Nat.mod_lt _ (by decide)), Bool.true_and,
    bitAt_of_lt inside]

theorem residue_complement (hv : v.width = n) : v.complement.residue n = ~~~v.residue n := by
  refine lowBits_eq fun i below => ?_
  rw [getBit_complement (by omega), BitVec.getLsbD_not, getLsbD_residue, decide_eq_true below, Bool.true_and,
    Bool.true_and]

theorem residue_oneVal (pos : 0 < n) : (oneVal n pos).residue n = BitVec.ofNat n 1 := by
  refine lowBits_eq fun i below => ?_
  unfold oneVal
  rw [getBit_setBit _ (show 0 < (resetAndClear .unsigned n pos).width from pos), getBit_resetAndClear,
    BitVec.getLsbD_one]
  by_cases zero : i = 0
  · simp [zero, pos]
  · simp [zero, Ne.symm zero]

theorem width_subtract (same : v.width = b.width) : (v.subtract b).width = v.width := by
  let tmp : Unsigned := { b with kind := .unsigned }
  have width : (tmp.complement.add (oneVal b.width b.width_pos)).width = b.width := width_add rfl
  exact width_add (same.trans width.symm)

theorem residue_subtract (hv : v.width = n) (hb : b.width = n) :
    (v.subtract b).residue n = v.residue n - b.residue n := by
  subst hb
  let tmp : Unsigned := { b with kind := .unsigned }
  have negated : (tmp.complement.add (oneVal b.width b.width_pos)).residue b.width = -b.residue b.width := by
    have sum : (tmp.complement.add (oneVal b.width b.width_pos)).residue b.width =
        tmp.complement.residue b.width + (oneVal b.width b.width_pos).residue b.width := residue_add rfl rfl
    rw [sum, residue_complement rfl, residue_oneVal, BitVec.neg_eq_not_add]
    rfl
  have width : (tmp.complement.add (oneVal b.width b.width_pos)).width = b.width := width_add rfl
  rw [BitVec.sub_eq_add_neg, ← negated]
  exact residue_add hv width

theorem residue_of_le (le : n ≤ 64) : v.residue n = v.toUinteger.setWidth n := by
  refine lowBits_eq fun i below => ?_
  unfold getBit bitAt toUinteger
  rw [BitVec.getLsbD_setWidth, decide_eq_true below, Bool.true_and, Nat.div_eq_of_lt (by omega),
    Nat.mod_eq_of_lt (by omega)]

theorem toUinteger_updateFirstWord (f : UWord → UWord) :
    (v.updateFirstWord f).toUinteger = f v.toUinteger := by
  have inside : 0 < v.bitField.length := by
    rw [v.length_bitField]
    exact Nat.zero_lt_of_lt (div_lt_arraySize v.width_pos)
  unfold updateFirstWord toUinteger
  dsimp only
  rw [List.getD_eq_getElem?_getD, List.getD_eq_getElem?_getD, List.getElem?_modify,
    List.getElem?_eq_getElem inside]
  simp

theorem residue_multiply (hb : b.width = n) (le : n ≤ 64) :
    (v.multiply b).residue n = v.residue n * b.residue n := by
  unfold multiply
  rw [if_neg (by omega), residue_of_le le, residue_of_le le, residue_of_le le, toUinteger_updateFirstWord,
    BitVec.setWidth_mul _ _ le]

/-- A wordwise operation that is a bitwise one on words is one on values. -/
theorem residue_wordwise (bit : Bool → Bool → Bool) {op : UWord → UWord → UWord}
    {op' : BitVec n → BitVec n → BitVec n}
    (onWords : ∀ x y : UWord, ∀ i < 64, (op x y).getLsbD i = bit (x.getLsbD i) (y.getLsbD i))
    (onValues : ∀ x y : BitVec n, ∀ i < n, (op' x y).getLsbD i = bit (x.getLsbD i) (y.getLsbD i))
    (hv : v.width = n) : (v.wordwise op b).residue n = op' (v.residue n) (b.residue n) := by
  refine lowBits_eq fun i below => ?_
  have inside : i / 64 < v.bitField.length := by
    rw [v.length_bitField]
    exact div_lt_arraySize (by omega)
  rw [onValues _ _ i below, getLsbD_residue, getLsbD_residue, decide_eq_true below, Bool.true_and, Bool.true_and]
  unfold wordwise getBit
  rw [bitAt_mapIdx inside, onWords _ _ _ (Nat.mod_lt _ (by decide)), bitAt_of_lt inside]
  rfl

theorem residue_and (hv : v.width = n) : (v.and b).residue n = v.residue n &&& b.residue n :=
  residue_wordwise Bool.and (fun _ _ _ _ => BitVec.getLsbD_and) (fun _ _ _ _ => BitVec.getLsbD_and) hv

theorem residue_or (hv : v.width = n) : (v.or b).residue n = v.residue n ||| b.residue n :=
  residue_wordwise Bool.or (fun _ _ _ _ => BitVec.getLsbD_or) (fun _ _ _ _ => BitVec.getLsbD_or) hv

theorem residue_xor (hv : v.width = n) : (v.xor b).residue n = v.residue n ^^^ b.residue n :=
  residue_wordwise Bool.xor (fun _ _ _ _ => BitVec.getLsbD_xor) (fun _ _ _ _ => BitVec.getLsbD_xor) hv

end Residue

theorem shiftLeftLoop_eq (idx : Nat) (below : idx < v.width) :
    (v.shiftLeftLoop idx).width = v.width ∧ (v.shiftLeftLoop idx).kind = v.kind ∧
      ∀ i, (v.shiftLeftLoop idx).getBit i =
        if i ≤ idx then decide (i ≠ 0) && v.getBit (i - 1) else v.getBit i := by
  induction idx generalizing v with
  | zero =>
      refine ⟨rfl, rfl, fun i => ?_⟩
      rw [shiftLeftLoop, getBit_setBit _ below]
      by_cases zero : i = 0
      · simp [zero]
      · rw [if_neg (Ne.symm zero), if_neg (by omega)]
  | succ idx ih =>
      obtain ⟨width, kind, bits⟩ := ih (v.setBit (idx + 1) (v.getBit idx)) (by rw [width_setBit]; omega)
      refine ⟨width, kind, fun i => ?_⟩
      rw [shiftLeftLoop, bits i, getBit_setBit _ below, getBit_setBit _ below]
      by_cases low : i ≤ idx
      · rw [if_pos low, if_neg (by omega), if_pos (by omega)]
      · rw [if_neg low]
        by_cases top : idx + 1 = i
        · rw [if_pos top, if_pos (by omega), ← top]
          simp
        · rw [if_neg top, if_neg (by omega)]

theorem shiftRightLoop_eq (idx : Nat) (below : idx < v.width) :
    (v.shiftRightLoop idx).width = v.width ∧ (v.shiftRightLoop idx).kind = v.kind ∧
      ∀ i, (v.shiftRightLoop idx).getBit i = if i < idx then v.getBit (i + 1) else v.getBit i := by
  induction idx with
  | zero => exact ⟨rfl, rfl, fun i => rfl⟩
  | succ idx ih =>
      obtain ⟨width, kind, bits⟩ := ih (by omega)
      refine ⟨width, kind, fun i => ?_⟩
      have next := bits (idx + 1)
      rw [if_neg (by omega)] at next
      rw [shiftRightLoop, next, getBit_setBit _ (by rw [width]; omega), bits i]
      by_cases eq : idx = i
      · rw [if_pos eq, if_pos (by omega), eq]
      · rw [if_neg eq]
        have : (i < idx + 1) = (i < idx) := by rw [eq_iff_iff]; omega
        simp only [this]

@[simp]
theorem width_shiftLeftOne : v.shiftLeftOne.width = v.width :=
  (v.shiftLeftLoop_eq _ (Nat.sub_one_lt v.width_pos.ne')).1

theorem residue_shiftLeftOne {n : Nat} (hv : v.width = n) : v.shiftLeftOne.residue n = v.residue n <<< 1 := by
  refine lowBits_eq fun i below => ?_
  unfold shiftLeftOne
  rw [(v.shiftLeftLoop_eq _ (Nat.sub_one_lt v.width_pos.ne')).2.2 i, if_pos (by omega), BitVec.getLsbD_shiftLeft,
    getLsbD_residue, decide_eq_true below, decide_eq_true (show i - 1 < n by omega)]
  by_cases zero : i = 0 <;> simp [zero]

@[simp]
theorem width_shiftRightOne : v.shiftRightOne.width = v.width :=
  (v.shiftRightLoop_eq _ (Nat.sub_one_lt v.width_pos.ne')).1

@[simp]
theorem kind_shiftRightOne : v.shiftRightOne.kind = v.kind :=
  (v.shiftRightLoop_eq _ (Nat.sub_one_lt v.width_pos.ne')).2.1

theorem residue_shiftRightOne {n : Nat} (hv : v.width = n) : v.shiftRightOne.residue n = v.residue n >>> 1 := by
  obtain ⟨width, _, bits⟩ := v.shiftRightLoop_eq _ (Nat.sub_one_lt v.width_pos.ne')
  have pos := v.width_pos
  refine lowBits_eq fun i below => ?_
  unfold shiftRightOne
  rw [getBit_setBit _ (by rw [width]; omega), bits i, BitVec.getLsbD_ushiftRight, getLsbD_residue]
  by_cases top : v.width - 1 = i
  · rw [if_pos top, decide_eq_false (by omega), Bool.false_and]
  · rw [if_neg top, if_pos (by omega), decide_eq_true (by omega), Bool.true_and, Nat.add_comm]

section Iterated
variable {v} {n : Nat}

theorem residue_iterate {f : Unsigned → Unsigned} {g : BitVec n → BitVec n}
    (width : ∀ u, (f u).width = u.width) (residue : ∀ u, u.width = n → (f u).residue n = g (u.residue n))
    (hv : v.width = n) (k : Nat) : (f^[k] v).width = n ∧ (f^[k] v).residue n = g^[k] (v.residue n) := by
  induction k with
  | zero => exact ⟨hv, rfl⟩
  | succ k ih =>
      rw [Function.iterate_succ_apply', Function.iterate_succ_apply', width, residue _ ih.1, ih.2]
      exact ⟨ih.1, rfl⟩

theorem shiftLeft_iterate (x : BitVec n) (k : Nat) : (fun y : BitVec n => y <<< 1)^[k] x = x <<< k := by
  induction k with
  | zero => rw [Function.iterate_zero_apply, BitVec.shiftLeft_zero]
  | succ k ih => rw [Function.iterate_succ_apply', ih, BitVec.shiftLeft_add]

theorem ushiftRight_iterate (x : BitVec n) (k : Nat) : (fun y : BitVec n => y >>> 1)^[k] x = x >>> k := by
  induction k with
  | zero => rw [Function.iterate_zero_apply, BitVec.ushiftRight_zero]
  | succ k ih => rw [Function.iterate_succ_apply', ih, BitVec.shiftRight_add]

theorem shiftLeft_spec (hv : v.width = n) (idx : Int) :
    (v.shiftLeft idx).width = n ∧ (v.shiftLeft idx).residue n = v.residue n <<< idx.toNat := by
  rw [← shiftLeft_iterate]
  exact residue_iterate width_shiftLeftOne (fun u hu => u.residue_shiftLeftOne hu) hv idx.toNat

theorem residue_signExtend (hv : v.width = n) : v.signExtend.residue n = v.residue n :=
  lowBits_congr fun _ below => getBit_signExtend _ (by omega)

theorem shiftRight_spec (hv : v.width = n) (idx : Int) :
    (v.shiftRight idx).width = n ∧ (v.shiftRight idx).residue n = v.residue n >>> idx.toNat := by
  obtain ⟨width, residue⟩ :=
    residue_iterate (g := fun y => y >>> 1) width_shiftRightOne (fun u hu => u.residue_shiftRightOne hu) hv idx.toNat
  unfold shiftRight
  rw [width_signExtend, residue_signExtend width, residue, ushiftRight_iterate]
  exact ⟨width, rfl⟩

end Iterated

section Observers
variable {v} {n : Nat}

theorem getBit_resize {w : Nat} (pos : 0 < w) {i : Nat} (below : i < w) :
    (v.resize w pos).getBit i =
      (decide (i / 64 < if v.width < w then arraySize v.width else arraySize w) && v.getBit i) := by
  have inside := div_lt_arraySize below
  unfold resize
  rw [getBit_signExtend _ below]
  unfold getBit
  dsimp only
  rw [bitAt_map_range inside]
  by_cases copied : i / 64 < if v.width < w then arraySize v.width else arraySize w
  · rw [if_pos copied, decide_eq_true copied, Bool.true_and]
    rfl
  · rw [if_neg copied, decide_eq_false copied, Bool.false_and, getLsbD_ofNat_zero]

theorem residue_resize_of_le (hv : v.width = n) {w : Nat} (pos : 0 < w) (le : w ≤ n) :
    (v.resize w pos).residue w = (v.residue n).setWidth w := by
  unfold residue
  rw [setWidth_lowBits le]
  refine lowBits_congr fun i below => ?_
  rw [getBit_resize pos below, if_neg (by omega), decide_eq_true (div_lt_arraySize below), Bool.true_and]

theorem residue_resize_of_clean (hv : v.width = n) (clean : v.Clean) {w : Nat} (pos : 0 < w) (lt : n < w) :
    (v.resize w pos).residue w = (v.residue n).setWidth w := by
  refine lowBits_eq fun i below => ?_
  rw [getBit_resize pos below, if_pos (by omega), BitVec.getLsbD_setWidth, getLsbD_residue, decide_eq_true below,
    Bool.true_and]
  by_cases own : i < n
  · rw [decide_eq_true (div_lt_arraySize (by omega)), decide_eq_true own]
  · rw [clean i (by omega), Bool.and_false, Bool.and_false]

theorem toUinteger_of_clean (hv : v.width = n) (clean : v.Clean) :
    v.toUinteger = (v.residue n).setWidth 64 := by
  refine BitVec.eq_of_getLsbD_eq fun i below => ?_
  have bit : v.getBit i = v.toUinteger.getLsbD i := by
    unfold getBit bitAt toUinteger
    rw [Nat.div_eq_of_lt below, Nat.mod_eq_of_lt below]
  rw [BitVec.getLsbD_setWidth, decide_eq_true below, Bool.true_and, getLsbD_residue, ← bit]
  by_cases own : i < n
  · rw [decide_eq_true own, Bool.true_and]
  · rw [clean i (by omega), Bool.and_false]

theorem toBoolean_iff : v.toBoolean = true ↔ ∃ i, v.getBit i = true := by
  unfold toBoolean getBit
  rw [List.any_eq_true]
  constructor
  · rintro ⟨word, mem, ne⟩
    obtain ⟨k, inside, rfl⟩ := List.mem_iff_getElem.mp mem
    by_contra none
    refine (bne_iff_ne.mp ne) (BitVec.eq_of_getLsbD_eq fun j below => ?_)
    have bit := not_exists.mp none (64 * k + j)
    rw [bitAt_mul_add _ _ below, List.getD_eq_getElem?_getD, List.getElem?_eq_getElem inside, Option.getD_some] at bit
    rw [Bool.eq_false_iff.mpr bit, getLsbD_ofNat_zero]
  · rintro ⟨i, bit⟩
    have inside : i / 64 < v.bitField.length := by
      by_contra outside
      rw [bitAt_of_le (by omega)] at bit
      exact Bool.false_ne_true bit
    rw [bitAt_of_lt inside] at bit
    refine ⟨_, List.getElem_mem inside, bne_iff_ne.mpr fun zero => ?_⟩
    rw [zero, getLsbD_ofNat_zero] at bit
    exact Bool.false_ne_true bit

theorem toBoolean_of_clean (hv : v.width = n) (clean : v.Clean) : v.toBoolean = decide (v.residue n ≠ 0) := by
  rw [Bool.eq_iff_iff, toBoolean_iff, decide_eq_true_iff]
  constructor
  · rintro ⟨i, bit⟩ zero
    have below : i < n := by
      by_contra above
      rw [clean i (by omega)] at bit
      exact Bool.false_ne_true bit
    have none := v.getLsbD_residue n i
    rw [zero, decide_eq_true below, Bool.true_and, bit, getLsbD_ofNat_zero] at none
    exact Bool.false_ne_true none
  · intro ne
    by_contra none
    refine ne (lowBits_eq fun i _ => ?_)
    rw [Bool.eq_false_iff.mpr (not_exists.mp none i), getLsbD_ofNat_zero]

theorem divide_of_clean {b : Unsigned} (hv : v.width = n) (hb : b.width = n) (le : n ≤ 64) (cleanV : v.Clean)
    (cleanB : b.Clean) (nonzero : b.residue n ≠ 0) :
    ∃ q, v.divide b = some q ∧ q.width = n ∧ q.residue n = v.residue n / b.residue n := by
  have word : v.toUinteger = (v.residue n).setWidth 64 := toUinteger_of_clean hv cleanV
  have divisor : b.toUinteger = (b.residue n).setWidth 64 := toUinteger_of_clean hb cleanB
  have stops : b.toUinteger ≠ 0 := by
    rw [divisor]
    intro zero
    refine nonzero (BitVec.eq_of_toNat_eq ?_)
    have nat := congrArg BitVec.toNat zero
    rw [BitVec.toNat_setWidth_of_le le] at nat
    exact nat
  have quotient : (v.residue n).setWidth 64 / (b.residue n).setWidth 64 =
      (v.residue n / b.residue n).setWidth 64 := by
    refine BitVec.eq_of_toNat_eq ?_
    rw [BitVec.toNat_udiv, BitVec.toNat_setWidth_of_le le, BitVec.toNat_setWidth_of_le le,
      BitVec.toNat_setWidth_of_le le, BitVec.toNat_udiv]
  unfold divide
  rw [if_neg (by omega), if_neg stops]
  refine ⟨_, rfl, hv, ?_⟩
  rw [residue_of_le le, toUinteger_updateFirstWord, word, divisor, quotient, BitVec.setWidth_setWidth_of_le _ le,
    BitVec.setWidth_eq]

end Observers

end Unsigned
end Ahir.Value
