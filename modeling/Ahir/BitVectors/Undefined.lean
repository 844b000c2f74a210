import Ahir.BitVectors.Values

/-!
# Undefined bits

Two runs of an operation whose inputs differ only in bits that are flagged as not
defined.  A flag that is missing in the result shows as a bit that is not flagged and
differs.
-/

set_option autoImplicit false

namespace Ahir.BitVectors
open Ahir.Data

namespace BitVector

structure SameMarks (x y : BitVector) : Prop where
  width : x.width = y.width
  undefinedBytes : x.undefinedBytes = y.undefinedBytes

structure Agree (x y : BitVector) : Prop where
  marks : SameMarks x y
  bits : ∀ i, (i < x.width → x.undefinedBit i = false) → x.bit i = y.bit i

/-- No bit of the lowest `n` is flagged. -/
def DefinedBelow (x : BitVector) (n : Nat) : Prop := ∀ i < x.width, i < n → x.undefinedBit i = false

/-- Results of which every bit that is not flagged is the same; and the same are flagged. -/
structure Indistinct (a b : BitVector) : Prop where
  width : a.width = b.width
  undefinedBit : ∀ i < a.width, a.undefinedBit i = b.undefinedBit i
  bit : ∀ i < a.width, a.undefinedBit i = false → a.bit i = b.bit i

section Agree
variable {x y : BitVector}

theorem SameMarks.undefinedBit (marks : SameMarks x y) (i : Nat) : x.undefinedBit i = y.undefinedBit i := by
  unfold BitVector.undefinedBit
  rw [marks.undefinedBytes]

theorem SameMarks.getUndefinedBit (marks : SameMarks x y) (i : Nat) : x.getUndefinedBit i = y.getUndefinedBit i := by
  unfold BitVector.getUndefinedBit
  rw [marks.undefinedBit, marks.width]

theorem SameMarks.hasUndefinedBit (marks : SameMarks x y) : x.hasUndefinedBit = y.hasUndefinedBit := by
  unfold BitVector.hasUndefinedBit
  rw [marks.width]
  exact congrArg _ (funext marks.getUndefinedBit)

theorem Agree.refl (x : BitVector) : Agree x x := ⟨⟨rfl, rfl⟩, fun _ _ => rfl⟩

theorem Agree.symm (agree : Agree x y) : Agree y x := by
  obtain ⟨⟨width, undefinedBytes⟩, bits⟩ := agree
  refine ⟨⟨width.symm, undefinedBytes.symm⟩, fun i defined => (bits i ?_).symm⟩
  unfold undefinedBit at defined ⊢
  rwa [width, undefinedBytes]

theorem Agree.eq (agree : Agree x y) (defined : ∀ i < x.width, x.undefinedBit i = false) : x = y := by
  have bytes : x.bytes = y.bytes :=
    ext_bitAt (by rw [x.length_bytes, y.length_bytes, agree.marks.width]) fun i _ => agree.bits i (defined i)
  obtain ⟨width, undefinedBytes⟩ := agree.marks
  cases x
  cases y
  cases width
  cases undefinedBytes
  cases bytes
  rfl

theorem hasUndefinedBit_eq_false : x.hasUndefinedBit = false ↔ ∀ i < x.width, x.undefinedBit i = false := by
  unfold BitVector.hasUndefinedBit BitVector.getUndefinedBit
  rw [List.any_eq_false]
  constructor
  · intro none i below
    have flag := none i (List.mem_range.mpr below)
    rw [decide_eq_true below, Bool.true_and] at flag
    exact Bool.eq_false_iff.mpr flag
  · intro none i mem
    rw [none i (List.mem_range.mp mem), Bool.and_false]
    exact Bool.false_ne_true

theorem Agree.eq_of_hasUndefinedBit (agree : Agree x y) (defined : x.hasUndefinedBit = false) : x = y :=
  agree.eq (hasUndefinedBit_eq_false.mp defined)

theorem Agree.getBit (agree : Agree x y) {i : Nat} (defined : x.getUndefinedBit i = false) :
    x.getBit i = y.getBit i := by
  unfold BitVector.getUndefinedBit at defined
  unfold BitVector.getBit
  rw [← agree.marks.width]
  by_cases below : i < x.width
  · rw [decide_eq_true below, Bool.true_and] at defined
    rw [agree.bits i fun _ => defined]
  · rw [decide_eq_false below, Bool.false_and, Bool.false_and]

theorem Agree.residue (agree : Agree x y) {n : Nat} (defined : ∀ i < n, x.undefinedBit i = false) :
    x.residue n = y.residue n :=
  lowBits_congr fun i below => agree.bits i fun _ => defined i below

end Agree

section Indistinct
variable {a b : BitVector}

theorem Indistinct.refl (a : BitVector) : Indistinct a a := ⟨rfl, fun _ _ => rfl, fun _ _ _ => rfl⟩

theorem Indistinct.set (same : Indistinct a b) (k : Nat) {v v' u : Bool} (value : u = false → v = v') :
    Indistinct ((a.setBit k v).setUndefinedBit k u) ((b.setBit k v').setUndefinedBit k u) := by
  refine ⟨by simp [same.width], fun i below => ?_, fun i below => ?_⟩ <;>
    rw [width_setUndefinedBit, width_setBit] at below <;>
    simp only [undefinedBit_setUndefinedBit, undefinedBit_setBit, bit_setUndefinedBit, bit_setBit, width_setBit,
      ← same.width]
  · rw [same.undefinedBit i below]
  · by_cases here : k = i ∧ k < a.width
    · simp only [if_pos here]
      exact value
    · simp only [if_neg here]
      exact same.bit i below

theorem Indistinct.copyLoop {x y : BitVector} (agree : Agree x y) (same : Indistinct a b) (source target : Nat → Nat)
    (n : Nat) : Indistinct (copyLoop x source target a n) (copyLoop y source target b n) := by
  induction n with
  | zero => exact same
  | succ n ih =>
      rw [BitVector.copyLoop, BitVector.copyLoop, ← agree.marks.getUndefinedBit]
      exact ih.set _ agree.getBit

end Indistinct

section Values

/-- A vector with the flags of `x` and the value `v`. -/
def withValue (x : BitVector) (v : Nat) : BitVector :=
  { x with
    bytes := (List.range (nbytes x.width)).map fun k =>
      lowBits 8 fun j => decide (8 * k + j < x.width) && v.testBit (8 * k + j)
    length_bytes := by rw [List.length_map, List.length_range] }

theorem bit_withValue (x : BitVector) (v i : Nat) :
    (x.withValue v).bit i = (decide (i < x.width) && v.testBit i) := by
  by_cases inside : i / 8 < nbytes x.width
  · have position : 8 * (i / 8) + i % 8 = i := by omega
    unfold withValue bit
    dsimp only
    rw [bitAt_map_range inside, getLsbD_lowBits, decide_eq_true (Nat.mod_lt _ (by decide)), Bool.true_and, position]
  · have bounds := nbytes_bounds x.width
    rw [(x.withValue v).bit_of_le (show nbytes x.width ≤ i / 8 by omega), decide_eq_false (by omega), Bool.false_and]

@[simp]
theorem width_withValue (x : BitVector) (v : Nat) : (x.withValue v).width = x.width := rfl

@[simp]
theorem undefinedBit_withValue (x : BitVector) (v i : Nat) : (x.withValue v).undefinedBit i = x.undefinedBit i := rfl

theorem sameMarks_withValue (x : BitVector) (v : Nat) : SameMarks x (x.withValue v) := ⟨rfl, rfl⟩

theorem agree_withValue {x : BitVector} {v v' : Nat}
    (bits : ∀ i < x.width, x.undefinedBit i = false → v.testBit i = v'.testBit i) :
    Agree (x.withValue v) (x.withValue v') := by
  refine ⟨⟨rfl, rfl⟩, fun i defined => ?_⟩
  rw [bit_withValue, bit_withValue]
  by_cases below : i < x.width
  · rw [bits i below (defined below)]
  · rw [decide_eq_false below, Bool.false_and, Bool.false_and]

theorem agree_withValue_pow {x : BitVector} {i : Nat} (flag : x.undefinedBit i = true) :
    Agree (x.withValue 0) (x.withValue (2 ^ i)) := by
  refine agree_withValue fun k _ defined => ?_
  have ne : i ≠ k := by
    intro eq
    rw [eq, defined] at flag
    exact Bool.false_ne_true flag
  rw [Nat.zero_testBit, Nat.testBit_two_pow_of_ne ne]

theorem residue_withValue (x : BitVector) (v : Nat) {n : Nat} (le : n ≤ x.width) :
    (x.withValue v).residue n = BitVec.ofNat n v := by
  refine lowBits_eq fun i below => ?_
  rw [bit_withValue, decide_eq_true (by omega), BitVec.getLsbD_ofNat, decide_eq_true below]

end Values

end BitVector

/-- What the operations assert of the widths, and what is so where they are called. -/
def Operation.WellSized (r s t : BitVector) : Operation → Prop
  | .or | .nor | .and | .nand | .xor | .xnor => r.width = t.width ∧ s.width = t.width
  | .plus | .minus | .mul | .div | .smul | .sdiv => r.width = t.width ∧ s.width = t.width
  | .not | .priorityEncode | .shiftRight _ | .shiftLeft | .rotateLeft | .rotateRight => r.width = t.width
  | .reduceOr | .reduceAnd | .reduceXor => t.width = 1
  | .concatenate => t.width = r.width + s.width
  | .slice lowIndex => lowIndex + t.width ≤ r.width
  | .insert lowIndex => lowIndex + r.width ≤ t.width
  | .equal _ | .notEqual _ | .less _ | .lessEqual _ | .greater _ | .greaterEqual _ => r.width = s.width
  | .decode | .encode | .increment | .bitsel | .cast _ | .assignUint64 _ | .assignString _ => True

/-- For inputs with the flags of `r` and `s` no bit of the result that is not flagged
depends on a bit that is: two runs agree on it. -/
def Operation.Noninterfering (r s t : BitVector) (op : Operation) : Prop :=
  ∀ r₁ r₂ s₁ s₂ : BitVector, r.SameMarks r₁ → r₁.Agree r₂ → s.SameMarks s₁ → s₁.Agree s₂ →
    ∀ a b : BitVector, op.apply r₁ s₁ t = some a → op.apply r₂ s₂ t = some b →
      ∀ i < a.width, a.undefinedBit i = false → a.bit i = b.bit i

def UpwardClosed (w : Nat) (flag : Nat → Bool) : Prop :=
  ∀ i j, i < j → j < w → flag i = true → flag j = true

/-- Two indices into `f` cannot be told apart by what is not flagged: they are the same, or
both name no bit, or both a flagged one. -/
def Unobservable (f : BitVector) (i j : Nat) : Prop :=
  i = j ∨ (f.width ≤ i ∧ f.width ≤ j) ∨ (f.getUndefinedBit i = true ∧ f.getUndefinedBit j = true)

/-- The flags of the inputs with which an operation flags its result well. -/
def Operation.FlagsSuffice (r s t : BitVector) : Operation → Prop
  | .increment => UpwardClosed r.width r.undefinedBit
  | .plus | .minus => UpwardClosed t.width fun i => r.undefinedBit i || s.undefinedBit i
  | .mul | .div | .smul | .sdiv => r.DefinedBelow 64 ∧ s.DefinedBelow 64
  | .shiftRight false | .shiftLeft => s.DefinedBelow 32
  | .shiftRight true => r.undefinedBit (r.width - 1) = false ∧ (r.width = 1 ∨ s.DefinedBelow 32)
  | .rotateLeft | .rotateRight =>
      (∀ i < r.width, r.undefinedBit i = true) ∨
        ∀ i < s.width, i < 64 → s.undefinedBit i = true → r.width ∣ 2 ^ i
  | .bitsel =>
      ∀ i j, i < 2 ^ min s.width 32 → j < 2 ^ min s.width 32 →
        (∀ k < s.width, k < 32 → s.undefinedBit k = false → i.testBit k = j.testBit k) → Unobservable r i j
  | .cast true => r.width < t.width → r.undefinedBit (r.width - 1) = false
  | _ => True

namespace BitVector
section Logical
variable {r₁ r₂ s₁ s₂ : BitVector}

theorem bytewise_noninterfering {value : Byte → Byte → Byte} {undefined : Byte → Byte → Byte → Byte → Byte}
    (valueBit : Bool → Bool → Bool) (undefinedBit : Bool → Bool → Bool → Bool → Bool)
    (valueBitwise : ∀ x y : Byte, ∀ j < 8, (value x y).getLsbD j = valueBit (x.getLsbD j) (y.getLsbD j))
    (undefinedBitwise : ∀ rb urb sb usb : Byte, ∀ j < 8, (undefined rb urb sb usb).getLsbD j =
      undefinedBit (rb.getLsbD j) (urb.getLsbD j) (sb.getLsbD j) (usb.getLsbD j))
    (sound : ∀ rb rb' urb sb sb' usb, (urb = false → rb = rb') → (usb = false → sb = sb') →
      undefinedBit rb urb sb usb = false → valueBit rb sb = valueBit rb' sb')
    (agreeR : r₁.Agree r₂) (agreeS : s₁.Agree s₂) (t : BitVector) {i : Nat} (below : i < t.width)
    (unflagged : (bytewise value undefined r₁ s₁ t).undefinedBit i = false) :
    (bytewise value undefined r₁ s₁ t).bit i = (bytewise value undefined r₂ s₂ t).bit i := by
  rw [undefinedBit_bytewise undefinedBit undefinedBitwise _ _ _ _ below] at unflagged
  rw [bit_bytewise valueBit valueBitwise _ _ _ _ below, bit_bytewise valueBit valueBitwise _ _ _ _ below]
  exact sound _ _ _ _ _ _ (fun defined => agreeR.bits i fun _ => defined)
    (fun defined => agreeS.bits i fun _ => defined) unflagged

def orFlag (rb urb sb usb : Bool) : Bool := (urb && usb || urb && !sb) || usb && !rb

def andFlag (rb urb sb usb : Bool) : Bool := (urb && usb || urb && sb) || usb && rb

theorem getLsbD_undefinedOr (rb urb sb usb : Byte) (j : Nat) (below : j < 8) :
    (undefinedOr rb urb sb usb).getLsbD j =
      orFlag (rb.getLsbD j) (urb.getLsbD j) (sb.getLsbD j) (usb.getLsbD j) := by
  simp [undefinedOr, orFlag, below]

theorem getLsbD_undefinedAnd (rb urb sb usb : Byte) (j : Nat) (_ : j < 8) :
    (undefinedAnd rb urb sb usb).getLsbD j =
      andFlag (rb.getLsbD j) (urb.getLsbD j) (sb.getLsbD j) (usb.getLsbD j) := by
  simp [undefinedAnd, andFlag]

theorem getLsbD_undefinedXor (rb urb sb usb : Byte) (j : Nat) (_ : j < 8) :
    (undefinedXor rb urb sb usb).getLsbD j = (urb.getLsbD j || usb.getLsbD j) := by
  simp [undefinedXor]

theorem getLsbD_not_of_lt (x : Byte) {j : Nat} (below : j < 8) : (~~~x).getLsbD j = !x.getLsbD j := by
  rw [BitVec.getLsbD_not, decide_eq_true below, Bool.true_and]

theorem or_noninterfering (agreeR : r₁.Agree r₂) (agreeS : s₁.Agree s₂) (t : BitVector) {i : Nat}
    (below : i < t.width) (unflagged : (or r₁ s₁ t).undefinedBit i = false) :
    (or r₁ s₁ t).bit i = (or r₂ s₂ t).bit i :=
  bytewise_noninterfering (fun x y => x || y) orFlag (fun _ _ _ _ => BitVec.getLsbD_or) getLsbD_undefinedOr
    (by decide) agreeR agreeS t below unflagged

theorem nor_noninterfering (agreeR : r₁.Agree r₂) (agreeS : s₁.Agree s₂) (t : BitVector) {i : Nat}
    (below : i < t.width) (unflagged : (nor r₁ s₁ t).undefinedBit i = false) :
    (nor r₁ s₁ t).bit i = (nor r₂ s₂ t).bit i :=
  bytewise_noninterfering (fun x y => !(x || y)) orFlag
    (fun _ _ _ below => (getLsbD_not_of_lt _ below).trans (congrArg _ BitVec.getLsbD_or)) getLsbD_undefinedOr
    (by decide) agreeR agreeS t below unflagged

theorem and_noninterfering (agreeR : r₁.Agree r₂) (agreeS : s₁.Agree s₂) (t : BitVector) {i : Nat}
    (below : i < t.width) (unflagged : (and r₁ s₁ t).undefinedBit i = false) :
    (and r₁ s₁ t).bit i = (and r₂ s₂ t).bit i :=
  bytewise_noninterfering (fun x y => x && y) andFlag (fun _ _ _ _ => BitVec.getLsbD_and) getLsbD_undefinedAnd
    (by decide) agreeR agreeS t below unflagged

theorem nand_noninterfering (agreeR : r₁.Agree r₂) (agreeS : s₁.Agree s₂) (t : BitVector) {i : Nat}
    (below : i < t.width) (unflagged : (nand r₁ s₁ t).undefinedBit i = false) :
    (nand r₁ s₁ t).bit i = (nand r₂ s₂ t).bit i :=
  bytewise_noninterfering (fun x y => !(x && y)) andFlag
    (fun _ _ _ below => (getLsbD_not_of_lt _ below).trans (congrArg _ BitVec.getLsbD_and)) getLsbD_undefinedAnd
    (by decide) agreeR agreeS t below unflagged

theorem xor_noninterfering (agreeR : r₁.Agree r₂) (agreeS : s₁.Agree s₂) (t : BitVector) {i : Nat}
    (below : i < t.width) (unflagged : (xor r₁ s₁ t).undefinedBit i = false) :
    (xor r₁ s₁ t).bit i = (xor r₂ s₂ t).bit i :=
  bytewise_noninterfering (fun x y => x ^^ y) (fun _ urb _ usb => urb || usb) (fun _ _ _ _ => BitVec.getLsbD_xor)
    getLsbD_undefinedXor (by decide) agreeR agreeS t below unflagged

theorem xnor_noninterfering (agreeR : r₁.Agree r₂) (agreeS : s₁.Agree s₂) (t : BitVector) {i : Nat}
    (below : i < t.width) (unflagged : (xnor r₁ s₁ t).undefinedBit i = false) :
    (xnor r₁ s₁ t).bit i = (xnor r₂ s₂ t).bit i :=
  bytewise_noninterfering (fun x y => !(x ^^ y)) (fun _ urb _ usb => urb || usb)
    (fun _ _ _ below => (getLsbD_not_of_lt _ below).trans (congrArg _ BitVec.getLsbD_xor)) getLsbD_undefinedXor
    (by decide) agreeR agreeS t below unflagged

theorem not_noninterfering (agree : r₁.Agree r₂) (t : BitVector) {i : Nat} (below : i < t.width)
    (unflagged : (not r₁ t).undefinedBit i = false) : (not r₁ t).bit i = (not r₂ t).bit i := by
  rw [undefinedBit_not _ _ below] at unflagged
  rw [bit_not _ _ below, bit_not _ _ below, agree.bits i fun _ => unflagged]

theorem reduceLoop_noninterfering {value : Bool → Bool → Bool} {undefined : Bool → Bool → Bool → Bool → Bool}
    (sound : ∀ val val' uval x x' ux, (uval = false → val = val') → (ux = false → x = x') →
      undefined val uval x ux = undefined val' uval x' ux ∧
        (undefined val uval x ux = false → value val x = value val' x'))
    (init : Bool) (agree : r₁.Agree r₂) (n : Nat) :
    (reduceLoop value undefined init r₁ n).2 = (reduceLoop value undefined init r₂ n).2 ∧
      ((reduceLoop value undefined init r₁ n).2 = false →
        (reduceLoop value undefined init r₁ n).1 = (reduceLoop value undefined init r₂ n).1) := by
  induction n with
  | zero => exact ⟨rfl, fun _ => rfl⟩
  | succ n ih =>
      have step := sound (reduceLoop value undefined init r₁ n).1 (reduceLoop value undefined init r₂ n).1
        (reduceLoop value undefined init r₁ n).2 (r₁.getBit n) (r₂.getBit n) (r₁.getUndefinedBit n) ih.2 agree.getBit
      unfold reduceLoop
      dsimp only
      rw [← ih.1, ← agree.marks.getUndefinedBit]
      exact step

theorem reduce_indistinct {value : Bool → Bool → Bool} {undefined : Bool → Bool → Bool → Bool → Bool}
    (sound : ∀ val val' uval x x' ux, (uval = false → val = val') → (ux = false → x = x') →
      undefined val uval x ux = undefined val' uval x' ux ∧
        (undefined val uval x ux = false → value val x = value val' x'))
    (init : Bool) (agree : r₁.Agree r₂) (t : BitVector) :
    Indistinct (reduce value undefined init r₁ t) (reduce value undefined init r₂ t) := by
  have loop := reduceLoop_noninterfering sound init agree r₁.width
  unfold reduce
  dsimp only
  rw [← agree.marks.width, ← loop.1]
  exact (Indistinct.refl t).set 0 loop.2

/-- An operation that looks for flags first: flagged inputs all have one result. -/
theorem eq_of_hasUndefinedBit {α : Type} {f : BitVector → α} (flagged : α)
    (onFlags : ∀ x : BitVector, x.hasUndefinedBit = true → f x = flagged) (agree : r₁.Agree r₂) : f r₁ = f r₂ := by
  cases marked : r₁.hasUndefinedBit with
  | true => rw [onFlags r₁ marked, onFlags r₂ (agree.marks.hasUndefinedBit.symm.trans marked)]
  | false => rw [agree.eq_of_hasUndefinedBit marked]

theorem compare_eq (signed : Bool) (agreeR : r₁.Agree r₂) (agreeS : s₁.Agree s₂) :
    compare signed r₁ s₁ = compare signed r₂ s₂ := by
  have first : compare signed r₁ s₁ = compare signed r₂ s₁ := by
    refine eq_of_hasUndefinedBit (f := fun x => compare signed x s₁) .isUndefined ?_ agreeR
    intro x marked
    unfold BitVector.compare
    rw [marked, Bool.true_or, if_pos rfl]
  have second : compare signed r₂ s₁ = compare signed r₂ s₂ := by
    refine eq_of_hasUndefinedBit (f := fun x => compare signed r₂ x) .isUndefined ?_ agreeS
    intro x marked
    unfold BitVector.compare
    rw [marked, Bool.or_true, if_pos rfl]
  exact first.trans second

theorem compareInto_eq (holds flags : Compared → Bool) (signed : Bool) (agreeR : r₁.Agree r₂) (agreeS : s₁.Agree s₂)
    (t : BitVector) : compareInto holds flags signed r₁ s₁ t = compareInto holds flags signed r₂ s₂ t := by
  unfold compareInto
  rw [compare_eq signed agreeR agreeS]

end Logical

section Arithmetic
variable {r₁ r₂ s₁ s₂ : BitVector}

theorem toUint64_eq (signed : Bool) (agree : r₁.Agree r₂) (defined : r₁.DefinedBelow 64) :
    toUint64 signed r₁ = toUint64 signed r₂ := by
  by_cases narrow : r₁.width ≤ 64
  · rw [agree.eq fun i below => defined i below (by omega)]
  · refine BitVec.eq_of_getLsbD_eq fun k below => ?_
    rw [getLsbD_toUint64 _ _ below (by omega), getLsbD_toUint64 _ _ below (by rw [← agree.marks.width]; omega),
      agree.bits k fun inside => defined k inside below]

theorem toUint64_mod_eq (agree : r₁.Agree r₂) {n : Nat} (le : n ≤ 64) (defined : r₁.DefinedBelow n) :
    (toUint64 false r₁).toNat % 2 ^ n = (toUint64 false r₂).toNat % 2 ^ n := by
  have word : (toUint64 false r₁).setWidth n = (toUint64 false r₂).setWidth n := by
    refine BitVec.eq_of_getLsbD_eq fun k below => ?_
    rw [BitVec.getLsbD_setWidth, BitVec.getLsbD_setWidth]
    by_cases inside : k < r₁.width
    · rw [getLsbD_toUint64 _ _ (by omega) inside, getLsbD_toUint64 _ _ (by omega) (by rwa [← agree.marks.width]),
        agree.bits k fun _ => defined k inside below]
    · rw [getLsbD_toUint64_of_le rfl (by omega) (by omega),
        getLsbD_toUint64_of_le rfl (by omega) (by rw [← agree.marks.width]; omega)]
  have nat := congrArg BitVec.toNat word
  rwa [BitVec.toNat_setWidth, BitVec.toNat_setWidth] at nat

theorem shiftAmount_eq (agree : s₁.Agree s₂) (defined : s₁.DefinedBelow 32) : s₁.shiftAmount = s₂.shiftAmount :=
  toUint64_mod_eq agree (by decide) defined

theorem bit_eq_of_residue {a b : BitVector} {i : Nat} (residue : a.residue (i + 1) = b.residue (i + 1)) :
    a.bit i = b.bit i :=
  lowBits_inj.mp residue i (Nat.lt_succ_self i)

/-- When the flags go up from the lowest, what is not flagged has nothing flagged below it. -/
theorem residue_eq_of_upwardClosed {w : Nat} {flag : Nat → Bool} (closed : UpwardClosed w flag)
    (agree : r₁.Agree r₂) (flags : ∀ i, r₁.undefinedBit i = true → flag i = true) {i : Nat} (below : i < w)
    (unflagged : flag i = false) : r₁.residue (i + 1) = r₂.residue (i + 1) := by
  refine agree.residue fun k le => ?_
  by_contra flagged
  have mark := flags k (by simpa using flagged)
  rcases Nat.lt_or_ge k i with lt | ge
  · rw [closed k i lt below mark] at unflagged
    exact Bool.false_ne_true unflagged.symm
  · rw [show k = i by omega, unflagged] at mark
    exact Bool.false_ne_true mark

theorem undefinedBit_increment (s : BitVector) {i : Nat} (below : i < s.width) :
    (increment s).undefinedBit i = s.undefinedBit i := by
  unfold increment
  rw [undefinedBit_clearUnusedBits, undefinedBit_withBytes _ _ _ (div_lt_nbytes below), getLsbD_getUndefinedByte]

theorem undefinedBit_plus (r s t : BitVector) {i : Nat} (below : i < t.width) :
    (plus r s t).undefinedBit i = (r.undefinedBit i || s.undefinedBit i) := by
  unfold plus
  rw [undefinedBit_clearUnusedBits, undefinedBit_withBytes _ _ _ (div_lt_nbytes below), BitVec.getLsbD_or,
    getLsbD_getUndefinedByte, getLsbD_getUndefinedByte]

theorem width_plus (r s t : BitVector) : (plus r s t).width = t.width := by
  unfold plus
  rw [width_clearUnusedBits, width_withBytes]

theorem width_not (src dest : BitVector) : (not src dest).width = dest.width := by
  unfold BitVector.not
  rw [width_clearUnusedBits, width_withBytes]

theorem width_increment (s : BitVector) : (increment s).width = s.width := by
  unfold increment
  rw [width_clearUnusedBits, width_withBytes]

theorem width_minus (r s t : BitVector) : (minus r s t).width = t.width := by
  unfold minus
  dsimp only
  rw [width_clearUnusedBits, width_increment, width_plus, width_not]

theorem undefinedBit_minus (r s t : BitVector) {i : Nat} (below : i < t.width) :
    (minus r s t).undefinedBit i = (r.undefinedBit i || s.undefinedBit i) := by
  unfold minus
  dsimp only
  rw [undefinedBit_clearUnusedBits, undefinedBit_increment _ (by rwa [width_plus, width_not]),
    undefinedBit_plus _ _ _ (by rwa [width_not]), undefinedBit_not _ _ below]

end Arithmetic

section Positions
variable {r₁ r₂ s₁ s₂ : BitVector}

theorem testBit_toUint64_ne {i : Nat} (agree : s₁.Agree s₂)
    (ne : (toUint64 false s₁).toNat.testBit i ≠ (toUint64 false s₂).toNat.testBit i) :
    i < s₁.width ∧ i < 64 ∧ s₁.undefinedBit i = true := by
  change (toUint64 false s₁).getLsbD i ≠ (toUint64 false s₂).getLsbD i at ne
  have low : i < 64 := by
    by_contra high
    exact ne (by rw [BitVec.getLsbD_of_ge _ _ (by omega), BitVec.getLsbD_of_ge _ _ (by omega)])
  have width := agree.marks.width
  by_cases inside : i < s₁.width
  · rw [getLsbD_toUint64 _ _ low inside, getLsbD_toUint64 _ _ low (by omega)] at ne
    by_contra unflagged
    exact ne (agree.bits i fun _ => by simpa [inside, low] using unflagged)
  · exact absurd (by rw [getLsbD_toUint64_of_le rfl low (by omega), getLsbD_toUint64_of_le rfl low (by omega)]) ne

theorem rotateAmount_eq (agree : s₁.Agree s₂) (width : r₁.width = r₂.width)
    (divides : ∀ i < s₁.width, i < 64 → s₁.undefinedBit i = true → r₁.width ∣ 2 ^ i) :
    rotateAmount r₁ s₁ = rotateAmount r₂ s₂ := by
  have words := mod_two_pow_modEq (w := r₁.width) (x := (toUint64 false s₁).toNat) (y := (toUint64 false s₂).toNat) 64
    fun i _ ne => by
      obtain ⟨inside, low, flag⟩ := testBit_toUint64_ne agree ne
      exact divides i inside low flag
  rw [Nat.mod_eq_of_lt (toUint64 false s₁).isLt, Nat.mod_eq_of_lt (toUint64 false s₂).isLt] at words
  unfold rotateAmount
  rw [← width]
  exact words

theorem bitsel_index (s : BitVector) : (toUint64 false s).toNat % 2 ^ 32 < 2 ^ min s.width 32 := by
  refine Nat.lt_pow_two_of_testBit _ fun k le => ?_
  rw [Nat.testBit_mod_two_pow]
  by_cases low : k < 32
  · have outside : s.width ≤ k := by omega
    have bit : (toUint64 false s).getLsbD k = false := getLsbD_toUint64_of_le rfl (by omega) outside
    rw [← BitVec.testBit_toNat] at bit
    rw [bit, Bool.and_false]
  · rw [decide_eq_false low, Bool.false_and]

theorem bitsel_noninterfering (agreeR : r₁.Agree r₂) (t : BitVector)
    (unobservable : Unobservable r₁ ((toUint64 false s₁).toNat % 2 ^ 32) ((toUint64 false s₂).toNat % 2 ^ 32))
    {i : Nat} (unflagged : (bitsel r₁ s₁ t).undefinedBit i = false) :
    (bitsel r₁ s₁ t).bit i = (bitsel r₂ s₂ t).bit i := by
  rcases Nat.eq_zero_or_pos i with rfl | pos
  · rw [(bitsel_spec _ _ _).2] at unflagged
    rw [(bitsel_spec _ _ _).1, (bitsel_spec _ _ _).1]
    rcases unobservable with eq | ⟨outside, outside'⟩ | ⟨flag, _⟩
    · rw [← eq, agreeR.getBit unflagged]
    · rw [getBit_of_le outside, getBit_of_le (agreeR.marks.width ▸ outside')]
    · exact absurd (unflagged.symm.trans flag) Bool.false_ne_true
  · rw [bit_bitsel_of_pos _ _ _ pos, bit_bitsel_of_pos _ _ _ pos]

end Positions
end BitVector

/-! ### Flags that suffice -/

namespace BitVector
variable {r₁ r₂ s₁ s₂ t : BitVector}

theorem encode_eq (agree : r₁.Agree r₂) : r₁.encode t = r₂.encode t := by
  refine eq_of_hasUndefinedBit (f := fun x => x.encode t) (some t.setUndefined) ?_ agree
  intro x marked
  exact if_pos marked

theorem decode_eq (agree : r₁.Agree r₂) : r₁.decode t = r₂.decode t := by
  refine eq_of_hasUndefinedBit (f := fun x => x.decode t) t.setUndefined ?_ agree
  intro x marked
  exact if_pos marked

theorem priorityEncode_eq (agree : r₁.Agree r₂) : r₁.priorityEncode t = r₂.priorityEncode t := by
  refine eq_of_hasUndefinedBit (f := fun x => x.priorityEncode t) t.setUndefined ?_ agree
  intro x marked
  exact if_pos marked

theorem mul_eq (signed : Bool) (word : BitVec 64 → BitVec 64 → BitVec 64) (agreeR : r₁.Agree r₂)
    (agreeS : s₁.Agree s₂) (defined : r₁.DefinedBelow 64 ∧ s₁.DefinedBelow 64) :
    pack (word (toUint64 signed r₁) (toUint64 signed s₁)) t =
      pack (word (toUint64 signed r₂) (toUint64 signed s₂)) t := by
  rw [toUint64_eq signed agreeR defined.1, toUint64_eq signed agreeS defined.2]

theorem sdiv_eq (agreeR : r₁.Agree r₂) (agreeS : s₁.Agree s₂)
    (defined : r₁.DefinedBelow 64 ∧ s₁.DefinedBelow 64) : sdiv r₁ s₁ t = sdiv r₂ s₂ t := by
  unfold sdiv
  dsimp only
  rw [toUint64_eq true agreeR defined.1, toUint64_eq true agreeS defined.2]

theorem residues_agree (agreeR : r₁.Agree r₂) (agreeS : s₁.Agree s₂)
    (closed : UpwardClosed t.width fun i => r₁.undefinedBit i || s₁.undefinedBit i) {i : Nat} (below : i < t.width)
    (unflagged : (r₁.undefinedBit i || s₁.undefinedBit i) = false) :
    r₁.residue (i + 1) = r₂.residue (i + 1) ∧ s₁.residue (i + 1) = s₂.residue (i + 1) := by
  refine ⟨residue_eq_of_upwardClosed closed agreeR (fun k flag => ?_) below unflagged,
    residue_eq_of_upwardClosed closed agreeS (fun k flag => ?_) below unflagged⟩
  · rw [flag, Bool.true_or]
  · rw [flag, Bool.or_true]

theorem shiftLeft_agree (same : r₁.width = t.width) (agreeR : r₁.Agree r₂)
    (amount : s₁.shiftAmount = s₂.shiftAmount) {i : Nat} (below : i < t.width)
    (unflagged : (shiftLeft r₁ s₁ t).undefinedBit i = false) :
    (shiftLeft r₁ s₁ t).bit i = (shiftLeft r₂ s₂ t).bit i := by
  rw [(shiftLeft_spec same below).2] at unflagged
  rw [(shiftLeft_spec same below).1, (shiftLeft_spec (agreeR.marks.width.symm.trans same) below).1, ← amount]
  by_cases moved : s₁.shiftAmount ≤ i
  · rw [decide_eq_true moved, Bool.true_and] at unflagged
    rw [agreeR.bits _ fun _ => unflagged]
  · rw [decide_eq_false moved, Bool.false_and, Bool.false_and]

theorem Agree.signBit (agree : r₁.Agree r₂) (defined : r₁.undefinedBit (r₁.width - 1) = false) :
    r₁.signBit = r₂.signBit := by
  rw [signBit_eq, signBit_eq, ← agree.marks.width]
  exact agree.bits _ fun _ => defined

theorem shiftRight_agree {signed : Bool} (same : r₁.width = t.width) (agreeR : r₁.Agree r₂)
    (sign : (signed && r₁.signBit) = (signed && r₂.signBit)) (amount : s₁.shiftAmount = s₂.shiftAmount) {i : Nat}
    (below : i < t.width) (unflagged : (shiftRight signed r₁ s₁ t).undefinedBit i = false) :
    (shiftRight signed r₁ s₁ t).bit i = (shiftRight signed r₂ s₂ t).bit i := by
  rw [(shiftRight_spec signed same below).2] at unflagged
  rw [(shiftRight_spec signed same below).1, (shiftRight_spec signed (agreeR.marks.width.symm.trans same) below).1,
    ← amount, ← sign]
  by_cases moved : i + s₁.shiftAmount < t.width
  · rw [decide_eq_true moved, Bool.true_and] at unflagged
    rw [agreeR.bits _ fun _ => unflagged]
  · rw [if_neg moved, if_neg moved]

theorem shiftRight_one (r s t : BitVector) (width : t.width = 1) (same : r.width = t.width) {i : Nat}
    (below : i < t.width) : (shiftRight true r s t).bit i = r.bit (r.width - 1) := by
  have first : i = 0 := by omega
  rw [(shiftRight_spec true same below).1, Bool.true_and, signBit_eq]
  split
  · rw [show i + s.shiftAmount = r.width - 1 by omega]
  · rfl

theorem rotate_agree {source₁ source₂ : Nat → Nat} (same : r₁.width = t.width) (agreeR : r₁.Agree r₂)
    (inside : ∀ i < t.width, source₁ i < r₁.width ∧ source₂ i < r₁.width)
    (sources : (∀ i < r₁.width, r₁.undefinedBit i = true) ∨ source₁ = source₂) {i : Nat} (below : i < t.width)
    (unflagged : (copyLoop r₁ source₁ id t.clear r₁.width).undefinedBit i = false) :
    (copyLoop r₁ source₁ id t.clear r₁.width).bit i = (copyLoop r₂ source₂ id t.clear r₂.width).bit i := by
  have width := agreeR.marks.width
  have place := inside i below
  have first := rotate_spec source₁ same below place.1
  have second := rotate_spec source₂ (width.symm.trans same) below (width ▸ place.2)
  rw [first.2] at unflagged
  rw [first.1, second.1]
  rcases sources with flagged | eq
  · rw [flagged _ place.1] at unflagged
    exact absurd unflagged.symm Bool.false_ne_true
  · rw [← eq, agreeR.bits _ fun _ => unflagged]

theorem cast_agree {signed : Bool} (agreeR : r₁.Agree r₂)
    (sign : r₁.width < t.width → (signed && r₁.signBit) = (signed && r₂.signBit)) {i : Nat} (below : i < t.width)
    (unflagged : (cast signed t r₁).undefinedBit i = false) : (cast signed t r₁).bit i = (cast signed t r₂).bit i := by
  rw [(cast_spec signed t r₁ below).2] at unflagged
  rw [(cast_spec signed t r₁ below).1, (cast_spec signed t r₂ below).1, ← agreeR.marks.width]
  by_cases inside : i < r₁.width
  · rw [if_pos inside] at unflagged
    rw [if_pos inside, if_pos inside, agreeR.bits _ fun _ => unflagged]
  · rw [if_neg inside, if_neg inside, sign (by omega)]

theorem increment_agree (agree : r₁.Agree r₂) (closed : UpwardClosed r₁.width r₁.undefinedBit) {i : Nat}
    (below : i < r₁.width) (unflagged : (increment r₁).undefinedBit i = false) :
    (increment r₁).bit i = (increment r₂).bit i := by
  rw [undefinedBit_increment _ below] at unflagged
  refine bit_eq_of_residue ?_
  rw [residue_increment _ below, residue_increment _ (agree.marks.width ▸ below),
    residue_eq_of_upwardClosed closed agree (fun _ flag => flag) below unflagged]

theorem plus_agree (agreeR : r₁.Agree r₂) (agreeS : s₁.Agree s₂)
    (closed : UpwardClosed t.width fun i => r₁.undefinedBit i || s₁.undefinedBit i) {i : Nat} (below : i < t.width)
    (unflagged : (plus r₁ s₁ t).undefinedBit i = false) : (plus r₁ s₁ t).bit i = (plus r₂ s₂ t).bit i := by
  rw [undefinedBit_plus _ _ _ below] at unflagged
  have same := residues_agree agreeR agreeS closed below unflagged
  refine bit_eq_of_residue ?_
  rw [residue_plus _ _ _ below, residue_plus _ _ _ below, same.1, same.2]

theorem minus_agree (agreeR : r₁.Agree r₂) (agreeS : s₁.Agree s₂)
    (closed : UpwardClosed t.width fun i => r₁.undefinedBit i || s₁.undefinedBit i) {i : Nat} (below : i < t.width)
    (unflagged : (minus r₁ s₁ t).undefinedBit i = false) : (minus r₁ s₁ t).bit i = (minus r₂ s₂ t).bit i := by
  rw [undefinedBit_minus _ _ _ below] at unflagged
  have same := residues_agree agreeR agreeS closed below unflagged
  refine bit_eq_of_residue ?_
  rw [residue_minus _ _ _ below, residue_minus _ _ _ below, same.1, same.2]

/-- The indices of two runs have the bits in common that are not flagged. -/
theorem testBit_bitsel_index (agree : s₁.Agree s₂) {k : Nat} (inside : k < s₁.width) (low : k < 32)
    (defined : s₁.undefinedBit k = false) :
    ((toUint64 false s₁).toNat % 2 ^ 32).testBit k = ((toUint64 false s₂).toNat % 2 ^ 32).testBit k := by
  have bit₁ := getLsbD_toUint64 false s₁ (show k < 64 by omega) inside
  have bit₂ := getLsbD_toUint64 false s₂ (show k < 64 by omega) (agree.marks.width ▸ inside)
  rw [← BitVec.testBit_toNat] at bit₁ bit₂
  rw [Nat.testBit_mod_two_pow, Nat.testBit_mod_two_pow, bit₁, bit₂, agree.bits k fun _ => defined]

theorem bitsel_agree (suffice : Operation.bitsel.FlagsSuffice r₁ s₁ t) (agreeR : r₁.Agree r₂) (agreeS : s₁.Agree s₂)
    {i : Nat} (unflagged : (bitsel r₁ s₁ t).undefinedBit i = false) :
    (bitsel r₁ s₁ t).bit i = (bitsel r₂ s₂ t).bit i := by
  have index₂ := bitsel_index s₂
  rw [← agreeS.marks.width] at index₂
  exact bitsel_noninterfering agreeR t (suffice _ _ (bitsel_index s₁) index₂ fun _ inside low defined =>
    testBit_bitsel_index agreeS inside low defined) unflagged

theorem concatenate_indistinct (agreeR : r₁.Agree r₂) (agreeS : s₁.Agree s₂) :
    Indistinct (concatenate r₁ s₁ t) (concatenate r₂ s₂ t) := by
  unfold concatenate
  rw [← agreeR.marks.width, ← agreeS.marks.width]
  exact ((Indistinct.refl t.clear).copyLoop agreeS _ _ _).copyLoop agreeR _ _ _

theorem insert_indistinct (agree : r₁.Agree r₂) (lowIndex : Nat) :
    Indistinct (insert r₁ t lowIndex) (insert r₂ t lowIndex) := by
  unfold BitVector.insert
  rw [← agree.marks.width]
  exact (Indistinct.refl t.clear).copyLoop agree _ _ _

theorem shiftRight_signed_agree (same : r₁.width = t.width) (agreeR : r₁.Agree r₂) (agreeS : s₁.Agree s₂)
    (suffice : (Operation.shiftRight true).FlagsSuffice r₁ s₁ t) {i : Nat} (below : i < t.width)
    (unflagged : (shiftRight true r₁ s₁ t).undefinedBit i = false) :
    (shiftRight true r₁ s₁ t).bit i = (shiftRight true r₂ s₂ t).bit i := by
  have sign := agreeR.signBit suffice.1
  rcases suffice.2 with one | defined
  · rw [shiftRight_one _ _ _ (same ▸ one) same below,
      shiftRight_one _ _ _ (same ▸ one) (agreeR.marks.width.symm.trans same) below, ← signBit_eq, ← signBit_eq, sign]
  · exact shiftRight_agree same agreeR (by rw [sign]) (shiftAmount_eq agreeS defined) below unflagged

theorem rotateLeft_agree (same : r₁.width = t.width) (agreeR : r₁.Agree r₂) (agreeS : s₁.Agree s₂)
    (suffice : Operation.rotateLeft.FlagsSuffice r₁ s₁ t) {i : Nat} (below : i < t.width)
    (unflagged : (rotateLeft r₁ s₁ t).undefinedBit i = false) :
    (rotateLeft r₁ s₁ t).bit i = (rotateLeft r₂ s₂ t).bit i := by
  have width := agreeR.marks.width
  have less₁ := rotateAmount_lt r₁ s₁
  have less₂ := rotateAmount_lt r₂ s₂
  refine rotate_agree same agreeR (fun i inside => ?_) (suffice.imp_right fun divides => ?_) below unflagged
  · constructor <;> split <;> omega
  · rw [rotateAmount_eq agreeS width divides, width]

theorem rotateRight_agree (same : r₁.width = t.width) (agreeR : r₁.Agree r₂) (agreeS : s₁.Agree s₂)
    (suffice : Operation.rotateRight.FlagsSuffice r₁ s₁ t) {i : Nat} (below : i < t.width)
    (unflagged : (rotateRight r₁ s₁ t).undefinedBit i = false) :
    (rotateRight r₁ s₁ t).bit i = (rotateRight r₂ s₂ t).bit i := by
  have width := agreeR.marks.width
  refine rotate_agree same agreeR (fun i inside => ?_) (suffice.imp_right fun divides => ?_) below unflagged
  · exact ⟨Nat.mod_lt _ r₁.width_pos, (Nat.mod_lt _ r₂.width_pos).trans_eq width.symm⟩
  · rw [rotateAmount_eq agreeS width divides, width]

end BitVector

namespace Operation
open BitVector
variable {op : Operation} {r r₁ r₂ s s₁ s₂ t : BitVector}

theorem WellSized.of_sameMarks (sized : op.WellSized r s t) (marksR : r.SameMarks r₁) (marksS : s.SameMarks s₁) :
    op.WellSized r₁ s₁ t := by
  unfold WellSized at sized ⊢
  rwa [← marksR.width, ← marksS.width]

theorem FlagsSuffice.of_sameMarks (suffice : op.FlagsSuffice r s t) (marksR : r.SameMarks r₁)
    (marksS : s.SameMarks s₁) : op.FlagsSuffice r₁ s₁ t := by
  have flagsR : r₁.undefinedBit = r.undefinedBit := funext fun i => (marksR.undefinedBit i).symm
  have flagsS : s₁.undefinedBit = s.undefinedBit := funext fun i => (marksS.undefinedBit i).symm
  have getR : r₁.getUndefinedBit = r.getUndefinedBit := funext fun i => (marksR.getUndefinedBit i).symm
  unfold FlagsSuffice DefinedBelow Unobservable at suffice ⊢
  rwa [flagsR, flagsS, getR, ← marksR.width, ← marksS.width]

/-- One lemma for each kind of operation: those that look at whole operands, those that work
bit by bit, those that copy bits, and the sums, whose flags must go up. -/
theorem apply_agree (sized : op.WellSized r₁ s₁ t) (suffice : op.FlagsSuffice r₁ s₁ t) (agreeR : r₁.Agree r₂)
    (agreeS : s₁.Agree s₂) {a b : BitVector} (first : op.apply r₁ s₁ t = some a) (second : op.apply r₂ s₂ t = some b)
    {i : Nat} (below : i < a.width) (unflagged : a.undefinedBit i = false) : a.bit i = b.bit i := by
  have equalResults : op.apply r₁ s₁ t = op.apply r₂ s₂ t → a.bit i = b.bit i := by
    intro same
    rw [Option.some.inj (first.symm.trans (same.trans second))]
  have indistinct : Indistinct a b → a.bit i = b.bit i := fun same => same.bit i below unflagged
  cases op with
  | encode => exact equalResults (encode_eq agreeR)
  | decode => exact equalResults (congrArg some (decode_eq agreeR))
  | priorityEncode => exact equalResults (congrArg some (priorityEncode_eq agreeR))
  | equal | notEqual | less | lessEqual | greater | greaterEqual =>
      exact equalResults (congrArg some (compareInto_eq _ _ _ agreeR agreeS t))
  | mul | div => exact equalResults (congrArg some (mul_eq false _ agreeR agreeS suffice))
  | smul => exact equalResults (congrArg some (mul_eq true _ agreeR agreeS suffice))
  | sdiv => exact equalResults (sdiv_eq agreeR agreeS suffice)
  | assignUint64 | assignString => exact equalResults rfl
  | or =>
      obtain rfl := Option.some.inj first
      obtain rfl := Option.some.inj second
      exact or_noninterfering agreeR agreeS t (width_bytewise _ _ _ _ t ▸ below) unflagged
  | nor =>
      obtain rfl := Option.some.inj first
      obtain rfl := Option.some.inj second
      exact nor_noninterfering agreeR agreeS t (width_bytewise _ _ _ _ t ▸ below) unflagged
  | and =>
      obtain rfl := Option.some.inj first
      obtain rfl := Option.some.inj second
      exact and_noninterfering agreeR agreeS t (width_bytewise _ _ _ _ t ▸ below) unflagged
  | nand =>
      obtain rfl := Option.some.inj first
      obtain rfl := Option.some.inj second
      exact nand_noninterfering agreeR agreeS t (width_bytewise _ _ _ _ t ▸ below) unflagged
  | xor =>
      obtain rfl := Option.some.inj first
      obtain rfl := Option.some.inj second
      exact xor_noninterfering agreeR agreeS t (width_bytewise _ _ _ _ t ▸ below) unflagged
  | xnor =>
      obtain rfl := Option.some.inj first
      obtain rfl := Option.some.inj second
      exact xnor_noninterfering agreeR agreeS t (width_bytewise _ _ _ _ t ▸ below) unflagged
  | not =>
      obtain rfl := Option.some.inj first
      obtain rfl := Option.some.inj second
      exact not_noninterfering agreeR t (width_not _ _ ▸ below) unflagged
  | reduceOr | reduceAnd | reduceXor =>
      obtain rfl := Option.some.inj first
      obtain rfl := Option.some.inj second
      exact indistinct (reduce_indistinct (by decide) _ agreeR t)
  | increment =>
      obtain rfl := Option.some.inj first
      obtain rfl := Option.some.inj second
      exact increment_agree agreeR suffice (width_increment _ ▸ below) unflagged
  | plus =>
      obtain rfl := Option.some.inj first
      obtain rfl := Option.some.inj second
      exact plus_agree agreeR agreeS suffice (width_plus _ _ t ▸ below) unflagged
  | minus =>
      obtain rfl := Option.some.inj first
      obtain rfl := Option.some.inj second
      exact minus_agree agreeR agreeS suffice (width_minus _ _ t ▸ below) unflagged
  | bitsel =>
      obtain rfl := Option.some.inj first
      obtain rfl := Option.some.inj second
      exact bitsel_agree suffice agreeR agreeS unflagged
  | concatenate =>
      obtain rfl := Option.some.inj first
      obtain rfl := Option.some.inj second
      exact indistinct (concatenate_indistinct agreeR agreeS)
  | slice lowIndex =>
      obtain rfl := Option.some.inj first
      obtain rfl := Option.some.inj second
      exact indistinct ((Indistinct.refl t.clear).copyLoop agreeR _ _ _)
  | insert lowIndex =>
      obtain rfl := Option.some.inj first
      obtain rfl := Option.some.inj second
      exact indistinct (insert_indistinct agreeR lowIndex)
  | shiftLeft =>
      obtain rfl := Option.some.inj first
      obtain rfl := Option.some.inj second
      exact shiftLeft_agree sized agreeR (shiftAmount_eq agreeS suffice) (width_shiftLeft _ _ t ▸ below) unflagged
  | shiftRight signed =>
      obtain rfl := Option.some.inj first
      obtain rfl := Option.some.inj second
      rw [width_shiftRight] at below
      cases signed with
      | false => exact shiftRight_agree sized agreeR rfl (shiftAmount_eq agreeS suffice) below unflagged
      | true => exact shiftRight_signed_agree sized agreeR agreeS suffice below unflagged
  | rotateLeft =>
      obtain rfl := Option.some.inj first
      obtain rfl := Option.some.inj second
      exact rotateLeft_agree sized agreeR agreeS suffice (width_rotateLeft _ _ t ▸ below) unflagged
  | rotateRight =>
      obtain rfl := Option.some.inj first
      obtain rfl := Option.some.inj second
      exact rotateRight_agree sized agreeR agreeS suffice (width_rotateRight _ _ t ▸ below) unflagged
  | cast signed =>
      obtain rfl := Option.some.inj first
      obtain rfl := Option.some.inj second
      refine cast_agree agreeR (fun wider => ?_) (width_cast _ t _ ▸ below) unflagged
      cases signed with
      | false => rfl
      | true => rw [agreeR.signBit (suffice wider)]

end Operation

end Ahir.BitVectors
