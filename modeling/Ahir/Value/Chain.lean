import Ahir.Value.Compare
import Ahir.Value.Arithmetic

/-!
# Chains of operations

The words of the storage hold more than the value: a complement, a product or the
rest of a wider value may be left above it.  A chain of operations denotes its result
modulo a power of two, as long as nothing reads what is above.
-/

set_option autoImplicit false

namespace Ahir.Value
open Ahir.Data

/-- A chain of operations on unsigned values that ends in one of width `n`. -/
inductive Chain : Nat → Type where
  | value {n : Nat} (v : Unsigned) (unsigned : v.kind = .unsigned) (width : v.width = n) : Chain n
  | add {n : Nat} (x y : Chain n) : Chain n
  | subtract {n : Nat} (x y : Chain n) : Chain n
  | multiply {n : Nat} (x y : Chain n) : Chain n
  | complement {n : Nat} (x : Chain n) : Chain n
  | and {n : Nat} (x y : Chain n) : Chain n
  | or {n : Nat} (x y : Chain n) : Chain n
  | xor {n : Nat} (x y : Chain n) : Chain n
  | shiftLeft {n : Nat} (x : Chain n) (idx : Int) : Chain n
  | shiftRight {n : Nat} (x : Chain n) (idx : Int) : Chain n
  | resize {n : Nat} (x : Chain n) (w : Nat) (pos : 0 < w) : Chain w

namespace Chain

def eval : {n : Nat} → Chain n → Unsigned
  | _, .value v _ _ => v
  | _, .add x y => x.eval.add y.eval
  | _, .subtract x y => x.eval.subtract y.eval
  | _, .multiply x y => x.eval.multiply y.eval
  | _, .complement x => x.eval.complement
  | _, .and x y => x.eval.and y.eval
  | _, .or x y => x.eval.or y.eval
  | _, .xor x y => x.eval.xor y.eval
  | _, .shiftLeft x idx => x.eval.shiftLeft idx
  | _, .shiftRight x idx => x.eval.shiftRight idx
  | _, .resize x w pos => x.eval.resize w pos

/-- The integer result modulo `2 ^ n`. -/
def denotes : {n : Nat} → Chain n → BitVec n
  | n, .value v _ _ => v.residue n
  | _, .add x y => x.denotes + y.denotes
  | _, .subtract x y => x.denotes - y.denotes
  | _, .multiply x y => x.denotes * y.denotes
  | _, .complement x => ~~~x.denotes
  | _, .and x y => x.denotes &&& y.denotes
  | _, .or x y => x.denotes ||| y.denotes
  | _, .xor x y => x.denotes ^^^ y.denotes
  | _, .shiftLeft x idx => x.denotes <<< idx.toNat
  | _, .shiftRight x idx => x.denotes >>> idx.toNat
  | _, .resize x w _ => x.denotes.setWidth w

/-- Multiplications are of at most 64 bits, and what grows has nothing above it. -/
def Sound : {n : Nat} → Chain n → Prop
  | _, .value _ _ _ => True
  | n, .multiply x y => n ≤ 64 ∧ x.Sound ∧ y.Sound
  | _, .add x y | _, .subtract x y | _, .and x y | _, .or x y | _, .xor x y => x.Sound ∧ y.Sound
  | _, .complement x | _, .shiftLeft x _ | _, .shiftRight x _ => x.Sound
  | _, .resize (n := n) x w _ => (n < w → x.eval.Clean) ∧ x.Sound

theorem width_eval {n : Nat} (c : Chain n) : c.eval.width = n := by
  induction c with
  | value v unsigned width => exact width
  | add x y hx hy => exact (Unsigned.width_add (hx.trans hy.symm)).trans hx
  | subtract x y hx hy => exact (Unsigned.width_subtract (hx.trans hy.symm)).trans hx
  | multiply x y hx hy =>
      unfold eval Unsigned.multiply
      split
      · exact hx
      · exact hx
  | complement x hx => exact hx
  | and x y hx hy => exact hx
  | or x y hx hy => exact hx
  | xor x y hx hy => exact hx
  | shiftLeft x idx hx => exact (Unsigned.shiftLeft_spec hx idx).1
  | shiftRight x idx hx => exact (Unsigned.shiftRight_spec hx idx).1
  | resize x w pos hx => exact Unsigned.width_signExtend _

theorem residue_eval {n : Nat} (c : Chain n) (sound : c.Sound) : c.eval.residue n = c.denotes := by
  induction c with
  | value v unsigned width => rfl
  | add x y hx hy =>
      rw [eval, Unsigned.residue_add x.width_eval y.width_eval, hx sound.1, hy sound.2, denotes]
  | subtract x y hx hy =>
      rw [eval, Unsigned.residue_subtract x.width_eval y.width_eval, hx sound.1, hy sound.2, denotes]
  | multiply x y hx hy =>
      rw [eval, Unsigned.residue_multiply y.width_eval sound.1, hx sound.2.1, hy sound.2.2, denotes]
  | complement x hx => rw [eval, Unsigned.residue_complement x.width_eval, hx sound, denotes]
  | and x y hx hy => rw [eval, Unsigned.residue_and x.width_eval, hx sound.1, hy sound.2, denotes]
  | or x y hx hy => rw [eval, Unsigned.residue_or x.width_eval, hx sound.1, hy sound.2, denotes]
  | xor x y hx hy => rw [eval, Unsigned.residue_xor x.width_eval, hx sound.1, hy sound.2, denotes]
  | shiftLeft x idx hx => rw [eval, (Unsigned.shiftLeft_spec x.width_eval idx).2, hx sound, denotes]
  | shiftRight x idx hx => rw [eval, (Unsigned.shiftRight_spec x.width_eval idx).2, hx sound, denotes]
  | @resize m x w pos hx =>
      rw [eval, denotes, ← hx sound.2]
      by_cases grows : m < w
      · exact Unsigned.residue_resize_of_clean x.width_eval (sound.1 grows) pos grows
      · exact Unsigned.residue_resize_of_le x.width_eval pos (by omega)

def digits {n : Nat} (x : BitVec n) : String :=
  String.ofList ((List.range n).reverse.map fun i => if x.getLsbD i then '1' else '0')

theorem toStr_eq {v : Unsigned} {n : Nat} (hv : v.width = n) : v.toStr = digits (v.residue n) := by
  unfold Unsigned.toStr digits
  rw [hv]
  refine congrArg String.ofList (List.map_congr_left fun i mem => ?_)
  rw [List.mem_reverse, List.mem_range] at mem
  rw [Unsigned.getLsbD_residue, decide_eq_true mem, Bool.true_and]

/-- What the observers of one chain, or of two, answer about the residues. -/
structure Observed {n : Nat} (c d : Chain n) : Prop where
  residue : c.eval.residue n = c.denotes
  toStr : c.eval.toStr = digits c.denotes
  equal : c.eval.equal d.eval = true ↔ c.denotes = d.denotes
  lessThan : c.eval.lessThan d.eval = true ↔ c.denotes < d.denotes
  greater : c.eval.greater d.eval = true ↔ c.denotes > d.denotes
  toBoolean : c.eval.Clean → (c.eval.toBoolean = true ↔ c.denotes ≠ 0)
  toUinteger : c.eval.Clean → c.eval.toUinteger = c.denotes.setWidth 64
  divide : n ≤ 64 → c.eval.Clean → d.eval.Clean → d.denotes ≠ 0 →
    ∃ q, c.eval.divide d.eval = some q ∧ q.residue n = c.denotes / d.denotes

theorem observed {n : Nat} (c d : Chain n) (soundC : c.Sound) (soundD : d.Sound) : Observed c d := by
  have widthC := c.width_eval
  have widthD := d.width_eval
  have residueC := c.residue_eval soundC
  have residueD := d.residue_eval soundD
  have same : c.eval.width = d.eval.width := widthC.trans widthD.symm
  refine ⟨residueC, ?_, ?_, ?_, ?_, fun clean => ?_, fun clean => ?_, fun le cleanC cleanD nonzero => ?_⟩
  · rw [toStr_eq widthC, residueC]
  · rw [Unsigned.equal_eq _ _ same, widthC, widthD, residueC, residueD, decide_eq_true_iff, BitVec.toNat_inj]
  · rw [Unsigned.lessThan, Unsigned.greater_eq _ _ same.symm, widthC, widthD, residueC, residueD,
      decide_eq_true_iff, BitVec.lt_def]
  · rw [Unsigned.greater_eq _ _ same, widthC, widthD, residueC, residueD, decide_eq_true_iff, gt_iff_lt, BitVec.lt_def]
  · rw [Unsigned.toBoolean_of_clean widthC clean, residueC, decide_eq_true_iff]
  · rw [Unsigned.toUinteger_of_clean widthC clean, residueC]
  · obtain ⟨q, quotient, _, residue⟩ := Unsigned.divide_of_clean widthC widthD le cleanC cleanD (by rwa [residueD])
    exact ⟨q, quotient, by rw [residue, residueC, residueD]⟩

theorem clean_of_word {v : Unsigned} {word : UWord} (single : v.bitField = [word]) (below : word.toNat < 2 ^ v.width) :
    v.Clean := by
  intro i above
  rw [Unsigned.getBit, single]
  rcases Nat.lt_or_ge i 64 with first | beyond
  · rw [bitAt, Nat.div_eq_of_lt first, Nat.mod_eq_of_lt first]
    exact Nat.testBit_lt_two_pow (below.trans_le (Nat.pow_le_pow_right (by decide) above))
  · exact bitAt_of_le (by rw [List.length_singleton]; omega)

/-- `200 + ~100` in eight bits, and the product of `3` and `5` in four bits, which grows to eight. -/
theorem observed_byte :
    let c : Chain 8 := .add (.value ⟨.unsigned, 8, [200], rfl, by decide⟩ rfl rfl)
      (.complement (.value ⟨.unsigned, 8, [100], rfl, by decide⟩ rfl rfl))
    let d : Chain 8 := .resize (.multiply (.value ⟨.unsigned, 4, [3], rfl, by decide⟩ rfl rfl)
      (.value ⟨.unsigned, 4, [5], rfl, by decide⟩ rfl rfl)) 8 (by decide)
    Observed c d ∧ c.denotes = 99 ∧ d.denotes = 15 :=
  ⟨observed _ _ ⟨trivial, trivial⟩ ⟨fun _ => clean_of_word rfl (by decide), by decide, trivial, trivial⟩, by decide, by decide⟩

/-- In 65 bits `2 * 3` stays `2`. -/
theorem multiply_wide :
    let two : Chain 65 := .value ⟨.unsigned, 65, [2, 0], rfl, by decide⟩ rfl rfl
    let three : Chain 65 := .value ⟨.unsigned, 65, [3, 0], rfl, by decide⟩ rfl rfl
    (Chain.multiply two three).denotes = 6 ∧ (Chain.multiply two three).eval.residue 65 = 2 := by
  decide +kernel

end Chain
end Ahir.Value
