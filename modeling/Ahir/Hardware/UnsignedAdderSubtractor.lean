import Ahir.Data.Bits
import Ahir.Hardware.QueueBase
import Ahir.Run.Pipeline

/-!
# The pipelined adder and subtractor

Chunks are added in the first stage, the carries into them are found in the second and
added in the third.
-/

set_option autoImplicit false

namespace Ahir.Hardware.UnsignedAdderSubtractor
open Ahir.Data Ahir.Run

structure Cell (c : Nat) where
  sum : BitVec c
  bp : Bool
  bg : Bool

/-- The loop of a cell over its lowest `k` bits: whether they propagate a carry, and whether
they generate one. -/
def propGen {c : Nat} (a b : BitVec c) (k : Nat) : Bool × Bool :=
  (List.range k).foldl
    (fun carries i => (carries.1 && (a.getLsbD i || b.getLsbD i),
      (a.getLsbD i && b.getLsbD i) || (carries.2 && (a.getLsbD i || b.getLsbD i))))
    (true, false)

def addSubCell {c : Nat} (a b : BitVec c) : Cell c := ⟨a + b, (propGen a b c).1, (propGen a b c).2⟩

variable {n c t : Nat}

structure Input (n t : Nat) where
  slvL : BitVec n
  slvR : BitVec n
  slvCarryIn : Bool
  subtractOp : Bool
  inRdy : Bool
  tagIn : BitVec t

namespace Input

def lPadded (c : Nat) (i : Input n t) : BitVec (ceil n c * c) := i.slvL.signExtend (ceil n c * c)

def rPadded (c : Nat) (i : Input n t) : BitVec (ceil n c * c) :=
  if i.subtractOp then ~~~i.slvR.signExtend (ceil n c * c) else i.slvR.signExtend (ceil n c * c)

def lsChunkCarryIn (i : Input n t) : Bool := i.slvCarryIn ^^ i.subtractOp

/-- The cell of chunk `k`. -/
def cell (c : Nat) (i : Input n t) (k : Nat) : Cell c :=
  addSubCell ((i.lPadded c).extractLsb' (k * c) c) ((i.rPadded c).extractLsb' (k * c) c)

def expected (i : Input n t) : BitVec n :=
  let carry := (BitVec.ofBool i.slvCarryIn).setWidth n
  if i.subtractOp then i.slvL - i.slvR - carry else i.slvL + i.slvR + carry

end Input

/-- The registers; those of stage `k + 1` in `stageTags` and `stageActive` at `k`. -/
structure State (c t : Nat) where
  addSubCells : Nat → Cell c
  subtractOp1 : Bool
  sumDelayed : Nat → BitVec c
  blockCarries : Nat → Bool
  subtractOp2 : Bool
  finalSums : Nat → BitVec c
  stageTags : Nat → BitVec t
  stageActive : Nat → Bool

instance : Inhabited (State c t) :=
  ⟨fun _ => ⟨0#c, false, false⟩, false, fun _ => 0#c, fun _ => false, false, fun _ => 0#c, fun _ => 0#t, fun _ => false⟩

/-- The carries `cin` of the second stage, into chunk `k`. -/
def blockCarry (cells : Nat → Cell c) (lsChunkCarryIn : Bool) : Nat → Bool
  | 0 => lsChunkCarryIn
  | k + 1 => (blockCarry cells lsChunkCarryIn k && (cells k).bp) || (cells k).bg

/-- A clock cycle that is not stalled and without reset. -/
def step (s : State c t) (i : Input n t) : State c t where
  addSubCells := i.cell c
  subtractOp1 := i.subtractOp
  -- the carry into the lowest chunk is that of the operation at the inputs
  blockCarries := blockCarry s.addSubCells i.lsChunkCarryIn
  sumDelayed k := (s.addSubCells k).sum
  subtractOp2 := s.subtractOp1
  finalSums k := s.sumDelayed k + (BitVec.ofBool (s.blockCarries k)).setWidth c
  stageTags := advance (fun _ => id) s.stageTags i.tagIn
  stageActive := advance (fun _ => id) s.stageActive i.inRdy

def result (n : Nat) (s : State c t) : BitVec n :=
  (lowBits (ceil n c * c) fun k => (s.finalSums (k / c)).getLsbD (k % c)).setWidth n

theorem propGen_carry (a b : BitVec c) (carry : Bool) (k : Nat) :
    ((carry && (propGen a b k).1) || (propGen a b k).2) = carryInto carry a.getLsbD b.getLsbD k := by
  induction k with
  | zero => exact (Bool.or_false _).trans (Bool.and_true _)
  | succ k ih =>
      unfold propGen at ih ⊢
      rw [List.range_succ, List.foldl_append, List.foldl_cons, List.foldl_nil, carryInto, ← ih]
      unfold carryBit
      cases a.getLsbD k <;> cases b.getLsbD k <;> simp

/-- The carry of the second stage is that of a ripple carry adder over all chunks. -/
theorem blockCarry_cell (i : Input n t) (carry : Bool) (k : Nat) (le : k ≤ ceil n c) :
    blockCarry (i.cell c) carry k = carryInto carry (i.lPadded c).getLsbD (i.rPadded c).getLsbD (k * c) := by
  induction k with
  | zero =>
      rw [Nat.zero_mul]
      rfl
  | succ k ih =>
      rw [blockCarry, ih (by omega), Nat.succ_mul, carryInto_add]
      refine (propGen_carry _ _ _ c).trans ?_
      have chunk (x : BitVec (ceil n c * c)) (j : Nat) (below : j < c) :
          (x.extractLsb' (k * c) c).getLsbD j = x.getLsbD (k * c + j) := by
        rw [BitVec.getLsbD_extractLsb', decide_eq_true below, Bool.true_and]
      exact carryInto_congr _ (chunk _) (chunk _)

theorem getLsbD_cell_sum (i : Input n t) (carry : Bool) {k j : Nat} (chunk : k < ceil n c) (below : j < c) :
    ((i.cell c k).sum + (BitVec.ofBool (blockCarry (i.cell c) carry k)).setWidth c).getLsbD j =
      sumBit ((i.lPadded c).getLsbD (k * c + j)) ((i.rPadded c).getLsbD (k * c + j))
        (carryInto carry (i.lPadded c).getLsbD (i.rPadded c).getLsbD (k * c + j)) := by
  have bit (x : BitVec (ceil n c * c)) (j : Nat) (below : j < c) :
      (x.extractLsb' (k * c) c).getLsbD j = x.getLsbD (k * c + j) := by
    rw [BitVec.getLsbD_extractLsb', decide_eq_true below, Bool.true_and]
  have adder := lowBits_sumBit c (blockCarry (i.cell c) carry k) ((i.lPadded c).extractLsb' (k * c) c).getLsbD
    ((i.rPadded c).extractLsb' (k * c) c).getLsbD
  rw [lowBits_getLsbD, lowBits_getLsbD] at adder
  have sum : (i.cell c k).sum = (i.lPadded c).extractLsb' (k * c) c + (i.rPadded c).extractLsb' (k * c) c := rfl
  rw [sum, ← adder, getLsbD_lowBits, decide_eq_true below, Bool.true_and, bit _ j below, bit _ j below,
    blockCarry_cell i carry k (by omega), carryInto_add]
  congr 1
  exact carryInto_congr _ (fun l less => bit _ l (by omega)) fun l less => bit _ l (by omega)

/-- Three cycles after it has entered, an operation comes out with the carry of the next one. -/
theorem result_eq (pos : 0 < c) (i next last : Input n t) (s : State c t) :
    result n (step (step (step s i) next) last) = i.slvL +
      (if i.subtractOp then ~~~i.slvR else i.slvR) + (BitVec.ofBool next.lsChunkCarryIn).setWidth n := by
  have le : n ≤ ceil n c * c := le_ceil_mul n pos
  have sums : (lowBits (ceil n c * c) fun k => ((step (step (step s i) next) last).finalSums (k / c)).getLsbD (k % c)) =
      i.lPadded c + i.rPadded c + (BitVec.ofBool next.lsChunkCarryIn).setWidth (ceil n c * c) := by
    rw [← lowBits_getLsbD (i.lPadded c), ← lowBits_getLsbD (i.rPadded c), ← lowBits_sumBit]
    refine lowBits_congr fun k below => ?_
    have position : k / c * c + k % c = k := by rw [Nat.mul_comm]; exact Nat.div_add_mod k c
    have bit := getLsbD_cell_sum i next.lsChunkCarryIn (Nat.div_lt_of_lt_mul (by rwa [Nat.mul_comm])) (Nat.mod_lt k pos)
    rw [position] at bit
    exact bit
  have extended (x : BitVec n) : (x.signExtend (ceil n c * c)).setWidth n = x := by
    refine BitVec.eq_of_getLsbD_eq fun k below => ?_
    rw [BitVec.getLsbD_setWidth, decide_eq_true below, Bool.true_and, BitVec.getLsbD_signExtend,
      decide_eq_true (by omega : k < ceil n c * c), Bool.true_and, if_pos below]
  have left : (i.lPadded c).setWidth n = i.slvL := extended i.slvL
  have right : (i.rPadded c).setWidth n = if i.subtractOp then ~~~i.slvR else i.slvR := by
    unfold Input.rPadded
    cases i.subtractOp with
    | true => rw [if_pos rfl, if_pos rfl, BitVec.setWidth_not le, extended]
    | false => rw [if_neg Bool.false_ne_true, if_neg Bool.false_ne_true, extended]
  unfold result
  rw [sums, BitVec.setWidth_add _ _ le, BitVec.setWidth_add _ _ le, left, right, BitVec.setWidth_setWidth_of_le _ le]

theorem expected_eq (i : Input n t) : i.expected = i.slvL +
    (if i.subtractOp then ~~~i.slvR else i.slvR) + (BitVec.ofBool i.lsChunkCarryIn).setWidth n := by
  unfold Input.expected Input.lsChunkCarryIn
  have one : (BitVec.ofBool true).setWidth n = 1#n := by
    refine BitVec.eq_of_toNat_eq ?_
    rw [BitVec.toNat_setWidth, BitVec.toNat_ofNat]
    rfl
  have none : (BitVec.ofBool false).setWidth n = 0#n := BitVec.setWidth_zero n 1
  cases i.subtractOp with
  | false => rw [if_neg Bool.false_ne_true, if_neg Bool.false_ne_true, Bool.xor_false]
  | true =>
      rw [if_pos rfl, if_pos rfl, Bool.xor_true]
      cases i.slvCarryIn with
      | false =>
          rw [Bool.not_false, one, none, BitVec.sub_zero, BitVec.sub_eq_add_neg, BitVec.neg_eq_not_add, BitVec.add_assoc]
      | true =>
          rw [Bool.not_true, one, none, BitVec.add_zero, BitVec.sub_eq_add_neg i.slvL, BitVec.neg_eq_not_add,
            ← BitVec.add_assoc, BitVec.add_sub_cancel]

theorem setWidth_ofBool_inj (pos : 0 < n) {x y : Bool}
    (same : (BitVec.ofBool x).setWidth n = (BitVec.ofBool y).setWidth n) : x = y := by
  have bit := congrArg (fun z => z.getLsbD 0) same
  rw [BitVec.getLsbD_setWidth, BitVec.getLsbD_setWidth, decide_eq_true pos, BitVec.getLsbD_ofBool,
    BitVec.getLsbD_ofBool] at bit
  exact bit

/-- In every run an operation has its result and its tag just when the next one that enters
has the same carry into the lowest chunk. -/
theorem result_expected_iff (posC : 0 < c) (posN : 0 < n) (s : State c t) (before after : List (Bool × Input n t))
    (i next last : Input n t) (cycles : entered after = [next, last]) :
    (result n (runStalling step s (before ++ (false, i) :: after)) = i.expected ∧
      (runStalling step s (before ++ (false, i) :: after)).stageTags 2 = i.tagIn ∧
      (runStalling step s (before ++ (false, i) :: after)).stageActive 2 = i.inRdy) ↔
      next.lsChunkCarryIn = i.lsChunkCarryIn := by
  have run : runStalling step s (before ++ (false, i) :: after) =
      step (step (step (runStalling step s before) i) next) last := by
    rw [runStalling_append, runStalling_eq step _ (_ :: after), entered_cons_false, cycles]
    rfl
  rw [run, result_eq posC, expected_eq]
  constructor
  · intro correct
    exact setWidth_ofBool_inj posN (BitVec.add_right_inj _ |>.mp correct.1)
  · intro same
    rw [same]
    exact ⟨rfl, rfl, rfl⟩

/-- A difference that is followed by another one. -/
theorem result_expected_five_three :
    result 4 (runStalling step (default : State 2 3) ([] ++ (false, ⟨5#4, 3#4, false, true, true, 1#3⟩) ::
      [(true, ⟨0#4, 0#4, false, false, false, 0#3⟩), (false, ⟨9#4, 1#4, false, true, true, 2#3⟩),
        (false, ⟨0#4, 0#4, false, false, false, 0#3⟩)])) = 2#4 :=
  ((result_expected_iff (by decide) (by decide) (default : State 2 3) [] _ ⟨5#4, 3#4, false, true, true, 1#3⟩
    ⟨9#4, 1#4, false, true, true, 2#3⟩ ⟨0#4, 0#4, false, false, false, 0#3⟩ rfl).mpr rfl).1

/-- A difference that is followed by a sum is too small by one. -/
theorem result_ne_expected_five_three :
    result 4 (runStalling step (default : State 2 3) [(false, ⟨5#4, 3#4, false, true, true, 1#3⟩),
      (false, ⟨9#4, 1#4, false, false, true, 2#3⟩), (false, ⟨0#4, 0#4, false, false, false, 0#3⟩)]) ≠
      Input.expected ⟨5#4, 3#4, false, true, true, 1#3⟩ := by
  have result := result_eq (by decide) ⟨5#4, 3#4, false, true, true, 1#3⟩ ⟨9#4, 1#4, false, false, true, 2#3⟩
    ⟨0#4, 0#4, false, false, false, 0#3⟩ (default : State 2 3)
  intro expected
  have differ := result.symm.trans expected
  revert differ
  decide

end Ahir.Hardware.UnsignedAdderSubtractor
