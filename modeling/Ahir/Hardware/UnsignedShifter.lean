import Ahir.Hardware.OperatorPackage
import Ahir.Run.Pipeline

/-!
# The pipelined shifter

Each stage shifts by the weights of up to eight bits of the shift amount.
-/

set_option autoImplicit false

namespace Ahir.Hardware
open Ahir.Run

inductive ShiftOperation where
  | shl | lshr | ashr | rol | ror
  deriving DecidableEq

namespace ShiftOperation
variable {w : Nat}

def move : ShiftOperation → BitVec w → Nat → BitVec w
  | shl, l, amount => l <<< amount
  | lshr, l, amount => l >>> amount
  | ashr, l, amount => l.sshiftRight amount
  | rol, l, amount => l.rotateLeft amount
  | ror, l, amount => l.rotateRight amount

def pipelined : ShiftOperation → Bool
  | shl | lshr | ashr => true
  | rol | ror => false

theorem move_zero {op : ShiftOperation} (pipe : op.pipelined = true) (l : BitVec w) : op.move l 0 = l := by
  cases op with
  | shl => exact BitVec.shiftLeft_zero l
  | lshr => exact BitVec.ushiftRight_zero l
  | ashr => exact BitVec.sshiftRight_zero
  | rol | ror => exact absurd pipe Bool.false_ne_true

theorem move_move {op : ShiftOperation} (pipe : op.pipelined = true) (l : BitVec w) (a b : Nat) :
    op.move (op.move l a) b = op.move l (a + b) := by
  cases op with
  | shl => exact (BitVec.shiftLeft_add l a b).symm
  | lshr => exact (BitVec.shiftRight_add l a b).symm
  | ashr => exact BitVec.sshiftRight_add.symm
  | rol | ror => exact absurd pipe Bool.false_ne_true

end ShiftOperation

namespace UnsignedShifter

def numSigBits (operandWidth shiftAmountWidth : Nat) : Nat := max 1 (min shiftAmountWidth (ceilLog2 operandWidth))

def phasesPerStage : Nat := 8

def pipeDepth (operandWidth shiftAmountWidth : Nat) : Nat := ceil (numSigBits operandWidth shiftAmountWidth) phasesPerStage

variable {w n t : Nat}

structure Stage (w n t : Nat) where
  result : BitVec w
  tag : BitVec t
  shiftAmount : BitVec (numSigBits w n)
  active : Bool

structure Input (w n t : Nat) where
  slvL : BitVec w
  slvR : BitVec n
  tagIn : BitVec t
  inRdy : Bool

def Input.stage (i : Input w n t) : Stage w n t := ⟨i.slvL, i.tagIn, i.slvR.setWidth (numSigBits w n), i.inRdy⟩

def shiftBy (shiftRightFlag signedFlag : Bool) (shifted : BitVec w) (amount : Nat) : BitVec w :=
  if shiftRightFlag then if signedFlag then shifted.sshiftRight amount else shifted >>> amount
  else shifted <<< amount

/-- The loop over the bits `bits` of the shift amount. -/
def shiftLoop (shiftRightFlag signedFlag : Bool) (bits : List Nat) (s : Stage w n t) : Stage w n t :=
  { s with
    result := bits.foldl
      (fun shifted i => if s.shiftAmount.getLsbD i then shiftBy shiftRightFlag signedFlag shifted (2 ^ i) else shifted)
      s.result }

/-- The stage that has `k` stages before it. -/
def work (shiftRightFlag signedFlag : Bool) (k : Nat) : Stage w n t → Stage w n t :=
  shiftLoop shiftRightFlag signedFlag
    (List.range' (k * phasesPerStage) (min (numSigBits w n) ((k + 1) * phasesPerStage) - k * phasesPerStage))

/-- A clock cycle in which the shifter is not stalled, and not reset. -/
def step (op : ShiftOperation) (stages : Nat → Stage w n t) (i : Input w n t) : Nat → Stage w n t :=
  advance (work (decide (op = .lshr ∨ op = .ashr)) (decide (op = .ashr))) stages i.stage

def output (stages : Nat → Stage w n t) : Option (Stage w n t) :=
  if w > 1 then some (stages (pipeDepth w n - 1)) else none

theorem shiftBy_flags {op : ShiftOperation} (pipe : op.pipelined = true) (l : BitVec w) (amount : Nat) :
    shiftBy (decide (op = .lshr ∨ op = .ashr)) (decide (op = .ashr)) l amount = op.move l amount := by
  cases op with
  | shl | lshr | ashr => rfl
  | rol | ror => exact absurd pipe Bool.false_ne_true

/-- After the loop over the lowest `k` bits the vector is shifted by their number. -/
theorem shiftLoop_range {op : ShiftOperation} (pipe : op.pipelined = true) (s : Stage w n t) (k : Nat) :
    shiftLoop (decide (op = .lshr ∨ op = .ashr)) (decide (op = .ashr)) (List.range k) s =
      { s with result := op.move s.result (s.shiftAmount.toNat % 2 ^ k) } := by
  unfold shiftLoop
  congr 1
  induction k with
  | zero => rw [Nat.pow_zero, Nat.mod_one, ShiftOperation.move_zero pipe, List.range_zero, List.foldl_nil]
  | succ k ih =>
      rw [List.range_succ, List.foldl_append, ih, List.foldl_cons, List.foldl_nil, Nat.mod_pow_succ,
        ← Nat.toNat_testBit, BitVec.testBit_toNat]
      cases s.shiftAmount.getLsbD k with
      | false => rw [if_neg Bool.false_ne_true, Bool.toNat_false, Nat.mul_zero, Nat.add_zero]
      | true => rw [if_pos rfl, shiftBy_flags pipe, ShiftOperation.move_move pipe, Bool.toNat_true, Nat.mul_one]

theorem shiftLoop_append (shiftRightFlag signedFlag : Bool) (bits bits' : List Nat) (s : Stage w n t) :
    shiftLoop shiftRightFlag signedFlag bits' (shiftLoop shiftRightFlag signedFlag bits s) =
      shiftLoop shiftRightFlag signedFlag (bits ++ bits') s := by
  unfold shiftLoop
  rw [List.foldl_append]

theorem through_work (shiftRightFlag signedFlag : Bool) (k : Nat) (s : Stage w n t) :
    through (work shiftRightFlag signedFlag) k s =
      shiftLoop shiftRightFlag signedFlag (List.range (min (numSigBits w n) ((k + 1) * phasesPerStage))) s := by
  induction k with
  | zero =>
      unfold through work
      rw [Nat.zero_mul, Nat.sub_zero, List.range_eq_range']
  | succ k ih =>
      unfold through
      rw [ih]
      unfold work
      rw [shiftLoop_append, List.range_eq_range', List.range_eq_range']
      congr 1
      by_cases more : (k + 1) * phasesPerStage ≤ numSigBits w n
      · rw [Nat.min_eq_right more]
        have next : List.range' 0 ((k + 1) * phasesPerStage) ++ List.range' (0 + (k + 1) * phasesPerStage)
            (min (numSigBits w n) ((k + 1 + 1) * phasesPerStage) - (k + 1) * phasesPerStage) = _ :=
          List.range'_append_1
        rw [Nat.zero_add] at next
        rw [next]
        congr 1
        have : (k + 1 + 1) * phasesPerStage = (k + 1) * phasesPerStage + phasesPerStage := Nat.succ_mul _ _
        omega
      · have : (k + 1 + 1) * phasesPerStage = (k + 1) * phasesPerStage + phasesPerStage := Nat.succ_mul _ _
        rw [Nat.min_eq_left (by omega), Nat.min_eq_left (by omega), Nat.sub_eq_zero_of_le (by omega), List.range'_zero,
          List.append_nil]

theorem le_pipeDepth_mul (w n : Nat) : numSigBits w n ≤ (pipeDepth w n - 1 + 1) * phasesPerStage := by
  have pos : 1 ≤ numSigBits w n := Nat.le_max_left _ _
  have le := le_ceil_mul (numSigBits w n) (show 0 < phasesPerStage by decide)
  unfold pipeDepth phasesPerStage at *
  omega

/-- What has entered comes out, shifted, when the cycles that are not stalled have moved it
through all stages. -/
theorem output_runStalling {op : ShiftOperation} (pipe : op.pipelined = true) (two : 1 < w) (stages : Nat → Stage w n t)
    (before after : List (Bool × Input w n t)) (i : Input w n t)
    (cycles : (entered after).length = pipeDepth w n - 1) :
    output (runStalling (step op) stages (before ++ (false, i) :: after)) =
      some ⟨op.move i.slvL (i.slvR.setWidth (numSigBits w n)).toNat, i.tagIn, i.slvR.setWidth (numSigBits w n), i.inRdy⟩ := by
  have inputs : entered (before ++ (false, i) :: after) = entered before ++ i :: entered after := by
    rw [entered_append, entered_cons_false]
  have stage (l : List (Input w n t)) : l.foldl (step op) stages =
      (l.map Input.stage).foldl (advance (work (decide (op = .lshr ∨ op = .ashr)) (decide (op = .ashr)))) stages := by
    rw [List.foldl_map]
    rfl
  have last := foldl_advance (work (decide (op = .lshr ∨ op = .ashr)) (decide (op = .ashr)))
    ((entered before).map Input.stage) ((entered after).map Input.stage) i.stage stages
  rw [List.length_map, cycles, through_work, Nat.min_eq_left (le_pipeDepth_mul w n), shiftLoop_range pipe,
    Nat.mod_eq_of_lt (BitVec.isLt _)] at last
  unfold output
  rw [if_pos two, runStalling_eq, inputs, stage, List.map_append, List.map_cons, last]
  rfl

end UnsignedShifter
end Ahir.Hardware
