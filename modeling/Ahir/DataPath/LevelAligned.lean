import Ahir.DataPath.VcDataPathLevel

/-!
# What levels are for

The longest paths that the levels should be, the signals that the elements read,
and the pipelines in which every operand arrives with its iteration.
-/

set_option autoImplicit false

namespace Ahir.DataPath.Level
open Ahir.Graph Ahir.Hardware

def Logic.behind {V α : Type} (uninitialised : α) (stall : Int → Nat → Bool) (input : Nat → α) :
    Logic V → Nat → α
  | .error => fun _ => uninitialised
  | .passed => input
  | .repeated _ low _ depth =>
      SquashLevelRepeater.dataOut uninitialised depth (fun i => stall (low + i - 1)) (fun _ => true) input
  | .operator _ low high =>
      SquashLevelRepeater.dataOut uninitialised (high - low + 1).toNat (fun i => stall (low + i - 1)) (fun _ => true) input

def Logic.stallRange {V : Type} : Logic V → List (Int × Int)
  | .repeated _ low high _ => if low ≤ high then [(low, high)] else []
  | .operator _ low high => if low ≤ high then [(low, high)] else []
  | _ => []

namespace VcDataPath
variable {V E : Type} [DecidableEq V] [DecidableEq E] (p : VcDataPath V E)

/-- What an element takes its output `w` from: its inputs and its guard, without those
written after they are read and without `w` itself. -/
def operands (dpe : DatapathElement V) (w : V) : List V :=
  ((dpe.inputWires ++ dpe.guardWire.toList).filter fun f => !f.2 && decide (f.1 ≠ w)).map Prod.fst

def Arc (f w : V) : Prop := ∃ e, p.driver w = some e ∧ f ∈ operands (p.element e) w

/-- The delays of the paths to a wire, from the wires without operands. -/
inductive DelayPath : V → Int → Prop where
  | source {w : V} (noOperands : ∀ e, p.driver w = some e → operands (p.element e) w = []) : DelayPath w 0
  | through {f w : V} {e : E} {n : Int} (driven : p.driver w = some e)
      (operand : f ∈ operands (p.element e) w) (path : DelayPath f n) :
      DelayPath w (n + (p.element e).delay)

variable (c : Levels V E)

def guardSignal (w : V) (e : E) : Option (V × Int) :=
  match p.logic c w e with
  | .repeated (some enable) _ _ _ => some enable.2
  | .operator (some g) _ _ => some (g, 0)
  | _ => none

/-- The wires and slacks of the signals that carry the operands of `w`. -/
def operandSignals (w : V) (e : E) : List (V × Int) :=
  (((p.element e).inputWires.zipIdx.filter fun f => p.hasSlack w f.1).map fun f =>
      (f.1.1, c.slacks.inputSlack e f.2)) ++
    (p.guardSignal c w e).toList.filter fun g => !p.isConstant g.1 && decide (g.1 ≠ w)

/-- `signal w k` is the signal of `Get_VHDL_Deterministic_Delayed_Id(k)`; the printed
repeaters drive those that are delayed. -/
def Padded {α : Type} (uninitialised : α) (stall : Int → Nat → Bool) (signal : V → Int → Nat → α) : Prop :=
  ∀ w ∈ p.printedWires, ∀ r ∈ p.wirePaddings c w,
    signal w r.currSlack = SquashLevelRepeater.dataOut uninitialised r.depth
      (fun i => stall (r.low + i - 1)) (fun _ => true) (signal w r.lastSlack)

def stallRanges (w : V) : List (Int × Int) :=
  (match p.driver w with
    | none => []
    | some e => (p.logic c w e).stallRange) ++
    (p.wirePaddings c w).map fun r => (r.low, r.high)

/-- `tag w k t` is the iteration of the data on a signal at `t`, and `fed t` that of the
data which the inputs get.  An element gives what it computes from operands of one
iteration the tag of that iteration. -/
structure Tagged {α : Type} (uninitialised : α) (stall : Int → Nat → Bool) (fed : Nat → α)
    (tag : V → Int → Nat → α) : Prop where
  padded : p.Padded c uninitialised stall tag
  /-- What is computed from constants is of any iteration. -/
  source : ∀ w, p.isConstant w = false → (∀ e, p.driver w = some e → p.operandSignals c w e = []) →
    tag w 0 = SquashLevelRepeater.delayed uninitialised stall 0 fed (c.level w).toNat
  element : ∀ w e, p.driver w = some e → p.operandSignals c w e ≠ [] → ∀ common,
    (∀ k ∈ p.operandSignals c w e, tag k.1 k.2 = common) →
    tag w 0 = (p.logic c w e).behind uninitialised stall common

/-- The levels are the longest paths, every operand and every output is its source wire
delayed by the difference of the levels, what an element reads together is of one
iteration, and the repeaters of a wire follow each other along the stall indices. -/
structure LevelAligned : Prop where
  level : ∀ w, some w ∈ p.vertices → IsGreatest {n | p.DelayPath w n} (c.level w)
  longestPath : IsGreatest ({0} ∪ {n | ∃ w, some w ∈ p.vertices ∧ c.level w = n}) c.longestPath
  driven : ∀ w e, p.driver w = some e → p.logic c w e ≠ .error
  operand : ∀ w e, p.driver w = some e → ∀ k ∈ p.operandSignals c w e,
    0 ≤ k.2 ∧ c.level k.1 + k.2 + (p.element e).delay = c.level w
  delayed : ∀ (α : Type) (uninitialised : α) stall signal, p.Padded c uninitialised stall signal →
    (∀ w e, p.driver w = some e → ∀ k ∈ p.operandSignals c w e,
      signal k.1 k.2 = SquashLevelRepeater.delayed uninitialised stall (c.level k.1) (signal k.1 0) k.2.toNat) ∧
    ∀ w ∈ p.outputArguments, signal w (c.longestPath - c.level w) =
      SquashLevelRepeater.delayed uninitialised stall (c.level w) (signal w 0) (c.longestPath - c.level w).toNat
  iteration : ∀ (α : Type) (uninitialised : α) stall fed tag, p.Tagged c uninitialised stall fed tag →
    (∀ w e, p.driver w = some e → ∀ k ∈ p.operandSignals c w e,
      tag k.1 k.2 = SquashLevelRepeater.delayed uninitialised stall 0 fed (c.level w - (p.element e).delay).toNat) ∧
    ∀ w ∈ p.outputArguments, p.isConstant w = false → tag w (c.longestPath - c.level w) =
      SquashLevelRepeater.delayed uninitialised stall 0 fed c.longestPath.toNat
  stalls : ∀ w ∈ p.printedWires,
    (p.stallRanges c w).IsChain (fun r s => s.1 = r.2 + 1) ∧
    (p.stallRanges c w).Pairwise (fun r s => r.2 < s.1) ∧
    ∀ r ∈ p.stallRanges c w, 1 ≤ r.1 ∧ r.1 ≤ r.2 ∧ r.2 ≤ c.longestPath

/-- The operands that the loops treat alike.  No guard is written after it is read, comes
from the element it guards, guards a called pipeline or is an output with a value.  An element
with a delay has an operand and reads none of its outputs unless it has no other, and one whose
output goes through a repeater of its own has an input that varies.  The outputs are in the
graph. -/
structure PlainOperands : Prop where
  guards : ∀ w e g war, p.driver w = some e → (p.element e).guardWire = some (g, war) →
    war = false ∧ g ∉ (p.element e).outputWires ∧ (p.element e).isPipelineOperator = false ∧
      (p.isConstant g = true → p.isConstantWire g = true)
  ownOutputs : ∀ e f, 0 < (p.element e).delay → (f, false) ∈ (p.element e).inputWires →
    f ∈ (p.element e).outputWires → ∀ w ∈ (p.element e).outputWires, w = f
  fed : ∀ w e, p.driver w = some e → 0 < (p.element e).delay → operands (p.element e) w ≠ []
  varying : ∀ w e, p.driver w = some e → (p.element e).flowThrough = false →
    (p.element e).isPipelineOperator = false → ∃ f, (f, false) ∈ (p.element e).inputWires ∧ p.isConstant f = false
  outputs : ∀ w ∈ p.outputArguments, some w ∈ p.vertices

end VcDataPath

end Ahir.DataPath.Level
