import Mathlib.Data.List.Sort
import Mathlib.Order.Bounds.Basic
import Ahir.Graph.TopologicalSort
import Ahir.Hardware.SquashLevelRepeater

/-!
# Levels of a deterministic pipeline

`Calculate_Longest_Paths_From_Inputs` gives every wire its level and every operand
of an element its slack, `Calculate_Wire_Slacks` collects the slacks of a wire, and
`Print_VHDL_Level_For_Wire` prints the logic that drives it and the repeaters that
pad it.

`_deterministic_level` and `_guard_slack` have no initial value: what they hold
before they are set is a parameter.
-/

set_option autoImplicit false

namespace Ahir.DataPath.Level
open Ahir.Graph Ahir.Hardware

structure DatapathElement (V : Type) where
  /-- Each with its `Get_Input_WAR_Flag`. -/
  inputWires : List (V × Bool)
  /-- With its `Get_Guard_WAR_Flag`. -/
  guardWire : Option (V × Bool)
  guardComplement : Bool
  outputWires : List V
  flowThrough : Bool
  /-- `Get_Deterministic_Pipeline_Delay` -/
  pipelineDelay : Nat
  /-- `Is_Deterministic_Pipeline_Operator`: a call of another pipeline. -/
  isPipelineOperator : Bool
  flowThrough_delay : flowThrough = true → pipelineDelay = 0

/-- `dpe_delay` -/
def DatapathElement.delay {V : Type} (dpe : DatapathElement V) : Int :=
  if dpe.flowThrough then 0 else dpe.pipelineDelay

structure VcDataPath (V E : Type) where
  inputArguments : List V
  outputArguments : List V
  /-- The wires of `_wire_map`, in its order. -/
  wireMap : List V
  /-- `Is_Constant` -/
  isConstant : V → Bool
  /-- `Is("vcConstantWire")`; the other constants are outputs with a value. -/
  isConstantWire : V → Bool
  driver : V → Option E
  element : E → DatapathElement V
  driver_iff : ∀ w e, driver w = some e ↔ w ∈ (element e).outputWires
  input_undriven : ∀ w ∈ inputArguments, driver w = none
  constant_undriven : ∀ w, isConstant w = true → driver w = none
  constantWire_constant : ∀ w, isConstantWire w = true → isConstant w = true
  output_notConstantWire : ∀ w ∈ outputArguments, isConstantWire w = false
  driven_listed : ∀ w, driver w ≠ none → w ∈ wireMap ∨ w ∈ outputArguments
  /-- `Find_Wire`, which also finds the constants of the program. -/
  operand_listed : ∀ e, ∀ f ∈ (element e).inputWires ++ (element e).guardWire.toList,
    isConstantWire f.1 = false → f.1 ∈ inputArguments ++ outputArguments ++ wireMap

structure Slacks (E : Type) where
  inputSlacks : E → List Int
  guardSlack : E → Int

/-- `Get_Input_Slack` -/
def Slacks.inputSlack {E : Type} (s : Slacks E) (e : E) (idx : Nat) : Int := (s.inputSlacks e).getD idx 0

structure LongestPaths (V : Type) where
  longestPathMap : V → Option Int
  retVal : Int

structure Levels (V E : Type) where
  level : V → Int
  longestPath : Int
  slacks : Slacks E

/-- A `SquashLevelRepeater` from one delayed copy of a wire to the next. -/
structure Padding where
  lastSlack : Int
  currSlack : Int
  low : Int
  high : Int

/-- `D` -/
def Padding.depth (r : Padding) : Nat := (r.high - r.low + 1).toNat

inductive Logic (V : Type) where
  /-- Reported by `vcSystem::Error`: nothing drives the wire. -/
  | error
  /-- The wire is its repeater's input. -/
  | passed
  /-- Behind a repeater, with the enable's complement, wire and slack. -/
  | repeated (enable : Option (Bool × V × Int)) (low high : Int) (depth : Nat)
  /-- An instance of the called pipeline, with the wire that stands for its guard. -/
  | operator (guard : Option V) (low high : Int)

namespace VcDataPath
variable {V E : Type} [DecidableEq V] [DecidableEq E] (p : VcDataPath V E)

/-- The inputs with an arc to the wire `w`. -/
def arcInputs (dpe : DatapathElement V) (w : V) : List V :=
  (dpe.inputWires.filter fun f => !f.2 && decide (f.1 ≠ w)).map Prod.fst

/-- The guard with an arc to the wire `w`. -/
def arcGuard (dpe : DatapathElement V) (w : V) : List V :=
  (dpe.guardWire.toList.map Prod.fst).filter fun g => decide (g ≠ w)

/-- The arcs of `t_graph`; its source is the null pointer. -/
def arcs : List (Option V × Option V) :=
  (p.inputArguments.map fun iw => (none, some iw)) ++
    (p.wireMap ++ p.outputArguments).flatMap fun w =>
      match p.driver w with
      | none => []
      | some e => (arcInputs (p.element e) w ++ arcGuard (p.element e) w).map fun f => (some f, some w)

def vertices : List (Option V) := (none :: p.arcs.flatMap fun a => [a.1, a.2]).dedup

/-- `lp_value` and `ret_val` after a predecessor. -/
def relax (delay : Int) (values : Int × Int) (predLpValue : Int) : Int × Int :=
  let lpValue := max values.1 (predLpValue + delay)
  (lpValue, max values.2 lpValue)

/-- `lp_value` and `ret_val` of a driven wire.  An input that is not in the map fails
the assertion; a guard that is not there counts as 0. -/
def lpValue (dpe : DatapathElement V) (w : V) (s : LongestPaths V) : Option (Int × Int) := do
  let values ← (arcInputs dpe w).foldlM
    (fun values f => (s.longestPathMap f).map (relax dpe.delay values)) (0, s.retVal)
  return match dpe.guardWire with
    | none => values
    | some g => relax dpe.delay values ((s.longestPathMap g.1).getD 0)

/-- One turn of the loop over `precedence_order`. -/
def visit (s : LongestPaths V) : Option V → Option (LongestPaths V)
  | none => some s
  | some w =>
      match p.driver w with
      | none => some ⟨Function.update s.longestPathMap w (some 0), s.retVal⟩
      | some e => (lpValue (p.element e) w s).map fun values =>
          ⟨Function.update s.longestPathMap w (some values.1), values.2⟩

/-- The loop; `precedence_order` is read from its end. -/
def longestPaths (sort : List (Option V) → List (Option V × Option V) → List (Option V)) :
    Option (LongestPaths V) :=
  (sort p.vertices p.arcs).reverse.foldlM p.visit ⟨fun _ => none, 0⟩

/-- The operands that have a slack at the wire `w`. -/
def hasSlack (w : V) (f : V × Bool) : Bool := !f.2 && !p.isConstant f.1 && decide (f.1 ≠ w)

def slackOf (lpValue delay predLpValue : Int) : Int :=
  if predLpValue + delay < lpValue then lpValue - (predLpValue + delay) else 0

def setSlacks (lp : V → Int) (s : Slacks E) (w : V) : Slacks E :=
  match p.driver w with
  | none => s
  | some e =>
      let dpe := p.element e
      { inputSlacks := Function.update s.inputSlacks e
          (dpe.inputWires.map fun f => if p.hasSlack w f then slackOf (lp w) dpe.delay (lp f.1) else 0)
        guardSlack :=
          match dpe.guardWire with
          | none => s.guardSlack
          | some g =>
              if p.hasSlack w g then Function.update s.guardSlack e (slackOf (lp w) dpe.delay (lp g.1))
              else s.guardSlack }

/-- `Calculate_Longest_Paths_From_Inputs`, with the fields it sets. -/
def calculateLongestPathsFromInputs (sort : List (Option V) → List (Option V × Option V) → List (Option V))
    (unsetLevel : V → Int) (unset : Slacks E) : Option (Levels V E) :=
  (p.longestPaths sort).map fun s =>
    { level := fun w => (s.longestPathMap w).getD (unsetLevel w)
      longestPath := s.retVal
      slacks := (p.wireMap ++ p.outputArguments).foldl
        (p.setSlacks fun w => (s.longestPathMap w).getD 0) unset }

variable (c : Levels V E)

/-- What `Calculate_Wire_Slacks` inserts, turn by turn. -/
def insertedSlacks : List (V × Int) :=
  (p.outputArguments.map fun ow => (ow, c.longestPath - c.level ow)) ++
    (p.outputArguments ++ p.wireMap).flatMap fun w =>
      match p.driver w with
      | none => []
      | some e =>
          (((p.element e).inputWires.zipIdx.filter fun f => p.hasSlack w f.1).map fun f =>
              (f.1.1, c.slacks.inputSlack e f.2)) ++
            (p.element e).guardWire.toList.map fun g => (g.1, c.slacks.guardSlack e)

/-- `wire_slack_map[w]`, in the order of its iterator. -/
def wireSlackMap (w : V) : List Int :=
  (((p.insertedSlacks c).filter fun k => decide (k.1 = w)).map Prod.snd).dedup.insertionSort (· ≤ ·)

def paddings (level : Int) : Int → List Int → List Padding
  | _, [] => []
  | last, curr :: rest =>
      if 0 < curr then ⟨last, curr, level + last + 1, level + curr⟩ :: paddings level curr rest
      else paddings level last rest

/-- The padding of a wire in `Print_VHDL_Level_For_Wire`. -/
def wirePaddings (w : V) : List Padding :=
  if p.isConstantWire w then [] else paddings (c.level w) 0 (p.wireSlackMap c w)

def enable (e : E) : Option (Bool × V × Int) :=
  match (p.element e).guardWire with
  | none => none
  | some (g, war) =>
      if !p.isConstant g && !war then some ((p.element e).guardComplement, g, c.slacks.guardSlack e) else none

/-- `Print_VHDL_Level_Repeater`, or the instance of the called pipeline.  The stall
indices of the instance are those of its first output, and its guard is the name
of the guard wire. -/
def logic (w : V) (e : E) : Logic V :=
  let dpe := p.element e
  if dpe.isPipelineOperator then
    let level := c.level (dpe.outputWires.headD w)
    .operator (dpe.guardWire.map Prod.fst) (level - dpe.pipelineDelay + 1) level
  else if dpe.inputWires.all fun f => p.isConstant f.1 || f.2 then
    if dpe.flowThrough then .passed else .error
  else if dpe.flowThrough then .passed
  else .repeated (p.enable c e) (c.level w - dpe.pipelineDelay + 1) (c.level w) dpe.pipelineDelay

def printedWires : List V := p.inputArguments ++ p.outputArguments ++ p.wireMap

end VcDataPath

end Ahir.DataPath.Level
