import Mathlib.Data.List.Basic

/-!
# Transitions of a control path

An operator is started to sample its operands, completes the sample, is started
to update its result and completes the update.  A control path is written as a
list of arcs between such transitions.
-/

set_option autoImplicit false

namespace Ahir.Aa

/-- What has a sample and an update in a statement: an operation, by the path from
it up to the statement, or the statement itself. -/
structure Operator where
  statement : Nat
  path : List Nat
  deriving DecidableEq

inductive Transition where
  | sampleStart (u : Operator)
  | sampleCompleted (u : Operator)
  | updateStart (u : Operator)
  | updateCompleted (u : Operator)
  | synch (this marked : Nat)
  | delay (this other : Nat)
  deriving DecidableEq

structure Arc where
  source : Transition
  target : Transition
  tokens : Nat
  deriving DecidableEq

/-- `__J(x,y)`: `x` waits for `y`. -/
def joinArc (x y : Transition) : Arc := ⟨y, x, 0⟩

/-- `__MJ(x,y,_)`: but for the first time. -/
def markedJoin (x y : Transition) : Arc := ⟨y, x, 1⟩

inductive Root where
  | statement (definer : Nat)
  | operator (u : Operator)
  deriving DecidableEq

/-- `Get_Index` of the statement. -/
def Root.index : Root → Nat
  | .statement d => d
  | .operator u => u.statement

/-- `__ConnectSplitProtocolPattern`; a region has the arc through it. -/
def connectSplitProtocol (u : Operator) : List Arc :=
  [joinArc (.sampleCompleted u) (.sampleStart u), joinArc (.updateCompleted u) (.updateStart u)]

def selfRelease (u : Operator) : List Arc :=
  [markedJoin (.sampleStart u) (.sampleCompleted u),
    markedJoin (.updateStart u) (.updateCompleted u)]

end Ahir.Aa
