import Ahir.Aa.Transition

/-!
# The control path of a block of statements

The statements of a block are written one after the other.  A barrier waits for
the statements back to the barrier before it, and what is written behind it is
handed the barrier.  An operator waits for the barrier, for its guard and for
the roots of its operands, the operators and statements that its values come
from; what is flow-through or volatile has no operator, and its roots are those
of its operands.

The arcs without a token that lead to a sample, a barrier or a completion are
written.  The reenabling arcs carry a token, and what a second assignment to a
variable waits for leads to the start of its update.
-/

set_option autoImplicit false

namespace Ahir.Aa.BlockStatement

/-- What an operator does with its operands.  `access` is a load, a store, a
dereference or an address, with the calculation of the address for operand; a
stage of that is `renamed` when it does not compute. -/
inductive Operation where
  | operator (trivial : Bool)
  | functionCall (isVolatile : Bool)
  | pipe
  | access (guarded : Bool)
  | addressStage (renamed guarded : Bool)
  deriving DecidableEq

namespace Operation

/-- `Evaluate` gives a value when the operands have values. -/
def isEvaluated : Operation → Bool
  | operator _ => true
  | addressStage _ _ => true
  | functionCall _ => false
  | pipe => false
  | access _ => false

/-- `Is_Flow_Through`, and `Is_Trivial` for a function call. -/
def isFlowThrough (intermediate : Bool) : Operation → Bool
  | operator trivial => trivial && intermediate
  | addressStage renamed _ => renamed && intermediate
  | functionCall isVolatile => isVolatile
  | pipe => false
  | access _ => false

def isHeld : Operation → Bool
  | addressStage _ _ => false
  | _ => true

def isGuarded : Operation → Bool
  | access guarded => guarded
  | addressStage _ guarded => guarded
  | _ => true

def isChained : Operation → Bool
  | pipe => true
  | _ => false

end Operation

mutual

/-- An expression; a variable is named by the statement that assigns to it. -/
inductive Expression where
  | constant
  | signalRead
  | reference (definer : Nat)
  | operation (operation : Operation) (operands : Operands)

inductive Operands where
  | nil
  | cons (first : Expression) (rest : Operands)

end

inductive Target where
  | implicitVariable
  | pipe
  | object (address : Expression)
  | dereference (address : Expression)

/-- A statement, with its guard and the marked statements it is to synch with. -/
inductive Statement where
  | null
  | barrier
  | assignment (isVolatile : Bool) (guardExpression : Option Nat) (synchStatements : List (Nat × Bool))
      (target : Target) (source : Expression)
  | call (isVolatile isForeign : Bool) (guardExpression : Option Nat)
      (synchStatements : List (Nat × Bool)) (inputArgs : Operands) (outputArgs : List Target)

abbrev Sequence := List Statement

mutual

def Expression.isConstant : Expression → Bool
  | .constant => true
  | .signalRead => false
  | .reference _ => false
  | .operation op operands => op.isEvaluated && operands.areConstant

def Operands.areConstant : Operands → Bool
  | .nil => true
  | .cons first rest => first.isConstant && rest.areConstant

end

/-- `source_is_implicit`. -/
def Expression.isImplicit : Expression → Bool
  | .signalRead => true
  | .reference _ => true
  | .operation (.functionCall isVolatile) _ => isVolatile
  | _ => false

def Target.isImplicitVariable : Target → Bool
  | .implicitVariable => true
  | _ => false

mutual

/-- `Collect_Root_Sources` for the expression at `path` in statement `i`. -/
def Expression.collectRootSources (definers : Nat → List Root) (i : Nat) (intermediate : Bool)
    (path : List Nat) : Expression → List Root
  | .constant => []
  | .signalRead => []
  | .reference d => definers d
  | .operation op operands =>
      if op.isEvaluated && operands.areConstant then []
      else if op.isFlowThrough intermediate then operands.collectRootSources definers i 0 path
      else [.operator ⟨i, path⟩]

/-- The operands from the `n`-th on. -/
def Operands.collectRootSources (definers : Nat → List Root) (i : Nat) (n : Nat)
    (path : List Nat) : Operands → List Root
  | .nil => []
  | .cons first rest =>
      first.collectRootSources definers i true (n :: path) ++
        rest.collectRootSources definers i (n + 1) path

end

namespace Sequence
variable (body : Sequence)

/-- The roots of a variable that is assigned before statement `n`.  A volatile
statement takes values of earlier statements only
(`Check_Volatility_Ordering_Condition`). -/
def definers : Nat → Nat → List Root
  | 0, _ => []
  | n + 1, d =>
      if d = n then
        match body[n]? with
        | some (.assignment true _ _ _ source) =>
            source.collectRootSources (definers n) n true [0]
        | some (.call true _ _ _ inputArgs _) =>
            inputArgs.collectRootSources (definers n) n 0 [0]
        | _ => [.statement d]
      else definers n d

def isWritten (d : Nat) : Bool :=
  match body[d]? with
  | some (.assignment _ _ _ target source) => !(target.isImplicitVariable && source.isConstant)
  | some (.call _ isForeign _ _ _ _) => !isForeign
  | _ => false

def unitOf (d : Nat) : Operator :=
  match body[d]? with
  | some (.assignment _ _ _ target source) =>
      if target.isImplicitVariable then
        if source.isImplicit then ⟨d, []⟩ else ⟨d, [0]⟩
      else ⟨d, [1]⟩
  | _ => ⟨d, []⟩

def rootUnit : Root → Operator
  | .statement d => body.unitOf d
  | .operator u => u

def visitedRoots (roots : List Root) : List Root :=
  roots.filter fun r => body.isWritten r.index

/-- `Write_Forward_Dependency_From_Roots`. -/
def forwardDependency (x : Transition) (roots : List Root) : List Arc :=
  (body.visitedRoots roots).map fun r => joinArc x (.updateCompleted (body.rootUnit r))

/-- The roots of the guard when variables assigned before `limit` are visited. -/
def guardRoots (limit : Nat) (guardExpression : Option Nat) : List Root :=
  guardExpression.toList.flatMap (body.definers limit)

def barrierDependency (barrier : Option Nat) (x : Transition) : List Arc :=
  barrier.toList.map fun b => joinArc x (.updateCompleted ⟨b, []⟩)

def takenRoots (limit : Nat) (guardExpression : Option Nat) (op : Operation) (roots : List Root) :
    List Root :=
  (if op.isGuarded then body.guardRoots limit guardExpression else []) ++ roots

def writeOperator (limit i : Nat) (guardExpression : Option Nat) (barrier : Option Nat)
    (op : Operation) (path : List Nat) (roots : List Root) : List Arc :=
  (if op.isHeld then barrierDependency barrier (.sampleStart ⟨i, path⟩) else []) ++
    (body.forwardDependency (.sampleStart ⟨i, path⟩)
        (body.takenRoots limit guardExpression op roots) ++
      (connectSplitProtocol ⟨i, path⟩ ++
        (if op.isChained then [joinArc (.updateStart ⟨i, path⟩) (.sampleCompleted ⟨i, path⟩)] else [])))

end Sequence

mutual

/-- `Write_VC_Control_Path_Optimized` for an expression. -/
def Expression.write (body : Sequence) (limit i : Nat) (guardExpression : Option Nat)
    (barrier : Option Nat) (intermediate : Bool) (path : List Nat) : Expression → List Arc
  | .constant => []
  | .signalRead => []
  | .reference _ => []
  | .operation op operands =>
      if op.isEvaluated && operands.areConstant then []
      else
        operands.write body limit i guardExpression barrier 0 path ++
          (if op.isFlowThrough intermediate then []
          else body.writeOperator limit i guardExpression barrier op path
            (operands.collectRootSources (body.definers limit) i 0 path))

def Operands.write (body : Sequence) (limit i : Nat) (guardExpression : Option Nat)
    (barrier : Option Nat) (n : Nat) (path : List Nat) : Operands → List Arc
  | .nil => []
  | .cons first rest =>
      first.write body limit i guardExpression barrier true (n :: path) ++
        rest.write body limit i guardExpression barrier (n + 1) path

end

/-- A target as it is written: a store through a pointer has no guard. -/
def Target.expression : Target → Expression
  | .implicitVariable => .constant
  | .pipe => .operation .pipe .nil
  | .object address => .operation (.access true) (.cons address .nil)
  | .dereference address => .operation (.access false) (.cons address .nil)

namespace Sequence
variable (body : Sequence)

/-- `Write_VC_Control_Path_As_Target_Optimized`. -/
def writeTarget (limit i : Nat) (guardExpression : Option Nat) (barrier : Option Nat)
    (path : List Nat) (target : Target) : List Arc :=
  target.expression.write body limit i guardExpression barrier false path

/-- `Write_VC_Synch_Dependency` of statement `i`. -/
def writeSynchDependency (i : Nat) (synchStatements : List (Nat × Bool)) : List Arc :=
  synchStatements.flatMap fun (marked, updateFlag) =>
    if decide (marked < i) && body.isWritten marked then
      [joinArc (.synch i marked)
          (if updateFlag then .updateCompleted (body.unitOf marked)
          else .sampleCompleted (body.unitOf marked)),
        joinArc (.sampleStart (body.unitOf i)) (.synch i marked)]
    else []

/-- The interlock of a statement that copies a variable, a signal or the value of
a volatile function, and the transitions of a call. -/
def writeOwn (i : Nat) (barrier : Option Nat) (roots : List Root) : List Arc :=
  barrierDependency barrier (.sampleStart ⟨i, []⟩) ++
    (body.forwardDependency (.sampleStart ⟨i, []⟩) roots ++ connectSplitProtocol ⟨i, []⟩)

/-- `AaAssignmentStatement::Write_VC_Control_Path_Optimized`. -/
def writeAssignment (i : Nat) (barrier : Option Nat) (isVolatile : Bool)
    (guardExpression : Option Nat) (synchStatements : List (Nat × Bool)) (target : Target)
    (source : Expression) : List Arc :=
  if target.isImplicitVariable && source.isConstant then []
  else
    let roots := source.collectRootSources (body.definers i) i isVolatile [0]
    source.write body i i guardExpression barrier isVolatile [0] ++
      (body.writeTarget i i guardExpression barrier [1] target ++
        if isVolatile then []
        else
          (if target.isImplicitVariable then
            if source.isImplicit then
              body.writeOwn i barrier (body.guardRoots i guardExpression ++ roots)
            else []
          else body.forwardDependency (.sampleStart ⟨i, [1]⟩) roots) ++
          body.writeSynchDependency i synchStatements)

/-- The output arguments from the `n`-th on.  When one has been a variable, the
call is visited. -/
def writeOutputArgs (i : Nat) (barrier : Option Nat) (isVolatile : Bool)
    (guardExpression : Option Nat) (roots : List Root) : Nat → Nat → List Target → List Arc
  | _, _, [] => []
  | limit, n, target :: rest =>
      body.writeTarget limit i guardExpression barrier [n, 1] target ++
        ((if target.isImplicitVariable then []
          else if isVolatile then body.forwardDependency (.sampleStart ⟨i, [n, 1]⟩) roots
          else [joinArc (.sampleStart ⟨i, [n, 1]⟩) (.updateCompleted ⟨i, []⟩)]) ++
        writeOutputArgs i barrier isVolatile guardExpression roots
          (if target.isImplicitVariable && !isVolatile then i + 1 else limit) (n + 1) rest)

/-- `AaCallStatement::Write_VC_Control_Path_Optimized`.  The barrier is handed to
the arguments and not to the call. -/
def writeCall (i : Nat) (barrier : Option Nat) (isVolatile isForeign : Bool)
    (guardExpression : Option Nat) (synchStatements : List (Nat × Bool)) (inputArgs : Operands)
    (outputArgs : List Target) : List Arc :=
  if isForeign then []
  else
    let roots := inputArgs.collectRootSources (body.definers i) i 0 [0]
    inputArgs.write body i i guardExpression barrier 0 [0] ++
      ((if isVolatile then []
        else
          body.writeOwn i none (body.guardRoots i guardExpression ++ roots) ++
            body.writeSynchDependency i synchStatements) ++
      body.writeOutputArgs i barrier isVolatile guardExpression roots i 0 outputArgs)

def isBarrier (j : Nat) : Bool :=
  match body[j]? with
  | some .barrier => true
  | _ => false

def isAwaited (j : Nat) : Bool :=
  match body[j]? with
  | some (.assignment isVolatile _ _ _ _) => !isVolatile
  | some (.call isVolatile _ _ _ _ _) => !isVolatile
  | _ => false

/-- The loop at a barrier, down from statement `j`. -/
def writeBarrier (i : Nat) : Nat → Bool → List Arc
  | 0, _ => []
  | j + 1, foundOne =>
      if body.isBarrier j then
        if foundOne then []
        else
          [joinArc (.delay j i) (.updateCompleted ⟨j, []⟩),
            joinArc (.updateCompleted ⟨i, []⟩) (.delay j i)]
      else if body.isAwaited j then
        joinArc (.updateCompleted ⟨i, []⟩) (.updateCompleted (body.unitOf j)) ::
          writeBarrier i j true
      else writeBarrier i j foundOne

/-- `trailing_barrier` when statement `i` is written. -/
def trailingBarrier : Nat → Option Nat
  | 0 => none
  | i + 1 => if body.isBarrier i then some i else trailingBarrier i

def writeStatement (i : Nat) : List Arc :=
  match body[i]? with
  | some .barrier => body.writeBarrier i i false
  | some (.assignment isVolatile guardExpression synchStatements target source) =>
      body.writeAssignment i (body.trailingBarrier i) isVolatile guardExpression synchStatements
        target source
  | some (.call isVolatile isForeign guardExpression synchStatements inputArgs outputArgs) =>
      body.writeCall i (body.trailingBarrier i) isVolatile isForeign guardExpression
        synchStatements inputArgs outputArgs
  | _ => []

/-- `AaBlockStatement::Write_VC_Control_Path_Optimized`. -/
def arcs : List Arc := (List.range body.length).flatMap body.writeStatement

end Sequence

end Ahir.Aa.BlockStatement
