import Ahir.Aa.Transition
import Ahir.Graph.MarkedGraph
import Ahir.ControlPath.CPForkBlock

/-!
# The control path of a pipelined body of assignments

The statements assign to implicit variables, each of which has one assignment;
a variable is named by the number of that statement.  An operator, and a
statement that copies a variable, has a sample and an update with a start and a
completion each.  `Write_VC_Control_Path_Optimized` writes the statements one
after the other, an operator after its operands, and joins what is written to
what has been written before.
-/

set_option autoImplicit false

namespace Ahir.Aa
open Ahir.Graph Ahir.ControlPath

/-- A source expression.  An operation that is `trivial` gets no operator when
its value is intermediate. -/
inductive Expression where
  | constant
  | reference (definer : Nat)
  | unary (trivial : Bool) (rest : Expression)
  | binary (trivial : Bool) (first second : Expression)
  | ternary (trivial : Bool) (test ifTrue ifFalse : Expression)
  deriving DecidableEq

namespace Root

def unit : Root → Operator
  | statement d => ⟨d, []⟩
  | operator u => u

end Root

namespace Expression

def isConstant : Expression → Bool
  | constant => true
  | reference _ => false
  | unary _ rest => rest.isConstant
  | binary _ first second => first.isConstant && second.isConstant
  | ternary _ test ifTrue ifFalse => test.isConstant && ifTrue.isConstant && ifFalse.isConstant

/-- `Is_Flow_Through`, at a place of the source. -/
def isFlowThrough (path : List Nat) : Expression → Bool
  | constant => false
  | reference _ => decide (path ≠ [])
  | unary trivial _ => trivial && decide (path ≠ [])
  | binary trivial _ _ => trivial && decide (path ≠ [])
  | ternary trivial _ _ _ => trivial && decide (path ≠ [])

/-- `Collect_Root_Sources` for the expression at `path` in statement `i`. -/
def collectRootSources (i : Nat) : List Nat → Expression → List Root
  | _, constant => []
  | _, reference d => [.statement d]
  | path, e@(unary _ rest) =>
      if e.isConstant then []
      else if e.isFlowThrough path then rest.collectRootSources i (0 :: path)
      else [.operator ⟨i, path⟩]
  | path, e@(binary _ first second) =>
      if e.isConstant then []
      else if e.isFlowThrough path then
        first.collectRootSources i (0 :: path) ++ second.collectRootSources i (1 :: path)
      else [.operator ⟨i, path⟩]
  | path, e@(ternary _ test ifTrue ifFalse) =>
      if e.isConstant then []
      else if e.isFlowThrough path then
        test.collectRootSources i (0 :: path) ++ (ifTrue.collectRootSources i (1 :: path) ++
          ifFalse.collectRootSources i (2 :: path))
      else [.operator ⟨i, path⟩]

end Expression

/-- `_synch_statements` lists the marked statements, each with its
`_synch_update_flag_map`. -/
structure Assignment where
  source : Expression
  guardExpression : Option Nat
  buffering : Nat
  synchStatements : List (Nat × Bool)

/-- The statements in order: statement `d` assigns to variable `d`. -/
abbrev Body := List Assignment

namespace Body
variable (body : Body)

/-- Statement `d` is written: a constant one writes nothing. -/
def IsWritten (d : Nat) : Prop := ∃ s ∈ body[d]?, s.source.isConstant = false

instance (d : Nat) : Decidable (body.IsWritten d) :=
  inferInstanceAs (Decidable (∃ s ∈ body[d]?, s.source.isConstant = false))

/-- In `visited_elements` while statement `i` is written: the statements before
it, and the operators that its own operators take values from. -/
def isVisited (i : Nat) : Root → Bool
  | .statement d => decide (d < i) && decide (body.IsWritten d)
  | .operator _ => true

def visitedRoots (i : Nat) (roots : List Root) : List Operator :=
  (roots.filter (body.isVisited i)).map Root.unit

/-- `Write_Forward_Dependency_From_Roots` and `Write_VC_Update_Reenables` for an
operand, or a guard, of `u`. -/
def takeFrom (u : Operator) (roots : List Operator) : List Arc :=
  roots.flatMap fun r =>
    [joinArc (.sampleStart u) (.updateCompleted r), markedJoin (.updateStart r) (.sampleCompleted u)]

def guardRoots (guardExpression : Option Nat) : List Root :=
  guardExpression.toList.map Root.statement

/-- What is written for an operator of statement `i` with these roots. -/
def writeOperator (i : Nat) (guardExpression : Option Nat) (path : List Nat) (roots : List Root) :
    List Arc :=
  takeFrom ⟨i, path⟩ (body.visitedRoots i (guardRoots guardExpression)) ++
    (takeFrom ⟨i, path⟩ (body.visitedRoots i roots) ++
      (connectSplitProtocol ⟨i, path⟩ ++ selfRelease ⟨i, path⟩))

/-- `Write_VC_Control_Path_Optimized` for an expression. -/
def writeExpression (i : Nat) (guardExpression : Option Nat) : List Nat → Expression → List Arc
  | _, .constant => []
  | _, .reference _ => []
  | path, e@(.unary _ rest) =>
      if e.isConstant then []
      else
        writeExpression i guardExpression (0 :: path) rest ++
          (if e.isFlowThrough path then []
          else body.writeOperator i guardExpression path (rest.collectRootSources i (0 :: path)))
  | path, e@(.binary _ first second) =>
      if e.isConstant then []
      else
        (writeExpression i guardExpression (0 :: path) first ++
          writeExpression i guardExpression (1 :: path) second) ++
          (if e.isFlowThrough path then []
          else body.writeOperator i guardExpression path
            (first.collectRootSources i (0 :: path) ++ second.collectRootSources i (1 :: path)))
  | path, e@(.ternary _ test ifTrue ifFalse) =>
      if e.isConstant then []
      else
        (writeExpression i guardExpression (0 :: path) test ++
          (writeExpression i guardExpression (1 :: path) ifTrue ++
            writeExpression i guardExpression (2 :: path) ifFalse)) ++
          (if e.isFlowThrough path then []
          else body.writeOperator i guardExpression path
            (test.collectRootSources i (0 :: path) ++ (ifTrue.collectRootSources i (1 :: path) ++
              ifFalse.collectRootSources i (2 :: path))))

/-- `Write_VC_Synch_Dependency` of statement `i`. -/
def writeSynchDependency (i : Nat) (synchStatements : List (Nat × Bool)) : List Arc :=
  synchStatements.flatMap fun (marked, updateFlag) =>
    if body.isVisited i (.statement marked) then
      [joinArc (.synch i marked)
          (if updateFlag then .updateCompleted ⟨marked, []⟩ else .sampleCompleted ⟨marked, []⟩),
        joinArc (.sampleStart ⟨i, []⟩) (.synch i marked),
        markedJoin (if updateFlag then .updateStart ⟨marked, []⟩ else .sampleStart ⟨marked, []⟩)
          (.sampleCompleted ⟨i, []⟩)]
    else []

end Body

/-- `Get_Non_Trivial_Source_References` from the references to variable `x` in
the expression at `path` in statement `j`: the operators that take its value,
where `user` is what the value of the expression itself goes to. -/
def Expression.readers (x j : Nat) (user : Operator) : List Nat → Expression → List Operator
  | _, .constant => []
  | _, .reference d => if d = x then [user] else []
  | path, e@(.unary _ rest) =>
      rest.readers x j (if e.isFlowThrough path then user else ⟨j, path⟩) (0 :: path)
  | path, e@(.binary _ first second) =>
      first.readers x j (if e.isFlowThrough path then user else ⟨j, path⟩) (0 :: path) ++
        second.readers x j (if e.isFlowThrough path then user else ⟨j, path⟩) (1 :: path)
  | path, e@(.ternary _ test ifTrue ifFalse) =>
      test.readers x j (if e.isFlowThrough path then user else ⟨j, path⟩) (0 :: path) ++
        (ifTrue.readers x j (if e.isFlowThrough path then user else ⟨j, path⟩) (1 :: path) ++
          ifFalse.readers x j (if e.isFlowThrough path then user else ⟨j, path⟩) (2 :: path))

namespace Body
variable (body : Body) (below : Operator → Operator → Bool)

/-- `read_root_set` when statement `i` is written.  From the reference that a
guard is nothing is found: it has no targets. -/
def readRootSet (i : Nat) : List Operator :=
  insertPointers below []
    ((List.range (i + 1)).flatMap fun j =>
      (body[j]?.map fun s => s.source.readers i j ⟨j, []⟩ []).getD [])

/-- The loop over `read_root_set` in `Write_VC_WAR_Dependencies`, with the
buffering of the statement so far. -/
def writeWARDependencies (i : Nat) : Nat → List Operator → List Arc
  | _, [] => []
  | buffering, r :: rest =>
      if r = ⟨i, []⟩ ∧ buffering = 1 then writeWARDependencies i buffering rest
      else
        joinArc (.updateStart ⟨i, []⟩) (.sampleCompleted r) ::
          markedJoin (.sampleStart r) (.updateCompleted ⟨i, []⟩) ::
          writeWARDependencies i (if buffering < 2 then 2 else buffering) rest

/-- `AaAssignmentStatement::Write_VC_Control_Path_Optimized`: a statement that
copies a variable has an interlock of its own. -/
def writeStatement (i : Nat) (s : Assignment) : List Arc :=
  if s.source.isConstant then []
  else
    body.writeExpression i s.guardExpression [] s.source ++
      ((match s.source with
        | .reference d => body.writeOperator i s.guardExpression [] [.statement d]
        | _ => []) ++
      (body.writeSynchDependency i s.synchStatements ++
        writeWARDependencies i s.buffering (body.readRootSet below i)))

def arcs : List Arc :=
  (List.range body.length).flatMap fun i => (body[i]?.map (body.writeStatement below i)).getD []

/-- The marked graph that is written for the body: every transition has an arc. -/
def graph : MarkedGraph Transition where
  inside := {t | ∃ a ∈ body.arcs below, t = a.source ∨ t = a.target}
  arc x y n := ⟨x, y, n⟩ ∈ body.arcs below

end Body

end Ahir.Aa
