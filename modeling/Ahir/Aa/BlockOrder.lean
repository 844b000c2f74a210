import Ahir.Aa.BlockStatement
import Mathlib.Tactic

/-!
# What waits for what in a block of statements

A transition precedes another when a path of arcs without a token leads to it,
from the sample of an operator on to its completion.  The roots that an operator
waits for go by operators of earlier statements, or by those of its operands.
-/

set_option autoImplicit false

namespace Ahir.Aa.BlockStatement

namespace Sequence
variable (body : Sequence)

/-- `u` is an operator of statement `i`. -/
def Operates (i : Nat) (u : Operator) : Prop :=
  joinArc (.sampleCompleted u) (.sampleStart u) ∈ body.writeStatement i

/-- An arc, or the way from the sample to the completion of an operator. -/
def Step (x y : Transition) : Prop :=
  joinArc y x ∈ body.arcs ∨
    ∃ i u, body.Operates i u ∧ x = .sampleStart u ∧ y = .updateCompleted u

def Precedes : Transition → Transition → Prop := Relation.ReflTransGen body.Step

end Sequence

namespace Sequence
variable {body : Sequence} {i limit : Nat} {guardExpression : Option Nat} {u : Operator}

section Emission
variable {op : Operation} {path : List Nat} {roots : List Root} {barrier : Option Nat}

theorem mem_forwardDependency {x : Transition} {a : Arc} :
    a ∈ body.forwardDependency x roots ↔
      ∃ r ∈ body.visitedRoots roots, joinArc x (.updateCompleted (body.rootUnit r)) = a := by
  simp [forwardDependency]

theorem split_not_mem_forwardDependency {x : Operator} :
    joinArc (.sampleCompleted u) (.sampleStart u) ∉ body.forwardDependency (.sampleStart x) roots := by
  simp [mem_forwardDependency, joinArc]

theorem split_not_mem_barrierDependency {x : Operator} :
    joinArc (.sampleCompleted u) (.sampleStart u) ∉ barrierDependency barrier (.sampleStart x) := by
  simp [barrierDependency, joinArc]

theorem split_not_mem_writeSynchDependency {synchStatements : List (Nat × Bool)} :
    joinArc (.sampleCompleted u) (.sampleStart u) ∉ body.writeSynchDependency i synchStatements := by
  intro mem
  obtain ⟨⟨marked, updateFlag⟩, _, mem⟩ := List.mem_flatMap.mp mem
  dsimp only at mem
  split_ifs at mem <;> simp [joinArc] at mem

theorem split_mem_connectSplitProtocol {x : Operator} :
    joinArc (.sampleCompleted u) (.sampleStart u) ∈ connectSplitProtocol x ↔ u = x := by
  simp [connectSplitProtocol, joinArc]

theorem split_mem_writeOperator :
    joinArc (.sampleCompleted u) (.sampleStart u) ∈
      body.writeOperator limit i guardExpression barrier op path roots ↔ u = ⟨i, path⟩ := by
  have noBarrier : joinArc (.sampleCompleted u) (.sampleStart u) ∉
      (if op.isHeld then barrierDependency barrier (.sampleStart ⟨i, path⟩) else []) := by
    split_ifs
    · exact split_not_mem_barrierDependency
    · exact List.not_mem_nil
  have noChain : joinArc (.sampleCompleted u) (.sampleStart u) ∉
      (if op.isChained then [joinArc (.updateStart ⟨i, path⟩) (.sampleCompleted ⟨i, path⟩)] else []) := by
    split_ifs <;> simp [joinArc]
  simp only [writeOperator, List.mem_append, noBarrier, noChain, split_not_mem_forwardDependency,
    split_mem_connectSplitProtocol, false_or, or_false]

theorem split_mem_writeOwn :
    joinArc (.sampleCompleted u) (.sampleStart u) ∈ body.writeOwn i barrier roots ↔ u = ⟨i, []⟩ := by
  simp only [writeOwn, List.mem_append, split_not_mem_barrierDependency,
    split_not_mem_forwardDependency, split_mem_connectSplitProtocol, false_or]

end Emission

theorem split_not_mem_writeBarrier {u : Operator} {n : Nat} {foundOne : Bool} :
    joinArc (.sampleCompleted u) (.sampleStart u) ∉ body.writeBarrier i n foundOne := by
  induction n generalizing foundOne with
  | zero => exact List.not_mem_nil
  | succ n ih =>
      rw [writeBarrier]
      split_ifs
      · exact List.not_mem_nil
      · simp [joinArc]
      · simpa [joinArc] using ih
      · exact ih

theorem writeStatement_subset : body.writeStatement i ⊆ body.arcs := by
  intro a mem
  have inside : i < body.length := by
    by_contra outside
    rw [writeStatement, List.getElem?_eq_none (Nat.le_of_not_lt outside)] at mem
    exact List.not_mem_nil mem
  exact List.mem_flatMap.mpr ⟨i, List.mem_range.mpr inside, mem⟩

theorem precedes_of_arc {x y z : Transition} (before : body.Precedes x y)
    (arc : joinArc z y ∈ body.arcs) : body.Precedes x z :=
  before.tail (Or.inl arc)

theorem precedes_of_operates {x : Transition} (before : body.Precedes x (.sampleStart u))
    (operates : body.Operates i u) : body.Precedes x (.updateCompleted u) :=
  before.tail (Or.inr ⟨i, u, operates, rfl, rfl⟩)

end Sequence

section Roots
variable {definers : Nat → List Root} {r : Root} {i : Nat}
variable (body : Sequence) (limit : Nat) (guardExpression barrier : Option Nat)

mutual

/-- A root is one of a variable, or an operator that has been written. -/
theorem Expression.root_written :
    ∀ (e : Expression) (intermediate : Bool) (path : List Nat),
      r ∈ e.collectRootSources definers i intermediate path →
      (∃ d, r ∈ definers d) ∨ ∃ u, r = .operator u ∧ u.statement = i ∧
        joinArc (.sampleCompleted u) (.sampleStart u) ∈
          e.write body limit i guardExpression barrier intermediate path
  | .constant, _, _, mem => by simp [Expression.collectRootSources] at mem
  | .signalRead, _, _, mem => by simp [Expression.collectRootSources] at mem
  | .reference d, _, _, mem => Or.inl ⟨d, mem⟩
  | .operation op operands, intermediate, path, mem => by
      rw [Expression.collectRootSources] at mem
      rw [Expression.write]
      split_ifs at mem ⊢ with isConstant flows
      · exact absurd mem List.not_mem_nil
      · rw [List.append_nil]
        exact Operands.root_written operands 0 path mem
      · rw [List.mem_singleton] at mem
        exact Or.inr ⟨⟨i, path⟩, mem, rfl,
          List.mem_append_right _ (Sequence.split_mem_writeOperator.mpr rfl)⟩

theorem Operands.root_written :
    ∀ (operands : Operands) (n : Nat) (path : List Nat),
      r ∈ operands.collectRootSources definers i n path →
      (∃ d, r ∈ definers d) ∨ ∃ u, r = .operator u ∧ u.statement = i ∧
        joinArc (.sampleCompleted u) (.sampleStart u) ∈
          operands.write body limit i guardExpression barrier n path
  | .nil, _, _, mem => by simp [Operands.collectRootSources] at mem
  | .cons first rest, n, path, mem => by
      rw [Operands.collectRootSources, List.mem_append] at mem
      rw [Operands.write]
      rcases mem with inFirst | inRest
      · refine (Expression.root_written first true (n :: path) inFirst).imp_right ?_
        rintro ⟨u, root, own, written⟩
        exact ⟨u, root, own, List.mem_append_left _ written⟩
      · refine (Operands.root_written rest (n + 1) path inRest).imp_right ?_
        rintro ⟨u, root, own, written⟩
        exact ⟨u, root, own, List.mem_append_right _ written⟩

end

end Roots

namespace Sequence
variable {body : Sequence} {d n : Nat} {r : Root}

theorem operates_unitOf (awaited : body.isAwaited d = true) (written : body.isWritten d = true) :
    body.Operates d (body.unitOf d) := by
  unfold isAwaited at awaited
  unfold isWritten at written
  unfold Operates writeStatement unitOf
  cases statement : body[d]? with
  | none => simp [statement] at awaited
  | some s =>
      cases s with
      | null => simp [statement] at awaited
      | barrier => simp [statement] at awaited
      | call isVolatile isForeign guardExpression synchStatements inputArgs outputArgs =>
          simp only [statement, Bool.not_eq_true'] at awaited written
          simp only [writeCall, written, awaited, Bool.false_eq_true, if_false, List.mem_append,
            split_mem_writeOwn]
          simp
      | assignment isVolatile guardExpression synchStatements target source =>
          simp only [statement, Bool.not_eq_true'] at awaited written
          simp only [writeAssignment, written, awaited, Bool.false_eq_true, if_false, List.mem_append]
          cases target with
          | implicitVariable =>
              simp only [Target.isImplicitVariable, Bool.true_and] at written
              cases source with
              | constant => simp [Expression.isConstant] at written
              | signalRead =>
                  simp [Target.isImplicitVariable, Expression.isImplicit, split_mem_writeOwn]
              | reference definer =>
                  simp [Target.isImplicitVariable, Expression.isImplicit, split_mem_writeOwn]
              | operation op operands =>
                  rw [Expression.isConstant] at written
                  by_cases implicit : (Expression.operation op operands).isImplicit = true
                  · simp [Target.isImplicitVariable, implicit, split_mem_writeOwn]
                  · have noFlow : op.isFlowThrough false = false := by
                      cases op <;> simp_all [Operation.isFlowThrough, Expression.isImplicit]
                    left
                    simp [Target.isImplicitVariable, implicit, Expression.write, written, noFlow,
                      split_mem_writeOperator]
          | pipe =>
              right
              left
              simp [Target.isImplicitVariable, writeTarget, Target.expression, Expression.write,
                Operation.isEvaluated, Operation.isFlowThrough, split_mem_writeOperator]
          | object address =>
              right
              left
              simp [Target.isImplicitVariable, writeTarget, Target.expression, Expression.write,
                Operation.isEvaluated, Operation.isFlowThrough, split_mem_writeOperator]
          | dereference address =>
              right
              left
              simp [Target.isImplicitVariable, writeTarget, Target.expression, Expression.write,
                Operation.isEvaluated, Operation.isFlowThrough, split_mem_writeOperator]

theorem isAwaited_of_isWritten (written : body.isWritten d = true)
    (noAssignment : ∀ guardExpression synchStatements target source,
      body[d]? = some (.assignment true guardExpression synchStatements target source) → False)
    (noCall : ∀ isForeign guardExpression synchStatements inputArgs outputArgs,
      body[d]? = some (.call true isForeign guardExpression synchStatements inputArgs outputArgs) →
        False) : body.isAwaited d = true := by
  unfold isWritten at written
  unfold isAwaited
  cases statement : body[d]? with
  | none => simp [statement] at written
  | some s =>
      cases s with
      | null => simp [statement] at written
      | barrier => simp [statement] at written
      | assignment isVolatile guardExpression synchStatements target source =>
          cases isVolatile with
          | false => rfl
          | true => exact (noAssignment _ _ _ _ statement).elim
      | call isVolatile isForeign guardExpression synchStatements inputArgs outputArgs =>
          cases isVolatile with
          | false => rfl
          | true => exact (noCall _ _ _ _ _ statement).elim

/-- The roots of a variable that are visited are of earlier statements, and have been written. -/
theorem definers_written (root : r ∈ body.definers n d) (written : body.isWritten r.index = true) :
    r.index < n ∧ body.Operates r.index (body.rootUnit r) := by
  induction n generalizing d r with
  | zero => simp [definers] at root
  | succ n ih =>
      have earlier : ∀ {d' r'}, r' ∈ body.definers n d' → body.isWritten r'.index = true →
          r'.index < n + 1 ∧ body.Operates r'.index (body.rootUnit r') := by
        intro d' r' root' written'
        exact (ih root' written').imp_left Nat.lt_succ_of_lt
      rw [definers] at root
      split_ifs at root with last
      · split at root
        · next guardExpression synchStatements target source statement =>
          rcases source.root_written body n guardExpression (body.trailingBarrier n) true [0] root with
            ⟨d', root'⟩ | ⟨u, rfl, own, written'⟩
          · exact earlier root' written
          · rw [Root.index, own] at written ⊢
            refine ⟨Nat.lt_succ_self n, ?_⟩
            simp only [isWritten, statement, Bool.not_eq_true'] at written
            simp only [Operates, writeStatement, statement, writeAssignment, written,
              Bool.false_eq_true, if_false]
            exact List.mem_append_left _ written'
        · next isForeign guardExpression synchStatements inputArgs outputArgs statement =>
          rcases inputArgs.root_written body n guardExpression (body.trailingBarrier n) 0 [0] root with
            ⟨d', root'⟩ | ⟨u, rfl, own, written'⟩
          · exact earlier root' written
          · rw [Root.index, own] at written ⊢
            refine ⟨Nat.lt_succ_self n, ?_⟩
            simp only [isWritten, statement, Bool.not_eq_true'] at written
            simp only [Operates, writeStatement, statement, writeCall, written, Bool.false_eq_true,
              if_false]
            exact List.mem_append_left _ written'
        · next noAssignment noCall =>
          rw [List.mem_singleton] at root
          rw [root, last] at written ⊢
          exact ⟨Nat.lt_succ_self n,
            operates_unitOf (isAwaited_of_isWritten written noAssignment noCall) written⟩
      · exact earlier root written

end Sequence

end Ahir.Aa.BlockStatement
