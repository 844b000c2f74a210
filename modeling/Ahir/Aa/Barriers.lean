import Ahir.Aa.BlockOrder

/-!
# Barriers of a block of statements

Behind a barrier every operator is joined to it but a call and the stages of an
address calculation, which wait for their roots.  When each of these has a root
since the barrier, what waits for the barrier goes on to it.  A barrier waits for
the statements since the barrier before it, and through one of them for that
barrier; so that of two statements with a barrier between them the second waits
for the first.  It waits for a call, but not for the operators that write the
results of the call to pipes and to memory.
-/

set_option autoImplicit false

namespace Ahir.Aa.BlockStatement

mutual

def Expression.unheld (body : Sequence) (limit i : Nat) (guardExpression : Option Nat)
    (intermediate : Bool) (path : List Nat) : Expression → List (List Root)
  | .constant => []
  | .signalRead => []
  | .reference _ => []
  | .operation op operands =>
      if op.isEvaluated && operands.areConstant then []
      else
        operands.unheld body limit i guardExpression 0 path ++
          (if op.isFlowThrough intermediate || op.isHeld then []
          else [body.takenRoots limit guardExpression op
            (operands.collectRootSources (body.definers limit) i 0 path)])

def Operands.unheld (body : Sequence) (limit i : Nat) (guardExpression : Option Nat)
    (n : Nat) (path : List Nat) : Operands → List (List Root)
  | .nil => []
  | .cons first rest =>
      first.unheld body limit i guardExpression true (n :: path) ++
        rest.unheld body limit i guardExpression (n + 1) path

end

namespace Sequence
variable (body : Sequence)

def unheldOutputArgs (i : Nat) (isVolatile : Bool) (guardExpression : Option Nat) :
    Nat → Nat → List Target → List (List Root)
  | _, _, [] => []
  | limit, n, target :: rest =>
      target.expression.unheld body limit i guardExpression false [n, 1] ++
        unheldOutputArgs i isVolatile guardExpression
          (if target.isImplicitVariable && !isVolatile then i + 1 else limit) (n + 1) rest

/-- The roots of each operator of statement `i` that is not joined to the barrier. -/
def unheld (i : Nat) : List (List Root) :=
  match body[i]? with
  | some (.assignment isVolatile guardExpression _ target source) =>
      if target.isImplicitVariable && source.isConstant then []
      else
        source.unheld body i i guardExpression isVolatile [0] ++
          target.expression.unheld body i i guardExpression false [1]
  | some (.call isVolatile isForeign guardExpression _ inputArgs outputArgs) =>
      if isForeign then []
      else
        inputArgs.unheld body i i guardExpression 0 [0] ++
          ((if isVolatile then []
            else [body.guardRoots i guardExpression ++
              inputArgs.collectRootSources (body.definers i) i 0 [0]]) ++
          body.unheldOutputArgs i isVolatile guardExpression i 0 outputArgs)
  | _ => []

/-- One of the roots is of a statement after `b`. -/
def IsSince (b : Nat) (roots : List Root) : Prop :=
  ∃ r ∈ body.visitedRoots roots, b < r.index

instance (b : Nat) (roots : List Root) : Decidable (body.IsSince b roots) :=
  inferInstanceAs (Decidable (∃ r ∈ body.visitedRoots roots, b < r.index))

def HasRoots : Prop :=
  ∀ i < body.length, ∀ b ∈ body.trailingBarrier i, ∀ roots ∈ body.unheld i, body.IsSince b roots

/-- A barrier that waits for a statement since the last one waits for one that is written. -/
def HasWritten : Prop :=
  ∀ i < body.length, body.isBarrier i = true → ∀ b ∈ body.trailingBarrier i,
    (∃ j < i, b < j ∧ body.isAwaited j = true) →
      ∃ j < i, b < j ∧ body.isAwaited j = true ∧ body.isWritten j = true

/-- The operators that write results of call `i` to pipes and to memory, which start when the call has completed. -/
def outputWriters (i : Nat) : List Operator :=
  match body[i]? with
  | some (.call _ false _ _ _ outputArgs) => writersFrom i 0 outputArgs
  | _ => []
where
  writersFrom (i : Nat) : Nat → List Target → List Operator
    | _, [] => []
    | n, target :: rest =>
        if target.isImplicitVariable then writersFrom i (n + 1) rest
        else ⟨i, [n, 1]⟩ :: writersFrom i (n + 1) rest

def completions (i : Nat) : List Operator := body.unitOf i :: body.outputWriters i

/-- A call gives its results to variables only, if there is a barrier and something written behind it. -/
def HasPlainOutputs : Prop :=
  ∀ p < body.length, ∀ i < body.length,
    body.isAwaited p = true ∧ body.isAwaited i = true ∧ body.isWritten i = true ∧
      (∃ b < i, p < b ∧ body.isBarrier b = true) → body.outputWriters p = []

def Anchored : Prop := body.HasRoots ∧ body.HasWritten ∧ body.HasPlainOutputs

instance : Decidable body.HasRoots :=
  inferInstanceAs (Decidable (∀ i < body.length, ∀ b ∈ body.trailingBarrier i,
    ∀ roots ∈ body.unheld i, body.IsSince b roots))

instance : Decidable body.HasWritten :=
  inferInstanceAs (Decidable (∀ i < body.length, body.isBarrier i = true →
    ∀ b ∈ body.trailingBarrier i, (∃ j < i, b < j ∧ body.isAwaited j = true) →
      ∃ j < i, b < j ∧ body.isAwaited j = true ∧ body.isWritten j = true))

instance : Decidable body.HasPlainOutputs :=
  inferInstanceAs (Decidable (∀ p < body.length, ∀ i < body.length,
    body.isAwaited p = true ∧ body.isAwaited i = true ∧ body.isWritten i = true ∧
      (∃ b < i, p < b ∧ body.isBarrier b = true) → body.outputWriters p = []))

instance : Decidable body.Anchored := inferInstanceAs (Decidable (_ ∧ _))

/-- When there is a barrier between two statements, each operator of the second
starts after the first has completed. -/
def BarriersSeparate : Prop :=
  ∀ p b i, p < b → b < i → body.isBarrier b = true → body.isAwaited p = true →
    body.isAwaited i = true → ∀ w ∈ body.completions p, ∀ u, body.Operates i u →
      body.Precedes (.updateCompleted w) (.sampleStart u)

end Sequence

namespace Sequence
variable {body : Sequence} {limit i b : Nat} {guardExpression : Option Nat} {u : Operator}

/-- What is visited of the roots after barrier `b` waits for it. -/
def Behind (body : Sequence) (b : Nat) (roots : List Root) : Prop :=
  ∀ r ∈ body.visitedRoots roots, b < r.index →
    body.Precedes (.updateCompleted ⟨b, []⟩) (.updateCompleted (body.rootUnit r))

theorem Behind.append {roots roots' : List Root} (first : body.Behind b roots)
    (second : body.Behind b roots') : body.Behind b (roots ++ roots') := by
  intro r visited
  rw [visitedRoots, List.filter_append, List.mem_append] at visited
  exact visited.elim (first r) (second r)

theorem behind_nil : body.Behind b [] := by
  intro r visited
  exact absurd visited List.not_mem_nil

/-- An operator that takes a value that waits for the barrier waits for it too. -/
theorem precedes_of_isSince {x : Transition} {roots : List Root} (since : body.IsSince b roots)
    (behind : body.Behind b roots) (sub : body.forwardDependency x roots ⊆ body.arcs) :
    body.Precedes (.updateCompleted ⟨b, []⟩) x := by
  obtain ⟨r, visited, after⟩ := since
  exact precedes_of_arc (behind r visited after) (sub (mem_forwardDependency.mpr ⟨r, visited, rfl⟩))

theorem precedes_of_writeOperator {op : Operation} {path : List Nat} {roots : List Root}
    (sub : body.writeOperator limit i guardExpression (some b) op path roots ⊆ body.arcs)
    (behind : body.Behind b (body.takenRoots limit guardExpression op roots))
    (anchored : op.isHeld = true ∨ body.IsSince b (body.takenRoots limit guardExpression op roots)) :
    body.Precedes (.updateCompleted ⟨b, []⟩) (.sampleStart ⟨i, path⟩) := by
  rcases anchored with held | since
  · have joined : joinArc (.sampleStart ⟨i, path⟩) (.updateCompleted ⟨b, []⟩) ∈ body.arcs := by
      apply sub
      simp [writeOperator, held, barrierDependency]
    exact precedes_of_arc Relation.ReflTransGen.refl joined
  · refine precedes_of_isSince since behind (List.Subset.trans ?_ sub)
    intro a mem
    exact List.mem_append_right _ (List.mem_append_left _ mem)

end Sequence

section Reached
variable {body : Sequence} {limit i b : Nat} {guardExpression : Option Nat}

theorem Sequence.behind_guardRoots (known : ∀ d, body.Behind b (body.definers limit d)) :
    body.Behind b (body.guardRoots limit guardExpression) := by
  cases guardExpression with
  | none => exact Sequence.behind_nil
  | some d => simpa [Sequence.guardRoots] using known d

theorem Sequence.behind_takenRoots (known : ∀ d, body.Behind b (body.definers limit d))
    {op : Operation} {roots : List Root} (behind : body.Behind b roots) :
    body.Behind b (body.takenRoots limit guardExpression op roots) := by
  refine Sequence.Behind.append ?_ behind
  split_ifs
  · exact Sequence.behind_guardRoots known
  · exact Sequence.behind_nil

mutual

theorem Expression.reached (known : ∀ d, body.Behind b (body.definers limit d)) :
    ∀ (e : Expression) (intermediate : Bool) (path : List Nat),
      e.write body limit i guardExpression (some b) intermediate path ⊆ body.writeStatement i →
      (∀ roots ∈ e.unheld body limit i guardExpression intermediate path, body.IsSince b roots) →
      (∀ u, joinArc (.sampleCompleted u) (.sampleStart u) ∈
          e.write body limit i guardExpression (some b) intermediate path →
        body.Precedes (.updateCompleted ⟨b, []⟩) (.sampleStart u)) ∧
      body.Behind b (e.collectRootSources (body.definers limit) i intermediate path)
  | .constant, _, _, _, _ => ⟨by simp [Expression.write], Sequence.behind_nil⟩
  | .signalRead, _, _, _, _ => ⟨by simp [Expression.write], Sequence.behind_nil⟩
  | .reference d, _, _, _, _ => ⟨by simp [Expression.write], known d⟩
  | .operation op operands, intermediate, path, sub, anchored => by
      rw [Expression.write] at sub ⊢
      rw [Expression.unheld] at anchored
      rw [Expression.collectRootSources]
      by_cases isConstant : (op.isEvaluated && operands.areConstant) = true
      · simp only [isConstant, if_true]
        exact ⟨by simp, Sequence.behind_nil⟩
      simp only [isConstant, Bool.false_eq_true, if_false] at sub anchored ⊢
      obtain ⟨inOperands, behind⟩ := Operands.reached known operands 0 path
        (fun a mem => sub (List.mem_append_left _ mem))
        (fun roots mem => anchored roots (List.mem_append_left _ mem))
      by_cases flows : op.isFlowThrough intermediate = true
      · simp only [flows, if_true, List.append_nil]
        exact ⟨inOperands, behind⟩
      simp only [flows, Bool.false_eq_true, if_false, Bool.false_or] at sub anchored ⊢
      have written : body.writeOperator limit i guardExpression (some b) op path
          (operands.collectRootSources (body.definers limit) i 0 path) ⊆ body.writeStatement i :=
        fun a mem => sub (List.mem_append_right _ mem)
      have started : body.Precedes (.updateCompleted ⟨b, []⟩) (.sampleStart ⟨i, path⟩) := by
        refine Sequence.precedes_of_writeOperator (fun a mem => body.writeStatement_subset (written mem))
          (Sequence.behind_takenRoots known behind) ?_
        by_cases held : op.isHeld = true
        · exact Or.inl held
        · exact Or.inr (anchored _ (List.mem_append_right _ (by simp [held])))
      constructor
      · intro u mem
        rcases List.mem_append.mp mem with inner | own
        · exact inOperands u inner
        · rw [Sequence.split_mem_writeOperator.mp own]
          exact started
      · intro r visited _
        have same := (List.mem_filter.mp visited).1
        rw [List.mem_singleton] at same
        rw [same]
        exact Sequence.precedes_of_operates started (written (Sequence.split_mem_writeOperator.mpr rfl))

theorem Operands.reached (known : ∀ d, body.Behind b (body.definers limit d)) :
    ∀ (operands : Operands) (n : Nat) (path : List Nat),
      operands.write body limit i guardExpression (some b) n path ⊆ body.writeStatement i →
      (∀ roots ∈ operands.unheld body limit i guardExpression n path, body.IsSince b roots) →
      (∀ u, joinArc (.sampleCompleted u) (.sampleStart u) ∈
          operands.write body limit i guardExpression (some b) n path →
        body.Precedes (.updateCompleted ⟨b, []⟩) (.sampleStart u)) ∧
      body.Behind b (operands.collectRootSources (body.definers limit) i n path)
  | .nil, _, _, _, _ => ⟨by simp [Operands.write], Sequence.behind_nil⟩
  | .cons first rest, n, path, sub, anchored => by
      rw [Operands.write] at sub ⊢
      rw [Operands.unheld] at anchored
      rw [Operands.collectRootSources]
      obtain ⟨inFirst, behindFirst⟩ := Expression.reached known first true (n :: path)
        (fun a mem => sub (List.mem_append_left _ mem))
        (fun roots mem => anchored roots (List.mem_append_left _ mem))
      obtain ⟨inRest, behindRest⟩ := Operands.reached known rest (n + 1) path
        (fun a mem => sub (List.mem_append_right _ mem))
        (fun roots mem => anchored roots (List.mem_append_right _ mem))
      refine ⟨fun u mem => ?_, behindFirst.append behindRest⟩
      exact (List.mem_append.mp mem).elim (inFirst u) (inRest u)

end

end Reached

namespace Sequence
variable {body : Sequence} {i b d n : Nat} {r : Root}

theorem trailingBarrier_lt (trailing : body.trailingBarrier i = some b) :
    b < i ∧ body.isBarrier b = true ∧ ∀ j, b < j → j < i → body.isBarrier j = false := by
  induction i with
  | zero => simp [trailingBarrier] at trailing
  | succ i ih =>
      rw [trailingBarrier] at trailing
      split_ifs at trailing with isBarrier
      · obtain rfl := Option.some.inj trailing
        exact ⟨Nat.lt_succ_self i, isBarrier, fun j after before => by omega⟩
      · obtain ⟨before, barrier, between⟩ := ih trailing
        refine ⟨Nat.lt_succ_of_lt before, barrier, fun j after below => ?_⟩
        rcases Nat.lt_succ_iff_lt_or_eq.mp below with less | rfl
        · exact between j after less
        · exact Bool.eq_false_of_not_eq_true isBarrier

theorem trailingBarrier_eq (before : b < i) (barrier : body.isBarrier b = true)
    (between : ∀ j, b < j → j < i → body.isBarrier j = false) : body.trailingBarrier i = some b := by
  induction i with
  | zero => exact absurd before (Nat.not_lt_zero b)
  | succ i ih =>
      rw [trailingBarrier]
      rcases Nat.lt_succ_iff_lt_or_eq.mp before with less | rfl
      · rw [between i less (Nat.lt_succ_self i)]
        exact ih less fun j after below => between j after (Nat.lt_succ_of_lt below)
      · rw [barrier, if_pos rfl]

/-- When the operators of every statement before `limit` and since the barrier wait
for it, the values of their variables do. -/
theorem behind_definers
    (reached : ∀ j, b < j → j < n → ∀ u, body.Operates j u →
      body.Precedes (.updateCompleted ⟨b, []⟩) (.sampleStart u)) :
    body.Behind b (body.definers n d) := by
  intro r visited after
  obtain ⟨root, written⟩ := List.mem_filter.mp visited
  obtain ⟨before, operates⟩ := definers_written root written
  exact precedes_of_operates (reached r.index after before _ operates) operates

end Sequence

namespace Sequence
variable {body : Sequence} {i b : Nat} {guardExpression : Option Nat}

theorem reached_writeOutputArgs {isVolatile : Bool} {roots : List Root} {u : Operator}
    (next : isVolatile = false → ∀ d, body.Behind b (body.definers (i + 1) d)) :
    ∀ (outputArgs : List Target) (limit n : Nat),
      (∀ d, body.Behind b (body.definers limit d)) →
      body.writeOutputArgs i (some b) isVolatile guardExpression roots limit n outputArgs ⊆
        body.writeStatement i →
      (∀ roots ∈ body.unheldOutputArgs i isVolatile guardExpression limit n outputArgs,
        body.IsSince b roots) →
      joinArc (.sampleCompleted u) (.sampleStart u) ∈
        body.writeOutputArgs i (some b) isVolatile guardExpression roots limit n outputArgs →
      body.Precedes (.updateCompleted ⟨b, []⟩) (.sampleStart u) := by
  intro outputArgs
  induction outputArgs with
  | nil =>
      intro limit n _ _ _ operates
      exact absurd operates List.not_mem_nil
  | cons target rest ih =>
      intro limit n knownHere sub anchored operates
      rw [writeOutputArgs] at sub operates
      rw [unheldOutputArgs] at anchored
      obtain ⟨targetPart, sub⟩ := List.append_subset.mp sub
      obtain ⟨_, restPart⟩ := List.append_subset.mp sub
      obtain ⟨inTarget, _⟩ := target.expression.reached knownHere false [n, 1] targetPart
        (fun roots mem => anchored roots (List.mem_append_left _ mem))
      rcases List.mem_append.mp operates with ofTarget | operates
      · exact inTarget u ofTarget
      rcases List.mem_append.mp operates with taken | ofRest
      · split_ifs at taken
        · exact absurd taken List.not_mem_nil
        · exact absurd taken split_not_mem_forwardDependency
        · simp [joinArc] at taken
      · refine ih _ (n + 1) ?_ restPart (fun roots mem => anchored roots (List.mem_append_right _ mem))
          ofRest
        split_ifs with assigned
        · simp only [Bool.and_eq_true, Bool.not_eq_true'] at assigned
          exact next assigned.2
        · exact knownHere

section Statement
variable (known : ∀ d, body.Behind b (body.definers i d))
include known

theorem reached_writeOwn {barrier : Option Nat} {roots : List Root} {u : Operator}
    (sub : body.writeOwn i barrier (body.guardRoots i guardExpression ++ roots) ⊆ body.arcs)
    (behind : body.Behind b roots)
    (anchored : barrier = some b ∨ body.IsSince b (body.guardRoots i guardExpression ++ roots))
    (operates : joinArc (.sampleCompleted u) (.sampleStart u) ∈
      body.writeOwn i barrier (body.guardRoots i guardExpression ++ roots)) :
    body.Precedes (.updateCompleted ⟨b, []⟩) (.sampleStart u) := by
  rw [split_mem_writeOwn.mp operates]
  rcases anchored with rfl | since
  · apply precedes_of_arc Relation.ReflTransGen.refl
    apply sub
    simp [writeOwn, barrierDependency]
  · refine precedes_of_isSince since ((behind_guardRoots known).append behind) fun a mem => ?_
    exact sub (List.mem_append_right _ (List.mem_append_left _ mem))

theorem reached_writeAssignment {isVolatile : Bool} {synchStatements : List (Nat × Bool)}
    {target : Target} {source : Expression} {u : Operator}
    (varies : (target.isImplicitVariable && source.isConstant) = false)
    (sub : body.writeAssignment i (some b) isVolatile guardExpression synchStatements target source ⊆
      body.writeStatement i)
    (anchored : ∀ roots ∈ source.unheld body i i guardExpression isVolatile [0] ++
      target.expression.unheld body i i guardExpression false [1], body.IsSince b roots)
    (operates : joinArc (.sampleCompleted u) (.sampleStart u) ∈
      body.writeAssignment i (some b) isVolatile guardExpression synchStatements target source) :
    body.Precedes (.updateCompleted ⟨b, []⟩) (.sampleStart u) := by
  simp only [writeAssignment, varies, Bool.false_eq_true, if_false] at sub operates
  obtain ⟨sourcePart, sub⟩ := List.append_subset.mp sub
  obtain ⟨targetPart, ownPart⟩ := List.append_subset.mp sub
  obtain ⟨inSource, behind⟩ := source.reached known isVolatile [0] sourcePart
    (fun roots mem => anchored roots (List.mem_append_left _ mem))
  obtain ⟨inTarget, _⟩ := target.expression.reached known false [1] targetPart
    (fun roots mem => anchored roots (List.mem_append_right _ mem))
  rcases List.mem_append.mp operates with ofSource | operates
  · exact inSource u ofSource
  rcases List.mem_append.mp operates with ofTarget | operates
  · exact inTarget u ofTarget
  cases isVolatile with
  | true => exact absurd operates List.not_mem_nil
  | false =>
      simp only [Bool.false_eq_true, if_false] at operates ownPart
      rcases List.mem_append.mp operates with own | synch
      · cases implicitTarget : target.isImplicitVariable with
        | false =>
            rw [implicitTarget, if_neg Bool.false_ne_true] at own
            exact absurd own split_not_mem_forwardDependency
        | true =>
            cases implicit : source.isImplicit with
            | false => simp [implicitTarget, implicit] at own
            | true =>
                simp only [implicitTarget, implicit, if_true] at own ownPart
                have written := (List.append_subset.mp ownPart).1
                exact reached_writeOwn known (List.Subset.trans written writeStatement_subset) behind
                  (Or.inl rfl) own
      · exact absurd synch split_not_mem_writeSynchDependency

theorem reached_writeCall {isVolatile isForeign : Bool} {synchStatements : List (Nat × Bool)}
    {inputArgs : Operands} {outputArgs : List Target} {u : Operator}
    (statement : body[i]? = some (.call isVolatile isForeign guardExpression synchStatements inputArgs
      outputArgs))
    (trailing : body.trailingBarrier i = some b)
    (anchored : ∀ roots ∈ body.unheld i, body.IsSince b roots)
    (operates : body.Operates i u) :
    body.Precedes (.updateCompleted ⟨b, []⟩) (.sampleStart u) := by
  have written : body.writeStatement i = body.writeCall i (some b) isVolatile isForeign guardExpression
      synchStatements inputArgs outputArgs := by
    rw [writeStatement, statement, ← trailing]
  have sub : body.writeCall i (some b) isVolatile isForeign guardExpression synchStatements inputArgs
      outputArgs ⊆ body.writeStatement i := by
    rw [written]
    exact List.Subset.refl _
  rw [Operates, written] at operates
  rw [unheld, statement] at anchored
  cases isForeign with
  | true => exact absurd operates List.not_mem_nil
  | false =>
  simp only [writeCall, Bool.false_eq_true, if_false] at sub operates anchored
  obtain ⟨inputPart, sub⟩ := List.append_subset.mp sub
  obtain ⟨ownPart, outputPart⟩ := List.append_subset.mp sub
  obtain ⟨inInputs, behind⟩ := inputArgs.reached known 0 [0] inputPart
    (fun roots mem => anchored roots (List.mem_append_left _ mem))
  have own : isVolatile = false → ∀ v, joinArc (.sampleCompleted v) (.sampleStart v) ∈
      body.writeOwn i none (body.guardRoots i guardExpression ++
        inputArgs.collectRootSources (body.definers i) i 0 [0]) →
      body.Precedes (.updateCompleted ⟨b, []⟩) (.sampleStart v) := by
    intro held v ofOwn
    simp only [held, Bool.false_eq_true, if_false] at ownPart anchored
    refine reached_writeOwn known
      (List.Subset.trans (List.append_subset.mp ownPart).1 writeStatement_subset) behind
      (Or.inr (anchored _ ?_)) ofOwn
    exact List.mem_append_right _ (List.mem_append_left _ (List.mem_singleton.mpr rfl))
  have next : isVolatile = false → ∀ d, body.Behind b (body.definers (i + 1) d) := by
    intro held d r visited after
    rw [definers] at visited
    split_ifs at visited with itself
    · simp only [statement, held] at visited
      have same := (List.mem_filter.mp visited).1
      rw [List.mem_singleton] at same
      rw [same, itself, rootUnit, unitOf, statement]
      refine precedes_of_operates (own held ⟨i, []⟩ (split_mem_writeOwn.mpr rfl)) (i := i) ?_
      simp only [held, Bool.false_eq_true, if_false] at ownPart
      exact (List.append_subset.mp ownPart).1 (split_mem_writeOwn.mpr rfl)
    · exact known d r visited after
  rcases List.mem_append.mp operates with ofInputs | operates
  · exact inInputs u ofInputs
  rcases List.mem_append.mp operates with ofOwn | ofOutputs
  · cases held : isVolatile with
    | true => simp [held] at ofOwn
    | false =>
        simp only [held, Bool.false_eq_true, if_false] at ofOwn
        rcases List.mem_append.mp ofOwn with ofOwn | synch
        · exact own held u ofOwn
        · exact absurd synch split_not_mem_writeSynchDependency
  · exact reached_writeOutputArgs next outputArgs i 0 known outputPart
      (fun roots mem => anchored roots (List.mem_append_right _ (List.mem_append_right _ mem)))
      ofOutputs

end Statement

theorem reached (anchored : body.Anchored) (trailing : body.trailingBarrier i = some b)
    {u : Operator} (operates : body.Operates i u) :
    body.Precedes (.updateCompleted ⟨b, []⟩) (.sampleStart u) := by
  induction i using Nat.strong_induction_on generalizing u with
  | _ i ih =>
      obtain ⟨before, barrier, between⟩ := trailingBarrier_lt trailing
      have known : ∀ d, body.Behind b (body.definers i d) := by
        intro d
        refine behind_definers fun j after below v operates' => ?_
        refine ih j below (trailingBarrier_eq after barrier fun k after' below' => ?_) operates'
        exact between k after' (below'.trans below)
      cases statement : body[i]? with
      | none => simp [Operates, writeStatement, statement] at operates
      | some s =>
          have inside : i < body.length := (List.getElem?_eq_some_iff.mp statement).1
          have since := anchored.1 i inside b trailing
          cases s with
          | null => simp [Operates, writeStatement, statement] at operates
          | barrier =>
              rw [Operates, writeStatement, statement] at operates
              exact absurd operates split_not_mem_writeBarrier
          | assignment isVolatile guardExpression synchStatements target source =>
              have written : body.writeStatement i = body.writeAssignment i (some b) isVolatile
                  guardExpression synchStatements target source := by
                rw [writeStatement, statement, ← trailing]
              rw [Operates, written] at operates
              rw [unheld, statement] at since
              cases constant : (target.isImplicitVariable && source.isConstant) with
              | true => simp [writeAssignment, constant] at operates
              | false =>
                  simp only [constant, Bool.false_eq_true, if_false] at since
                  refine reached_writeAssignment known constant ?_ since operates
                  rw [written]
                  exact List.Subset.refl _
          | call isVolatile isForeign guardExpression synchStatements inputArgs outputArgs =>
              exact reached_writeCall known statement trailing since operates

end Sequence

namespace Sequence
variable {body : Sequence} {i b : Nat}

theorem isAwaited_of_isBarrier {j : Nat} (barrier : body.isBarrier j = true) :
    body.isAwaited j = false := by
  unfold isBarrier at barrier
  unfold isAwaited
  cases statement : body[j]? with
  | none => simp [statement] at barrier
  | some s => cases s <;> simp_all

theorem awaited_mem_writeBarrier (i : Nat) (foundOne : Bool) {n j : Nat} (below : j < n)
    (awaited : body.isAwaited j = true)
    (between : ∀ k, j < k → k < n → body.isBarrier k = false) :
    joinArc (.updateCompleted ⟨i, []⟩) (.updateCompleted (body.unitOf j)) ∈
      body.writeBarrier i n foundOne := by
  induction n generalizing foundOne with
  | zero => exact absurd below (Nat.not_lt_zero j)
  | succ n ih =>
      rw [writeBarrier]
      rcases Nat.lt_succ_iff_lt_or_eq.mp below with less | rfl
      · have inner := fun found =>
          ih found less fun k after before => between k after (Nat.lt_succ_of_lt before)
        rw [between n less (Nat.lt_succ_self n), if_neg Bool.false_ne_true]
        split_ifs
        · exact List.mem_cons_of_mem _ (inner true)
        · exact inner foundOne
      · have noBarrier : body.isBarrier j = false := by
          by_contra barrier
          rw [Bool.not_eq_false] at barrier
          rw [isAwaited_of_isBarrier barrier] at awaited
          exact Bool.false_ne_true awaited
        rw [noBarrier, if_neg Bool.false_ne_true, if_pos awaited]
        exact List.mem_cons_self

theorem delay_mem_writeBarrier {n : Nat} (before : b < n) (barrier : body.isBarrier b = true)
    (between : ∀ k, b < k → k < n → body.isBarrier k = false)
    (none : ∀ k, b < k → k < n → body.isAwaited k = false) :
    joinArc (.delay b i) (.updateCompleted ⟨b, []⟩) ∈ body.writeBarrier i n false ∧
      joinArc (.updateCompleted ⟨i, []⟩) (.delay b i) ∈ body.writeBarrier i n false := by
  induction n with
  | zero => exact absurd before (Nat.not_lt_zero b)
  | succ n ih =>
      rw [writeBarrier]
      rcases Nat.lt_succ_iff_lt_or_eq.mp before with less | rfl
      · rw [between n less (Nat.lt_succ_self n), none n less (Nat.lt_succ_self n),
          if_neg Bool.false_ne_true, if_neg Bool.false_ne_true]
        exact ih less (fun k after below => between k after (Nat.lt_succ_of_lt below))
          (fun k after below => none k after (Nat.lt_succ_of_lt below))
      · simp [barrier]

theorem lt_length_of_isBarrier (barrier : body.isBarrier i = true) : i < body.length := by
  by_contra outside
  rw [isBarrier, List.getElem?_eq_none (Nat.le_of_not_lt outside)] at barrier
  exact Bool.false_ne_true barrier

theorem writeStatement_barrier (barrier : body.isBarrier i = true) :
    body.writeStatement i = body.writeBarrier i i false := by
  unfold isBarrier at barrier
  rw [writeStatement]
  cases statement : body[i]? with
  | none => simp [statement] at barrier
  | some s =>
      cases s with
      | barrier => rfl
      | _ => simp [statement] at barrier

theorem barrier_precedes (anchored : body.Anchored) (barrier : body.isBarrier i = true)
    (trailing : body.trailingBarrier i = some b) :
    body.Precedes (.updateCompleted ⟨b, []⟩) (.updateCompleted ⟨i, []⟩) := by
  obtain ⟨before, barrier', between⟩ := trailingBarrier_lt trailing
  have written := writeStatement_barrier barrier
  by_cases some : ∃ j < i, b < j ∧ body.isAwaited j = true
  · obtain ⟨j, below, after, awaited, isWritten⟩ :=
      anchored.2.1 i (lt_length_of_isBarrier barrier) barrier b trailing some
    have operates := operates_unitOf awaited isWritten
    have trailing' : body.trailingBarrier j = Option.some b :=
      trailingBarrier_eq after barrier' fun k after' below' => between k after' (below'.trans below)
    have waits := awaited_mem_writeBarrier i false below awaited
      fun k after' => between k (after.trans after')
    rw [← written] at waits
    exact precedes_of_arc (precedes_of_operates (reached anchored trailing' operates) operates)
      (writeStatement_subset waits)
  · have none : ∀ k, b < k → k < i → body.isAwaited k = false := by
      intro k after below
      by_contra awaited
      rw [Bool.not_eq_false] at awaited
      exact some ⟨k, below, after, awaited⟩
    obtain ⟨first, second⟩ := delay_mem_writeBarrier (i := i) before barrier' between none
    rw [← written] at first second
    exact precedes_of_arc (precedes_of_arc Relation.ReflTransGen.refl (writeStatement_subset first))
      (writeStatement_subset second)

theorem exists_trailingBarrier (before : b < i) (barrier : body.isBarrier b = true) :
    ∃ c, body.trailingBarrier i = some c ∧ b ≤ c := by
  induction i with
  | zero => exact absurd before (Nat.not_lt_zero b)
  | succ i ih =>
      rw [trailingBarrier]
      split_ifs with last
      · exact ⟨i, rfl, Nat.lt_succ_iff.mp before⟩
      · rcases Nat.lt_succ_iff_lt_or_eq.mp before with less | rfl
        · exact ih less
        · exact absurd barrier last

theorem barrier_precedes_of_lt (anchored : body.Anchored) (before : b < i)
    (earlier : body.isBarrier b = true) (barrier : body.isBarrier i = true) :
    body.Precedes (.updateCompleted ⟨b, []⟩) (.updateCompleted ⟨i, []⟩) := by
  induction i using Nat.strong_induction_on with
  | _ i ih =>
      obtain ⟨c, trailing, after⟩ := exists_trailingBarrier before earlier
      obtain ⟨below, barrier', _⟩ := trailingBarrier_lt trailing
      have last := barrier_precedes anchored barrier trailing
      rcases Nat.eq_or_lt_of_le after with rfl | less
      · exact last
      · exact (ih c below less barrier').trans last

theorem awaited_precedes (anchored : body.Anchored) {p : Nat} (before : p < b)
    (awaited : body.isAwaited p = true) (barrier : body.isBarrier b = true) :
    body.Precedes (.updateCompleted (body.unitOf p)) (.updateCompleted ⟨b, []⟩) := by
  induction b using Nat.strong_induction_on with
  | _ b ih =>
      by_cases some : ∃ c, p < c ∧ c < b ∧ body.isBarrier c = true
      · obtain ⟨c, after, below, barrier'⟩ := some
        exact (ih c below after barrier').trans (barrier_precedes_of_lt anchored below barrier' barrier)
      · have between : ∀ c, p < c → c < b → body.isBarrier c = false := by
          intro c after below
          by_contra barrier'
          rw [Bool.not_eq_false] at barrier'
          exact some ⟨c, after, below, barrier'⟩
        have waits := awaited_mem_writeBarrier b false before awaited between
        rw [← writeStatement_barrier barrier] at waits
        exact precedes_of_arc Relation.ReflTransGen.refl (writeStatement_subset waits)

theorem lt_length_of_isAwaited (awaited : body.isAwaited i = true) : i < body.length := by
  by_contra outside
  rw [isAwaited, List.getElem?_eq_none (Nat.le_of_not_lt outside)] at awaited
  exact Bool.false_ne_true awaited

theorem isWritten_of_operates (awaited : body.isAwaited i = true) {u : Operator} (operates : body.Operates i u) :
    body.isWritten i = true := by
  unfold isAwaited at awaited
  unfold Operates writeStatement at operates
  unfold isWritten
  cases statement : body[i]? with
  | none => simp [statement] at awaited
  | some s =>
      cases s with
      | null => simp [statement] at awaited
      | barrier => simp [statement] at awaited
      | assignment isVolatile guardExpression synchStatements target source =>
          cases constant : (target.isImplicitVariable && source.isConstant) with
          | false => exact congrArg not constant
          | true => simp [statement, writeAssignment, constant] at operates
      | call isVolatile isForeign guardExpression synchStatements inputArgs outputArgs =>
          cases isForeign with
          | false => rfl
          | true => simp [statement, writeCall] at operates

/-- Barriers separate when each call, and each stage of an address calculation, has a root since the last barrier,
and no call before a barrier writes to a pipe or to memory. -/
theorem barriers_separate (anchored : body.Anchored) : body.BarriersSeparate := by
  intro p b i before after barrier awaited awaited' w completes u operates
  obtain ⟨c, trailing, below⟩ := exists_trailingBarrier after barrier
  obtain ⟨_, last, _⟩ := trailingBarrier_lt trailing
  have none := anchored.2.2 p (lt_length_of_isAwaited awaited) i (lt_length_of_isAwaited awaited')
    ⟨awaited, awaited', isWritten_of_operates awaited' operates, b, after, before, barrier⟩
  rw [completions, none, List.mem_singleton] at completes
  subst completes
  have completed := awaited_precedes anchored (before.trans_le below) awaited last
  exact completed.trans (reached anchored trailing operates)

/-- The call behind the second barrier reads a product that is computed behind it. -/
theorem barriers_separate_product :
    Sequence.BarriersSeparate
      [.assignment false none [] .implicitVariable
          (.operation (.operator false) (.cons (.reference 8) (.cons (.reference 9) .nil))),
        .barrier,
        .assignment false none [] .pipe (.reference 0),
        .barrier,
        .assignment false none [] .implicitVariable
          (.operation (.operator false) (.cons (.reference 8) (.cons (.reference 9) .nil))),
        .call false false none [] (.cons (.reference 4) .nil) [.implicitVariable]] :=
  barriers_separate (by decide)

/-- A call whose arguments are variables does not wait for the barrier before it, and a barrier does not wait for
what a call writes to a pipe. -/
theorem barrier_passed :
    ¬ Sequence.BarriersSeparate
        [.assignment false none [] .implicitVariable
            (.operation (.operator false) (.cons (.reference 8) (.cons (.reference 9) .nil))),
          .barrier,
          .call false false none [] (.cons (.reference 8) .nil) [.implicitVariable]] ∧
      ¬ Sequence.BarriersSeparate
        [.call false false none [] (.cons (.reference 8) .nil) [.pipe],
          .barrier,
          .assignment false none [] .implicitVariable
            (.operation (.operator false) (.cons (.reference 8) (.cons (.reference 9) .nil)))] := by
  constructor
  · intro separate
    have path := separate 0 1 2 (by decide) (by decide) (by decide) (by decide) (by decide) ⟨0, [0]⟩ (by decide) ⟨2, []⟩
      (by unfold Operates; decide)
    have unjoined : ∀ a ∈ Sequence.arcs
        [.assignment false none [] .implicitVariable
            (.operation (.operator false) (.cons (.reference 8) (.cons (.reference 9) .nil))),
          .barrier,
          .call false false none [] (.cons (.reference 8) .nil) [.implicitVariable]],
        a.target ≠ .sampleStart ⟨2, []⟩ := by decide
    rcases Relation.ReflTransGen.cases_tail path with same | ⟨x, _, arc | ⟨_, _, _, _, same⟩⟩
    · cases same
    · exact unjoined _ arc rfl
    · cases same
  · intro separate
    have path := separate 0 1 2 (by decide) (by decide) (by decide) (by decide) (by decide) ⟨0, [0, 1]⟩ (by decide)
      ⟨2, [0]⟩ (by unfold Operates; decide)
    have unheeded : ∀ a ∈ Sequence.arcs
        [.call false false none [] (.cons (.reference 8) .nil) [.pipe],
          .barrier,
          .assignment false none [] .implicitVariable
            (.operation (.operator false) (.cons (.reference 8) (.cons (.reference 9) .nil)))],
        a.source ≠ .updateCompleted ⟨0, [0, 1]⟩ := by decide
    rcases Relation.ReflTransGen.cases_head path with same | ⟨x, arc | ⟨_, _, _, same, _⟩, _⟩
    · cases same
    · exact unheeded _ arc rfl
    · cases same

end Sequence

end Ahir.Aa.BlockStatement
