import Ahir.Graph.TopologicalSort
import Ahir.Aa.Assignment

/-!
# A pipelined body of assignments keeps its values

An operator that takes the value of a variable has a forward arc from the update
of the variable when the variable is assigned before, and a forward arc to it
when it is assigned in the same or a later statement; a marked arc leads back.
The forward arcs follow the statements and, within one, lead from the operands
to the source, so that no cycle is free of tokens.

Two kinds of use get no arcs.  An operator that assigns to a variable it reads
has none when it is single buffered, and a guard has none to a variable that is
assigned in its own or a later statement.
-/

set_option autoImplicit false

namespace Ahir.Aa
open Ahir.Graph Ahir.ControlPath

/-- The operators written for an expression, and the interlock of a source that
is a reference. -/
def Expression.operators (i : Nat) : List Nat → Expression → List Operator
  | _, .constant => []
  | path, .reference _ => if path = [] then [⟨i, path⟩] else []
  | path, e@(.unary _ rest) =>
      if e.isConstant then []
      else rest.operators i (0 :: path) ++ (if e.isFlowThrough path then [] else [⟨i, path⟩])
  | path, e@(.binary _ first second) =>
      if e.isConstant then []
      else
        (first.operators i (0 :: path) ++ second.operators i (1 :: path)) ++
          (if e.isFlowThrough path then [] else [⟨i, path⟩])
  | path, e@(.ternary _ test ifTrue ifFalse) =>
      if e.isConstant then []
      else
        (test.operators i (0 :: path) ++ (ifTrue.operators i (1 :: path) ++
          ifFalse.operators i (2 :: path))) ++
          (if e.isFlowThrough path then [] else [⟨i, path⟩])

namespace Body
variable (body : Body) (below : Operator → Operator → Bool)

/-- `u` takes the value of variable `x` for its result. -/
def Reads (u : Operator) (x : Nat) : Prop :=
  ∃ s ∈ body[u.statement]?, u ∈ s.source.readers x u.statement ⟨u.statement, []⟩ []

/-- `u` is guarded by variable `x`. -/
def GuardedBy (u : Operator) (x : Nat) : Prop :=
  ∃ s ∈ body[u.statement]?, s.guardExpression = some x ∧ u ∈ s.source.operators u.statement []

/-- The `m`-th firing of `a` comes before the `n`-th of `b`. -/
def Before (a : Transition) (m : Nat) (b : Transition) (n : Nat) : Prop :=
  ∀ firings ∈ (body.graph below).firingSequences, n ≤ firings.count b → m ≤ firings.count a

/-- Each sample of `u` falls between the two updates of variable `x` it is to:
after the one of its own iteration when `x` is assigned in an earlier statement,
else after the one of the iteration before. -/
def SamplesInTurn (u : Operator) (x : Nat) : Prop :=
  ∀ k, if x < u.statement then
      body.Before below (.updateCompleted ⟨x, []⟩) k (.sampleStart u) k ∧
        body.Before below (.sampleCompleted u) k (.updateStart ⟨x, []⟩) (k + 1)
    else
      body.Before below (.updateCompleted ⟨x, []⟩) (k - 1) (.sampleStart u) k ∧
        body.Before below (.sampleCompleted u) k (.updateStart ⟨x, []⟩) k

/-- The assignment of a variable is done by the operator itself, single buffered. -/
def Fused (u : Operator) (x : Nat) : Prop :=
  u = ⟨x, []⟩ ∧ ∃ s ∈ body[x]?, s.buffering = 1

section Arcs
variable {body below}

theorem mem_takeFrom {u : Operator} {roots : List Operator} {a : Arc} :
    a ∈ takeFrom u roots ↔ ∃ r ∈ roots, a = joinArc (.sampleStart u) (.updateCompleted r) ∨
      a = markedJoin (.updateStart r) (.sampleCompleted u) := by
  simp [takeFrom, List.mem_flatMap]

theorem mem_visitedRoots {i : Nat} {roots : List Root} {r : Operator} :
    r ∈ body.visitedRoots i roots ↔ ∃ root ∈ roots, body.isVisited i root = true ∧ root.unit = r := by
  simp [visitedRoots, and_assoc]

theorem takeFrom_subset {i : Nat} {u : Operator} {roots roots' : List Root} (sub : roots ⊆ roots') :
    takeFrom u (body.visitedRoots i roots) ⊆ takeFrom u (body.visitedRoots i roots') := by
  intro a mem
  obtain ⟨r, visited, shape⟩ := mem_takeFrom.mp mem
  obtain ⟨root, among, isVisited, same⟩ := mem_visitedRoots.mp visited
  exact mem_takeFrom.mpr ⟨r, mem_visitedRoots.mpr ⟨root, sub among, isVisited, same⟩, shape⟩

theorem takeFrom_subset_writeOperator {i : Nat} {guardExpression : Option Nat} {path : List Nat}
    {roots : List Root} :
    takeFrom ⟨i, path⟩ (body.visitedRoots i roots) ⊆
      body.writeOperator i guardExpression path roots := by
  intro a mem
  simp only [writeOperator, List.mem_append]
  exact Or.inr (Or.inl mem)

theorem guard_subset_writeOperator {i : Nat} {guardExpression : Option Nat} {path : List Nat}
    {roots : List Root} :
    takeFrom ⟨i, path⟩ (body.visitedRoots i (guardRoots guardExpression)) ⊆
      body.writeOperator i guardExpression path roots := by
  intro a mem
  simp only [writeOperator, List.mem_append]
  exact Or.inl mem

theorem readers_of_isConstant {x j : Nat} {e : Expression} (isConstant : e.isConstant = true)
    (user : Operator) (path : List Nat) : e.readers x j user path = [] := by
  induction e generalizing user path with
  | constant => rfl
  | reference d => simp [Expression.isConstant] at isConstant
  | unary trivial rest ih => simp only [Expression.readers, ih isConstant]
  | binary trivial first second ihFirst ihSecond =>
      simp only [Expression.isConstant, Bool.and_eq_true] at isConstant
      simp only [Expression.readers, ihFirst isConstant.1, ihSecond isConstant.2, List.append_nil]
  | ternary trivial test ifTrue ifFalse ihTest ihTrue ihFalse =>
      simp only [Expression.isConstant, Bool.and_eq_true] at isConstant
      simp only [Expression.readers, ihTest isConstant.1.1, ihTrue isConstant.1.2,
        ihFalse isConstant.2, List.append_nil]

theorem varies_of_mem_readers {x j : Nat} {r user : Operator} {path : List Nat} {e : Expression}
    (reads : r ∈ e.readers x j user path) : e.isConstant = false := by
  by_contra isConstant
  rw [Bool.not_eq_false] at isConstant
  rw [readers_of_isConstant isConstant] at reads
  exact List.not_mem_nil reads

theorem operation_written {x j : Nat} {guardExpression : Option Nat} {r user : Operator}
    {path : List Nat} {flow : Bool} {roots : List Root} {inner : List Arc}
    (operand : (r = (if flow then user else ⟨j, path⟩) ∧ .statement x ∈ roots) ∨
      takeFrom r (body.visitedRoots j [.statement x]) ⊆ inner) :
    (r = user ∧ .statement x ∈ (if flow then roots else [.operator ⟨j, path⟩])) ∨
      takeFrom r (body.visitedRoots j [.statement x]) ⊆
        inner ++ (if flow then [] else body.writeOperator j guardExpression path roots) := by
  rcases operand with ⟨same, root⟩ | written
  · cases flow with
    | true => exact Or.inl ⟨same, root⟩
    | false =>
        have own : r = ⟨j, path⟩ := same
        subst own
        have sub : [Root.statement x] ⊆ roots := by
          intro root' mem
          rw [List.mem_singleton] at mem
          rwa [mem]
        right
        intro a mem
        exact List.mem_append_right _ (takeFrom_subset_writeOperator (takeFrom_subset sub mem))
  · right
    intro a mem
    exact List.mem_append_left _ (written mem)

variable (body) in
/-- What takes the value of `x` waits for its update, unless the value goes on
to where the value of the expression goes. -/
theorem readers_written {x j : Nat} (guardExpression : Option Nat) {r user : Operator}
    {path : List Nat} {e : Expression} (reads : r ∈ e.readers x j user path) :
    (r = user ∧ .statement x ∈ e.collectRootSources j path) ∨
      takeFrom r (body.visitedRoots j [.statement x]) ⊆
        body.writeExpression j guardExpression path e := by
  induction e generalizing user path with
  | constant => simp [Expression.readers] at reads
  | reference d =>
      simp only [Expression.readers] at reads
      split_ifs at reads with same
      · rw [List.mem_singleton] at reads
        exact Or.inl ⟨reads, by simp [Expression.collectRootSources, same]⟩
      · simp at reads
  | unary trivial rest ih =>
      have varies := varies_of_mem_readers reads
      have operand := ih reads
      simpa only [Expression.collectRootSources, writeExpression, varies, Bool.false_eq_true, if_false]
        using operation_written operand
  | binary trivial first second ihFirst ihSecond =>
      have varies := varies_of_mem_readers reads
      have operand : (r = (if (Expression.binary trivial first second).isFlowThrough path then user
            else ⟨j, path⟩) ∧ .statement x ∈ first.collectRootSources j (0 :: path) ++
            second.collectRootSources j (1 :: path)) ∨
          takeFrom r (body.visitedRoots j [.statement x]) ⊆
            body.writeExpression j guardExpression (0 :: path) first ++
              body.writeExpression j guardExpression (1 :: path) second := by
        rcases List.mem_append.mp reads with inFirst | inSecond
        · refine (ihFirst inFirst).imp ?_ ?_
          · exact fun root => ⟨root.1, List.mem_append_left _ root.2⟩
          · exact fun written => List.subset_append_of_subset_left _ written
        · refine (ihSecond inSecond).imp ?_ ?_
          · exact fun root => ⟨root.1, List.mem_append_right _ root.2⟩
          · exact fun written => List.subset_append_of_subset_right _ written
      simpa only [Expression.collectRootSources, writeExpression, varies, Bool.false_eq_true, if_false]
        using operation_written operand
  | ternary trivial test ifTrue ifFalse ihTest ihTrue ihFalse =>
      have varies := varies_of_mem_readers reads
      have operand : (r = (if (Expression.ternary trivial test ifTrue ifFalse).isFlowThrough path
            then user else ⟨j, path⟩) ∧ .statement x ∈ test.collectRootSources j (0 :: path) ++
            (ifTrue.collectRootSources j (1 :: path) ++ ifFalse.collectRootSources j (2 :: path))) ∨
          takeFrom r (body.visitedRoots j [.statement x]) ⊆
            body.writeExpression j guardExpression (0 :: path) test ++
              (body.writeExpression j guardExpression (1 :: path) ifTrue ++
                body.writeExpression j guardExpression (2 :: path) ifFalse) := by
        rcases List.mem_append.mp reads with inTest | inBranch
        · refine (ihTest inTest).imp ?_ ?_
          · exact fun root => ⟨root.1, List.mem_append_left _ root.2⟩
          · exact fun written => List.subset_append_of_subset_left _ written
        · rcases List.mem_append.mp inBranch with inTrue | inFalse
          · refine (ihTrue inTrue).imp ?_ ?_
            · exact fun root =>
                ⟨root.1, List.mem_append_right _ (List.mem_append_left _ root.2)⟩
            · exact fun written => List.subset_append_of_subset_right _
                (List.subset_append_of_subset_left _ written)
          · refine (ihFalse inFalse).imp ?_ ?_
            · exact fun root =>
                ⟨root.1, List.mem_append_right _ (List.mem_append_right _ root.2)⟩
            · exact fun written => List.subset_append_of_subset_right _
                (List.subset_append_of_subset_right _ written)
      simpa only [Expression.collectRootSources, writeExpression, varies, Bool.false_eq_true, if_false]
        using operation_written operand

theorem varies_of_mem_operators {i : Nat} {u : Operator} {path : List Nat} {e : Expression}
    (mem : u ∈ e.operators i path) : e.isConstant = false := by
  by_contra isConstant
  rw [Bool.not_eq_false] at isConstant
  cases e with
  | constant => simp [Expression.operators] at mem
  | reference d => simp [Expression.isConstant] at isConstant
  | unary trivial rest => simp [Expression.operators, isConstant] at mem
  | binary trivial first second => simp [Expression.operators, isConstant] at mem
  | ternary trivial test ifTrue ifFalse => simp [Expression.operators, isConstant] at mem

theorem operation_guarded {j : Nat} {guardExpression : Option Nat} {u : Operator}
    {path : List Nat} {flow : Bool} {roots : List Root} {inner : List Arc} {among : List Operator}
    (operand : u ∈ among → takeFrom u (body.visitedRoots j (guardRoots guardExpression)) ⊆ inner)
    (mem : u ∈ among ++ (if flow then [] else [⟨j, path⟩])) :
    takeFrom u (body.visitedRoots j (guardRoots guardExpression)) ⊆
      inner ++ (if flow then [] else body.writeOperator j guardExpression path roots) := by
  intro a arc
  rcases List.mem_append.mp mem with within | own
  · exact List.mem_append_left _ (operand within arc)
  · cases flow with
    | true => simp at own
    | false =>
        have same : u = ⟨j, path⟩ := List.mem_singleton.mp own
        subst same
        exact List.mem_append_right _ (guard_subset_writeOperator arc)

theorem operators_guarded {j : Nat} {guardExpression : Option Nat} {u : Operator}
    {path : List Nat} {e : Expression} (notCopy : path ≠ [] ∨ ∀ d, e ≠ .reference d)
    (mem : u ∈ e.operators j path) :
    takeFrom u (body.visitedRoots j (guardRoots guardExpression)) ⊆
      body.writeExpression j guardExpression path e := by
  induction e generalizing path with
  | constant => simp [Expression.operators] at mem
  | reference d =>
      rcases notCopy with below | other
      · simp [Expression.operators, below] at mem
      · exact absurd rfl (other d)
  | unary trivial rest ih =>
      by_cases isConstant : (Expression.unary trivial rest).isConstant = true
      · rw [Expression.operators, if_pos isConstant] at mem
        exact absurd mem List.not_mem_nil
      · rw [Expression.operators, if_neg isConstant] at mem
        rw [writeExpression, if_neg isConstant]
        exact operation_guarded (ih (Or.inl (List.cons_ne_nil _ _))) mem
  | binary trivial first second ihFirst ihSecond =>
      by_cases isConstant : (Expression.binary trivial first second).isConstant = true
      · rw [Expression.operators, if_pos isConstant] at mem
        exact absurd mem List.not_mem_nil
      · rw [Expression.operators, if_neg isConstant] at mem
        rw [writeExpression, if_neg isConstant]
        refine operation_guarded ?_ mem
        intro within
        rcases List.mem_append.mp within with inFirst | inSecond
        · exact List.subset_append_of_subset_left _
            (ihFirst (Or.inl (List.cons_ne_nil _ _)) inFirst)
        · exact List.subset_append_of_subset_right _
            (ihSecond (Or.inl (List.cons_ne_nil _ _)) inSecond)
  | ternary trivial test ifTrue ifFalse ihTest ihTrue ihFalse =>
      by_cases isConstant : (Expression.ternary trivial test ifTrue ifFalse).isConstant = true
      · rw [Expression.operators, if_pos isConstant] at mem
        exact absurd mem List.not_mem_nil
      · rw [Expression.operators, if_neg isConstant] at mem
        rw [writeExpression, if_neg isConstant]
        refine operation_guarded ?_ mem
        intro within
        rcases List.mem_append.mp within with inTest | inBranch
        · exact List.subset_append_of_subset_left _
            (ihTest (Or.inl (List.cons_ne_nil _ _)) inTest)
        · refine List.subset_append_of_subset_right _ ?_
          rcases List.mem_append.mp inBranch with inTrue | inFalse
          · exact List.subset_append_of_subset_left _
              (ihTrue (Or.inl (List.cons_ne_nil _ _)) inTrue)
          · exact List.subset_append_of_subset_right _
              (ihFalse (Or.inl (List.cons_ne_nil _ _)) inFalse)

theorem mem_readRootSet {i : Nat} {r : Operator} :
    r ∈ body.readRootSet below i ↔
      ∃ j ≤ i, ∃ s, body[j]? = some s ∧ r ∈ s.source.readers i j ⟨j, []⟩ [] := by
  simp only [readRootSet, mem_insertPointers, List.not_mem_nil, false_or, List.mem_flatMap,
    List.mem_range, Nat.lt_succ_iff]
  refine exists_congr fun j => and_congr_right fun _ => ?_
  cases body[j]? with
  | none => simp
  | some s => simp

theorem mem_writeWARDependencies {i buffering : Nat} {roots : List Operator} {r : Operator}
    (mem : r ∈ roots) (notFused : ¬ (r = ⟨i, []⟩ ∧ buffering = 1)) :
    joinArc (.updateStart ⟨i, []⟩) (.sampleCompleted r) ∈ writeWARDependencies i buffering roots ∧
      markedJoin (.sampleStart r) (.updateCompleted ⟨i, []⟩) ∈
        writeWARDependencies i buffering roots := by
  induction roots generalizing buffering with
  | nil => simp at mem
  | cons r' rest ih =>
      by_cases fused : r' = ⟨i, []⟩ ∧ buffering = 1
      · rw [writeWARDependencies, if_pos fused]
        rcases List.mem_cons.mp mem with same | later
        · subst same
          exact absurd fused notFused
        · exact ih later notFused
      · rw [writeWARDependencies, if_neg fused]
        rcases List.mem_cons.mp mem with same | later
        · subst same
          exact ⟨List.mem_cons_self, List.mem_cons_of_mem _ List.mem_cons_self⟩
        · -- from here on the statement is double buffered
          have double : ¬ (r = ⟨i, []⟩ ∧ (if buffering < 2 then 2 else buffering) = 1) := by
            intro ⟨_, single⟩
            split_ifs at single <;> omega
          obtain ⟨forward, marked⟩ := ih later double
          exact ⟨List.mem_cons_of_mem _ (List.mem_cons_of_mem _ forward),
            List.mem_cons_of_mem _ (List.mem_cons_of_mem _ marked)⟩

variable (below) in
theorem writeStatement_subset_arcs {i : Nat} {s : Assignment} (here : body[i]? = some s) :
    body.writeStatement below i s ⊆ body.arcs below := by
  intro a mem
  refine List.mem_flatMap.mpr ⟨i, ?_, ?_⟩
  · obtain ⟨inBody, _⟩ := List.getElem?_eq_some_iff.mp here
    exact List.mem_range.mpr inBody
  · rw [here]
    exact mem

theorem takeFrom_of_reads {u : Operator} {x : Nat} (reads : body.Reads u x)
    (written : body.IsWritten x) (earlier : x < u.statement) :
    takeFrom u [⟨x, []⟩] ⊆ body.arcs below := by
  obtain ⟨s, here, mem⟩ := reads
  have visited : body.visitedRoots u.statement [.statement x] = [⟨x, []⟩] := by
    simp [visitedRoots, isVisited, earlier, written, Root.unit]
  have varies := varies_of_mem_readers mem
  refine List.Subset.trans ?_ (writeStatement_subset_arcs below here)
  rw [writeStatement, varies, if_neg Bool.false_ne_true]
  rcases readers_written body s.guardExpression mem with
    ⟨same, root⟩ | arcs
  · -- the source is the reference itself
    cases copied : s.source with
    | reference d =>
        rw [copied, Expression.collectRootSources, List.mem_singleton, Root.statement.injEq] at root
        subst root
        rw [← visited]
        refine List.subset_append_of_subset_right _ (List.subset_append_of_subset_left _ ?_)
        rw [same]
        exact takeFrom_subset_writeOperator
    | constant => simp [copied, Expression.collectRootSources] at root
    | unary _ _ =>
        rw [copied] at root varies
        simp [Expression.collectRootSources, varies, Expression.isFlowThrough] at root
    | binary _ _ _ =>
        rw [copied] at root varies
        simp [Expression.collectRootSources, varies, Expression.isFlowThrough] at root
    | ternary _ _ _ _ =>
        rw [copied] at root varies
        simp [Expression.collectRootSources, varies, Expression.isFlowThrough] at root
  · rw [visited] at arcs
    exact List.subset_append_of_subset_left _ arcs

theorem takeFrom_of_guardedBy {u : Operator} {x : Nat} (guarded : body.GuardedBy u x)
    (written : body.IsWritten x) (earlier : x < u.statement) :
    takeFrom u [⟨x, []⟩] ⊆ body.arcs below := by
  obtain ⟨s, here, guard, mem⟩ := guarded
  have visited : body.visitedRoots u.statement (guardRoots s.guardExpression) = [⟨x, []⟩] := by
    simp [guard, guardRoots, visitedRoots, isVisited, earlier, written, Root.unit]
  refine List.Subset.trans ?_ (writeStatement_subset_arcs below here)
  rw [← visited, writeStatement, varies_of_mem_operators mem, if_neg Bool.false_ne_true]
  by_cases copy : ∃ d, s.source = .reference d
  · obtain ⟨d, copied⟩ := copy
    have own : u = ⟨u.statement, []⟩ := by simpa [copied, Expression.operators] using mem
    rw [copied]
    refine List.subset_append_of_subset_right _ (List.subset_append_of_subset_left _ ?_)
    conv_lhs => rw [own]
    exact guard_subset_writeOperator
  · refine List.subset_append_of_subset_left _ (operators_guarded (Or.inr ?_) mem)
    exact fun d same => copy ⟨d, same⟩

variable (below) in
theorem writeAfterRead_of_reads {u : Operator} {x : Nat} (reads : body.Reads u x)
    (written : body.IsWritten x) (later : u.statement ≤ x) (notFused : ¬ body.Fused u x) :
    joinArc (.updateStart ⟨x, []⟩) (.sampleCompleted u) ∈ body.arcs below ∧
      markedJoin (.sampleStart u) (.updateCompleted ⟨x, []⟩) ∈ body.arcs below := by
  obtain ⟨s, here, varies⟩ := written
  obtain ⟨t, place, mem⟩ := reads
  have inSet : u ∈ body.readRootSet below x := mem_readRootSet.mpr ⟨_, later, t, place, mem⟩
  have notSingle : ¬ (u = ⟨x, []⟩ ∧ s.buffering = 1) := by
    intro ⟨same, single⟩
    exact notFused ⟨same, s, here, single⟩
  obtain ⟨forward, marked⟩ := mem_writeWARDependencies inSet notSingle
  have sub : writeWARDependencies x s.buffering (body.readRootSet below x) ⊆ body.arcs below := by
    refine List.Subset.trans ?_ (writeStatement_subset_arcs below here)
    rw [writeStatement, varies, if_neg Bool.false_ne_true]
    exact List.subset_append_of_subset_right _
      (List.subset_append_of_subset_right _ (List.subset_append_right _ _))
  exact ⟨sub forward, sub marked⟩

end Arcs

end Body

/-- The statement, then the way from the operands up to the source, then the way
from the start of the sample to the end of the update. -/
def Transition.level : Transition → ℕ ×ₗ ℤ ×ₗ ℕ
  | .synch i _ => toLex (i, toLex (0, 0))
  | .sampleStart u => toLex (u.statement, toLex (-(u.path.length : ℤ), 1))
  | .sampleCompleted u => toLex (u.statement, toLex (-(u.path.length : ℤ), 2))
  | .updateStart u => toLex (u.statement, toLex (-(u.path.length : ℤ), 3))
  | .updateCompleted u => toLex (u.statement, toLex (-(u.path.length : ℤ), 4))
  | .delay i _ => toLex (i, toLex (0, 0))

def Arc.Rises (a : Arc) : Prop := a.tokens = 0 → a.source.level < a.target.level

namespace Body
variable {body : Body} {below : Operator → Operator → Bool}

section Levels

theorem markedJoin_rises (x y : Transition) : (markedJoin x y).Rises := by
  intro none
  simp [markedJoin] at none

theorem takeFrom_rises {u : Operator} {roots : List Operator}
    (lower : ∀ r ∈ roots, r.statement < u.statement ∨
      r.statement = u.statement ∧ u.path.length < r.path.length) :
    ∀ a ∈ takeFrom u roots, a.Rises := by
  intro a mem
  obtain ⟨r, among, shape | shape⟩ := mem_takeFrom.mp mem
  · intro _
    rw [shape]
    simp only [joinArc, Transition.level, Prod.Lex.toLex_lt_toLex]
    rcases lower r among with earlier | ⟨same, deeper⟩
    · exact Or.inl earlier
    · exact Or.inr ⟨same, Or.inl (by omega)⟩
  · rw [shape]
    exact markedJoin_rises _ _

theorem collectRootSources_deeper {i : Nat} {path : List Nat} {e : Expression} {root : Root}
    (mem : root ∈ e.collectRootSources i path) :
    (∃ d, root = .statement d) ∨ ∃ q, root = .operator ⟨i, q⟩ ∧ path.length ≤ q.length := by
  induction e generalizing path with
  | constant => simp [Expression.collectRootSources] at mem
  | reference d =>
      rw [Expression.collectRootSources, List.mem_singleton] at mem
      exact Or.inl ⟨d, mem⟩
  | unary trivial rest ih =>
      rw [Expression.collectRootSources] at mem
      split_ifs at mem
      · exact absurd mem List.not_mem_nil
      · exact (ih mem).imp_right fun ⟨q, same, deep⟩ => ⟨q, same, (Nat.le_succ _).trans deep⟩
      · exact Or.inr ⟨path, List.mem_singleton.mp mem, le_rfl⟩
  | binary trivial first second ihFirst ihSecond =>
      rw [Expression.collectRootSources] at mem
      split_ifs at mem
      · exact absurd mem List.not_mem_nil
      · rcases List.mem_append.mp mem with inFirst | inSecond
        · exact (ihFirst inFirst).imp_right fun ⟨q, same, deep⟩ =>
            ⟨q, same, (Nat.le_succ _).trans deep⟩
        · exact (ihSecond inSecond).imp_right fun ⟨q, same, deep⟩ =>
            ⟨q, same, (Nat.le_succ _).trans deep⟩
      · exact Or.inr ⟨path, List.mem_singleton.mp mem, le_rfl⟩
  | ternary trivial test ifTrue ifFalse ihTest ihTrue ihFalse =>
      rw [Expression.collectRootSources] at mem
      split_ifs at mem
      · exact absurd mem List.not_mem_nil
      · rcases List.mem_append.mp mem with inTest | inBranch
        · exact (ihTest inTest).imp_right fun ⟨q, same, deep⟩ =>
            ⟨q, same, (Nat.le_succ _).trans deep⟩
        · rcases List.mem_append.mp inBranch with inTrue | inFalse
          · exact (ihTrue inTrue).imp_right fun ⟨q, same, deep⟩ =>
              ⟨q, same, (Nat.le_succ _).trans deep⟩
          · exact (ihFalse inFalse).imp_right fun ⟨q, same, deep⟩ =>
              ⟨q, same, (Nat.le_succ _).trans deep⟩
      · exact Or.inr ⟨path, List.mem_singleton.mp mem, le_rfl⟩

/-- Roots of the operands of the operator at `path` in statement `i`. -/
def Operands (i : Nat) (path : List Nat) (roots : List Root) : Prop :=
  ∀ root ∈ roots, (∃ d, root = .statement d) ∨
    ∃ q, root = .operator ⟨i, q⟩ ∧ path.length < q.length

theorem Operands.append {i : Nat} {path : List Nat} {roots roots' : List Root}
    (first : Operands i path roots) (second : Operands i path roots') :
    Operands i path (roots ++ roots') := by
  intro root mem
  rcases List.mem_append.mp mem with inFirst | inSecond
  · exact first root inFirst
  · exact second root inSecond

theorem operands_of_operand (i n : Nat) (path : List Nat) (e : Expression) :
    Operands i path (e.collectRootSources i (n :: path)) := by
  intro root mem
  exact (collectRootSources_deeper mem).imp_right fun ⟨q, same, deep⟩ => ⟨q, same, deep⟩

theorem visitedRoots_lower {i : Nat} {path : List Nat} {roots : List Root}
    (operands : Operands i path roots) {r : Operator} (mem : r ∈ body.visitedRoots i roots) :
    r.statement < i ∨ r.statement = i ∧ path.length < r.path.length := by
  obtain ⟨root, among, isVisited, unit⟩ := mem_visitedRoots.mp mem
  rcases operands root among with ⟨d, same⟩ | ⟨q, same, deeper⟩
  · subst same
    subst unit
    rw [Body.isVisited, Bool.and_eq_true, decide_eq_true_eq] at isVisited
    exact Or.inl isVisited.1
  · subst same
    subst unit
    exact Or.inr ⟨rfl, deeper⟩

theorem writeOperator_rises {i : Nat} {guardExpression : Option Nat} {path : List Nat}
    {roots : List Root} (operands : Operands i path roots) :
    ∀ a ∈ body.writeOperator i guardExpression path roots, a.Rises := by
  intro a mem
  simp only [writeOperator, List.mem_append] at mem
  rcases mem with guard | operand | protocol | release
  · have fromStatements : Operands i path (guardRoots guardExpression) := by
      intro root among
      obtain ⟨d, _, same⟩ := List.mem_map.mp among
      exact Or.inl ⟨d, same.symm⟩
    exact takeFrom_rises (fun r visited => visitedRoots_lower fromStatements visited) a guard
  · exact takeFrom_rises (fun r visited => visitedRoots_lower operands visited) a operand
  · simp only [connectSplitProtocol, List.mem_cons, List.not_mem_nil, or_false] at protocol
    intro _
    rcases protocol with sample | update
    · rw [sample]
      simp [joinArc, Transition.level, Prod.Lex.toLex_lt_toLex]
    · rw [update]
      simp [joinArc, Transition.level, Prod.Lex.toLex_lt_toLex]
  · simp only [selfRelease, List.mem_cons, List.not_mem_nil, or_false] at release
    rcases release with sample | update
    · rw [sample]
      exact markedJoin_rises _ _
    · rw [update]
      exact markedJoin_rises _ _

theorem operation_rises {i : Nat} {guardExpression : Option Nat} {path : List Nat} {flow : Bool}
    {roots : List Root} {inner : List Arc} (operands : Operands i path roots)
    (within : ∀ a ∈ inner, a.Rises) :
    ∀ a ∈ inner ++ (if flow then [] else body.writeOperator i guardExpression path roots),
      a.Rises := by
  intro a mem
  rcases List.mem_append.mp mem with inside | own
  · exact within a inside
  · cases flow with
    | true => exact absurd own List.not_mem_nil
    | false => exact writeOperator_rises operands a own

theorem writeExpression_rises {i : Nat} {guardExpression : Option Nat} {path : List Nat}
    {e : Expression} : ∀ a ∈ body.writeExpression i guardExpression path e, a.Rises := by
  induction e generalizing path with
  | constant => simp [writeExpression]
  | reference d => simp [writeExpression]
  | unary trivial rest ih =>
      rw [writeExpression]
      split
      · simp
      · exact operation_rises (operands_of_operand i 0 path rest) ih
  | binary trivial first second ihFirst ihSecond =>
      rw [writeExpression]
      split
      · simp
      · refine operation_rises ((operands_of_operand i 0 path first).append
          (operands_of_operand i 1 path second)) fun a mem => ?_
        exact (List.mem_append.mp mem).elim (ihFirst a) (ihSecond a)
  | ternary trivial test ifTrue ifFalse ihTest ihTrue ihFalse =>
      rw [writeExpression]
      split
      · simp
      · refine operation_rises ((operands_of_operand i 0 path test).append
          ((operands_of_operand i 1 path ifTrue).append (operands_of_operand i 2 path ifFalse)))
          fun a mem => ?_
        exact (List.mem_append.mp mem).elim (ihTest a) fun branch =>
          (List.mem_append.mp branch).elim (ihTrue a) (ihFalse a)

theorem writeSynchDependency_rises {i : Nat} {synchStatements : List (Nat × Bool)} :
    ∀ a ∈ body.writeSynchDependency i synchStatements, a.Rises := by
  intro a mem
  obtain ⟨⟨marked, updateFlag⟩, _, written⟩ := List.mem_flatMap.mp mem
  dsimp only at written
  by_cases isVisited : body.isVisited i (.statement marked) = true
  · rw [if_pos isVisited] at written
    rw [Body.isVisited, Bool.and_eq_true, decide_eq_true_eq] at isVisited
    simp only [List.mem_cons, List.not_mem_nil, or_false] at written
    rcases written with fromMarked | toThis | back
    · rw [fromMarked]
      intro _
      cases updateFlag <;>
        simp [joinArc, Transition.level, Prod.Lex.toLex_lt_toLex, isVisited.1]
    · rw [toThis]
      intro _
      simp [joinArc, Transition.level, Prod.Lex.toLex_lt_toLex]
    · rw [back]
      exact markedJoin_rises _ _
  · rw [if_neg isVisited] at written
    exact absurd written List.not_mem_nil

theorem user_statement {j : Nat} {user : Operator} {path : List Nat} (flow : Bool)
    (here : user.statement = j) :
    (if flow then user else ⟨j, path⟩ : Operator).statement = j := by
  cases flow with
  | true => exact here
  | false => rfl

theorem readers_statement {x j : Nat} {r user : Operator} {path : List Nat} {e : Expression}
    (here : user.statement = j) (mem : r ∈ e.readers x j user path) : r.statement = j := by
  induction e generalizing user path with
  | constant => exact absurd mem List.not_mem_nil
  | reference d =>
      rw [Expression.readers] at mem
      by_cases same : d = x
      · rw [if_pos same] at mem
        rw [List.mem_singleton.mp mem]
        exact here
      · rw [if_neg same] at mem
        exact absurd mem List.not_mem_nil
  | unary trivial rest ih => exact ih (user_statement _ here) mem
  | binary trivial first second ihFirst ihSecond =>
      rcases List.mem_append.mp mem with inFirst | inSecond
      · exact ihFirst (user_statement _ here) inFirst
      · exact ihSecond (user_statement _ here) inSecond
  | ternary trivial test ifTrue ifFalse ihTest ihTrue ihFalse =>
      rcases List.mem_append.mp mem with inTest | inBranch
      · exact ihTest (user_statement _ here) inTest
      · rcases List.mem_append.mp inBranch with inTrue | inFalse
        · exact ihTrue (user_statement _ here) inTrue
        · exact ihFalse (user_statement _ here) inFalse

theorem writeWARDependencies_rises {i buffering : Nat} {roots : List Operator}
    (before : ∀ r ∈ roots, r.statement ≤ i) :
    ∀ a ∈ writeWARDependencies i buffering roots, a.Rises := by
  induction roots generalizing buffering with
  | nil => simp [writeWARDependencies]
  | cons r rest ih =>
      have later : ∀ r ∈ rest, r.statement ≤ i := fun r mem => before r (List.mem_cons_of_mem _ mem)
      rw [writeWARDependencies]
      split
      · exact ih later
      · intro a mem
        rcases List.mem_cons.mp mem with forward | mem
        · rw [forward]
          intro _
          have notAfter := before r List.mem_cons_self
          simp only [joinArc, Transition.level, Prod.Lex.toLex_lt_toLex, List.length_nil]
          omega
        · rcases List.mem_cons.mp mem with marked | inRest
          · rw [marked]
            exact markedJoin_rises _ _
          · exact ih later a inRest

theorem arcs_rise : ∀ a ∈ body.arcs below, a.Rises := by
  intro a mem
  obtain ⟨i, _, written⟩ := List.mem_flatMap.mp mem
  cases here : body[i]? with
  | none =>
      rw [here] at written
      exact absurd written List.not_mem_nil
  | some s =>
      rw [here] at written
      have written : a ∈ body.writeStatement below i s := written
      rw [writeStatement] at written
      by_cases isConstant : s.source.isConstant = true
      · rw [if_pos isConstant] at written
        exact absurd written List.not_mem_nil
      · rw [if_neg isConstant] at written
        simp only [List.mem_append] at written
        rcases written with expression | interlock | synch | readers
        · exact writeExpression_rises a expression
        · cases copied : s.source with
          | reference d =>
              rw [copied] at interlock
              have operands : Operands i [] [.statement d] := by
                intro root among
                exact Or.inl ⟨d, List.mem_singleton.mp among⟩
              exact writeOperator_rises operands a interlock
          | constant => simp [copied] at interlock
          | unary _ _ => simp [copied] at interlock
          | binary _ _ _ => simp [copied] at interlock
          | ternary _ _ _ _ => simp [copied] at interlock
        · exact writeSynchDependency_rises a synch
        · refine writeWARDependencies_rises (fun r inSet => ?_) a readers
          obtain ⟨j, notAfter, t, _, reads⟩ := mem_readRootSet.mp inSet
          have here : (⟨j, []⟩ : Operator).statement = j := rfl
          exact (readers_statement here reads).trans_le notAfter

end Levels

section Turns

theorem graph_finite : (body.graph below).inside.Finite := by
  refine (((body.arcs below).map Arc.source ++ (body.arcs below).map Arc.target).finite_toSet).subset ?_
  intro t endpoint
  obtain ⟨a, mem, same | same⟩ := endpoint
  · exact List.mem_append_left _ (List.mem_map.mpr ⟨a, mem, same.symm⟩)
  · exact List.mem_append_right _ (List.mem_map.mpr ⟨a, mem, same.symm⟩)

theorem graph_closed (x y : Transition) (n : Nat) (arc : (body.graph below).arc x y n) :
    x ∈ (body.graph below).inside := ⟨_, arc, Or.inl rfl⟩

theorem graph_rising (x y : Transition) (arc : (body.graph below).arc x y 0) : x.level < y.level :=
  arcs_rise _ arc rfl

theorem before_of_join {x y : Transition} (arc : joinArc y x ∈ body.arcs below) (k : Nat) :
    body.Before below x k y k := by
  intro firings sequence fired
  have := MarkedGraph.balanced_of_mem_firingSequences sequence x y 0 arc
  omega

theorem before_of_markedJoin {x y : Transition} (arc : markedJoin y x ∈ body.arcs below) (k : Nat) :
    body.Before below x k y (k + 1) := by
  intro firings sequence fired
  have := MarkedGraph.balanced_of_mem_firingSequences sequence x y 1 arc
  omega

theorem samplesInTurn_of_takeFrom {u : Operator} {x : Nat} (earlier : x < u.statement)
    (arcs : takeFrom u [⟨x, []⟩] ⊆ body.arcs below) : body.SamplesInTurn below u x := by
  intro k
  rw [if_pos earlier]
  have forward := arcs (mem_takeFrom.mpr ⟨⟨x, []⟩, List.mem_singleton_self _, Or.inl rfl⟩)
  have marked := arcs (mem_takeFrom.mpr ⟨⟨x, []⟩, List.mem_singleton_self _, Or.inr rfl⟩)
  exact ⟨before_of_join forward k, before_of_markedJoin marked k⟩

/-- A use in an expression is in turn, unless it is fused with the assignment. -/
theorem samplesInTurn_of_reads {u : Operator} {x : Nat} (reads : body.Reads u x)
    (written : body.IsWritten x) (notFused : ¬ body.Fused u x) : body.SamplesInTurn below u x := by
  by_cases earlier : x < u.statement
  · exact samplesInTurn_of_takeFrom earlier (takeFrom_of_reads reads written earlier)
  · obtain ⟨forward, marked⟩ :=
      writeAfterRead_of_reads below reads written (not_lt.mp earlier) notFused
    intro k
    rw [if_neg earlier]
    refine ⟨?_, before_of_join forward k⟩
    cases k with
    | zero => exact fun _ _ _ => Nat.zero_le _
    | succ k => exact before_of_markedJoin marked k

end Turns

variable (body below)

/-- Every use of a variable that is written is in turn, but for the fused ones
and for the guards that use a variable of their own or a later statement.  No
cycle is free of tokens, and no transition is ever cut off. -/
theorem uses_in_turn :
    (∀ u x, body.IsWritten x →
      (body.Reads u x → ¬ body.Fused u x → body.SamplesInTurn below u x) ∧
      (body.GuardedBy u x → x < u.statement → body.SamplesInTurn below u x)) ∧
    (∀ t, ¬ Relation.TransGen (fun y z => (body.graph below).arc y z 0) t t) ∧
    (body.graph below).Live := by
  refine ⟨fun u x written => ⟨?_, ?_⟩, ?_, ?_⟩
  · intro reads notFused
    exact samplesInTurn_of_reads reads written notFused
  · intro guarded earlier
    exact samplesInTurn_of_takeFrom earlier (takeFrom_of_guardedBy guarded written earlier)
  · exact Graph.acyclic_of_rising _ graph_rising
  · exact MarkedGraph.live_of_rank graph_finite graph_closed graph_rising

theorem snoc_mem_graph {firings : List Transition} {t : Transition}
    (sequence : firings ∈ (body.graph below).firingSequences)
    (inside : ∃ a ∈ body.arcs below, t = a.source ∨ t = a.target)
    (room : ∀ a ∈ body.arcs below, a.target = t →
      firings.count t + 1 ≤ a.tokens + firings.count a.source) :
    firings ++ [t] ∈ (body.graph below).firingSequences := by
  refine MarkedGraph.snoc_mem_firingSequences sequence inside ?_
  intro y n arc
  exact room _ arc rfl

end Body

/-- `$guard (b) a := (~ a)`, then `b := (~ a)`, single buffered. -/
def selfGuarded : Body :=
  [⟨.unary true (.reference 0), some 1, 1, []⟩, ⟨.unary true (.reference 0), none, 1, []⟩]

/-- The second statement takes each value of `a`. -/
theorem uses_in_turn_second :
    selfGuarded.SamplesInTurn (fun _ _ => true) ⟨1, []⟩ 0 := by
  have reads : selfGuarded.Reads ⟨1, []⟩ 0 := ⟨_, rfl, by decide⟩
  refine ((Body.uses_in_turn selfGuarded (fun _ _ => true)).1 ⟨1, []⟩ 0 (by decide)).1 reads ?_
  rintro ⟨same, _⟩
  exact absurd same (by decide)

/-- The first one samples `a` and its guard `b` twice before either is updated. -/
theorem uses_out_of_turn :
    (selfGuarded.IsWritten 0 ∧ selfGuarded.Reads ⟨0, []⟩ 0 ∧
      ¬ selfGuarded.SamplesInTurn (fun _ _ => true) ⟨0, []⟩ 0) ∧
    (selfGuarded.IsWritten 1 ∧ selfGuarded.GuardedBy ⟨0, []⟩ 1 ∧
      ¬ selfGuarded.SamplesInTurn (fun _ _ => true) ⟨0, []⟩ 1) := by
  have once : [.sampleStart ⟨0, []⟩] ∈ (selfGuarded.graph (fun _ _ => true)).firingSequences :=
    Body.snoc_mem_graph selfGuarded _ ⟨_, MarkedGraph.Fires.start⟩ (by decide) (by decide)
  have sampled : [.sampleStart ⟨0, []⟩, .sampleCompleted ⟨0, []⟩] ∈
      (selfGuarded.graph (fun _ _ => true)).firingSequences :=
    Body.snoc_mem_graph selfGuarded _ once (by decide) (by decide)
  have twice : [.sampleStart ⟨0, []⟩, .sampleCompleted ⟨0, []⟩, .sampleStart ⟨0, []⟩] ∈
      (selfGuarded.graph (fun _ _ => true)).firingSequences :=
    Body.snoc_mem_graph selfGuarded _ sampled (by decide) (by decide)
  have notUpdated : ∀ x, ¬ 1 ≤ List.count (Transition.updateCompleted ⟨x, []⟩)
      [.sampleStart ⟨0, []⟩, .sampleCompleted ⟨0, []⟩, .sampleStart ⟨0, []⟩] := by
    intro x
    simp
  refine ⟨⟨by decide, ⟨_, rfl, by decide⟩, ?_⟩, ⟨by decide, ⟨_, rfl, rfl, by decide⟩, ?_⟩⟩
  · intro inTurn
    exact notUpdated 0 ((inTurn 2).1 _ twice (by decide))
  · intro inTurn
    exact notUpdated 1 ((inTurn 2).1 _ twice (by decide))

end Ahir.Aa
