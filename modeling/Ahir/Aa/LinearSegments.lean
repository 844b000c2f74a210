import Mathlib.Tactic

/-!
# Linear segments

`Identify_Maximal_Sequences` cuts the statements of a block into segments, each of
which is one block or control-flow statement or a run of simple ones.
-/

set_option autoImplicit false

namespace Ahir.Aa.LinearSegments

inductive Kind where
  | null | barrier | trace | report | lock | unlock | sleep
  | assignment | call | phi
  | seriesBlock | parallelBlock | forkBlock | branchBlock | joinFork | merge
  | place | switch | if_ | doWhile
  deriving DecidableEq

namespace Kind

/-- `Is_Null_Like_Statement`: that of `AaNullStatement` and of what is derived from it. -/
def isNullLike : Kind → Bool
  | .null | .barrier | .trace | .report | .lock | .unlock | .sleep => true
  | _ => false

/-- `Is_Block_Statement` -/
def isBlock : Kind → Bool
  | .seriesBlock | .parallelBlock | .forkBlock | .branchBlock | .joinFork | .merge => true
  | _ => false

/-- `Is_Control_Flow_Statement`, which a barrier is too. -/
def isControlFlow : Kind → Bool
  | .barrier | .place | .switch | .if_ | .doWhile => true
  | _ => false

def isSimple (kind : Kind) : Bool := !kind.isNullLike && !kind.isBlock && !kind.isControlFlow

end Kind

section Segments
variable {α : Type} (kind : α → Kind)

/-- The inner loop: `segment` is the segment so far, and the statements are those from
`end_idx` on.  The result is the segment and what is left for the outer loop. -/
def linearSegment : List α → List α → List α × List α
  | segment, [] => (segment, [])
  | segment, stmt :: rest =>
      if kind stmt = .barrier then (segment, rest)
      else if (kind stmt).isNullLike then linearSegment segment rest
      else if (kind stmt).isBlock || (kind stmt).isControlFlow then
        if segment.length = 0 then (segment ++ [stmt], rest) else (segment, stmt :: rest)
      else linearSegment (segment ++ [stmt]) rest

variable {kind}

section Turn
variable {stmt : α} (segment rest : List α)

theorem linearSegment_barrier (isCut : kind stmt = .barrier) : linearSegment kind segment (stmt :: rest) = (segment, rest) := by
  rw [linearSegment, if_pos isCut]

theorem linearSegment_null (notCut : kind stmt ≠ .barrier) (null : (kind stmt).isNullLike = true) :
    linearSegment kind segment (stmt :: rest) = linearSegment kind segment rest := by
  rw [linearSegment, if_neg notCut, if_pos null]

theorem linearSegment_first (keep : (kind stmt).isNullLike = false)
    (alone : ((kind stmt).isBlock || (kind stmt).isControlFlow) = true) :
    linearSegment kind [] (stmt :: rest) = ([stmt], rest) := by
  have notCut : kind stmt ≠ .barrier := fun isCut => absurd keep (by rw [isCut]; decide)
  rw [linearSegment, if_neg notCut, if_neg (by rw [keep]; decide), if_pos alone]
  rfl

theorem linearSegment_alone (keep : (kind stmt).isNullLike = false)
    (alone : ((kind stmt).isBlock || (kind stmt).isControlFlow) = true) (nonempty : segment ≠ []) :
    linearSegment kind segment (stmt :: rest) = (segment, stmt :: rest) := by
  have notCut : kind stmt ≠ .barrier := fun isCut => absurd keep (by rw [isCut]; decide)
  rw [linearSegment, if_neg notCut, if_neg (by rw [keep]; decide), if_pos alone,
    if_neg (mt List.length_eq_zero_iff.mp nonempty)]

theorem linearSegment_simple (simple : (kind stmt).isSimple = true) :
    linearSegment kind segment (stmt :: rest) = linearSegment kind (segment ++ [stmt]) rest := by
  rw [linearSegment]
  cases isKind : kind stmt <;> rw [isKind] at simple <;> first | rfl | exact absurd simple (by decide)

end Turn

variable (kind) in
theorem kind_cases (stmt : α) : kind stmt = .barrier ∨ (kind stmt ≠ .barrier ∧ (kind stmt).isNullLike = true) ∨
    ((kind stmt).isNullLike = false ∧ ((kind stmt).isBlock || (kind stmt).isControlFlow) = true) ∨
      (kind stmt).isSimple = true := by
  cases kind stmt <;> decide

theorem not_simple_of_alone {k : Kind} (alone : (k.isBlock || k.isControlFlow) = true) : k.isSimple = false := by
  cases k <;> first | rfl | exact absurd alone (by decide)

theorem not_null_of_simple {k : Kind} (simple : k.isSimple = true) : k.isNullLike = false := by
  cases k <;> first | rfl | exact absurd simple (by decide)

theorem length_linearSegment_le (stmts : List α) : ∀ segment : List α,
    (linearSegment kind segment stmts).2.length ≤ stmts.length := by
  induction stmts with
  | nil => exact fun _ => Nat.le_refl _
  | cons stmt rest ih =>
      intro segment
      unfold linearSegment
      split_ifs
      · exact Nat.le_succ _
      · exact Nat.le_succ_of_le (ih _)
      · exact Nat.le_succ _
      · exact Nat.le_refl _
      · exact Nat.le_succ_of_le (ih _)

variable (kind) in
theorem length_linearSegment_lt (stmt : α) (rest : List α) :
    (linearSegment kind [] (stmt :: rest)).2.length < (stmt :: rest).length := by
  unfold linearSegment
  split_ifs with _ _ _ empty
  · exact Nat.lt_succ_self _
  · exact Nat.lt_succ_of_le (length_linearSegment_le rest _)
  · exact Nat.lt_succ_self _
  · exact absurd rfl empty
  · exact Nat.lt_succ_of_le (length_linearSegment_le rest _)

variable (kind) in
/-- `Identify_Maximal_Sequences`: the statements are those from `start_idx` on. -/
def identifyMaximalSequences : List α → List (List α)
  | [] => []
  | stmt :: rest =>
      (if (linearSegment kind [] (stmt :: rest)).1.length > 0 then [(linearSegment kind [] (stmt :: rest)).1] else []) ++
        identifyMaximalSequences (linearSegment kind [] (stmt :: rest)).2
  termination_by stmts => stmts.length
  decreasing_by exact length_linearSegment_lt kind stmt rest

variable (kind) in
def kept (stmts : List α) : List α := stmts.filter fun stmt => !(kind stmt).isNullLike

theorem kept_null {stmt : α} (null : (kind stmt).isNullLike = true) (rest : List α) :
    kept kind (stmt :: rest) = kept kind rest := by
  rw [kept, List.filter_cons, null]
  rfl

theorem kept_cons {stmt : α} (keep : (kind stmt).isNullLike = false) (rest : List α) :
    kept kind (stmt :: rest) = stmt :: kept kind rest := by
  rw [kept, List.filter_cons, keep]
  rfl

theorem isNullLike_of_barrier {stmt : α} (isCut : kind stmt = .barrier) : (kind stmt).isNullLike = true := by
  rw [isCut]
  rfl

variable (kind) in
theorem linearSegment_kept (stmts : List α) : ∀ segment : List α,
    (linearSegment kind segment stmts).1 ++ kept kind (linearSegment kind segment stmts).2 =
      segment ++ kept kind stmts := by
  induction stmts with
  | nil => exact fun _ => rfl
  | cons stmt rest ih =>
      intro segment
      rcases kind_cases kind stmt with isCut | ⟨notCut, null⟩ | ⟨keep, alone⟩ | simple
      · rw [linearSegment_barrier _ _ isCut, kept_null (isNullLike_of_barrier isCut)]
      · rw [linearSegment_null _ _ notCut null, kept_null null, ih]
      · cases segment with
        | nil => rw [linearSegment_first _ keep alone, kept_cons keep]; rfl
        | cons => rw [linearSegment_alone _ _ keep alone (List.cons_ne_nil _ _)]
      · rw [linearSegment_simple _ _ simple, ih, kept_cons (not_null_of_simple simple), List.append_assoc]
        rfl

variable (kind) in
/-- A segment is a run of simple statements or one statement that stands alone. -/
def Linear (segment : List α) : Prop :=
  (∀ stmt ∈ segment, (kind stmt).isSimple = true) ∨ ∃ stmt, segment = [stmt] ∧ (kind stmt).isSimple = false

theorem simple_append {segment : List α} {stmt : α} (run : ∀ stmt ∈ segment, (kind stmt).isSimple = true)
    (simple : (kind stmt).isSimple = true) : ∀ other ∈ segment ++ [stmt], (kind other).isSimple = true := by
  intro other member
  rcases List.mem_append.mp member with before | here
  · exact run other before
  · rw [List.mem_singleton.mp here]
    exact simple

theorem linearSegment_linear (stmts : List α) : ∀ segment : List α, (∀ stmt ∈ segment, (kind stmt).isSimple = true) →
    Linear kind (linearSegment kind segment stmts).1 := by
  induction stmts with
  | nil => exact fun _ run => .inl run
  | cons stmt rest ih =>
      intro segment run
      rcases kind_cases kind stmt with isCut | ⟨notCut, null⟩ | ⟨keep, alone⟩ | simple
      · rw [linearSegment_barrier _ _ isCut]
        exact .inl run
      · rw [linearSegment_null _ _ notCut null]
        exact ih segment run
      · cases segment with
        | nil =>
            rw [linearSegment_first _ keep alone]
            exact .inr ⟨stmt, rfl, not_simple_of_alone alone⟩
        | cons =>
            rw [linearSegment_alone _ _ keep alone (List.cons_ne_nil _ _)]
            exact .inl run
      · rw [linearSegment_simple _ _ simple]
        exact ih _ (simple_append run simple)

variable (kind) in
/-- A turn does not look behind the statement at which it ends, or it ends at the next barrier. -/
theorem linearSegment_append (stmts : List α) : ∀ segment : List α,
    (∀ after, linearSegment kind segment (stmts ++ after) =
      ((linearSegment kind segment stmts).1, (linearSegment kind segment stmts).2 ++ after)) ∨
    ((linearSegment kind segment stmts).2 = [] ∧ ∀ barrier after, kind barrier = .barrier →
      linearSegment kind segment (stmts ++ barrier :: after) = ((linearSegment kind segment stmts).1, after)) := by
  induction stmts with
  | nil => exact fun segment => .inr ⟨rfl, fun barrier after isCut => linearSegment_barrier _ _ isCut⟩
  | cons stmt rest ih =>
      intro segment
      simp only [List.cons_append]
      rcases kind_cases kind stmt with isCut | ⟨notCut, null⟩ | ⟨keep, alone⟩ | simple
      · simp only [linearSegment_barrier _ _ isCut]
        exact .inl fun _ => trivial
      · simp only [linearSegment_null _ _ notCut null]
        exact ih segment
      · cases segment with
        | nil =>
            simp only [linearSegment_first _ keep alone]
            exact .inl fun _ => trivial
        | cons =>
            simp only [linearSegment_alone _ _ keep alone (List.cons_ne_nil _ _)]
            exact .inl fun _ => rfl
      · simp only [linearSegment_simple _ _ simple]
        exact ih _

/-- Where a turn leaves a barrier, it would have left the same without what comes from there on. -/
theorem linearSegment_prefix (stmts : List α) : ∀ (segment before : List α) (barrier : α) (after : List α),
    (linearSegment kind segment stmts).2 = before ++ barrier :: after → kind barrier = .barrier →
      ∃ taken, stmts = taken ++ (before ++ barrier :: after) ∧
        linearSegment kind segment (taken ++ before) = ((linearSegment kind segment stmts).1, before) := by
  induction stmts with
  | nil => exact fun _ _ _ _ left _ => absurd left.symm (by simp [linearSegment])
  | cons stmt rest ih =>
      intro segment before barrier after left isBarrier
      rcases kind_cases kind stmt with isCut | ⟨notCut, null⟩ | ⟨keep, alone⟩ | simple
      · rw [linearSegment_barrier _ _ isCut] at left ⊢
        exact ⟨[stmt], congrArg _ left, linearSegment_barrier _ _ isCut⟩
      · rw [linearSegment_null _ _ notCut null] at left ⊢
        obtain ⟨taken, whole, same⟩ := ih segment before barrier after left isBarrier
        exact ⟨stmt :: taken, congrArg _ whole, (linearSegment_null _ _ notCut null).trans same⟩
      · cases segment with
        | nil =>
            rw [linearSegment_first _ keep alone] at left ⊢
            exact ⟨[stmt], congrArg _ left, linearSegment_first _ keep alone⟩
        | cons first others =>
            rw [linearSegment_alone _ _ keep alone (List.cons_ne_nil _ _)] at left ⊢
            refine ⟨[], left, ?_⟩
            cases before with
            | nil => rfl
            | cons here later =>
                obtain ⟨rfl, _⟩ := List.cons.inj left
                exact linearSegment_alone _ _ keep alone (List.cons_ne_nil _ _)
      · rw [linearSegment_simple _ _ simple] at left ⊢
        obtain ⟨taken, whole, same⟩ := ih (segment ++ [stmt]) before barrier after left isBarrier
        exact ⟨stmt :: taken, congrArg _ whole, (linearSegment_simple _ _ simple).trans same⟩

variable (kind) in
/-- A run of simple statements ends at the end, before a statement that stands alone, or at a barrier. -/
theorem linearSegment_ends (stmts : List α) : ∀ segment : List α,
    (∀ stmt ∈ (linearSegment kind segment stmts).1, (kind stmt).isSimple = true) →
      (linearSegment kind segment stmts).2 = [] ∨
      (∃ stmt rest, (linearSegment kind segment stmts).2 = stmt :: rest ∧ (kind stmt).isNullLike = false ∧
        ((kind stmt).isBlock || (kind stmt).isControlFlow) = true) ∨
      ∃ before barrier, stmts = before ++ barrier :: (linearSegment kind segment stmts).2 ∧ kind barrier = .barrier ∧
        linearSegment kind segment before = ((linearSegment kind segment stmts).1, []) := by
  induction stmts with
  | nil => exact fun _ _ => .inl rfl
  | cons stmt rest ih =>
      intro segment run
      rcases kind_cases kind stmt with isCut | ⟨notCut, null⟩ | ⟨keep, alone⟩ | simple
      · rw [linearSegment_barrier _ _ isCut]
        exact .inr (.inr ⟨[], stmt, rfl, isCut, rfl⟩)
      · rw [linearSegment_null _ _ notCut null] at run ⊢
        rcases ih segment run with none | before | ⟨before, barrier, whole, isBarrier, same⟩
        · exact .inl none
        · exact .inr (.inl before)
        · refine .inr (.inr ⟨stmt :: before, barrier, congrArg _ whole, isBarrier, ?_⟩)
          exact (linearSegment_null _ _ notCut null).trans same
      · cases segment with
        | nil =>
            rw [linearSegment_first _ keep alone] at run
            exact absurd (run stmt List.mem_cons_self) (by rw [not_simple_of_alone alone]; decide)
        | cons first others =>
            rw [linearSegment_alone _ _ keep alone (List.cons_ne_nil _ _)]
            exact .inr (.inl ⟨stmt, rest, rfl, keep, alone⟩)
      · rw [linearSegment_simple _ _ simple] at run ⊢
        rcases ih _ run with none | before | ⟨before, barrier, whole, isBarrier, same⟩
        · exact .inl none
        · exact .inr (.inl before)
        · refine .inr (.inr ⟨stmt :: before, barrier, congrArg _ whole, isBarrier, ?_⟩)
          exact (linearSegment_simple _ _ simple).trans same

/-! ### The outer loop -/

theorem identify_turn (stmts : List α) : identifyMaximalSequences kind stmts =
    (if (linearSegment kind [] stmts).1.length > 0 then [(linearSegment kind [] stmts).1] else []) ++
      identifyMaximalSequences kind (linearSegment kind [] stmts).2 := by
  cases stmts with
  | nil => rw [linearSegment, identifyMaximalSequences]; rfl
  | cons stmt rest => rw [identifyMaximalSequences]

theorem identify_empty {stmts rest : List α} (turn : linearSegment kind [] stmts = ([], rest)) :
    identifyMaximalSequences kind stmts = identifyMaximalSequences kind rest := by
  rw [identify_turn, turn]
  rfl

theorem identify_segment {stmts segment rest : List α} (turn : linearSegment kind [] stmts = (segment, rest))
    (nonempty : segment ≠ []) :
    identifyMaximalSequences kind stmts = segment :: identifyMaximalSequences kind rest := by
  rw [identify_turn, turn, if_pos (List.length_pos_iff.mpr nonempty)]
  rfl

theorem identify_nil : identifyMaximalSequences kind ([] : List α) = [] := by
  rw [identifyMaximalSequences]

variable (kind) in
/-- What holds of no statements, and goes back over a turn, holds of all. -/
theorem identify_induction {motive : List α → Prop} (nil : motive [])
    (turn : ∀ stmts, stmts ≠ [] → motive (linearSegment kind [] stmts).2 → motive stmts) (stmts : List α) : motive stmts := by
  induction length : stmts.length using Nat.strongRecOn generalizing stmts with
  | ind n ih =>
      cases stmts with
      | nil => exact nil
      | cons stmt rest =>
          have less := length_linearSegment_lt kind stmt rest
          exact turn _ (List.cons_ne_nil _ _) (ih _ (length ▸ less) _ rfl)

theorem identify_flatten (stmts : List α) : (identifyMaximalSequences kind stmts).flatten = kept kind stmts := by
  induction stmts using identify_induction kind with
  | nil => rw [identify_nil]; rfl
  | turn stmts _ ih =>
      have turn := linearSegment_kept kind stmts []
      rw [List.nil_append] at turn
      rw [identify_turn, List.flatten_append, ih, ← turn]
      split_ifs with some
      · rw [List.flatten_singleton]
      · have empty := List.length_eq_zero_iff.mp (Nat.eq_zero_of_not_pos some)
        rw [empty]
        rfl

theorem identify_linear (stmts : List α) : ∀ segment ∈ identifyMaximalSequences kind stmts,
    segment ≠ [] ∧ Linear kind segment := by
  induction stmts using identify_induction kind with
  | nil => rw [identify_nil]; exact fun _ member => absurd member List.not_mem_nil
  | turn stmts _ ih =>
      intro segment member
      rw [identify_turn] at member
      rcases List.mem_append.mp member with first | later
      · split_ifs at first with some
        · rw [List.mem_singleton.mp first]
          exact ⟨List.length_pos_iff.mp some, linearSegment_linear stmts [] fun _ none => absurd none List.not_mem_nil⟩
        · exact absurd first List.not_mem_nil
      · exact ih segment later

theorem identify_barrier {barrier : α} (isBarrier : kind barrier = .barrier) (before after : List α) :
    identifyMaximalSequences kind (before ++ barrier :: after) =
      identifyMaximalSequences kind before ++ identifyMaximalSequences kind after := by
  induction before using identify_induction kind with
  | nil => rw [identify_nil, List.nil_append, List.nil_append, identify_empty (linearSegment_barrier [] after isBarrier)]
  | turn stmts _ ih =>
      rw [identify_turn (stmts ++ barrier :: after), identify_turn stmts]
      rcases linearSegment_append kind stmts [] with goes | ⟨none, cut⟩
      · rw [goes (barrier :: after), ih, List.append_assoc]
      · rw [cut barrier after isBarrier, none, identify_nil, List.append_nil]

theorem identify_neighbours (stmts : List α) : ∀ {earlier later : List (List α)} {s t : List α},
    identifyMaximalSequences kind stmts = earlier ++ s :: t :: later → (∀ stmt ∈ s, (kind stmt).isSimple = true) →
      (∀ stmt ∈ t, (kind stmt).isSimple = true) → ∃ before barrier after, stmts = before ++ barrier :: after ∧
        kind barrier = .barrier ∧ identifyMaximalSequences kind before = earlier ++ [s] ∧
          identifyMaximalSequences kind after = t :: later := by
  induction stmts using identify_induction kind with
  | nil =>
      intro earlier later s t segments _ _
      rw [identify_nil] at segments
      exact absurd segments.symm (by simp)
  | turn stmts _ ih =>
      intro earlier later s t segments runS runT
      obtain ⟨segment, rest, turn⟩ : ∃ segment rest, linearSegment kind [] stmts = (segment, rest) := ⟨_, _, rfl⟩
      rw [turn] at ih
      by_cases empty : segment = []
      · subst empty
        rw [identify_empty turn] at segments
        obtain ⟨before, barrier, after, whole, isBarrier, first, second⟩ := ih segments runS runT
        obtain ⟨taken, all, same⟩ := linearSegment_prefix stmts [] before barrier after (by rw [turn]; exact whole) isBarrier
        rw [turn] at same
        exact ⟨taken ++ before, barrier, after, by rw [all, List.append_assoc], isBarrier,
          (identify_empty same).trans first, second⟩
      · rw [identify_segment turn empty] at segments
        cases earlier with
        | nil =>
            obtain ⟨rfl, next⟩ := List.cons.inj segments
            have ends := linearSegment_ends kind stmts [] (by rw [turn]; exact runS)
            rw [turn] at ends
            rcases ends with none | ⟨stmt, later', left, keep, alone⟩ | ⟨before, barrier, whole, isBarrier, same⟩
            · change rest = [] at none
              rw [none, identify_nil] at next
              exact absurd next.symm (List.cons_ne_nil _ _)
            · change rest = stmt :: later' at left
              rw [left, identify_segment (linearSegment_first _ keep alone) (List.cons_ne_nil _ _)] at next
              obtain ⟨rfl, _⟩ := List.cons.inj next
              exact absurd (runT stmt List.mem_cons_self) (by rw [not_simple_of_alone alone]; decide)
            · refine ⟨before, barrier, rest, whole, isBarrier, ?_, next⟩
              rw [identify_segment same empty, identify_nil]
              rfl
        | cons first others =>
            obtain ⟨rfl, next⟩ := List.cons.inj segments
            obtain ⟨before, barrier, after, whole, isBarrier, first, second⟩ := ih next runS runT
            obtain ⟨taken, all, same⟩ :=
              linearSegment_prefix stmts [] before barrier after (by rw [turn]; exact whole) isBarrier
            rw [turn] at same
            refine ⟨taken ++ before, barrier, after, by rw [all, List.append_assoc], isBarrier, ?_, second⟩
            rw [identify_segment same empty, first]
            rfl

/-! ### What the segments are -/

variable (kind) in
structure MaximalSequences (stmts : List α) (segments : List (List α)) : Prop where
  nonempty : ∀ segment ∈ segments, segment ≠ []
  /-- Nothing but null-like statements is lost, and nothing is reordered. -/
  flatten : segments.flatten = kept kind stmts
  alone : ∀ segment ∈ segments, ∀ stmt ∈ segment,
    ((kind stmt).isBlock || (kind stmt).isControlFlow) = true → segment = [stmt]
  /-- A barrier lies between segments. -/
  cut : ∀ before barrier after, stmts = before ++ barrier :: after → kind barrier = .barrier →
    ∃ earlier later, segments = earlier ++ later ∧ earlier.flatten = kept kind before ∧ later.flatten = kept kind after
  /-- Between two segments of simple statements lies a barrier. -/
  maximal : ∀ earlier s t later, segments = earlier ++ s :: t :: later → (∀ stmt ∈ s, (kind stmt).isSimple = true) →
    (∀ stmt ∈ t, (kind stmt).isSimple = true) → ∃ before barrier after, stmts = before ++ barrier :: after ∧
      kind barrier = .barrier ∧ (earlier ++ [s]).flatten = kept kind before ∧ (t :: later).flatten = kept kind after

theorem identifyMaximalSequences_maximal (stmts : List α) :
    MaximalSequences kind stmts (identifyMaximalSequences kind stmts) where
  nonempty := fun segment member => (identify_linear stmts segment member).1
  flatten := identify_flatten stmts
  alone := by
    intro segment member stmt inside alone
    rcases (identify_linear stmts segment member).2 with run | ⟨other, rfl, _⟩
    · exact absurd (run stmt inside) (by rw [not_simple_of_alone alone]; decide)
    · rw [List.mem_singleton.mp inside]
  cut := by
    rintro before barrier after rfl isBarrier
    exact ⟨_, _, identify_barrier isBarrier before after, identify_flatten before, identify_flatten after⟩
  maximal := by
    intro earlier s t later segments runS runT
    obtain ⟨before, barrier, after, whole, isBarrier, first, second⟩ := identify_neighbours stmts segments runS runT
    refine ⟨before, barrier, after, whole, isBarrier, ?_, ?_⟩
    · rw [← first, identify_flatten]
    · rw [← second, identify_flatten]

end Segments

end Ahir.Aa.LinearSegments
