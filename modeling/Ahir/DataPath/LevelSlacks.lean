import Ahir.DataPath.LongestPath

/-!
# The slacks of the operands

Every turn of the slack loop writes the slacks of one element.  The turns for the
outputs of one element write the same, so that each slack is the difference of the
levels whatever the turn that wrote it last.
-/

set_option autoImplicit false

namespace Ahir.DataPath.Level
open Ahir.Graph Ahir.Hardware

/-- What every writing turn of a loop writes is what the loop leaves. -/
theorem foldl_written {S A X : Type} (step : S → A → S) (read : S → X) (writes : A → Prop) (x : X)
    (on : ∀ s a, writes a → read (step s a) = x) (off : ∀ s a, ¬ writes a → read (step s a) = read s) :
    ∀ (turns : List A) (s : S), (∃ a ∈ turns, writes a) ∨ read s = x → read (turns.foldl step s) = x := by
  intro turns
  induction turns with
  | nil =>
      rintro s (⟨a, member, _⟩ | same)
      · exact absurd member List.not_mem_nil
      · exact same
  | cons a turns ih =>
      intro s written
      rw [List.foldl_cons]
      apply ih
      by_cases here : writes a
      · exact .inr (on s a here)
      · rcases written with ⟨b, member, later⟩ | same
        · rcases List.mem_cons.mp member with rfl | member
          · exact absurd later here
          · exact .inl ⟨b, member, later⟩
        · exact .inr ((off s a here).trans same)

namespace VcDataPath
variable {V E : Type} [DecidableEq V] {p : VcDataPath V E}

omit [DecidableEq V] in
theorem slackOf_eq {lp delay pred : Int} (fits : pred + delay ≤ lp) : slackOf lp delay pred = lp - (pred + delay) := by
  unfold slackOf
  split_ifs <;> omega

theorem PlainOperands.operand_vertex (plain : p.PlainOperands) {w f : V} {e : E} (driven : p.driver w = some e)
    (operand : f ∈ operands (p.element e) w) : some f ∈ p.vertices :=
  (mem_vertices_of_arc (plain.arc driven operand)).1

/-- An operand of one output of an element is an operand of another output as well, unless it
is that output. -/
theorem operand_other {w v f : V} {e : E} (operand : f ∈ operands (p.element e) w) (other : f ≠ v) :
    f ∈ operands (p.element e) v :=
  mem_operands.mpr ⟨(mem_operands.mp operand).1, other⟩

theorem PlainOperands.delay_ownOutput (plain : p.PlainOperands) {w v : V} {e : E} (driven : p.driver w = some e)
    (driven' : p.driver v = some e) (operand : v ∈ operands (p.element e) w) : (p.element e).delay = 0 := by
  have isOutput := (p.driver_iff w e).mp driven
  have isOutput' := (p.driver_iff v e).mp driven'
  obtain ⟨input | guard, other⟩ := mem_operands.mp operand
  · by_contra positive
    have delay := delay_nonneg (p.element e)
    exact other (plain.ownOutputs e v (by omega) input isOutput' w isOutput).symm
  · exact absurd isOutput' (plain.guards v e v false driven' guard).2.1

theorem PlainOperands.level_le (plain : p.PlainOperands) {w v : V} {e : E} (driven : p.driver w = some e)
    (driven' : p.driver v = some e) {n m : Int} (path : p.DelayPath w n) (longest : IsGreatest {n | p.DelayPath v n} m) :
    n ≤ m := by
  cases path with
  | source _ => exact delayPath_nonneg longest.1
  | @through f _ e' n isDriven operand path =>
      obtain rfl := Option.some.inj (driven.symm.trans isDriven)
      by_cases same : f = v
      · subst same
        have fits := longest.2 path
        rw [plain.delay_ownOutput driven driven' operand, add_zero]
        exact fits
      · exact longest.2 (.through driven' (operand_other operand same) path)

theorem PlainOperands.level_same (plain : p.PlainOperands) {w v : V} {e : E} (driven : p.driver w = some e)
    (driven' : p.driver v = some e) {n m : Int} (first : IsGreatest {n | p.DelayPath w n} n)
    (second : IsGreatest {n | p.DelayPath v n} m) : n = m :=
  le_antisymm (plain.level_le driven driven' first.1 second) (plain.level_le driven' driven second.1 first)

theorem hasSlack_iff {w f : V} {war : Bool} :
    p.hasSlack w (f, war) = true ↔ war = false ∧ p.isConstant f = false ∧ f ≠ w := by
  simp [hasSlack, and_assoc]

structure Calculated (p : VcDataPath V E) (c : Levels V E) : Prop where
  level : ∀ w, some w ∈ p.vertices → IsGreatest {n | p.DelayPath w n} (c.level w)
  longestPath : IsGreatest ({0} ∪ {n | ∃ w, some w ∈ p.vertices ∧ c.level w = n}) c.longestPath
  inputSlacks : ∀ w e, p.driver w = some e → c.slacks.inputSlacks e = (p.element e).inputWires.map fun f =>
    if p.hasSlack w f then slackOf (c.level w) (p.element e).delay (c.level f.1) else 0
  guardSlack : ∀ w e g war, p.driver w = some e → (p.element e).guardWire = some (g, war) →
    p.isConstant g = false → c.slacks.guardSlack e = slackOf (c.level w) (p.element e).delay (c.level g)

/-- The slack of an input does not depend on the output in whose turn it is written. -/
theorem PlainOperands.inputSlack_same (plain : p.PlainOperands) {level : V → Int}
    (greatest : ∀ w, some w ∈ p.vertices → IsGreatest {n | p.DelayPath w n} (level w)) {w v : V} {e : E}
    (driven : p.driver w = some e) (driven' : p.driver v = some e) {f : V × Bool}
    (input : f ∈ (p.element e).inputWires) (slack : p.hasSlack v f = true) :
    slackOf (level v) (p.element e).delay (level f.1) =
      if p.hasSlack w f then slackOf (level w) (p.element e).delay (level f.1) else 0 := by
  obtain ⟨f, war⟩ := f
  obtain ⟨rfl, varies, other⟩ := hasSlack_iff.mp slack
  have operand : f ∈ operands (p.element e) v := mem_operands.mpr ⟨.inl input, other⟩
  have vertex := plain.mem_vertices driven' operand
  by_cases same : f = w
  · subst same
    have fits := plain.level_same driven driven' (greatest f (plain.operand_vertex driven' operand)) (greatest v vertex)
    rw [if_neg fun own => (hasSlack_iff.mp own).2.2 rfl, plain.delay_ownOutput driven' driven operand,
      slackOf_eq (by rw [add_zero, fits]), fits, add_zero, sub_self]
  · have operand' := operand_other operand same
    rw [if_pos (hasSlack_iff.mpr ⟨rfl, varies, same⟩),
      plain.level_same driven' driven (greatest v vertex) (greatest w (plain.mem_vertices driven operand'))]

section Written
variable [DecidableEq E] (plain : p.PlainOperands) {level : V → Int}
  (greatest : ∀ w, some w ∈ p.vertices → IsGreatest {n | p.DelayPath w n} (level w)) {lp : V → Int}
  (lp_eq : ∀ w, some w ∈ p.vertices → lp w = level w)
include plain greatest lp_eq

theorem PlainOperands.setSlacks_inputSlacks {w v : V} {e : E} (driven : p.driver w = some e) (s : Slacks E) :
    (p.driver v = some e → (p.setSlacks lp s v).inputSlacks e = (p.element e).inputWires.map fun f =>
        if p.hasSlack w f then slackOf (level w) (p.element e).delay (level f.1) else 0) ∧
      (p.driver v ≠ some e → (p.setSlacks lp s v).inputSlacks e = s.inputSlacks e) := by
  constructor
  · intro driven'
    simp only [setSlacks, driven', Function.update_self]
    apply List.map_congr_left
    intro f input
    by_cases slack : p.hasSlack v f = true
    · obtain ⟨f, war⟩ := f
      obtain ⟨rfl, -, other⟩ := hasSlack_iff.mp slack
      have operand := mem_operands.mpr ⟨.inl input, other⟩
      rw [if_pos slack, ← plain.inputSlack_same greatest driven driven' input slack]
      simp only [lp_eq f (plain.operand_vertex driven' operand), lp_eq v (plain.mem_vertices driven' operand)]
    · rw [if_neg slack]
      by_cases slack' : p.hasSlack w f = true
      · rw [plain.inputSlack_same greatest driven' driven input slack', if_neg slack, ite_self]
      · rw [if_neg slack']
  · intro other
    unfold setSlacks
    cases driven' : p.driver v with
    | none => rfl
    | some e' => exact Function.update_of_ne (fun same => other (driven'.trans (congrArg some same.symm))) _ _

theorem PlainOperands.setSlacks_guardSlack {w v g : V} {e : E} {war : Bool} (driven : p.driver w = some e)
    (guard : (p.element e).guardWire = some (g, war)) (varies : p.isConstant g = false) (s : Slacks E) :
    (p.driver v = some e →
        (p.setSlacks lp s v).guardSlack e = slackOf (level w) (p.element e).delay (level g)) ∧
      (p.driver v ≠ some e → (p.setSlacks lp s v).guardSlack e = s.guardSlack e) := by
  obtain ⟨rfl, own, -, -⟩ := plain.guards w e g war driven guard
  constructor
  · intro driven'
    have other {u : V} (isDriven : p.driver u = some e) : g ≠ u := fun same => own (same ▸ (p.driver_iff u e).mp isDriven)
    have operand {u : V} (isDriven : p.driver u = some e) : g ∈ operands (p.element e) u :=
      mem_operands.mpr ⟨.inr guard, other isDriven⟩
    have slack : p.hasSlack v (g, false) = true := hasSlack_iff.mpr ⟨rfl, varies, other driven'⟩
    have vertex := plain.mem_vertices driven' (operand driven')
    have same := plain.level_same driven' driven (greatest v vertex)
      (greatest w (plain.mem_vertices driven (operand driven)))
    simp only [setSlacks, driven', guard, slack, if_true, Function.update_self]
    rw [lp_eq g (plain.operand_vertex driven' (operand driven')), lp_eq v vertex, same]
  · intro other
    unfold setSlacks
    cases driven' : p.driver v with
    | none => rfl
    | some e' =>
        have different : e ≠ e' := fun same => other (driven'.trans (congrArg some same.symm))
        simp only
        cases (p.element e').guardWire with
        | none => rfl
        | some g' =>
            simp only
            split_ifs
            · exact Function.update_of_ne different _ _
            · rfl

end Written

theorem PlainOperands.calculated [DecidableEq E] (plain : p.PlainOperands) (acyclic : ∀ w, ¬ Relation.TransGen p.Arc w w)
    {sort : List (Option V) → List (Option V × Option V) → List (Option V)} (sorts : SortsTopologically sort)
    (unsetLevel : V → Int) (unset : Slacks E) :
    ∃ c, p.calculateLongestPathsFromInputs sort unsetLevel unset = some c ∧ Calculated p c := by
  obtain ⟨s, run, visited⟩ := plain.longestPaths acyclic sorts
  simp only [calculateLongestPathsFromInputs, run, Option.map_some]
  refine ⟨_, rfl, ?_⟩
  let lp : V → Int := fun w => (s.longestPathMap w).getD 0
  let level : V → Int := fun w => (s.longestPathMap w).getD (unsetLevel w)
  have found : ∀ w, some w ∈ p.vertices → s.longestPathMap w = some (level w) := by
    intro w member
    obtain ⟨n, found, -⟩ := visited.level w member
    simp only [level, found, Option.getD_some]
  have lp_eq : ∀ w, some w ∈ p.vertices → lp w = level w := fun w member => by
    simp only [lp, found w member, Option.getD_some]
  have greatest : ∀ w, some w ∈ p.vertices → IsGreatest {n | p.DelayPath w n} (level w) := by
    intro w member
    obtain ⟨n, isLevel, greatest⟩ := visited.level w member
    rwa [Option.some.inj ((found w member).symm.trans isLevel)]
  have listed : ∀ {w : V} {e : E}, p.driver w = some e → ∃ v ∈ p.wireMap ++ p.outputArguments, p.driver v = some e :=
    fun {w e} driven =>
      ⟨w, List.mem_append.mpr (p.driven_listed w (by rw [driven]; exact Option.some_ne_none e)), driven⟩
  refine ⟨greatest, ?_, ?_, ?_⟩
  · have values : {n | ∃ w, some w ∈ p.vertices ∧ s.longestPathMap w = some n} =
        {n | ∃ w, some w ∈ p.vertices ∧ level w = n} :=
      Set.ext fun n => exists_congr fun w => and_congr_right fun member => by
        rw [found w member, Option.some.injEq]
    rw [← values]
    exact visited.longest
  · intro w e driven
    exact foldl_written (p.setSlacks lp) (fun s => s.inputSlacks e) (fun v => p.driver v = some e) _
      (fun s v => (plain.setSlacks_inputSlacks greatest lp_eq driven s).1)
      (fun s v => (plain.setSlacks_inputSlacks greatest lp_eq driven s).2) _ _ (.inl (listed driven))
  · intro w e g war driven guard varies
    exact foldl_written (p.setSlacks lp) (fun s => s.guardSlack e) (fun v => p.driver v = some e) _
      (fun s v => (plain.setSlacks_guardSlack greatest lp_eq driven guard varies s).1)
      (fun s v => (plain.setSlacks_guardSlack greatest lp_eq driven guard varies s).2) _ _ (.inl (listed driven))

/-! ### Operands -/

theorem PlainOperands.guardSignal_eq (plain : p.PlainOperands) {c : Levels V E} {w : V} {e : E} {k : V × Int}
    (driven : p.driver w = some e) (isGuard : p.guardSignal c w e = some k) :
    ∃ war, (p.element e).guardWire = some (k.1, war) ∧ p.isConstant k.1 = false ∧ k.2 = c.slacks.guardSlack e := by
  unfold guardSignal logic at isGuard
  by_cases called : (p.element e).isPipelineOperator = true
  · cases guard : (p.element e).guardWire with
    | none => simp [called, guard] at isGuard
    | some g =>
        have := (plain.guards w e g.1 g.2 driven guard).2.2.1
        rw [called] at this
        cases this
  · rw [if_neg called] at isGuard
    split_ifs at isGuard with constant flow flow
    · unfold enable at isGuard
      cases guard : (p.element e).guardWire with
      | none => simp [guard] at isGuard
      | some g =>
          obtain ⟨g, war⟩ := g
          rw [guard] at isGuard
          by_cases reads : (!p.isConstant g && !war) = true
          · simp only [reads, if_true, Option.some.injEq] at isGuard
            subst isGuard
            simp only [Bool.and_eq_true, Bool.not_eq_true'] at reads
            exact ⟨war, rfl, reads.1, rfl⟩
          · simp [reads] at isGuard

section Operands
variable {c : Levels V E} (plain : p.PlainOperands) (calculated : Calculated p c)
include calculated

theorem Calculated.level_nonneg {w : V} (member : some w ∈ p.vertices) : 0 ≤ c.level w :=
  delayPath_nonneg (calculated.level w member).1

theorem Calculated.level_le {w : V} (member : some w ∈ p.vertices) : c.level w ≤ c.longestPath :=
  calculated.longestPath.2 (.inr ⟨w, member, rfl⟩)

include plain

theorem Calculated.operand_fits {w f : V} {e : E} (driven : p.driver w = some e)
    (operand : f ∈ operands (p.element e) w) : c.level f + (p.element e).delay ≤ c.level w :=
  (calculated.level w (plain.mem_vertices driven operand)).2
    (.through driven operand (calculated.level f (plain.operand_vertex driven operand)).1)

theorem Calculated.delay_le {w f : V} {e : E} (driven : p.driver w = some e) (operand : f ∈ operands (p.element e) w) :
    (p.element e).delay ≤ c.level w := by
  have fits := calculated.operand_fits plain driven operand
  have nonneg := calculated.level_nonneg (plain.operand_vertex driven operand)
  omega

theorem Calculated.inputSlack {w f : V} {e : E} {j : Nat} {war : Bool} (driven : p.driver w = some e)
    (input : (p.element e).inputWires[j]? = some (f, war)) (slack : p.hasSlack w (f, war) = true) :
    f ∈ operands (p.element e) w ∧
      c.slacks.inputSlack e j = c.level w - (c.level f + (p.element e).delay) := by
  obtain ⟨rfl, varies, other⟩ := hasSlack_iff.mp slack
  have operand : f ∈ operands (p.element e) w := mem_operands.mpr ⟨.inl (List.mem_of_getElem? input), other⟩
  refine ⟨operand, ?_⟩
  rw [Slacks.inputSlack, calculated.inputSlacks w e driven, List.getD_eq_getElem?_getD, List.getElem?_map, input]
  simp only [Option.map_some, Option.getD_some, slack, if_true]
  exact slackOf_eq (calculated.operand_fits plain driven operand)

theorem Calculated.guardSlack_eq {w g : V} {e : E} {war : Bool} (driven : p.driver w = some e)
    (guard : (p.element e).guardWire = some (g, war)) (varies : p.isConstant g = false) :
    g ∈ operands (p.element e) w ∧
      c.slacks.guardSlack e = c.level w - (c.level g + (p.element e).delay) := by
  obtain ⟨rfl, own, -, -⟩ := plain.guards w e g war driven guard
  have other : g ≠ w := fun same => own (same ▸ (p.driver_iff w e).mp driven)
  have operand : g ∈ operands (p.element e) w := mem_operands.mpr ⟨.inr guard, other⟩
  refine ⟨operand, ?_⟩
  rw [calculated.guardSlack w e g false driven guard varies]
  exact slackOf_eq (calculated.operand_fits plain driven operand)

theorem Calculated.operandSignal {w : V} {e : E} {k : V × Int} (driven : p.driver w = some e)
    (member : k ∈ p.operandSignals c w e) :
    k.1 ∈ operands (p.element e) w ∧ p.isConstant k.1 = false ∧
      c.level k.1 + k.2 + (p.element e).delay = c.level w := by
  rcases List.mem_append.mp member with isInput | isGuard
  · obtain ⟨⟨⟨f, war⟩, j⟩, filtered, same⟩ := List.mem_map.mp isInput
    subst same
    obtain ⟨listed, slack⟩ := List.mem_filter.mp filtered
    obtain ⟨operand, value⟩ := calculated.inputSlack plain driven (List.mk_mem_zipIdx_iff_getElem?.mp listed) slack
    refine ⟨operand, (hasSlack_iff.mp slack).2.1, ?_⟩
    simp only [value]
    omega
  · obtain ⟨isGuard, _⟩ := List.mem_filter.mp isGuard
    obtain ⟨war, guard, varies, same⟩ :=
      plain.guardSignal_eq driven (Option.mem_toList.mp isGuard)
    obtain ⟨operand, value⟩ := calculated.guardSlack_eq plain driven guard varies
    refine ⟨operand, varies, ?_⟩
    rw [same, value]
    omega

end Operands

end VcDataPath

end Ahir.DataPath.Level
