import Ahir.DataPath.LevelAligned

/-!
# The levels are the longest paths

The loop over the precedence order, wire by wire.
-/

set_option autoImplicit false

namespace Ahir.DataPath.Level
open Ahir.Graph Ahir.Hardware

namespace VcDataPath
variable {V E : Type}

theorem delay_nonneg (dpe : DatapathElement V) : 0 ≤ dpe.delay := by
  unfold DatapathElement.delay
  split <;> omega

theorem delay_eq (dpe : DatapathElement V) : dpe.delay = dpe.pipelineDelay := by
  unfold DatapathElement.delay
  split_ifs with flow
  · rw [dpe.flowThrough_delay flow]
    rfl
  · rfl

variable [DecidableEq V]

theorem mem_operands {dpe : DatapathElement V} {f w : V} :
    f ∈ operands dpe w ↔ ((f, false) ∈ dpe.inputWires ∨ dpe.guardWire = some (f, false)) ∧ f ≠ w := by
  simp only [operands, List.mem_map, List.mem_filter, List.mem_append, Option.mem_toList,
    Bool.and_eq_true, Bool.not_eq_true', decide_eq_true_eq, Prod.exists]
  constructor
  · rintro ⟨g, war, ⟨member, rfl, other⟩, rfl⟩
    exact ⟨member, other⟩
  · rintro ⟨member, other⟩
    exact ⟨f, false, ⟨member, rfl, other⟩, rfl⟩

theorem mem_arcInputs {dpe : DatapathElement V} {f w : V} :
    f ∈ arcInputs dpe w ↔ (f, false) ∈ dpe.inputWires ∧ f ≠ w := by
  simp only [arcInputs, List.mem_map, List.mem_filter, Bool.and_eq_true, Bool.not_eq_true', decide_eq_true_eq,
    Prod.exists]
  constructor
  · rintro ⟨g, war, ⟨member, rfl, other⟩, rfl⟩
    exact ⟨member, other⟩
  · rintro ⟨member, other⟩
    exact ⟨f, false, ⟨member, rfl, other⟩, rfl⟩

theorem mem_arcGuard {dpe : DatapathElement V} {g w : V} :
    g ∈ arcGuard dpe w ↔ (∃ war, dpe.guardWire = some (g, war)) ∧ g ≠ w := by
  simp only [arcGuard, List.mem_filter, List.mem_map, Option.mem_toList, Prod.exists,
    exists_and_right, exists_eq_right, decide_eq_true_eq]

variable {p : VcDataPath V E}

theorem delayPath_nonneg {w : V} {n : Int} (path : p.DelayPath w n) : 0 ≤ n := by
  induction path with
  | source _ => exact le_refl 0
  | through driven operand path ih =>
      have := delay_nonneg (p.element ‹E›)
      omega

theorem PlainOperands.mem_arcs_of (plain : p.PlainOperands) {w : V} {e : E} (driven : p.driver w = some e) (f : V) :
    f ∈ arcInputs (p.element e) w ++ arcGuard (p.element e) w ↔ f ∈ operands (p.element e) w := by
  rw [List.mem_append, mem_arcInputs, mem_arcGuard, mem_operands]
  constructor
  · rintro (⟨member, other⟩ | ⟨⟨war, guard⟩, other⟩)
    · exact ⟨.inl member, other⟩
    · obtain rfl := (plain.guards w e f war driven guard).1
      exact ⟨.inr guard, other⟩
  · rintro ⟨member | guard, other⟩
    · exact .inl ⟨member, other⟩
    · exact .inr ⟨⟨false, guard⟩, other⟩

theorem mem_arcs {a b : Option V} : (a, b) ∈ p.arcs ↔
    (a = none ∧ ∃ iw ∈ p.inputArguments, b = some iw) ∨
    ∃ f w e, a = some f ∧ b = some w ∧ p.driver w = some e ∧
      f ∈ arcInputs (p.element e) w ++ arcGuard (p.element e) w := by
  unfold arcs
  rw [List.mem_append]
  apply or_congr
  · simp only [List.mem_map, Prod.mk.injEq]
    constructor
    · rintro ⟨iw, member, rfl, rfl⟩
      exact ⟨rfl, iw, member, rfl⟩
    · rintro ⟨rfl, iw, member, rfl⟩
      exact ⟨iw, member, rfl, rfl⟩
  · rw [List.mem_flatMap]
    constructor
    · rintro ⟨w, _, member⟩
      cases driven : p.driver w with
      | none =>
          rw [driven] at member
          cases member
      | some e =>
          rw [driven] at member
          obtain ⟨f, isArc, same⟩ := List.mem_map.mp member
          obtain ⟨rfl, rfl⟩ := Prod.mk.inj same
          exact ⟨f, w, e, rfl, rfl, driven, isArc⟩
    · rintro ⟨f, w, e, rfl, rfl, driven, isArc⟩
      have listed := p.driven_listed w (by rw [driven]; exact Option.some_ne_none e)
      refine ⟨w, List.mem_append.mpr listed, ?_⟩
      rw [driven]
      exact List.mem_map.mpr ⟨f, isArc, rfl⟩

theorem mem_vertices_of_arc {a b : Option V} (arc : (a, b) ∈ p.arcs) : a ∈ p.vertices ∧ b ∈ p.vertices := by
  unfold vertices
  rw [List.mem_dedup, List.mem_dedup]
  have pair : ∀ x ∈ [a, b], x ∈ none :: p.arcs.flatMap fun a => [a.1, a.2] := fun x member =>
    List.mem_cons_of_mem _ (List.mem_flatMap.mpr ⟨(a, b), arc, member⟩)
  exact ⟨pair a (by simp), pair b (by simp)⟩

theorem PlainOperands.arc (plain : p.PlainOperands) {f w : V} {e : E} (driven : p.driver w = some e)
    (operand : f ∈ operands (p.element e) w) : (some f, some w) ∈ p.arcs :=
  mem_arcs.mpr (.inr ⟨f, w, e, rfl, rfl, driven, (plain.mem_arcs_of driven f).mpr operand⟩)

theorem PlainOperands.mem_vertices (plain : p.PlainOperands) {f w : V} {e : E} (driven : p.driver w = some e)
    (operand : f ∈ operands (p.element e) w) : some w ∈ p.vertices :=
  (mem_vertices_of_arc (plain.arc driven operand)).2

theorem PlainOperands.fed_vertex (plain : p.PlainOperands) {w : V} {e : E} (driven : p.driver w = some e)
    (positive : 0 < (p.element e).delay) : some w ∈ p.vertices := by
  obtain ⟨f, operand⟩ := List.exists_mem_of_ne_nil _ (plain.fed w e driven positive)
  exact plain.mem_vertices driven operand

theorem PlainOperands.acyclicGraph (plain : p.PlainOperands) (acyclic : ∀ w, ¬ Relation.TransGen p.Arc w w) :
    AcyclicGraph p.vertices p.arcs := by
  have arc_some : ∀ {a b : Option V}, (a, b) ∈ p.arcs → ∃ w, b = some w ∧ ∀ f, a = some f → p.Arc f w := by
    intro a b arc
    rcases mem_arcs.mp arc with ⟨rfl, iw, _, rfl⟩ | ⟨f, w, e, rfl, rfl, driven, isArc⟩
    · exact ⟨iw, rfl, fun f same => absurd same (by simp)⟩
    · refine ⟨w, rfl, fun f' same => ?_⟩
      obtain rfl := Option.some.inj same
      exact ⟨e, driven, (plain.mem_arcs_of driven f).mp isArc⟩
  have path_some : ∀ {a b : Option V}, Relation.TransGen (fun a b => (a, b) ∈ p.arcs) a b →
      ∃ w, b = some w ∧ ∀ f, a = some f → Relation.TransGen p.Arc f w := by
    intro a b path
    induction path with
    | single arc =>
        obtain ⟨w, same, isArc⟩ := arc_some arc
        exact ⟨w, same, fun f start => .single (isArc f start)⟩
    | tail _ arc ih =>
        obtain ⟨v, rfl, front⟩ := ih
        obtain ⟨w, same, isArc⟩ := arc_some arc
        exact ⟨w, same, fun f start => (front f start).tail (isArc v rfl)⟩
  refine ⟨fun a b arc => mem_vertices_of_arc arc, fun a path => ?_⟩
  obtain ⟨w, rfl, cycle⟩ := path_some path
  exact acyclic w (cycle w rfl)

/-! ### One turn -/

theorem foldl_relax (delay : Int) : ∀ (preds : List Int) (lp ret : Int), lp ≤ ret →
    let values := preds.foldl (relax delay) (lp, ret)
    lp ≤ values.1 ∧ (∀ n ∈ preds, n + delay ≤ values.1) ∧
    (values.1 = lp ∨ ∃ n ∈ preds, values.1 = n + delay) ∧ values.2 = max ret values.1 := by
  intro preds
  induction preds with
  | nil => exact fun lp ret le => ⟨le_refl lp, by simp, .inl rfl, by simp [le]⟩
  | cons n preds ih =>
      intro lp ret le
      have rest := ih (max lp (n + delay)) (max ret (max lp (n + delay))) (le_max_right _ _)
      rw [List.foldl_cons]
      simp only [relax] at rest ⊢
      generalize preds.foldl (relax delay) (max lp (n + delay), max ret (max lp (n + delay))) = values at rest ⊢
      obtain ⟨above, all, attained, result⟩ := rest
      have fits : n + delay ≤ values.1 := le_trans (le_max_right _ _) above
      refine ⟨le_trans (le_max_left _ _) above, ?_, ?_, ?_⟩
      · intro m member
        rcases List.mem_cons.mp member with rfl | member
        · exact fits
        · exact all m member
      · rcases attained with same | ⟨m, member, same⟩
        · rcases le_total lp (n + delay) with larger | larger
          · exact .inr ⟨n, List.mem_cons_self, same.trans (max_eq_right larger)⟩
          · exact .inl (same.trans (max_eq_left larger))
        · exact .inr ⟨m, List.mem_cons_of_mem n member, same⟩
      · rw [result, max_assoc, max_eq_right above]

/-- The predecessors of a wire whose levels the loop reads. -/
def predecessors (dpe : DatapathElement V) (w : V) : List V := arcInputs dpe w ++ dpe.guardWire.toList.map Prod.fst

theorem lpValue_eq {dpe : DatapathElement V} {w : V} {s : LongestPaths V} (lp : V → Int)
    (known : ∀ f ∈ predecessors dpe w, s.longestPathMap f = some (lp f)) :
    lpValue dpe w s = some (((predecessors dpe w).map lp).foldl (relax dpe.delay) (0, s.retVal)) := by
  have inputs : ∀ (fs : List V), (∀ f ∈ fs, s.longestPathMap f = some (lp f)) → ∀ values : Int × Int,
      fs.foldlM (fun values f => (s.longestPathMap f).map (relax dpe.delay values)) values =
        some ((fs.map lp).foldl (relax dpe.delay) values) := by
    intro fs
    induction fs with
    | nil => exact fun _ _ => rfl
    | cons f fs ih =>
        intro known values
        rw [List.foldlM_cons, known f List.mem_cons_self]
        exact ih (fun g member => known g (List.mem_cons_of_mem f member)) _
  unfold lpValue
  rw [inputs _ (fun f member => known f (List.mem_append_left _ member))]
  unfold predecessors at known ⊢
  cases guard : dpe.guardWire with
  | none => simp
  | some g =>
      have found := known g.1 (by simp [guard])
      simp [found]

theorem PlainOperands.mem_predecessors (plain : p.PlainOperands) {w : V} {e : E} (driven : p.driver w = some e) (f : V) :
    f ∈ predecessors (p.element e) w ↔ f ∈ operands (p.element e) w := by
  have member : w ∈ (p.element e).outputWires := (p.driver_iff w e).mp driven
  rw [predecessors, List.mem_append, mem_arcInputs, mem_operands, List.mem_map]
  constructor
  · rintro (⟨input, other⟩ | ⟨⟨g, war⟩, guard, rfl⟩)
    · exact ⟨.inl input, other⟩
    · have guard := Option.mem_toList.mp guard
      obtain ⟨rfl, own, -, -⟩ := plain.guards w e g war driven guard
      exact ⟨.inr guard, fun same => own (same.symm ▸ member : (g, false).1 ∈ _)⟩
  · rintro ⟨input | guard, other⟩
    · exact .inl ⟨input, other⟩
    · exact .inr ⟨(f, false), Option.mem_toList.mpr guard, rfl⟩

theorem PlainOperands.isGreatest (plain : p.PlainOperands) {w : V} {e : E} (driven : p.driver w = some e) {lp : V → Int}
    (operands_greatest : ∀ f ∈ operands (p.element e) w, IsGreatest {n | p.DelayPath f n} (lp f)) (ret : Int) (le : 0 ≤ ret) :
    IsGreatest {n | p.DelayPath w n} (((predecessors (p.element e) w).map lp).foldl (relax (p.element e).delay) (0, ret)).1 := by
  obtain ⟨above, all, attained, _⟩ := foldl_relax (p.element e).delay ((predecessors (p.element e) w).map lp) 0 ret le
  have below : ∀ f ∈ operands (p.element e) w, lp f + (p.element e).delay ≤ _ := fun f operand =>
    all (lp f) (List.mem_map.mpr ⟨f, (plain.mem_predecessors driven f).mpr operand, rfl⟩)
  constructor
  · rcases attained with zero | ⟨n, member, same⟩
    · by_cases alone : operands (p.element e) w = []
      · rw [zero]
        refine .source fun e' driven' => ?_
        obtain rfl := Option.some.inj (driven.symm.trans driven')
        exact alone
      obtain ⟨f, operand⟩ := List.exists_mem_of_ne_nil _ alone
      have path := (operands_greatest f operand).1
      have fits := below f operand
      have nonneg := delayPath_nonneg path
      have delayed := delay_nonneg (p.element e)
      have value : lp f + (p.element e).delay = 0 := by omega
      have through := DelayPath.through driven operand path
      rw [value] at through
      rw [zero]
      exact through
    · obtain ⟨f, isPredecessor, rfl⟩ := List.mem_map.mp member
      have operand := (plain.mem_predecessors driven f).mp isPredecessor
      rw [same]
      exact DelayPath.through driven operand (operands_greatest f operand).1
  · intro n path
    cases path with
    | source _ => exact above
    | @through f _ e' n driven' operand path =>
        obtain rfl := Option.some.inj (driven.symm.trans driven')
        have longest := (operands_greatest f operand).2 path
        have fits := below f operand
        omega

/-! ### The whole order -/

structure Visited (p : VcDataPath V E) (before : List (Option V)) (s : LongestPaths V) : Prop where
  level : ∀ w, some w ∈ before → ∃ n, s.longestPathMap w = some n ∧ IsGreatest {n | p.DelayPath w n} n
  longest : IsGreatest ({0} ∪ {n | ∃ w, some w ∈ before ∧ s.longestPathMap w = some n}) s.retVal

theorem isGreatest_undriven {w : V} (undriven : p.driver w = none) : IsGreatest {n | p.DelayPath w n} 0 := by
  refine ⟨.source fun e driven => ?_, fun n path => ?_⟩
  · rw [undriven] at driven
    cases driven
  cases path with
  | source _ => exact le_refl 0
  | through driven _ _ => rw [undriven] at driven; cases driven

theorem Visited.insert {before : List (Option V)} {s : LongestPaths V} (visited : Visited p before s) {w : V} {n : Int}
    (fresh : some w ∉ before) (greatest : IsGreatest {n | p.DelayPath w n} n) :
    Visited p (before ++ [some w]) ⟨Function.update s.longestPathMap w (some n), max s.retVal n⟩ := by
  have old : ∀ v, some v ∈ before → v ≠ w := fun v member same => fresh (same ▸ member)
  constructor
  · intro v member
    rcases List.mem_append.mp member with member | member
    · simp only [Function.update_of_ne (old v member)]
      exact visited.level v member
    · obtain rfl := Option.some.inj (List.mem_singleton.mp member)
      exact ⟨n, Function.update_self .., greatest⟩
  · constructor
    · rcases le_total s.retVal n with larger | larger
      · rw [max_eq_right larger]
        exact .inr ⟨w, by simp, Function.update_self ..⟩
      · rw [max_eq_left larger]
        rcases visited.longest.1 with zero | ⟨v, member, found⟩
        · exact .inl zero
        · exact .inr ⟨v, List.mem_append_left _ member, by simpa only [Function.update_of_ne (old v member)] using found⟩
    · rintro m (zero | ⟨v, member, found⟩)
      · have := visited.longest.2 (.inl zero)
        exact le_max_of_le_left this
      · rcases List.mem_append.mp member with member | member
        · simp only [Function.update_of_ne (old v member)] at found
          exact le_max_of_le_left (visited.longest.2 (.inr ⟨v, member, found⟩))
        · obtain rfl := Option.some.inj (List.mem_singleton.mp member)
          simp only [Function.update_self, Option.some.injEq] at found
          exact found ▸ le_max_right _ _

theorem PlainOperands.visit (plain : p.PlainOperands) {before : List (Option V)} {s : LongestPaths V}
    (visited : Visited p before s) {v : Option V} (fresh : v ∉ before)
    (ready : ∀ f w, v = some w → p.Arc f w → some f ∈ before) :
    ∃ s', p.visit s v = some s' ∧ Visited p (before ++ [v]) s' := by
  cases v with
  | none =>
      refine ⟨s, rfl, ?_⟩
      constructor
      · intro w member
        exact visited.level w (by simpa using member)
      · simpa using visited.longest
  | some w =>
      have le : 0 ≤ s.retVal := visited.longest.2 (.inl rfl)
      cases driven : p.driver w with
      | none =>
          refine ⟨⟨Function.update s.longestPathMap w (some 0), s.retVal⟩, ?_, ?_⟩
          · simp only [VcDataPath.visit, driven]
          · have := visited.insert fresh (isGreatest_undriven driven)
            rwa [max_eq_left le] at this
      | some e =>
          have known : ∀ f ∈ operands (p.element e) w, ∃ n,
              s.longestPathMap f = some n ∧ IsGreatest {n | p.DelayPath f n} n :=
            fun f operand => visited.level f (ready f w rfl ⟨e, driven, operand⟩)
          let lp : V → Int := fun f => (s.longestPathMap f).getD 0
          have found : ∀ f ∈ operands (p.element e) w,
              s.longestPathMap f = some (lp f) ∧ IsGreatest {n | p.DelayPath f n} (lp f) := by
            intro f operand
            obtain ⟨n, found, greatest⟩ := known f operand
            have value : lp f = n := by simp only [lp, found, Option.getD_some]
            rw [value]
            exact ⟨found, greatest⟩
          have values := lpValue_eq lp fun f member =>
            (found f ((plain.mem_predecessors driven f).mp member)).1
          have greatest := plain.isGreatest driven (fun f operand => (found f operand).2) s.retVal le
          have inserted := visited.insert fresh greatest
          have result := (foldl_relax (p.element e).delay ((predecessors (p.element e) w).map lp) 0 s.retVal le).2.2.2
          simp only [VcDataPath.visit, driven, values, Option.map_some]
          rw [← result] at inserted
          exact ⟨_, rfl, inserted⟩

theorem PlainOperands.longestPaths (plain : p.PlainOperands) (acyclic : ∀ w, ¬ Relation.TransGen p.Arc w w)
    {sort : List (Option V) → List (Option V × Option V) → List (Option V)} (sorts : SortsTopologically sort) :
    ∃ s, p.longestPaths sort = some s ∧ Visited p p.vertices s := by
  have graph := plain.acyclicGraph acyclic
  have sorted := sorts p.vertices p.arcs graph
  have run : ∀ after before s, (sort p.vertices p.arcs).reverse = before ++ after → Visited p before s →
      ∃ s', after.foldlM p.visit s = some s' ∧ Visited p (before ++ after) s' := by
    intro after
    induction after with
    | nil => exact fun before s _ visited => ⟨s, rfl, by rwa [List.append_nil]⟩
    | cons v after ih =>
        intro before s split visited
        have nodup : (before ++ v :: after).Nodup := split ▸ List.nodup_reverse.mpr sorted.nodup
        have fresh : v ∉ before := fun member =>
          List.disjoint_of_nodup_append nodup member List.mem_cons_self
        obtain ⟨s', step, visited'⟩ := plain.visit visited fresh fun f w same arc => by
          obtain ⟨e, driven, operand⟩ := arc
          subst same
          have edge := plain.arc driven operand
          exact sorted.sources_first split edge (mem_vertices_of_arc edge).1
        have split' : (sort p.vertices p.arcs).reverse = (before ++ [v]) ++ after := by
          rw [split, List.append_assoc]
          rfl
        obtain ⟨s'', rest, visited''⟩ := ih (before ++ [v]) s' split' visited'
        refine ⟨s'', ?_, ?_⟩
        · rw [List.foldlM_cons, step]
          exact rest
        · simpa using visited''
  have start : Visited p [] ⟨fun _ => none, 0⟩ := by
    refine ⟨fun w member => absurd member (List.not_mem_nil), ?_⟩
    refine ⟨.inl rfl, ?_⟩
    rintro n (zero | ⟨w, member, _⟩)
    · exact le_of_eq zero
    · exact absurd member (List.not_mem_nil)
  obtain ⟨s, run, visited⟩ := run (sort p.vertices p.arcs).reverse [] _ rfl start
  refine ⟨s, run, ?_⟩
  have same : ∀ v, v ∈ (sort p.vertices p.arcs).reverse ↔ v ∈ p.vertices := fun v => by
    rw [List.mem_reverse, sorted.complete]
  rw [List.nil_append] at visited
  refine ⟨fun w member => visited.level w ((same _).mpr member), ?_⟩
  have longest := visited.longest
  simp only [same] at longest
  exact longest

end VcDataPath

end Ahir.DataPath.Level
