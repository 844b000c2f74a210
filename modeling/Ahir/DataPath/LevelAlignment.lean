import Mathlib.Data.Fintype.Basic
import Ahir.DataPath.LevelPadding

/-!
# Deterministic pipelines are level-aligned

A data path whose operands the loops treat alike is printed with all its operands
aligned.  A guard that is written after it is read still takes part in the levels.
-/

set_option autoImplicit false

namespace Ahir.DataPath.Level
open Ahir.Graph Ahir.Hardware

namespace VcDataPath
variable {V E : Type} [DecidableEq V] {p : VcDataPath V E} {c : Levels V E}

theorem mem_wireSlackMap {w : V} {k : Int} : k ∈ p.wireSlackMap c w ↔ (w, k) ∈ p.insertedSlacks c := by
  unfold wireSlackMap
  rw [List.mem_insertionSort, List.mem_dedup, List.mem_map]
  constructor
  · rintro ⟨⟨v, k⟩, member, rfl⟩
    obtain ⟨inserted, same⟩ := List.mem_filter.mp member
    obtain rfl := of_decide_eq_true same
    exact inserted
  · intro member
    exact ⟨(w, k), List.mem_filter.mpr ⟨member, decide_eq_true rfl⟩, rfl⟩

theorem sorted_wireSlackMap (w : V) : (p.wireSlackMap c w).Pairwise (· < ·) := by
  let inserted := ((p.insertedSlacks c).filter fun k => decide (k.1 = w)).map Prod.snd
  have sorted := List.pairwise_insertionSort (· ≤ ·) inserted.dedup
  have nodup : (inserted.dedup.insertionSort (· ≤ ·)).Nodup :=
    (List.perm_insertionSort (· ≤ ·) inserted.dedup).nodup_iff.mpr (List.nodup_dedup _)
  exact (List.Pairwise.and sorted nodup).imp fun pair => lt_of_le_of_ne pair.1 pair.2

theorem mem_insertedSlacks {v : V} {k : Int} : (v, k) ∈ p.insertedSlacks c ↔
    (v ∈ p.outputArguments ∧ k = c.longestPath - c.level v) ∨
    ∃ w ∈ p.outputArguments ++ p.wireMap, ∃ e, p.driver w = some e ∧
      ((∃ j war, (p.element e).inputWires[j]? = some (v, war) ∧ p.hasSlack w (v, war) = true ∧
          k = c.slacks.inputSlack e j) ∨
        (∃ war, (p.element e).guardWire = some (v, war)) ∧ k = c.slacks.guardSlack e) := by
  unfold insertedSlacks
  rw [List.mem_append]
  apply or_congr
  · rw [List.mem_map]
    constructor
    · rintro ⟨ow, member, same⟩
      obtain ⟨rfl, rfl⟩ := Prod.mk.inj same
      exact ⟨member, rfl⟩
    · rintro ⟨member, rfl⟩
      exact ⟨v, member, rfl⟩
  · rw [List.mem_flatMap]
    apply exists_congr
    intro w
    apply and_congr_right
    intro _
    cases driven : p.driver w with
    | none => simp
    | some e =>
        simp only [Option.some.injEq, exists_eq_left', List.mem_append]
        apply or_congr
        · constructor
          · intro member
            obtain ⟨⟨⟨f, war⟩, j⟩, filtered, same⟩ := List.mem_map.mp member
            obtain ⟨rfl, rfl⟩ := Prod.mk.inj same
            obtain ⟨listed, slack⟩ := List.mem_filter.mp filtered
            exact ⟨j, war, List.mk_mem_zipIdx_iff_getElem?.mp listed, slack, rfl⟩
          · rintro ⟨j, war, input, slack, rfl⟩
            exact List.mem_map.mpr ⟨((v, war), j),
              List.mem_filter.mpr ⟨List.mk_mem_zipIdx_iff_getElem?.mpr input, slack⟩, rfl⟩
        · rw [List.mem_map]
          constructor
          · rintro ⟨⟨g, war⟩, guard, same⟩
            obtain ⟨rfl, rfl⟩ := Prod.mk.inj same
            exact ⟨⟨war, Option.mem_toList.mp guard⟩, rfl⟩
          · rintro ⟨⟨war, guard⟩, rfl⟩
            exact ⟨(v, war), Option.mem_toList.mpr guard, rfl⟩

section
variable (plain : p.PlainOperands) (calculated : Calculated p c)
include plain calculated

theorem Calculated.inserted_fits {v : V} {k : Int} (member : (v, k) ∈ p.insertedSlacks c)
    (notConstantWire : p.isConstantWire v = false) : some v ∈ p.vertices ∧ c.level v + k ≤ c.longestPath := by
  rcases mem_insertedSlacks.mp member with ⟨isOutput, rfl⟩ | ⟨w, _, e, driven, read⟩
  · exact ⟨plain.outputs v isOutput, by omega⟩
  · have delay := delay_nonneg (p.element e)
    obtain ⟨operand, value⟩ : v ∈ operands (p.element e) w ∧ k = c.level w - (c.level v + (p.element e).delay) := by
      rcases read with ⟨j, war, input, slack, rfl⟩ | ⟨⟨war, guard⟩, rfl⟩
      · exact calculated.inputSlack plain driven input slack
      · have varies : p.isConstant v = false := by
          by_contra constant
          rw [(plain.guards w e v war driven guard).2.2.2 (by simpa using constant)] at notConstantWire
          cases notConstantWire
        exact calculated.guardSlack_eq plain driven guard varies
    have fits := calculated.level_le (plain.mem_vertices driven operand)
    exact ⟨plain.operand_vertex driven operand, by omega⟩

omit calculated in
theorem PlainOperands.operandSignal_inserted {w : V} {e : E} {k : V × Int} (driven : p.driver w = some e)
    (member : k ∈ p.operandSignals c w e) : k ∈ p.insertedSlacks c := by
  have listed : w ∈ p.outputArguments ++ p.wireMap := by
    have := p.driven_listed w (by rw [driven]; exact Option.some_ne_none e)
    exact List.mem_append.mpr this.symm
  apply mem_insertedSlacks.mpr
  refine .inr ⟨w, listed, e, driven, ?_⟩
  rcases List.mem_append.mp member with isInput | isGuard
  · obtain ⟨⟨⟨f, war⟩, j⟩, filtered, same⟩ := List.mem_map.mp isInput
    subst same
    obtain ⟨listed, slack⟩ := List.mem_filter.mp filtered
    exact .inl ⟨j, war, List.mk_mem_zipIdx_iff_getElem?.mp listed, slack, rfl⟩
  · obtain ⟨war, guard, _, same⟩ := plain.guardSignal_eq driven (Option.mem_toList.mp (List.mem_filter.mp isGuard).1)
    exact .inr ⟨⟨war, guard⟩, same⟩

omit plain calculated [DecidableEq V] in
theorem notConstantWire {w : V} (varies : p.isConstant w = false) : p.isConstantWire w = false := by
  by_contra constant
  rw [p.constantWire_constant w (by simpa using constant)] at varies
  cases varies

omit plain calculated in
theorem operand_printed {w f : V} {e : E} (operand : f ∈ operands (p.element e) w) (varies : p.isConstant f = false) :
    f ∈ p.printedWires := by
  obtain ⟨read, _⟩ := mem_operands.mp operand
  refine p.operand_listed e (f, false) ?_ (notConstantWire varies)
  rcases read with input | guard
  · exact List.mem_append_left _ input
  · exact List.mem_append_right _ (Option.mem_toList.mpr guard)

omit plain calculated in
/-- The copy of a wire for one of its slacks is the wire delayed by it. -/
theorem Padded.signal_eq {α : Type} {uninitialised : α} {stall : Int → Nat → Bool} {signal : V → Int → Nat → α}
    (padded : p.Padded c uninitialised stall signal) {w : V} {k : Int} (printed : w ∈ p.printedWires)
    (notConstantWire : p.isConstantWire w = false) (inserted : (w, k) ∈ p.insertedSlacks c) (nonneg : 0 ≤ k) :
    signal w k = SquashLevelRepeater.delayed uninitialised stall (c.level w) (signal w 0) k.toNat := by
  have start : signal w 0 = SquashLevelRepeater.delayed uninitialised stall (c.level w) (signal w 0) (0 : Int).toNat :=
    (SquashLevelRepeater.delayed_zero ..).symm
  rcases eq_or_lt_of_le nonneg with rfl | positive
  · exact start
  · have row := padded w printed
    rw [wirePaddings, if_neg (by rw [notConstantWire]; exact Bool.false_ne_true)] at row
    exact paddings_delayed (p.wireSlackMap c w) 0 (le_refl 0) (sorted_wireSlackMap w) (fun _ _ positive => positive)
      row start k (mem_wireSlackMap.mpr inserted) positive

/-- The logic of a driven wire takes the last `delay` stall indices up to its level. -/
theorem Calculated.logic_eq {w : V} {e : E} (driven : p.driver w = some e) :
    p.logic c w e ≠ .error ∧
    (p.logic c w e).stallRange =
      (if 0 < (p.element e).delay then [(c.level w - (p.element e).delay + 1, c.level w)] else []) ∧
    ∀ {α : Type} (uninitialised : α) (stall : Int → Nat → Bool) (input : Nat → α),
      (p.logic c w e).behind uninitialised stall input =
        SquashLevelRepeater.delayed uninitialised stall (c.level w - (p.element e).delay) input
          (p.element e).delay.toNat := by
  have delay := delay_eq (p.element e)
  have range : ∀ high : Int, (0 < (p.element e).delay → high = c.level w) →
      (if high - (p.element e).pipelineDelay + 1 ≤ high then [(high - (p.element e).pipelineDelay + 1, high)] else []) =
        if 0 < (p.element e).delay then [(c.level w - (p.element e).delay + 1, c.level w)] else [] := by
    intro high same
    split_ifs with low positive positive
    · rw [same positive, delay]
    · omega
    · omega
    · rfl
  unfold logic
  by_cases called : (p.element e).isPipelineOperator = true
  · have isOutput := (p.driver_iff w e).mp driven
    have first (positive : 0 < (p.element e).delay) : c.level ((p.element e).outputWires.headD w) = c.level w := by
      cases outputs : (p.element e).outputWires with
      | nil => rfl
      | cons v rest =>
          have driven' : p.driver v = some e := (p.driver_iff v e).mpr (outputs ▸ List.mem_cons_self)
          exact plain.level_same driven' driven (calculated.level v (plain.fed_vertex driven' positive))
            (calculated.level w (plain.fed_vertex driven positive))
    simp only [called, if_true]
    refine ⟨by simp, range _ first, fun uninitialised stall input => ?_⟩
    simp only [Logic.behind]
    rw [dataOut_at]
    rcases (delay_nonneg (p.element e)).eq_or_lt with none | positive
    · have depth : (c.level ((p.element e).outputWires.headD w) -
          (c.level ((p.element e).outputWires.headD w) - (p.element e).pipelineDelay + 1) + 1).toNat = 0 := by omega
      rw [depth, ← none, Int.toNat_zero, SquashLevelRepeater.delayed_zero, SquashLevelRepeater.delayed_zero]
    · rw [first positive, delay]
      congr 1 <;> omega
  · simp only
    rw [if_neg called]
    by_cases flow : (p.element e).flowThrough = true
    · have none : (p.element e).delay = 0 := by
        rw [delay, (p.element e).flowThrough_delay flow]
        rfl
      simp only [flow, if_true, ite_self, none, lt_irrefl, if_false]
      refine ⟨by simp, rfl, fun uninitialised stall input => ?_⟩
      exact (SquashLevelRepeater.delayed_zero ..).symm
    · obtain ⟨f, input, varies⟩ := plain.varying w e driven (by simpa using flow) (by simpa using called)
      have someVaries : ¬ ((p.element e).inputWires.all fun f => p.isConstant f.1 || f.2) = true := by
        intro all
        have := List.all_eq_true.mp all _ input
        simp [varies] at this
      rw [if_neg someVaries, if_neg flow]
      refine ⟨by simp, range _ fun _ => rfl, fun uninitialised stall input => ?_⟩
      simp only [Logic.behind]
      rw [dataOut_at, delay]
      congr 1
      omega

theorem Calculated.stalls {w : V} :
    (p.stallRanges c w).IsChain (fun r s => s.1 = r.2 + 1) ∧
    (p.stallRanges c w).Pairwise (fun r s => r.2 < s.1) ∧
    ∀ r ∈ p.stallRanges c w, 1 ≤ r.1 ∧ r.1 ≤ r.2 ∧ r.2 ≤ c.longestPath := by
  unfold stallRanges wirePaddings
  by_cases constant : p.isConstantWire w = true
  · simp [constant, p.constant_undriven w (p.constantWire_constant w constant)]
  · rw [if_neg constant]
    obtain ⟨chain, apart, inside⟩ := paddings_ranges (c.level w) (p.wireSlackMap c w) 0 (sorted_wireSlackMap w)
      (fun _ _ positive => positive)
    have bounds : ∀ r ∈ (paddings (c.level w) 0 (p.wireSlackMap c w)).map fun r => (r.low, r.high),
        1 ≤ r.1 ∧ r.1 ≤ r.2 ∧ r.2 ≤ c.longestPath := by
      intro r member
      obtain ⟨above, proper, k, isSlack, _, same⟩ := inside r member
      obtain ⟨vertex, fits⟩ := calculated.inserted_fits plain (mem_wireSlackMap.mp isSlack) (by simpa using constant)
      have nonneg := calculated.level_nonneg vertex
      exact ⟨by omega, proper, by omega⟩
    have tail : ((paddings (c.level w) 0 (p.wireSlackMap c w)).map fun r => (r.low, r.high)).IsChain
        fun r s => s.1 = r.2 + 1 := (chain (0, c.level w + 0) rfl).tail
    cases driven : p.driver w with
    | none => exact ⟨tail, apart, bounds⟩
    | some e =>
        simp only [(calculated.logic_eq plain driven).2.1]
        split_ifs with positive
        · obtain ⟨f, operand⟩ := List.exists_mem_of_ne_nil _ (plain.fed w e driven positive)
          have fits := calculated.level_le (plain.mem_vertices driven operand)
          have delay := calculated.delay_le plain driven operand
          refine ⟨chain _ (by omega), List.pairwise_cons.mpr ⟨fun r member => ?_, apart⟩, fun r member => ?_⟩
          · have := (inside r member).1
            dsimp only
            omega
          · rcases List.mem_cons.mp member with rfl | member
            · exact ⟨by dsimp only; omega, by dsimp only; omega, fits⟩
            · exact bounds r member
        · exact ⟨tail, apart, bounds⟩

/-- The data on every wire, and that of every operand, are of one iteration. -/
theorem Calculated.tagged (acyclic : ∀ w, ¬ Relation.TransGen p.Arc w w) {α : Type} {uninitialised : α}
    {stall : Int → Nat → Bool} {fed : Nat → α} {tag : V → Int → Nat → α}
    (tagged : p.Tagged c uninitialised stall fed tag) :
    (∀ w, some w ∈ p.vertices → p.isConstant w = false →
      tag w 0 = SquashLevelRepeater.delayed uninitialised stall 0 fed (c.level w).toNat) ∧
    ∀ w e, p.driver w = some e → ∀ k ∈ p.operandSignals c w e,
      tag k.1 k.2 = SquashLevelRepeater.delayed uninitialised stall 0 fed (c.level w - (p.element e).delay).toNat := by
  have operand_tag : ∀ {w e}, p.driver w = some e → ∀ k ∈ p.operandSignals c w e,
      tag k.1 0 = SquashLevelRepeater.delayed uninitialised stall 0 fed (c.level k.1).toNat →
      tag k.1 k.2 = SquashLevelRepeater.delayed uninitialised stall 0 fed (c.level w - (p.element e).delay).toNat := by
    intro w e driven k member arrived
    obtain ⟨operand, varies, level⟩ := calculated.operandSignal plain driven member
    have fits := calculated.operand_fits plain driven operand
    have nonneg := calculated.level_nonneg (plain.operand_vertex driven operand)
    have inserted := plain.operandSignal_inserted (c := c) driven member
    have copy := Padded.signal_eq tagged.padded (operand_printed operand varies) (notConstantWire varies) inserted
      (by omega)
    have joined := delayed_add uninitialised stall 0 fed nonneg
      (show c.level k.1 ≤ c.level w - (p.element e).delay by omega)
    have slack : c.level w - (p.element e).delay - c.level k.1 = k.2 := by omega
    rw [zero_add, slack] at joined
    rw [copy, arrived, joined]
  have wire_tag : ∀ v ∈ p.vertices, ∀ w, v = some w → p.isConstant w = false →
      tag w 0 = SquashLevelRepeater.delayed uninitialised stall 0 fed (c.level w).toNat := by
    refine (plain.acyclicGraph acyclic).induction ?_
    rintro v _ earlier w rfl varies
    by_cases read : ∃ e, p.driver w = some e ∧ p.operandSignals c w e ≠ []
    · obtain ⟨e, driven, reads⟩ := read
      have arrived := tagged.element w e driven reads _ fun k member => by
        obtain ⟨operand, varies, _⟩ := calculated.operandSignal plain driven member
        exact operand_tag driven k member (earlier _ (plain.arc driven operand) k.1 rfl varies)
      obtain ⟨k, isSignal⟩ := List.exists_mem_of_ne_nil _ reads
      have fits := calculated.delay_le plain driven (calculated.operandSignal plain driven isSignal).1
      have delay := delay_nonneg (p.element e)
      have joined := delayed_add uninitialised stall 0 fed
        (show 0 ≤ c.level w - (p.element e).delay by omega) (show _ ≤ c.level w by omega)
      have rest : c.level w - (c.level w - (p.element e).delay) = (p.element e).delay := by omega
      rw [zero_add, rest] at joined
      rw [arrived, (calculated.logic_eq plain driven).2.2, joined]
    · apply tagged.source w varies
      intro e driven
      by_contra reads
      exact read ⟨e, driven, reads⟩
  refine ⟨fun w member => wire_tag (some w) member w rfl, fun w e driven k member => ?_⟩
  obtain ⟨operand, varies, _⟩ := calculated.operandSignal plain driven member
  exact operand_tag driven k member (wire_tag _ (plain.operand_vertex driven operand) k.1 rfl varies)

end

/-- The levels of a pipeline with plain operands align it, whatever the unset fields hold. -/
theorem levelAligned_of_plainOperands {V E : Type} [DecidableEq V] [DecidableEq E] (p : VcDataPath V E)
    (acyclic : ∀ w, ¬ Relation.TransGen p.Arc w w) (plain : p.PlainOperands)
    (sort : List (Option V) → List (Option V × Option V) → List (Option V)) (sorts : SortsTopologically sort)
    (unsetLevel : V → Int) (unset : Slacks E) :
    ∃ c, p.calculateLongestPathsFromInputs sort unsetLevel unset = some c ∧ p.LevelAligned c := by
  obtain ⟨c, run, calculated⟩ := plain.calculated acyclic sorts unsetLevel unset
  have output_signal : ∀ {α : Type} {uninitialised : α} {stall : Int → Nat → Bool} {signal : V → Int → Nat → α},
      p.Padded c uninitialised stall signal → ∀ w ∈ p.outputArguments,
      signal w (c.longestPath - c.level w) = SquashLevelRepeater.delayed uninitialised stall (c.level w) (signal w 0)
        (c.longestPath - c.level w).toNat := by
    intro α uninitialised stall signal padded w isOutput
    have fits := calculated.level_le (plain.outputs w isOutput)
    exact Padded.signal_eq padded (by simp [printedWires, isOutput]) (p.output_notConstantWire w isOutput)
      (mem_insertedSlacks.mpr (.inl ⟨isOutput, rfl⟩)) (by omega)
  refine ⟨c, run, ?_⟩
  exact {
    level := calculated.level
    longestPath := calculated.longestPath
    driven := fun w e driven => (calculated.logic_eq plain driven).1
    operand := by
      intro w e driven k member
      obtain ⟨operand, _, level⟩ := calculated.operandSignal plain driven member
      have fits := calculated.operand_fits plain driven operand
      exact ⟨by omega, level⟩
    delayed := by
      intro α uninitialised stall signal padded
      refine ⟨fun w e driven k member => ?_, output_signal padded⟩
      obtain ⟨operand, varies, level⟩ := calculated.operandSignal plain driven member
      have fits := calculated.operand_fits plain driven operand
      exact Padded.signal_eq padded (operand_printed operand varies) (notConstantWire varies)
        (plain.operandSignal_inserted driven member) (by omega)
    iteration := by
      intro α uninitialised stall fed tag tagged
      obtain ⟨wires, operands⟩ := calculated.tagged plain acyclic tagged
      refine ⟨operands, fun w isOutput varies => ?_⟩
      have vertex := plain.outputs w isOutput
      have joined := delayed_add uninitialised stall 0 fed
        (calculated.level_nonneg vertex) (calculated.level_le vertex)
      rw [zero_add] at joined
      rw [output_signal tagged.padded w isOutput, wires w vertex varies, joined]
    stalls := fun w _ => calculated.stalls plain }

/-! ### Three wires -/

inductive Wire where
  | a | first | second
  deriving DecidableEq

instance : Fintype Wire := ⟨{.a, .first, .second}, fun w => by cases w <;> decide⟩

/-- Two elements of delay 1, one for each wire but the input. -/
def twoStages (inputWires : List (Wire × Bool)) (guardWire : Option (Wire × Bool)) : VcDataPath Wire Bool where
  inputArguments := [.a]
  outputArguments := [.second]
  wireMap := [.first]
  isConstant := fun _ => false
  isConstantWire := fun _ => false
  driver
    | .a => none
    | .first => some false
    | .second => some true
  element := fun e =>
    { inputWires := if e then inputWires else [(.a, false)]
      guardWire := if e then guardWire else none
      guardComplement := false
      outputWires := if e then [.second] else [.first]
      flowThrough := false
      pipelineDelay := 1
      isPipelineOperator := false
      flowThrough_delay := by decide }
  driver_iff := by
    intro w e
    cases w <;> cases e <;> simp
  input_undriven := by decide
  constant_undriven := by decide
  constantWire_constant := by decide
  output_notConstantWire := by decide
  driven_listed := by decide
  operand_listed := by
    rintro _ ⟨f, war⟩ _ _
    cases f <;> simp

theorem levelAligned_twoStages : ∃ c, (twoStages [(.first, false), (.a, false)] none).calculateLongestPathsFromInputs
    sinksFirst (fun _ => 0) ⟨fun _ => [], fun _ => 0⟩ = some c ∧
    (twoStages [(.first, false), (.a, false)] none).LevelAligned c := by
  apply levelAligned_of_plainOperands
  · apply Graph.acyclic_of_rising (Wire.rec 0 1 2 : Wire → Nat)
    unfold Arc
    decide
  · refine ⟨?_, ?_, ?_, ?_, by decide⟩
    · rintro w e g war _ guard
      cases e <;> cases guard
    · rintro (_ | _) f _ input isOutput w isOutput' <;> revert f w <;> decide
    · rintro (_ | _ | _) (_ | _) driven <;> revert driven <;> decide
    · rintro w (_ | _) _ _ _
      · exact ⟨.a, by decide, rfl⟩
      · exact ⟨.first, by decide, rfl⟩
  · exact sinksFirst_sorts

/-- `second` is computed from `a` while `first` is, and its guard is the old value of `first`:
the longest path to it is 1, and its level is 2. -/
theorem writeAfterReadGuard_not_levelAligned :
    (∀ w, ¬ Relation.TransGen (twoStages [(.a, false)] (some (.first, true))).Arc w w) ∧
    ∃ c, (twoStages [(.a, false)] (some (.first, true))).calculateLongestPathsFromInputs
      sinksFirst (fun _ => 0) ⟨fun _ => [], fun _ => 0⟩ = some c ∧
      ¬ (twoStages [(.a, false)] (some (.first, true))).LevelAligned c := by
  constructor
  · apply Graph.acyclic_of_rising (Wire.rec 0 1 2 : Wire → Nat)
    unfold Arc
    decide
  · have level : ((twoStages [(.a, false)] (some (.first, true))).calculateLongestPathsFromInputs
        sinksFirst (fun _ => 0) ⟨fun _ => [], fun _ => 0⟩).map (fun c => c.level .second) = some 2 := by
      decide +kernel
    obtain ⟨c, run, level⟩ := Option.map_eq_some_iff.mp level
    refine ⟨c, run, fun aligned => ?_⟩
    have longest := (aligned.level .second (by decide)).1
    rw [level] at longest
    generalize isTwo : (2 : Int) = n at longest
    cases longest with
    | source _ => cases isTwo
    | @through f _ e n driven operand path =>
        cases driven
        have isInput : ∀ f, f ∈ operands ((twoStages [(.a, false)] (some (.first, true))).element true) .second →
            f = .a := by decide
        obtain rfl := isInput f operand
        cases path with
        | source _ => cases isTwo
        | through driven _ _ => cases driven

end VcDataPath

end Ahir.DataPath.Level
