import Ahir.Hardware.PipelinedMux

/-!
# The geometry of the tree

The loops that compute the number of stages and the width of all slices end, and the
slices and the groups of inputs divide what they are slices and groups of.
-/

set_option autoImplicit false

namespace Ahir.Hardware.PipelinedMux

/-- The loop of `Ceil_Log`; none when it has not ended after so many turns. -/
def divisionsWithin (base : Nat) : Nat → Nat → Option Nat
  | 0, _ => none
  | fuel + 1, tvar => if 1 < tvar then (divisionsWithin base fuel (tvar / base)).map (· + 1) else some 0

def ceilLogWithin (fuel x base : Nat) : Option Nat :=
  if 0 < x then
    (divisionsWithin base fuel x).map fun retVar => if base ^ retVar < x then retVar + 1 else retVar
  else some 0

/-- The loop of `Total_Intermediate_Width`, likewise. -/
def widthLoop (y : Nat) : Nat → Nat → Nat → Option Nat
  | 0, _, _ => none
  | fuel + 1, tval, retVal => if 1 < tval then widthLoop y fuel (ceil tval y) (retVal + ceil tval y) else some retVal

/-- `Total_Intermediate_Width`; one more is for the output. -/
def totalIntermediateWidth (fuel x y : Nat) : Option Nat := (widthLoop y fuel x x).map (· + 1)

section CeilLog
variable {base : Nat}

theorem divisionsWithin_eq (large : 2 ≤ base) {fuel m tvar : Nat} (enough : tvar < fuel) (le : tvar ≤ m) :
    divisionsWithin base fuel tvar = some (divisions base m tvar) := by
  induction fuel generalizing m tvar with
  | zero => exact absurd enough (Nat.not_lt_zero _)
  | succ fuel ih =>
      rw [divisionsWithin]
      split
      · next more =>
          have smaller : tvar / base < tvar := Nat.div_lt_self (by omega) large
          obtain ⟨m, rfl⟩ : ∃ k, m = k + 1 := ⟨m - 1, by omega⟩
          rw [ih (m := m) (by omega) (by omega), Option.map_some, divisions, if_pos more]
      · next ended =>
          cases m with
          | zero => rfl
          | succ m => rw [divisions, if_neg ended]

theorem ceilLogWithin_eq (large : 2 ≤ base) {fuel x : Nat} (enough : x < fuel) :
    ceilLogWithin fuel x base = some (ceilLog x base) := by
  unfold ceilLogWithin ceilLog
  split
  · rw [divisionsWithin_eq large enough le_rfl, Option.map_some]
  · rfl

theorem one_lt_div_pow (fuel tvar : Nat) {j : Nat} (before : j < divisions base fuel tvar) : 1 < tvar / base ^ j := by
  induction fuel generalizing tvar j with
  | zero => exact absurd before (Nat.not_lt_zero j)
  | succ fuel ih =>
      unfold divisions at before
      split at before
      · next more =>
          cases j with
          | zero => rwa [pow_zero, Nat.div_one]
          | succ j =>
              rw [Nat.pow_succ', ← Nat.div_div_eq_div_mul]
              exact ih (tvar / base) (by omega)
      · exact absurd before (Nat.not_lt_zero j)

theorem ceilLog_le (large : 2 ≤ base) {x k : Nat} (fits : x ≤ base ^ k) : ceilLog x base ≤ k := by
  have reached : divisions base x x ≤ k := by
    by_contra before
    have two := one_lt_div_pow x x (Nat.lt_of_not_le before)
    have : 2 * base ^ k ≤ x := (Nat.le_div_iff_mul_le (Nat.pow_pos (by omega))).mp two
    have : 0 < base ^ k := Nat.pow_pos (by omega)
    omega
  unfold ceilLog
  split_ifs with pos less
  · exact (Nat.pow_lt_pow_iff_right large).mp (less.trans_le fits)
  · exact reached
  · exact Nat.zero_le k

theorem isLeast_ceilLog (large : 2 ≤ base) (x : Nat) : IsLeast {k | x ≤ base ^ k} (ceilLog x base) :=
  ⟨le_pow_ceilLog x large, fun _ fits => ceilLog_le large fits⟩

end CeilLog

namespace Generics
variable (g : Generics)

theorem numberOfInputs_le (stage : Nat) : g.numberOfInputs ≤ g.stageWidth stage * g.muxDegree ^ stage := by
  induction stage with
  | zero => rw [pow_zero, Nat.mul_one, stageWidth]
  | succ stage ih =>
      calc g.numberOfInputs
          ≤ g.stageWidth stage * g.muxDegree ^ stage := ih
        _ ≤ g.stageWidth (stage + 1) * g.muxDegree * g.muxDegree ^ stage :=
            Nat.mul_le_mul_right _ (le_ceil_mul _ g.degree_pos)
        _ = g.stageWidth (stage + 1) * g.muxDegree ^ (stage + 1) := by rw [Nat.pow_succ', Nat.mul_assoc]

theorem one_lt_stageWidth {stage : Nat} (before : stage < ceilLog g.numberOfInputs g.muxDegree) :
    1 < g.stageWidth stage := by
  by_contra narrow
  have fits : g.numberOfInputs ≤ g.muxDegree ^ stage := by
    refine (g.numberOfInputs_le stage).trans ?_
    calc g.stageWidth stage * g.muxDegree ^ stage
        ≤ 1 * g.muxDegree ^ stage := Nat.mul_le_mul_right _ (Nat.le_of_not_lt narrow)
      _ = g.muxDegree ^ stage := Nat.one_mul _
  exact absurd (ceilLog_le g.degree_ge fits) (by omega)

theorem stageWidth_ceilLog : g.stageWidth (ceilLog g.numberOfInputs g.muxDegree) = 1 := by
  have bound := g.stageWidth_le (ceilLog g.numberOfInputs g.muxDegree) 0 (le_pow_ceilLog _ g.degree_ge)
  have pos := g.stageWidth_pos (ceilLog g.numberOfInputs g.muxDegree)
  rw [pow_zero] at bound
  omega

theorem widthLoop_eq {stage rest fuel : Nat} (last : stage + rest = ceilLog g.numberOfInputs g.muxDegree)
    (enough : rest < fuel) :
    widthLoop g.muxDegree fuel (g.stageWidth stage) (g.leftIndex (stage + 1)) =
      some (g.leftIndex (ceilLog g.numberOfInputs g.muxDegree + 1)) := by
  induction rest generalizing stage fuel with
  | zero =>
      obtain ⟨fuel, rfl⟩ := Nat.exists_eq_add_of_lt enough
      rw [Nat.add_zero] at last
      rw [last, Nat.zero_add, widthLoop, stageWidth_ceilLog, if_neg (lt_irrefl 1)]
  | succ rest ih =>
      obtain ⟨fuel, rfl⟩ : ∃ k, fuel = k + 1 := ⟨fuel - 1, by omega⟩
      have more : 1 < g.stageWidth stage := g.one_lt_stageWidth (by omega)
      have later : stage + 1 + rest = ceilLog g.numberOfInputs g.muxDegree := by omega
      rw [widthLoop, if_pos more]
      have next : g.leftIndex (stage + 1) + ceil (g.stageWidth stage) g.muxDegree = g.leftIndex (stage + 1 + 1) :=
        (g.leftIndex_succ (stage + 1)).symm
      rw [next]
      exact ih later (by omega)

theorem totalIntermediateWidth_eq {fuel : Nat} (enough : ceilLog g.numberOfInputs g.muxDegree < fuel) :
    totalIntermediateWidth fuel g.numberOfInputs g.muxDegree =
      some (g.leftIndex (ceilLog g.numberOfInputs g.muxDegree + 1) + 1) := by
  have loop := g.widthLoop_eq (Nat.zero_add (ceilLog g.numberOfInputs g.muxDegree)) enough
  rw [g.leftIndex_succ 0, leftIndex, Nat.zero_add] at loop
  rw [totalIntermediateWidth]
  exact congrArg (Option.map (· + 1)) loop

theorem leftIndex_numberOfStages :
    g.leftIndex (g.numberOfStages + 1) ≤ g.leftIndex (ceilLog g.numberOfInputs g.muxDegree + 1) + 1 := by
  unfold numberOfStages
  by_cases merges : 1 ≤ ceilLog g.numberOfInputs g.muxDegree
  · rw [max_eq_right merges]
    exact Nat.le_succ _
  · have none : ceilLog g.numberOfInputs g.muxDegree = 0 := by omega
    have first := g.stageWidth_ceilLog
    have second := ceil_le (x := 1) (y := g.muxDegree) (m := 1) (by rw [Nat.one_mul]; exact g.degree_pos)
    rw [none] at first ⊢
    rw [max_eq_left (Nat.zero_le 1), g.leftIndex_succ 1, stageWidth, first, Nat.zero_add]
    omega

theorem residualInputs_pos (stage : Nat) : 0 < g.residualInputs stage :=
  Nat.sub_pos_of_lt (g.trees_fit stage).1

theorem exists_unique_tree {stage i : Nat} (inside : i < g.stageWidth stage) :
    ∃! output, output < g.stageWidth (stage + 1) ∧ i ∈ g.treeInputs stage output := by
  have tree := g.tree_lt inside
  refine ⟨i / g.inputsPerTree stage, ⟨tree, (g.mem_treeInputs tree).mpr ⟨inside, rfl⟩⟩, ?_⟩
  rintro output ⟨isOutput, mem⟩
  exact ((g.mem_treeInputs isOutput).mp mem).2.symm

theorem nodup_treeInputs (stage output : Nat) : (g.treeInputs stage output).Nodup := by
  unfold treeInputs
  split
  · exact List.nodup_range'
  · exact List.nodup_range'

structure Geometry : Prop where
  log_returns : ∃ n, ∀ fuel, n ≤ fuel →
    ceilLogWithin fuel g.numberOfInputs g.muxDegree = some (ceilLog g.numberOfInputs g.muxDegree)
  log_least : IsLeast {k | g.numberOfInputs ≤ g.muxDegree ^ k} (ceilLog g.numberOfInputs g.muxDegree)
  last : g.stageWidth (max 1 (ceilLog g.numberOfInputs g.muxDegree)) = 1
  nonempty : ∀ stage, g.leftIndex stage ≤ g.rightIndex stage
  contiguous : g.leftIndex 0 = 0 ∧ ∀ stage, g.leftIndex (stage + 1) = g.rightIndex stage + 1
  disjoint : ∀ stage later, stage < later → g.rightIndex stage < g.leftIndex later
  inside : ∃ total n, (∀ fuel, n ≤ fuel → totalIntermediateWidth fuel g.numberOfInputs g.muxDegree = some total) ∧
    ∀ stage ≤ g.numberOfStages, g.rightIndex stage < total
  residual : ∀ stage, (g.stageWidth (stage + 1) - 1) * g.inputsPerTree stage < g.stageWidth stage ∧
    0 < g.residualInputs stage
  groups : ∀ stage output, output < g.stageWidth (stage + 1) → (g.treeInputs stage output).Nodup ∧
    ∀ i ∈ g.treeInputs stage output, i < g.stageWidth stage
  covered : ∀ stage, ∀ i < g.stageWidth stage,
    ∃! output, output < g.stageWidth (stage + 1) ∧ i ∈ g.treeInputs stage output

/-- The stages and their groups are a partition. -/
theorem geometry : g.Geometry where
  log_returns := ⟨g.numberOfInputs + 1, fun _ enough => ceilLogWithin_eq g.degree_ge enough⟩
  log_least := isLeast_ceilLog g.degree_ge g.numberOfInputs
  last := g.stageWidth_numberOfStages
  nonempty stage := by
    have pos := g.stageWidth_pos stage
    rw [rightIndex]
    omega
  contiguous := ⟨rfl, fun _ => rfl⟩
  disjoint stage later before := by
    have pos := g.stageWidth_pos stage
    have apart := g.leftIndex_mono before
    rw [rightIndex]
    omega
  inside := by
    refine ⟨_, ceilLog g.numberOfInputs g.muxDegree + 1, fun fuel enough => g.totalIntermediateWidth_eq enough, ?_⟩
    intro stage isStage
    have pos := g.stageWidth_pos stage
    have before : stage < g.numberOfStages + 1 := by omega
    have within := g.leftIndex_mono before
    have total := g.leftIndex_numberOfStages
    rw [rightIndex]
    omega
  residual stage := ⟨(g.trees_fit stage).1, g.residualInputs_pos stage⟩
  groups stage output isOutput :=
    ⟨g.nodup_treeInputs stage output, fun _ mem => ((g.mem_treeInputs isOutput).mp mem).1⟩
  covered stage _ inside := g.exists_unique_tree inside

/-- Seven inputs in threes. -/
example : let g : Generics := ⟨7, 3, by decide, by decide⟩
    [g.stageWidth 0, g.stageWidth 1, g.stageWidth 2] = [7, 3, 1] ∧ g.residualInputs 0 = 1 ∧
      totalIntermediateWidth 3 7 3 = some 12 := by
  decide

end Generics

end Ahir.Hardware.PipelinedMux
