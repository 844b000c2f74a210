import Ahir.Hardware.QueueBase

/-!
# The multiplexer of the unordered memory

`PipelinedMux` is a tree of arbiters: every stage divides its inputs among
`CombinationalMux`es, each with a queue of two words behind it.  The signals
between the stages lie in vectors in which each stage has its slice.
-/

set_option autoImplicit false

namespace Ahir.Hardware.PipelinedMux
variable {w : Nat}

/-! ### Generics -/

/-- The turns of the loop of `Ceil_Log`, at most `fuel`. -/
def divisions (base : Nat) : Nat → Nat → Nat
  | 0, _ => 0
  | fuel + 1, tvar => if 1 < tvar then divisions base fuel (tvar / base) + 1 else 0

/-- `Ceil_Log`; no base from 2 on divides `x` more than `x` times. -/
def ceilLog (x base : Nat) : Nat :=
  if 0 < x then
    if base ^ divisions base x x < x then divisions base x x + 1 else divisions base x x
  else 0

structure Generics where
  numberOfInputs : Nat
  muxDegree : Nat
  inputs_pos : 0 < numberOfInputs
  degree_ge : 2 ≤ muxDegree

namespace Generics
variable (g : Generics)

def stageWidth : Nat → Nat
  | 0 => g.numberOfInputs
  | stage + 1 => ceil (stageWidth stage) g.muxDegree

/-- `Left_Index`; what it adds to is `Right_Index` of the stage before. -/
def leftIndex : Nat → Nat
  | 0 => 0
  | stage + 1 => leftIndex stage + g.stageWidth stage - 1 + 1

def rightIndex (stage : Nat) : Nat := g.leftIndex stage + g.stageWidth stage - 1

/-- `c_number_of_stages` -/
def numberOfStages : Nat := max 1 (ceilLog g.numberOfInputs g.muxDegree)

/-- `c_num_inputs_per_tree` -/
def inputsPerTree (stage : Nat) : Nat := ceil (g.stageWidth stage) (g.stageWidth (stage + 1))

/-- `c_residual_num_inputs_per_tree` -/
def residualInputs (stage : Nat) : Nat := g.stageWidth stage - (g.stageWidth (stage + 1) - 1) * g.inputsPerTree stage

/-- The inputs of the `CombinationalMux` of an output, the last of which is the residual one. -/
def treeInputs (stage output : Nat) : List Nat :=
  if output + 1 < g.stageWidth (stage + 1) then
    List.range' (output * g.inputsPerTree stage) (g.inputsPerTree stage)
  else List.range' (g.stageWidth stage - g.residualInputs stage) (g.residualInputs stage)

/-- The element of a vector at an index, each slice of which comes from its stage. -/
def vector {α : Type} (slices : Nat → Nat → α) (default : α) (index : Nat) : α :=
  match (List.range (g.numberOfStages + 1)).find? fun stage =>
      decide (g.leftIndex stage ≤ index) && decide (index ≤ g.rightIndex stage) with
  | none => default
  | some stage => slices stage (index - g.leftIndex stage)

end Generics

/-! ### One `CombinationalMux` -/

/-- The input for which `sel_vector` is set: `PriorityEncode` begins at the last one. -/
def selected (inputs : List Nat) (inReq : Nat → Bool) : Option Nat := inputs.reverse.find? inReq

/-! ### The tree -/

structure Cycle (w : Nat) where
  mergeDataIn : Nat → BitVec w
  mergeReqIn : Nat → Bool
  mergeAckIn : Bool

/-- The queues behind the outputs of each stage; those that do not exist are read by nothing. -/
abbrev State (w : Nat) : Type := Nat → Nat → QueueState w 2

def queueOut (q : QueueState w 2) : Response (BitVec w) := (queueBase 2).respond q ⟨0#w, false, false⟩

section Tree
variable (g : Generics) (s : State w) (c : Cycle w)

/-- The slices of `intermediate_req_vector`. -/
def reqSlice : Nat → Nat → Bool
  | 0, i => c.mergeReqIn i
  | stage + 1, i => (queueOut (s stage i)).popAck

/-- The slices of `intermediate_vector`, word by word. -/
def dataSlice : Nat → Nat → BitVec w
  | 0, i => c.mergeDataIn i
  | stage + 1, i => (queueOut (s stage i)).dataOut

/-- `in_req(i)` of a stage. -/
def inReq (stage i : Nat) : Bool := g.vector (reqSlice s c) false (g.leftIndex stage + i)

def inData (stage i : Nat) : BitVec w := g.vector (dataSlice s c) 0#w (g.leftIndex stage + i)

/-- `sel_vector` of the mux of an output. -/
def treeSelected (stage output : Nat) : Option Nat := selected (g.treeInputs stage output) (inReq g s c stage)

/-- The slices of `intermediate_ack_vector`: those of the stages, and the acknowledge from outside. -/
def ackSlice (stage i : Nat) : Bool :=
  if stage = g.numberOfStages then c.mergeAckIn
  else (List.range (g.stageWidth (stage + 1))).any fun output =>
    decide (treeSelected g s c stage output = some i) && (queueOut (s stage output)).pushAck && inReq g s c stage i

def ack (stage i : Nat) : Bool := g.vector (ackSlice g s c) false (g.leftIndex stage + i)

def request (stage output : Nat) : Request (BitVec w) where
  dataIn := match treeSelected g s c stage output with
    | none => 0#w
    | some i => inData g s c stage i
  pushReq := (g.treeInputs stage output).any (inReq g s c stage)
  popReq := ack g s c (stage + 1) output

def reset : State w := fun stage output => (queueBase 2).reset (s stage output) (request g s c stage output)

def next : State w := fun stage output => (queueBase 2).next (s stage output) (request g s c stage output)

/-- `merge_req_out` and `merge_data_out` do not depend on the inputs. -/
def mergeReqOut : Bool := inReq g s c g.numberOfStages 0

def mergeDataOut : BitVec w := inData g s c g.numberOfStages 0

/-- The word that is taken in at a port. -/
def accepted (i : Nat) : Option (BitVec w) :=
  if c.mergeReqIn i && ack g s c 0 i then some (c.mergeDataIn i) else none

def taken : Option (BitVec w) := if mergeReqOut g s c && c.mergeAckIn then some (mergeDataOut g s c) else none

end Tree

/-! ### The slices line up -/

theorem ceil_le {x y m : Nat} (fits : x ≤ m * y) : ceil x y ≤ m := by
  have division := Nat.div_add_mod x y
  have bound := Nat.div_le_of_le_mul (Nat.mul_comm m y ▸ fits)
  unfold ceil
  split
  · next less =>
      rcases Nat.lt_or_ge (x / y) m with below | above
      · omega
      · have equal : x / y = m := Nat.le_antisymm bound above
        rw [equal] at less
        omega
  · exact bound

theorem ceil_sub_one_mul_lt {x y : Nat} (pos : 0 < x) : (ceil x y - 1) * y < x := by
  by_contra large
  have less := ceil_le (Nat.le_of_not_lt large)
  have positive := ceil_pos (y := y) pos
  omega

theorem div_pow_divisions {base : Nat} (large : 2 ≤ base) : ∀ fuel tvar, tvar ≤ fuel →
    tvar / base ^ divisions base fuel tvar ≤ 1 := by
  intro fuel
  induction fuel with
  | zero =>
      intro tvar le
      rw [Nat.le_zero.mp le, Nat.zero_div]
      exact Nat.zero_le 1
  | succ fuel ih =>
      intro tvar le
      unfold divisions
      split_ifs with more
      · rw [Nat.pow_succ', ← Nat.div_div_eq_div_mul]
        have smaller : tvar / base < tvar := Nat.div_lt_self (by omega) large
        exact ih (tvar / base) (by omega)
      · rw [pow_zero, Nat.div_one]
        omega

theorem le_pow_ceilLog (x : Nat) {base : Nat} (large : 2 ≤ base) : x ≤ base ^ ceilLog x base := by
  unfold ceilLog
  split_ifs with pos less
  · have ended := div_pow_divisions large x x (Nat.le_refl x)
    have bound : x < 2 * base ^ divisions base x x := by
      have power : 0 < base ^ divisions base x x := Nat.pow_pos (by omega)
      rwa [← Nat.div_lt_iff_lt_mul power, Nat.lt_succ_iff]
    rw [Nat.pow_succ']
    exact Nat.le_of_lt (lt_of_lt_of_le bound (Nat.mul_le_mul_right _ large))
  · exact Nat.le_of_not_lt less
  · omega

namespace Generics
variable (g : Generics)

theorem stageWidth_pos (stage : Nat) : 0 < g.stageWidth stage := by
  induction stage with
  | zero => exact g.inputs_pos
  | succ stage ih => exact ceil_pos ih

theorem degree_pos : 0 < g.muxDegree := lt_of_lt_of_le Nat.two_pos g.degree_ge

theorem stageWidth_le (stage rest : Nat) (fits : g.numberOfInputs ≤ g.muxDegree ^ (stage + rest)) :
    g.stageWidth stage ≤ g.muxDegree ^ rest := by
  induction stage generalizing rest with
  | zero => rwa [Nat.zero_add] at fits
  | succ stage ih =>
      have before := ih (rest + 1) (by rwa [Nat.add_right_comm] at fits)
      exact ceil_le (by rwa [Nat.pow_succ] at before)

theorem stageWidth_numberOfStages : g.stageWidth g.numberOfStages = 1 := by
  have log := le_pow_ceilLog g.numberOfInputs g.degree_ge
  have fits : g.numberOfInputs ≤ g.muxDegree ^ (g.numberOfStages + 0) :=
    le_trans log (Nat.pow_le_pow_right g.degree_pos (le_max_right _ _))
  have bound := g.stageWidth_le g.numberOfStages 0 fits
  have pos := g.stageWidth_pos g.numberOfStages
  rw [pow_zero] at bound
  omega

theorem leftIndex_succ (stage : Nat) : g.leftIndex (stage + 1) = g.leftIndex stage + g.stageWidth stage := by
  have pos := g.stageWidth_pos stage
  rw [leftIndex]
  omega

theorem leftIndex_mono {stage later : Nat} (before : stage < later) :
    g.leftIndex stage + g.stageWidth stage ≤ g.leftIndex later := by
  induction later with
  | zero => exact absurd before (Nat.not_lt_zero _)
  | succ later ih =>
      rw [leftIndex_succ]
      rcases Nat.lt_succ_iff_lt_or_eq.mp before with earlier | rfl
      · have := ih earlier
        omega
      · exact Nat.le_refl _

theorem vector_slice {α : Type} (slices : Nat → Nat → α) (default : α) {stage i : Nat}
    (isStage : stage ≤ g.numberOfStages) (inside : i < g.stageWidth stage) :
    g.vector slices default (g.leftIndex stage + i) = slices stage i := by
  have found : (List.range (g.numberOfStages + 1)).find? (fun k =>
      decide (g.leftIndex k ≤ g.leftIndex stage + i) && decide (g.leftIndex stage + i ≤ g.rightIndex k)) = some stage := by
    have unique : ∀ k, (decide (g.leftIndex k ≤ g.leftIndex stage + i) &&
        decide (g.leftIndex stage + i ≤ g.rightIndex k)) = true ↔ k = stage := by
      intro k
      have pos := g.stageWidth_pos k
      have posStage := g.stageWidth_pos stage
      rw [Bool.and_eq_true, decide_eq_true_eq, decide_eq_true_eq, rightIndex]
      constructor
      · rintro ⟨low, high⟩
        rcases Nat.lt_trichotomy k stage with before | same | after
        · have := g.leftIndex_mono before
          omega
        · exact same
        · have := g.leftIndex_mono after
          omega
      · rintro rfl
        omega
    apply List.find?_eq_some_iff_getElem.mpr
    refine ⟨(unique stage).mpr rfl, stage, by simpa using Nat.lt_succ_of_le isStage, by simp, fun j before => ?_⟩
    simp only [List.getElem_range, Bool.not_eq_true']
    exact Bool.eq_false_of_not_eq_true fun same => absurd ((unique j).mp same) (by omega)
  unfold vector
  rw [found]
  simp only [Nat.add_sub_cancel_left]

/-- All trees but the last one are full, and the last one is not empty. -/
theorem trees_fit (stage : Nat) :
    (g.stageWidth (stage + 1) - 1) * g.inputsPerTree stage < g.stageWidth stage ∧
      g.stageWidth stage ≤ g.stageWidth (stage + 1) * g.inputsPerTree stage := by
  have pos := g.stageWidth_pos stage
  have posNext := g.stageWidth_pos (stage + 1)
  constructor
  · have small : g.inputsPerTree stage ≤ g.muxDegree :=
      ceil_le (by rw [Nat.mul_comm]; exact le_ceil_mul _ g.degree_pos)
    exact lt_of_le_of_lt (Nat.mul_le_mul_left _ small) (ceil_sub_one_mul_lt pos)
  · rw [Nat.mul_comm]
    exact le_ceil_mul _ posNext

theorem inputsPerTree_pos (stage : Nat) : 0 < g.inputsPerTree stage := ceil_pos (g.stageWidth_pos stage)

theorem mem_treeInputs {stage output i : Nat} (isOutput : output < g.stageWidth (stage + 1)) :
    i ∈ g.treeInputs stage output ↔ i < g.stageWidth stage ∧ i / g.inputsPerTree stage = output := by
  obtain ⟨full, fits⟩ := g.trees_fit stage
  have pos := g.inputsPerTree_pos stage
  have quotient : i / g.inputsPerTree stage = output ↔
      output * g.inputsPerTree stage ≤ i ∧ i < output * g.inputsPerTree stage + g.inputsPerTree stage := by
    rw [Nat.div_eq_iff pos]
    omega
  unfold treeInputs residualInputs
  rw [quotient]
  split_ifs with notLast
  · have below : (output + 1) * g.inputsPerTree stage ≤ (g.stageWidth (stage + 1) - 1) * g.inputsPerTree stage :=
      Nat.mul_le_mul_right _ (by omega)
    rw [Nat.add_mul, Nat.one_mul] at below
    rw [List.mem_range'_1]
    omega
  · have last : output = g.stageWidth (stage + 1) - 1 := by omega
    have whole : g.stageWidth (stage + 1) * g.inputsPerTree stage =
        output * g.inputsPerTree stage + g.inputsPerTree stage := by
      rw [show g.stageWidth (stage + 1) = output + 1 by omega, Nat.add_mul, Nat.one_mul]
    rw [← last] at full ⊢
    rw [List.mem_range'_1]
    omega

theorem tree_lt {stage i : Nat} (inside : i < g.stageWidth stage) :
    i / g.inputsPerTree stage < g.stageWidth (stage + 1) := by
  obtain ⟨_, fits⟩ := g.trees_fit stage
  rw [Nat.div_lt_iff_lt_mul (g.inputsPerTree_pos stage)]
  omega

end Generics

end Ahir.Hardware.PipelinedMux
