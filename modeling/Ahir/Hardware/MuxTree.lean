import Ahir.Hardware.PipelinedMux

/-!
# The words on their way through the tree

Each word in the tree lies on the branch of its port, and the words of one port
pass it in the order in which they came.  As long as words are taken at the output,
those in the tree come closer to it.
-/

set_option autoImplicit false

namespace Ahir.Hardware.PipelinedMux
variable {w : Nat}

section Signals
variable {g : Generics} {s : State w} {c : Cycle w}

theorem queueOut_acks (q : QueueState w 2) : (queueOut q).pushAck = !q.full ∧ (queueOut q).popAck = !q.empty :=
  queueBaseWithEmptyFull_acks false 1 q _

theorem inReq_eq {stage i : Nat} (isStage : stage ≤ g.numberOfStages) (inside : i < g.stageWidth stage) :
    inReq g s c stage i = reqSlice s c stage i := g.vector_slice _ _ isStage inside

theorem inData_eq {stage i : Nat} (isStage : stage ≤ g.numberOfStages) (inside : i < g.stageWidth stage) :
    inData g s c stage i = dataSlice s c stage i := g.vector_slice _ _ isStage inside

theorem treeSelected_some {stage output i : Nat} (isStage : stage ≤ g.numberOfStages)
    (isOutput : output < g.stageWidth (stage + 1)) (picks : treeSelected g s c stage output = some i) :
    i < g.stageWidth stage ∧ i / g.inputsPerTree stage = output ∧ reqSlice s c stage i = true := by
  have member : i ∈ g.treeInputs stage output := List.mem_reverse.mp (List.mem_of_find?_eq_some picks)
  obtain ⟨inside, tree⟩ := (g.mem_treeInputs isOutput).mp member
  have requests := List.find?_some picks
  rw [inReq_eq isStage inside] at requests
  exact ⟨inside, tree, requests⟩

theorem treeSelected_isSome {stage i : Nat} (isStage : stage ≤ g.numberOfStages) (inside : i < g.stageWidth stage)
    (requests : reqSlice s c stage i = true) : ∃ j, treeSelected g s c stage (i / g.inputsPerTree stage) = some j := by
  have member : i ∈ (g.treeInputs stage (i / g.inputsPerTree stage)).reverse :=
    List.mem_reverse.mpr ((g.mem_treeInputs (g.tree_lt inside)).mpr ⟨inside, rfl⟩)
  apply Option.isSome_iff_exists.mp
  rw [treeSelected, selected, List.find?_isSome]
  exact ⟨i, member, by rw [inReq_eq isStage inside]; exact requests⟩

/-- An input is acknowledged when its mux selects it and the queue behind has room. -/
theorem ack_eq {stage i : Nat} (isStage : stage < g.numberOfStages) (inside : i < g.stageWidth stage) :
    ack g s c stage i = (decide (treeSelected g s c stage (i / g.inputsPerTree stage) = some i) &&
      (queueOut (s stage (i / g.inputsPerTree stage))).pushAck) := by
  rw [ack, g.vector_slice _ _ (Nat.le_of_lt isStage) inside, ackSlice, if_neg (Nat.ne_of_lt isStage), Bool.eq_iff_iff]
  simp only [List.any_eq_true, List.mem_range, Bool.and_eq_true, decide_eq_true_eq]
  constructor
  · rintro ⟨output, isOutput, ⟨picks, room⟩, _⟩
    obtain ⟨_, rfl, _⟩ := treeSelected_some (Nat.le_of_lt isStage) isOutput picks
    exact ⟨picks, room⟩
  · rintro ⟨picks, room⟩
    obtain ⟨_, _, requests⟩ := treeSelected_some (Nat.le_of_lt isStage) (g.tree_lt inside) picks
    exact ⟨_, g.tree_lt inside, ⟨picks, room⟩, by rw [inReq_eq (Nat.le_of_lt isStage) inside]; exact requests⟩

theorem ack_last : ack g s c g.numberOfStages 0 = c.mergeAckIn := by
  have inside : 0 < g.stageWidth g.numberOfStages := g.stageWidth_pos _
  have slice := g.vector_slice (ackSlice g s c) false (Nat.le_refl g.numberOfStages) inside
  rw [ack, slice, ackSlice, if_pos rfl]

theorem merge_eq : mergeReqOut g s c = (queueOut (s (g.numberOfStages - 1) 0)).popAck ∧
    mergeDataOut g s c = (queueOut (s (g.numberOfStages - 1) 0)).dataOut := by
  have inside : 0 < g.stageWidth g.numberOfStages := g.stageWidth_pos _
  obtain ⟨stage, last⟩ : ∃ stage, g.numberOfStages = stage + 1 :=
    Nat.exists_eq_succ_of_ne_zero (Nat.pos_iff_ne_zero.mp (lt_of_lt_of_le Nat.one_pos (le_max_left _ _)))
  rw [mergeReqOut, mergeDataOut, inReq_eq (Nat.le_refl _) inside, inData_eq (Nat.le_refl _) inside, last,
    Nat.add_sub_cancel]
  exact ⟨rfl, rfl⟩

variable (g s c) in
def moved (stage i : Nat) : Option (BitVec w) :=
  if reqSlice s c stage i && ack g s c stage i then some (dataSlice s c stage i) else none

theorem moved_succ (stage output : Nat) :
    moved g s c (stage + 1) output = (queueBase 2).popped (s stage output) (request g s c stage output) := by
  unfold moved Buffer.popped
  rw [Bool.and_comm]
  rfl

theorem moved_last : moved g s c g.numberOfStages 0 = taken g s c := by
  have inside : 0 < g.stageWidth g.numberOfStages := g.stageWidth_pos _
  rw [moved, taken, ack_last, mergeReqOut, mergeDataOut, inReq_eq (Nat.le_refl _) inside, inData_eq (Nat.le_refl _) inside]

theorem moved_some {stage i : Nat} {x : BitVec w} (isStage : stage < g.numberOfStages) (inside : i < g.stageWidth stage) :
    moved g s c stage i = some x ↔ treeSelected g s c stage (i / g.inputsPerTree stage) = some i ∧
      (queueOut (s stage (i / g.inputsPerTree stage))).pushAck = true ∧ dataSlice s c stage i = x := by
  unfold moved
  rw [ack_eq isStage inside]
  simp only [Option.ite_none_right_eq_some, Bool.and_eq_true, decide_eq_true_eq, Option.some.injEq]
  constructor
  · rintro ⟨⟨_, picks, room⟩, same⟩
    exact ⟨picks, room, same⟩
  · rintro ⟨picks, room, same⟩
    exact ⟨⟨(treeSelected_some (Nat.le_of_lt isStage) (g.tree_lt inside) picks).2.2, picks, room⟩, same⟩

/-- A queue takes in what one of the inputs of its mux hands on. -/
theorem pushed_some {stage output : Nat} {x : BitVec w} (isStage : stage < g.numberOfStages)
    (isOutput : output < g.stageWidth (stage + 1)) :
    (queueBase 2).pushed (s stage output) (request g s c stage output) = some x ↔
      ∃ i, i < g.stageWidth stage ∧ i / g.inputsPerTree stage = output ∧ moved g s c stage i = some x := by
  have picked : (request g s c stage output).pushReq = true ↔ ∃ i, treeSelected g s c stage output = some i := by
    rw [← Option.isSome_iff_exists, treeSelected, selected, List.find?_isSome]
    simp only [request, List.any_eq_true, List.mem_reverse]
  unfold Buffer.pushed
  rw [Option.ite_none_right_eq_some, Bool.and_eq_true, picked, Option.some.injEq]
  constructor
  · rintro ⟨⟨⟨i, picks⟩, room⟩, same⟩
    obtain ⟨inside, rfl, _⟩ := treeSelected_some (Nat.le_of_lt isStage) isOutput picks
    refine ⟨i, inside, rfl, (moved_some isStage inside).mpr ⟨picks, room, ?_⟩⟩
    rw [← same, request, picks]
    exact (inData_eq (Nat.le_of_lt isStage) inside).symm
  · rintro ⟨i, inside, rfl, move⟩
    obtain ⟨picks, room, same⟩ := (moved_some isStage inside).mp move
    refine ⟨⟨⟨i, picks⟩, room⟩, ?_⟩
    rw [request, picks, ← same]
    exact inData_eq (Nat.le_of_lt isStage) inside

end Signals

/-! ### Branches -/

/-- The input of a stage at which the words of a port arrive. -/
def Generics.branch (g : Generics) : Nat → Nat → Nat
  | 0, i => i
  | stage + 1, i => g.branch stage i / g.inputsPerTree stage

theorem Generics.branch_lt (g : Generics) {i : Nat} (isPort : i < g.numberOfInputs) (stage : Nat) :
    g.branch stage i < g.stageWidth stage := by
  induction stage with
  | zero => exact isPort
  | succ stage ih => exact g.tree_lt ih

/-- The queues hold the words `q`, each on the branch of its port. -/
structure Holds (g : Generics) (port : BitVec w → Nat) (s : State w) (q : Nat → Nat → List (BitVec w)) : Prop where
  held : ∀ stage output, stage < g.numberOfStages → output < g.stageWidth (stage + 1) →
    QueueHolds (s stage output) (q stage output)
  homed : ∀ stage output, stage < g.numberOfStages → output < g.stageWidth (stage + 1) → ∀ x ∈ q stage output,
    port x < g.numberOfInputs ∧ g.branch (stage + 1) (port x) = output

/-- The words of a port in the first stages, the oldest first. -/
def row (g : Generics) (port : BitVec w → Nat) (q : Nat → Nat → List (BitVec w)) (i : Nat) : Nat → List (BitVec w)
  | 0 => []
  | stages + 1 => (q stages (g.branch (stages + 1) i)).filter (fun x => decide (port x = i)) ++ row g port q i stages

section Step
variable {g : Generics} {port : BitVec w → Nat} {s : State w} {c : Cycle w} {q : Nat → Nat → List (BitVec w)}

theorem holds_reset : Holds g port (reset g s c) fun _ _ => [] :=
  ⟨fun _ _ _ _ => (queueBaseWithEmptyFull_fifo false false 2).reset _ _, fun _ _ _ _ _ member => absurd member List.not_mem_nil⟩

theorem Holds.moved_homed (holds : Holds g port s q) (fits : ∀ i < g.numberOfInputs, port (c.mergeDataIn i) = i) :
    ∀ {stage i : Nat} {x : BitVec w}, stage ≤ g.numberOfStages → i < g.stageWidth stage →
      moved g s c stage i = some x → port x < g.numberOfInputs ∧ g.branch stage (port x) = i := by
  intro stage
  induction stage with
  | zero =>
      intro i x _ inside move
      obtain ⟨_, same⟩ := Option.ite_none_right_eq_some.mp move
      obtain rfl := Option.some.inj same
      have home := fits i inside
      exact ⟨by rw [dataSlice, home]; exact inside, home⟩
  | succ stage ih =>
      intro output x isStage isOutput move
      rw [moved_succ] at move
      obtain ⟨q', _, law⟩ := (queueBaseWithEmptyFull_fifo false false 2).step _ (request g s c stage output) _
        (holds.held stage output isStage isOutput)
      have member : x ∈ q stage output ++ ((queueBase 2).pushed (s stage output) (request g s c stage output)).toList := by
        change x ∈ q stage output ++ ((queueBaseWithEmptyFull false false 2).pushed _ _).toList
        rw [law]
        exact List.mem_append_left _ (Option.mem_toList.mpr move)
      rcases List.mem_append.mp member with member | member
      · exact holds.homed stage output isStage isOutput x member
      · obtain ⟨i, inside, rfl, before⟩ := (pushed_some isStage isOutput).mp (Option.mem_toList.mp member)
        obtain ⟨isPort, home⟩ := ih (Nat.le_of_lt isStage) inside before
        exact ⟨isPort, by rw [Generics.branch, home]⟩

theorem Holds.queues (holds : Holds g port s q) (fits : ∀ i < g.numberOfInputs, port (c.mergeDataIn i) = i) :
    ∃ q', Holds g port (next g s c) q' ∧ ∀ stage output, stage < g.numberOfStages → output < g.stageWidth (stage + 1) →
      q stage output ++ ((queueBase 2).pushed (s stage output) (request g s c stage output)).toList =
        (moved g s c (stage + 1) output).toList ++ q' stage output := by
  have step : ∀ stage output, ∃ q', stage < g.numberOfStages → output < g.stageWidth (stage + 1) →
      QueueHolds (next g s c stage output) q' ∧
      q stage output ++ ((queueBase 2).pushed (s stage output) (request g s c stage output)).toList =
        (moved g s c (stage + 1) output).toList ++ q' := by
    intro stage output
    by_cases inside : stage < g.numberOfStages ∧ output < g.stageWidth (stage + 1)
    · obtain ⟨q', held, law⟩ := (queueBaseWithEmptyFull_fifo false false 2).step _ (request g s c stage output) _
        (holds.held stage output inside.1 inside.2)
      rw [moved_succ]
      exact ⟨q', fun _ _ => ⟨held, law⟩⟩
    · exact ⟨[], fun isStage isOutput => absurd ⟨isStage, isOutput⟩ inside⟩
  choose q' next using step
  refine ⟨q', ⟨fun stage output isStage isOutput => (next stage output isStage isOutput).1, ?_⟩,
    fun stage output isStage isOutput => (next stage output isStage isOutput).2⟩
  intro stage output isStage isOutput x member
  have member : x ∈ q stage output ++ ((queueBase 2).pushed (s stage output) (request g s c stage output)).toList := by
    rw [(next stage output isStage isOutput).2]
    exact List.mem_append_right _ member
  rcases List.mem_append.mp member with member | member
  · exact holds.homed stage output isStage isOutput x member
  · obtain ⟨i, inside, rfl, before⟩ := (pushed_some isStage isOutput).mp (Option.mem_toList.mp member)
    obtain ⟨isPort, home⟩ := holds.moved_homed fits (Nat.le_of_lt isStage) inside before
    exact ⟨isPort, by rw [Generics.branch, home]⟩

/-- On the branch of a port, what a queue takes in of its words is what the queue before hands on of them. -/
theorem Holds.pushed_filter (holds : Holds g port s q) (fits : ∀ i < g.numberOfInputs, port (c.mergeDataIn i) = i)
    {stage i : Nat} (isStage : stage < g.numberOfStages) (isPort : i < g.numberOfInputs) :
    ((queueBase 2).pushed (s stage (g.branch (stage + 1) i)) (request g s c stage (g.branch (stage + 1) i))).toList.filter
        (fun x => decide (port x = i)) =
      (moved g s c stage (g.branch stage i)).toList.filter fun x => decide (port x = i) := by
  have isOutput := g.branch_lt isPort (stage + 1)
  have inside := g.branch_lt isPort stage
  have same : ∀ x, port x = i →
      ((queueBase 2).pushed (s stage (g.branch (stage + 1) i)) (request g s c stage (g.branch (stage + 1) i)) = some x ↔
        moved g s c stage (g.branch stage i) = some x) := by
    intro x home
    rw [pushed_some isStage isOutput]
    constructor
    · rintro ⟨j, isInput, _, move⟩
      obtain ⟨_, branch⟩ := holds.moved_homed fits (Nat.le_of_lt isStage) isInput move
      rw [home] at branch
      rw [branch]
      exact move
    · intro move
      exact ⟨_, inside, rfl, move⟩
  generalize (queueBase 2).pushed _ _ = a at same
  generalize moved g s c stage (g.branch stage i) = b at same
  cases a with
  | none =>
      cases b with
      | none => rfl
      | some y =>
          by_cases home : port y = i
          · exact absurd ((same y home).mpr rfl) (by simp)
          · simp [home]
  | some x =>
      by_cases home : port x = i
      · rw [(same x home).mp rfl]
      · cases b with
        | none => simp [home]
        | some y =>
            by_cases homeY : port y = i
            · obtain rfl := Option.some.inj ((same y homeY).mpr rfl)
              exact absurd homeY home
            · simp [home, homeY]

theorem Holds.rows (holds : Holds g port s q) (fits : ∀ i < g.numberOfInputs, port (c.mergeDataIn i) = i)
    {q' : Nat → Nat → List (BitVec w)}
    (law : ∀ stage output, stage < g.numberOfStages → output < g.stageWidth (stage + 1) →
      q stage output ++ ((queueBase 2).pushed (s stage output) (request g s c stage output)).toList =
        (moved g s c (stage + 1) output).toList ++ q' stage output)
    {i : Nat} (isPort : i < g.numberOfInputs) :
    row g port q i g.numberOfStages ++ (accepted g s c i).toList =
      (taken g s c).toList.filter (fun x => decide (port x = i)) ++ row g port q' i g.numberOfStages := by
  have come : (moved g s c 0 i).toList.filter (fun x => decide (port x = i)) = (accepted g s c i).toList := by
    have home := fits i isPort
    change ((accepted g s c i).toList.filter fun x => decide (port x = i)) = _
    unfold accepted
    split_ifs <;> simp [home]
  have rows : ∀ stages ≤ g.numberOfStages, row g port q i stages ++ (accepted g s c i).toList =
      (moved g s c stages (g.branch stages i)).toList.filter (fun x => decide (port x = i)) ++ row g port q' i stages := by
    intro stages
    induction stages with
    | zero =>
        intro _
        rw [row, row, List.nil_append, List.append_nil]
        exact come.symm
    | succ stages ih =>
        intro isStage
        have queue := congrArg (List.filter fun x => decide (port x = i))
          (law stages (g.branch (stages + 1) i) isStage (g.branch_lt isPort (stages + 1)))
        rw [List.filter_append, List.filter_append, holds.pushed_filter fits isStage isPort] at queue
        rw [row, row, List.append_assoc, ih (Nat.le_of_lt isStage), ← List.append_assoc, queue, List.append_assoc]
  have last : g.branch g.numberOfStages i = 0 := by
    have := g.branch_lt isPort g.numberOfStages
    rw [g.stageWidth_numberOfStages] at this
    omega
  have whole := rows g.numberOfStages (Nat.le_refl _)
  rwa [last, moved_last] at whole

end Step

/-! ### Progress -/

def stageCount (g : Generics) (q : Nat → Nat → List (BitVec w)) (stage : Nat) : Nat :=
  ∑ output ∈ Finset.range (g.stageWidth (stage + 1)), (q stage output).length

def movedCount (g : Generics) (s : State w) (c : Cycle w) (stage : Nat) : Nat :=
  ∑ i ∈ Finset.range (g.stageWidth stage), (moved g s c stage i).toList.length

def work (g : Generics) (q : Nat → Nat → List (BitVec w)) : Nat :=
  ∑ stages ∈ Finset.range g.numberOfStages, ∑ stage ∈ Finset.range (stages + 1), stageCount g q stage

section Progress
variable {g : Generics} {port : BitVec w → Nat} {s : State w} {c : Cycle w} {q q' : Nat → Nat → List (BitVec w)}

/-- What the inputs of one mux hand on is what its queue takes in. -/
theorem pushed_count {stage output : Nat} (isStage : stage < g.numberOfStages)
    (isOutput : output < g.stageWidth (stage + 1)) :
    ∑ i ∈ Finset.range (g.stageWidth stage) with i / g.inputsPerTree stage = output,
        (moved g s c stage i).toList.length =
      ((queueBase 2).pushed (s stage output) (request g s c stage output)).toList.length := by
  cases pushes : (queueBase 2).pushed (s stage output) (request g s c stage output) with
  | none =>
      apply Finset.sum_eq_zero
      intro i member
      obtain ⟨inside, tree⟩ := Finset.mem_filter.mp member
      cases move : moved g s c stage i with
      | none => rfl
      | some x =>
          have := (pushed_some isStage isOutput).mpr ⟨i, Finset.mem_range.mp inside, tree, move⟩
          rw [pushes] at this
          cases this
  | some x =>
      obtain ⟨i, inside, tree, move⟩ := (pushed_some isStage isOutput).mp pushes
      rw [Finset.sum_eq_single_of_mem i (Finset.mem_filter.mpr ⟨Finset.mem_range.mpr inside, tree⟩)]
      · rw [move]
      · intro j member other
        obtain ⟨insideJ, treeJ⟩ := Finset.mem_filter.mp member
        cases moveJ : moved g s c stage j with
        | none => rfl
        | some y =>
            have picks := ((moved_some isStage inside).mp move).1
            have picksJ := ((moved_some isStage (Finset.mem_range.mp insideJ)).mp moveJ).1
            rw [tree] at picks
            rw [treeJ, picks] at picksJ
            exact absurd (Option.some.inj picksJ).symm other

theorem stageCount_next
    (law : ∀ stage output, stage < g.numberOfStages → output < g.stageWidth (stage + 1) →
      q stage output ++ ((queueBase 2).pushed (s stage output) (request g s c stage output)).toList =
        (moved g s c (stage + 1) output).toList ++ q' stage output)
    {stage : Nat} (isStage : stage < g.numberOfStages) :
    stageCount g q' stage + movedCount g s c (stage + 1) = stageCount g q stage + movedCount g s c stage := by
  have trees : movedCount g s c stage = ∑ output ∈ Finset.range (g.stageWidth (stage + 1)),
      ((queueBase 2).pushed (s stage output) (request g s c stage output)).toList.length := by
    unfold movedCount
    rw [← Finset.sum_fiberwise_of_maps_to (g := fun i => i / g.inputsPerTree stage)
      (t := Finset.range (g.stageWidth (stage + 1)))
      fun i member => Finset.mem_range.mpr (g.tree_lt (Finset.mem_range.mp member))]
    exact Finset.sum_congr rfl fun output member => pushed_count isStage (Finset.mem_range.mp member)
  rw [trees, stageCount, stageCount, movedCount, ← Finset.sum_add_distrib, ← Finset.sum_add_distrib]
  refine Finset.sum_congr rfl fun output member => ?_
  have lengths := congrArg List.length (law stage output isStage (Finset.mem_range.mp member))
  rw [List.length_append, List.length_append] at lengths
  omega

theorem work_next
    (law : ∀ stage output, stage < g.numberOfStages → output < g.stageWidth (stage + 1) →
      q stage output ++ ((queueBase 2).pushed (s stage output) (request g s c stage output)).toList =
        (moved g s c (stage + 1) output).toList ++ q' stage output) :
    work g q' + ∑ stage ∈ Finset.range g.numberOfStages, movedCount g s c (stage + 1) =
      work g q + g.numberOfStages * movedCount g s c 0 := by
  have upTo : ∀ stages ≤ g.numberOfStages, ∑ stage ∈ Finset.range stages, stageCount g q' stage + movedCount g s c stages =
      ∑ stage ∈ Finset.range stages, stageCount g q stage + movedCount g s c 0 := by
    intro stages
    induction stages with
    | zero => exact fun _ => rfl
    | succ stages ih =>
        intro isStage
        have before := ih (Nat.le_of_lt isStage)
        have here := stageCount_next law isStage
        rw [Finset.sum_range_succ, Finset.sum_range_succ]
        omega
  rw [work, work, ← Finset.sum_add_distrib]
  calc ∑ stages ∈ Finset.range g.numberOfStages,
        (∑ stage ∈ Finset.range (stages + 1), stageCount g q' stage + movedCount g s c (stages + 1))
      = ∑ stages ∈ Finset.range g.numberOfStages,
        (∑ stage ∈ Finset.range (stages + 1), stageCount g q stage + movedCount g s c 0) :=
        Finset.sum_congr rfl fun stages member => upTo (stages + 1) (Finset.mem_range.mp member)
    _ = _ := by rw [Finset.sum_add_distrib, Finset.sum_const, Finset.card_range, smul_eq_mul]

theorem movedCount_pos {stage i : Nat} {x : BitVec w} (inside : i < g.stageWidth stage)
    (move : moved g s c stage i = some x) : 0 < movedCount g s c stage := by
  apply Finset.sum_pos'
  · exact fun _ _ => Nat.zero_le _
  · exact ⟨i, Finset.mem_range.mpr inside, by rw [move]; exact Nat.one_pos⟩

theorem Holds.moves_into_empty (holds : Holds g port s q) {stage output : Nat} (isStage : stage + 1 < g.numberOfStages)
    (isOutput : output < g.stageWidth (stage + 1)) (waits : q stage output ≠ [])
    (empty : ∀ output < g.stageWidth (stage + 2), q (stage + 1) output = []) :
    0 < movedCount g s c (stage + 1) := by
  have spec := (holds.held stage output (by omega) isOutput).spec
  have requests : reqSlice s c (stage + 1) output = true := by
    rw [reqSlice, (queueOut_acks _).2, Bool.not_eq_true', ← Bool.not_eq_true, spec.2.1]
    exact mt List.length_eq_zero_iff.mp waits
  obtain ⟨j, picks⟩ := treeSelected_isSome (Nat.le_of_lt isStage) isOutput requests
  have isTree := g.tree_lt isOutput
  obtain ⟨inside, tree, _⟩ := treeSelected_some (Nat.le_of_lt isStage) isTree picks
  have behind := (holds.held (stage + 1) (output / g.inputsPerTree (stage + 1)) isStage isTree).spec
  have room : (queueOut (s (stage + 1) (output / g.inputsPerTree (stage + 1)))).pushAck = true := by
    rw [(queueOut_acks _).1, Bool.not_eq_true', ← Bool.not_eq_true, behind.2.2, empty _ isTree]
    exact Nat.zero_ne_add_one 1
  rw [← tree] at picks room
  exact movedCount_pos inside ((moved_some isStage inside).mpr ⟨picks, room, rfl⟩)

/-- While there is a word in the tree, one moves, or one stands at the output. -/
theorem Holds.progress (holds : Holds g port s q) (waits : 0 < work g q) :
    mergeReqOut g s c = true ∨ ∃ stage < g.numberOfStages, 0 < movedCount g s c (stage + 1) := by
  have some_stage : ∃ stage, stage < g.numberOfStages ∧ 0 < stageCount g q stage := by
    by_contra none
    have zero : work g q = 0 := Finset.sum_eq_zero fun stages isStages => Finset.sum_eq_zero fun stage isStage => by
      rw [Finset.mem_range] at isStages isStage
      by_contra pos
      exact none ⟨stage, by omega, by omega⟩
    omega
  obtain ⟨stage, ⟨isStage, occupied⟩, last⟩ : ∃ stage, (stage < g.numberOfStages ∧ 0 < stageCount g q stage) ∧
      ∀ later, later < g.numberOfStages → 0 < stageCount g q later → later ≤ stage := by
    classical
    obtain ⟨first, isStage, occupied⟩ := some_stage
    let occupiedStage : Nat → Prop := fun stage => stage < g.numberOfStages ∧ 0 < stageCount g q stage
    have greatest : occupiedStage (Nat.findGreatest occupiedStage g.numberOfStages) :=
      Nat.findGreatest_spec (Nat.le_of_lt isStage) ⟨isStage, occupied⟩
    refine ⟨_, greatest, fun later isStage occupied => ?_⟩
    have here : occupiedStage later := ⟨isStage, occupied⟩
    exact Nat.le_findGreatest (Nat.le_of_lt isStage) here
  obtain ⟨output, member, count⟩ := Finset.exists_ne_zero_of_sum_ne_zero (Nat.pos_iff_ne_zero.mp occupied)
  have isOutput := Finset.mem_range.mp member
  have waiting : q stage output ≠ [] := mt List.length_eq_zero_iff.mpr count
  by_cases isLast : stage + 1 = g.numberOfStages
  · left
    have single : g.stageWidth (stage + 1) = 1 := isLast ▸ g.stageWidth_numberOfStages
    have first : output = 0 := by omega
    subst first
    have inside : 0 < g.stageWidth g.numberOfStages := g.stageWidth_pos _
    rw [mergeReqOut, inReq_eq (Nat.le_refl _) inside, ← isLast, reqSlice, (queueOut_acks _).2, Bool.not_eq_true',
      ← Bool.not_eq_true, (holds.held stage 0 isStage isOutput).spec.2.1]
    exact mt List.length_eq_zero_iff.mp waiting
  · right
    refine ⟨stage, isStage, holds.moves_into_empty (by omega) isOutput waiting fun later isLater => ?_⟩
    by_contra occupied
    have pos : 0 < stageCount g q (stage + 1) := by
      apply Finset.sum_pos'
      · exact fun _ _ => Nat.zero_le _
      · refine ⟨later, Finset.mem_range.mpr isLater, ?_⟩
        exact List.length_pos_iff.mpr occupied
    have := last (stage + 1) (by omega) pos
    omega

theorem row_eq_nil (empty : work g q = 0) {i : Nat} (isPort : i < g.numberOfInputs) :
    row g port q i g.numberOfStages = [] := by
  have queues : ∀ stage < g.numberOfStages, ∀ output < g.stageWidth (stage + 1), q stage output = [] := by
    intro stage isStage output isOutput
    have whole := Finset.sum_eq_zero_iff.mp empty stage (Finset.mem_range.mpr isStage)
    have count := Finset.sum_eq_zero_iff.mp whole stage (Finset.mem_range.mpr (Nat.lt_succ_self stage))
    exact List.length_eq_zero_iff.mp (Finset.sum_eq_zero_iff.mp count output (Finset.mem_range.mpr isOutput))
  have rows : ∀ stages ≤ g.numberOfStages, row g port q i stages = [] := by
    intro stages
    induction stages with
    | zero => exact fun _ => rfl
    | succ stages ih =>
        intro isStage
        rw [row, ih (Nat.le_of_lt isStage), queues stages isStage _ (g.branch_lt isPort _)]
        rfl
  exact rows _ (Nat.le_refl _)

/-- The words that leave a queue of the tree in a cycle. -/
def passes (g : Generics) (s : State w) (c : Cycle w) : Nat :=
  ∑ stage ∈ Finset.range g.numberOfStages, movedCount g s c (stage + 1)

/-- When no port has a request, each word that moves is work done. -/
theorem work_of_quiet
    (law : ∀ stage output, stage < g.numberOfStages → output < g.stageWidth (stage + 1) →
      q stage output ++ ((queueBase 2).pushed (s stage output) (request g s c stage output)).toList =
        (moved g s c (stage + 1) output).toList ++ q' stage output)
    (quiet : ∀ i < g.numberOfInputs, c.mergeReqIn i = false) : work g q' + passes g s c = work g q := by
  have none : movedCount g s c 0 = 0 := by
    refine Finset.sum_eq_zero fun i member => ?_
    have requests : reqSlice s c 0 i = false := quiet i (Finset.mem_range.mp member)
    rw [moved, requests, Bool.false_and, if_neg Bool.false_ne_true]
    rfl
  have next := work_next law
  rwa [none, Nat.mul_zero, Nat.add_zero] at next

theorem taken_le_passes : (taken g s c).toList.length ≤ passes g s c := by
  obtain ⟨stage, last⟩ : ∃ stage, g.numberOfStages = stage + 1 :=
    Nat.exists_eq_succ_of_ne_zero (Nat.pos_iff_ne_zero.mp (lt_of_lt_of_le Nat.one_pos (le_max_left _ _)))
  have count : movedCount g s c (stage + 1) = (taken g s c).toList.length := by
    rw [← moved_last, movedCount, last, ← last, g.stageWidth_numberOfStages, Finset.sum_range_one]
  rw [← count]
  exact Finset.single_le_sum (f := fun stage => movedCount g s c (stage + 1)) (fun _ _ => Nat.zero_le _)
    (Finset.mem_range.mpr (by omega))

/-- While there is a word in the tree and the output is taken, a word moves. -/
theorem Holds.passes_pos (holds : Holds g port s q) (waits : 0 < work g q)
    (takes : mergeReqOut g s c = true → 0 < (taken g s c).toList.length) : 0 < passes g s c := by
  rcases holds.progress (c := c) waits with stands | ⟨stage, isStage, moves⟩
  · exact lt_of_lt_of_le (takes stands) taken_le_passes
  · exact Finset.sum_pos' (fun _ _ => Nat.zero_le _) ⟨stage, Finset.mem_range.mpr isStage, moves⟩

end Progress

end Ahir.Hardware.PipelinedMux
