import Ahir.Graph.Walk
import Ahir.Run.Loop
import Ahir.ControlPath.CheckStructure

/-!
# Declared fork blocks

A fork block is declared by its elements and by the fork points and join points
between them.  `Update_Predecessor_Successor_Links` then drops the isolated
transitions, forks from the entry what was forked from nothing and joins at the
exit what was joined at nothing, unless an element says that it is led to, or
leads on, from the outside.
-/

set_option autoImplicit false

namespace Ahir.ControlPath.CPForkBlock
open Ahir.Graph

section Points
variable {E : Type} [DecidableEq E] (B : CPForkBlock E) (below : E → E → Bool)

def addSuccessor (x y : E) : CPForkBlock E :=
  { B with successors := fun e =>
      if e = x then (if y ∈ B.successors x then B.successors x else B.successors x ++ [y])
      else B.successors e }

/-- `Add_Predecessor`, which pushes without regard to its test. -/
def addPredecessor (y x : E) : CPForkBlock E :=
  { B with predecessors := fun e => if e = y then B.predecessors y ++ [x] else B.predecessors e }

/-- `_fork_map[fp].insert(fre)`. -/
def recordFork (fp fre : E) : CPForkBlock E :=
  { B with forkMap := fun e => if e = fp then insertPointer below fre (B.forkMap fp) else B.forkMap e }

/-- `_join_map[jp].insert(jre)`. -/
def recordJoin (jp jre : E) : CPForkBlock E :=
  { B with joinMap := fun e => if e = jp then insertPointer below jre (B.joinMap jp) else B.joinMap e }

/-- `Add_Fork_Point(fp, fre)`. -/
def addForkPoint (fp fre : E) : CPForkBlock E :=
  if fre ∈ B.forkMap fp then B
  else
    let B := (B.recordFork below fp fre).addSuccessor fp fre
    if B.isTransition fre then
      -- `Add_Join_Point(fre, fp)`; its call back finds the pair in the fork map.
      if fp ∈ B.joinMap fre then B else (B.recordJoin below fre fp).addPredecessor fre fp
    else B.addPredecessor fre fp

/-- `Add_Join_Point(jp, jre)`. -/
def addJoinPoint (jp jre : E) : CPForkBlock E :=
  if jre ∈ B.joinMap jp then B
  else
    let B := (B.recordJoin below jp jre).addPredecessor jp jre
    if B.isTransition jre then
      -- `Add_Fork_Point(jre, jp)`; its call back finds the pair in the join map.
      if jp ∈ B.forkMap jre then B else (B.recordFork below jre jp).addSuccessor jre jp
    else B.addSuccessor jre jp

/-- The lists and the maps of the block all tell of the same arcs, each of them once. -/
structure InStep (B : CPForkBlock E) (arcs : E → E → Prop) : Prop where
  vertices : B.vertices.Nodup
  entry_transition : B.isTransition B.entry = true
  exit_transition : B.isTransition B.exit = true
  inside : ∀ x y, arcs x y → x ∈ B.vertices ∧ y ∈ B.vertices
  successors : ∀ x y, y ∈ B.successors x ↔ arcs x y
  predecessors : ∀ x y, x ∈ B.predecessors y ↔ arcs x y
  successors_nodup : ∀ x, (B.successors x).Nodup
  predecessors_nodup : ∀ x, (B.predecessors x).Nodup
  forked : ∀ x y, y ∈ B.forkMap x ↔ B.isTransition x = true ∧ arcs x y
  joined : ∀ x y, x ∈ B.joinMap y ↔ B.isTransition y = true ∧ arcs x y

def AlsoArc (arcs : E → E → Prop) (tail head : E) (x y : E) : Prop := arcs x y ∨ x = tail ∧ y = head

variable {B below}

namespace InStep
variable {arcs : E → E → Prop}

omit [DecidableEq E] in
theorem congr {arcs' : E → E → Prop} (inStep : B.InStep arcs) (same : ∀ x y, arcs x y ↔ arcs' x y) :
    B.InStep arcs' := by
  obtain rfl : arcs = arcs' := funext₂ fun x y => propext (same x y)
  exact inStep

theorem linked (inStep : B.InStep arcs) : B.Linked := by
  refine ⟨fun x _ y isNext => (inStep.inside x y ((inStep.successors x y).mp isNext)).2,
    fun y _ x isPrev => (inStep.inside x y ((inStep.predecessors x y).mp isPrev)).1, fun x _ y _ => ?_⟩
  rw [(inStep.successors_nodup x).count, (inStep.predecessors_nodup y).count]
  exact if_congr ((inStep.successors x y).trans (inStep.predecessors x y).symm) rfl rfl

omit [DecidableEq E] in
theorem single (inStep : B.InStep arcs) : B.Single :=
  ⟨inStep.vertices, fun x _ => inStep.successors_nodup x, fun x _ => inStep.predecessors_nodup x⟩

omit [DecidableEq E] in
theorem arc_iff (inStep : B.InStep arcs) {x y : E} : B.Arc x y ↔ arcs x y :=
  ⟨fun arc => (inStep.successors x y).mp arc.2,
    fun arc => ⟨(inStep.inside x y arc).1, (inStep.successors x y).mpr arc⟩⟩

end InStep

structure SameElements (B B' : CPForkBlock E) : Prop where
  entry : B'.entry = B.entry
  exit : B'.exit = B.exit
  elements : B'.elements = B.elements
  isTransition : B'.isTransition = B.isTransition

omit [DecidableEq E] in
theorem SameElements.refl (B : CPForkBlock E) : SameElements B B := ⟨rfl, rfl, rfl, rfl⟩

omit [DecidableEq E] in
theorem SameElements.trans {B' B'' : CPForkBlock E} (first : SameElements B B') (second : SameElements B' B'') :
    SameElements B B'' :=
  ⟨second.entry.trans first.entry, second.exit.trans first.exit, second.elements.trans first.elements,
    second.isTransition.trans first.isTransition⟩

omit [DecidableEq E] in
theorem SameElements.vertices {B' : CPForkBlock E} (same : SameElements B B') : B'.vertices = B.vertices := by
  rw [CPForkBlock.vertices, same.entry, same.exit, same.elements]
  rfl

/-- The arc from `x` to `y` is written down wherever it belongs. -/
structure Connects (B B' : CPForkBlock E) (x y : E) : Prop where
  same : SameElements B B'
  successors : B'.successors = fun e => if e = x then B.successors x ++ [y] else B.successors e
  predecessors : B'.predecessors = fun e => if e = y then B.predecessors y ++ [x] else B.predecessors e
  forked : ∀ a b, b ∈ B'.forkMap a ↔ b ∈ B.forkMap a ∨ B.isTransition x = true ∧ a = x ∧ b = y
  joined : ∀ a b, a ∈ B'.joinMap b ↔ a ∈ B.joinMap b ∨ B.isTransition y = true ∧ a = x ∧ b = y

theorem InStep.connects {arcs : E → E → Prop} {B' : CPForkBlock E} {x y : E} (inStep : B.InStep arcs)
    (new : ¬ arcs x y) (insideX : x ∈ B.vertices) (insideY : y ∈ B.vertices) (connects : Connects B B' x y) :
    B'.InStep (AlsoArc arcs x y) := by
  have vertices := connects.same.vertices
  have newNext : y ∉ B.successors x := fun isNext => new ((inStep.successors x y).mp isNext)
  have newPrev : x ∉ B.predecessors y := fun isPrev => new ((inStep.predecessors x y).mp isPrev)
  refine ⟨vertices ▸ inStep.vertices, ?_, ?_, fun a b arc => ?_, fun a b => ?_, fun a b => ?_, fun a => ?_,
    fun a => ?_, fun a b => ?_, fun a b => ?_⟩
  · rw [connects.same.isTransition, connects.same.entry]
    exact inStep.entry_transition
  · rw [connects.same.isTransition, connects.same.exit]
    exact inStep.exit_transition
  · rw [vertices]
    rcases arc with arc | ⟨rfl, rfl⟩
    · exact inStep.inside a b arc
    · exact ⟨insideX, insideY⟩
  · rw [connects.successors, AlsoArc, ← inStep.successors]
    dsimp only
    split_ifs with isX
    · rw [isX, List.mem_append, List.mem_singleton]
      simp
    · simp [isX]
  · rw [connects.predecessors, AlsoArc, ← inStep.predecessors]
    dsimp only
    split_ifs with isY
    · rw [isY, List.mem_append, List.mem_singleton]
      simp
    · simp [isY]
  · rw [connects.successors]
    dsimp only
    split_ifs
    · exact List.nodup_append_comm.mp (List.nodup_cons.mpr ⟨newNext, inStep.successors_nodup x⟩)
    · exact inStep.successors_nodup a
  · rw [connects.predecessors]
    dsimp only
    split_ifs
    · exact List.nodup_append_comm.mp (List.nodup_cons.mpr ⟨newPrev, inStep.predecessors_nodup y⟩)
    · exact inStep.predecessors_nodup a
  · rw [connects.forked, inStep.forked, connects.same.isTransition, AlsoArc]
    constructor
    · rintro (⟨kind, arc⟩ | ⟨kind, rfl, rfl⟩)
      · exact ⟨kind, Or.inl arc⟩
      · exact ⟨kind, Or.inr ⟨rfl, rfl⟩⟩
    · rintro ⟨kind, arc | ⟨rfl, rfl⟩⟩
      · exact Or.inl ⟨kind, arc⟩
      · exact Or.inr ⟨kind, rfl, rfl⟩
  · rw [connects.joined, inStep.joined, connects.same.isTransition, AlsoArc]
    constructor
    · rintro (⟨kind, arc⟩ | ⟨kind, rfl, rfl⟩)
      · exact ⟨kind, Or.inl arc⟩
      · exact ⟨kind, Or.inr ⟨rfl, rfl⟩⟩
    · rintro ⟨kind, arc | ⟨rfl, rfl⟩⟩
      · exact Or.inl ⟨kind, arc⟩
      · exact Or.inr ⟨kind, rfl, rfl⟩

theorem addSuccessor_of_notMem {x y : E} (new : y ∉ B.successors x) :
    (B.addSuccessor x y).successors = fun e => if e = x then B.successors x ++ [y] else B.successors e := by
  simp only [addSuccessor, if_neg new]

theorem mem_recordFork {fp fre a b : E} :
    b ∈ (B.recordFork below fp fre).forkMap a ↔ b ∈ B.forkMap a ∨ a = fp ∧ b = fre := by
  simp only [recordFork]
  split_ifs with isFp
  · rw [mem_insertPointer, isFp]
    tauto
  · tauto

theorem mem_recordJoin {jp jre a b : E} :
    a ∈ (B.recordJoin below jp jre).joinMap b ↔ a ∈ B.joinMap b ∨ b = jp ∧ a = jre := by
  simp only [recordJoin]
  split_ifs with isJp
  · rw [mem_insertPointer, isJp]
    tauto
  · tauto

variable (below) in
theorem addForkPoint_connects {arcs : E → E → Prop} (inStep : B.InStep arcs) {fp fre : E}
    (transition : B.isTransition fp = true) :
    arcs fp fre ∧ B.addForkPoint below fp fre = B ∨
      ¬ arcs fp fre ∧ Connects B (B.addForkPoint below fp fre) fp fre := by
  by_cases recorded : fre ∈ B.forkMap fp
  · exact Or.inl ⟨((inStep.forked fp fre).mp recorded).2, if_pos recorded⟩
  · have new : ¬ arcs fp fre := fun arc => recorded ((inStep.forked fp fre).mpr ⟨transition, arc⟩)
    have newNext : fre ∉ B.successors fp := fun isNext => new ((inStep.successors fp fre).mp isNext)
    have notJoined : fp ∉ B.joinMap fre := fun joined => new ((inStep.joined fp fre).mp joined).2
    refine Or.inr ⟨new, ?_⟩
    rw [addForkPoint, if_neg recorded]
    by_cases kind : B.isTransition fre
    · rw [if_pos (by exact kind), if_neg (by exact notJoined)]
      refine ⟨⟨rfl, rfl, rfl, rfl⟩, addSuccessor_of_notMem newNext, rfl, fun a b => ?_, fun a b => ?_⟩
      · rw [show ((((B.recordFork below fp fre).addSuccessor fp fre).recordJoin below fre fp).addPredecessor
          fre fp).forkMap a = (B.recordFork below fp fre).forkMap a from rfl, mem_recordFork]
        simp [transition]
      · rw [show ((((B.recordFork below fp fre).addSuccessor fp fre).recordJoin below fre fp).addPredecessor
          fre fp).joinMap b = (B.recordJoin below fre fp).joinMap b from rfl, mem_recordJoin]
        simp [kind, and_comm]
    · rw [if_neg (by exact kind)]
      refine ⟨⟨rfl, rfl, rfl, rfl⟩, addSuccessor_of_notMem newNext, rfl, fun a b => ?_, fun a b => ?_⟩
      · rw [show (((B.recordFork below fp fre).addSuccessor fp fre).addPredecessor fre fp).forkMap a =
          (B.recordFork below fp fre).forkMap a from rfl, mem_recordFork]
        simp [transition]
      · rw [show (((B.recordFork below fp fre).addSuccessor fp fre).addPredecessor fre fp).joinMap b =
          B.joinMap b from rfl]
        simp [kind]

variable (below) in
theorem addJoinPoint_connects {arcs : E → E → Prop} (inStep : B.InStep arcs) {jp jre : E}
    (transition : B.isTransition jp = true) :
    arcs jre jp ∧ B.addJoinPoint below jp jre = B ∨
      ¬ arcs jre jp ∧ Connects B (B.addJoinPoint below jp jre) jre jp := by
  by_cases recorded : jre ∈ B.joinMap jp
  · exact Or.inl ⟨((inStep.joined jre jp).mp recorded).2, if_pos recorded⟩
  · have new : ¬ arcs jre jp := fun arc => recorded ((inStep.joined jre jp).mpr ⟨transition, arc⟩)
    have newNext : jp ∉ B.successors jre := fun isNext => new ((inStep.successors jre jp).mp isNext)
    have notForked : jp ∉ B.forkMap jre := fun forked => new ((inStep.forked jre jp).mp forked).2
    refine Or.inr ⟨new, ?_⟩
    rw [addJoinPoint, if_neg recorded]
    by_cases kind : B.isTransition jre
    · rw [if_pos (by exact kind), if_neg (by exact notForked)]
      refine ⟨⟨rfl, rfl, rfl, rfl⟩, addSuccessor_of_notMem (by exact newNext), rfl, fun a b => ?_, fun a b => ?_⟩
      · rw [show ((((B.recordJoin below jp jre).addPredecessor jp jre).recordFork below jre jp).addSuccessor
          jre jp).forkMap a = (B.recordFork below jre jp).forkMap a from rfl, mem_recordFork]
        simp [kind]
      · rw [show ((((B.recordJoin below jp jre).addPredecessor jp jre).recordFork below jre jp).addSuccessor
          jre jp).joinMap b = (B.recordJoin below jp jre).joinMap b from rfl, mem_recordJoin]
        simp [transition, and_comm]
    · rw [if_neg (by exact kind)]
      refine ⟨⟨rfl, rfl, rfl, rfl⟩, addSuccessor_of_notMem (by exact newNext), rfl, fun a b => ?_, fun a b => ?_⟩
      · rw [show (((B.recordJoin below jp jre).addPredecessor jp jre).addSuccessor jre jp).forkMap a =
          B.forkMap a from rfl]
        simp [kind]
      · rw [show (((B.recordJoin below jp jre).addPredecessor jp jre).addSuccessor jre jp).joinMap b =
          (B.recordJoin below jp jre).joinMap b from rfl, mem_recordJoin]
        simp [transition, and_comm]

/-- The block `B'` has the elements of `B`, and is in step with the arcs. -/
def Reaches (B B' : CPForkBlock E) (arcs : E → E → Prop) : Prop := SameElements B B' ∧ B'.InStep arcs

variable (below) in
theorem addForkPoint_reaches {arcs : E → E → Prop} (inStep : B.InStep arcs) {fp fre : E}
    (transition : B.isTransition fp = true) (insideFp : fp ∈ B.vertices) (insideFre : fre ∈ B.vertices) :
    Reaches B (B.addForkPoint below fp fre) (AlsoArc arcs fp fre) := by
  rcases addForkPoint_connects below inStep transition with ⟨old, same⟩ | ⟨new, connects⟩
  · rw [same]
    refine ⟨SameElements.refl B, inStep.congr fun x y => ⟨Or.inl, ?_⟩⟩
    rintro (arc | ⟨rfl, rfl⟩)
    · exact arc
    · exact old
  · exact ⟨connects.same, inStep.connects new insideFp insideFre connects⟩

variable (below) in
theorem addJoinPoint_reaches {arcs : E → E → Prop} (inStep : B.InStep arcs) {jp jre : E}
    (transition : B.isTransition jp = true) (insideJp : jp ∈ B.vertices) (insideJre : jre ∈ B.vertices) :
    Reaches B (B.addJoinPoint below jp jre) (AlsoArc arcs jre jp) := by
  rcases addJoinPoint_connects below inStep transition with ⟨old, same⟩ | ⟨new, connects⟩
  · rw [same]
    refine ⟨SameElements.refl B, inStep.congr fun x y => ⟨Or.inl, ?_⟩⟩
    rintro (arc | ⟨rfl, rfl⟩)
    · exact arc
    · exact old
  · exact ⟨connects.same, inStep.connects new insideJre insideJp connects⟩

variable (below) in
theorem forkAll_reaches (elements : List E) {arcs : E → E → Prop} (inStep : B.InStep arcs)
    (inside : ∀ ele ∈ elements, ele ∈ B.vertices) :
    Reaches B (elements.foldl (fun B ele => B.addForkPoint below B.entry ele) B)
      fun x y => arcs x y ∨ x = B.entry ∧ y ∈ elements := by
  induction elements generalizing B arcs with
  | nil => exact ⟨SameElements.refl B, inStep.congr fun x y => by simp⟩
  | cons ele rest ih =>
      obtain ⟨same, next⟩ := addForkPoint_reaches below inStep inStep.entry_transition entry_mem
        (inside ele List.mem_cons_self)
      obtain ⟨same', last⟩ := ih next fun other member => by
        rw [same.vertices]
        exact inside other (List.mem_cons_of_mem ele member)
      refine ⟨same.trans same', last.congr fun x y => ?_⟩
      rw [AlsoArc, same.entry, List.mem_cons]
      tauto

variable (below) in
theorem joinAll_reaches (elements : List E) {arcs : E → E → Prop} (inStep : B.InStep arcs)
    (inside : ∀ ele ∈ elements, ele ∈ B.vertices) :
    Reaches B (elements.foldl (fun B ele => B.addJoinPoint below B.exit ele) B)
      fun x y => arcs x y ∨ y = B.exit ∧ x ∈ elements := by
  induction elements generalizing B arcs with
  | nil => exact ⟨SameElements.refl B, inStep.congr fun x y => by simp⟩
  | cons ele rest ih =>
      obtain ⟨same, next⟩ := addJoinPoint_reaches below inStep inStep.exit_transition exit_mem
        (inside ele List.mem_cons_self)
      obtain ⟨same', last⟩ := ih next fun other member => by
        rw [same.vertices]
        exact inside other (List.mem_cons_of_mem ele member)
      refine ⟨same.trans same', last.congr fun x y => ?_⟩
      rw [AlsoArc, same.exit, List.mem_cons]
      tauto

end Points

/-! ## Updating the links -/

section Update
variable {E : Type} [DecidableEq E] (B : CPForkBlock E) (below : E → E → Bool)

/-- What a transition knows of the data path and of the outside of its region. -/
structure TransitionFlags where
  isInput : Bool := false
  isOutput : Bool := false
  isLinkedToNonLocalDpe : Bool := false
  isBoundAsInputToCPFunction : Bool := false
  isBoundAsOutputFromCPFunction : Bool := false
  isBoundAsInputToRegion : Bool := false
  isBoundAsOutputFromRegion : Bool := false
  numberOfMarkedPredecessors : Nat := 0
  numberOfMarkedSuccessors : Nat := 0

structure Surroundings (E : Type) where
  flags : E → TransitionFlags
  hasNullPredecessor : E → Bool
  hasNullSuccessor : E → Bool

variable (S : Surroundings E)

omit [DecidableEq E] in
/-- The test of `Remove_Isolated_Transitions`. -/
def isIsolated (cpe : E) : Bool :=
  let flags := S.flags cpe
  B.isTransition cpe && (!flags.isInput && !flags.isOutput && !flags.isLinkedToNonLocalDpe &&
    !flags.isBoundAsInputToCPFunction && !flags.isBoundAsOutputFromCPFunction &&
    !flags.isBoundAsOutputFromRegion && (B.predecessors cpe).isEmpty && (B.successors cpe).isEmpty &&
    flags.numberOfMarkedPredecessors == 0 && flags.numberOfMarkedSuccessors == 0)

def removeIsolatedTransitions : CPForkBlock E :=
  { B with elements := B.elements.filter fun cpe => !B.isIsolated S cpe }

def hasImplicitPredecessor (ele : E) : Bool :=
  B.isTransition ele && ((S.flags ele).isBoundAsInputToRegion || (S.flags ele).isInput ||
    (S.flags ele).isBoundAsOutputFromCPFunction) || S.hasNullPredecessor ele

def hasImplicitSuccessor (ele : E) : Bool :=
  B.isTransition ele && ((S.flags ele).isBoundAsInputToCPFunction || (S.flags ele).isBoundAsOutputFromRegion) ||
    S.hasNullSuccessor ele

def unforkedElements : List E :=
  B.elements.filter fun ele => !B.hasImplicitPredecessor S ele && (B.predecessors ele).isEmpty

def unjoinedElements : List E :=
  B.elements.filter fun ele => !B.hasImplicitSuccessor S ele && (B.successors ele).isEmpty

def linkEnds : CPForkBlock E :=
  if B.predecessors B.exit = [] ∨ B.successors B.entry = [] then B.addForkPoint below B.entry B.exit else B

/-- `vcCPForkBlock::Update_Predecessor_Successor_Links`, after that of the elements. -/
def updatePredecessorSuccessorLinks : CPForkBlock E :=
  let B := B.removeIsolatedTransitions S
  let unforked := B.unforkedElements S
  let unjoined := B.unjoinedElements S
  let B := unforked.foldl (fun B ele => B.addForkPoint below B.entry ele) B
  let B := unjoined.foldl (fun B ele => B.addJoinPoint below B.exit ele) B
  B.linkEnds below

/-- The declared arcs do not go around, none leads into the entry or out of the exit, and what has no
predecessor or no successor does not have one on the outside either. -/
structure Declares : Prop where
  acyclic : ∀ x, ¬ Relation.TransGen B.Arc x x
  entry_first : B.predecessors B.entry = []
  exit_last : B.successors B.exit = []
  led_to : ∀ ele ∈ B.elements, B.isIsolated S ele = false → B.predecessors ele = [] →
    B.hasImplicitPredecessor S ele = false
  leads_on : ∀ ele ∈ B.elements, B.isIsolated S ele = false → B.successors ele = [] →
    B.hasImplicitSuccessor S ele = false

variable {B below S} {arcs : E → E → Prop}

omit [DecidableEq E] in
theorem isIsolated_links {cpe : E} (isolated : B.isIsolated S cpe = true) :
    B.predecessors cpe = [] ∧ B.successors cpe = [] := by
  simp only [isIsolated, Bool.and_eq_true, List.isEmpty_iff] at isolated
  tauto

omit [DecidableEq E] in
theorem InStep.removeIsolated (inStep : B.InStep arcs) : (B.removeIsolatedTransitions S).InStep arcs := by
  have stays {x : E} (inside : x ∈ B.vertices) (linked : B.predecessors x ≠ [] ∨ B.successors x ≠ []) :
      x ∈ (B.removeIsolatedTransitions S).vertices := by
    rcases List.mem_cons.mp inside with rfl | inside
    · exact List.mem_cons_self
    · rcases List.mem_cons.mp inside with rfl | inside
      · exact List.mem_cons_of_mem _ List.mem_cons_self
      · refine List.mem_cons_of_mem _ (List.mem_cons_of_mem _ (List.mem_filter.mpr ⟨inside, ?_⟩))
        cases isolated : B.isIsolated S x with
        | false => rfl
        | true =>
            obtain ⟨noPrev, noNext⟩ := isIsolated_links isolated
            exact absurd linked (by simp [noPrev, noNext])
  have sub : (B.removeIsolatedTransitions S).vertices.Sublist B.vertices :=
    (List.filter_sublist.cons_cons _).cons_cons _
  refine { inStep with vertices := inStep.vertices.sublist sub, inside := fun x y arc => ?_ }
  obtain ⟨insideX, insideY⟩ := inStep.inside x y arc
  refine ⟨stays insideX (Or.inr ?_), stays insideY (Or.inl ?_)⟩
  · exact List.ne_nil_of_mem ((inStep.successors x y).mpr arc)
  · exact List.ne_nil_of_mem ((inStep.predecessors x y).mpr arc)

variable (below) in
theorem linkEnds_reaches (inStep : B.InStep arcs) :
    ∃ arcs', Reaches B (B.linkEnds below) arcs' ∧ (∀ x y, arcs x y → arcs' x y) ∧
      (∀ x y, arcs' x y → arcs x y ∨ x = B.entry ∧ y = B.exit) ∧
      (∃ x, arcs' x B.exit) ∧ ∃ y, arcs' B.entry y := by
  rw [linkEnds]
  split_ifs with bare
  · refine ⟨_, addForkPoint_reaches below inStep inStep.entry_transition entry_mem exit_mem, fun x y => Or.inl,
      fun x y => id, ⟨B.entry, Or.inr ⟨rfl, rfl⟩⟩, ⟨B.exit, Or.inr ⟨rfl, rfl⟩⟩⟩
  · obtain ⟨joined, forked⟩ := not_or.mp bare
    obtain ⟨x, isPrev⟩ := List.exists_mem_of_ne_nil _ joined
    obtain ⟨y, isNext⟩ := List.exists_mem_of_ne_nil _ forked
    exact ⟨arcs, ⟨SameElements.refl B, inStep⟩, fun _ _ => id, fun _ _ => Or.inl,
      ⟨x, (inStep.predecessors x _).mp isPrev⟩, ⟨y, (inStep.successors _ y).mp isNext⟩⟩

structure Updated (B : CPForkBlock E) (S : Surroundings E) (arcs arcs' : E → E → Prop) : Prop where
  keeps : ∀ x y, arcs x y → arcs' x y
  adds : ∀ x y, arcs' x y → arcs x y ∨ x = B.entry ∧ (y ∈ B.unforkedElements S ∨ y = B.exit) ∨
    y = B.exit ∧ (x ∈ B.unjoinedElements S ∨ x = B.entry)
  forked : ∀ ele ∈ B.unforkedElements S, arcs' B.entry ele
  joined : ∀ ele ∈ B.unjoinedElements S, arcs' ele B.exit
  exit_joined : ∃ x, arcs' x B.exit
  entry_forked : ∃ y, arcs' B.entry y

variable (below) in
theorem update_reaches (inStep : B.InStep arcs) :
    ∃ arcs', Reaches (B.removeIsolatedTransitions S) (B.updatePredecessorSuccessorLinks below S) arcs' ∧
      Updated (B.removeIsolatedTransitions S) S arcs arcs' := by
  have kept := inStep.removeIsolated (S := S)
  generalize same : B.removeIsolatedTransitions S = B₁ at kept
  have inside {ele : E} {condition : E → Bool} (member : ele ∈ B₁.elements.filter condition) : ele ∈ B₁.vertices :=
    List.mem_cons_of_mem _ (List.mem_cons_of_mem _ (List.mem_filter.mp member).1)
  obtain ⟨same₁, forked⟩ := forkAll_reaches below (B₁.unforkedElements S) kept fun _ => inside
  obtain ⟨same₂, joined⟩ := joinAll_reaches below (B₁.unjoinedElements S) forked fun ele member => by
    rw [same₁.vertices]
    exact inside member
  obtain ⟨arcs', ⟨same₃, linked⟩, more, fewer, exitJoined, entryForked⟩ := linkEnds_reaches below joined
  rw [same₂.entry, same₁.entry, same₂.exit, same₁.exit] at fewer
  rw [same₂.exit, same₁.exit] at exitJoined
  rw [same₂.entry, same₁.entry] at entryForked
  rw [same₁.exit] at more
  refine ⟨arcs', ⟨?_, ?_⟩, ⟨fun x y arc => more x y (Or.inl (Or.inl arc)), fun x y arc => ?_,
    fun ele member => more _ _ (Or.inl (Or.inr ⟨rfl, member⟩)), fun ele member => more _ _ (Or.inr ⟨rfl, member⟩),
    exitJoined, entryForked⟩⟩
  · rw [updatePredecessorSuccessorLinks, same]
    exact (same₁.trans same₂).trans same₃
  · rw [updatePredecessorSuccessorLinks, same]
    exact linked
  · rcases fewer x y arc with ((arc | ⟨rfl, member⟩) | ⟨rfl, member⟩) | ⟨rfl, rfl⟩
    · exact Or.inl arc
    · exact Or.inr (Or.inl ⟨rfl, Or.inl member⟩)
    · exact Or.inr (Or.inr ⟨rfl, Or.inl member⟩)
    · exact Or.inr (Or.inl ⟨rfl, Or.inr rfl⟩)

/-! ## Which declared blocks come out well formed -/

omit [DecidableEq E] in
theorem InStep.notMem_ends (inStep : B.InStep arcs) : B.entry ≠ B.exit ∧ B.entry ∉ B.elements ∧ B.exit ∉ B.elements := by
  obtain ⟨entry, rest⟩ := List.nodup_cons.mp inStep.vertices
  refine ⟨fun same => entry (same ▸ List.mem_cons_self), fun member => entry (List.mem_cons_of_mem _ member),
    (List.nodup_cons.mp rest).1⟩

omit [DecidableEq E] in
theorem InStep.acyclic_iff (inStep : B.InStep arcs) :
    (∀ x, ¬ Relation.TransGen B.Arc x x) ↔ ∀ x, ¬ Relation.TransGen arcs x x := by
  have same : B.Arc = arcs := funext₂ fun x y => propext inStep.arc_iff
  rw [same]

omit [DecidableEq E] in
/-- Where no arc leads into the entry or out of the exit, a cycle is one of declared arcs. -/
theorem Updated.acyclic {arcs' : E → E → Prop} (updated : Updated B S arcs arcs')
    (entryFirst : ∀ x, ¬ arcs' x B.entry) (exitLast : ∀ y, ¬ arcs' B.exit y)
    (acyclic : ∀ x, ¬ Relation.TransGen arcs x x) (x : E) : ¬ Relation.TransGen arcs' x x := by
  have old {a b : E} (arc : arcs' a b) (notEntry : a ≠ B.entry) (notExit : b ≠ B.exit) : arcs a b := by
    rcases updated.adds a b arc with arc | ⟨isEntry, _⟩ | ⟨isExit, _⟩
    · exact arc
    · exact absurd isEntry notEntry
    · exact absurd isExit notExit
  have notEntry {a b : E} (arc : arcs' a b) : b ≠ B.entry := fun same => entryFirst a (same ▸ arc)
  have notExit {a b : E} (arc : arcs' a b) : a ≠ B.exit := fun same => exitLast b (same ▸ arc)
  have within {a b : E} (path : Relation.TransGen arcs' a b) (fromInside : a ≠ B.entry) (toInside : b ≠ B.exit) :
      Relation.TransGen arcs a b := by
    induction path with
    | single arc => exact Relation.TransGen.single (old arc fromInside toInside)
    | @tail b c path arc ih =>
        obtain ⟨_, _, into⟩ := Relation.TransGen.tail'_iff.mp path
        exact (ih (notExit arc)).tail (old arc (notEntry into) toInside)
  intro cycle
  obtain ⟨_, out, _⟩ := Relation.TransGen.head'_iff.mp cycle
  obtain ⟨_, _, into⟩ := Relation.TransGen.tail'_iff.mp cycle
  exact acyclic x (within cycle (notEntry into) (notExit out))

omit [DecidableEq E] in
theorem InStep.predecessors_eq_nil (inStep : B.InStep arcs) {x : E} : B.predecessors x = [] ↔ ∀ y, ¬ arcs y x := by
  rw [List.eq_nil_iff_forall_not_mem]
  exact forall_congr' fun y => not_congr (inStep.predecessors y x)

omit [DecidableEq E] in
theorem InStep.successors_eq_nil (inStep : B.InStep arcs) {x : E} : B.successors x = [] ↔ ∀ y, ¬ arcs x y := by
  rw [List.eq_nil_iff_forall_not_mem]
  exact forall_congr' fun y => not_congr (inStep.successors x y)

omit [DecidableEq E] in
theorem mem_keptElements {ele : E} : ele ∈ (B.removeIsolatedTransitions S).elements ↔
    ele ∈ B.elements ∧ B.isIsolated S ele = false := by
  simp [removeIsolatedTransitions]

omit [DecidableEq E] in
theorem mem_unforkedElements {ele : E} : ele ∈ B.unforkedElements S ↔
    ele ∈ B.elements ∧ B.hasImplicitPredecessor S ele = false ∧ B.predecessors ele = [] := by
  rw [unforkedElements, List.mem_filter, Bool.and_eq_true, Bool.not_eq_true', List.isEmpty_iff]

omit [DecidableEq E] in
theorem mem_unjoinedElements {ele : E} : ele ∈ B.unjoinedElements S ↔
    ele ∈ B.elements ∧ B.hasImplicitSuccessor S ele = false ∧ B.successors ele = [] := by
  rw [unjoinedElements, List.mem_filter, Bool.and_eq_true, Bool.not_eq_true', List.isEmpty_iff]

section WellFormed
variable {B' : CPForkBlock E} {arcs' : E → E → Prop} (inStep : B.InStep arcs) (reaches : Reaches B B' arcs')
  (updated : Updated B S arcs arcs')
include inStep reaches updated

omit [DecidableEq E] in
/-- A well formed block was declared without cycles, and its elements have what leads to them. -/
theorem WellFormed.declared (wf : B'.WellFormed) :
    (∀ x, ¬ Relation.TransGen B.Arc x x) ∧ B.predecessors B.entry = [] ∧ B.successors B.exit = [] ∧
      (∀ ele ∈ B.elements, B.predecessors ele = [] → B.hasImplicitPredecessor S ele = false) ∧
      ∀ ele ∈ B.elements, B.successors ele = [] → B.hasImplicitSuccessor S ele = false := by
  obtain ⟨same, inStep'⟩ := reaches
  obtain ⟨_, entryApart, exitApart⟩ := inStep.notMem_ends
  have inside {ele : E} (member : ele ∈ B.elements) : ele ∈ B'.vertices := by
    rw [same.vertices]
    exact List.mem_cons_of_mem _ (List.mem_cons_of_mem _ member)
  refine ⟨inStep.acyclic_iff.mpr fun x cycle => ?_, inStep.predecessors_eq_nil.mpr fun x into => ?_,
    inStep.successors_eq_nil.mpr fun y out => ?_, fun ele member none => ?_, fun ele member none => ?_⟩
  · exact inStep'.acyclic_iff.mp wf.acyclic x (Relation.TransGen.mono updated.keeps _ _ cycle)
  · have isPrev := (inStep'.predecessors x B.entry).mpr (updated.keeps _ _ into)
    rw [← same.entry, wf.entry_first] at isPrev
    exact List.not_mem_nil isPrev
  · have isNext := (inStep'.successors B.exit y).mpr (updated.keeps _ _ out)
    rw [← same.exit, wf.exit_last] at isNext
    exact List.not_mem_nil isNext
  · have notEntry : ele ≠ B'.entry := by
      rw [same.entry]
      rintro rfl
      exact entryApart member
    obtain ⟨y, into⟩ := wf.exists_predecessor (inside member) notEntry
    rcases updated.adds y ele (inStep'.arc_iff.mp into) with into | ⟨_, member' | rfl⟩ | ⟨rfl, _⟩
    · exact absurd into (inStep.predecessors_eq_nil.mp none y)
    · exact (mem_unforkedElements.mp member').2.1
    · exact absurd member exitApart
    · exact absurd member exitApart
  · rcases Relation.ReflTransGen.cases_head (wf.to_exit ele (inside member)) with isExit | ⟨y, out, _⟩
    · rw [same.exit] at isExit
      exact absurd (isExit ▸ member) exitApart
    · rcases updated.adds ele y (inStep'.arc_iff.mp out) with out | ⟨rfl, _⟩ | ⟨_, member' | rfl⟩
      · exact absurd out (inStep.successors_eq_nil.mp none y)
      · exact absurd member entryApart
      · exact (mem_unjoinedElements.mp member').2.1
      · exact absurd member entryApart

theorem wellFormed_of_declared (acyclic : ∀ x, ¬ Relation.TransGen B.Arc x x)
    (entryFirst : B.predecessors B.entry = []) (exitLast : B.successors B.exit = [])
    (ledTo : ∀ ele ∈ B.elements, B.predecessors ele = [] → B.hasImplicitPredecessor S ele = false)
    (leadsOn : ∀ ele ∈ B.elements, B.successors ele = [] → B.hasImplicitSuccessor S ele = false) :
    B'.WellFormed := by
  obtain ⟨same, inStep'⟩ := reaches
  obtain ⟨distinct, entryApart, exitApart⟩ := inStep.notMem_ends
  have noneInto : ∀ x, ¬ arcs' x B.entry := by
    intro x into
    rcases updated.adds x B.entry into with into | ⟨_, member | isExit⟩ | ⟨isExit, _⟩
    · exact inStep.predecessors_eq_nil.mp entryFirst x into
    · exact entryApart (mem_unforkedElements.mp member).1
    · exact distinct isExit
    · exact distinct isExit
  have noneOut : ∀ y, ¬ arcs' B.exit y := by
    intro y out
    rcases updated.adds B.exit y out with out | ⟨isEntry, _⟩ | ⟨_, member | isEntry⟩
    · exact inStep.successors_eq_nil.mp exitLast y out
    · exact distinct isEntry.symm
    · exact exitApart (mem_unjoinedElements.mp member).1
    · exact distinct isEntry.symm
  have noCycle := inStep'.acyclic_iff.mpr (updated.acyclic noneInto noneOut (inStep.acyclic_iff.mp acyclic))
  have before {x : E} (inside : x ∈ B'.vertices) (notEntry : x ≠ B'.entry) : ∃ y, arcs' y x := by
    rw [same.vertices] at inside
    rcases List.mem_cons.mp inside with rfl | inside
    · exact absurd same.entry.symm notEntry
    · rcases List.mem_cons.mp inside with rfl | member
      · exact updated.exit_joined
      · by_cases none : B.predecessors x = []
        · exact ⟨B.entry, updated.forked x (mem_unforkedElements.mpr ⟨member, ledTo x member none, none⟩)⟩
        · obtain ⟨y, isPrev⟩ := List.exists_mem_of_ne_nil _ none
          exact ⟨y, updated.keeps y x ((inStep.predecessors y x).mp isPrev)⟩
  have after {x : E} (inside : x ∈ B'.vertices) (notExit : x ≠ B'.exit) : ∃ y, arcs' x y := by
    rw [same.vertices] at inside
    rcases List.mem_cons.mp inside with rfl | inside
    · exact updated.entry_forked
    · rcases List.mem_cons.mp inside with rfl | member
      · exact absurd same.exit.symm notExit
      · by_cases none : B.successors x = []
        · exact ⟨B.exit, updated.joined x (mem_unjoinedElements.mpr ⟨member, leadsOn x member none, none⟩)⟩
        · obtain ⟨y, isNext⟩ := List.exists_mem_of_ne_nil _ none
          exact ⟨y, updated.keeps x y ((inStep.successors x y).mp isNext)⟩
  rw [inStep'.linked.wellFormed_iff inStep'.single]
  refine ⟨reaches_of_before noCycle fun x inside notEntry => ?_, fun ⟨x, _, cycle⟩ => noCycle x cycle,
    reaches_of_after noCycle fun x inside notExit => ?_⟩
  · obtain ⟨y, into⟩ := before inside notEntry
    exact ⟨y, (inStep'.inside y x into).1, inStep'.arc_iff.mpr into⟩
  · obtain ⟨y, out⟩ := after inside notExit
    exact ⟨y, (inStep'.inside x y out).2, inStep'.arc_iff.mpr out⟩

end WellFormed

/-- The block that comes out of the update is well formed exactly when it was declared as it should be. -/
theorem updated_wellFormed_iff (inStep : B.InStep arcs) :
    (B.updatePredecessorSuccessorLinks below S).WellFormed ↔ B.Declares S := by
  obtain ⟨arcs', reaches, updated⟩ := update_reaches below (S := S) inStep
  have kept := inStep.removeIsolated (S := S)
  have acyclic_iff : (∀ x, ¬ Relation.TransGen (B.removeIsolatedTransitions S).Arc x x) ↔
      ∀ x, ¬ Relation.TransGen B.Arc x x := kept.acyclic_iff.trans inStep.acyclic_iff.symm
  constructor
  · intro wf
    obtain ⟨acyclic, entryFirst, exitLast, ledTo, leadsOn⟩ := wf.declared kept reaches updated
    exact ⟨acyclic_iff.mp acyclic, entryFirst, exitLast,
      fun ele member stays => ledTo ele (mem_keptElements.mpr ⟨member, stays⟩),
      fun ele member stays => leadsOn ele (mem_keptElements.mpr ⟨member, stays⟩)⟩
  · intro declares
    refine wellFormed_of_declared kept reaches updated (acyclic_iff.mpr declares.acyclic) declares.entry_first
      declares.exit_last (fun ele member => ?_) fun ele member => ?_
    · exact declares.led_to ele (mem_keptElements.mp member).1 (mem_keptElements.mp member).2
    · exact declares.leads_on ele (mem_keptElements.mp member).1 (mem_keptElements.mp member).2

end Update

/-! ## Declarations -/

/-- The vertices of a fork block as they are named in its text. -/
inductive Vertex where
  | entry
  | exit
  | element (id : String)
deriving DecidableEq

inductive Statement where
  | element (id : String) (isTransition : Bool)
  | fork (lbl : String) (forkIds : List String)
  | join (lbl : String) (joinIds : List String)

structure Region where
  block : CPForkBlock Vertex
  hasNullPredecessor : Vertex → Bool
  hasNullSuccessor : Vertex → Bool
  errors : List String

namespace Region
variable (R : Region) (below : Vertex → Vertex → Bool)

def empty : Region where
  block :=
    { entry := .entry, exit := .exit, elements := []
      isTransition := fun e => decide (e = .entry ∨ e = .exit)
      predecessors := fun _ => [], successors := fun _ => [], forkMap := fun _ => [], joinMap := fun _ => [] }
  hasNullPredecessor := fun _ => false
  hasNullSuccessor := fun _ => false
  errors := []

def error (message : String) : Region := { R with errors := R.errors ++ [message] }

def setHasNullPredecessor (e : Vertex) : Region :=
  { R with hasNullPredecessor := Function.update R.hasNullPredecessor e true }

def setHasNullSuccessor (e : Vertex) : Region :=
  { R with hasNullSuccessor := Function.update R.hasNullSuccessor e true }

/-- `Find_CPElement`; the text of a fork block has no aliases. -/
def findCPElement (cname : String) : Option Vertex :=
  if cname = "$entry" then some .entry
  else if cname = "$exit" then some .exit
  else if .element cname ∈ R.block.elements then some (.element cname)
  else none

/-- `Add_CPElement`, whose assertion fails for an id that is taken. -/
def addCPElement (id : String) (isTransition : Bool) : Option Region :=
  if .element id ∈ R.block.elements then none
  else some
    { R with
      block :=
        { R.block with
          elements := R.block.elements ++ [.element id]
          isTransition := Function.update R.block.isTransition (.element id) isTransition } }

/-- The loop of `Add_Fork_Point` over the names; `fp` is null for the name `$null`. -/
def forkLoop (fp : Option Vertex) : List String → Region → Region
  | [], R => R
  | name :: rest, R =>
      if name = "$null" then
        forkLoop fp rest (match fp with | some fp => R.setHasNullSuccessor fp | none => R)
      else
        match R.findCPElement name with
        | none => R.error ("did not find forked region " ++ name)
        | some fre =>
            match fp with
            | some fp => forkLoop (some fp) rest { R with block := R.block.addForkPoint below fp fre }
            | none => forkLoop none rest (R.setHasNullPredecessor fre)

/-- `Add_Fork_Point` by names. -/
def addForkPoint (forkName : String) (forkIds : List String) : Region :=
  if forkName = "$null" then forkLoop below none forkIds R
  else
    match R.findCPElement forkName with
    | none => R.error ("did not find fork point " ++ forkName)
    | some fp =>
        if R.block.isTransition fp then forkLoop below (some fp) forkIds R
        else R.error ("fork point " ++ forkName ++ " is not a transition")

/-- The loop of `Add_Join_Point` over the names; none is left where a null pointer is used. -/
def joinLoop (nullJoin : Bool) (jp : Option Vertex) : List String → Region → Option Region
  | [], R => some R
  | name :: rest, R =>
      if name = "$null" then
        match jp with
        | some jp => joinLoop nullJoin (some jp) rest (R.setHasNullPredecessor jp)
        | none => none
      else
        match R.findCPElement name with
        | none => some (R.error ("did not find joined region " ++ name))
        | some jre =>
            if nullJoin then joinLoop nullJoin jp rest (R.setHasNullSuccessor jre)
            else
              match jp with
              | some jp => joinLoop nullJoin (some jp) rest { R with block := R.block.addJoinPoint below jp jre }
              | none => none

/-- `Add_Join_Point` by names. -/
def addJoinPoint (joinName : String) (joinIds : List String) : Option Region :=
  let nullJoin := joinName == "$null"
  match R.findCPElement joinName with
  | none =>
      if nullJoin then joinLoop below nullJoin none joinIds R
      else some (R.error ("did not find join point " ++ joinName))
  | some jp =>
      if R.block.isTransition jp then joinLoop below nullJoin (some jp) joinIds R
      else some (R.error ("join point " ++ joinName ++ " is not a transition"))

def read : Statement → Option Region
  | .element id isTransition => R.addCPElement id isTransition
  | .fork lbl forkIds => some (R.addForkPoint below lbl forkIds)
  | .join lbl joinIds => R.addJoinPoint below lbl joinIds

/-- The block of a text, from the constructor on. -/
def readAll (statements : List Statement) : Option Region :=
  statements.foldlM (fun R statement => R.read below statement) empty

/-- The block that was read, as its links are updated; `flags` are those of the data path. -/
def surroundings (flags : Vertex → TransitionFlags) : Surroundings Vertex :=
  ⟨flags, R.hasNullPredecessor, R.hasNullSuccessor⟩

def update (flags : Vertex → TransitionFlags) : CPForkBlock Vertex :=
  R.block.updatePredecessorSuccessorLinks below (R.surroundings flags)

variable {R below}

def Legible (R : Region) : Prop :=
  ∃ arcs, R.block.InStep arcs ∧ R.block.entry = .entry ∧ R.block.exit = .exit

theorem empty_legible : empty.Legible := by
  refine ⟨fun _ _ => False, ⟨?_, rfl, rfl, ?_, ?_, ?_, ?_, ?_, ?_, ?_⟩, rfl, rfl⟩ <;> simp [empty, vertices]

theorem findCPElement_mem (legible : R.Legible) {name : String} {e : Vertex}
    (found : R.findCPElement name = some e) : e ∈ R.block.vertices := by
  obtain ⟨_, _, entry, exit⟩ := legible
  rw [vertices, entry, exit]
  rw [findCPElement] at found
  split_ifs at found with isEntry isExit member
  · obtain rfl := Option.some.inj found
    exact List.mem_cons_self
  · obtain rfl := Option.some.inj found
    exact List.mem_cons_of_mem _ List.mem_cons_self
  · obtain rfl := Option.some.inj found
    exact List.mem_cons_of_mem _ (List.mem_cons_of_mem _ member)

theorem Legible.reaches {B' : CPForkBlock Vertex} {arcs : Vertex → Vertex → Prop} (legible : R.Legible)
    (reaches : Reaches R.block B' arcs) : ({ R with block := B' } : Region).Legible := by
  obtain ⟨_, _, entry, exit⟩ := legible
  exact ⟨arcs, reaches.2, reaches.1.entry.trans entry, reaches.1.exit.trans exit⟩

theorem forkLoop_legible (fp : Option Vertex) : ∀ (ids : List String) (R : Region), R.Legible →
    (∀ e ∈ fp, e ∈ R.block.vertices ∧ R.block.isTransition e = true) → (forkLoop below fp ids R).Legible := by
  intro ids
  induction ids with
  | nil => exact fun R legible _ => legible
  | cons name rest ih =>
      intro R legible isFork
      rw [forkLoop.eq_def]
      dsimp only
      split_ifs
      · cases fp with
        | none => exact ih R legible isFork
        | some e => exact ih (R.setHasNullSuccessor e) legible isFork
      · cases found : R.findCPElement name with
        | none => exact legible
        | some fre =>
            cases fp with
            | none => exact ih (R.setHasNullPredecessor fre) legible isFork
            | some e =>
                obtain ⟨inside, transition⟩ := isFork e rfl
                have ⟨_, inStep, _⟩ := legible
                have reaches := addForkPoint_reaches below inStep transition inside
                  (findCPElement_mem legible found)
                refine ih _ (legible.reaches reaches) fun e' isE => ?_
                obtain rfl := Option.mem_some.mp isE
                refine ⟨?_, ?_⟩
                · rw [reaches.1.vertices]
                  exact inside
                · rw [reaches.1.isTransition]
                  exact transition

theorem joinLoop_legible (nullJoin : Bool) (jp : Option Vertex) : ∀ (ids : List String) (R R' : Region), R.Legible →
    (∀ e ∈ jp, e ∈ R.block.vertices ∧ R.block.isTransition e = true) →
      joinLoop below nullJoin jp ids R = some R' → R'.Legible := by
  intro ids
  induction ids with
  | nil =>
      intro R R' legible _ run
      obtain rfl := Option.some.inj run
      exact legible
  | cons name rest ih =>
      intro R R' legible isJoin run
      rw [joinLoop.eq_def] at run
      dsimp only at run
      by_cases isNull : name = "$null"
      · rw [if_pos isNull] at run
        cases jp with
        | none => cases run
        | some e => exact ih (R.setHasNullPredecessor e) R' legible isJoin run
      · rw [if_neg isNull] at run
        cases found : R.findCPElement name with
        | none =>
            rw [found] at run
            obtain rfl := Option.some.inj run
            exact legible
        | some jre =>
            rw [found] at run
            cases nullJoin with
            | true => exact ih (R.setHasNullSuccessor jre) R' legible isJoin run
            | false =>
                cases jp with
                | none => cases run
                | some e =>
                    obtain ⟨inside, transition⟩ := isJoin e rfl
                    have ⟨_, inStep, _⟩ := legible
                    have reaches := addJoinPoint_reaches below inStep transition inside
                      (findCPElement_mem legible found)
                    refine ih _ R' (legible.reaches reaches) (fun e' isE => ?_) run
                    obtain rfl := Option.mem_some.mp isE
                    refine ⟨?_, ?_⟩
                    · rw [reaches.1.vertices]
                      exact inside
                    · rw [reaches.1.isTransition]
                      exact transition

theorem addCPElement_legible {R' : Region} {id : String} {kind : Bool} (legible : R.Legible)
    (run : R.addCPElement id kind = some R') : R'.Legible := by
  obtain ⟨arcs, inStep, entry, exit⟩ := legible
  rw [addCPElement] at run
  split_ifs at run with taken
  obtain rfl := Option.some.inj run
  have new : .element id ∉ R.block.vertices := by
    rw [vertices, entry, exit]
    simp [taken]
  have noArcs {x y : Vertex} (arc : arcs x y) : x ≠ .element id ∧ y ≠ .element id := by
    obtain ⟨insideX, insideY⟩ := inStep.inside x y arc
    refine ⟨?_, ?_⟩
    · rintro rfl
      exact new insideX
    · rintro rfl
      exact new insideY
  have vertices' : ∀ e, e ∈ R.block.entry :: R.block.exit :: (R.block.elements ++ [.element id]) ↔
      e ∈ R.block.vertices ∨ e = .element id := by
    intro e
    simp [vertices, or_assoc]
  refine ⟨arcs, ⟨?_, ?_, ?_, fun x y arc => ?_, inStep.successors, inStep.predecessors, inStep.successors_nodup,
    inStep.predecessors_nodup, fun x y => ?_, fun x y => ?_⟩, entry, exit⟩
  · have nodup : ([Vertex.element id] ++ R.block.vertices).Nodup := List.nodup_cons.mpr ⟨new, inStep.vertices⟩
    exact List.nodup_append_comm.mp nodup
  · show Function.update R.block.isTransition (.element id) kind R.block.entry = true
    rw [Function.update_of_ne (by rw [entry]; simp)]
    exact inStep.entry_transition
  · show Function.update R.block.isTransition (.element id) kind R.block.exit = true
    rw [Function.update_of_ne (by rw [exit]; simp)]
    exact inStep.exit_transition
  · obtain ⟨insideX, insideY⟩ := inStep.inside x y arc
    exact ⟨(vertices' x).mpr (Or.inl insideX), (vertices' y).mpr (Or.inl insideY)⟩
  · show y ∈ R.block.forkMap x ↔ Function.update R.block.isTransition (.element id) kind x = true ∧ arcs x y
    rw [inStep.forked]
    refine and_congr_left fun arc => ?_
    rw [Function.update_of_ne (noArcs arc).1]
  · show x ∈ R.block.joinMap y ↔ Function.update R.block.isTransition (.element id) kind y = true ∧ arcs x y
    rw [inStep.joined]
    refine and_congr_left fun arc => ?_
    rw [Function.update_of_ne (noArcs arc).2]

theorem read_legible {R' : Region} {statement : Statement} (legible : R.Legible)
    (run : R.read below statement = some R') : R'.Legible := by
  have isPoint {name : String} {e : Vertex} (found : R.findCPElement name = some e)
      (transition : R.block.isTransition e = true) :
      ∀ e' ∈ some e, e' ∈ R.block.vertices ∧ R.block.isTransition e' = true := by
    intro e' isE
    obtain rfl := Option.mem_some.mp isE
    exact ⟨findCPElement_mem legible found, transition⟩
  cases statement with
  | element id kind => exact addCPElement_legible legible run
  | fork lbl ids =>
      obtain rfl := Option.some.inj run
      rw [addForkPoint]
      split_ifs
      · exact forkLoop_legible none ids R legible (by simp)
      · cases found : R.findCPElement lbl with
        | none => exact legible
        | some fp =>
            dsimp only
            split_ifs with transition
            · exact forkLoop_legible (some fp) ids R legible (isPoint found transition)
            · exact legible
  | join lbl ids =>
      rw [read, addJoinPoint] at run
      cases found : R.findCPElement lbl with
      | none =>
          rw [found] at run
          dsimp only at run
          split_ifs at run
          · exact joinLoop_legible _ none ids R R' legible (by simp) run
          · obtain rfl := Option.some.inj run
            exact legible
      | some jp =>
          rw [found] at run
          dsimp only at run
          split_ifs at run with transition
          · exact joinLoop_legible _ (some jp) ids R R' legible (isPoint found transition) run
          · obtain rfl := Option.some.inj run
            exact legible

theorem readAll_legible {statements : List Statement} (run : readAll below statements = some R) : R.Legible :=
  Run.foldlM_keeps Legible (fun _ _ _ legible step => read_legible legible step) empty_legible run

/-- Whatever is declared, the updated block passes the check exactly when its elements do and what was
declared goes from the entry to the exit without turning back. -/
theorem readAll_passes_iff {statements : List Statement} (run : readAll below statements = some R)
    (flags : Vertex → TransitionFlags)
    (topologicalSort : List (Option Vertex) → List (Option Vertex × Option Vertex) → List (Option Vertex))
    {fuel : Nat} (enough : 2 * (R.update below flags).vertices.length ≤ fuel + 1) (childrenPass : Bool) :
    (R.update below flags).Linked ∧ (R.update below flags).Single ∧
      ∃ checked, (R.update below flags).checkStructure below topologicalSort fuel childrenPass = some checked ∧
        (checked.passes = true ↔ childrenPass = true ∧ R.block.Declares (R.surroundings flags)) := by
  obtain ⟨_, inStep, _⟩ := readAll_legible run
  obtain ⟨_, reaches, _⟩ := update_reaches below (S := R.surroundings flags) inStep
  have linked : (R.update below flags).Linked := reaches.2.linked
  have single : (R.update below flags).Single := reaches.2.single
  refine ⟨linked, single, ?_⟩
  cases childrenPass with
  | false => exact ⟨_, rfl, by simp⟩
  | true =>
      obtain ⟨reports, _, checks, reported⟩ := checkStructure_reports linked single below topologicalSort enough
      refine ⟨_, checks, ?_⟩
      have declared : (R.update below flags).WellFormed ↔ R.block.Declares (R.surroundings flags) :=
        updated_wellFormed_iff inStep
      have passes := linked.passes_iff single
      simp only [← reported] at passes
      rw [← declared, ← passes]
      simp

def leadingTransition : List Statement :=
  [.element "req" true, .element "block" false, .fork "req" ["block"]]

theorem readAll_passes_iff_leadingTransition : ∃ R, readAll (fun _ _ => true) leadingTransition = some R ∧
    (R.update (fun _ _ => true) fun _ => {}).Linked ∧ (R.update (fun _ _ => true) fun _ => {}).Single ∧
      ∃ checked, (R.update (fun _ _ => true) fun _ => {}).checkStructure (fun _ _ => true) (fun order _ => order) 7 true =
          some checked ∧
        (checked.passes = true ↔ true = true ∧ R.block.Declares (R.surroundings fun _ => {})) := by
  have run : readAll (fun _ _ => true) leadingTransition =
      some ((readAll (fun _ _ => true) leadingTransition).getD empty) := rfl
  exact ⟨_, run, readAll_passes_iff run (fun _ => {}) (fun order _ => order) (by decide) true⟩

end Region

end Ahir.ControlPath.CPForkBlock
