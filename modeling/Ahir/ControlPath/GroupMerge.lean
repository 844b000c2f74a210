import Ahir.ControlPath.CPElementGroup
import Ahir.Run.Loop

/-!
# Merging a group into another

`Merge_Groups` moves the arcs and the elements of `part` to `whole` and takes
`part` out of the graph.  It takes `part` out of the successors of `whole` only,
so the graph stays well formed just when `whole` is the one predecessor of
`part`.
-/

set_option autoImplicit false

namespace Ahir.ControlPath
open Ahir.Graph

structure Memory (E : Type) where
  info : E → CPElement E
  belowElement : E → E → Bool
  below : Nat → Nat → Bool

namespace GroupGraph
variable {E : Type} [DecidableEq E] (m : Memory E) (C : GroupGraph E)

/-- `Connect_Groups` for a forward arc. -/
def connectGroups (source target : Nat) : GroupGraph E :=
  (C.modify source (CPElementGroup.addSuccessor m.below target)).modify target
    (CPElementGroup.addPredecessor m.below source)

/-- `Connect_Groups` for a marked arc. -/
def connectMarkedGroups (source target : Nat) (delay : Int) : Option (GroupGraph E) :=
  if 0 ≤ delay then
    some ((C.modify source (CPElementGroup.addMarkedSuccessor m.below target delay)).modify target
      (CPElementGroup.addMarkedPredecessor m.below source delay))
  else none

def addToGroup (cpe : E) (g : Nat) : Option (GroupGraph E) :=
  if C.cpelementToGroupMap cpe = none then
    some { C.modify g (CPElementGroup.addElement m.belowElement m.info cpe) with
      cpelementToGroupMap := fun e => if e = cpe then some (some g) else C.cpelementToGroupMap e }
  else none

/-- `cpe` leaves the group it is mapped to and joins `g`. -/
def moveToGroup (g : Nat) (C : GroupGraph E) (cpe : E) : Option (GroupGraph E) :=
  addToGroup m { C with
    cpelementToGroupMap := fun e => if e = cpe then none else C.cpelementToGroupMap e } cpe g

/-- A successor of `part` becomes one of `whole`. -/
def moveSuccessor (part whole : Nat) (C : GroupGraph E) (s : Nat) : GroupGraph E :=
  let erased := C.modify s (CPElementGroup.erasePredecessor part)
  if C.Live s then erased.connectGroups m whole s else erased

/-- A marked successor of `part` becomes one of `whole`. -/
def moveMarkedSuccessor (part whole : Nat) (C : GroupGraph E) (s : Nat) : Option (GroupGraph E) :=
  let erased := C.modify s (CPElementGroup.forgetMarkedPredecessor part)
  if C.Live s ∧ whole ≠ s then
    erased.connectMarkedGroups m whole s ((erased.group part).markedSuccessorDelays s)
  else some erased

/-- A marked predecessor of `part` becomes one of `whole`. -/
def moveMarkedPredecessor (part whole : Nat) (C : GroupGraph E) (p : Nat) : Option (GroupGraph E) :=
  let erased := C.modify p (CPElementGroup.forgetMarkedSuccessor part)
  if C.Live p ∧ whole ≠ p then
    erased.connectMarkedGroups m p whole ((erased.group part).markedPredecessorDelays p)
  else some erased

/-- The assertions of `Merge_Groups`. -/
def Mergeable (part whole : CPElementGroup E) : Prop :=
  (part.isJoin = false ∨ whole.isMerge = false) ∧ (part.isFork = false ∨ whole.isBranch = false) ∧
    (whole.isJoin = false ∨ part.isMerge = false) ∧ (whole.isFork = false ∨ part.isBranch = false) ∧
    part.predecessors.length = 1 ∧ part.isDelayElement = false

instance (part whole : CPElementGroup E) : Decidable (Mergeable part whole) := by
  unfold Mergeable
  infer_instance

/-- The links of `part` go to `whole`. -/
def moveLinks (part whole : Nat) : Option (GroupGraph E) := do
  let C := C.modify whole (CPElementGroup.eraseSuccessors part)
  let C := (C.group part).successors.foldl (moveSuccessor m part whole) C
  let C ← (C.group part).markedSuccessors.foldlM (moveMarkedSuccessor m part whole) C
  (C.group part).markedPredecessors.foldlM (moveMarkedPredecessor m part whole) C

def mergeGroups (part whole : Nat) : Option (GroupGraph E) :=
  if Mergeable (C.group part) (C.group whole) then do
    let C ← C.moveLinks m part whole
    let C ← (C.group part).elements.foldlM (moveToGroup m whole) C
    some { C with cpelementGroups := erasePointer part C.cpelementGroups }
  else none

variable {m C}

structure Relinked (C C' : GroupGraph E) : Prop where
  cpelementGroups : C'.cpelementGroups = C.cpelementGroups
  cpelementToGroupMap : C'.cpelementToGroupMap = C.cpelementToGroupMap
  rootIndexCounter : C'.rootIndexCounter = C.rootIndexCounter
  elements : ∀ g, (C'.group g).elements = (C.group g).elements
  successorVector : ∀ g, (C'.group g).successorVector = (C.group g).successorVector

omit [DecidableEq E] in
theorem Relinked.refl : Relinked C C := ⟨rfl, rfl, rfl, fun _ => rfl, fun _ => rfl⟩

omit [DecidableEq E] in
theorem Relinked.trans {C' C'' : GroupGraph E} (first : Relinked C C') (second : Relinked C' C'') :
    Relinked C C'' :=
  ⟨second.cpelementGroups.trans first.cpelementGroups,
    second.cpelementToGroupMap.trans first.cpelementToGroupMap,
    second.rootIndexCounter.trans first.rootIndexCounter,
    fun g => (second.elements g).trans (first.elements g),
    fun g => (second.successorVector g).trans (first.successorVector g)⟩

omit [DecidableEq E] in
theorem Relinked.modify {g : Nat} {f : CPElementGroup E → CPElementGroup E}
    (same : ∀ g, (f g).elements = g.elements ∧ (f g).successorVector = g.successorVector) :
    Relinked C (C.modify g f) := by
  refine ⟨rfl, rfl, rfl, fun h => ?_, fun h => ?_⟩
  · rw [modify_group]
    split_ifs
    · exact (same _).1
    · rfl
  · rw [modify_group]
    split_ifs
    · exact (same _).2
    · rfl

omit [DecidableEq E] in
theorem Relinked.live {C' : GroupGraph E} (relinked : Relinked C C') (g : Nat) :
    C'.Live g ↔ C.Live g := by
  rw [Live, Live, relinked.cpelementGroups]

omit [DecidableEq E] in
theorem foldl_relinked {S : Type} {f : GroupGraph E → S → GroupGraph E}
    (step : ∀ C s, Relinked C (f C s)) (ss : List S) (C : GroupGraph E) : Relinked C (ss.foldl f C) :=
  List.foldlRecOn (motive := Relinked C) ss f Relinked.refl fun C' relinked s _ => relinked.trans (step C' s)

omit [DecidableEq E] in
theorem foldlM_relinked {S : Type} {f : GroupGraph E → S → Option (GroupGraph E)}
    (step : ∀ C s C', f C s = some C' → Relinked C C') (ss : List S) (C C' : GroupGraph E)
    (run : ss.foldlM f C = some C') : Relinked C C' :=
  Run.foldlM_keeps (Relinked C) (fun C₁ s C₂ relinked turn => relinked.trans (step C₁ s C₂ turn)) Relinked.refl run

section Steps
variable {part whole s : Nat}

omit [DecidableEq E] in
theorem connectGroups_relinked {source target : Nat} : Relinked C (C.connectGroups m source target) := by
  refine Relinked.trans (Relinked.modify ?_) (Relinked.modify ?_)
  · exact fun _ => ⟨rfl, rfl⟩
  · exact fun _ => ⟨rfl, rfl⟩

omit [DecidableEq E] in
theorem connectGroups_marked {source target : Nat} :
    (C.connectGroups m source target).marked = C.marked := by
  simp only [connectGroups, marked, modify_group, CPElementGroup.addSuccessor,
    CPElementGroup.addPredecessor, apply_ite CPElementGroup.markedSuccessors,
    apply_ite CPElementGroup.markedPredecessors, ite_self]

omit [DecidableEq E] in
theorem connectGroups_succ {source target : Nat} (x y : Nat) :
    (C.connectGroups m source target).forward.succ x y ↔
      C.forward.succ x y ∨ x = source ∧ y = target := by
  simp only [connectGroups, forward, modify_group, CPElementGroup.addSuccessor,
    CPElementGroup.addPredecessor, apply_ite CPElementGroup.successors, ite_self]
  split_ifs with isSource
  · simp [isSource, or_comm]
  · simp [isSource]

omit [DecidableEq E] in
theorem connectGroups_pred {source target : Nat} (x y : Nat) :
    (C.connectGroups m source target).forward.pred y x ↔
      C.forward.pred y x ∨ x = source ∧ y = target := by
  simp only [connectGroups, forward, modify_group, CPElementGroup.addSuccessor,
    CPElementGroup.addPredecessor, apply_ite CPElementGroup.predecessors, ite_self]
  split_ifs with isTarget
  · simp [isTarget, or_comm]
  · simp [isTarget]

omit [DecidableEq E] in
theorem connectMarkedGroups_spec {source target : Nat} {delay : Int} {C' : GroupGraph E}
    (run : C.connectMarkedGroups m source target delay = some C') :
    Relinked C C' ∧ C'.forward = C.forward ∧
      (∀ x y, C'.marked.succ x y ↔ C.marked.succ x y ∨ x = source ∧ y = target) ∧
      ∀ x y, C'.marked.pred y x ↔ C.marked.pred y x ∨ x = source ∧ y = target := by
  unfold connectMarkedGroups at run
  split_ifs at run
  rw [← Option.some.inj run]
  refine ⟨?_, ?_, ?_, ?_⟩
  · refine Relinked.trans (Relinked.modify ?_) (Relinked.modify ?_)
    · exact fun _ => ⟨rfl, rfl⟩
    · exact fun _ => ⟨rfl, rfl⟩
  · simp only [forward, modify_group, CPElementGroup.addMarkedSuccessor,
      CPElementGroup.addMarkedPredecessor, apply_ite CPElementGroup.successors,
      apply_ite CPElementGroup.predecessors, ite_self]
  · intro x y
    simp only [marked, modify_group, CPElementGroup.addMarkedSuccessor,
      CPElementGroup.addMarkedPredecessor, apply_ite CPElementGroup.markedSuccessors, ite_self]
    split_ifs with isSource
    · simp [isSource, or_comm]
    · simp [isSource]
  · intro x y
    simp only [marked, modify_group, CPElementGroup.addMarkedSuccessor,
      CPElementGroup.addMarkedPredecessor, apply_ite CPElementGroup.markedPredecessors, ite_self]
    split_ifs with isTarget
    · simp [isTarget, or_comm]
    · simp [isTarget]

omit [DecidableEq E] in
theorem erasePredecessor_pred (x y : Nat) :
    (C.modify s (CPElementGroup.erasePredecessor part)).forward.pred y x ↔
      C.forward.pred y x ∧ ¬ (x = part ∧ y = s) := by
  simp only [forward, modify_group, CPElementGroup.erasePredecessor]
  split_ifs with isS
  · simp [isS]
  · simp [isS]

omit [DecidableEq E] in
theorem erasePredecessor_succ (x y : Nat) :
    (C.modify s (CPElementGroup.erasePredecessor part)).forward.succ x y ↔ C.forward.succ x y := by
  simp only [forward, modify_group, CPElementGroup.erasePredecessor,
    apply_ite CPElementGroup.successors, ite_self]

omit [DecidableEq E] in
theorem erasePredecessor_marked :
    (C.modify s (CPElementGroup.erasePredecessor part)).marked = C.marked := by
  simp only [marked, modify_group, CPElementGroup.erasePredecessor,
    apply_ite CPElementGroup.markedSuccessors, apply_ite CPElementGroup.markedPredecessors, ite_self]

omit [DecidableEq E] in
theorem forgetMarkedPredecessor_pred (x y : Nat) :
    (C.modify s (CPElementGroup.forgetMarkedPredecessor part)).marked.pred y x ↔
      C.marked.pred y x ∧ ¬ (x = part ∧ y = s) := by
  simp only [marked, modify_group, CPElementGroup.forgetMarkedPredecessor]
  split_ifs with isS
  · simp [isS]
  · simp [isS]

omit [DecidableEq E] in
theorem forgetMarkedSuccessor_succ (x y : Nat) :
    (C.modify s (CPElementGroup.forgetMarkedSuccessor part)).marked.succ x y ↔
      C.marked.succ x y ∧ ¬ (y = part ∧ x = s) := by
  simp only [marked, modify_group, CPElementGroup.forgetMarkedSuccessor]
  split_ifs with isS
  · simp [isS]
  · simp [isS]

omit [DecidableEq E] in
theorem moveSuccessor_spec (C : GroupGraph E) (part whole s : Nat) :
    let C' := moveSuccessor m part whole C s
    Relinked C C' ∧ C'.marked = C.marked ∧
      (∀ x y, C'.forward.succ x y ↔ C.forward.succ x y ∨ x = whole ∧ y = s ∧ C.Live s) ∧
      ∀ x y, C'.forward.pred y x ↔
        C.forward.pred y x ∧ ¬ (x = part ∧ y = s) ∨ x = whole ∧ y = s ∧ C.Live s := by
  have relinked : Relinked C (C.modify s (CPElementGroup.erasePredecessor part)) :=
    Relinked.modify fun _ => ⟨rfl, rfl⟩
  unfold moveSuccessor
  dsimp only
  by_cases isLive : C.Live s
  · rw [if_pos isLive]
    refine ⟨relinked.trans connectGroups_relinked, connectGroups_marked.trans erasePredecessor_marked, ?_, ?_⟩
    · intro x y
      rw [connectGroups_succ, erasePredecessor_succ]
      simp only [isLive, and_true]
    · intro x y
      rw [connectGroups_pred, erasePredecessor_pred]
      simp only [isLive, and_true]
  · rw [if_neg isLive]
    refine ⟨relinked, erasePredecessor_marked, ?_, ?_⟩
    · intro x y
      rw [erasePredecessor_succ]
      simp only [isLive, and_false, or_false]
    · intro x y
      rw [erasePredecessor_pred]
      simp only [isLive, and_false, or_false]

omit [DecidableEq E] in
theorem connectMarkedGroups_if_spec {source target : Nat} {delay : Int} {connects : Prop} [Decidable connects]
    {C' : GroupGraph E} (run : (if connects then C.connectMarkedGroups m source target delay else some C) = some C') :
    Relinked C C' ∧ C'.forward = C.forward ∧
      (∀ x y, C'.marked.succ x y ↔ C.marked.succ x y ∨ x = source ∧ y = target ∧ connects) ∧
      ∀ x y, C'.marked.pred y x ↔ C.marked.pred y x ∨ x = source ∧ y = target ∧ connects := by
  by_cases does : connects
  · rw [if_pos does] at run
    obtain ⟨relinked, sameForward, succs, preds⟩ := connectMarkedGroups_spec run
    refine ⟨relinked, sameForward, fun x y => ?_, fun x y => ?_⟩
    · rw [succs]
      simp only [does, and_true]
    · rw [preds]
      simp only [does, and_true]
  · rw [if_neg does] at run
    obtain rfl := Option.some.inj run
    refine ⟨Relinked.refl, rfl, fun x y => ?_, fun x y => ?_⟩
    · simp only [does, and_false, or_false]
    · simp only [does, and_false, or_false]

omit [DecidableEq E] in
theorem moveMarkedSuccessor_spec {C' : GroupGraph E}
    (run : moveMarkedSuccessor m part whole C s = some C') :
    Relinked C C' ∧ C'.forward = C.forward ∧
      (∀ x y, C'.marked.succ x y ↔
        C.marked.succ x y ∨ x = whole ∧ y = s ∧ C.Live s ∧ whole ≠ s) ∧
      ∀ x y, C'.marked.pred y x ↔
        C.marked.pred y x ∧ ¬ (x = part ∧ y = s) ∨ x = whole ∧ y = s ∧ C.Live s ∧ whole ≠ s := by
  have relinked : Relinked C (C.modify s (CPElementGroup.forgetMarkedPredecessor part)) :=
    Relinked.modify fun _ => ⟨rfl, rfl⟩
  have sameForward : (C.modify s (CPElementGroup.forgetMarkedPredecessor part)).forward = C.forward := by
    simp only [forward, modify_group, CPElementGroup.forgetMarkedPredecessor,
      apply_ite CPElementGroup.successors, apply_ite CPElementGroup.predecessors, ite_self]
  have sameSucc : ∀ x y, (C.modify s (CPElementGroup.forgetMarkedPredecessor part)).marked.succ x y ↔
      C.marked.succ x y := by
    intro x y
    simp only [marked, modify_group, CPElementGroup.forgetMarkedPredecessor,
      apply_ite CPElementGroup.markedSuccessors, ite_self]
  obtain ⟨relinked', sameForward', succs, preds⟩ := connectMarkedGroups_if_spec run
  refine ⟨relinked.trans relinked', sameForward'.trans sameForward, fun x y => ?_, fun x y => ?_⟩
  · rw [succs, sameSucc]
  · rw [preds, forgetMarkedPredecessor_pred]

omit [DecidableEq E] in
theorem moveMarkedPredecessor_spec {C' : GroupGraph E}
    (run : moveMarkedPredecessor m part whole C s = some C') :
    Relinked C C' ∧ C'.forward = C.forward ∧
      (∀ x y, C'.marked.succ x y ↔
        C.marked.succ x y ∧ ¬ (y = part ∧ x = s) ∨ y = whole ∧ x = s ∧ C.Live s ∧ whole ≠ s) ∧
      ∀ x y, C'.marked.pred y x ↔
        C.marked.pred y x ∨ y = whole ∧ x = s ∧ C.Live s ∧ whole ≠ s := by
  have relinked : Relinked C (C.modify s (CPElementGroup.forgetMarkedSuccessor part)) :=
    Relinked.modify fun _ => ⟨rfl, rfl⟩
  have sameForward : (C.modify s (CPElementGroup.forgetMarkedSuccessor part)).forward = C.forward := by
    simp only [forward, modify_group, CPElementGroup.forgetMarkedSuccessor,
      apply_ite CPElementGroup.successors, apply_ite CPElementGroup.predecessors, ite_self]
  have samePred : ∀ x y, (C.modify s (CPElementGroup.forgetMarkedSuccessor part)).marked.pred y x ↔
      C.marked.pred y x := by
    intro x y
    simp only [marked, modify_group, CPElementGroup.forgetMarkedSuccessor,
      apply_ite CPElementGroup.markedPredecessors, ite_self]
  obtain ⟨relinked', sameForward', succs, preds⟩ := connectMarkedGroups_if_spec run
  refine ⟨relinked.trans relinked', sameForward'.trans sameForward, fun x y => ?_, fun x y => ?_⟩
  · rw [succs, forgetMarkedSuccessor_succ, and_left_comm]
  · rw [preds, samePred, and_left_comm]

end Steps

section Loops
variable {part whole : Nat}

omit [DecidableEq E] in
theorem moveSuccessors_spec (distinct : part ≠ whole) : ∀ (ss : List Nat) (C : GroupGraph E),
    let C' := ss.foldl (moveSuccessor m part whole) C
    C'.marked = C.marked ∧
      (∀ x y, C'.forward.succ x y ↔ C.forward.succ x y ∨ x = whole ∧ y ∈ ss ∧ C.Live y) ∧
      ∀ x y, C'.forward.pred y x ↔
        C.forward.pred y x ∧ ¬ (x = part ∧ y ∈ ss) ∨ x = whole ∧ y ∈ ss ∧ C.Live y := by
  intro ss
  induction ss with
  | nil => exact fun C => ⟨rfl, by simp, by simp⟩
  | cons s rest ih =>
      intro C
      obtain ⟨relinked, sameMarked, succs, preds⟩ := moveSuccessor_spec (m := m) C part whole s
      obtain ⟨sameMarked', succs', preds'⟩ := ih (moveSuccessor m part whole C s)
      refine ⟨sameMarked'.trans sameMarked, ?_, ?_⟩
      · intro x y
        rw [List.foldl_cons, succs', succs, relinked.live, List.mem_cons]
        grind
      · intro x y
        rw [List.foldl_cons, preds', preds, relinked.live, List.mem_cons]
        grind

/-- Arcs between `part` and the vertices of `ends` go to `whole`; `near` are the links that the vertices kept
list, `far` those that the others list. -/
structure Moved (part whole : Nat) (near far : GroupGraph E → Nat → Nat → Prop) (ends : List Nat)
    (C C' : GroupGraph E) : Prop where
  forward : C'.forward = C.forward
  near : ∀ x y, near C' x y ↔ near C x y ∨ x = whole ∧ y ∈ ends ∧ C.Live y ∧ whole ≠ y
  far : ∀ x y, far C' x y ↔ far C x y ∧ ¬ (x = part ∧ y ∈ ends) ∨ x = whole ∧ y ∈ ends ∧ C.Live y ∧ whole ≠ y

omit [DecidableEq E] in
theorem foldlM_moved {near far : GroupGraph E → Nat → Nat → Prop} {turn : GroupGraph E → Nat → Option (GroupGraph E)}
    (distinct : part ≠ whole)
    (moved : ∀ C C' s, turn C s = some C' → Relinked C C' ∧ Moved part whole near far [s] C C') :
    ∀ (ss : List Nat) (C C' : GroupGraph E), ss.foldlM turn C = some C' → Moved part whole near far ss C C' := by
  intro ss
  induction ss with
  | nil =>
      intro C C' run
      obtain rfl := Option.some.inj run
      exact ⟨rfl, by simp, by simp⟩
  | cons s rest ih =>
      intro C C' run
      rw [List.foldlM_cons] at run
      obtain ⟨C₁, first, run⟩ := Option.bind_eq_some_iff.mp run
      obtain ⟨relinked, here⟩ := moved C C₁ s first
      have later := ih C₁ C' run
      refine ⟨later.forward.trans here.forward, ?_, ?_⟩
      · intro x y
        rw [later.near, here.near, relinked.live, List.mem_singleton, List.mem_cons]
        grind
      · intro x y
        rw [later.far, here.far, relinked.live, List.mem_singleton, List.mem_cons]
        grind

omit [DecidableEq E] in
theorem moveMarkedSuccessors_spec (distinct : part ≠ whole) {ss : List Nat} {C C' : GroupGraph E}
    (run : ss.foldlM (moveMarkedSuccessor m part whole) C = some C') :
    Moved part whole (fun C x y => C.marked.succ x y) (fun C x y => C.marked.pred y x) ss C C' := by
  refine foldlM_moved distinct (fun C C' s step => ?_) ss C C' run
  obtain ⟨relinked, sameForward, succs, preds⟩ := moveMarkedSuccessor_spec step
  refine ⟨relinked, sameForward, fun x y => ?_, fun x y => ?_⟩
  · rw [succs, List.mem_singleton]
    grind
  · rw [preds, List.mem_singleton]
    grind

omit [DecidableEq E] in
theorem moveMarkedPredecessors_spec (distinct : part ≠ whole) {ps : List Nat} {C C' : GroupGraph E}
    (run : ps.foldlM (moveMarkedPredecessor m part whole) C = some C') :
    Moved part whole (fun C x y => C.marked.pred x y) (fun C x y => C.marked.succ y x) ps C C' := by
  refine foldlM_moved distinct (fun C C' p step => ?_) ps C C' run
  obtain ⟨relinked, sameForward, succs, preds⟩ := moveMarkedPredecessor_spec step
  refine ⟨relinked, sameForward, fun x y => ?_, fun x y => ?_⟩
  · rw [preds, List.mem_singleton]
    grind
  · rw [succs, List.mem_singleton]
    grind

/-- The loop over the elements of `part` cannot fail, and leaves the links alone. -/
theorem moveElements_spec (whole : Nat) : ∀ (es : List E) (C : GroupGraph E),
    ∃ C', es.foldlM (moveToGroup m whole) C = some C' ∧
      C'.cpelementGroups = C.cpelementGroups ∧ C'.rootIndexCounter = C.rootIndexCounter ∧
      C'.forward = C.forward ∧ C'.marked = C.marked ∧
      (∀ e, C'.cpelementToGroupMap e =
        if e ∈ es then some (some whole) else C.cpelementToGroupMap e) ∧
      (∀ g e, e ∈ (C'.group g).elements ↔ e ∈ (C.group g).elements ∨ g = whole ∧ e ∈ es) ∧
      ∀ g, (C'.group g).successorVector = (C.group g).successorVector := by
  intro es
  induction es with
  | nil => exact fun C => ⟨C, rfl, rfl, rfl, rfl, rfl, by simp, by simp, by simp⟩
  | cons cpe rest ih =>
      intro C
      let C₁ : GroupGraph E :=
        { C.modify whole (CPElementGroup.addElement m.belowElement m.info cpe) with
          cpelementToGroupMap := fun e =>
            if e = cpe then some (some whole) else if e = cpe then none else C.cpelementToGroupMap e }
      have first : moveToGroup m whole C cpe = some C₁ := by
        rw [moveToGroup, addToGroup, if_pos (if_pos rfl)]
        rfl
      obtain ⟨C', run, groups, counter, sameForward, sameMarked, mapped, elements, vectors⟩ := ih C₁
      refine ⟨C', ?_, groups, counter, sameForward.trans ?_, sameMarked.trans ?_, ?_, ?_, ?_⟩
      · rw [List.foldlM_cons, first]
        exact run
      · simp only [C₁, forward, modify_group, CPElementGroup.addElement,
          apply_ite CPElementGroup.successors, apply_ite CPElementGroup.predecessors, ite_self]
      · simp only [C₁, marked, modify_group, CPElementGroup.addElement,
          apply_ite CPElementGroup.markedSuccessors, apply_ite CPElementGroup.markedPredecessors,
          ite_self]
      · intro e
        rw [mapped]
        by_cases isCpe : e = cpe
        · simp [C₁, isCpe]
        · simp [C₁, isCpe]
      · intro g e
        rw [elements, List.mem_cons]
        by_cases isWhole : g = whole
        · simp only [C₁, modify_group, isWhole, if_true, CPElementGroup.addElement, mem_insertPointer]
          tauto
        · simp [C₁, isWhole]
      · intro g
        rw [vectors]
        simp only [C₁, modify_group, CPElementGroup.addElement,
          apply_ite CPElementGroup.successorVector, ite_self]

end Loops

omit [DecidableEq E] in
theorem moveLinks_relinked {part whole : Nat} {C' : GroupGraph E}
    (run : C.moveLinks m part whole = some C') : Relinked C C' := by
  simp only [moveLinks] at run
  obtain ⟨C₁, successors, predecessors⟩ := Option.bind_eq_some_iff.mp run
  have first : Relinked C (C.modify whole (CPElementGroup.eraseSuccessors part)) :=
    Relinked.modify fun _ => ⟨rfl, rfl⟩
  have second := foldlM_relinked (fun _ _ _ step => (moveMarkedSuccessor_spec step).1) _ _ _ successors
  have third := foldlM_relinked (fun _ _ _ step => (moveMarkedPredecessor_spec step).1) _ _ _ predecessors
  exact ((first.trans (foldl_relinked (fun C s => (moveSuccessor_spec C part whole s).1) _ _)).trans second).trans third

omit [DecidableEq E] in
theorem eraseSuccessors_links (part whole x y : Nat) :
    ((C.modify whole (CPElementGroup.eraseSuccessors part)).forward.succ x y ↔
      C.forward.succ x y ∧ ¬ (x = whole ∧ y = part)) ∧
    ((C.modify whole (CPElementGroup.eraseSuccessors part)).forward.pred y x ↔ C.forward.pred y x) ∧
    ((C.modify whole (CPElementGroup.eraseSuccessors part)).marked.succ x y ↔
      C.marked.succ x y ∧ ¬ (x = whole ∧ y = part)) ∧
    ((C.modify whole (CPElementGroup.eraseSuccessors part)).marked.pred y x ↔ C.marked.pred y x) := by
  simp only [forward, marked, modify_group, CPElementGroup.eraseSuccessors,
    apply_ite CPElementGroup.predecessors, apply_ite CPElementGroup.markedPredecessors, ite_self]
  by_cases isWhole : x = whole
  · simp [isWhole]
  · simp [isWhole]

omit [DecidableEq E] in
theorem moveLinks_spec {part whole : Nat} (distinct : part ≠ whole) {C' : GroupGraph E}
    (run : C.moveLinks m part whole = some C') :
    (∀ x y, (C'.forward.succ x y ↔ C.forward.succ x y ∧ ¬ (x = whole ∧ y = part) ∨
        x = whole ∧ C.forward.succ part y ∧ C.Live y) ∧
      (C'.forward.pred y x ↔ C.forward.pred y x ∧ ¬ (x = part ∧ C.forward.succ part y) ∨
        x = whole ∧ C.forward.succ part y ∧ C.Live y)) ∧
    ∃ marked₁ : Links Nat,
      (∀ x y, (marked₁.succ x y ↔ C.marked.succ x y ∧ ¬ (x = whole ∧ y = part) ∨
          x = whole ∧ C.marked.succ part y ∧ C.Live y ∧ whole ≠ y) ∧
        (marked₁.pred y x ↔ C.marked.pred y x ∧ ¬ (x = part ∧ C.marked.succ part y) ∨
          x = whole ∧ C.marked.succ part y ∧ C.Live y ∧ whole ≠ y)) ∧
      ∀ x y, (C'.marked.succ x y ↔ marked₁.succ x y ∧ ¬ (y = part ∧ marked₁.pred part x) ∨
          y = whole ∧ marked₁.pred part x ∧ C.Live x ∧ whole ≠ x) ∧
        (C'.marked.pred y x ↔ marked₁.pred y x ∨
          y = whole ∧ marked₁.pred part x ∧ C.Live x ∧ whole ≠ x) := by
  have ofPart : ∀ {A : Type} (f : CPElementGroup E → A),
      f ((C.modify whole (CPElementGroup.eraseSuccessors part)).group part) = f (C.group part) := by
    intro A f
    rw [modify_group, if_neg distinct]
  simp only [moveLinks, ofPart CPElementGroup.successors] at run
  obtain ⟨C₁, successors, predecessors⟩ := Option.bind_eq_some_iff.mp run
  obtain ⟨sameMarked, succs, preds⟩ := moveSuccessors_spec (m := m) distinct (C.group part).successors
    (C.modify whole (CPElementGroup.eraseSuccessors part))
  obtain ⟨sameForward, succs', preds'⟩ := moveMarkedSuccessors_spec distinct successors
  obtain ⟨sameForward', preds'', succs''⟩ := moveMarkedPredecessors_spec distinct predecessors
  have erased : Relinked C (C.modify whole (CPElementGroup.eraseSuccessors part)) :=
    Relinked.modify fun _ => ⟨rfl, rfl⟩
  have relinked := erased.trans (foldl_relinked
    (fun C s => (moveSuccessor_spec (m := m) C part whole s).1)
    (C.group part).successors _)
  have relinked' := relinked.trans
    (foldlM_relinked (fun _ _ _ step => (moveMarkedSuccessor_spec step).1) _ _ _ successors)
  have listed : ∀ y, y ∈ (((C.group part).successors.foldl (moveSuccessor m part whole)
      (C.modify whole (CPElementGroup.eraseSuccessors part))).group part).markedSuccessors ↔
      C.marked.succ part y := by
    intro y
    have same := congrArg (fun L : Links Nat => L.succ part y) sameMarked
    refine (Iff.of_eq same).trans ?_
    rw [(eraseSuccessors_links part whole part y).2.2.1]
    exact and_iff_left fun isWhole => distinct isWhole.1
  refine ⟨fun x y => ⟨?_, ?_⟩, C₁.marked, fun x y => ⟨?_, ?_⟩, fun x y => ⟨?_, ?_⟩⟩
  · rw [sameForward', sameForward, succs, (eraseSuccessors_links part whole x y).1]
    rfl
  · rw [sameForward', sameForward, preds, (eraseSuccessors_links part whole x y).2.1]
    rfl
  · rw [succs', sameMarked, (eraseSuccessors_links part whole x y).2.2.1, listed, relinked.live]
  · rw [preds', sameMarked, (eraseSuccessors_links part whole x y).2.2.2, listed, relinked.live]
  · rw [succs'', relinked'.live]
    rfl
  · rw [preds'', relinked'.live]
    rfl

theorem mergeGroups_cases {part whole : Nat} {C' : GroupGraph E}
    (run : C.mergeGroups m part whole = some C') :
    (C.group part).predecessors.length = 1 ∧ ∃ C₁, C.moveLinks m part whole = some C₁ ∧
      C'.forward = C₁.forward ∧ C'.marked = C₁.marked ∧
      C'.cpelementGroups = erasePointer part C.cpelementGroups ∧
      C'.rootIndexCounter = C.rootIndexCounter ∧
      (∀ e, C'.cpelementToGroupMap e =
        if e ∈ (C.group part).elements then some (some whole) else C.cpelementToGroupMap e) ∧
      (∀ g e, e ∈ (C'.group g).elements ↔
        e ∈ (C.group g).elements ∨ g = whole ∧ e ∈ (C.group part).elements) ∧
      ∀ g, (C'.group g).successorVector = (C.group g).successorVector := by
  unfold mergeGroups at run
  split_ifs at run with mergeable
  obtain ⟨C₁, links, run⟩ := Option.bind_eq_some_iff.mp run
  obtain ⟨C₂, elements, run⟩ := Option.bind_eq_some_iff.mp run
  have relinked := moveLinks_relinked links
  obtain ⟨C₂', moved, groups, counter, sameForward, sameMarked, mapped, members, vectors⟩ :=
    moveElements_spec (m := m) whole (C₁.group part).elements C₁
  obtain rfl := Option.some.inj (moved.symm.trans elements)
  obtain rfl := Option.some.inj run
  refine ⟨mergeable.2.2.2.2.1, C₁, links, sameForward, sameMarked, ?_, ?_, ?_, ?_, ?_⟩
  · show erasePointer part C₂'.cpelementGroups = _
    rw [groups, relinked.cpelementGroups]
  · exact counter.trans relinked.rootIndexCounter
  · intro e
    show C₂'.cpelementToGroupMap e = _
    rw [mapped, relinked.elements, relinked.cpelementToGroupMap]
  · intro g e
    show e ∈ (C₂'.group g).elements ↔ _
    rw [members, relinked.elements, relinked.elements]
  · exact fun g => (vectors g).trans (relinked.successorVector g)

section Merge
variable {part whole : Nat} {C₁ : GroupGraph E} {live : Nat → Prop}

omit [DecidableEq E] in
/-- The arcs of `part` go to `whole`, and those between the two are gone. -/
theorem WellFormed.moveLinks_forward (wf : C.WellFormed) (livePart : C.Live part) (distinct : part ≠ whole)
    (sole : (C.group part).predecessors = [whole]) (run : C.moveLinks m part whole = some C₁)
    (left : ∀ g, live g ↔ C.Live g ∧ g ≠ part) :
    Links.Edited C.forward C₁.forward live (fun x => x = part) (fun x y => x = whole ∧ C.forward.succ part y) := by
  have fromWhole : ∀ x, C.forward.pred part x → x = whole := by
    intro x arc
    change x ∈ (C.group part).predecessors at arc
    rwa [sole, List.mem_singleton] at arc
  obtain ⟨forwardLinks, _⟩ := moveLinks_spec distinct run
  constructor
  · intro x y isLive
    rw [(forwardLinks x y).1]
    have toPart : C.forward.succ x part → x = whole := fun arc =>
      fromWhole x (wf.forward_closed.successors x part ((left x).mp isLive).1 arc).2
    have liveY : C.forward.succ part y → C.Live y := fun arc =>
      (wf.forward_closed.successors part y livePart arc).1
    grind
  · intro x y isLive
    rw [(forwardLinks x y).2]
    have ofPart : C.forward.pred y part → C.forward.succ part y := fun arc =>
      (wf.forward_closed.predecessors part y ((left y).mp isLive).1 arc).2
    have liveY := ((left y).mp isLive).1
    grind

omit [DecidableEq E] in
theorem WellFormed.moveLinks_marked (wf : C.WellFormed) (livePart : C.Live part) (distinct : part ≠ whole)
    (run : C.moveLinks m part whole = some C₁) (left : ∀ g, live g ↔ C.Live g ∧ g ≠ part) :
    Links.Edited C.marked C₁.marked live (fun x => x = part)
      (fun x y => x = whole ∧ y ≠ whole ∧ y ≠ part ∧ C.marked.succ part y ∨
        y = whole ∧ x ≠ whole ∧ x ≠ part ∧ C.marked.pred part x) := by
  obtain ⟨_, marked₁, first, second⟩ := moveLinks_spec distinct run
  constructor
  · intro x y isLive
    rw [(second x y).1, (first x y).1, (first x part).2]
    obtain ⟨liveX, otherX⟩ := (left x).mp isLive
    have toPart : C.marked.succ x part → C.marked.pred part x := fun arc =>
      (wf.marked_closed.successors x part liveX arc).2
    have liveY : C.marked.succ part y → C.Live y := fun arc =>
      (wf.marked_closed.successors part y livePart arc).1
    grind
  · intro x y isLive
    rw [(second x y).2, (first x y).2, (first x part).2]
    obtain ⟨liveY, otherY⟩ := (left y).mp isLive
    have ofPart : C.marked.pred y part → C.marked.succ part y := fun arc =>
      (wf.marked_closed.predecessors part y liveY arc).2
    have liveX : C.marked.pred part x → C.Live x := fun arc =>
      (wf.marked_closed.predecessors x part livePart arc).1
    have loop := wf.marked_closed.succ_iff livePart livePart
    grind

end Merge

theorem WellFormed.mergeGroups (wf : C.WellFormed) {part whole : Nat} (livePart : C.Live part)
    (distinct : part ≠ whole) (sole : (C.group part).predecessors = [whole]) {C' : GroupGraph E}
    (run : C.mergeGroups m part whole = some C') : C'.WellFormed := by
  obtain ⟨_, C₁, links, sameForward, sameMarked, groups, counter, mapped, members, _⟩ :=
    mergeGroups_cases run
  have live : ∀ g, C'.Live g ↔ C.Live g ∧ g ≠ part := by
    intro g
    rw [Live, groups, mem_erasePointer]
    rfl
  have fromWhole : ∀ x, C.forward.pred part x ↔ x = whole := by
    intro x
    show x ∈ (C.group part).predecessors ↔ _
    rw [sole, List.mem_singleton]
  have liveWhole : C.Live whole :=
    (wf.forward_closed.predecessors whole part livePart ((fromWhole whole).mpr rfl)).1
  have noLoop : ¬ C.forward.succ part part := by
    intro loop
    exact distinct ((fromWhole part).mp (wf.forward_closed.successors part part livePart loop).2)
  have stays : ∀ x, C.Live x → x ≠ part → C'.Live x := fun x isLive other => (live x).mpr ⟨isLive, other⟩
  have forwardEdited := wf.moveLinks_forward livePart distinct sole links live
  have markedEdited := wf.moveLinks_marked livePart distinct links live
  refine ⟨⟨?_, ?_, ?_, ?_, ?_, ?_⟩, ?_⟩
  · rw [sameForward]
    apply wf.forward_closed.edit forwardEdited live
    rintro x y _ ⟨rfl, arc⟩
    refine ⟨stays x liveWhole distinct.symm, stays y ?_ ?_⟩
    · exact (wf.forward_closed.successors part y livePart arc).1
    · rintro rfl
      exact noLoop arc
  · rw [sameMarked]
    apply wf.marked_closed.edit markedEdited live
    rintro x y _ (⟨rfl, _, other, arc⟩ | ⟨rfl, _, other, arc⟩)
    · have liveY := (wf.marked_closed.successors part y livePart arc).1
      exact ⟨stays x liveWhole distinct.symm, stays y liveY other⟩
    · have liveX := (wf.marked_closed.predecessors x part livePart arc).1
      exact ⟨stays x liveX other, stays y liveWhole distinct.symm⟩
  · intro g isLive e member
    obtain ⟨wasLive, other⟩ := (live g).mp isLive
    rw [mapped]
    rcases (members g e).mp member with member | ⟨rfl, member⟩
    · split_ifs with ofPart
      · exact absurd (wf.unique wasLive livePart member ofPart) other
      · exact wf.members g wasLive e member
    · rw [if_pos member]
  · intro e g isMapped
    rw [mapped] at isMapped
    split_ifs at isMapped with ofPart
    · obtain rfl := Option.some.inj (Option.some.inj isMapped)
      exact ⟨stays _ liveWhole distinct.symm, (members _ e).mpr (Or.inr ⟨rfl, ofPart⟩)⟩
    · obtain ⟨wasLive, member⟩ := wf.belongs e g isMapped
      refine ⟨stays g wasLive ?_, (members g e).mpr (Or.inl member)⟩
      rintro rfl
      exact ofPart member
  · rw [groups]
    exact wf.nodup.filter _
  · intro g isLive
    rw [counter]
    exact wf.created g ((live g).mp isLive).1
  · intro g isLive
    obtain ⟨wasLive, _⟩ := (live g).mp isLive
    obtain ⟨e, member⟩ := List.exists_mem_of_ne_nil _ (wf.occupied g wasLive)
    exact List.ne_nil_of_mem ((members g e).mpr (Or.inl member))

/-- The graph stays well formed just when `whole` is the predecessor of `part`. -/
theorem mergeGroups_wellFormed_iff (wf : C.WellFormed) {part whole : Nat} (livePart : C.Live part)
    {C' : GroupGraph E} (run : C.mergeGroups m part whole = some C') :
    C'.WellFormed ↔ part ≠ whole ∧ (C.group part).predecessors = [whole] := by
  constructor
  · intro wf'
    obtain ⟨one, C₁, links, sameForward, sameMarked, groups, counter, mapped, members, _⟩ :=
      mergeGroups_cases run
    have live : ∀ g, C'.Live g ↔ C.Live g ∧ g ≠ part := by
      intro g
      rw [Live, groups, mem_erasePointer]
      rfl
    have distinct : part ≠ whole := by
      rintro rfl
      -- its elements are still mapped to the group that is gone
      obtain ⟨e, member⟩ := List.exists_mem_of_ne_nil _ (wf.occupied part livePart)
      have isMapped : C'.cpelementToGroupMap e = some (some part) := by
        rw [mapped, if_pos member]
      exact ((live part).mp (wf'.belongs e part isMapped).1).2 rfl
    refine ⟨distinct, ?_⟩
    obtain ⟨p, sole⟩ := List.length_eq_one_iff.mp one
    obtain ⟨forwardLinks, _⟩ := moveLinks_spec distinct links
    have isPred : C.forward.pred part p := by
      show p ∈ (C.group part).predecessors
      rw [sole]
      exact List.mem_singleton_self p
    obtain ⟨liveP, back⟩ := wf.forward_closed.predecessors p part livePart isPred
    have gone : ∀ x, C'.Live x → ¬ C'.forward.succ x part := by
      intro x isLive arc
      exact ((live part).mp (wf'.forward_closed.successors x part isLive arc).1).2 rfl
    by_contra other
    rw [sole, List.cons.injEq, and_iff_left rfl] at other
    by_cases isPart : p = part
    · -- the loop of `part` has become an arc of `whole`
      subst isPart
      have liveWhole : C'.Live whole := by
        obtain ⟨e, member⟩ := List.exists_mem_of_ne_nil _ (wf.occupied p livePart)
        have isMapped : C'.cpelementToGroupMap e = some (some whole) := by
          rw [mapped, if_pos member]
        exact (wf'.belongs e whole isMapped).1
      apply gone whole liveWhole
      rw [sameForward, (forwardLinks whole p).1]
      exact Or.inr ⟨rfl, back, livePart⟩
    · apply gone p ((live p).mpr ⟨liveP, isPart⟩)
      rw [sameForward, (forwardLinks p part).1]
      exact Or.inl ⟨back, fun isWhole => other isWhole.1⟩
  · rintro ⟨distinct, sole⟩
    exact wf.mergeGroups livePart distinct sole run

end GroupGraph

end Ahir.ControlPath
