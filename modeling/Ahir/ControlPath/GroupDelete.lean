import Ahir.ControlPath.GroupMerge

/-!
# Deleting groups and collapsing sets of groups

`Delete_Group` erases the group from the marked lists of its forward neighbours
only.  A marked arc to a group that stays is left behind unless a forward arc
goes the same way.  `Collapse_Pure_Transition_Set` puts a new group in the place
of a set of groups without marked arcs.
-/

set_option autoImplicit false

namespace Ahir.ControlPath
open Ahir.Graph

namespace GroupGraph
variable {E : Type} [DecidableEq E] (m : Memory E) (C : GroupGraph E)

/-- `_cpelement_groups.erase(g)`, its elements mapped to `NULL`. -/
def dropGroup (g : Nat) : GroupGraph E :=
  { C with
    cpelementGroups := erasePointer g C.cpelementGroups
    cpelementToGroupMap := fun e =>
      if e ∈ (C.group g).elements then some none else C.cpelementToGroupMap e }

def deleteGroup (C : GroupGraph E) (g : Nat) : GroupGraph E :=
  let C := C.dropGroup g
  let C := (C.group g).successors.foldl
    (fun C succ => C.modify succ (CPElementGroup.erasePredecessors g)) C
  (C.group g).predecessors.foldl (fun C pred => C.modify pred (CPElementGroup.eraseSuccessors g)) C

def deleteGroups (groups : List Nat) : GroupGraph E := groups.foldl deleteGroup C

/-- `new vcCPElementGroup`. -/
def newGroup : GroupGraph E :=
  { cpelementGroups := C.cpelementGroups ++ [C.rootIndexCounter]
    group := fun h => if h = C.rootIndexCounter then {} else C.group h
    cpelementToGroupMap := C.cpelementToGroupMap
    rootIndexCounter := C.rootIndexCounter + 1 }

/-- A predecessor of `e` outside of `tset` becomes one of `cg`. -/
def replacePredecessor (tset : List Nat) (cg e : Nat) (C : GroupGraph E) (pe : Nat) : GroupGraph E :=
  let erased := C.modify pe (CPElementGroup.eraseSuccessor e)
  if pe ∈ tset then erased else erased.connectGroups m pe cg

/-- A successor of `e` outside of `tset` becomes one of `cg`. -/
def replaceSuccessor (tset : List Nat) (cg e : Nat) (C : GroupGraph E) (se : Nat) : GroupGraph E :=
  let erased := C.modify se (CPElementGroup.erasePredecessor e)
  if se ∈ tset then erased else erased.connectGroups m cg se

/-- The turn of `Collapse_Pure_Transition_Set` for `e`, which gives its place to `cg`. -/
def replaceGroup (tset : List Nat) (cg : Nat) (C : GroupGraph E) (e : Nat) :
    Option (GroupGraph E) :=
  if (C.group cg).pipelineParent = none ∨ (C.group cg).pipelineParent = (C.group e).pipelineParent then do
    let C := C.modify cg fun g => { g with
      pipelineParent := g.pipelineParent.orElse fun _ => (C.group e).pipelineParent }
    let C ← (C.group e).elements.foldlM (moveToGroup m cg) C
    let C := (C.group e).predecessors.foldl (replacePredecessor m tset cg e) C
    let C := (C.group e).successors.foldl (replaceSuccessor m tset cg e) C
    some { C with cpelementGroups := erasePointer e C.cpelementGroups }
  else none

def collapsePureTransitionSet (tset : List Nat) : Option (GroupGraph E) :=
  if 1 < tset.length then
    tset.foldlM (replaceGroup m tset C.rootIndexCounter)
      (C.newGroup.modify C.rootIndexCounter fun g => { g with hasTransition := true })
  else some C

variable {m C}

section Delete
variable {g : Nat}

omit [DecidableEq E] in
theorem erasePredecessors_links (ss : List Nat) : ∀ C : GroupGraph E,
    let C' := ss.foldl (fun C succ => C.modify succ (CPElementGroup.erasePredecessors g)) C
    ∀ x y, (C'.forward.succ x y ↔ C.forward.succ x y) ∧
      (C'.marked.succ x y ↔ C.marked.succ x y) ∧
      (C'.forward.pred y x ↔ C.forward.pred y x ∧ ¬ (x = g ∧ y ∈ ss)) ∧
      (C'.marked.pred y x ↔ C.marked.pred y x ∧ ¬ (x = g ∧ y ∈ ss)) := by
  induction ss with
  | nil => simp
  | cons s rest ih =>
      intro C C' x y
      obtain ⟨succs, markedSuccs, preds, markedPreds⟩ :=
        ih (C.modify s (CPElementGroup.erasePredecessors g)) x y
      simp only [C']
      rw [List.foldl_cons, succs, markedSuccs, preds, markedPreds]
      simp only [forward, marked, modify_group, CPElementGroup.erasePredecessors,
        apply_ite CPElementGroup.successors, apply_ite CPElementGroup.markedSuccessors, ite_self,
        List.mem_cons]
      by_cases isS : y = s
      · simp only [isS, if_true, mem_erasePointer]
        grind
      · simp only [isS, if_false]
        grind

omit [DecidableEq E] in
theorem eraseSuccessors_loop (ps : List Nat) : ∀ C : GroupGraph E,
    let C' := ps.foldl (fun C pred => C.modify pred (CPElementGroup.eraseSuccessors g)) C
    ∀ x y, (C'.forward.pred y x ↔ C.forward.pred y x) ∧
      (C'.marked.pred y x ↔ C.marked.pred y x) ∧
      (C'.forward.succ x y ↔ C.forward.succ x y ∧ ¬ (y = g ∧ x ∈ ps)) ∧
      (C'.marked.succ x y ↔ C.marked.succ x y ∧ ¬ (y = g ∧ x ∈ ps)) := by
  induction ps with
  | nil => simp
  | cons p rest ih =>
      intro C C' x y
      obtain ⟨preds, markedPreds, succs, markedSuccs⟩ :=
        ih (C.modify p (CPElementGroup.eraseSuccessors g)) x y
      simp only [C']
      obtain ⟨succ, pred, markedSucc, markedPred⟩ := eraseSuccessors_links (C := C) g p x y
      rw [List.foldl_cons, preds, markedPreds, succs, markedSuccs, succ, pred, markedSucc, markedPred,
        List.mem_cons]
      grind

omit [DecidableEq E] in
theorem erasePredecessors_relinked (ss : List Nat) :
    Relinked C (ss.foldl (fun C succ => C.modify succ (CPElementGroup.erasePredecessors g)) C) :=
  foldl_relinked (fun _ _ => Relinked.modify fun _ => by exact ⟨rfl, rfl⟩) ss C

omit [DecidableEq E] in
theorem eraseSuccessors_relinked (ps : List Nat) :
    Relinked C (ps.foldl (fun C pred => C.modify pred (CPElementGroup.eraseSuccessors g)) C) :=
  foldl_relinked (fun _ _ => Relinked.modify fun _ => by exact ⟨rfl, rfl⟩) ps C

theorem deleteGroup_relinked : Relinked (C.dropGroup g) (deleteGroup C g) :=
  (erasePredecessors_relinked _).trans (eraseSuccessors_relinked _)

theorem deleteGroup_links {x : Nat} (other : x ≠ g) (y : Nat) :
    ((deleteGroup C g).forward.succ x y ↔ C.forward.succ x y ∧ ¬ (y = g ∧ C.forward.pred g x)) ∧
    ((deleteGroup C g).marked.succ x y ↔ C.marked.succ x y ∧ ¬ (y = g ∧ C.forward.pred g x)) ∧
    ((deleteGroup C g).forward.pred x y ↔ C.forward.pred x y ∧ ¬ (y = g ∧ C.forward.succ g x)) ∧
    ((deleteGroup C g).marked.pred x y ↔ C.marked.pred x y ∧ ¬ (y = g ∧ C.forward.succ g x)) := by
  let D := (C.group g).successors.foldl
    (fun C succ => C.modify succ (CPElementGroup.erasePredecessors g)) (C.dropGroup g)
  have first : ∀ x y, (D.forward.succ x y ↔ C.forward.succ x y) ∧
      (D.marked.succ x y ↔ C.marked.succ x y) ∧
      (D.forward.pred y x ↔ C.forward.pred y x ∧ ¬ (x = g ∧ C.forward.succ g y)) ∧
      (D.marked.pred y x ↔ C.marked.pred y x ∧ ¬ (x = g ∧ C.forward.succ g y)) :=
    erasePredecessors_links (C.group g).successors (C.dropGroup g)
  have second : ∀ x y, ((deleteGroup C g).forward.pred y x ↔ D.forward.pred y x) ∧
      ((deleteGroup C g).marked.pred y x ↔ D.marked.pred y x) ∧
      ((deleteGroup C g).forward.succ x y ↔ D.forward.succ x y ∧ ¬ (y = g ∧ D.forward.pred g x)) ∧
      ((deleteGroup C g).marked.succ x y ↔ D.marked.succ x y ∧ ¬ (y = g ∧ D.forward.pred g x)) :=
    eraseSuccessors_loop (D.group g).predecessors D
  have listed : D.forward.pred g x ↔ C.forward.pred g x :=
    (first x g).2.2.1.trans (and_iff_left fun h => other h.1)
  obtain ⟨_, _, succs, markedSuccs⟩ := second x y
  obtain ⟨preds, markedPreds, _, _⟩ := second y x
  rw [succs, markedSuccs, preds, markedPreds, listed, (first x y).1, (first x y).2.1,
    (first y x).2.2.1, (first y x).2.2.2]
  exact ⟨Iff.rfl, Iff.rfl, Iff.rfl, Iff.rfl⟩

/-- The groups that are not deleted lose their forward arcs to the deleted ones,
and their marked arcs just along these. -/
theorem deleteGroups_links (groups : List Nat) : ∀ (C : GroupGraph E), groups.Nodup →
    ∀ x, x ∉ groups → ∀ y, ((C.deleteGroups groups).forward.succ x y ↔
        C.forward.succ x y ∧ ¬ (y ∈ groups ∧ C.forward.pred y x)) ∧
      ((C.deleteGroups groups).marked.succ x y ↔
        C.marked.succ x y ∧ ¬ (y ∈ groups ∧ C.forward.pred y x)) ∧
      ((C.deleteGroups groups).forward.pred x y ↔
        C.forward.pred x y ∧ ¬ (y ∈ groups ∧ C.forward.succ y x)) ∧
      ((C.deleteGroups groups).marked.pred x y ↔
        C.marked.pred x y ∧ ¬ (y ∈ groups ∧ C.forward.succ y x)) := by
  induction groups with
  | nil => simp [deleteGroups]
  | cons g rest ih =>
      intro C nodup x stays y
      rw [List.mem_cons, not_or] at stays
      obtain ⟨fresh, nodup⟩ := List.nodup_cons.mp nodup
      obtain ⟨succ, markedSucc, pred, markedPred⟩ := deleteGroup_links (C := C) stays.1 y
      obtain ⟨succs, markedSuccs, preds, markedPreds⟩ := ih (deleteGroup C g) nodup x stays.2 y
      have toX : y ≠ g → ((deleteGroup C g).forward.pred y x ↔ C.forward.pred y x) := fun other =>
        (deleteGroup_links other x).2.2.1.trans (and_iff_left fun h => stays.1 h.1)
      have fromX : y ≠ g → ((deleteGroup C g).forward.succ y x ↔ C.forward.succ y x) := fun other =>
        (deleteGroup_links other x).1.trans (and_iff_left fun h => stays.1 h.1)
      simp only [deleteGroups, List.foldl_cons, List.mem_cons] at succs markedSuccs preds markedPreds ⊢
      rw [succs, markedSuccs, preds, markedPreds, succ, markedSucc, pred, markedPred]
      clear ih succs markedSuccs preds markedPreds succ markedSucc pred markedPred
      grind

theorem deleteGroups_live (groups : List Nat) : ∀ (C : GroupGraph E),
    (C.deleteGroups groups).cpelementGroups = C.cpelementGroups.filter (fun g => g ∉ groups) ∧
    (C.deleteGroups groups).rootIndexCounter = C.rootIndexCounter ∧
    (∀ g, ((C.deleteGroups groups).group g).elements = (C.group g).elements) ∧
    ∀ e, (C.deleteGroups groups).cpelementToGroupMap e =
      if ∃ g ∈ groups, e ∈ (C.group g).elements then some none else C.cpelementToGroupMap e := by
  induction groups with
  | nil => simp [deleteGroups]
  | cons g rest ih =>
      intro C
      obtain ⟨live, counter, elements, mapped⟩ := ih (deleteGroup C g)
      have relinked := deleteGroup_relinked (C := C) (g := g)
      simp only [deleteGroups, List.foldl_cons] at live counter elements mapped ⊢
      refine ⟨?_, ?_, ?_, ?_⟩
      · rw [live, relinked.cpelementGroups, dropGroup, erasePointer, List.filter_filter]
        congr 1
        funext h
        simp [Bool.and_comm]
      · rw [counter, relinked.rootIndexCounter]
        rfl
      · intro h
        rw [elements, relinked.elements]
        rfl
      · intro e
        rw [mapped, relinked.cpelementToGroupMap]
        simp only [relinked.elements, dropGroup]
        by_cases first : e ∈ (C.group g).elements
        · simp [first]
        · simp [first]

end Delete

/-- Every marked arc between a deleted group and one that stays has a forward arc along it. -/
def DeletesCleanly (C : GroupGraph E) (groups : List Nat) : Prop :=
  ∀ d ∈ groups, ∀ x, C.Live x → x ∉ groups →
    (C.marked.succ x d → C.forward.succ x d) ∧ (C.marked.succ d x → C.forward.succ d x)

/-- Deleting groups leaves no reference to them just when each marked arc to a
group that stays has a forward arc along it. -/
theorem deleteGroups_wellFormed_iff (wf : C.WellFormed) {groups : List Nat}
    (live : ∀ d ∈ groups, C.Live d) (nodup : groups.Nodup) :
    (C.deleteGroups groups).WellFormed ↔ C.DeletesCleanly groups := by
  obtain ⟨listed, counter, elements, mapped⟩ := deleteGroups_live groups C
  have links := deleteGroups_links groups C nodup
  have live_iff : ∀ x, (C.deleteGroups groups).Live x ↔ C.Live x ∧ x ∉ groups := by
    intro x
    rw [Live, listed, List.mem_filter, decide_eq_true_eq]
    rfl
  constructor
  · intro wf' d isDeleted x isLive stays
    have isLive' := (live_iff x).mpr ⟨isLive, stays⟩
    have gone : ¬ (C.deleteGroups groups).Live d := fun h => ((live_iff d).mp h).2 isDeleted
    constructor
    · intro arc
      by_contra alone
      have left : (C.deleteGroups groups).marked.succ x d := by
        refine (links x stays d).2.1.mpr ⟨arc, fun back => alone ?_⟩
        exact (wf.forward_closed.predecessors x d (live d isDeleted) back.2).2
      exact gone (wf'.marked_closed.successors x d isLive' left).1
    · intro arc
      by_contra alone
      have left : (C.deleteGroups groups).marked.pred x d := by
        refine (links x stays d).2.2.2.mpr ⟨?_, fun back => alone back.2⟩
        exact (wf.marked_closed.successors d x (live d isDeleted) arc).2
      exact gone (wf'.marked_closed.predecessors d x isLive' left).1
  · intro clean
    have forwardEdited : Links.Edited C.forward (C.deleteGroups groups).forward
        (C.deleteGroups groups).Live (fun x => x ∈ groups) (fun _ _ => False) := by
      constructor
      · intro x y isLive
        obtain ⟨wasLive, stays⟩ := (live_iff x).mp isLive
        rw [(links x stays y).1, or_false]
        have back := wf.forward_closed.successors x y wasLive
        tauto
      · intro x y isLive
        obtain ⟨wasLive, stays⟩ := (live_iff y).mp isLive
        rw [(links y stays x).2.2.1, or_false]
        have back := wf.forward_closed.predecessors x y wasLive
        tauto
    have markedEdited : Links.Edited C.marked (C.deleteGroups groups).marked
        (C.deleteGroups groups).Live (fun x => x ∈ groups) (fun _ _ => False) := by
      constructor
      · intro x y isLive
        obtain ⟨wasLive, stays⟩ := (live_iff x).mp isLive
        rw [(links x stays y).2.1, or_false]
        have along := fun h : y ∈ groups => (clean y h x wasLive stays).1
        have back := wf.forward_closed.successors x y wasLive
        tauto
      · intro x y isLive
        obtain ⟨wasLive, stays⟩ := (live_iff y).mp isLive
        rw [(links y stays x).2.2.2, or_false]
        have along := fun h : x ∈ groups => (clean x h y wasLive stays).2
        have back := wf.marked_closed.predecessors x y wasLive
        tauto
    refine ⟨⟨?_, ?_, ?_, ?_, ?_, ?_⟩, ?_⟩
    · exact wf.forward_closed.edit forwardEdited live_iff fun _ _ _ => False.elim
    · exact wf.marked_closed.edit markedEdited live_iff fun _ _ _ => False.elim
    · intro g isLive e member
      obtain ⟨wasLive, stays⟩ := (live_iff g).mp isLive
      rw [elements] at member
      rw [mapped, if_neg]
      · exact wf.members g wasLive e member
      · rintro ⟨d, isDeleted, inD⟩
        exact stays (wf.unique wasLive (live d isDeleted) member inD ▸ isDeleted)
    · intro e g isMapped
      rw [mapped] at isMapped
      split_ifs at isMapped with deleted
      · cases isMapped
      · obtain ⟨wasLive, member⟩ := wf.belongs e g isMapped
        rw [live_iff, elements]
        exact ⟨⟨wasLive, fun isDeleted => deleted ⟨g, isDeleted, member⟩⟩, member⟩
    · rw [listed]
      exact wf.nodup.filter _
    · intro g isLive
      rw [counter]
      exact wf.created g ((live_iff g).mp isLive).1
    · intro g isLive
      rw [elements]
      exact wf.occupied g ((live_iff g).mp isLive).1

section Collapse
variable {tset : List Nat} {cg e : Nat}

omit [DecidableEq E] in
theorem eraseSuccessor_links {s : Nat} (x y : Nat) :
    ((C.modify s (CPElementGroup.eraseSuccessor e)).forward.succ x y ↔
      C.forward.succ x y ∧ ¬ (y = e ∧ x = s)) ∧
    ((C.modify s (CPElementGroup.eraseSuccessor e)).forward.pred y x ↔ C.forward.pred y x) := by
  simp only [forward, modify_group, CPElementGroup.eraseSuccessor,
    apply_ite CPElementGroup.predecessors, ite_self]
  by_cases isS : x = s
  · simp [isS]
  · simp [isS]

omit [DecidableEq E] in
theorem replacePredecessor_spec (C : GroupGraph E) (tset : List Nat) (cg e p : Nat) :
    let C' := replacePredecessor m tset cg e C p
    Relinked C C' ∧ C'.marked = C.marked ∧ ∀ x y,
      (C'.forward.succ x y ↔
        C.forward.succ x y ∧ ¬ (y = e ∧ x = p) ∨ y = cg ∧ x = p ∧ p ∉ tset) ∧
      (C'.forward.pred y x ↔ C.forward.pred y x ∨ y = cg ∧ x = p ∧ p ∉ tset) := by
  have erased : Relinked C (C.modify p (CPElementGroup.eraseSuccessor e)) :=
    Relinked.modify fun _ => ⟨rfl, rfl⟩
  have sameMarked : (C.modify p (CPElementGroup.eraseSuccessor e)).marked = C.marked := by
    simp only [marked, modify_group, CPElementGroup.eraseSuccessor,
      apply_ite CPElementGroup.markedSuccessors, apply_ite CPElementGroup.markedPredecessors, ite_self]
  unfold replacePredecessor
  dsimp only
  by_cases inside : p ∈ tset
  · rw [if_pos inside]
    refine ⟨erased, sameMarked, fun x y => ?_⟩
    rw [(eraseSuccessor_links x y).1, (eraseSuccessor_links x y).2]
    simp [inside]
  · rw [if_neg inside]
    refine ⟨erased.trans connectGroups_relinked, connectGroups_marked.trans sameMarked, fun x y => ?_⟩
    rw [connectGroups_succ, connectGroups_pred, (eraseSuccessor_links x y).1,
      (eraseSuccessor_links x y).2]
    simp [inside, and_comm]

omit [DecidableEq E] in
theorem replaceSuccessor_spec (C : GroupGraph E) (tset : List Nat) (cg e s : Nat) :
    let C' := replaceSuccessor m tset cg e C s
    Relinked C C' ∧ C'.marked = C.marked ∧ ∀ x y,
      (C'.forward.succ x y ↔ C.forward.succ x y ∨ x = cg ∧ y = s ∧ s ∉ tset) ∧
      (C'.forward.pred y x ↔
        C.forward.pred y x ∧ ¬ (x = e ∧ y = s) ∨ x = cg ∧ y = s ∧ s ∉ tset) := by
  have erased : Relinked C (C.modify s (CPElementGroup.erasePredecessor e)) :=
    Relinked.modify fun _ => ⟨rfl, rfl⟩
  unfold replaceSuccessor
  dsimp only
  by_cases inside : s ∈ tset
  · rw [if_pos inside]
    refine ⟨erased, erasePredecessor_marked, fun x y => ?_⟩
    rw [erasePredecessor_succ, erasePredecessor_pred]
    simp [inside]
  · rw [if_neg inside]
    refine ⟨erased.trans connectGroups_relinked,
      connectGroups_marked.trans erasePredecessor_marked, fun x y => ?_⟩
    rw [connectGroups_succ, connectGroups_pred, erasePredecessor_succ, erasePredecessor_pred]
    simp [inside]

omit [DecidableEq E] in
theorem replacePredecessors_spec (tset : List Nat) (distinct : cg ≠ e) (ps : List Nat) : ∀ C : GroupGraph E,
    let C' := ps.foldl (replacePredecessor m tset cg e) C
    C'.marked = C.marked ∧ ∀ x y,
      (C'.forward.succ x y ↔
        C.forward.succ x y ∧ ¬ (y = e ∧ x ∈ ps) ∨ y = cg ∧ x ∈ ps ∧ x ∉ tset) ∧
      (C'.forward.pred y x ↔ C.forward.pred y x ∨ y = cg ∧ x ∈ ps ∧ x ∉ tset) := by
  induction ps with
  | nil => simp
  | cons p rest ih =>
      intro C
      obtain ⟨sameMarked, links⟩ := ih (replacePredecessor m tset cg e C p)
      obtain ⟨_, sameMarked', links'⟩ :=
        replacePredecessor_spec (m := m) C tset cg e p
      refine ⟨sameMarked.trans sameMarked', fun x y => ?_⟩
      rw [List.foldl_cons, (links x y).1, (links x y).2, (links' x y).1, (links' x y).2, List.mem_cons]
      clear links links' ih sameMarked sameMarked'
      grind

omit [DecidableEq E] in
theorem replaceSuccessors_spec (tset : List Nat) (distinct : cg ≠ e) (ss : List Nat) : ∀ C : GroupGraph E,
    let C' := ss.foldl (replaceSuccessor m tset cg e) C
    C'.marked = C.marked ∧ ∀ x y,
      (C'.forward.succ x y ↔ C.forward.succ x y ∨ x = cg ∧ y ∈ ss ∧ y ∉ tset) ∧
      (C'.forward.pred y x ↔
        C.forward.pred y x ∧ ¬ (x = e ∧ y ∈ ss) ∨ x = cg ∧ y ∈ ss ∧ y ∉ tset) := by
  induction ss with
  | nil => simp
  | cons s rest ih =>
      intro C
      obtain ⟨sameMarked, links⟩ := ih (replaceSuccessor m tset cg e C s)
      obtain ⟨_, sameMarked', links'⟩ :=
        replaceSuccessor_spec (m := m) C tset cg e s
      refine ⟨sameMarked.trans sameMarked', fun x y => ?_⟩
      rw [List.foldl_cons, (links x y).1, (links x y).2, (links' x y).1, (links' x y).2, List.mem_cons]
      clear links links' ih sameMarked sameMarked'
      grind

theorem replaceGroup_cases (distinct : cg ≠ e) (inside : e ∈ tset) {C' : GroupGraph E}
    (run : replaceGroup m tset cg C e = some C') :
    C'.cpelementGroups = erasePointer e C.cpelementGroups ∧
      C'.rootIndexCounter = C.rootIndexCounter ∧ C'.marked = C.marked ∧
      (∀ x, C'.cpelementToGroupMap x =
        if x ∈ (C.group e).elements then some (some cg) else C.cpelementToGroupMap x) ∧
      (∀ g x, x ∈ (C'.group g).elements ↔
        x ∈ (C.group g).elements ∨ g = cg ∧ x ∈ (C.group e).elements) ∧
      ∀ x y, (C'.forward.succ x y ↔
          C.forward.succ x y ∧ ¬ (y = e ∧ C.forward.pred e x) ∨
            y = cg ∧ C.forward.pred e x ∧ x ∉ tset ∨ x = cg ∧ C.forward.succ e y ∧ y ∉ tset) ∧
        (y ≠ e → (C'.forward.pred y x ↔
          C.forward.pred y x ∧ ¬ (x = e ∧ C.forward.succ e y) ∨
            y = cg ∧ C.forward.pred e x ∧ x ∉ tset ∨ x = cg ∧ C.forward.succ e y ∧ y ∉ tset)) := by
  unfold replaceGroup at run
  split_ifs at run
  let C₀ := C.modify cg fun g => { g with
    pipelineParent := g.pipelineParent.orElse fun _ => (C.group e).pipelineParent }
  obtain ⟨C₁, moved, run⟩ := Option.bind_eq_some_iff.mp run
  obtain ⟨C₁', moved', groups, counter, sameForward, sameMarked, mapped, members, _⟩ :=
    moveElements_spec (m := m) cg (C₀.group e).elements C₀
  obtain rfl := Option.some.inj (moved'.symm.trans moved)
  obtain rfl := Option.some.inj run
  have elements₀ : ∀ g, (C₀.group g).elements = (C.group g).elements := by
    intro g
    simp only [C₀, modify_group, apply_ite CPElementGroup.elements, ite_self]
  have forward₁ : C₁'.forward = C.forward := by
    rw [sameForward]
    simp only [C₀, forward, modify_group, apply_ite CPElementGroup.successors,
      apply_ite CPElementGroup.predecessors, ite_self]
  have marked₁ : C₁'.marked = C.marked := by
    rw [sameMarked]
    simp only [C₀, marked, modify_group, apply_ite CPElementGroup.markedSuccessors,
      apply_ite CPElementGroup.markedPredecessors, ite_self]
  let C₂ := (C₁'.group e).predecessors.foldl (replacePredecessor m tset cg e) C₁'
  let C₃ := (C₂.group e).successors.foldl (replaceSuccessor m tset cg e) C₂
  have relinked : Relinked C₁' C₃ :=
    (foldl_relinked (fun C p => (replacePredecessor_spec C tset cg e p).1) _ _).trans
      (foldl_relinked (fun C s => (replaceSuccessor_spec C tset cg e s).1) _ _)
  obtain ⟨marked₂, links₂⟩ :=
    replacePredecessors_spec (m := m) tset distinct (C₁'.group e).predecessors C₁'
  obtain ⟨marked₃, links₃⟩ :=
    replaceSuccessors_spec (m := m) tset distinct (C₂.group e).successors C₂
  have ofE : ∀ x, x ∈ (C₁'.group e).predecessors ↔ C.forward.pred e x := by
    intro x
    rw [← forward₁]
    rfl
  have links : ∀ x y, (C₂.forward.succ x y ↔
        C.forward.succ x y ∧ ¬ (y = e ∧ C.forward.pred e x) ∨ y = cg ∧ C.forward.pred e x ∧ x ∉ tset) ∧
      (C₂.forward.pred y x ↔ C.forward.pred y x ∨ y = cg ∧ C.forward.pred e x ∧ x ∉ tset) := by
    intro x y
    rw [← ofE, ← forward₁]
    exact links₂ x y
  have toE : ∀ y, y ≠ e → (y ∈ (C₂.group e).successors ↔ C.forward.succ e y) := by
    intro y other
    refine (links e y).1.trans ?_
    simp [inside, other]
  refine ⟨?_, ?_, ?_, ?_, ?_, fun x y => ⟨?_, fun other => ?_⟩⟩
  · show erasePointer e C₃.cpelementGroups = _
    rw [relinked.cpelementGroups, groups]
    rfl
  · exact relinked.rootIndexCounter.trans counter
  · exact (marked₃.trans marked₂).trans marked₁
  · intro x
    show C₃.cpelementToGroupMap x = _
    rw [relinked.cpelementToGroupMap, mapped]
    simp only [elements₀]
    rfl
  · intro g x
    show x ∈ (C₃.group g).elements ↔ _
    rw [relinked.elements, members, elements₀, elements₀]
  · refine (links₃ x y).1.trans ?_
    rw [(links x y).1]
    have := toE y
    grind
  · refine (links₃ x y).2.trans ?_
    rw [(links x y).2, toE y other]
    grind

def Unmarked (C : GroupGraph E) (g : Nat) : Prop :=
  (∀ x, ¬ C.marked.succ g x) ∧ ∀ x, ¬ C.marked.pred g x

theorem Consistent.replaceGroup (consistent : C.Consistent) (distinct : cg ≠ e) (inside : e ∈ tset)
    (liveE : C.Live e) (liveCg : C.Live cg) (unmarked : C.Unmarked e) {C' : GroupGraph E}
    (run : replaceGroup m tset cg C e = some C') : C'.Consistent := by
  obtain ⟨groups, counter, sameMarked, mapped, members, links⟩ := replaceGroup_cases distinct inside run
  have live : ∀ x, C'.Live x ↔ C.Live x ∧ ¬ x = e := by
    intro x
    rw [Live, groups, mem_erasePointer]
    rfl
  have forwardEdited : Links.Edited C.forward C'.forward C'.Live (fun x => x = e)
      (fun x y => y = cg ∧ C.forward.pred e x ∧ x ∉ tset ∨ x = cg ∧ C.forward.succ e y ∧ y ∉ tset) := by
    constructor
    · intro x y isLive
      rw [(links x y).1]
      have back := consistent.forward_closed.successors x e ((live x).mp isLive).1
      grind
    · intro x y isLive
      obtain ⟨wasLive, other⟩ := (live y).mp isLive
      rw [(links x y).2 other]
      have back := consistent.forward_closed.predecessors e y wasLive
      grind
  have markedEdited : Links.Edited C.marked C'.marked C'.Live (fun x => x = e) (fun _ _ => False) := by
    rw [sameMarked]
    constructor
    · intro x y isLive
      have back := consistent.marked_closed.successors x y ((live x).mp isLive).1
      rw [or_false]
      constructor
      · intro arc
        refine ⟨arc, ?_⟩
        rintro rfl
        exact unmarked.2 x (back arc).2
      · exact And.left
    · intro x y isLive
      have back := consistent.marked_closed.predecessors x y ((live y).mp isLive).1
      rw [or_false]
      constructor
      · intro arc
        refine ⟨arc, ?_⟩
        rintro rfl
        exact unmarked.1 y (back arc).2
      · exact And.left
  have liveCg' : C'.Live cg := (live cg).mpr ⟨liveCg, distinct⟩
  have outside : ∀ x, x ∉ tset → x ≠ e := by
    rintro x notIn rfl
    exact notIn inside
  refine ⟨?_, ?_, ?_, ?_, ?_, ?_⟩
  · apply consistent.forward_closed.edit forwardEdited live
    rintro x y _ (⟨rfl, arc, notIn⟩ | ⟨rfl, arc, notIn⟩)
    · have liveX := (consistent.forward_closed.predecessors x e liveE arc).1
      exact ⟨(live x).mpr ⟨liveX, outside x notIn⟩, liveCg'⟩
    · have liveY := (consistent.forward_closed.successors e y liveE arc).1
      exact ⟨liveCg', (live y).mpr ⟨liveY, outside y notIn⟩⟩
  · exact consistent.marked_closed.edit markedEdited live fun _ _ _ => False.elim
  · intro g isLive x member
    obtain ⟨wasLive, other⟩ := (live g).mp isLive
    rw [mapped]
    rcases (members g x).mp member with member | ⟨rfl, member⟩
    · split_ifs with ofE
      · exact absurd (consistent.unique wasLive liveE member ofE) other
      · exact consistent.members g wasLive x member
    · rw [if_pos member]
  · intro x g isMapped
    rw [mapped] at isMapped
    split_ifs at isMapped with ofE
    · obtain rfl := Option.some.inj (Option.some.inj isMapped)
      exact ⟨liveCg', (members _ x).mpr (Or.inr ⟨rfl, ofE⟩)⟩
    · obtain ⟨wasLive, member⟩ := consistent.belongs x g isMapped
      refine ⟨(live g).mpr ⟨wasLive, ?_⟩, (members g x).mpr (Or.inl member)⟩
      rintro rfl
      exact ofE member
  · rw [groups]
    exact consistent.nodup.filter _
  · intro g isLive
    rw [counter]
    exact consistent.created g ((live g).mp isLive).1

theorem Consistent.replaceGroups (es : List Nat) : ∀ (C C' : GroupGraph E), C.Consistent →
    C.Live cg → es.Nodup → (∀ e ∈ es, e ∈ tset ∧ e ≠ cg ∧ C.Live e ∧ C.Unmarked e) →
    es.foldlM (GroupGraph.replaceGroup m tset cg) C = some C' →
    C'.Consistent ∧ C'.marked = C.marked ∧ (∀ x, C'.Live x ↔ C.Live x ∧ x ∉ es) ∧
      ∀ g x, x ∈ (C'.group g).elements ↔
        x ∈ (C.group g).elements ∨ g = cg ∧ ∃ e ∈ es, x ∈ (C.group e).elements := by
  induction es with
  | nil =>
      intro C C' consistent _ _ _ run
      obtain rfl := Option.some.inj run
      exact ⟨consistent, rfl, by simp, by simp⟩
  | cons e rest ih =>
      intro C C' consistent liveCg nodup pure run
      rw [List.foldlM_cons] at run
      obtain ⟨C₁, first, run⟩ := Option.bind_eq_some_iff.mp run
      obtain ⟨fresh, nodup⟩ := List.nodup_cons.mp nodup
      obtain ⟨inside, other, liveE, unmarked⟩ := pure e List.mem_cons_self
      have consistent₁ := consistent.replaceGroup other.symm inside liveE liveCg unmarked first
      obtain ⟨groups, _, sameMarked, _, members, _⟩ := replaceGroup_cases other.symm inside first
      have live : ∀ x, C₁.Live x ↔ C.Live x ∧ x ≠ e := by
        intro x
        rw [Live, groups, mem_erasePointer]
        rfl
      have pure₁ : ∀ e' ∈ rest, e' ∈ tset ∧ e' ≠ cg ∧ C₁.Live e' ∧ C₁.Unmarked e' := by
        intro e' member
        obtain ⟨inside', other', live', unmarked'⟩ := pure e' (List.mem_cons_of_mem e member)
        refine ⟨inside', other', (live e').mpr ⟨live', ?_⟩, ?_⟩
        · rintro rfl
          exact fresh member
        · rw [Unmarked, sameMarked]
          exact unmarked'
      obtain ⟨consistent', sameMarked', live', members'⟩ :=
        ih C₁ C' consistent₁ ((live cg).mpr ⟨liveCg, other.symm⟩) nodup pure₁ run
      refine ⟨consistent', sameMarked'.trans sameMarked, ?_, ?_⟩
      · intro x
        rw [live', live, List.mem_cons, not_or, and_assoc]
      · intro g x
        rw [members', members]
        have ofRest : (∃ e' ∈ rest, x ∈ (C₁.group e').elements) ↔ ∃ e' ∈ rest, x ∈ (C.group e').elements := by
          refine exists_congr fun e' => and_congr_right fun member => ?_
          rw [members]
          exact or_iff_left fun h => (pure e' (List.mem_cons_of_mem e member)).2.1 h.1
        rw [ofRest, List.exists_mem_cons_iff, and_or_left, or_assoc]

omit [DecidableEq E] in
theorem Consistent.newGroup (consistent : C.Consistent) :
    let C₀ := C.newGroup.modify C.rootIndexCounter fun g => { g with hasTransition := true }
    C₀.Consistent ∧ (∀ x, C₀.Live x ↔ C.Live x ∨ x = C.rootIndexCounter) ∧
      ∀ x, x ≠ C.rootIndexCounter → C₀.group x = C.group x := by
  intro C₀
  have live : ∀ x, C₀.Live x ↔ C.Live x ∨ x = C.rootIndexCounter := by
    intro x
    simp [C₀, Live, GroupGraph.newGroup]
  have old : ∀ x, x ≠ C.rootIndexCounter → C₀.group x = C.group x := by
    intro x other
    simp [C₀, GroupGraph.newGroup, other]
  have bare : C₀.group C.rootIndexCounter = { hasTransition := true } := by
    simp [C₀, GroupGraph.newGroup]
  have before : ∀ x, C.Live x → x ≠ C.rootIndexCounter := by
    rintro x isLive rfl
    exact Nat.lt_irrefl _ (consistent.created _ isLive)
  refine ⟨⟨?_, ?_, ?_, ?_, ?_, ?_⟩, live, old⟩
  · apply consistent.forward_closed.extend live
    · intro x isLive
      simp only [forward, old x (before x isLive), implies_true, and_self]
    · simp [forward, bare]
  · apply consistent.marked_closed.extend live
    · intro x isLive
      simp only [marked, old x (before x isLive), implies_true, and_self]
    · simp [marked, bare]
  · intro g isLive e member
    rcases (live g).mp isLive with wasLive | rfl
    · rw [old g (before g wasLive)] at member
      exact consistent.members g wasLive e member
    · rw [bare] at member
      cases member
  · intro e g isMapped
    obtain ⟨wasLive, member⟩ := consistent.belongs e g isMapped
    rw [old g (before g wasLive)]
    exact ⟨(live g).mpr (Or.inl wasLive), member⟩
  · show (C.cpelementGroups ++ [C.rootIndexCounter]).Nodup
    refine List.nodup_append.mpr ⟨consistent.nodup, List.nodup_singleton _, ?_⟩
    intro x isLive y isNew same
    exact before x isLive (same.trans (List.mem_singleton.mp isNew))
  · intro g isLive
    show g < C.rootIndexCounter + 1
    rcases (live g).mp isLive with wasLive | rfl
    · exact Nat.lt_succ_of_lt (consistent.created g wasLive)
    · exact Nat.lt_succ_self _

/-- Collapsing a set of groups without marked arcs keeps the graph well formed,
and the groups outside of the set as they are. -/
theorem WellFormed.collapsePureTransitionSet (wf : C.WellFormed) {tset : List Nat}
    (nodup : tset.Nodup) (pure : ∀ e ∈ tset, C.Live e ∧ C.Unmarked e) {C' : GroupGraph E}
    (run : C.collapsePureTransitionSet m tset = some C') :
    C'.WellFormed ∧ ∀ x, C.Live x → x ∉ tset → C'.Live x ∧ (C.Unmarked x → C'.Unmarked x) := by
  unfold GroupGraph.collapsePureTransitionSet at run
  by_cases several : 1 < tset.length
  · rw [if_pos several] at run
    obtain ⟨consistent₀, live₀, old⟩ := wf.toConsistent.newGroup
    have before : ∀ x, C.Live x → x ≠ C.rootIndexCounter := by
      rintro x isLive rfl
      exact Nat.lt_irrefl _ (wf.created _ isLive)
    have unmarked₀ : ∀ x, C.Live x → C.Unmarked x →
        (C.newGroup.modify C.rootIndexCounter fun g => { g with hasTransition := true }).Unmarked x := by
      intro x isLive unmarked
      simp only [Unmarked, marked, old x (before x isLive)]
      exact unmarked
    have pure₀ : ∀ e ∈ tset, e ∈ tset ∧ e ≠ C.rootIndexCounter ∧
        (C.newGroup.modify C.rootIndexCounter fun g => { g with hasTransition := true }).Live e ∧
        (C.newGroup.modify C.rootIndexCounter fun g => { g with hasTransition := true }).Unmarked e := by
      intro e member
      obtain ⟨isLive, unmarked⟩ := pure e member
      exact ⟨member, before e isLive, (live₀ e).mpr (Or.inl isLive), unmarked₀ e isLive unmarked⟩
    obtain ⟨consistent', sameMarked, live', members⟩ := Consistent.replaceGroups tset _ C' consistent₀
      ((live₀ _).mpr (Or.inr rfl)) nodup pure₀ run
    refine ⟨⟨consistent', ?_⟩, ?_⟩
    · intro g isLive
      rcases (live₀ g).mp ((live' g).mp isLive).1 with wasLive | rfl
      · obtain ⟨x, member⟩ := List.exists_mem_of_ne_nil _ (wf.occupied g wasLive)
        refine List.ne_nil_of_mem ((members g x).mpr (Or.inl ?_))
        rw [old g (before g wasLive)]
        exact member
      · -- the new group has got the elements of the members
        obtain ⟨e, member⟩ := List.exists_mem_of_length_pos (Nat.lt_trans Nat.zero_lt_one several)
        obtain ⟨x, inE⟩ := List.exists_mem_of_ne_nil _ (wf.occupied e (pure e member).1)
        refine List.ne_nil_of_mem ((members _ x).mpr (Or.inr ⟨rfl, e, member, ?_⟩))
        rw [old e (before e (pure e member).1)]
        exact inE
    · intro x isLive outside
      refine ⟨(live' x).mpr ⟨(live₀ x).mpr (Or.inl isLive), outside⟩, fun unmarked => ?_⟩
      rw [Unmarked, sameMarked]
      exact unmarked₀ x isLive unmarked
  · rw [if_neg several] at run
    obtain rfl := Option.some.inj run
    exact ⟨wf, fun x isLive _ => ⟨isLive, id⟩⟩

end Collapse

end GroupGraph

end Ahir.ControlPath
