import Ahir.ControlPath.GroupDelete
import Ahir.ControlPath.CPElementLinks

/-!
# The group graph that a control path is turned into

`Construct_Reduced_Group_Graph` makes a group for each transition and place and then goes
through the elements, those of nested blocks included, and connects their groups as the
elements list their arcs: an arc to a block goes to its entry, an arc from a block comes
from its exit.  `Check_Group_Graph_Structure` looks at the result.
-/

set_option autoImplicit false

namespace Ahir.ControlPath
open Ahir.Graph

/-- The elements of a block in their order; a block `b` among them has an entry, an exit
and elements of its own.  A control path is a block with nothing behind it. -/
inductive CPElements (E : Type) where
  | nil
  | element (cpe : E) (rest : CPElements E)
  | block (b entry exit : E) (inner rest : CPElements E)

namespace CPElements
variable {E : Type}

/-- The transitions and places in the order in which they get their groups. -/
def leaves : CPElements E → List E
  | nil => []
  | element cpe rest => cpe :: rest.leaves
  | block _ entry exit inner rest => entry :: (inner.leaves ++ exit :: rest.leaves)

/-- The elements in the order in which they are connected. -/
def visited : CPElements E → List E
  | nil => []
  | element cpe rest => cpe :: rest.visited
  | block b entry exit inner rest => entry :: (inner.visited ++ exit :: b :: rest.visited)

def blocks : CPElements E → List (E × E × E)
  | nil => []
  | element _ rest => rest.blocks
  | block b entry exit inner rest => (b, entry, exit) :: (inner.blocks ++ rest.blocks)

variable [DecidableEq E] (P : CPElements E) (x : E)

/-- `Get_Entry_Element`. -/
def entryElement : E := ((P.blocks.find? fun block => block.1 = x).map fun block => block.2.1).getD x

/-- `Get_Exit_Element`. -/
def exitElement : E := ((P.blocks.find? fun block => block.1 = x).map fun block => block.2.2).getD x

end CPElements

/-- A call of `Connect_Groups` by the element whose end of the arc is `own`; a marked arc
has a delay. -/
structure Connection (E : Type) where
  own : E
  other : E
  incoming : Bool
  delay : Option Int

namespace Connection
variable {E : Type} (k : Connection E)

def source : E := if k.incoming then k.other else k.own

def target : E := if k.incoming then k.own else k.other

end Connection

section Connections
variable {E : Type} [DecidableEq E] (m : Memory E) (P : CPElements E) (links : E → CPElementLinks E)

/-- `implicit_flag`: an arc between two elements of one function of the control path. -/
def isImplicit (x y : E) : Bool :=
  (m.info x).associatedCPFunction.isSome && (m.info y).associatedCPFunction.isSome &&
    decide ((m.info x).associatedCPFunction = (m.info y).associatedCPFunction)

/-- `Get_Explicit_Predecessors` and `Get_Explicit_Successors`. -/
def explicitLinks (kind : LinkKind) (x : E) : List E :=
  ((links x).links kind).filter fun y => !isImplicit m x y

/-- What `Connect_CPElement_Group_Graph` does for `x` itself. -/
def connections (x : E) : List (Connection E) :=
  (explicitLinks m links .predecessors x).map
      (fun pred => ⟨P.entryElement x, P.exitElement pred, true, none⟩) ++
    (explicitLinks m links .successors x).map
      (fun succ => ⟨P.exitElement x, P.entryElement succ, false, none⟩) ++
    ((links x).links .markedPredecessors).map
      (fun pred => ⟨P.entryElement x, P.exitElement pred, true, some ((links x).getMarkedPredecessorDelay pred)⟩) ++
    ((links x).links .markedSuccessors).map
      (fun succ => ⟨P.exitElement x, P.entryElement succ, false, some ((links x).getMarkedSuccessorDelay succ)⟩)

end Connections

namespace GroupGraph
variable {E : Type} [DecidableEq E] (m : Memory E) (C : GroupGraph E)

def getGroup (cpe : E) : Option Nat := (C.cpelementToGroupMap cpe).join

def bare (rootIndexCounter : Nat) : GroupGraph E where
  cpelementGroups := []
  group := fun _ => {}
  cpelementToGroupMap := fun _ => none
  rootIndexCounter := rootIndexCounter

/-- `Construct_CPElement_Group_Graph_Vertices` of a transition or a place. -/
def constructVertex (C : GroupGraph E) (cpe : E) : Option (GroupGraph E) :=
  C.newGroup.addToGroup m cpe C.rootIndexCounter

def connect (source target : Nat) : Option Int → Option (GroupGraph E)
  | none => some (C.connectGroups m source target)
  | some delay => C.connectMarkedGroups m source target delay

/-- Only the group of the other end is compared with `NULL`. -/
def connectElements (C : GroupGraph E) (k : Connection E) : Option (GroupGraph E) :=
  match C.getGroup k.other, C.getGroup k.own with
  | none, _ => some C
  | some _, none => none
  | some other, some own =>
      if other = own then some C
      else if k.incoming then C.connect m other own k.delay
      else C.connect m own other k.delay

/-- `Construct_CPElement_Group_Graph_Vertices` and `Connect_CPElement_Group_Graph` of the
control path. -/
def constructGroupGraph (P : CPElements E) (links : E → CPElementLinks E) (rootIndexCounter : Nat) :
    Option (GroupGraph E) := do
  let C ← P.leaves.foldlM (constructVertex m) (bare rootIndexCounter)
  (P.visited.flatMap (connections m P links)).foldlM (connectElements m) C

inductive GroupReport where
  | successorMismatch (g sg : Nat)
  | predecessorMismatch (g pg : Nat)
  | markedSuccessorMismatch (g sg : Nat)
  | markedPredecessorMismatch (g pg : Nat)
  | markedAndUnmarked (g pg : Nat)
deriving DecidableEq

def GroupReport.text : GroupReport → String
  | successorMismatch _ _ => "malformed group graph: successor mismatch. "
  | predecessorMismatch _ _ => "malformed group graph: predecessor mismatch. "
  | markedSuccessorMismatch _ _ => "malformed group graph: marked-successor mismatch. "
  | markedPredecessorMismatch _ _ => "malformed group graph: marked-predecessor mismatch. "
  | markedAndUnmarked _ _ => "malformed group graph: predecessor is both marked and unmarked. "

/-- The turn of `Check_Group_Graph_Structure` for `g`. -/
def checkGroup (g : Nat) : List GroupReport :=
  ((C.group g).successors.flatMap fun sg =>
      if g ∈ (C.group sg).predecessors then [] else [.successorMismatch g sg]) ++
    ((C.group g).predecessors.flatMap fun pg =>
      if g ∈ (C.group pg).successors then [] else [.predecessorMismatch g pg]) ++
    ((C.group g).markedSuccessors.flatMap fun sg =>
      if g ∈ (C.group sg).markedPredecessors then [] else [.markedSuccessorMismatch g sg]) ++
    (C.group g).markedPredecessors.flatMap fun pg =>
      (if g ∈ (C.group pg).markedSuccessors then [] else [.markedPredecessorMismatch g pg]) ++
        if pg ∈ (C.group g).predecessors then [.markedAndUnmarked g pg] else []

/-- `Check_Group_Graph_Structure`, which returns whether there is a report. -/
def checkGroupGraphStructure : List GroupReport := C.cpelementGroups.flatMap C.checkGroup

/-! ### The vertices -/

variable {m C}

omit [DecidableEq E] in
theorem getGroup_eq_some {e : E} {g : Nat} : C.getGroup e = some g ↔ C.cpelementToGroupMap e = some (some g) := by
  rw [getGroup, Option.join_eq_some_iff]

structure Vertices (made : List E) (C : GroupGraph E) : Prop where
  mapped : ∀ e ∈ made, ∃ g, C.cpelementToGroupMap e = some (some g)
  unmapped : ∀ e, e ∉ made → C.cpelementToGroupMap e = none
  belongs : ∀ e g, C.cpelementToGroupMap e = some (some g) → C.Live g ∧ (C.group g).elements = [e]
  members : ∀ g, C.Live g → ∃ e, C.cpelementToGroupMap e = some (some g)
  nodup : C.cpelementGroups.Nodup
  created : ∀ g, C.Live g → g < C.rootIndexCounter
  unlinked : ∀ g, (C.group g).successors = [] ∧ (C.group g).predecessors = [] ∧
    (C.group g).markedSuccessors = [] ∧ (C.group g).markedPredecessors = []

omit [DecidableEq E] in
theorem Vertices.start (rootIndexCounter : Nat) : Vertices [] (bare rootIndexCounter : GroupGraph E) where
  mapped := by simp
  unmapped := fun _ _ => rfl
  belongs := by simp [bare]
  members := by simp [Live, bare]
  nodup := List.nodup_nil
  created := by simp [Live, bare]
  unlinked := fun _ => ⟨rfl, rfl, rfl, rfl⟩

theorem Vertices.step {made : List E} (vertices : Vertices made C) {cpe : E} (new : cpe ∉ made) :
    ∃ C', constructVertex m C cpe = some C' ∧ Vertices (made ++ [cpe]) C' := by
  have unmapped : C.newGroup.cpelementToGroupMap cpe = none := vertices.unmapped cpe new
  refine ⟨_, if_pos unmapped, ?_⟩
  have before : ∀ g, C.Live g → g ≠ C.rootIndexCounter := fun g isLive => (vertices.created g isLive).ne
  constructor
  · intro e isMade
    rcases List.mem_append.mp isMade with isOld | isNew
    · obtain ⟨g, isMapped⟩ := vertices.mapped e isOld
      have other : e ≠ cpe := fun same => new (same ▸ isOld)
      exact ⟨g, by simpa [newGroup, other] using isMapped⟩
    · obtain rfl := List.mem_singleton.mp isNew
      exact ⟨C.rootIndexCounter, by simp⟩
  · intro e notMade
    simp only [List.mem_append, List.mem_singleton, not_or] at notMade
    simpa [newGroup, notMade.2] using vertices.unmapped e notMade.1
  · intro e g isMapped
    by_cases isCpe : e = cpe
    · obtain rfl : C.rootIndexCounter = g := by simpa [isCpe] using isMapped
      simp [Live, newGroup, isCpe, CPElementGroup.addElement, insertPointer]
    · obtain ⟨isLive, elements⟩ := vertices.belongs e g (by simpa [newGroup, isCpe] using isMapped)
      refine ⟨List.mem_append_left _ isLive, ?_⟩
      simpa [newGroup, before g isLive] using elements
  · intro g isLive
    rcases List.mem_append.mp isLive with wasLive | isNew
    · obtain ⟨e, isMapped⟩ := vertices.members g wasLive
      have other : e ≠ cpe := by
        rintro rfl
        exact absurd (vertices.unmapped e new) (by simp [isMapped])
      exact ⟨e, by simpa [newGroup, other] using isMapped⟩
    · exact ⟨cpe, by simp [List.mem_singleton.mp isNew]⟩
  · refine List.nodup_append.mpr ⟨vertices.nodup, List.nodup_singleton _, ?_⟩
    intro g isLive h isNew
    exact fun same => before g isLive (same.trans (List.mem_singleton.mp isNew))
  · intro g isLive
    rcases List.mem_append.mp isLive with wasLive | isNew
    · exact Nat.lt_succ_of_lt (vertices.created g wasLive)
    · exact (List.mem_singleton.mp isNew).trans_lt (Nat.lt_succ_self _)
  · intro g
    have unlinked := vertices.unlinked g
    by_cases isNew : g = C.rootIndexCounter
    · simp [newGroup, isNew, CPElementGroup.addElement]
    · simpa [newGroup, isNew] using unlinked

theorem Vertices.refuse {made : List E} (vertices : Vertices made C) {cpe : E} (old : cpe ∈ made) :
    constructVertex m C cpe = none := by
  obtain ⟨g, isMapped⟩ := vertices.mapped cpe old
  refine if_neg ?_
  rw [show C.newGroup.cpelementToGroupMap cpe = some (some g) from isMapped]
  exact Option.some_ne_none _

theorem Vertices.run : ∀ (rest : List E) {made : List E} {C : GroupGraph E}, made.Nodup → Vertices made C →
    ((∃ C', rest.foldlM (constructVertex m) C = some C') ↔ (made ++ rest).Nodup) ∧
      ∀ C', rest.foldlM (constructVertex m) C = some C' → Vertices (made ++ rest) C' := by
  intro rest
  induction rest with
  | nil =>
      intro made C distinct vertices
      simpa using ⟨distinct, vertices⟩
  | cons cpe rest ih =>
      intro made C distinct vertices
      rw [List.foldlM_cons]
      by_cases old : cpe ∈ made
      · rw [vertices.refuse old]
        refine ⟨iff_of_false (by simp) fun distinct => ?_, by simp⟩
        exact (List.nodup_append.mp distinct).2.2 cpe old cpe List.mem_cons_self rfl
      · obtain ⟨C₁, first, vertices⟩ := vertices.step (m := m) old
        rw [first, List.append_cons]
        refine ih ?_ vertices
        refine List.nodup_append.mpr ⟨distinct, List.nodup_singleton cpe, ?_⟩
        intro e isMade f isNew same
        exact old (List.mem_singleton.mp isNew ▸ same ▸ isMade)

omit [DecidableEq E] in
theorem Vertices.unique {made : List E} (vertices : Vertices made C) {e f : E} {g : Nat}
    (ofE : C.getGroup e = some g) (ofF : C.getGroup f = some g) : e = f := by
  have first := (vertices.belongs e g (getGroup_eq_some.mp ofE)).2
  have second := (vertices.belongs f g (getGroup_eq_some.mp ofF)).2
  exact List.singleton_inj.mp (first.symm.trans second)

omit [DecidableEq E] in
theorem Vertices.getGroup_iff {made : List E} (vertices : Vertices made C) {e : E} :
    (∃ g, C.getGroup e = some g) ↔ e ∈ made := by
  constructor
  · rintro ⟨g, ofE⟩
    by_contra notMade
    rw [getGroup_eq_some, vertices.unmapped e notMade] at ofE
    exact absurd ofE (by simp)
  · intro isMade
    obtain ⟨g, isMapped⟩ := vertices.mapped e isMade
    exact ⟨g, getGroup_eq_some.mpr isMapped⟩

/-! ### The arcs -/

/-- The call connects `g` to `h`. -/
def Joins (C : GroupGraph E) (k : Connection E) (g h : Nat) : Prop :=
  C.getGroup k.source = some g ∧ C.getGroup k.target = some h ∧ g ≠ h

omit [DecidableEq E] in
theorem Relinked.getGroup {C' : GroupGraph E} (relinked : Relinked C C') : C'.getGroup = C.getGroup := by
  funext e
  rw [GroupGraph.getGroup, GroupGraph.getGroup, relinked.cpelementToGroupMap]

omit [DecidableEq E] in
theorem Relinked.joins {C' : GroupGraph E} (relinked : Relinked C C') : C'.Joins = C.Joins := by
  funext k g h
  rw [GroupGraph.Joins, GroupGraph.Joins, relinked.getGroup]

omit [DecidableEq E] in
theorem Joins.unique {k : Connection E} {g h g' h' : Nat} (first : C.Joins k g h) (second : C.Joins k g' h') :
    g = g' ∧ h = h' :=
  ⟨Option.some.inj (first.1.symm.trans second.1), Option.some.inj (first.2.1.symm.trans second.2.1)⟩

/-- The delays of the arc from `g` to `h`, as its ends have it. -/
def delaysOf (C : GroupGraph E) (g h : Nat) : Int × Int :=
  ((C.group g).markedSuccessorDelays h, (C.group h).markedPredecessorDelays g)

omit [DecidableEq E] in
theorem connectGroups_delaysOf {source target : Nat} (g h : Nat) :
    (C.connectGroups m source target).delaysOf g h = C.delaysOf g h := by
  simp only [delaysOf, connectGroups, modify_group, CPElementGroup.addSuccessor, CPElementGroup.addPredecessor,
    apply_ite CPElementGroup.markedSuccessorDelays, apply_ite CPElementGroup.markedPredecessorDelays, ite_self]

omit [DecidableEq E] in
theorem connectMarkedGroups_delaysOf {source target : Nat} {delay : Int} {C' : GroupGraph E}
    (run : C.connectMarkedGroups m source target delay = some C') (g h : Nat) :
    C'.delaysOf g h = if g = source ∧ h = target then (delay, delay) else C.delaysOf g h := by
  unfold connectMarkedGroups at run
  split_ifs at run
  rw [← Option.some.inj run]
  by_cases isSource : g = source <;> by_cases isTarget : h = target <;>
    simp [delaysOf, CPElementGroup.addMarkedSuccessor, CPElementGroup.addMarkedPredecessor, isSource, isTarget,
      apply_ite CPElementGroup.markedSuccessorDelays, apply_ite CPElementGroup.markedPredecessorDelays]

structure Connected (C : GroupGraph E) (source target : Nat) (delay : Option Int) (C' : GroupGraph E) : Prop where
  relinked : Relinked C C'
  forward_succ : ∀ g h, C'.forward.succ g h ↔ C.forward.succ g h ∨ delay = none ∧ g = source ∧ h = target
  forward_pred : ∀ g h, C'.forward.pred h g ↔ C.forward.pred h g ∨ delay = none ∧ g = source ∧ h = target
  marked_succ : ∀ g h, C'.marked.succ g h ↔ C.marked.succ g h ∨ delay ≠ none ∧ g = source ∧ h = target
  marked_pred : ∀ g h, C'.marked.pred h g ↔ C.marked.pred h g ∨ delay ≠ none ∧ g = source ∧ h = target
  delays : ∀ g h, C'.delaysOf g h = C.delaysOf g h ∨
    g = source ∧ h = target ∧ ∃ d, delay = some d ∧ C'.delaysOf g h = (d, d)
  recorded : ∀ d, delay = some d → C'.delaysOf source target = (d, d)

omit [DecidableEq E] in
theorem connect_connected {source target : Nat} {delay : Option Int} {C' : GroupGraph E}
    (run : C.connect m source target delay = some C') : Connected C source target delay C' := by
  cases delay with
  | none =>
      obtain rfl := Option.some.inj run
      refine ⟨connectGroups_relinked, ?_, ?_, ?_, ?_, fun g h => .inl (connectGroups_delaysOf g h), by simp⟩
      · simpa using connectGroups_succ
      · simpa using connectGroups_pred
      · simp [connectGroups_marked]
      · simp [connectGroups_marked]
  | some delay =>
      obtain ⟨relinked, sameForward, succ, pred⟩ := connectMarkedGroups_spec run
      refine ⟨relinked, by simp [sameForward], by simp [sameForward], by simpa using succ, by simpa using pred, ?_, ?_⟩
      · intro g h
        have delays := connectMarkedGroups_delaysOf run g h
        split_ifs at delays with same
        · exact .inr ⟨same.1, same.2, delay, rfl, delays⟩
        · exact .inl delays
      · rintro d ⟨⟩
        rw [connectMarkedGroups_delaysOf run, if_pos ⟨rfl, rfl⟩]

omit [DecidableEq E] in
theorem connect_isSome {source target : Nat} {delay : Option Int} :
    (∃ C', C.connect m source target delay = some C') ↔ ∀ d, delay = some d → 0 ≤ d := by
  cases delay with
  | none => simp [connect]
  | some delay => simp [connect, connectMarkedGroups]

omit [DecidableEq E] in
theorem connectElements_cases {k : Connection E} (grouped : ∃ g, C.getGroup k.own = some g) :
    (connectElements m C k = some C ∧ ∀ g h, ¬ C.Joins k g h) ∨
      ∃ g h, C.Joins k g h ∧ connectElements m C k = C.connect m g h k.delay := by
  obtain ⟨own, ofOwn⟩ := grouped
  cases ofOther : C.getGroup k.other with
  | none =>
      refine .inl ⟨by simp [connectElements, ofOther], ?_⟩
      rintro g h ⟨ofSource, ofTarget, -⟩
      cases direction : k.incoming <;> simp_all [Connection.source, Connection.target]
  | some other =>
      by_cases same : other = own
      · refine .inl ⟨by simp [connectElements, ofOther, ofOwn, same], ?_⟩
        rintro g h ⟨ofSource, ofTarget, differ⟩
        cases direction : k.incoming <;> simp_all [Connection.source, Connection.target]
      · cases direction : k.incoming with
        | true =>
            refine .inr ⟨other, own, ⟨?_, ?_, same⟩, ?_⟩ <;>
              simp [connectElements, Connection.source, Connection.target, direction, ofOther, ofOwn, same]
        | false =>
            refine .inr ⟨own, other, ⟨?_, ?_, fun h => same h.symm⟩, ?_⟩ <;>
              simp [connectElements, Connection.source, Connection.target, direction, ofOther, ofOwn, same]

/-- The arcs after the calls `done`, from a graph without arcs. -/
structure Connects (C₀ : GroupGraph E) (done : List (Connection E)) (C : GroupGraph E) : Prop where
  relinked : Relinked C₀ C
  forward_succ : ∀ g h, C.forward.succ g h ↔ ∃ k ∈ done, k.delay = none ∧ C₀.Joins k g h
  forward_pred : ∀ g h, C.forward.pred h g ↔ ∃ k ∈ done, k.delay = none ∧ C₀.Joins k g h
  marked_succ : ∀ g h, C.marked.succ g h ↔ ∃ k ∈ done, k.delay ≠ none ∧ C₀.Joins k g h
  marked_pred : ∀ g h, C.marked.pred h g ↔ ∃ k ∈ done, k.delay ≠ none ∧ C₀.Joins k g h
  delays : ∀ g h, C.marked.succ g h → ∃ k ∈ done, C₀.Joins k g h ∧ ∃ d, k.delay = some d ∧ C.delaysOf g h = (d, d)

omit [DecidableEq E] in
theorem Connects.start (unlinked : ∀ g, (C.group g).successors = [] ∧ (C.group g).predecessors = [] ∧
    (C.group g).markedSuccessors = [] ∧ (C.group g).markedPredecessors = []) : Connects C [] C where
  relinked := Relinked.refl
  forward_succ := fun g h => by simp [forward, (unlinked g).1]
  forward_pred := fun g h => by simp [forward, (unlinked h).2.1]
  marked_succ := fun g h => by simp [marked, (unlinked g).2.2.1]
  marked_pred := fun g h => by simp [marked, (unlinked h).2.2.2]
  delays := fun g h arc => by simp [marked, (unlinked g).2.2.1] at arc

section Step
variable {C₀ C' : GroupGraph E} {done : List (Connection E)} {k : Connection E}

omit [DecidableEq E] in
theorem Connects.pass (connects : Connects C₀ done C) (passed : ∀ g h, ¬ C₀.Joins k g h) :
    Connects C₀ (done ++ [k]) C := by
  have same (p : Connection E → Prop) (g h : Nat) :
      (∃ k' ∈ done ++ [k], p k' ∧ C₀.Joins k' g h) ↔ ∃ k' ∈ done, p k' ∧ C₀.Joins k' g h := by
    simp [or_and_right, exists_or, passed g h]
  constructor
  · exact connects.relinked
  · exact fun g h => (connects.forward_succ g h).trans (same _ g h).symm
  · exact fun g h => (connects.forward_pred g h).trans (same _ g h).symm
  · exact fun g h => (connects.marked_succ g h).trans (same _ g h).symm
  · exact fun g h => (connects.marked_pred g h).trans (same _ g h).symm
  · intro g h arc
    obtain ⟨k', isDone, joined⟩ := connects.delays g h arc
    exact ⟨k', List.mem_append_left _ isDone, joined⟩

omit [DecidableEq E] in
theorem Connects.step (connects : Connects C₀ done C) {g h : Nat} (joined : C₀.Joins k g h)
    (connected : Connected C g h k.delay C') : Connects C₀ (done ++ [k]) C' := by
  have more (p : Connection E → Prop) (x y : Nat) :
      (∃ k' ∈ done ++ [k], p k' ∧ C₀.Joins k' x y) ↔
        (∃ k' ∈ done, p k' ∧ C₀.Joins k' x y) ∨ p k ∧ x = g ∧ y = h := by
    have isLast : C₀.Joins k x y ↔ x = g ∧ y = h := by
      constructor
      · exact fun other => other.unique joined
      · rintro ⟨rfl, rfl⟩
        exact joined
    simp [or_and_right, exists_or, isLast]
  constructor
  · exact connects.relinked.trans connected.relinked
  · intro x y
    rw [connected.forward_succ, connects.forward_succ, more]
  · intro x y
    rw [connected.forward_pred, connects.forward_pred, more]
  · intro x y
    rw [connected.marked_succ, connects.marked_succ, more fun k => k.delay ≠ none]
  · intro x y
    rw [connected.marked_pred, connects.marked_pred, more fun k => k.delay ≠ none]
  · intro x y arc
    by_cases last : k.delay ≠ none ∧ x = g ∧ y = h
    · obtain ⟨isMarked, rfl, rfl⟩ := last
      obtain ⟨d, isDelay⟩ := Option.ne_none_iff_exists'.mp isMarked
      exact ⟨k, List.mem_append_right _ List.mem_cons_self, joined, d, isDelay, connected.recorded d isDelay⟩
    · have old := ((connected.marked_succ x y).mp arc).resolve_right last
      obtain ⟨k', isDone, joined', d, isDelay, recorded⟩ := connects.delays x y old
      refine ⟨k', List.mem_append_left _ isDone, joined', d, isDelay, ?_⟩
      rcases connected.delays x y with same | ⟨isSource, isTarget, d', isNew, -⟩
      · exact same.trans recorded
      · exact absurd ⟨by simp [isNew], isSource, isTarget⟩ last

omit [DecidableEq E] in
theorem Connects.run :
    ∀ {rest before : List (Connection E)} {C : GroupGraph E}, (∀ k ∈ rest, ∃ g, C₀.getGroup k.own = some g) →
      Connects C₀ before C →
      ((∃ C', rest.foldlM (connectElements m) C = some C') ↔
        ∀ k ∈ rest, ∀ g h, C₀.Joins k g h → ∀ d, k.delay = some d → 0 ≤ d) ∧
      ∀ C', rest.foldlM (connectElements m) C = some C' → Connects C₀ (before ++ rest) C' := by
  intro rest
  induction rest with
  | nil =>
      intro before C _ connects
      simpa using connects
  | cons k rest ih =>
      intro before C grouped connects
      have ofOwn : ∃ g, C.getGroup k.own = some g := by
        rw [connects.relinked.getGroup]
        exact grouped k List.mem_cons_self
      have grouped := fun k' inRest => grouped k' (List.mem_cons_of_mem k inRest)
      rw [List.foldlM_cons, List.append_cons, List.forall_mem_cons]
      rcases connectElements_cases (m := m) ofOwn with ⟨turn, passed⟩ | ⟨g, h, joined, turn⟩
      · rw [connects.relinked.joins] at passed
        obtain ⟨returns, result⟩ := ih grouped (connects.pass passed)
        rw [turn]
        refine ⟨returns.trans (Iff.symm (and_iff_right ?_)), result⟩
        exact fun g h joined => absurd joined (passed g h)
      · rw [turn]
        have joins := connects.relinked.joins ▸ joined
        cases made : C.connect m g h k.delay with
        | none =>
            have refused : ¬ ∃ C', C.connect m g h k.delay = some C' := by simp [made]
            exact ⟨iff_of_false (by simp) fun allowed => refused (connect_isSome.mpr (allowed.1 g h joins)), by simp⟩
        | some C₁ =>
            obtain ⟨returns, result⟩ := ih grouped (connects.step joins (connect_connected made))
            refine ⟨returns.trans (Iff.symm (and_iff_right ?_)), result⟩
            intro g' h' joins'
            obtain ⟨rfl, rfl⟩ := joins'.unique joins
            exact connect_isSome.mp ⟨C₁, made⟩

end Step

end GroupGraph

/-! ### What the elements list -/

namespace CPElements
variable {E : Type} [DecidableEq E] (m : Memory E) (P : CPElements E) (links : E → CPElementLinks E)

/-- An arc from `e` to `f`, listed at one of its ends at least, that is not implicit. -/
def ForwardArc (e f : E) : Prop :=
  e ≠ f ∧ e ∈ P.leaves ∧ f ∈ P.leaves ∧ ∃ x y, P.exitElement x = e ∧ P.entryElement y = f ∧ isImplicit m x y = false ∧
    (x ∈ P.visited ∧ y ∈ (links x).links .successors ∨ y ∈ P.visited ∧ x ∈ (links y).links .predecessors)

/-- A marked arc from `e` to `f` with its delay. -/
def MarkedArc (e f : E) (delay : Int) : Prop :=
  e ≠ f ∧ e ∈ P.leaves ∧ f ∈ P.leaves ∧ ∃ x y, P.exitElement x = e ∧ P.entryElement y = f ∧
    (x ∈ P.visited ∧ y ∈ (links x).links .markedSuccessors ∧ (links x).getMarkedSuccessorDelay y = delay ∨
      y ∈ P.visited ∧ x ∈ (links y).links .markedPredecessors ∧ (links y).getMarkedPredecessorDelay x = delay)

variable {m P links}

omit [DecidableEq E] in
theorem blocks_spec (P : CPElements E) : ∀ block ∈ P.blocks, block.2.1 ∈ P.leaves ∧ block.2.2 ∈ P.leaves := by
  induction P with
  | nil => simp [blocks]
  | element cpe rest ih => exact fun block isBlock => (ih block isBlock).imp (.tail _) (.tail _)
  | block b entry exit inner rest ihInner ihRest =>
      intro block isBlock
      simp only [blocks, List.mem_cons, List.mem_append] at isBlock
      rcases isBlock with rfl | isInner | isRest
      · simp [leaves]
      · obtain ⟨first, last⟩ := ihInner block isInner
        simp [leaves, first, last]
      · obtain ⟨first, last⟩ := ihRest block isRest
        simp [leaves, first, last]

omit [DecidableEq E] in
theorem visited_spec (P : CPElements E) : ∀ x ∈ P.visited, x ∈ P.leaves ∨ ∃ block ∈ P.blocks, block.1 = x := by
  induction P with
  | nil => simp [visited]
  | element cpe rest ih =>
      intro x isVisited
      rcases List.mem_cons.mp isVisited with rfl | isVisited
      · exact .inl List.mem_cons_self
      · exact (ih x isVisited).imp_left (.tail _)
  | block b entry exit inner rest ihInner ihRest =>
      intro x isVisited
      simp only [visited, leaves, blocks, List.mem_cons, List.mem_append] at isVisited ⊢
      rcases isVisited with rfl | isInner | rfl | rfl | isRest
      · simp
      · rcases ihInner x isInner with isLeaf | ⟨block, isBlock, rfl⟩
        · simp [isLeaf]
        · exact .inr ⟨block, by simp [isBlock], rfl⟩
      · simp
      · exact .inr ⟨(x, entry, exit), by simp, rfl⟩
      · rcases ihRest x isRest with isLeaf | ⟨block, isBlock, rfl⟩
        · simp [isLeaf]
        · exact .inr ⟨block, by simp [isBlock], rfl⟩

theorem ends_mem_leaves {x : E} (isVisited : x ∈ P.visited) : P.entryElement x ∈ P.leaves ∧ P.exitElement x ∈ P.leaves := by
  rw [entryElement, exitElement]
  cases found : P.blocks.find? fun block => block.1 = x with
  | some block => exact P.blocks_spec block (List.mem_of_find?_eq_some found)
  | none =>
      rcases P.visited_spec x isVisited with isLeaf | ⟨block, isBlock, isName⟩
      · exact ⟨isLeaf, isLeaf⟩
      · exact absurd isName (by simpa using List.find?_eq_none.mp found block isBlock)

theorem isImplicit_comm (x y : E) : isImplicit m x y = isImplicit m y x := by
  simp only [isImplicit, Bool.and_comm (m.info x).associatedCPFunction.isSome, eq_comm]

theorem exists_forward {e f : E} :
    (∃ k ∈ P.visited.flatMap (connections m P links), k.delay = none ∧ k.source = e ∧ k.target = f) ↔
      ∃ x y, P.exitElement x = e ∧ P.entryElement y = f ∧ isImplicit m x y = false ∧
        (x ∈ P.visited ∧ y ∈ (links x).links .successors ∨ y ∈ P.visited ∧ x ∈ (links y).links .predecessors) := by
  constructor
  · rintro ⟨k, isCall, isForward, rfl, rfl⟩
    obtain ⟨x, isVisited, isCall⟩ := List.mem_flatMap.mp isCall
    simp only [connections, explicitLinks, List.mem_append, List.mem_map, List.mem_filter] at isCall
    rcases isCall with ((⟨y, ⟨listed, explicit⟩, rfl⟩ | ⟨y, ⟨listed, explicit⟩, rfl⟩) | ⟨y, listed, rfl⟩) | ⟨y, listed, rfl⟩
    · exact ⟨y, x, rfl, rfl, by simpa [isImplicit_comm] using explicit, .inr ⟨isVisited, listed⟩⟩
    · exact ⟨x, y, rfl, rfl, by simpa using explicit, .inl ⟨isVisited, listed⟩⟩
    · exact absurd isForward (by simp)
    · exact absurd isForward (by simp)
  · rintro ⟨x, y, rfl, rfl, explicit, ⟨isVisited, listed⟩ | ⟨isVisited, listed⟩⟩
    · refine ⟨⟨P.exitElement x, P.entryElement y, false, none⟩, List.mem_flatMap.mpr ⟨x, isVisited, ?_⟩, rfl, rfl, rfl⟩
      simp only [connections, explicitLinks, List.mem_append, List.mem_map, List.mem_filter]
      exact .inl (.inl (.inr ⟨y, ⟨listed, by simp [explicit]⟩, rfl⟩))
    · refine ⟨⟨P.entryElement y, P.exitElement x, true, none⟩, List.mem_flatMap.mpr ⟨y, isVisited, ?_⟩, rfl, rfl, rfl⟩
      simp only [connections, explicitLinks, List.mem_append, List.mem_map, List.mem_filter]
      exact .inl (.inl (.inl ⟨x, ⟨listed, by simp [isImplicit_comm y x, explicit]⟩, rfl⟩))

theorem exists_marked {e f : E} {delay : Int} :
    (∃ k ∈ P.visited.flatMap (connections m P links), k.delay = some delay ∧ k.source = e ∧ k.target = f) ↔
      ∃ x y, P.exitElement x = e ∧ P.entryElement y = f ∧
        (x ∈ P.visited ∧ y ∈ (links x).links .markedSuccessors ∧ (links x).getMarkedSuccessorDelay y = delay ∨
          y ∈ P.visited ∧ x ∈ (links y).links .markedPredecessors ∧ (links y).getMarkedPredecessorDelay x = delay) := by
  constructor
  · rintro ⟨k, isCall, isMarked, rfl, rfl⟩
    obtain ⟨x, isVisited, isCall⟩ := List.mem_flatMap.mp isCall
    simp only [connections, List.mem_append, List.mem_map] at isCall
    rcases isCall with ((⟨y, listed, rfl⟩ | ⟨y, listed, rfl⟩) | ⟨y, listed, rfl⟩) | ⟨y, listed, rfl⟩
    · exact absurd isMarked (by simp)
    · exact absurd isMarked (by simp)
    · exact ⟨y, x, rfl, rfl, .inr ⟨isVisited, listed, Option.some.inj isMarked⟩⟩
    · exact ⟨x, y, rfl, rfl, .inl ⟨isVisited, listed, Option.some.inj isMarked⟩⟩
  · rintro ⟨x, y, rfl, rfl, ⟨isVisited, listed, rfl⟩ | ⟨isVisited, listed, rfl⟩⟩
    · refine ⟨⟨P.exitElement x, P.entryElement y, false, _⟩, List.mem_flatMap.mpr ⟨x, isVisited, ?_⟩, rfl, rfl, rfl⟩
      simp only [connections, List.mem_append, List.mem_map]
      exact .inr ⟨y, listed, rfl⟩
    · refine ⟨⟨P.entryElement y, P.exitElement x, true, _⟩, List.mem_flatMap.mpr ⟨y, isVisited, ?_⟩, rfl, rfl, rfl⟩
      simp only [connections, List.mem_append, List.mem_map]
      exact .inl (.inr ⟨x, listed, rfl⟩)

theorem own_mem_leaves {k : Connection E} (isCall : k ∈ P.visited.flatMap (connections m P links)) :
    k.own ∈ P.leaves := by
  obtain ⟨x, isVisited, isCall⟩ := List.mem_flatMap.mp isCall
  obtain ⟨first, last⟩ := ends_mem_leaves isVisited
  simp only [connections, List.mem_append, List.mem_map] at isCall
  rcases isCall with ((⟨y, -, rfl⟩ | ⟨y, -, rfl⟩) | ⟨y, -, rfl⟩) | ⟨y, -, rfl⟩
  · exact first
  · exact last
  · exact first
  · exact last

end CPElements

namespace GroupGraph
variable {E : Type} [DecidableEq E] (m : Memory E) (P : CPElements E) (links : E → CPElementLinks E)

/-- The groups are the transitions and places, one each, and their arcs are those that
elements list, a marked arc with its delay at both ends. -/
structure Constructed (C : GroupGraph E) : Prop where
  wellFormed : C.WellFormed
  grouped : ∀ e, e ∈ P.leaves ↔ ∃ g, C.getGroup e = some g
  single : ∀ g, C.Live g ↔ ∃ e, C.getGroup e = some g ∧ (C.group g).elements = [e]
  forward : ∀ g h, C.forward.succ g h ↔
    ∃ e f, C.getGroup e = some g ∧ C.getGroup f = some h ∧ P.ForwardArc m links e f
  marked : ∀ g h, C.marked.succ g h ↔
    ∃ e f delay, C.getGroup e = some g ∧ C.getGroup f = some h ∧ P.MarkedArc links e f delay
  delays : ∀ g h, C.marked.succ g h → ∃ e f delay, C.getGroup e = some g ∧ C.getGroup f = some h ∧
    P.MarkedArc links e f delay ∧ C.delaysOf g h = (delay, delay)

variable {m P links} {C : GroupGraph E}

omit [DecidableEq E] in
/-- A graph with all arcs at both ends can only fail by an arc that is forward and marked. -/
theorem checkGroupGraphStructure_eq_nil_iff (wf : C.WellFormed) :
    C.checkGroupGraphStructure = [] ↔ ∀ g h, C.Live g → ¬ (C.forward.succ g h ∧ C.marked.succ g h) := by
  have forwardPred (g h : Nat) (isLive : C.Live h) (listed : C.forward.pred h g) := wf.forward_closed.predecessors g h isLive listed
  have markedPred (g h : Nat) (isLive : C.Live h) (listed : C.marked.pred h g) := wf.marked_closed.predecessors g h isLive listed
  simp only [checkGroupGraphStructure, List.flatMap_eq_nil_iff, checkGroup, List.append_eq_nil_iff]
  constructor
  · rintro clean g h isLive ⟨isForward, isMarked⟩
    obtain ⟨liveH, listed⟩ := wf.forward_closed.successors g h isLive isForward
    have markedH := (wf.marked_closed.successors g h isLive isMarked).2
    have quiet := ((clean h liveH).2 g markedH).2
    rw [if_pos (show g ∈ (C.group h).predecessors from listed)] at quiet
    exact absurd quiet (List.cons_ne_nil _ _)
  · intro disjoint g isLive
    refine ⟨⟨⟨fun h listed => if_pos ?_, fun h listed => if_pos ?_⟩, fun h listed => if_pos ?_⟩,
      fun h listed => ⟨if_pos ?_, if_neg ?_⟩⟩
    · exact (wf.forward_closed.successors g h isLive listed).2
    · exact (forwardPred h g isLive listed).2
    · exact (wf.marked_closed.successors g h isLive listed).2
    · exact (markedPred h g isLive listed).2
    · intro both
      obtain ⟨liveH, isForward⟩ := forwardPred h g isLive both
      exact disjoint h g liveH ⟨isForward, (markedPred h g isLive listed).2⟩

section Construction
variable {C₀ : GroupGraph E} (vertices : Vertices P.leaves C₀)
  (connects : Connects C₀ (P.visited.flatMap (connections m P links)) C)
include vertices connects

theorem Vertices.joins {k : Connection E} {g h : Nat} (joined : C₀.Joins k g h) :
    C.getGroup k.source = some g ∧ C.getGroup k.target = some h ∧ k.source ≠ k.target ∧ k.source ∈ P.leaves ∧
      k.target ∈ P.leaves := by
  obtain ⟨ofSource, ofTarget, differ⟩ := joined
  rw [connects.relinked.getGroup]
  refine ⟨ofSource, ofTarget, fun same => ?_, vertices.getGroup_iff.mp ⟨g, ofSource⟩, vertices.getGroup_iff.mp ⟨h, ofTarget⟩⟩
  rw [same, ofTarget] at ofSource
  exact differ (Option.some.inj ofSource).symm

theorem Vertices.forward_iff (g h : Nat) : C.forward.succ g h ↔
    ∃ e f, C.getGroup e = some g ∧ C.getGroup f = some h ∧ P.ForwardArc m links e f := by
  rw [connects.forward_succ]
  constructor
  · rintro ⟨k, isCall, isForward, joined⟩
    obtain ⟨ofSource, ofTarget, differ, sourceLeaf, targetLeaf⟩ := vertices.joins connects joined
    exact ⟨_, _, ofSource, ofTarget, differ, sourceLeaf, targetLeaf,
      CPElements.exists_forward.mp ⟨k, isCall, isForward, rfl, rfl⟩⟩
  · rintro ⟨e, f, ofE, ofF, differ, -, -, listed⟩
    obtain ⟨k, isCall, isForward, rfl, rfl⟩ := CPElements.exists_forward.mpr listed
    rw [connects.relinked.getGroup] at ofE ofF
    exact ⟨k, isCall, isForward, ofE, ofF, fun same => differ (vertices.unique ofE (same ▸ ofF))⟩

theorem Vertices.marked_iff (g h : Nat) : C.marked.succ g h ↔
    ∃ e f delay, C.getGroup e = some g ∧ C.getGroup f = some h ∧ P.MarkedArc links e f delay := by
  rw [connects.marked_succ]
  constructor
  · rintro ⟨k, isCall, isMarked, joined⟩
    obtain ⟨ofSource, ofTarget, differ, sourceLeaf, targetLeaf⟩ := vertices.joins connects joined
    obtain ⟨delay, isDelay⟩ := Option.ne_none_iff_exists'.mp isMarked
    exact ⟨_, _, delay, ofSource, ofTarget, differ, sourceLeaf, targetLeaf,
      CPElements.exists_marked.mp ⟨k, isCall, isDelay, rfl, rfl⟩⟩
  · rintro ⟨e, f, delay, ofE, ofF, differ, -, -, listed⟩
    obtain ⟨k, isCall, isDelay, rfl, rfl⟩ := CPElements.exists_marked.mpr listed
    rw [connects.relinked.getGroup] at ofE ofF
    exact ⟨k, isCall, by simp [isDelay], ofE, ofF, fun same => differ (vertices.unique ofE (same ▸ ofF))⟩

theorem Vertices.constructed : Constructed m P links C := by
  have same := connects.relinked.getGroup
  have live := connects.relinked.live
  have inside {g h : Nat} {e f : E} (ofE : C.getGroup e = some g) (ofF : C.getGroup f = some h) : C.Live g ∧ C.Live h := by
    rw [same] at ofE ofF
    rw [live, live]
    exact ⟨(vertices.belongs e g (getGroup_eq_some.mp ofE)).1, (vertices.belongs f h (getGroup_eq_some.mp ofF)).1⟩
  have elements {e : E} {g : Nat} (ofE : C.getGroup e = some g) : C.Live g ∧ (C.group g).elements = [e] := by
    rw [live, connects.relinked.elements]
    exact vertices.belongs e g (getGroup_eq_some.mp (same ▸ ofE))
  have owner {g : Nat} (isLive : C.Live g) : ∃ e, C.getGroup e = some g := by
    obtain ⟨e, isMapped⟩ := vertices.members g ((live g).mp isLive)
    exact ⟨e, same ▸ getGroup_eq_some.mpr isMapped⟩
  have forwardBoth (g h : Nat) : C.forward.succ g h ↔ C.forward.pred h g := by
    rw [connects.forward_succ, connects.forward_pred]
  have markedBoth (g h : Nat) : C.marked.succ g h ↔ C.marked.pred h g := by
    rw [connects.marked_succ, connects.marked_pred]
  have forwardLive (g h : Nat) (arc : C.forward.succ g h) : C.Live g ∧ C.Live h := by
    obtain ⟨e, f, ofE, ofF, -⟩ := (vertices.forward_iff connects g h).mp arc
    exact inside ofE ofF
  have markedLive (g h : Nat) (arc : C.marked.succ g h) : C.Live g ∧ C.Live h := by
    obtain ⟨e, f, delay, ofE, ofF, -⟩ := (vertices.marked_iff connects g h).mp arc
    exact inside ofE ofF
  refine ⟨⟨⟨⟨?_, ?_⟩, ⟨?_, ?_⟩, ?_, ?_, ?_, ?_⟩, ?_⟩, ?_, ?_, vertices.forward_iff connects,
    vertices.marked_iff connects, ?_⟩
  · exact fun g h _ arc => ⟨(forwardLive g h arc).2, (forwardBoth g h).mp arc⟩
  · exact fun g h _ arc => ⟨(forwardLive g h ((forwardBoth g h).mpr arc)).1, (forwardBoth g h).mpr arc⟩
  · exact fun g h _ arc => ⟨(markedLive g h arc).2, (markedBoth g h).mp arc⟩
  · exact fun g h _ arc => ⟨(markedLive g h ((markedBoth g h).mpr arc)).1, (markedBoth g h).mpr arc⟩
  · intro g isLive e member
    obtain ⟨f, ofF⟩ := owner isLive
    rw [(elements ofF).2] at member
    exact getGroup_eq_some.mp (List.mem_singleton.mp member ▸ ofF)
  · intro e g isMapped
    obtain ⟨isLive, single⟩ := elements (getGroup_eq_some.mpr isMapped)
    exact ⟨isLive, single ▸ List.mem_cons_self⟩
  · exact connects.relinked.cpelementGroups ▸ vertices.nodup
  · intro g isLive
    rw [connects.relinked.rootIndexCounter]
    exact vertices.created g ((live g).mp isLive)
  · intro g isLive
    obtain ⟨e, ofE⟩ := owner isLive
    rw [(elements ofE).2]
    exact List.cons_ne_nil e []
  · intro e
    rw [same]
    exact vertices.getGroup_iff.symm
  · intro g
    constructor
    · intro isLive
      obtain ⟨e, ofE⟩ := owner isLive
      exact ⟨e, ofE, (elements ofE).2⟩
    · rintro ⟨e, ofE, -⟩
      exact (elements ofE).1
  · intro g h arc
    obtain ⟨k, isCall, joined, delay, isDelay, recorded⟩ := connects.delays g h arc
    obtain ⟨ofSource, ofTarget, differ, sourceLeaf, targetLeaf⟩ := vertices.joins connects joined
    exact ⟨_, _, delay, ofSource, ofTarget, ⟨differ, sourceLeaf, targetLeaf,
      CPElements.exists_marked.mp ⟨k, isCall, isDelay, rfl, rfl⟩⟩, recorded⟩

end Construction

theorem Constructed.unique (constructed : Constructed m P links C) {e f : E} {g : Nat}
    (ofE : C.getGroup e = some g) (ofF : C.getGroup f = some g) : e = f := by
  obtain ⟨isLive, insideE⟩ := constructed.wellFormed.belongs e g (getGroup_eq_some.mp ofE)
  obtain ⟨-, insideF⟩ := constructed.wellFormed.belongs f g (getGroup_eq_some.mp ofF)
  obtain ⟨_, -, single⟩ := (constructed.single g).mp isLive
  rw [single, List.mem_singleton] at insideE insideF
  exact insideE.trans insideF.symm

/-- The graph is made just when no element is listed twice and no marked arc has a negative
delay, and has the groups and the arcs that it should have. -/
theorem constructGroupGraph_constructed (m : Memory E) (P : CPElements E) (links : E → CPElementLinks E)
    (rootIndexCounter : Nat) :
    ((∃ C, constructGroupGraph m P links rootIndexCounter = some C) ↔
      P.leaves.Nodup ∧ ∀ e f delay, P.MarkedArc links e f delay → 0 ≤ delay) ∧
    ∀ C, constructGroupGraph m P links rootIndexCounter = some C → Constructed m P links C := by
  obtain ⟨makes, made⟩ := Vertices.run (m := m) P.leaves List.nodup_nil (Vertices.start rootIndexCounter)
  rw [List.nil_append] at makes made
  cases madeVertices : P.leaves.foldlM (constructVertex m) (bare rootIndexCounter) with
  | none =>
      have refused : ¬ P.leaves.Nodup := fun distinct => by simpa [madeVertices] using makes.mpr distinct
      refine ⟨iff_of_false ?_ fun allowed => refused allowed.1, ?_⟩
      · simp [constructGroupGraph, madeVertices]
      · simp [constructGroupGraph, madeVertices]
  | some C₀ =>
      have distinct := makes.mp ⟨C₀, madeVertices⟩
      have vertices := made C₀ madeVertices
      have run : constructGroupGraph m P links rootIndexCounter =
          (P.visited.flatMap (connections m P links)).foldlM (connectElements m) C₀ := by
        rw [constructGroupGraph, madeVertices]
        rfl
      obtain ⟨returns, result⟩ := Connects.run (m := m)
        (fun k isCall => vertices.getGroup_iff.mpr (CPElements.own_mem_leaves (m := m) isCall))
        (Connects.start vertices.unlinked)
      rw [run]
      refine ⟨returns.trans ?_, fun C isResult => ?_⟩
      · rw [and_iff_right distinct]
        constructor
        · rintro allowed e f delay ⟨differ, leafE, leafF, listed⟩
          obtain ⟨k, isCall, isDelay, rfl, rfl⟩ := CPElements.exists_marked.mpr listed
          obtain ⟨g, ofE⟩ := vertices.getGroup_iff.mpr leafE
          obtain ⟨h, ofF⟩ := vertices.getGroup_iff.mpr leafF
          exact allowed k isCall g h ⟨ofE, ofF, fun same => differ (vertices.unique ofE (same ▸ ofF))⟩ delay isDelay
        · intro allowed k isCall g h joined d isDelay
          refine allowed k.source k.target d ⟨?_, vertices.getGroup_iff.mp ⟨g, joined.1⟩,
            vertices.getGroup_iff.mp ⟨h, joined.2.1⟩, CPElements.exists_marked.mp ⟨k, isCall, isDelay, rfl, rfl⟩⟩
          intro same
          exact joined.2.2 (Option.some.inj (joined.1.symm.trans (same ▸ joined.2.1)))
      · exact vertices.constructed (result C isResult)

/-- The group graph is made just when no element is listed twice and no marked arc has a
negative delay, and is then well formed, with a group for each transition and place and
the arcs that the elements list; the check of it fails only by an arc that is listed both
forward and marked. -/
theorem constructGroupGraph_spec (m : Memory E) (P : CPElements E) (links : E → CPElementLinks E)
    (rootIndexCounter : Nat) :
    ((∃ C, constructGroupGraph m P links rootIndexCounter = some C) ↔
      P.leaves.Nodup ∧ ∀ e f delay, P.MarkedArc links e f delay → 0 ≤ delay) ∧
    ∀ C, constructGroupGraph m P links rootIndexCounter = some C → Constructed m P links C ∧
      (C.checkGroupGraphStructure = [] ↔ ∀ e f delay, ¬ (P.ForwardArc m links e f ∧ P.MarkedArc links e f delay)) := by
  obtain ⟨makes, made⟩ := constructGroupGraph_constructed m P links rootIndexCounter
  refine ⟨makes, fun C isResult => ?_⟩
  have constructed := made C isResult
  refine ⟨constructed, (checkGroupGraphStructure_eq_nil_iff constructed.wellFormed).trans ?_⟩
  constructor
  · rintro disjoint e f delay ⟨isForward, isMarked⟩
    obtain ⟨g, ofE⟩ := (constructed.grouped e).mp isForward.2.1
    obtain ⟨h, ofF⟩ := (constructed.grouped f).mp isForward.2.2.1
    have isLive := (constructed.wellFormed.belongs e g (getGroup_eq_some.mp ofE)).1
    exact disjoint g h isLive ⟨(constructed.forward g h).mpr ⟨e, f, ofE, ofF, isForward⟩,
      (constructed.marked g h).mpr ⟨e, f, delay, ofE, ofF, isMarked⟩⟩
  · rintro disjoint g h - ⟨forwardArc, markedArc⟩
    obtain ⟨e, f, ofE, ofF, isForward⟩ := (constructed.forward g h).mp forwardArc
    obtain ⟨e', f', delay, ofE', ofF', isMarked⟩ := (constructed.marked g h).mp markedArc
    obtain rfl := constructed.unique ofE ofE'
    obtain rfl := constructed.unique ofF ofF'
    exact disjoint e f delay ⟨isForward, isMarked⟩

end GroupGraph

end Ahir.ControlPath
