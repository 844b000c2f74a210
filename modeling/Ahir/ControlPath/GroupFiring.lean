import Mathlib.Data.Nat.Count
import Ahir.ControlPath.GroupMerge

/-!
# When the groups of a control path fire

A history tells at which instants each group fires.  A place group fires with
any of its predecessors, a transition group when each arc into it holds a token:
a forward arc from the firing of its source on, a marked arc one more from the
start.  A group that waits for one other group only fires whenever that one
does, so it may be merged into it: the elements keep their histories.
-/

set_option autoImplicit false

namespace Ahir.ControlPath
open Ahir.Graph

namespace CPElementGroup
variable {E : Type}

def bare (g : CPElementGroup E) : CPElementGroup E :=
  { g with
    successors := []
    successorVector := []
    predecessors := []
    markedPredecessors := []
    markedSuccessors := []
    markedSuccessorDelays := fun _ => -1
    markedPredecessorDelays := fun _ => -1 }

/-- The elements `cpes` join the group. -/
def addElements [DecidableEq E] (m : Memory E) (cpes : List E) (g : CPElementGroup E) :
    CPElementGroup E :=
  cpes.foldl (fun g cpe => g.addElement m.belowElement m.info cpe) g

/-- A group is of places or of transitions, and has what its elements have:
adding one of them again changes nothing. -/
structure Described [DecidableEq E] (m : Memory E) (g : CPElementGroup E) : Prop where
  kind : g.hasTransition = !g.hasPlace
  elements : ∀ cpe ∈ g.elements, g.bare.addElement m.belowElement m.info cpe = g.bare

def Agrees (this g : CPElementGroup E) : Prop :=
  this.associatedCPFunction = none ∨ g.associatedCPFunction = none ∨
    this.associatedCPFunction = g.associatedCPFunction

/-- `g` is of the kind of `this` and fires whenever its predecessors let it. -/
structure Follows (this g : CPElementGroup E) : Prop where
  notBound : g.isBoundAsOutputFromCPFunction = false
  notDelay : g.isDelayElement = false
  noInput : g.hasInputTransition = false
  unmarked : g.markedPredecessors = []
  sameParent : g.pipelineParent = this.pipelineParent
  notDead : g.hasDeadTransition = false
  notTiedHigh : g.hasTiedHighTransition = false
  notLeftOpen : g.hasLeftOpenTransition = false
  sameKind : g.hasPlace = this.hasPlace

theorem canPotentiallyAbsorb_iff [DecidableEq E] {this g : CPElementGroup E}
    (kind : this.hasTransition = !this.hasPlace) (kind' : g.hasTransition = !g.hasPlace) :
    this.canPotentiallyAbsorb g = true ↔ Agrees this g ∧
      this.isBoundAsInputToCPFunction = false ∧ this.isDelayElement = false ∧ Follows this g := by
  have agrees : Agrees this g ↔ ¬ (this.associatedCPFunction.isSome && g.associatedCPFunction.isSome &&
      this.associatedCPFunction ≠ g.associatedCPFunction) = true := by
    unfold Agrees
    cases this.associatedCPFunction <;> cases g.associatedCPFunction <;> simp
  have kinds : (if this.hasPlace then !g.hasTransition else if this.hasTransition then !g.hasPlace
      else true) = true ↔ g.hasPlace = this.hasPlace := by
    rw [kind, kind']
    cases this.hasPlace <;> cases g.hasPlace <;> decide
  rw [agrees]
  unfold canPotentiallyAbsorb
  simp only [Bool.if_false_left, Bool.and_eq_true, kinds, Bool.not_eq_true', decide_eq_false_iff_not,
    Bool.not_eq_true, Bool.not_eq_false, List.isEmpty_iff, ne_eq, not_not]
  constructor
  · rintro ⟨function, bound, delay, boundOut, delay', input, marked, parent, dead, tied, left, same⟩
    exact ⟨function, bound, delay, boundOut, delay', input, marked, parent.symm, dead, tied, left, same⟩
  · rintro ⟨function, bound, delay, boundOut, delay', input, marked, parent, dead, tied, left, same⟩
    exact ⟨function, bound, delay, boundOut, delay', input, marked, parent.symm, dead, tied, left, same⟩

structure SameDrive (g g' : CPElementGroup E) : Prop where
  hasPlace : g'.hasPlace = g.hasPlace
  hasTransition : g'.hasTransition = g.hasTransition
  pipelineParent : g'.pipelineParent = g.pipelineParent
  hasDeadTransition : g'.hasDeadTransition = g.hasDeadTransition
  hasTiedHighTransition : g'.hasTiedHighTransition = g.hasTiedHighTransition
  hasLeftOpenTransition : g'.hasLeftOpenTransition = g.hasLeftOpenTransition
  isBoundAsOutputFromCPFunction : g'.isBoundAsOutputFromCPFunction = g.isBoundAsOutputFromCPFunction
  hasInputTransition : g'.hasInputTransition = g.hasInputTransition
  isDelayElement : g'.isDelayElement = g.isDelayElement

theorem SameDrive.refl (g : CPElementGroup E) : SameDrive g g :=
  ⟨rfl, rfl, rfl, rfl, rfl, rfl, rfl, rfl, rfl⟩

theorem SameDrive.bare (g : CPElementGroup E) : SameDrive g g.bare ∧ SameDrive g.bare g :=
  ⟨⟨rfl, rfl, rfl, rfl, rfl, rfl, rfl, rfl, rfl⟩, ⟨rfl, rfl, rfl, rfl, rfl, rfl, rfl, rfl, rfl⟩⟩

theorem SameDrive.of_bare {g g' : CPElementGroup E} (same : g'.bare = g.bare) : SameDrive g g' :=
  ⟨congrArg (fun h => h.hasPlace) same, congrArg (fun h => h.hasTransition) same,
    congrArg (fun h => h.pipelineParent) same, congrArg (fun h => h.hasDeadTransition) same,
    congrArg (fun h => h.hasTiedHighTransition) same, congrArg (fun h => h.hasLeftOpenTransition) same,
    congrArg (fun h => h.isBoundAsOutputFromCPFunction) same,
    congrArg (fun h => h.hasInputTransition) same, congrArg (fun h => h.isDelayElement) same⟩

theorem SameDrive.trans {g g' g'' : CPElementGroup E} (first : SameDrive g g')
    (second : SameDrive g' g'') : SameDrive g g'' :=
  ⟨second.hasPlace.trans first.hasPlace, second.hasTransition.trans first.hasTransition,
    second.pipelineParent.trans first.pipelineParent,
    second.hasDeadTransition.trans first.hasDeadTransition,
    second.hasTiedHighTransition.trans first.hasTiedHighTransition,
    second.hasLeftOpenTransition.trans first.hasLeftOpenTransition,
    second.isBoundAsOutputFromCPFunction.trans first.isBoundAsOutputFromCPFunction,
    second.hasInputTransition.trans first.hasInputTransition,
    second.isDelayElement.trans first.isDelayElement⟩

theorem Follows.addElement [DecidableEq E] {m : Memory E} {this g : CPElementGroup E} {cpe : E}
    (follows : Follows this g) (kind : this.hasTransition = !this.hasPlace)
    (kind' : g.hasTransition = !g.hasPlace)
    (known : g.bare.addElement m.belowElement m.info cpe = g.bare) :
    SameDrive this (this.addElement m.belowElement m.info cpe) := by
  obtain ⟨notBound, notDelay, noInput, _, sameParent, notDead, notTiedHigh, notLeftOpen, sameKind⟩ :=
    follows
  have same : SameDrive g (g.addElement m.belowElement m.info cpe) := SameDrive.of_bare known
  obtain ⟨place, transition, parent, dead, tiedHigh, leftOpen, bound, input, delay⟩ := same
  have sameTransition : g.hasTransition = this.hasTransition := by
    rw [kind, kind', sameKind]
  simp only [CPElementGroup.addElement, notBound, notDelay, noInput, notDead, notTiedHigh,
    notLeftOpen, sameKind, sameParent, sameTransition, Bool.false_or]
    at place transition parent dead tiedHigh leftOpen bound input delay
  constructor
  · exact place
  · exact transition
  · exact parent
  · simp [CPElementGroup.addElement, dead]
  · simp [CPElementGroup.addElement, tiedHigh]
  · simp [CPElementGroup.addElement, leftOpen]
  · simp [CPElementGroup.addElement, bound]
  · simp [CPElementGroup.addElement, input]
  · simp [CPElementGroup.addElement, delay]

theorem Follows.of_sameDrive {this this' g : CPElementGroup E} (follows : Follows this g)
    (same : SameDrive this this') : Follows this' g :=
  ⟨follows.notBound, follows.notDelay, follows.noInput, follows.unmarked,
    follows.sameParent.trans same.pipelineParent.symm, follows.notDead, follows.notTiedHigh,
    follows.notLeftOpen, follows.sameKind.trans same.hasPlace.symm⟩

theorem Follows.addElements [DecidableEq E] {m : Memory E} {g : CPElementGroup E} {cpes : List E}
    (kind' : g.hasTransition = !g.hasPlace)
    (known : ∀ cpe ∈ cpes, g.bare.addElement m.belowElement m.info cpe = g.bare) :
    ∀ this : CPElementGroup E, Follows this g → this.hasTransition = !this.hasPlace →
      SameDrive this (this.addElements m cpes) := by
  induction cpes with
  | nil => exact fun this _ _ => SameDrive.refl this
  | cons cpe rest ih =>
      intro this follows kind
      have first := follows.addElement kind kind' (known cpe List.mem_cons_self)
      refine first.trans (ih (fun cpe' member => known cpe' (List.mem_cons_of_mem cpe member))
        _ (follows.of_sameDrive first) ?_)
      rw [first.hasTransition, first.hasPlace]
      exact kind

end CPElementGroup

namespace GroupGraph
variable {E : Type} [DecidableEq E] {m : Memory E} {C C' : GroupGraph E}

section Bare
open CPElementGroup

omit [DecidableEq E] in
theorem modify_bare {x : Nat} {f : CPElementGroup E → CPElementGroup E}
    (same : ∀ g, (f g).bare = g.bare) (h : Nat) :
    ((C.modify x f).group h).bare = (C.group h).bare := by
  rw [modify_group]
  split_ifs
  · exact same _
  · rfl

omit [DecidableEq E] in
theorem connectGroups_bare {source target : Nat} (h : Nat) :
    ((C.connectGroups m source target).group h).bare = (C.group h).bare := by
  refine (modify_bare ?_ h).trans (modify_bare ?_ h)
  · exact fun _ => rfl
  · exact fun _ => rfl

omit [DecidableEq E] in
theorem connectMarkedGroups_bare {source target : Nat} {delay : Int}
    (run : C.connectMarkedGroups m source target delay = some C') (h : Nat) :
    (C'.group h).bare = (C.group h).bare := by
  unfold connectMarkedGroups at run
  split_ifs at run
  obtain rfl := Option.some.inj run
  refine (modify_bare ?_ h).trans (modify_bare ?_ h)
  · exact fun _ => rfl
  · exact fun _ => rfl

omit [DecidableEq E] in
theorem moveSuccessor_bare {part whole s : Nat} (h : Nat) :
    ((moveSuccessor m part whole C s).group h).bare = (C.group h).bare := by
  have erased : ((C.modify s (CPElementGroup.erasePredecessor part)).group h).bare =
      (C.group h).bare := by
    apply modify_bare
    exact fun _ => rfl
  unfold moveSuccessor
  dsimp only
  split_ifs
  · exact (connectGroups_bare h).trans erased
  · exact erased

omit [DecidableEq E] in
theorem moveMarkedSuccessor_bare {part whole s : Nat}
    (run : moveMarkedSuccessor m part whole C s = some C') (h : Nat) :
    (C'.group h).bare = (C.group h).bare := by
  have erased : ((C.modify s (CPElementGroup.forgetMarkedPredecessor part)).group h).bare =
      (C.group h).bare := by
    apply modify_bare
    exact fun _ => rfl
  unfold moveMarkedSuccessor at run
  dsimp only at run
  split_ifs at run
  · exact (connectMarkedGroups_bare run h).trans erased
  · exact Option.some.inj run ▸ erased

omit [DecidableEq E] in
theorem moveMarkedPredecessor_bare {part whole s : Nat}
    (run : moveMarkedPredecessor m part whole C s = some C') (h : Nat) :
    (C'.group h).bare = (C.group h).bare := by
  have erased : ((C.modify s (CPElementGroup.forgetMarkedSuccessor part)).group h).bare =
      (C.group h).bare := by
    apply modify_bare
    exact fun _ => rfl
  unfold moveMarkedPredecessor at run
  dsimp only at run
  split_ifs at run
  · exact (connectMarkedGroups_bare run h).trans erased
  · exact Option.some.inj run ▸ erased

omit [DecidableEq E] in
theorem foldl_bare {S : Type} {f : GroupGraph E → S → GroupGraph E}
    (step : ∀ C s h, ((f C s).group h).bare = (C.group h).bare) (ss : List S) (h : Nat) (C : GroupGraph E) :
    ((ss.foldl f C).group h).bare = (C.group h).bare := by
  refine List.foldlRecOn (motive := fun C' => (C'.group h).bare = (C.group h).bare) ss f rfl fun C' same s _ => ?_
  exact (step C' s h).trans same

omit [DecidableEq E] in
theorem foldlM_bare {S : Type} {f : GroupGraph E → S → Option (GroupGraph E)}
    (step : ∀ C s C', f C s = some C' → ∀ h, (C'.group h).bare = (C.group h).bare) (ss : List S)
    (h : Nat) (C C' : GroupGraph E) (run : ss.foldlM f C = some C') : (C'.group h).bare = (C.group h).bare :=
  Run.foldlM_keeps (fun C' => (C'.group h).bare = (C.group h).bare)
    (fun C₁ s C₂ same turn => (step C₁ s C₂ turn h).trans same) rfl run

omit [DecidableEq E] in
theorem moveLinks_bare {part whole : Nat} (run : C.moveLinks m part whole = some C') (h : Nat) :
    (C'.group h).bare = (C.group h).bare := by
  simp only [moveLinks] at run
  obtain ⟨C₁, successors, predecessors⟩ := Option.bind_eq_some_iff.mp run
  have first : ((C.modify whole (CPElementGroup.eraseSuccessors part)).group h).bare =
      (C.group h).bare := by
    apply modify_bare
    exact fun _ => rfl
  have second := foldl_bare (f := moveSuccessor m part whole) (fun _ _ h => moveSuccessor_bare h)
    ((C.modify whole (CPElementGroup.eraseSuccessors part)).group part).successors h
    (C.modify whole (CPElementGroup.eraseSuccessors part))
  have third := foldlM_bare (fun _ _ _ step => moveMarkedSuccessor_bare step) _ h _ _ successors
  have fourth := foldlM_bare (fun _ _ _ step => moveMarkedPredecessor_bare step) _ h _ _ predecessors
  exact fourth.trans (third.trans (second.trans first))

theorem moveElements_bare {whole : Nat} (h : Nat) : ∀ (cpes : List E) (C C' : GroupGraph E),
    cpes.foldlM (moveToGroup m whole) C = some C' →
    (C'.group h).bare =
      if h = whole then (C.group h).bare.addElements m cpes else (C.group h).bare := by
  intro cpes
  induction cpes with
  | nil =>
      intro C C' run
      obtain rfl := Option.some.inj run
      split_ifs <;> rfl
  | cons cpe rest ih =>
      intro C C' run
      rw [List.foldlM_cons] at run
      obtain ⟨C₁, first, run⟩ := Option.bind_eq_some_iff.mp run
      rw [moveToGroup, addToGroup, if_pos (if_pos rfl)] at first
      obtain rfl := Option.some.inj first
      rw [ih _ C' run]
      by_cases isWhole : h = whole
      · simp only [isWhole, if_true, modify_group]
        rfl
      · simp only [isWhole, if_false, modify_group]

theorem mergeGroups_bare {part whole : Nat} (run : C.mergeGroups m part whole = some C') (h : Nat) :
    (C'.group h).bare = if h = whole then
      (C.group h).bare.addElements m (C.group part).elements else (C.group h).bare := by
  unfold mergeGroups at run
  split_ifs at run
  obtain ⟨C₁, links, run⟩ := Option.bind_eq_some_iff.mp run
  obtain ⟨C₂, elements, run⟩ := Option.bind_eq_some_iff.mp run
  obtain rfl := Option.some.inj run
  have moved := moveElements_bare h _ _ _ elements
  rw [moveLinks_bare links, (moveLinks_relinked links).elements] at moved
  exact moved

end Bare

theorem mergeGroups_sameDrive {part whole : Nat} (described : (C.group part).Described m)
    (kind : (C.group whole).hasTransition = !(C.group whole).hasPlace)
    (follows : (C.group whole).Follows (C.group part)) (run : C.mergeGroups m part whole = some C')
    (g : Nat) : CPElementGroup.SameDrive (C.group g) (C'.group g) := by
  have bare := mergeGroups_bare run g
  by_cases isWhole : g = whole
  · subst isWhole
    rw [if_pos rfl] at bare
    have same := CPElementGroup.SameDrive.bare (C.group g)
    have grown := CPElementGroup.Follows.addElements described.kind described.elements
      (C.group g).bare (follows.of_sameDrive same.1) kind
    rw [← bare] at grown
    exact same.1.trans (grown.trans (CPElementGroup.SameDrive.bare (C'.group g)).2)
  · rw [if_neg isWhole] at bare
    exact CPElementGroup.SameDrive.of_bare bare

theorem mergeGroups_waits {part whole : Nat} (wf : C.WellFormed) (livePart : C.Live part)
    (distinct : part ≠ whole) (unmarked : (C.group part).markedPredecessors = [])
    (run : C.mergeGroups m part whole = some C') {g : Nat} (isLive : C.Live g) (p : Nat) :
    (p ∈ (C'.group g).predecessors ↔ p ∈ (C.group g).predecessors ∧ p ≠ part ∨
      p = whole ∧ part ∈ (C.group g).predecessors) ∧
    (p ∈ (C'.group g).markedPredecessors ↔ p ∈ (C.group g).markedPredecessors ∧ p ≠ part ∨
      p = whole ∧ part ∈ (C.group g).markedPredecessors ∧ g ≠ whole) := by
  obtain ⟨_, C₁, links, sameForward, sameMarked, _⟩ := mergeGroups_cases run
  obtain ⟨forwardLinks, marked₁, first, second⟩ := moveLinks_spec distinct links
  have forward : C.forward.succ part g ↔ part ∈ (C.group g).predecessors :=
    wf.forward_closed.succ_iff livePart isLive
  have marked : ∀ y, C.Live y → (C.marked.succ part y ↔ part ∈ (C.group y).markedPredecessors) :=
    fun y liveY => wf.marked_closed.succ_iff livePart liveY
  have ofPart : ∀ x, ¬ C.marked.pred part x := by
    intro x listed
    change x ∈ (C.group part).markedPredecessors at listed
    rw [unmarked] at listed
    cases listed
  have noLoop : ¬ C.marked.succ part part := fun arc =>
    ofPart part ((wf.marked_closed.succ_iff livePart livePart).mp arc)
  constructor
  · show C'.forward.pred g p ↔ _
    rw [sameForward, (forwardLinks p g).2, forward]
    have listed : C.forward.pred g p ↔ p ∈ (C.group g).predecessors := Iff.rfl
    by_cases isPart : p = part
    · subst isPart
      simp only [listed, isLive, and_true]
      tauto
    · simp only [listed, isPart, isLive, false_and, not_false_eq_true, and_true, ne_eq]
  · show C'.marked.pred g p ↔ _
    rw [sameMarked, (second p g).2, (first p g).2, (first p part).2, marked g isLive]
    have listed : C.marked.pred g p ↔ p ∈ (C.group g).markedPredecessors := Iff.rfl
    simp only [ofPart p, noLoop, false_and, and_false, or_false, listed, isLive, true_and]
    by_cases isPart : p = part
    · subst isPart
      simp only [true_and, ne_eq, not_true_eq_false, and_false, false_or]
      constructor
      · rintro (⟨member, other⟩ | ⟨isWhole, _⟩)
        · exact absurd member other
        · exact absurd isWhole distinct
      · rintro ⟨isWhole, _⟩
        exact absurd isWhole distinct
    · simp only [isPart, false_and, not_false_eq_true, and_true, ne_eq, eq_comm (a := g)]

abbrev History : Type := Nat → Nat → Bool

/-- How often `g` has fired before `t`. -/
def firedBefore (s : History) (g t : Nat) : Nat := Nat.count (fun k => s g k = true) t

/-- Each forward arc into `g` holds a token at `t`: one that is put there at `t` will do. -/
def ForwardReady (C : GroupGraph E) (s : History) (g t : Nat) : Prop :=
  ∀ p ∈ (C.group g).predecessors, firedBefore s g t < firedBefore s p (t + 1)

/-- Each marked arc into `g` holds a token at `t`. -/
def MarkedReady (C : GroupGraph E) (s : History) (g t : Nat) : Prop :=
  ∀ p ∈ (C.group g).markedPredecessors, firedBefore s g t < 1 + firedBefore s p t

/-- The group fires as its kind and the arcs into it let it.  An input transition,
an output of a function and a left open transition are fired by others, and so is
a group without predecessors, which waits for its marked arcs only. -/
def Driven (C : GroupGraph E) (s : History) (g : Nat) : Prop :=
  if (C.group g).hasDeadTransition then ∀ t, s g t = false
  else if (C.group g).hasTiedHighTransition then ∀ t, s g t = true
  else if (C.group g).hasLeftOpenTransition ∨ (C.group g).isBoundAsOutputFromCPFunction ∨
      (C.group g).hasInputTransition then True
  else if (C.group g).isDelayElement then
    ∀ t, s g t = true ↔ ∃ p ∈ (C.group g).predecessors, ∃ k, t = k + 1 ∧ s p k = true
  else if (C.group g).hasPlace then ∀ t, s g t = true ↔ ∃ p ∈ (C.group g).predecessors, s p t = true
  else if (C.group g).predecessors = [] then ∀ t, s g t = true → MarkedReady C s g t
  else ∀ t, s g t = true ↔ ForwardReady C s g t ∧ MarkedReady C s g t

/-- The histories of the elements: each fires with its group. -/
def firings (C : GroupGraph E) : Set (E → Nat → Bool) :=
  {h | ∃ s : History, (∀ g, C.Live g → Driven C s g) ∧
    ∀ e g, C.cpelementToGroupMap e = some (some g) → h e = s g}

section Merge
variable {s : History} {part whole g : Nat}

omit [DecidableEq E] in
theorem driven_part (follows : (C.group whole).Follows (C.group part))
    (sole : (C.group part).predecessors = [whole]) : Driven C s part ↔ s part = s whole := by
  have unmarked : ∀ t, MarkedReady C s part t := by
    intro t p listed
    rw [follows.unmarked] at listed
    cases listed
  have forward : ∀ t, ForwardReady C s part t ↔ firedBefore s part t < firedBefore s whole (t + 1) := by
    intro t
    rw [ForwardReady, sole]
    simp
  unfold Driven
  rw [follows.notDead, follows.notTiedHigh, follows.notLeftOpen, follows.notBound, follows.noInput,
    follows.notDelay, sole]
  simp only [Bool.false_eq_true, or_self, if_false, List.cons_ne_nil, List.mem_singleton,
    exists_eq_left, unmarked, and_true, forward]
  split_ifs
  · constructor
    · intro fires
      funext t
      exact Bool.eq_iff_iff.mpr (fires t)
    · intro same t
      rw [same]
  · constructor
    · intro fires
      -- up to `t` the two have fired equally often
      have counts : ∀ t, firedBefore s part t = firedBefore s whole t := by
        intro t
        induction t with
        | zero => simp [firedBefore]
        | succ t ih =>
            have now := fires t
            rw [ih] at now
            simp only [firedBefore, Nat.count_succ] at ih now ⊢
            rw [ih]
            by_cases fired : s whole t = true
            · rw [if_pos fired] at now ⊢
              rw [if_pos (now.mpr (Nat.lt_succ_self _))]
            · rw [if_neg fired] at now ⊢
              rw [if_neg fun isFired => Nat.lt_irrefl _ (now.mp isFired)]
      funext t
      apply Bool.eq_iff_iff.mpr
      rw [fires t, counts t]
      simp only [firedBefore, Nat.count_succ]
      split_ifs with fired
      · simp [fired]
      · simp [fired]
    · intro same t
      simp only [firedBefore, same, Nat.count_succ]
      split_ifs with fired
      · simp [fired]
      · simp [fired]

omit [DecidableEq E] in
/-- A group is driven alike in two graphs where it waits for the same firings. -/
theorem driven_congr {s' : History} (same : CPElementGroup.SameDrive (C.group g) (C'.group g))
    (own : s' g = s g) (none : (C'.group g).predecessors = [] ↔ (C.group g).predecessors = [])
    (fires : ∀ k, (∃ p ∈ (C'.group g).predecessors, s' p k = true) ↔
      ∃ p ∈ (C.group g).predecessors, s p k = true)
    (forward : ∀ t, ForwardReady C' s' g t ↔ ForwardReady C s g t)
    (marked : ∀ t, MarkedReady C' s' g t ↔ MarkedReady C s g t) :
    Driven C' s' g ↔ Driven C s g := by
  have delayed : ∀ t, (∃ p ∈ (C'.group g).predecessors, ∃ k, t = k + 1 ∧ s' p k = true) ↔
      ∃ p ∈ (C.group g).predecessors, ∃ k, t = k + 1 ∧ s p k = true := by
    intro t
    cases t with
    | zero => simp
    | succ k => simpa using fires k
  unfold Driven
  simp only [same.hasDeadTransition, same.hasTiedHighTransition, same.hasLeftOpenTransition,
    same.isBoundAsOutputFromCPFunction, same.hasInputTransition, same.isDelayElement, same.hasPlace,
    own, none, fires, forward, marked, delayed]

/-- The groups that stay are driven alike before and after the merge, when
`part` has fired whenever `whole` has. -/
theorem driven_merge {s' : History} (wf : C.WellFormed) (livePart : C.Live part)
    (distinct : part ≠ whole) (unmarked : (C.group part).markedPredecessors = [])
    (run : C.mergeGroups m part whole = some C')
    (same : CPElementGroup.SameDrive (C.group g) (C'.group g)) (others : ∀ p, p ≠ part → s' p = s p)
    (twin : s part = s whole) (isLive : C.Live g) (other : g ≠ part) :
    Driven C' s' g ↔ Driven C s g := by
  have waits := fun p => mergeGroups_waits wf livePart distinct unmarked run isLive p
  have counts : ∀ p t, p ≠ part → firedBefore s' p t = firedBefore s p t := by
    intro p t otherP
    simp only [firedBefore, others p otherP]
  have countsPart : ∀ t, firedBefore s' whole t = firedBefore s part t := by
    intro t
    simp only [firedBefore, others whole distinct.symm, twin]
  have toWhole : part ∈ (C.group g).predecessors → whole ∈ (C'.group g).predecessors :=
    fun member => (waits whole).1.mpr (Or.inr ⟨rfl, member⟩)
  have stays : ∀ p, p ∈ (C.group g).predecessors → p ≠ part → p ∈ (C'.group g).predecessors :=
    fun p member otherP => (waits p).1.mpr (Or.inl ⟨member, otherP⟩)
  apply driven_congr same (others g other)
  · simp only [List.eq_nil_iff_forall_not_mem]
    constructor
    · intro none p member
      by_cases isPart : p = part
      · exact none whole (toWhole (isPart ▸ member))
      · exact none p (stays p member isPart)
    · intro none p member
      rcases (waits p).1.mp member with ⟨member, _⟩ | ⟨_, member⟩
      · exact none p member
      · exact none part member
  · intro k
    constructor
    · rintro ⟨p, member, fired⟩
      rcases (waits p).1.mp member with ⟨member, otherP⟩ | ⟨rfl, member⟩
      · exact ⟨p, member, by rw [← others p otherP, fired]⟩
      · exact ⟨part, member, by rw [twin, ← others p distinct.symm, fired]⟩
    · rintro ⟨p, member, fired⟩
      by_cases isPart : p = part
      · subst isPart
        exact ⟨whole, toWhole member, by rw [others whole distinct.symm, ← twin, fired]⟩
      · exact ⟨p, stays p member isPart, by rw [others p isPart, fired]⟩
  · intro t
    constructor
    · intro ready p member
      rw [← counts g t other]
      by_cases isPart : p = part
      · subst isPart
        rw [← countsPart]
        exact ready whole (toWhole member)
      · rw [← counts p _ isPart]
        exact ready p (stays p member isPart)
    · intro ready p member
      rw [counts g t other]
      rcases (waits p).1.mp member with ⟨member, otherP⟩ | ⟨rfl, member⟩
      · rw [counts p _ otherP]
        exact ready p member
      · rw [countsPart]
        exact ready part member
  · intro t
    constructor
    · intro ready p member
      rw [← counts g t other]
      by_cases isPart : p = part
      · subst isPart
        rw [← countsPart]
        by_cases isWhole : g = whole
        · -- the marked arc that would lead from `whole` to itself always holds a token
          subst isWhole
          exact Nat.lt_add_of_pos_left Nat.one_pos
        · exact ready whole ((waits whole).2.mpr (Or.inr ⟨rfl, member, isWhole⟩))
      · rw [← counts p _ isPart]
        exact ready p ((waits p).2.mpr (Or.inl ⟨member, isPart⟩))
    · intro ready p member
      rw [counts g t other]
      rcases (waits p).2.mp member with ⟨member, otherP⟩ | ⟨rfl, member, _⟩
      · rw [counts p _ otherP]
        exact ready p member
      · rw [countsPart]
        exact ready part member

theorem mergeGroups_firings (wf : C.WellFormed) (livePart : C.Live part)
    (distinct : part ≠ whole) (described : (C.group part).Described m)
    (kind : (C.group whole).hasTransition = !(C.group whole).hasPlace)
    (follows : (C.group whole).Follows (C.group part))
    (sole : (C.group part).predecessors = [whole]) (run : C.mergeGroups m part whole = some C') :
    C'.firings = C.firings := by
  have same := fun g => mergeGroups_sameDrive described kind follows run g
  obtain ⟨_, C₁, _, _, _, groups, _, mapped, _⟩ := mergeGroups_cases run
  have live : ∀ g, C'.Live g ↔ C.Live g ∧ g ≠ part := by
    intro g
    rw [Live, groups, mem_erasePointer]
    rfl
  ext h
  constructor
  · rintro ⟨s', driven, plays⟩
    let s : History := fun g => if g = part then s' whole else s' g
    have twin : s part = s whole := by
      simp only [s, if_true, if_neg distinct.symm]
    have others : ∀ g, g ≠ part → s' g = s g := fun g other => (if_neg other).symm
    refine ⟨s, ?_, ?_⟩
    · intro g isLive
      by_cases isPart : g = part
      · rw [isPart, driven_part follows sole]
        exact twin
      · exact (driven_merge wf livePart distinct follows.unmarked run (same g) others twin isLive
          isPart).mp (driven g ((live g).mpr ⟨isLive, isPart⟩))
    · intro e g isMapped
      by_cases isPart : g = part
      · subst isPart
        have ofPart := (wf.belongs e g isMapped).2
        rw [twin, ← others whole distinct.symm]
        apply plays
        rw [mapped, if_pos ofPart]
      · rw [← others g isPart]
        apply plays
        rw [mapped, if_neg ?_, isMapped]
        intro ofPart
        rw [wf.members part livePart e ofPart] at isMapped
        exact isPart (Option.some.inj (Option.some.inj isMapped)).symm
  · rintro ⟨s, driven, plays⟩
    have twin := (driven_part follows sole).mp (driven part livePart)
    refine ⟨s, ?_, ?_⟩
    · intro g isLive
      obtain ⟨wasLive, other⟩ := (live g).mp isLive
      exact (driven_merge wf livePart distinct follows.unmarked run (same g) (fun _ _ => rfl) twin
        wasLive other).mpr (driven g wasLive)
    · intro e g isMapped
      rw [mapped] at isMapped
      split_ifs at isMapped with ofPart
      · obtain rfl := Option.some.inj (Option.some.inj isMapped)
        rw [← twin]
        exact plays e part (wf.members part livePart e ofPart)
      · exact plays e g isMapped

end Merge

end GroupGraph

end Ahir.ControlPath
