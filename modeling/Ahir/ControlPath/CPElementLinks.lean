import Mathlib.Data.List.Infix
import Mathlib.Data.List.Nodup
import Mathlib.Logic.Function.Basic

/-!
# The arcs that a control path element lists

An element keeps its successors and its predecessors, plain and marked, in four
vectors, and every arc is written down at both of its ends by separate calls.
The methods that add a successor test whether it is listed already; those that
add a predecessor make the same test and push without regard to it.
-/

set_option autoImplicit false

namespace Ahir.ControlPath

inductive LinkKind where
  | successors
  | predecessors
  | markedSuccessors
  | markedPredecessors
deriving DecidableEq

namespace LinkKind

def mirror : LinkKind → LinkKind
  | successors => predecessors
  | predecessors => successors
  | markedSuccessors => markedPredecessors
  | markedPredecessors => markedSuccessors

def ofPredecessors : LinkKind → Prop
  | predecessors | markedPredecessors => True
  | successors | markedSuccessors => False

instance : DecidablePred ofPredecessors := fun kind => by
  cases kind <;> unfold ofPredecessors <;> infer_instance

end LinkKind

/-- The arcs of `vcCPElement`. -/
structure CPElementLinks (E : Type) where
  links : LinkKind → List E := fun _ => []
  markedSuccessorDelays : E → Option Int := fun _ => none
  markedPredecessorDelays : E → Option Int := fun _ => none

namespace CPElementLinks
variable {E : Type} [DecidableEq E] (this : CPElementLinks E)

/-- The vector with `cpe` behind the others. -/
def pushBack (kind : LinkKind) (cpe : E) : CPElementLinks E :=
  { this with links := Function.update this.links kind (this.links kind ++ [cpe]) }

def pushUnlessPresent (kind : LinkKind) (cpe : E) : CPElementLinks E :=
  if cpe ∈ this.links kind then this else this.pushBack kind cpe

/-- The vector without the first copy of `cpe`. -/
def eraseFirst (kind : LinkKind) (cpe : E) : CPElementLinks E :=
  { this with links := Function.update this.links kind ((this.links kind).erase cpe) }

def addSuccessor (cpe : E) : CPElementLinks E := this.pushUnlessPresent .successors cpe

def removeSuccessor (cpe : E) : CPElementLinks E := this.eraseFirst .successors cpe

-- `if(add_flag);` ends in an empty statement: the push below it is not under the test.
def addPredecessor (cpe : E) : CPElementLinks E := this.pushBack .predecessors cpe

def removePredecessor (cpe : E) : CPElementLinks E := this.eraseFirst .predecessors cpe

def addMarkedSuccessor (cpe : E) : CPElementLinks E := this.pushUnlessPresent .markedSuccessors cpe

def removeMarkedSuccessor (cpe : E) : CPElementLinks E :=
  if cpe ∈ this.links .markedSuccessors then
    { this.eraseFirst .markedSuccessors cpe with
      markedSuccessorDelays := Function.update this.markedSuccessorDelays cpe none }
  else this

-- `if(add_flag);` again.
def addMarkedPredecessor (cpe : E) : CPElementLinks E := this.pushBack .markedPredecessors cpe

def removeMarkedPredecessor (cpe : E) : CPElementLinks E :=
  if cpe ∈ this.links .markedPredecessors then
    { this.eraseFirst .markedPredecessors cpe with
      markedPredecessorDelays := Function.update this.markedPredecessorDelays cpe none }
  else this

def setMarkedSuccessorDelay (cpe : E) (m : Int) : CPElementLinks E :=
  { this with markedSuccessorDelays := Function.update this.markedSuccessorDelays cpe (some m) }

def getMarkedSuccessorDelay (cpe : E) : Int := (this.markedSuccessorDelays cpe).getD 1

def setMarkedPredecessorDelay (cpe : E) (m : Int) : CPElementLinks E :=
  { this with markedPredecessorDelays := Function.update this.markedPredecessorDelays cpe (some m) }

def getMarkedPredecessorDelay (cpe : E) : Int := (this.markedPredecessorDelays cpe).getD 1

def add : LinkKind → E → CPElementLinks E
  | .successors => this.addSuccessor
  | .predecessors => this.addPredecessor
  | .markedSuccessors => this.addMarkedSuccessor
  | .markedPredecessors => this.addMarkedPredecessor

def remove : LinkKind → E → CPElementLinks E
  | .successors => this.removeSuccessor
  | .predecessors => this.removePredecessor
  | .markedSuccessors => this.removeMarkedSuccessor
  | .markedPredecessors => this.removeMarkedPredecessor

/-- Where the test does not guard the push, the element must not be listed yet. -/
def Fresh (kind : LinkKind) (cpe : E) : Prop := kind.ofPredecessors → cpe ∉ this.links kind

variable {this}

theorem pushUnlessPresent_of_mem {kind : LinkKind} {cpe : E} (listed : cpe ∈ this.links kind) :
    this.pushUnlessPresent kind cpe = this :=
  if_pos listed

theorem pushUnlessPresent_of_notMem {kind : LinkKind} {cpe : E} (absent : cpe ∉ this.links kind) :
    this.pushUnlessPresent kind cpe = this.pushBack kind cpe :=
  if_neg absent

theorem add_of_notMem {kind : LinkKind} {cpe : E} (absent : cpe ∉ this.links kind) :
    this.add kind cpe = this.pushBack kind cpe := by
  cases kind with
  | successors => exact pushUnlessPresent_of_notMem absent
  | predecessors => rfl
  | markedSuccessors => exact pushUnlessPresent_of_notMem absent
  | markedPredecessors => rfl

/-- An element that is listed is pushed again only in a vector of predecessors. -/
theorem add_of_mem {kind : LinkKind} {cpe : E} (listed : cpe ∈ this.links kind) :
    this.add kind cpe = if kind.ofPredecessors then this.pushBack kind cpe else this := by
  cases kind with
  | successors => exact pushUnlessPresent_of_mem listed
  | predecessors => rfl
  | markedSuccessors => exact pushUnlessPresent_of_mem listed
  | markedPredecessors => rfl

theorem links_remove (kind : LinkKind) (cpe : E) :
    (this.remove kind cpe).links = Function.update this.links kind ((this.links kind).erase cpe) := by
  have unlisted : ∀ k, cpe ∉ this.links k →
      this.links = Function.update this.links k ((this.links k).erase cpe) := by
    intro k absent
    rw [List.erase_of_not_mem absent, Function.update_eq_self]
  cases kind with
  | successors => rfl
  | predecessors => rfl
  | markedSuccessors =>
      show (this.removeMarkedSuccessor cpe).links = _
      unfold removeMarkedSuccessor
      split_ifs with listed
      · rfl
      · exact unlisted _ listed
  | markedPredecessors =>
      show (this.removeMarkedPredecessor cpe).links = _
      unfold removeMarkedPredecessor
      split_ifs with listed
      · rfl
      · exact unlisted _ listed

omit [DecidableEq E] in
theorem links_pushBack (kind k : LinkKind) (cpe : E) :
    (this.pushBack kind cpe).links k = if k = kind then this.links kind ++ [cpe] else this.links k := by
  unfold pushBack
  exact Function.update_apply ..

theorem mem_links_add {kind k : LinkKind} {cpe x : E} :
    x ∈ (this.add kind cpe).links k ↔ (k = kind ∧ x = cpe) ∨ x ∈ this.links k := by
  have pushed : x ∈ (this.pushBack kind cpe).links k ↔ (k = kind ∧ x = cpe) ∨ x ∈ this.links k := by
    rw [links_pushBack]
    split_ifs with same
    · subst same
      rw [List.mem_append, List.mem_singleton]
      tauto
    · tauto
  by_cases listed : cpe ∈ this.links kind
  · rw [add_of_mem listed]
    split_ifs
    · exact pushed
    · constructor
      · exact Or.inr
      · rintro (⟨rfl, rfl⟩ | member)
        · exact listed
        · exact member
  · rw [add_of_notMem listed]
    exact pushed

theorem mem_links_remove {kind k : LinkKind} {cpe x : E} (nodup : (this.links kind).Nodup) :
    x ∈ (this.remove kind cpe).links k ↔ ¬ (k = kind ∧ x = cpe) ∧ x ∈ this.links k := by
  rw [links_remove, Function.update_apply]
  split_ifs with same
  · subst same
    rw [nodup.mem_erase_iff]
    tauto
  · tauto

theorem successorDelay_forgotten {cpe : E} (listed : cpe ∈ this.links .markedSuccessors) :
    (this.removeMarkedSuccessor cpe).getMarkedSuccessorDelay cpe = 1 := by
  unfold removeMarkedSuccessor getMarkedSuccessorDelay
  rw [if_pos listed]
  exact congrArg (fun delay : Option Int => delay.getD 1) (Function.update_self cpe none this.markedSuccessorDelays)

theorem predecessorDelay_forgotten {cpe : E} (listed : cpe ∈ this.links .markedPredecessors) :
    (this.removeMarkedPredecessor cpe).getMarkedPredecessorDelay cpe = 1 := by
  unfold removeMarkedPredecessor getMarkedPredecessorDelay
  rw [if_pos listed]
  exact congrArg (fun delay : Option Int => delay.getD 1) (Function.update_self cpe none this.markedPredecessorDelays)

def Nodup (this : CPElementLinks E) : Prop := ∀ kind, (this.links kind).Nodup

theorem nodup_add_iff (nodup : this.Nodup) {kind : LinkKind} {cpe : E} :
    (this.add kind cpe).Nodup ↔ this.Fresh kind cpe := by
  by_cases listed : cpe ∈ this.links kind
  · rw [add_of_mem listed]
    split_ifs with ofPredecessors
    · have twice : ¬ (this.pushBack kind cpe).Nodup := by
        intro still
        have here := still kind
        rw [links_pushBack, if_pos rfl] at here
        exact (List.nodup_append.mp here).2.2 cpe listed cpe List.mem_cons_self rfl
      exact iff_of_false twice fun fresh => fresh ofPredecessors listed
    · exact iff_of_true nodup fun contrary => absurd contrary ofPredecessors
  · rw [add_of_notMem listed]
    refine iff_of_true (fun k => ?_) fun _ => listed
    rw [links_pushBack]
    split_ifs with same
    · rw [← List.concat_eq_append]
      exact (List.nodup_concat ..).mpr ⟨listed, nodup kind⟩
    · exact nodup k

theorem nodup_remove (nodup : this.Nodup) (kind : LinkKind) (cpe : E) : (this.remove kind cpe).Nodup := by
  intro k
  rw [links_remove, Function.update_apply]
  split_ifs
  · exact (nodup kind).erase cpe
  · exact nodup k

end CPElementLinks

/-- The calls that build and edit the arcs of a control path. -/
inductive LinkCall (E : Type) where
  | add (kind : LinkKind) (this cpe : E)
  | remove (kind : LinkKind) (this cpe : E)
  | setMarkedSuccessorDelay (this cpe : E) (m : Int)
  | setMarkedPredecessorDelay (this cpe : E) (m : Int)
deriving DecidableEq

namespace LinkCall
variable {E : Type} [DecidableEq E]

/-- `Connect`: an arc, at both of its ends. -/
def connect (this dest : E) : List (LinkCall E) := [add .successors this dest, add .predecessors dest this]

/-- The elements of a control path after a call. -/
def apply (elements : E → CPElementLinks E) : LinkCall E → E → CPElementLinks E
  | add kind this cpe => Function.update elements this ((elements this).add kind cpe)
  | remove kind this cpe => Function.update elements this ((elements this).remove kind cpe)
  | setMarkedSuccessorDelay this cpe m =>
      Function.update elements this ((elements this).setMarkedSuccessorDelay cpe m)
  | setMarkedPredecessorDelay this cpe m =>
      Function.update elements this ((elements this).setMarkedPredecessorDelay cpe m)

def run (calls : List (LinkCall E)) : E → CPElementLinks E :=
  calls.foldl apply fun _ => {}

/-- Whether the last call about `cpe` in that vector of `this` adds it. -/
def standing (kind : LinkKind) (this cpe : E) (calls : List (LinkCall E)) : Bool :=
  calls.foldl (fun last call =>
    if call = add kind this cpe then true else if call = remove kind this cpe then false else last) false

/-- No vector lists an element twice, the ends of an arc agree when they were
updated alike, and one removal at each end leaves nothing of the arc. -/
structure LinksHold (calls : List (LinkCall E)) : Prop where
  nodup : ∀ x, (run calls x).Nodup
  mirrored : ∀ kind x y, standing kind x y calls = standing kind.mirror y x calls →
    (y ∈ (run calls x).links kind ↔ x ∈ (run calls y).links kind.mirror)
  removed : ∀ kind x y, y ∉ (run (calls ++ [remove kind x y, remove kind.mirror y x]) x).links kind ∧
    x ∉ (run (calls ++ [remove kind x y, remove kind.mirror y x]) y).links kind.mirror
  successorForgotten : ∀ x y, y ∈ (run calls x).links .markedSuccessors →
    (run (calls ++ [remove .markedSuccessors x y]) x).getMarkedSuccessorDelay y = 1
  predecessorForgotten : ∀ x y, y ∈ (run calls x).links .markedPredecessors →
    (run (calls ++ [remove .markedPredecessors x y]) x).getMarkedPredecessorDelay y = 1

/-- The call lists an element among predecessors only when it is not listed there. -/
def Fresh (elements : E → CPElementLinks E) : LinkCall E → Prop
  | add kind this cpe => (elements this).Fresh kind cpe
  | _ => True

variable {elements : E → CPElementLinks E} {calls : List (LinkCall E)}

@[simp]
theorem run_concat (call : LinkCall E) : run (calls ++ [call]) = call.apply (run calls) := by
  unfold run
  rw [List.foldl_concat]

@[simp]
theorem standing_concat (kind : LinkKind) (this cpe : E) (call : LinkCall E) :
    standing kind this cpe (calls ++ [call]) =
      if call = add kind this cpe then true
      else if call = remove kind this cpe then false else standing kind this cpe calls := by
  unfold standing
  rw [List.foldl_concat]

theorem mem_apply_add {kind k : LinkKind} {this cpe x y : E} :
    y ∈ ((add kind this cpe).apply elements x).links k ↔
      add kind this cpe = add k x y ∨ y ∈ (elements x).links k := by
  rw [add.injEq]
  by_cases here : x = this
  · subst here
    rw [apply, Function.update_self, CPElementLinks.mem_links_add]
    tauto
  · rw [apply, Function.update_of_ne here]
    tauto

theorem mem_apply_remove {kind k : LinkKind} {this cpe x y : E} (nodup : ∀ x, (elements x).Nodup) :
    y ∈ ((remove kind this cpe).apply elements x).links k ↔
      remove kind this cpe ≠ remove k x y ∧ y ∈ (elements x).links k := by
  rw [ne_eq, remove.injEq]
  by_cases here : x = this
  · subst here
    rw [apply, Function.update_self, CPElementLinks.mem_links_remove (nodup x kind)]
    tauto
  · rw [apply, Function.update_of_ne here]
    tauto

theorem links_apply_of_delay {call : LinkCall E} (adds : ∀ kind x y, call ≠ add kind x y)
    (removes : ∀ kind x y, call ≠ remove kind x y) (x : E) :
    (call.apply elements x).links = (elements x).links := by
  have frame : ∀ (this : E) (changed : CPElementLinks E), changed.links = (elements this).links →
      (Function.update elements this changed x).links = (elements x).links := by
    intro this changed same
    by_cases here : x = this
    · subst here
      rw [Function.update_self, same]
    · rw [Function.update_of_ne here]
  cases call with
  | add kind x y => exact absurd rfl (adds kind x y)
  | remove kind x y => exact absurd rfl (removes kind x y)
  | setMarkedSuccessorDelay this cpe m => exact frame _ _ rfl
  | setMarkedPredecessorDelay this cpe m => exact frame _ _ rfl

theorem nodup_apply_iff (nodup : ∀ x, (elements x).Nodup) (call : LinkCall E) :
    (∀ x, (call.apply elements x).Nodup) ↔ call.Fresh elements := by
  have frame : ∀ (this : E) (changed : CPElementLinks E),
      (∀ x, (Function.update elements this changed x).Nodup) ↔ changed.Nodup := by
    intro this changed
    rw [Function.forall_update_iff elements fun _ links => links.Nodup]
    exact and_iff_left fun x _ => nodup x
  cases call with
  | add kind this cpe => exact (frame ..).trans (CPElementLinks.nodup_add_iff (nodup this))
  | remove kind this cpe =>
      exact iff_of_true ((frame ..).mpr (CPElementLinks.nodup_remove (nodup this) kind cpe)) trivial
  | setMarkedSuccessorDelay this cpe m => exact iff_of_true ((frame ..).mpr (nodup this)) trivial
  | setMarkedPredecessorDelay this cpe m => exact iff_of_true ((frame ..).mpr (nodup this)) trivial

theorem mem_apply_iff (nodup : ∀ x, (elements x).Nodup) (call : LinkCall E) {kind : LinkKind} {x y : E}
    {last : Bool} (listed : y ∈ (elements x).links kind ↔ last = true) :
    y ∈ (call.apply elements x).links kind ↔
      (if call = add kind x y then true else if call = remove kind x y then false else last) = true := by
  cases call with
  | add k this cpe =>
      have noRemoval : add k this cpe ≠ remove kind x y := nofun
      rw [mem_apply_add, listed, if_neg noRemoval]
      split_ifs with same
      · exact iff_of_true (Or.inl same) rfl
      · exact or_iff_right same
  | remove k this cpe =>
      have noAddition : remove k this cpe ≠ add kind x y := nofun
      rw [mem_apply_remove nodup, listed, if_neg noAddition]
      split_ifs with same
      · exact iff_of_false (fun both => both.1 same) not_false
      · exact and_iff_right same
  | setMarkedSuccessorDelay this cpe m =>
      rw [links_apply_of_delay nofun nofun, if_neg nofun, if_neg nofun, listed]
  | setMarkedPredecessorDelay this cpe m =>
      rw [links_apply_of_delay nofun nofun, if_neg nofun, if_neg nofun, listed]

/-- The vectors of all elements stay without repetition as long as every call is fresh. -/
theorem nodup_run_iff (calls : List (LinkCall E)) :
    (∀ before, before <+: calls → ∀ x, (run before x).Nodup) ↔
      ∀ before call, before ++ [call] <+: calls → call.Fresh (run before) := by
  induction calls using List.reverseRecOn with
  | nil =>
      refine iff_of_true (fun before inside x => ?_) fun before call inside => ?_
      · rw [List.prefix_nil.mp inside]
        exact fun kind => List.nodup_nil
      · exact absurd (List.prefix_nil.mp inside) (List.append_ne_nil_of_right_ne_nil before nofun)
  | append_singleton calls call ih =>
      constructor
      · intro nodup before next inside
        have here := nodup before ((List.prefix_append before [next]).trans inside)
        rw [← nodup_apply_iff here, ← run_concat]
        exact nodup _ inside
      · intro fresh before inside
        have earlier := ih.mpr fun before next inside => fresh before next (inside.trans (List.prefix_append ..))
        rcases List.prefix_concat_iff.mp inside with rfl | inside
        · rw [run_concat]
          exact (nodup_apply_iff (earlier calls List.prefix_rfl) call).mpr (fresh calls call List.prefix_rfl)
        · exact earlier before inside

theorem mem_run (nodup : ∀ before, before <+: calls → ∀ x, (run before x).Nodup) (kind : LinkKind) (x y : E) :
    y ∈ (run calls x).links kind ↔ standing kind x y calls = true := by
  induction calls using List.reverseRecOn with
  | nil => exact iff_of_false List.not_mem_nil Bool.false_ne_true
  | append_singleton calls call ih =>
      have earlier : ∀ before, before <+: calls → ∀ x, (run before x).Nodup :=
        fun before inside => nodup before (inside.trans (List.prefix_append ..))
      rw [run_concat, standing_concat]
      exact mem_apply_iff (earlier calls List.prefix_rfl) call (ih earlier)

theorem run_concat_two (first second : LinkCall E) :
    run (calls ++ [first, second]) = second.apply (first.apply (run calls)) := by
  unfold run
  rw [List.foldl_append]
  rfl

theorem linksHold (nodup : ∀ before, before <+: calls → ∀ x, (run before x).Nodup) : LinksHold calls := by
  have now := nodup calls List.prefix_rfl
  constructor
  · exact now
  · intro kind x y alike
    rw [mem_run nodup, mem_run nodup, alike]
  · intro kind x y
    have still := (nodup_apply_iff now (remove kind x y)).mpr trivial
    rw [run_concat_two]
    constructor
    · intro listed
      have gone := ((mem_apply_remove still).mp listed).2
      exact ((mem_apply_remove now).mp gone).1 rfl
    · intro listed
      exact ((mem_apply_remove still).mp listed).1 rfl
  · intro x y listed
    rw [run_concat, apply, Function.update_self]
    exact CPElementLinks.successorDelay_forgotten listed
  · intro x y listed
    rw [run_concat, apply, Function.update_self]
    exact CPElementLinks.predecessorDelay_forgotten listed

/-- The links hold in every state of a run exactly when no call lists a
predecessor that is listed already. -/
theorem linksHold_iff (calls : List (LinkCall E)) :
    (∀ before, before <+: calls → LinksHold before) ↔
      ∀ before call, before ++ [call] <+: calls → call.Fresh (run before) := by
  rw [← nodup_run_iff]
  constructor
  · intro holds before inside
    exact (holds before inside).nodup
  · intro nodup before inside
    exact linksHold fun earlier within => nodup earlier (within.trans inside)

/-- Two arcs between the same elements, as for a branch point that names an
element twice: the first element is a predecessor of the second twice, and one
removal at each end leaves it there. -/
theorem not_linksHold_connect_twice :
    ¬ LinksHold (connect 0 1 ++ connect 0 1) ∧
      (run (connect 0 1 ++ connect 0 1) 1).links .predecessors = [0, 0] ∧
      (run (connect 0 1 ++ connect 0 1 ++ [remove .successors 0 1, remove .predecessors 1 0]) 0).links
        .successors = [] ∧
      (run (connect 0 1 ++ connect 0 1 ++ [remove .successors 0 1, remove .predecessors 1 0]) 1).links
        .predecessors = [0] := by
  have twice : (run (connect 0 1 ++ connect 0 1) 1).links .predecessors = [0, 0] := rfl
  refine ⟨fun holds => ?_, twice, rfl, rfl⟩
  have nodup := holds.nodup 1 .predecessors
  rw [twice] at nodup
  exact (List.nodup_cons.mp nodup).1 List.mem_cons_self

end LinkCall

end Ahir.ControlPath
