import Ahir.ControlPath.LabelReduce

/-!
# What the label pass keeps

Between two turns of the loop of `Compute_Compatibility_Labels` every visited
vertex has a reduced label and every vertex that has been reached gathers the
labels its visited predecessors passed on.  `sent y i` says that the way `i` out
of `y` has been taken care of.
-/

set_option autoImplicit false

namespace Ahir.ControlPath
open Ahir.Graph
variable {E : Type} [DecidableEq E]

/-- What `y` passes on by its way `i`. -/
def Passed (B : CPForkBlock E) (labelOf : E → Option (LabelId E)) (y : E) (i : Nat)
    (u : LabelId E) : Prop :=
  ∃ l, labelOf y = some l ∧ u = if (B.successors y).length = 1 then l else .forFork y i

/-- The labels for one token: the inherited one and those of the fork arcs. -/
def BranchLabel (B : CPForkBlock E) (sent : E → Nat → Prop) (u : LabelId E) : Prop :=
  u = .inherited ∨ ∃ t i, sent t i ∧ (B.successors t).length ≠ 1 ∧ u = .forFork t i

def Foreign (B : CPForkBlock E) (l : LabelId E) : Prop :=
  ∃ e, e ∉ B.vertices ∧ (l = .forElement e ∨ ∃ i, l = .forFork e i)

/-- The labels of a sub-block are not named after vertices of the block. -/
def SubBlockLabels.Separate (sub : SubBlockLabels E) (B : CPForkBlock E) : Prop :=
  ∀ e l, ∀ made ∈ sub e l, Foreign B made.1

structure JoinLabel (B : CPForkBlock E) (done : List E) (sent : E → Nat → Prop) (s : LabelState E)
    (l : LabelId E) (y : E) : Prop where
  visited : y ∈ done
  name : l = .forElement y
  label : s.compatibilityLabel y = some l
  unlabeled : (s.arcs l).labeledInArc = none
  nonempty : (s.arcs l).unlabeledInArcs ≠ []
  branches : ∀ u ∈ (s.arcs l).unlabeledInArcs, BranchLabel B sent u

structure Gathering (B : CPForkBlock E) (sent : E → Nat → Prop) (s : LabelState E) (b : E) : Prop where
  unlabeled : (s.arcs (.forElement b)).labeledInArc = none
  nodup : (s.arcs (.forElement b)).unlabeledInArcs.Nodup
  mem : ∀ u, u ∈ (s.arcs (.forElement b)).unlabeledInArcs ↔
    ∃ y i, sent y i ∧ (B.successors y)[i]? = some b ∧ Passed B s.compatibilityLabel y i u

structure Labelled (B : CPForkBlock E) (rank : E → Nat) (done : List E) (sent : E → Nat → Prop)
    (s : LabelState E) : Prop where
  sent_done : ∀ y i, sent y i → y ∈ done ∧ i < (B.successors y).length
  visited : ∀ x, s.compatibilityLabel x ≠ none ↔ x ∈ done
  labels : ∀ x l, s.compatibilityLabel x = some l →
    BranchLabel B sent l ∨ ∃ y, JoinLabel B done sent s l y
  inherited_arcs : s.arcs .inherited = ⟨none, []⟩
  fork_arcs : ∀ t i, sent t i → (B.successors t).length ≠ 1 →
    ∃ l, s.compatibilityLabel t = some l ∧ s.arcs (.forFork t i) = ⟨some (l, t, i), []⟩
  waiting : ∀ b ∈ B.vertices, b ∉ done → ∀ nl, s.nlMap b = some nl →
    (b = B.entry ∧ nl = .inherited) ∨ (b ≠ B.entry ∧ nl = .forElement b ∧ Gathering B sent s b)
  reached : ∀ b ∈ B.vertices, b ∉ done →
    (s.nlMap b ≠ none ↔ b = B.entry ∨ ∃ y i, sent y i ∧ (B.successors y)[i]? = some b)
  in_set : ∀ l ∈ s.labelSet, ¬ Foreign B l →
    BranchLabel B sent l ∨ ∃ b ∈ B.vertices, b ≠ B.entry ∧ l = .forElement b ∧
      (b ∈ done → s.compatibilityLabel b = some l)
  trades : ∀ x ∈ done, Relation.ReflTransGen
    (TradedBack B.inside B.successors rank (heldBy s.arcs s.compatibilityLabel) x)
    (gathered B.inside B.successors B.entry (heldBy s.arcs s.compatibilityLabel) x)
    (heldBy s.arcs s.compatibilityLabel x)

def allSent (B : CPForkBlock E) (done : List E) (y : E) (i : Nat) : Prop :=
  y ∈ done ∧ i < (B.successors y).length

section Frames
variable {B : CPForkBlock E} {rank : E → Nat} {done : List E} {sent : E → Nat → Prop}
  {s s' : LabelState E}

omit [DecidableEq E]

theorem Labelled.branch_arcs (lab : Labelled B rank done sent s) {u : LabelId E}
    (branch : BranchLabel B sent u) : (s.arcs u).unlabeledInArcs = [] := by
  rcases branch with rfl | ⟨t, i, isSent, fork, rfl⟩
  · rw [lab.inherited_arcs]
  · obtain ⟨l, _, arcs⟩ := lab.fork_arcs t i isSent fork
    rw [arcs]

theorem Labelled.reducible (lab : Labelled B rank done sent s) :
    Reducible B s.arcs s.compatibilityLabel (BranchLabel B sent) := by
  refine ⟨fun u branch => lab.branch_arcs branch, ?_, ?_⟩
  · rintro u (rfl | ⟨t, i, isSent, fork, rfl⟩)
    · exact Or.inl ⟨rfl, by rw [lab.inherited_arcs]⟩
    · obtain ⟨l, label, arcs⟩ := lab.fork_arcs t i isSent fork
      exact Or.inr ⟨t, i, l, rfl, (lab.sent_done t i isSent).2, fork, label, by rw [arcs]⟩
  · intro t l label
    rcases lab.labels t l label with branch | ⟨y, join⟩
    · exact Or.inl branch
    · exact Or.inr ⟨join.nonempty, join.branches⟩

theorem BranchLabel.mono {sent' : E → Nat → Prop} (grows : ∀ y i, sent y i → sent' y i)
    {u : LabelId E} (branch : BranchLabel B sent u) : BranchLabel B sent' u := by
  rcases branch with rfl | ⟨t, i, isSent, fork, rfl⟩
  · exact Or.inl rfl
  · exact Or.inr ⟨t, i, grows t i isSent, fork, rfl⟩

/-- The labels of visited vertices do not see a change to other labels. -/
theorem Labelled.held_eq (lab : Labelled B rank done sent s)
    (branches : ∀ u, BranchLabel B sent u → s'.arcs u = s.arcs u)
    (joins : ∀ y ∈ done, s'.arcs (.forElement y) = s.arcs (.forElement y)) {x : E}
    (label : s'.compatibilityLabel x = s.compatibilityLabel x) :
    heldBy s'.arcs s'.compatibilityLabel x = heldBy s.arcs s.compatibilityLabel x := by
  have same : ∀ l, s.compatibilityLabel x = some l → tokens s'.arcs l = tokens s.arcs l := by
    intro l isLabel
    rcases lab.labels x l isLabel with branch | ⟨y, join⟩
    · exact tokens_eq_of_arcs (branches l branch)
    · rw [join.name]
      exact tokens_eq_of_arcs (joins y join.visited)
  ext p
  rw [heldBy, heldBy, label]
  exact exists_congr fun l => and_congr_right fun isLabel => by rw [same l isLabel]

theorem JoinLabel.frame {done' : List E} {sent' : E → Nat → Prop} {l : LabelId E} {y : E}
    (join : JoinLabel B done sent s l y) (moreDone : ∀ z ∈ done, z ∈ done')
    (moreSent : ∀ z i, sent z i → sent' z i)
    (arcs : s'.arcs (.forElement y) = s.arcs (.forElement y))
    (label : s'.compatibilityLabel y = s.compatibilityLabel y) :
    JoinLabel B done' sent' s' l y := by
  have arcs' : s'.arcs l = s.arcs l := by rw [join.name, arcs]
  refine ⟨moreDone y join.visited, join.name, label ▸ join.label, ?_, ?_, ?_⟩
  · rw [arcs']
    exact join.unlabeled
  · rw [arcs']
    exact join.nonempty
  · rw [arcs']
    exact fun u member => (join.branches u member).mono moreSent

theorem Labelled.trades_frame (lab : Labelled B rank done sent s)
    (upward : ∀ x ∈ B.inside, ∀ y ∈ B.successors x, rank x < rank y)
    (low : ∀ x ∈ done, ∀ t ∈ B.inside, rank t < rank x → t ∈ done)
    (same : ∀ t ∈ done, heldBy s'.arcs s'.compatibilityLabel t =
      heldBy s.arcs s.compatibilityLabel t) {x : E} (visited : x ∈ done) :
    Relation.ReflTransGen
      (TradedBack B.inside B.successors rank (heldBy s'.arcs s'.compatibilityLabel) x)
      (gathered B.inside B.successors B.entry (heldBy s'.arcs s'.compatibilityLabel) x)
      (heldBy s'.arcs s'.compatibilityLabel x) := by
  have lower : ∀ t ∈ B.inside, rank t < rank x →
      heldBy s.arcs s.compatibilityLabel t = heldBy s'.arcs s'.compatibilityLabel t :=
    fun t inside less => (same t (low x visited t inside less)).symm
  rw [same x visited, ← gathered_congr upward lower]
  exact Relation.ReflTransGen.mono (fun _ _ traded => TradedBack.congr lower traded) _ _
    (lab.trades x visited)

end Frames

section PassOn
variable {B : CPForkBlock E} {below : LabelId E → LabelId E → Bool} {addr : Addresses E}
  {rank : E → Nat} {done : List E} {sent : E → Nat → Prop} {s s' : LabelState E}

/-- What passing a label on from `t` to `ncpe` changes. -/
structure PassedOn (B : CPForkBlock E) (t : E) (reduced : LabelId E) (s : LabelState E)
    (ncpe : E) (idx : Nat) (s' : LabelState E) : Prop where
  label : s'.compatibilityLabel = s.compatibilityLabel
  nlMap : ∀ e, s'.nlMap e = if e = ncpe then some (.forElement ncpe) else s.nlMap e
  unlabeled : (s'.arcs (.forElement ncpe)).labeledInArc = none
  mem : ∀ u, u ∈ (s'.arcs (.forElement ncpe)).unlabeledInArcs ↔
    u = (if (B.successors t).length = 1 then reduced else .forFork t idx) ∨
    (s.nlMap ncpe ≠ none ∧ u ∈ (s.arcs (.forElement ncpe)).unlabeledInArcs)
  nodup : (s.nlMap ncpe ≠ none → (s.arcs (.forElement ncpe)).unlabeledInArcs.Nodup) →
    (s'.arcs (.forElement ncpe)).unlabeledInArcs.Nodup
  fork : (B.successors t).length ≠ 1 → s'.arcs (.forFork t idx) = ⟨some (reduced, t, idx), []⟩
  frame : ∀ m, m ≠ .forElement ncpe → ((B.successors t).length = 1 ∨ m ≠ .forFork t idx) →
    s'.arcs m = s.arcs m
  labelSet : ∀ m ∈ s'.labelSet, m ∈ s.labelSet ∨ m = .forElement ncpe ∨
    ((B.successors t).length ≠ 1 ∧ m = .forFork t idx)

theorem passOn_spec {t ncpe : E} {reduced : LabelId E} {idx : Nat}
    (name : ∀ nl, s.nlMap ncpe = some nl → nl = .forElement ncpe ∧
      (s.arcs (.forElement ncpe)).labeledInArc = none) :
    PassedOn B t reduced s ncpe idx (passOn addr B t reduced s (ncpe, idx)) := by
  cases map : s.nlMap ncpe with
  | none =>
      by_cases single : (B.successors t).length = 1
      · constructor <;> simp_all [passOn, LabelState.findOrMakeLabel, LabelState.addInArc,
          LabelState.makeCompatibilityLabel, nodup_insertPointer]
      · constructor <;> simp_all [passOn, LabelState.findOrMakeLabel, LabelState.addInArc,
          LabelState.makeCompatibilityLabel, nodup_insertPointer]
  | some nl =>
      obtain ⟨rfl, unlabeled⟩ := name nl map
      by_cases single : (B.successors t).length = 1
      · constructor <;> simp_all [passOn, LabelState.findOrMakeLabel, LabelState.addInArc,
          nodup_insertPointer]
      · constructor <;> simp_all [passOn, LabelState.findOrMakeLabel, LabelState.addInArc,
          LabelState.makeCompatibilityLabel, nodup_insertPointer]

omit [DecidableEq E] in
/-- A way out of one that `sent` has, or the way `idx` of `t`. -/
theorem exists_sent_or {t : E} {idx : Nat} {holds : E → Nat → Prop} :
    (∃ y i, (sent y i ∨ (y = t ∧ i = idx)) ∧ holds y i) ↔ (∃ y i, sent y i ∧ holds y i) ∨ holds t idx := by
  constructor
  · rintro ⟨y, i, isSent | ⟨rfl, rfl⟩, isHeld⟩
    · exact Or.inl ⟨y, i, isSent, isHeld⟩
    · exact Or.inr isHeld
  · rintro (⟨y, i, isSent, isHeld⟩ | isHeld)
    · exact ⟨y, i, Or.inl isSent, isHeld⟩
    · exact ⟨t, idx, Or.inr ⟨rfl, rfl⟩, isHeld⟩

omit [DecidableEq E] in
theorem Labelled.gathering (lab : Labelled B rank done sent s) {b : E} (inside : b ∈ B.vertices) (notDone : b ∉ done)
    (notEntry : b ≠ B.entry) {nl : LabelId E} (map : s.nlMap b = some nl) :
    nl = .forElement b ∧ Gathering B sent s b := by
  rcases lab.waiting b inside notDone nl map with ⟨isEntry, _⟩ | ⟨_, name, gathering⟩
  · exact absurd isEntry notEntry
  · exact ⟨name, gathering⟩

section PassedOn
variable {t ncpe : E} {reduced : LabelId E} {idx : Nat}

theorem PassedOn.branch_arcs (spec : PassedOn B t reduced s ncpe idx s') (notYet : ¬ sent t idx) {u : LabelId E}
    (branch : BranchLabel B sent u) : s'.arcs u = s.arcs u := by
  rcases branch with rfl | ⟨t', i, isSent, fork, rfl⟩
  · exact spec.frame _ (by simp) (Or.inr (by simp))
  · refine spec.frame _ (by simp) (Or.inr ?_)
    rintro same
    cases same
    exact notYet isSent

theorem PassedOn.join_arcs (spec : PassedOn B t reduced s ncpe idx s') {y : E} (other : y ≠ ncpe) :
    s'.arcs (.forElement y) = s.arcs (.forElement y) := by
  refine spec.frame _ ?_ (Or.inr (by simp))
  intro same
  cases same
  exact other rfl

theorem PassedOn.gathering_here (spec : PassedOn B t reduced s ncpe idx s')
    (label : s.compatibilityLabel t = some reduced) (way : (B.successors t)[idx]? = some ncpe)
    (reached : s.nlMap ncpe ≠ none ↔ ∃ y i, sent y i ∧ (B.successors y)[i]? = some ncpe)
    (old : s.nlMap ncpe ≠ none → Gathering B sent s ncpe) :
    Gathering B (fun y i => sent y i ∨ (y = t ∧ i = idx)) s' ncpe := by
  refine ⟨spec.unlabeled, spec.nodup fun some => (old some).nodup, fun u => ?_⟩
  have passed : Passed B s.compatibilityLabel t idx u ↔
      u = if (B.successors t).length = 1 then reduced else .forFork t idx := by
    simp [Passed, label]
  have before : (s.nlMap ncpe ≠ none ∧ u ∈ (s.arcs (.forElement ncpe)).unlabeledInArcs) ↔
      ∃ y i, sent y i ∧ (B.successors y)[i]? = some ncpe ∧ Passed B s.compatibilityLabel y i u := by
    constructor
    · rintro ⟨some, member⟩
      exact ((old some).mem u).mp member
    · rintro ⟨y, i, isSent, wayY, isPassed⟩
      have some := reached.mpr ⟨y, i, isSent, wayY⟩
      exact ⟨some, ((old some).mem u).mpr ⟨y, i, isSent, wayY, isPassed⟩⟩
  rw [spec.mem, spec.label, exists_sent_or, before, passed, or_comm, and_iff_right way]

theorem PassedOn.gathering_other (spec : PassedOn B t reduced s ncpe idx s')
    (way : (B.successors t)[idx]? = some ncpe) {b : E} (other : b ≠ ncpe) (gathering : Gathering B sent s b) :
    Gathering B (fun y i => sent y i ∨ (y = t ∧ i = idx)) s' b := by
  have arcs := spec.join_arcs other
  refine ⟨by rw [arcs]; exact gathering.unlabeled, by rw [arcs]; exact gathering.nodup, fun u => ?_⟩
  rw [arcs, gathering.mem, spec.label, exists_sent_or, or_iff_left]
  rintro ⟨wayB, _⟩
  exact other (Option.some.inj (wayB.symm.trans way))

end PassedOn

theorem Labelled.afterPassOn (wf : B.WellFormed) (lab : Labelled B rank done sent s)
    (upward : ∀ x ∈ B.inside, ∀ y ∈ B.successors x, rank x < rank y)
    (low : ∀ x ∈ done, ∀ t ∈ B.inside, rank t < rank x → t ∈ done) {t ncpe : E}
    {reduced : LabelId E} {idx : Nat} (visited : t ∈ done)
    (label : s.compatibilityLabel t = some reduced) (way : (B.successors t)[idx]? = some ncpe)
    (later : ncpe ∉ done) (insideT : t ∈ B.vertices) (notYet : ¬ sent t idx) :
    Labelled B rank done (fun y i => sent y i ∨ (y = t ∧ i = idx))
      (passOn addr B t reduced s (ncpe, idx)) := by
  have isNext : ncpe ∈ B.successors t := List.mem_of_getElem? way
  have insideN : ncpe ∈ B.vertices := wf.successors_inside t insideT ncpe isNext
  have notEntry : ncpe ≠ B.entry := by
    rintro rfl
    have := (wf.mirrored t insideT _ insideN).mp isNext
    simp [wf.entry_first] at this
  have grows : ∀ y i, sent y i → sent y i ∨ (y = t ∧ i = idx) := fun _ _ => Or.inl
  have spec : PassedOn B t reduced s ncpe idx (passOn addr B t reduced s (ncpe, idx)) := by
    refine passOn_spec fun nl map => ?_
    obtain ⟨name, gathering⟩ := lab.gathering insideN later notEntry map
    exact ⟨name, gathering.unlabeled⟩
  generalize passOn addr B t reduced s (ncpe, idx) = s' at spec
  have branchArcs : ∀ u, BranchLabel B sent u → s'.arcs u = s.arcs u := fun u => spec.branch_arcs notYet
  have joinArcs : ∀ y ∈ done, s'.arcs (.forElement y) = s.arcs (.forElement y) :=
    fun y visitedY => spec.join_arcs fun same => later (same ▸ visitedY)
  refine ⟨?_, ?_, ?_, ?_, ?_, ?_, ?_, ?_, ?_⟩
  · rintro y i (isSent | ⟨rfl, rfl⟩)
    · exact lab.sent_done y i isSent
    · exact ⟨visited, (List.getElem?_eq_some_iff.mp way).1⟩
  · rw [spec.label]
    exact lab.visited
  · intro x l isLabel
    rw [spec.label] at isLabel
    rcases lab.labels x l isLabel with branch | ⟨y, join⟩
    · exact Or.inl (branch.mono grows)
    · exact Or.inr ⟨y, join.frame (fun _ => id) grows (joinArcs y join.visited) (by rw [spec.label])⟩
  · rw [branchArcs _ (Or.inl rfl), lab.inherited_arcs]
  · rintro t' i (isSent | ⟨rfl, rfl⟩) fork
    · obtain ⟨l, labelT, arcs⟩ := lab.fork_arcs t' i isSent fork
      exact ⟨l, spec.label ▸ labelT,
        (branchArcs _ (Or.inr ⟨t', i, isSent, fork, rfl⟩)).trans arcs⟩
    · exact ⟨reduced, spec.label ▸ label, spec.fork fork⟩
  · intro b insideB notDone nl map
    rw [spec.nlMap] at map
    split_ifs at map with isN
    · subst isN
      obtain rfl := Option.some.inj map
      refine Or.inr ⟨notEntry, rfl, spec.gathering_here label way ?_ fun some => ?_⟩
      · rw [lab.reached b insideB notDone, or_iff_right notEntry]
      · obtain ⟨nl, map⟩ := Option.ne_none_iff_exists'.mp some
        exact (lab.gathering insideB notDone notEntry map).2
    · exact (lab.waiting b insideB notDone nl map).imp_right fun ⟨notEntryB, name, gathering⟩ =>
        ⟨notEntryB, name, spec.gathering_other way isN gathering⟩
  · intro b insideB notDone
    rw [spec.nlMap, exists_sent_or]
    split_ifs with isN
    · subst isN
      exact iff_of_true (by simp) (Or.inr (Or.inr way))
    · have away : (B.successors t)[idx]? ≠ some b := fun wayB => isN (Option.some.inj (wayB.symm.trans way))
      rw [lab.reached b insideB notDone, or_iff_left away]
  · intro l member own
    rcases spec.labelSet l member with member | rfl | ⟨fork, rfl⟩
    · rcases lab.in_set l member own with branch | ⟨b, insideB, notEntryB, name, kept⟩
      · exact Or.inl (branch.mono grows)
      · exact Or.inr ⟨b, insideB, notEntryB, name, by rw [spec.label]; exact kept⟩
    · exact Or.inr ⟨ncpe, insideN, notEntry, rfl, fun isDone => absurd isDone later⟩
    · exact Or.inl (Or.inr ⟨t, idx, Or.inr ⟨rfl, rfl⟩, fork, rfl⟩)
  · intro x visitedX
    exact lab.trades_frame upward low
      (fun y _ => lab.held_eq branchArcs joinArcs (by rw [spec.label])) visitedX

end PassOn

section Settle
variable {B : CPForkBlock E} {below : LabelId E → LabelId E → Bool} {rank : E → Nat}
  {done : List E} {s s' : LabelState E}

/-- The vertex `x`, next to be visited: what was visited is what ranks lower. -/
structure Next (B : CPForkBlock E) (rank : E → Nat) (done : List E) (x : E) : Prop where
  inside : x ∈ B.vertices
  fresh : x ∉ done
  predecessors : ∀ y ∈ B.predecessors x, y ∈ done
  lower : ∀ t ∈ B.inside, rank t < rank x ↔ t ∈ done
  visited_inside : ∀ y ∈ done, y ∈ B.vertices

/-- What settling the label of `x` changes. -/
structure SettledAt (s : LabelState E) (x : E) (nl : LabelId E) (unlabeled : List (LabelId E))
    (reduced : LabelId E) (s' : LabelState E) : Prop where
  label : ∀ e, s'.compatibilityLabel e = if e = x then some reduced else s.compatibilityLabel e
  nlMap : ∀ e, e ≠ x → s'.nlMap e = s.nlMap e
  own : s'.arcs nl = ⟨(s.arcs nl).labeledInArc, unlabeled⟩
  frame : ∀ m, m ≠ nl → s'.arcs m = s.arcs m
  labelSet : ∀ m ∈ s'.labelSet, m ∈ s.labelSet ∧ (reduced ≠ nl → m ≠ nl)

theorem settledAt_spec {x : E} {nl : LabelId E} {unlabeled : List (LabelId E)} {reduced : LabelId E} :
    SettledAt s x nl unlabeled reduced (s.settle x nl unlabeled reduced) := by
  by_cases same : reduced = nl
  · constructor <;> simp_all [LabelState.settle, LabelState.setUnlabeledInArcs,
      LabelState.setCompatibilityLabel]
  · constructor <;> simp_all [LabelState.settle, LabelState.setUnlabeledInArcs,
      LabelState.setCompatibilityLabel, LabelState.deleteCompatibilityLabel]

omit [DecidableEq E] in
theorem Labelled.gathered_eq (wf : B.WellFormed)
    (lab : Labelled B rank done (allSent B done) s) {x : E} (next : Next B rank done x)
    (notEntry : x ≠ B.entry) (gathering : Gathering B (allSent B done) s x) :
    gathered B.inside B.successors B.entry (heldBy s.arcs s.compatibilityLabel) x =
      tokensOf s.arcs (s.arcs (.forElement x)).unlabeledInArcs := by
  have red := lab.reducible
  ext p
  constructor
  · rintro (⟨isEntry, _⟩ | ⟨y, insideY, i, way, member⟩)
    · exact absurd isEntry notEntry
    · have isPrev := (wf.mirrored y insideY x next.inside).mp (List.mem_of_getElem? way)
      have sent : allSent B done y i :=
        ⟨next.predecessors y isPrev, (List.getElem?_eq_some_iff.mp way).1⟩
      obtain ⟨l, label⟩ := Option.ne_none_iff_exists'.mp ((lab.visited y).mpr sent.1)
      refine ⟨_, (gathering.mem _).mpr ⟨y, i, sent, way, l, label, rfl⟩, ?_⟩
      unfold carried at member
      split_ifs at member ⊢ with single
      · obtain ⟨l', label', token⟩ := member
        rw [label] at label'
        exact Option.some.inj label' ▸ token
      · obtain rfl := member
        exact (red.token_of_branch (Or.inr ⟨y, i, sent, single, rfl⟩)).mpr rfl
  · rintro ⟨u, member, token⟩
    obtain ⟨y, i, sent, way, l, label, rfl⟩ := (gathering.mem u).mp member
    refine Or.inr ⟨y, next.visited_inside y sent.1, i, way, ?_⟩
    unfold carried
    split_ifs at token ⊢ with single
    · exact ⟨l, label, token⟩
    · have := (red.token_of_branch (Or.inr ⟨y, i, sent, single, rfl⟩)).mp token
      exact (Option.some.inj this).symm

/-- The label of `x`, the next vertex, is settled. -/
structure Settling (B : CPForkBlock E) (below : LabelId E → LabelId E → Bool) (rank : E → Nat) (done : List E)
    (s : LabelState E) (x : E) (nl : LabelId E) (unlabeled : List (LabelId E)) (reduced : LabelId E)
    (s' : LabelState E) : Prop where
  labelled : Labelled B rank done (allSent B done) s
  next : Next B rank done x
  map : s.nlMap x = some nl
  loop : ∃ fuel, reduceLoop below s.arcs (fun t => (B.successors t).length) nl fuel
    (s.arcs nl).unlabeledInArcs = some (unlabeled, reduced)
  settled : SettledAt s x nl unlabeled reduced s'

namespace Settling
variable {x : E} {nl reduced : LabelId E} {unlabeled : List (LabelId E)}

theorem name (settling : Settling B below rank done s x nl unlabeled reduced s') :
    (x = B.entry ∧ nl = .inherited) ∨ (x ≠ B.entry ∧ nl = .forElement x) := by
  rcases settling.labelled.waiting x settling.next.inside settling.next.fresh nl settling.map with
    atEntry | ⟨notEntry, isName, _⟩
  · exact Or.inl atEntry
  · exact Or.inr ⟨notEntry, isName⟩

theorem at_entry (settling : Settling B below rank done s x .inherited unlabeled reduced s') :
    unlabeled = [] ∧ reduced = .inherited := by
  obtain ⟨fuel, loop⟩ := settling.loop
  rw [congrArg LabelArcs.unlabeledInArcs settling.labelled.inherited_arcs] at loop
  cases fuel with
  | zero => cases loop
  | succ fuel =>
      simp only [reduceLoop, ne_eq, not_true_eq_false, false_and, if_false, Option.some.injEq,
        Prod.mk.injEq] at loop
      exact ⟨loop.1.symm, loop.2.symm⟩

theorem fork_arcs (settling : Settling B below rank done s x nl unlabeled reduced s') (t : E) (i : Nat) :
    s'.arcs (.forFork t i) = s.arcs (.forFork t i) := by
  refine settling.settled.frame _ ?_
  rcases settling.name with ⟨_, rfl⟩ | ⟨_, rfl⟩ <;> simp

theorem element_arcs (settling : Settling B below rank done s x nl unlabeled reduced s') {y : E} (other : y ≠ x) :
    s'.arcs (.forElement y) = s.arcs (.forElement y) := by
  refine settling.settled.frame _ ?_
  rcases settling.name with ⟨_, rfl⟩ | ⟨_, rfl⟩ <;> simp [other]

theorem inherited_arcs (settling : Settling B below rank done s x nl unlabeled reduced s') :
    s'.arcs .inherited = s.arcs .inherited := by
  rcases settling.name with ⟨_, rfl⟩ | ⟨_, rfl⟩
  · rw [settling.settled.own, settling.at_entry.1, settling.labelled.inherited_arcs]
  · exact settling.settled.frame _ (by simp)

theorem branch_arcs (settling : Settling B below rank done s x nl unlabeled reduced s') {u : LabelId E}
    (branch : BranchLabel B (allSent B done) u) : s'.arcs u = s.arcs u := by
  rcases branch with rfl | ⟨t, i, _, _, rfl⟩
  · exact settling.inherited_arcs
  · exact settling.fork_arcs t i

theorem other (settling : Settling B below rank done s x nl unlabeled reduced s') {y : E} (visited : y ∈ done) :
    y ≠ x := by
  rintro rfl
  exact settling.next.fresh visited

theorem label (settling : Settling B below rank done s x nl unlabeled reduced s') {y : E} (visited : y ∈ done) :
    s'.compatibilityLabel y = s.compatibilityLabel y := by
  rw [settling.settled.label, if_neg (settling.other visited)]

theorem held_eq (settling : Settling B below rank done s x nl unlabeled reduced s') {y : E} (visited : y ∈ done) :
    heldBy s'.arcs s'.compatibilityLabel y = heldBy s.arcs s.compatibilityLabel y :=
  settling.labelled.held_eq (fun _ => settling.branch_arcs)
    (fun _ visitedZ => settling.element_arcs (settling.other visitedZ)) (settling.label visited)

theorem join (settling : Settling B below rank done s x nl unlabeled reduced s') {l : LabelId E} {y : E}
    (join : JoinLabel B done (allSent B done) s l y) : JoinLabel B (done ++ [x]) (allSent B done) s' l y :=
  join.frame (fun _ => List.mem_append_left _) (fun _ _ => id)
    (settling.element_arcs (settling.other join.visited)) (settling.label join.visited)

theorem gathered_entry (wf : B.WellFormed)
    (settling : Settling B below rank done s B.entry .inherited unlabeled reduced s') :
    gathered B.inside B.successors B.entry (heldBy s.arcs s.compatibilityLabel) B.entry =
      tokens s'.arcs .inherited := by
  have single : (s'.arcs .inherited).unlabeledInArcs = [] := by
    rw [settling.inherited_arcs, settling.labelled.inherited_arcs]
  ext p
  rw [tokens_of_single single]
  constructor
  · rintro (⟨_, rfl⟩ | ⟨y, insideY, i, way, _⟩)
    · rfl
    · have isPrev := (wf.mirrored y insideY _ CPForkBlock.entry_mem).mp (List.mem_of_getElem? way)
      simp [wf.entry_first] at isPrev
  · intro token
    exact Or.inl ⟨rfl, (Option.some.inj token).symm⟩

theorem keeps (settling : Settling B below rank done s x (.forElement x) unlabeled (.forElement x) s')
    (gathering : Gathering B (allSent B done) s x) (kept : unlabeled ≠ [])
    (branches : ∀ u ∈ unlabeled, BranchLabel B (allSent B done) u) :
    JoinLabel B (done ++ [x]) (allSent B done) s' (.forElement x) x ∧
      tokens s'.arcs (.forElement x) = tokensOf s.arcs unlabeled := by
  have own : (s'.arcs (.forElement x)).unlabeledInArcs = unlabeled := by rw [settling.settled.own]
  constructor
  · refine ⟨by simp, rfl, ?_, ?_, ?_, ?_⟩
    · rw [settling.settled.label, if_pos rfl]
    · rw [settling.settled.own]
      exact gathering.unlabeled
    · rw [own]
      exact kept
    · rw [own]
      exact branches
  · have joins : tokens s'.arcs (.forElement x) = tokensOf s'.arcs unlabeled := by
      rw [tokens_of_join (own ▸ kept) ?_, own]
      rw [own]
      intro u member
      rw [settling.branch_arcs (branches u member)]
      exact settling.labelled.branch_arcs (branches u member)
    rw [joins]
    ext p
    exact exists_congr fun u => and_congr_right fun member => by
      rw [tokens_eq_of_arcs (settling.branch_arcs (branches u member))]

theorem takes_over (settling : Settling B below rank done s x nl unlabeled reduced s')
    (known : Known s.compatibilityLabel (BranchLabel B (allSent B done)) reduced) :
    (BranchLabel B (allSent B done) reduced ∨
      ∃ y, JoinLabel B (done ++ [x]) (allSent B done) s' reduced y) ∧
    tokens s'.arcs reduced = tokens s.arcs reduced := by
  have kind : BranchLabel B (allSent B done) reduced ∨
      ∃ y, JoinLabel B done (allSent B done) s reduced y := by
    rcases known with branch | ⟨t, label⟩
    · exact Or.inl branch
    · exact settling.labelled.labels t reduced label
  rcases kind with branch | ⟨y, join⟩
  · exact ⟨Or.inl branch, tokens_eq_of_arcs (settling.branch_arcs branch)⟩
  · have arcs : s'.arcs reduced = s.arcs reduced := by
      rw [join.name, settling.element_arcs (settling.other join.visited)]
    exact ⟨Or.inr ⟨y, settling.join join⟩, tokens_eq_of_arcs arcs⟩

/-- The reduced label of `x`, whatever it is, stands for what `x` holds after trading back. -/
theorem reduced_spec (wf : B.WellFormed) (settling : Settling B below rank done s x nl unlabeled reduced s') :
    (BranchLabel B (allSent B done) reduced ∨
      ∃ y, JoinLabel B (done ++ [x]) (allSent B done) s' reduced y) ∧
    Relation.ReflTransGen
      (TradedBack B.inside B.successors rank (heldBy s.arcs s.compatibilityLabel) x)
      (gathered B.inside B.successors B.entry (heldBy s.arcs s.compatibilityLabel) x)
      (tokens s'.arcs reduced) := by
  have lab := settling.labelled
  have next := settling.next
  have early : ∀ t l, s.compatibilityLabel t = some l → t ∈ B.inside ∧ rank t < rank x := by
    intro t l label
    have isDone := (lab.visited t).mp (by simp [label])
    have insideT := next.visited_inside t isDone
    exact ⟨insideT, (next.lower t insideT).mpr isDone⟩
  rcases settling.name with ⟨rfl, rfl⟩ | ⟨notEntry, rfl⟩
  · obtain ⟨_, rfl⟩ := settling.at_entry
    rw [settling.gathered_entry wf]
    exact ⟨Or.inl (Or.inl rfl), Relation.ReflTransGen.refl⟩
  · have gathering := (lab.gathering next.inside next.fresh notEntry settling.map).2
    rw [lab.gathered_eq wf next notEntry gathering]
    have nonempty : (s.arcs (.forElement x)).unlabeledInArcs ≠ [] := by
      rcases (lab.reached x next.inside next.fresh).mp (by simp [settling.map]) with
        isEntry | ⟨y, i, sent, way⟩
      · exact absurd isEntry notEntry
      · obtain ⟨l, label⟩ := Option.ne_none_iff_exists'.mp ((lab.visited y).mpr sent.1)
        exact List.ne_nil_of_mem ((gathering.mem _).mpr ⟨y, i, sent, way, l, label, rfl⟩)
    have known : ∀ u ∈ (s.arcs (.forElement x)).unlabeledInArcs,
        Known s.compatibilityLabel (BranchLabel B (allSent B done)) u := by
      intro u member
      obtain ⟨y, i, sent, _, l, label, rfl⟩ := (gathering.mem u).mp member
      split_ifs with single
      · exact Or.inr ⟨y, label⟩
      · exact Or.inl (Or.inr ⟨y, i, sent, single, rfl⟩)
    obtain ⟨fuel, loop⟩ := settling.loop
    rcases lab.reducible.reduceLoop_spec early fuel _ unlabeled reduced gathering.nodup nonempty known loop with
      ⟨rfl, kept, branches, trades⟩ | ⟨knownR, trades⟩
    · obtain ⟨join, same⟩ := settling.keeps gathering kept branches
      exact ⟨Or.inr ⟨x, join⟩, same ▸ trades⟩
    · obtain ⟨kind, same⟩ := settling.takes_over knownR
      exact ⟨kind, same ▸ trades⟩

theorem gathering (settling : Settling B below rank done s x nl unlabeled reduced s') {b : E} (other : b ≠ x)
    (gathering : Gathering B (allSent B done) s b) : Gathering B (allSent B done) s' b := by
  have arcs := settling.element_arcs other
  refine ⟨by rw [arcs]; exact gathering.unlabeled, by rw [arcs]; exact gathering.nodup, fun u => ?_⟩
  rw [arcs, gathering.mem]
  refine exists_congr fun y => exists_congr fun i => and_congr_right fun sent => and_congr_right fun _ => ?_
  rw [Passed, Passed, settling.label sent.1]

end Settling

theorem Labelled.afterSettle (wf : B.WellFormed)
    (lab : Labelled B rank done (allSent B done) s)
    (upward : ∀ x ∈ B.inside, ∀ y ∈ B.successors x, rank x < rank y)
    (low : ∀ x ∈ done, ∀ t ∈ B.inside, rank t < rank x → t ∈ done) {x : E}
    (next : Next B rank done x) {nl reduced : LabelId E} {unlabeled : List (LabelId E)} {fuel : Nat}
    (map : s.nlMap x = some nl)
    (loop : reduceLoop below s.arcs (fun t => (B.successors t).length) nl fuel
      (s.arcs nl).unlabeledInArcs = some (unlabeled, reduced))
    (settled : SettledAt s x nl unlabeled reduced s') :
    Labelled B rank (done ++ [x]) (allSent B done) s' := by
  have settling : Settling B below rank done s x nl unlabeled reduced s' := ⟨lab, next, map, ⟨fuel, loop⟩, settled⟩
  obtain ⟨kind, trades⟩ := settling.reduced_spec wf
  have more : ∀ z ∈ done, z ∈ done ++ [x] := fun z => List.mem_append_left _
  have notX {b : E} (notDone : b ∉ done ++ [x]) : b ≠ x ∧ b ∉ done :=
    ⟨by rintro rfl; simp at notDone, fun member => notDone (more b member)⟩
  refine ⟨?_, ?_, ?_, ?_, ?_, ?_, ?_, ?_, ?_⟩
  · exact fun y i sent => ⟨more y sent.1, sent.2⟩
  · intro y
    rw [settled.label]
    split_ifs with isX
    · simp [isX]
    · rw [lab.visited y]
      simp [isX]
  · intro y l isLabel
    rw [settled.label] at isLabel
    split_ifs at isLabel with isX
    · exact Option.some.inj isLabel ▸ kind
    · rcases lab.labels y l isLabel with branch | ⟨z, join⟩
      · exact Or.inl branch
      · exact Or.inr ⟨z, settling.join join⟩
  · rw [settling.inherited_arcs, lab.inherited_arcs]
  · intro t i sent fork
    obtain ⟨l, labelT, arcs⟩ := lab.fork_arcs t i sent fork
    exact ⟨l, (settling.label sent.1).trans labelT, (settling.fork_arcs t i).trans arcs⟩
  · intro b insideB notDone nl' map'
    obtain ⟨otherB, notDone'⟩ := notX notDone
    rw [settled.nlMap b otherB] at map'
    exact (lab.waiting b insideB notDone' nl' map').imp_right fun ⟨notEntry, isName, gathering⟩ =>
      ⟨notEntry, isName, settling.gathering otherB gathering⟩
  · intro b insideB notDone
    obtain ⟨otherB, notDone'⟩ := notX notDone
    rw [settled.nlMap b otherB]
    exact lab.reached b insideB notDone'
  · intro l member own
    obtain ⟨member, deleted⟩ := settled.labelSet l member
    rcases lab.in_set l member own with branch | ⟨b, insideB, notEntry, rfl, kept⟩
    · exact Or.inl branch
    · refine Or.inr ⟨b, insideB, notEntry, rfl, fun isDone => ?_⟩
      rcases List.mem_append.mp isDone with isDone | isX
      · rw [settling.label isDone]
        exact kept isDone
      · -- the label made for `x` is deleted unless `x` keeps it
        obtain rfl := List.mem_singleton.mp isX
        rcases settling.name with ⟨isEntry, _⟩ | ⟨_, rfl⟩
        · exact absurd isEntry notEntry
        · rw [settled.label, if_pos rfl]
          by_contra lost
          exact deleted (fun same => lost (congrArg some same)) rfl
  · intro y isDone
    rcases List.mem_append.mp isDone with isDone | isX
    · exact lab.trades_frame upward low (fun _ => settling.held_eq) isDone
    · obtain rfl := List.mem_singleton.mp isX
      have lower : ∀ t ∈ B.inside, rank t < rank y →
          heldBy s.arcs s.compatibilityLabel t = heldBy s'.arcs s'.compatibilityLabel t :=
        fun t insideT less => (settling.held_eq ((next.lower t insideT).mp less)).symm
      have mine : heldBy s'.arcs s'.compatibilityLabel y = tokens s'.arcs reduced := by
        ext p
        simp [heldBy, settled.label]
      rw [mine, ← gathered_congr upward lower]
      exact Relation.ReflTransGen.mono (fun _ _ traded => TradedBack.congr lower traded) _ _ trades

/-- The labels a sub-block makes do not touch the labels of this block. -/
theorem Labelled.afterForeign {sent : E → Nat → Prop} (lab : Labelled B rank done sent s)
    (visitedInside : ∀ y ∈ done, y ∈ B.vertices) (upward : ∀ x ∈ B.inside, ∀ y ∈ B.successors x, rank x < rank y)
    (low : ∀ x ∈ done, ∀ t ∈ B.inside, rank t < rank x → t ∈ done) {l : LabelId E}
    {inArcs : LabelArcs E} (isForeign : Foreign B l) :
    Labelled B rank done sent (s.makeCompatibilityLabel below l inArcs) := by
  obtain ⟨e, outside, name⟩ := isForeign
  have frame : ∀ m, m ≠ l → (s.makeCompatibilityLabel below l inArcs).arcs m = s.arcs m := by
    intro m otherM
    simp [LabelState.makeCompatibilityLabel, otherM]
  have elementArcs : ∀ y ∈ B.vertices,
      (s.makeCompatibilityLabel below l inArcs).arcs (.forElement y) = s.arcs (.forElement y) := by
    intro y insideY
    refine frame _ ?_
    rintro rfl
    rcases name with name | ⟨i, name⟩ <;> cases name
    exact outside insideY
  have forkArcs : ∀ y ∈ B.vertices, ∀ i,
      (s.makeCompatibilityLabel below l inArcs).arcs (.forFork y i) = s.arcs (.forFork y i) := by
    intro y insideY i
    refine frame _ ?_
    rintro rfl
    rcases name with name | ⟨i, name⟩ <;> cases name
    exact outside insideY
  have inheritedArcs : (s.makeCompatibilityLabel below l inArcs).arcs .inherited =
      s.arcs .inherited := by
    refine frame _ ?_
    rintro rfl
    rcases name with name | ⟨i, name⟩ <;> cases name
  have branchArcs : ∀ u, BranchLabel B sent u →
      (s.makeCompatibilityLabel below l inArcs).arcs u = s.arcs u := by
    rintro u (rfl | ⟨t, i, isSent, _, rfl⟩)
    · exact inheritedArcs
    · exact forkArcs t (visitedInside t (lab.sent_done t i isSent).1) i
  refine ⟨lab.sent_done, lab.visited, ?_, ?_, ?_, ?_, lab.reached, ?_, ?_⟩
  · intro x l' isLabel
    rcases lab.labels x l' isLabel with branch | ⟨y, join⟩
    · exact Or.inl branch
    · exact Or.inr ⟨y, join.frame (fun _ => id) (fun _ _ => id)
        (elementArcs y (visitedInside y join.visited)) rfl⟩
  · rw [inheritedArcs, lab.inherited_arcs]
  · intro t i isSent fork
    obtain ⟨l', label, arcs⟩ := lab.fork_arcs t i isSent fork
    exact ⟨l', label, (forkArcs t (visitedInside t (lab.sent_done t i isSent).1) i).trans arcs⟩
  · intro b insideB notDone nl map
    rcases lab.waiting b insideB notDone nl map with atEntry | ⟨notEntry, isName, gathering⟩
    · exact Or.inl atEntry
    · have arcs := elementArcs b insideB
      refine Or.inr ⟨notEntry, isName, ?_, ?_, ?_⟩
      · rw [arcs]
        exact gathering.unlabeled
      · rw [arcs]
        exact gathering.nodup
      · intro u
        rw [arcs]
        exact gathering.mem u
  · intro l' member own
    rcases (mem_insertPointer below).mp member with rfl | member
    · exact absurd ⟨e, outside, name⟩ own
    · exact lab.in_set l' member own
  · intro x visited
    exact lab.trades_frame upward low
      (fun t visitedT => lab.held_eq branchArcs
        (fun y visitedY => elementArcs y (visitedInside y visitedY)) rfl) visited

end Settle

end Ahir.ControlPath
