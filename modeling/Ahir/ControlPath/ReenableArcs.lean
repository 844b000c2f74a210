import Ahir.Graph.MarkedGraph
import Ahir.ControlPath.RedundantArcs

/-!
# Redundant re-enable arcs

A pipelined fork block has marked arcs beside its forward arcs: `x` is a marked
predecessor of `y` when `y` waits for `x` to have fired in the round before.
`Remove_Redundant_Reenable_Arcs` drops the marked arc from `v` to `u` when `v`
leads to another marked predecessor of `u`, its second pass drops the one from
`u` to `x` when another marked successor of `u` leads to `x`.  What an arc asked
for is asked for by an arc that stays, so the block fires as before.
-/

set_option autoImplicit false

namespace Ahir.ControlPath
open Ahir.Graph

structure CPPipelinedForkBlock (E : Type) extends CPForkBlock E where
  markedPredecessors : E → List E
  markedSuccessors : E → List E
  markedPredecessorDelays : E → E → Option Int
  markedSuccessorDelays : E → E → Option Int

structure Screening (E : Type) where
  survivors : List E
  evictSet : List E

section Screen
variable {E : Type} [DecidableEq E] (below : E → E → Bool) (d : E → E → Nat) (delay : E → Int)

omit [DecidableEq E] in
/-- The marked arc from `v` is redundant beside the one from `w`. -/
def Yields (v w : E) : Prop := 0 < d v w ∧ delay v ≤ delay w

instance (v w : E) : Decidable (Yields d delay v w) :=
  inferInstanceAs (Decidable (0 < d v w ∧ delay v ≤ delay w))

omit [DecidableEq E] in
/-- The loop over the survivors: whether `v` is to be inserted, and `del_vec`. -/
def challenge (v : E) : List E → List E → Bool × List E
  | [], delVec => (true, delVec)
  | w :: rest, delVec =>
      if Yields d delay v w then (false, delVec)
      else challenge v rest (if Yields d delay w v then delVec ++ [w] else delVec)

def screen (s : Screening E) (v : E) : Screening E :=
  let verdict := challenge d delay v s.survivors []
  let survivors := s.survivors.filter (fun w => w ∉ verdict.2)
  let evictSet := insertPointers below s.evictSet verdict.2
  if verdict.1 then ⟨insertPointer below v survivors, evictSet⟩
  else ⟨survivors, insertPointer below v evictSet⟩

section Verdict
variable {below d delay} {arc : E → E → Prop}

omit [DecidableEq E] in
theorem Yields.trans (longest : LongestPaths arc d) {v w x : E} (first : Yields d delay v w)
    (second : Yields d delay w x) : Yields d delay v x :=
  ⟨longest.pos_trans first.1 second.1, Int.le_trans first.2 second.2⟩

omit [DecidableEq E] in
theorem Yields.irrefl (longest : LongestPaths arc d) (acyclic : ∀ x, ¬ Relation.TransGen arc x x)
    (v : E) : ¬ Yields d delay v v := by
  intro yields
  have := yields.1
  rw [longest.self_eq_zero acyclic] at this
  exact Nat.lt_irrefl 0 this

omit [DecidableEq E] in
theorem challenge_evicts {v w : E} {survivors delVec : List E}
    (evicted : w ∈ (challenge d delay v survivors delVec).2) :
    w ∈ delVec ∨ w ∈ survivors ∧ Yields d delay w v := by
  induction survivors generalizing delVec with
  | nil => exact Or.inl evicted
  | cons x rest ih =>
      rw [challenge] at evicted
      split_ifs at evicted with yields evicts
      · exact Or.inl evicted
      · rcases ih evicted with before | ⟨member, after⟩
        · rcases List.mem_append.mp before with before | isX
          · exact Or.inl before
          · rw [List.mem_singleton.mp isX]
            exact Or.inr ⟨List.mem_cons_self, evicts⟩
        · exact Or.inr ⟨List.mem_cons_of_mem x member, after⟩
      · rcases ih evicted with before | ⟨member, after⟩
        · exact Or.inl before
        · exact Or.inr ⟨List.mem_cons_of_mem x member, after⟩

omit [DecidableEq E] in
theorem subset_challenge {v : E} {survivors delVec : List E} :
    delVec ⊆ (challenge d delay v survivors delVec).2 := by
  induction survivors generalizing delVec with
  | nil => exact List.Subset.refl delVec
  | cons x rest ih =>
      rw [challenge]
      split_ifs
      · exact List.Subset.refl delVec
      · exact fun w member => ih (List.mem_append_left [x] member)
      · exact ih

omit [DecidableEq E] in
theorem challenge_refused {v : E} {survivors delVec : List E}
    (refused : (challenge d delay v survivors delVec).1 = false) :
    ∃ w ∈ survivors, Yields d delay v w := by
  induction survivors generalizing delVec with
  | nil => cases refused
  | cons x rest ih =>
      rw [challenge] at refused
      split_ifs at refused with yields evicts
      · exact ⟨x, List.mem_cons_self, yields⟩
      · obtain ⟨w, member, found⟩ := ih refused
        exact ⟨w, List.mem_cons_of_mem x member, found⟩
      · obtain ⟨w, member, found⟩ := ih refused
        exact ⟨w, List.mem_cons_of_mem x member, found⟩

omit [DecidableEq E] in
theorem challenge_inserted {v : E} {survivors delVec : List E}
    (inserted : (challenge d delay v survivors delVec).1 = true) {w : E} (member : w ∈ survivors) :
    ¬ Yields d delay v w ∧
      (Yields d delay w v → w ∈ (challenge d delay v survivors delVec).2) := by
  induction survivors generalizing delVec with
  | nil => cases member
  | cons x rest ih =>
      rw [challenge] at inserted ⊢
      by_cases yields : Yields d delay v x
      · rw [if_pos yields] at inserted
        cases inserted
      · rw [if_neg yields] at inserted ⊢
        rcases List.mem_cons.mp member with rfl | member
        · refine ⟨yields, fun evicts => subset_challenge ?_⟩
          rw [if_pos evicts]
          exact List.mem_append_right delVec (List.mem_singleton_self w)
        · exact ih inserted member

/-- What the loop over the marked predecessors keeps: whatever has been evicted
yields to a survivor, and no survivor has been evicted. -/
structure Screened (d : E → E → Nat) (delay : E → Int) (seen : List E) (s : Screening E) : Prop where
  listed : ∀ v ∈ s.survivors, v ∈ seen
  unordered : ∀ v ∈ s.survivors, ∀ w ∈ s.survivors, ¬ Yields d delay v w
  stays : ∀ v ∈ s.survivors, v ∉ s.evictSet
  yields : ∀ v ∈ s.evictSet, ∃ w ∈ s.survivors, Yields d delay v w

theorem Screened.step (longest : LongestPaths arc d) (acyclic : ∀ x, ¬ Relation.TransGen arc x x)
    {seen : List E} {s : Screening E} (screened : Screened d delay seen s)
    (below : E → E → Bool) (v : E) : Screened d delay (seen ++ [v]) (screen below d delay s v) := by
  have evicts : ∀ w ∈ (challenge d delay v s.survivors []).2,
      w ∈ s.survivors ∧ Yields d delay w v := by
    intro w member
    rcases challenge_evicts member with none | found
    · cases none
    · exact found
  cases outcome : (challenge d delay v s.survivors []).1 with
  | true =>
      have held := fun w => challenge_inserted (w := w) outcome
      have fresh : v ∉ s.evictSet := by
        intro gone
        obtain ⟨w, member, yields⟩ := screened.yields v gone
        exact (held w member).1 yields
      simp only [screen, outcome, if_true]
      refine ⟨?_, ?_, ?_, ?_⟩
      · intro w member
        simp only [mem_insertPointer, List.mem_filter] at member
        rcases member with rfl | ⟨member, _⟩
        · simp
        · exact List.mem_append_left [v] (screened.listed w member)
      · intro w memberW x memberX yields
        simp only [mem_insertPointer, List.mem_filter, decide_not, Bool.not_eq_true',
          decide_eq_false_iff_not] at memberW memberX
        rcases memberW with rfl | ⟨memberW, notW⟩
        · rcases memberX with rfl | ⟨memberX, _⟩
          · exact Yields.irrefl longest acyclic _ yields
          · exact (held x memberX).1 yields
        · rcases memberX with rfl | ⟨memberX, _⟩
          · exact notW ((held w memberW).2 yields)
          · exact screened.unordered w memberW x memberX yields
      · intro w member gone
        simp only [mem_insertPointer, List.mem_filter, mem_insertPointers, decide_not,
          Bool.not_eq_true', decide_eq_false_iff_not] at member gone
        rcases member with rfl | ⟨member, notW⟩
        · rcases gone with gone | gone
          · exact fresh gone
          · exact Yields.irrefl longest acyclic _ (evicts w gone).2
        · rcases gone with gone | gone
          · exact screened.stays w member gone
          · exact notW gone
      · intro w gone
        rcases (mem_insertPointers below).mp gone with gone | gone
        · obtain ⟨x, member, yields⟩ := screened.yields w gone
          by_cases evicted : x ∈ (challenge d delay v s.survivors []).2
          · exact ⟨v, by simp, yields.trans longest (evicts x evicted).2⟩
          · exact ⟨x, by simp [member, evicted], yields⟩
        · exact ⟨v, by simp, (evicts w gone).2⟩
  | false =>
      obtain ⟨x, memberX, yieldsX⟩ := challenge_refused outcome
      -- `v` cannot have evicted the survivor it yields to
      have staysX : x ∉ (challenge d delay v s.survivors []).2 := fun evicted =>
        Yields.irrefl longest acyclic _ (yieldsX.trans longest (evicts x evicted).2)
      simp only [screen, outcome, Bool.false_eq_true, if_false]
      refine ⟨?_, ?_, ?_, ?_⟩
      · intro w member
        exact List.mem_append_left [v] (screened.listed w (List.mem_filter.mp member).1)
      · intro w memberW y memberY
        exact screened.unordered w (List.mem_filter.mp memberW).1 y (List.mem_filter.mp memberY).1
      · intro w member gone
        simp only [mem_insertPointer, List.mem_filter, mem_insertPointers, decide_not,
          Bool.not_eq_true', decide_eq_false_iff_not] at member gone
        rcases gone with rfl | gone | gone
        · exact screened.unordered w member.1 x memberX yieldsX
        · exact screened.stays w member.1 gone
        · exact member.2 gone
      · intro w gone
        have toX : Yields d delay w v → ∃ y ∈ s.survivors.filter
            (fun y => y ∉ (challenge d delay v s.survivors []).2), Yields d delay w y :=
          fun yields => ⟨x, by simp [memberX, staysX], yields.trans longest yieldsX⟩
        rw [mem_insertPointer, mem_insertPointers] at gone
        rcases gone with rfl | gone | gone
        · exact ⟨x, by simp [memberX, staysX], yieldsX⟩
        · obtain ⟨y, member, yields⟩ := screened.yields w gone
          by_cases evicted : y ∈ (challenge d delay v s.survivors []).2
          · exact toX (yields.trans longest (evicts y evicted).2)
          · exact ⟨y, by simp [member, evicted], yields⟩
        · exact toX (evicts w gone).2

theorem Screened.run (longest : LongestPaths arc d) (acyclic : ∀ x, ¬ Relation.TransGen arc x x)
    {seen : List E} {s : Screening E} (screened : Screened d delay seen s)
    (below : E → E → Bool) (todo : List E) : Screened d delay (seen ++ todo) (todo.foldl (screen below d delay) s) := by
  induction todo generalizing seen s with
  | nil => simpa using screened
  | cons v rest ih =>
      have after := ih (screened.step longest acyclic below v)
      rwa [List.append_assoc] at after

end Verdict

end Screen

namespace CPPipelinedForkBlock
variable {E : Type} [DecidableEq E] (B : CPPipelinedForkBlock E)

omit [DecidableEq E] in
/-- `u->Get_Marked_Predecessor_Delay(v)`. -/
def markedPredecessorDelay (u v : E) : Int := (B.markedPredecessorDelays u v).getD 1

/-- `u->Remove_Marked_Predecessor(v)`. -/
def removeMarkedPredecessor (u v : E) : CPPipelinedForkBlock E :=
  if v ∈ B.markedPredecessors u then
    { B with
      markedPredecessors := fun e =>
        if e = u then (B.markedPredecessors e).erase v else B.markedPredecessors e
      markedPredecessorDelays := fun e f =>
        if e = u ∧ f = v then none else B.markedPredecessorDelays e f }
  else B

/-- `u->Remove_Marked_Successor(v)`. -/
def removeMarkedSuccessor (u v : E) : CPPipelinedForkBlock E :=
  if v ∈ B.markedSuccessors u then
    { B with
      markedSuccessors := fun e =>
        if e = u then (B.markedSuccessors e).erase v else B.markedSuccessors e
      markedSuccessorDelays := fun e f =>
        if e = u ∧ f = v then none else B.markedSuccessorDelays e f }
  else B

/-- The marked predecessors of `u` that are to go. -/
def evictSet (below : E → E → Bool) (d : E → E → Nat) (u : E) : List E :=
  ((B.markedPredecessors u).foldl (screen below d (B.markedPredecessorDelay u)) ⟨[], []⟩).evictSet

/-- The turn of `u` in the first pass. -/
def evictPredecessors (below : E → E → Bool) (d : E → E → Nat) (B : CPPipelinedForkBlock E)
    (u : E) : CPPipelinedForkBlock E :=
  (B.evictSet below d u).foldl
    (fun B v => (B.removeMarkedPredecessor u v).removeMarkedSuccessor v u) B

def evictedElement (d : E → E → Nat) (markedSuccessors : List E) : Option (E × Nat) :=
  markedSuccessors.zipIdx.find? fun x =>
    markedSuccessors.zipIdx.any fun y => x.2 ≠ y.2 ∧ 0 < d y.1 x.1

/-- The turn of `u` in the second pass. -/
def dropOneSuccessor (d : E → E → Nat) (B : CPPipelinedForkBlock E) (u : E) :
    CPPipelinedForkBlock E :=
  match evictedElement d (B.markedSuccessors u) with
  | none => B
  | some x => (B.removeMarkedSuccessor u x.1).removeMarkedPredecessor x.1 u

def removeRedundantReenableArcsPass2 (below : E → E → Bool) (d : E → E → Nat) :
    CPPipelinedForkBlock E :=
  (insertPointers below [] B.vertices).foldl (dropOneSuccessor d) B

/-- `Remove_Redundant_Reenable_Arcs`; `d` is the distance map. -/
def removeRedundantReenableArcs (below : E → E → Bool) (d : E → E → Nat) :
    CPPipelinedForkBlock E :=
  ((insertPointers below [] B.vertices).foldl (evictPredecessors below d) B).removeRedundantReenableArcsPass2
    below d

omit [DecidableEq E] in
/-- `y` waits for the last firing of `x`. -/
def MarkedArc (x y : E) : Prop := y ∈ B.vertices ∧ x ∈ B.markedPredecessors y

omit [DecidableEq E] in
/-- The forward arcs are empty at first, each marked arc holds one token. -/
def markedGraph : MarkedGraph E where
  inside := B.inside
  arc x y n := n = 0 ∧ B.Arc x y ∨ n = 1 ∧ B.MarkedArc x y

/-- The marked arcs are between vertices of the block and listed at both ends. -/
structure Mirrored : Prop where
  successors_inside : ∀ x ∈ B.vertices, ∀ y ∈ B.markedSuccessors x, y ∈ B.vertices
  predecessors_inside : ∀ y ∈ B.vertices, ∀ x ∈ B.markedPredecessors y, x ∈ B.vertices
  mirrored : ∀ x ∈ B.vertices, ∀ y ∈ B.vertices,
    (B.markedSuccessors x).count y = (B.markedPredecessors y).count x

variable {B}

section Removal
variable (B)

@[simp]
theorem removeMarkedPredecessor_block (u v : E) :
    (B.removeMarkedPredecessor u v).toCPForkBlock = B.toCPForkBlock := by
  unfold removeMarkedPredecessor
  split_ifs <;> rfl

@[simp]
theorem removeMarkedSuccessor_block (u v : E) :
    (B.removeMarkedSuccessor u v).toCPForkBlock = B.toCPForkBlock := by
  unfold removeMarkedSuccessor
  split_ifs <;> rfl

@[simp]
theorem markedPredecessors_removeMarkedPredecessor (u v e : E) :
    (B.removeMarkedPredecessor u v).markedPredecessors e =
      if e = u then (B.markedPredecessors e).erase v else B.markedPredecessors e := by
  unfold removeMarkedPredecessor
  split_ifs with listed isU isU
  · simp [isU]
  · simp [isU]
  · rw [isU, List.erase_of_not_mem listed]
  · rfl

@[simp]
theorem markedSuccessors_removeMarkedSuccessor (u v e : E) :
    (B.removeMarkedSuccessor u v).markedSuccessors e =
      if e = u then (B.markedSuccessors e).erase v else B.markedSuccessors e := by
  unfold removeMarkedSuccessor
  split_ifs with listed isU isU
  · simp [isU]
  · simp [isU]
  · rw [isU, List.erase_of_not_mem listed]
  · rfl

@[simp]
theorem markedSuccessors_removeMarkedPredecessor (u v : E) :
    (B.removeMarkedPredecessor u v).markedSuccessors = B.markedSuccessors := by
  unfold removeMarkedPredecessor
  split_ifs <;> rfl

@[simp]
theorem markedPredecessors_removeMarkedSuccessor (u v : E) :
    (B.removeMarkedSuccessor u v).markedPredecessors = B.markedPredecessors := by
  unfold removeMarkedSuccessor
  split_ifs <;> rfl

theorem removeMarkedSuccessor_comm (u v : E) :
    (B.removeMarkedSuccessor u v).removeMarkedPredecessor v u =
      (B.removeMarkedPredecessor v u).removeMarkedSuccessor u v := by
  by_cases isPrev : u ∈ B.markedPredecessors v
  · by_cases isNext : v ∈ B.markedSuccessors u
    · simp [removeMarkedSuccessor, removeMarkedPredecessor, isPrev, isNext]
    · simp [removeMarkedSuccessor, removeMarkedPredecessor, isPrev, isNext]
  · by_cases isNext : v ∈ B.markedSuccessors u
    · simp [removeMarkedSuccessor, removeMarkedPredecessor, isPrev, isNext]
    · simp [removeMarkedSuccessor, removeMarkedPredecessor, isPrev, isNext]

end Removal

theorem Mirrored.mem_iff (mirrored : B.Mirrored) {x y : E}
    (insideX : x ∈ B.vertices) (insideY : y ∈ B.vertices) :
    y ∈ B.markedSuccessors x ↔ x ∈ B.markedPredecessors y := by
  rw [← List.count_pos_iff, ← List.count_pos_iff, mirrored.mirrored x insideX y insideY]

/-- The block stays, its marked links stay in step, and no marked arcs but those
of `gone` are missing. -/
structure Prunes (B B' : CPPipelinedForkBlock E) (gone : E → E → Prop) : Prop where
  block : B'.toCPForkBlock = B.toCPForkBlock
  mirrored : B'.Mirrored
  fewer : ∀ x y, B'.MarkedArc x y → B.MarkedArc x y
  keeps : ∀ x y, B.MarkedArc x y → ¬ gone x y → B'.MarkedArc x y

theorem Prunes.refl (mirrored : B.Mirrored) (gone : E → E → Prop) : Prunes B B gone :=
  ⟨rfl, mirrored, fun _ _ => id, fun _ _ arc _ => arc⟩

theorem Prunes.trans {B' B'' : CPPipelinedForkBlock E} {gone gone' : E → E → Prop}
    (first : Prunes B B' gone) (second : Prunes B' B'' gone') :
    Prunes B B'' (fun x y => gone x y ∨ gone' x y) := by
  refine ⟨second.block.trans first.block, second.mirrored, ?_, ?_⟩
  · intro x y arc
    exact first.fewer x y (second.fewer x y arc)
  · intro x y arc stays
    rw [not_or] at stays
    exact second.keeps x y (first.keeps x y arc stays.1) stays.2

theorem Prunes.mono {B' : CPPipelinedForkBlock E} {gone gone' : E → E → Prop}
    (prunes : Prunes B B' gone) (more : ∀ x y, gone x y → gone' x y) : Prunes B B' gone' :=
  ⟨prunes.block, prunes.mirrored, prunes.fewer,
    fun x y arc stays => prunes.keeps x y arc fun isGone => stays (more x y isGone)⟩

theorem removeMarked_prunes (mirrored : B.Mirrored) (u v : E) :
    Prunes B ((B.removeMarkedPredecessor u v).removeMarkedSuccessor v u)
      (fun x y => x = v ∧ y = u) := by
  refine ⟨by simp, ⟨?_, ?_, ?_⟩, ?_, ?_⟩
  · intro x insideX y isNext
    simp only [removeMarkedSuccessor_block, removeMarkedPredecessor_block,
      markedSuccessors_removeMarkedSuccessor, markedSuccessors_removeMarkedPredecessor]
      at insideX isNext ⊢
    apply mirrored.successors_inside x insideX y
    split_ifs at isNext
    · exact List.mem_of_mem_erase isNext
    · exact isNext
  · intro y insideY x isPrev
    simp only [removeMarkedSuccessor_block, removeMarkedPredecessor_block,
      markedPredecessors_removeMarkedSuccessor, markedPredecessors_removeMarkedPredecessor]
      at insideY isPrev ⊢
    apply mirrored.predecessors_inside y insideY x
    split_ifs at isPrev
    · exact List.mem_of_mem_erase isPrev
    · exact isPrev
  · intro x insideX y insideY
    simp only [removeMarkedSuccessor_block, removeMarkedPredecessor_block,
      markedSuccessors_removeMarkedSuccessor, markedSuccessors_removeMarkedPredecessor,
      markedPredecessors_removeMarkedSuccessor, markedPredecessors_removeMarkedPredecessor]
      at insideX insideY ⊢
    have same := mirrored.mirrored x insideX y insideY
    split_ifs with isV isU isU
    · rw [List.count_erase, List.count_erase, same, isV, isU]
      simp
    · rw [List.count_erase_of_ne isU, same]
    · rw [List.count_erase_of_ne isV, same]
    · exact same
  · rintro x y ⟨insideY, isPrev⟩
    simp only [removeMarkedSuccessor_block, removeMarkedPredecessor_block,
      markedPredecessors_removeMarkedSuccessor, markedPredecessors_removeMarkedPredecessor]
      at insideY isPrev
    refine ⟨insideY, ?_⟩
    split_ifs at isPrev
    · exact List.mem_of_mem_erase isPrev
    · exact isPrev
  · rintro x y ⟨insideY, isPrev⟩ stays
    refine ⟨by simpa using insideY, ?_⟩
    simp only [markedPredecessors_removeMarkedSuccessor, markedPredecessors_removeMarkedPredecessor]
    split_ifs with isU
    · exact (List.mem_erase_of_ne fun isV => stays ⟨isV, isU⟩).mpr isPrev
    · exact isPrev

theorem evictPredecessors_prunes (mirrored : B.Mirrored) (below : E → E → Bool) (d : E → E → Nat)
    (u : E) : Prunes B (B.evictPredecessors below d u)
      (fun x y => x ∈ B.evictSet below d u ∧ y = u) := by
  unfold evictPredecessors
  generalize B.evictSet below d u = evicted
  induction evicted generalizing B with
  | nil => exact Prunes.refl mirrored _
  | cons v rest ih =>
      have first := removeMarked_prunes mirrored u v
      refine (first.trans (ih first.mirrored)).mono ?_
      rintro x y (⟨rfl, rfl⟩ | ⟨member, rfl⟩)
      · exact ⟨List.mem_cons_self, rfl⟩
      · exact ⟨List.mem_cons_of_mem v member, rfl⟩

omit [DecidableEq E] in
theorem carries_of_path {n : Nat} {x y : E} (path : PathOf B.Arc n x y) :
    B.markedGraph.Carries x y 0 := by
  induction path with
  | refl _ => exact MarkedGraph.Carries.refl _
  | snoc _ arc ih => exact MarkedGraph.Carries.snoc ih (Or.inl ⟨rfl, arc⟩)

theorem Prunes.firingSequences_eq {B' : CPPipelinedForkBlock E} {gone : E → E → Prop}
    (prunes : Prunes B B' gone) (acyclic : ∀ x, ¬ Relation.TransGen B.Arc x x)
    (justified : ∀ x y, B.MarkedArc x y → gone x y → B'.markedGraph.Carries x y 1) :
    B'.markedGraph.firingSequences = B.markedGraph.firingSequences := by
  apply MarkedGraph.firingSequences_eq
  · show B'.inside = B.inside
    rw [prunes.block]
  · rintro x y n (⟨rfl, arc⟩ | ⟨rfl, arc⟩)
    · exact Or.inl ⟨rfl, prunes.block ▸ arc⟩
    · exact Or.inr ⟨rfl, prunes.fewer x y arc⟩
  · rintro x y n (⟨rfl, arc⟩ | ⟨rfl, arc⟩)
    · exact MarkedGraph.Carries.single (Or.inl ⟨rfl, prunes.block ▸ arc⟩)
    · by_cases isGone : gone x y
      · exact justified x y arc isGone
      · exact MarkedGraph.Carries.single (Or.inr ⟨rfl, prunes.keeps x y arc isGone⟩)
  · rintro x (⟨_, arc⟩ | ⟨isOne, _⟩)
    · exact acyclic x (Relation.TransGen.single arc)
    · cases isOne

section Passes
variable {d : E → E → Nat}

/-- The turn of `u` in the first pass: the last survivor an evicted `v` yields to stays. -/
theorem evictPredecessors_firings (mirrored : B.Mirrored) (below : E → E → Bool)
    (longest : LongestPaths B.Arc d) (acyclic : ∀ x, ¬ Relation.TransGen B.Arc x x) (u : E) :
    (B.evictPredecessors below d u).markedGraph.firingSequences =
      B.markedGraph.firingSequences := by
  have prunes := evictPredecessors_prunes mirrored below d u
  have start : Screened d (B.markedPredecessorDelay u) [] ⟨[], []⟩ :=
    ⟨by simp, by simp, by simp, by simp⟩
  have screened := start.run longest acyclic below (B.markedPredecessors u)
  apply prunes.firingSequences_eq acyclic
  rintro v y arc ⟨evicted, rfl⟩
  obtain ⟨w, survives, yields⟩ := screened.yields v evicted
  have marked : (B.evictPredecessors below d y).MarkedArc w y := by
    apply prunes.keeps w y ⟨arc.1, by simpa using screened.listed w survives⟩
    rintro ⟨gone, _⟩
    exact screened.stays w survives gone
  have path := longest.attained v w yields.1
  rw [← prunes.block] at path
  exact MarkedGraph.Carries.snoc (carries_of_path path) (Or.inr ⟨rfl, marked⟩)

omit [DecidableEq E] in
theorem evictedElement_spec {markedSuccessors : List E} {x : E × Nat}
    (evicted : evictedElement d markedSuccessors = some x) :
    ∃ y ∈ markedSuccessors, 0 < d y x.1 := by
  have found := List.find?_some evicted
  simp only [List.any_eq_true, decide_eq_true_eq] at found
  obtain ⟨y, member, _, leads⟩ := found
  exact ⟨y.1, List.fst_mem_of_mem_zipIdx member, leads⟩

theorem dropOneSuccessor_prunes (mirrored : B.Mirrored) (u : E) :
    Prunes B (dropOneSuccessor d B u) (fun x y => x = u ∧ ∃ i,
      evictedElement d (B.markedSuccessors u) = some (y, i)) := by
  unfold dropOneSuccessor
  split
  · exact Prunes.refl mirrored _
  · next x evicted =>
      rw [removeMarkedSuccessor_comm]
      refine (removeMarked_prunes mirrored x.1 u).mono ?_
      rintro a b ⟨rfl, rfl⟩
      exact ⟨rfl, x.2, evicted⟩

theorem dropOneSuccessor_firings (mirrored : B.Mirrored) (longest : LongestPaths B.Arc d)
    (acyclic : ∀ x, ¬ Relation.TransGen B.Arc x x) {u : E} (inside : u ∈ B.vertices) :
    (dropOneSuccessor d B u).markedGraph.firingSequences = B.markedGraph.firingSequences := by
  have prunes := dropOneSuccessor_prunes (d := d) mirrored u
  apply prunes.firingSequences_eq acyclic
  rintro v x arc ⟨rfl, i, evicted⟩
  obtain ⟨y, member, leads⟩ := evictedElement_spec evicted
  have marked : (dropOneSuccessor d B v).MarkedArc v y := by
    have insideY := mirrored.successors_inside v inside y member
    apply prunes.keeps v y ⟨insideY, (mirrored.mem_iff inside insideY).mp member⟩
    rintro ⟨_, j, again⟩
    have same : x = y := congrArg Prod.fst (Option.some.inj (evicted.symm.trans again))
    rw [same, longest.self_eq_zero acyclic] at leads
    exact Nat.lt_irrefl 0 leads
  have path := longest.attained y x leads
  rw [← prunes.block] at path
  have carried := (MarkedGraph.Carries.single (G := (dropOneSuccessor d B v).markedGraph)
    (Or.inr ⟨rfl, marked⟩)).trans (carries_of_path path)
  exact carried

/-- What a turn keeps, a loop of turns over vertices of the block keeps. -/
theorem foldl_firings (turn : CPPipelinedForkBlock E → E → CPPipelinedForkBlock E)
    (turns : List E) (mirrored : B.Mirrored)
    (step : ∀ (B' : CPPipelinedForkBlock E), B'.toCPForkBlock = B.toCPForkBlock →
      B'.Mirrored → ∀ u ∈ turns, (turn B' u).toCPForkBlock = B.toCPForkBlock ∧ (turn B' u).Mirrored ∧
        (turn B' u).markedGraph.firingSequences = B'.markedGraph.firingSequences) :
    (turns.foldl turn B).toCPForkBlock = B.toCPForkBlock ∧ (turns.foldl turn B).Mirrored ∧
      (turns.foldl turn B).markedGraph.firingSequences = B.markedGraph.firingSequences := by
  refine List.foldlRecOn (motive := fun B' => B'.toCPForkBlock = B.toCPForkBlock ∧ B'.Mirrored ∧
    B'.markedGraph.firingSequences = B.markedGraph.firingSequences) turns turn ⟨rfl, mirrored, rfl⟩
    fun B' kept u member => ?_
  obtain ⟨block, mirrored', same⟩ := kept
  obtain ⟨block', mirrored'', same'⟩ := step B' block mirrored' u member
  exact ⟨block', mirrored'', same'.trans same⟩

theorem removeRedundantReenableArcsPass2_firings (mirrored : B.Mirrored) (below : E → E → Bool)
    (longest : LongestPaths B.Arc d) (acyclic : ∀ x, ¬ Relation.TransGen B.Arc x x) :
    (B.removeRedundantReenableArcsPass2 below d).markedGraph.firingSequences =
      B.markedGraph.firingSequences := by
  refine (foldl_firings _ _ mirrored ?_).2.2
  intro B' block mirrored' u listed
  have inside : u ∈ B'.vertices := by
    rw [block]
    simpa using listed
  have prunes := dropOneSuccessor_prunes (d := d) mirrored' u
  refine ⟨prunes.block.trans block, prunes.mirrored, ?_⟩
  rw [← block] at longest acyclic
  exact dropOneSuccessor_firings mirrored' longest acyclic inside

end Passes

/-- The whole pass keeps the firing sequences. -/
theorem removeRedundantReenableArcs_firings (linked : B.Linked) (mirrored : B.Mirrored)
    (acyclic : ∀ x, ¬ Relation.TransGen B.Arc x x) (below : E → E → Bool)
    {topologicalSort : List (Option E) → List (Option E × Option E) → List (Option E)}
    (sorts : SortsTopologically topologicalSort) :
    (B.removeRedundantReenableArcs below (B.allPairsLongestPaths
      (topologicalSort B.sortedVertices B.sortedEdges))).markedGraph.firingSequences =
      B.markedGraph.firingSequences := by
  have sorted := sorts _ _ (CPForkBlock.sortedGraph_acyclic linked acyclic)
  have longest := CPForkBlock.allPairsLongestPaths_longest linked acyclic sorted
  unfold removeRedundantReenableArcs
  generalize B.allPairsLongestPaths (topologicalSort B.sortedVertices B.sortedEdges) = d at longest ⊢
  have first := foldl_firings (evictPredecessors below d) (insertPointers below [] B.vertices)
    mirrored ?_
  · obtain ⟨block, mirrored', same⟩ := first
    rw [← same]
    rw [← block] at longest acyclic
    exact removeRedundantReenableArcsPass2_firings mirrored' below longest acyclic
  · intro B' block mirrored' u _
    have prunes := evictPredecessors_prunes mirrored' below d u
    refine ⟨prunes.block.trans block, prunes.mirrored, ?_⟩
    rw [← block] at longest acyclic
    exact evictPredecessors_firings mirrored' below longest acyclic u

/-- A chain of three arcs: the entry waits for all three elements behind it, and
both inner elements wait for the exit. -/
def reenabled : CPPipelinedForkBlock (Fin 4) where
  entry := 0
  exit := 3
  elements := [1, 2]
  isTransition := fun _ => true
  predecessors := fun x => match x with | 0 => [] | 1 => [0] | 2 => [1] | 3 => [2]
  successors := fun x => match x with | 0 => [1] | 1 => [2] | 2 => [3] | 3 => []
  forkMap := fun x => match x with | 0 => [1] | 1 => [2] | 2 => [3] | 3 => []
  joinMap := fun x => match x with | 0 => [] | 1 => [0] | 2 => [1] | 3 => [2]
  markedPredecessors := fun x => match x with | 0 => [1, 3, 2] | 1 => [3] | 2 => [3] | 3 => []
  markedSuccessors := fun x => match x with | 0 => [] | 1 => [0] | 2 => [0] | 3 => [0, 1, 2]
  markedPredecessorDelays := fun _ _ => some 1
  markedSuccessorDelays := fun _ _ => some 1

example :
    let d := reenabled.allPairsLongestPaths
      (sinksFirst reenabled.sortedVertices reenabled.sortedEdges)
    let after := reenabled.removeRedundantReenableArcs (fun a b => a < b) d
    after.markedPredecessors 0 = [3] ∧ after.markedPredecessors 1 = [] ∧
      after.markedPredecessors 2 = [3] := by decide

theorem removeRedundantReenableArcs_firings_reenabled :
    (reenabled.removeRedundantReenableArcs (fun a b => a < b) (reenabled.allPairsLongestPaths
      (sinksFirst reenabled.sortedVertices reenabled.sortedEdges))).markedGraph.firingSequences =
      reenabled.markedGraph.firingSequences := by
  have upwards : ∀ x y : Fin 4, y ∈ reenabled.successors x → x.val < y.val := by decide
  exact removeRedundantReenableArcs_firings ⟨by decide, by decide, by decide⟩
    ⟨by decide, by decide, by decide⟩ (Graph.acyclic_of_rising _ fun x y arc => upwards x y arc.2)
    (fun a b => a < b) sinksFirst_sorts

end CPPipelinedForkBlock

end Ahir.ControlPath
