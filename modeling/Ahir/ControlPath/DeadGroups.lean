import Ahir.Graph.Firing
import Ahir.ControlPath.GroupFiring
import Ahir.ControlPath.GroupReduce

/-!
# Dead groups

The search for dead groups counts for each group how many of its predecessors it was reached from;
it ends with the groups that are dead or have doomed predecessors only.  A join that waits for a
doomed and for another group never fires, but it stays, and waits for the other one only.
-/

set_option autoImplicit false

namespace Ahir.ControlPath
open Ahir.Graph Ahir.Run

namespace GroupGraph
variable {E : Type} [DecidableEq E] {m : Memory E} {C : GroupGraph E}

/-- The groups fire from the entry group and the input transitions on, those of places with any,
those of transitions with all of their predecessors. -/
def firing (C : GroupGraph E) (entry : Nat) : FiringGraph Nat where
  live := C.Live
  pred := fun g => (C.group g).predecessors
  source := fun g => g = entry ∨ (C.group g).hasInputTransition = true
  any := fun g => (C.group g).hasPlace = true
  dead := fun g => (C.group g).hasDeadTransition = true

def ListsSets (C : GroupGraph E) : Prop :=
  ∀ g, C.Live g → (C.group g).successors.Nodup ∧ (C.group g).predecessors.Nodup

section Search
variable {entry : Nat}

/-- The predecessors from which `g` was reached. -/
def reachedFrom (C : GroupGraph E) (s : DeadSearch) (g : Nat) : List Nat :=
  (C.group g).predecessors.filter fun p => decide (g ∈ (C.group p).successors.take (s.outVisitCount p))

structure Counting (C : GroupGraph E) (entry : Nat) (s : DeadSearch) : Prop where
  queued : ∀ g ∈ s.queue, g ∈ s.absorbed
  onQueue : ∀ g ∈ s.onQueue, g ∈ s.absorbed
  nodup : s.absorbed.Nodup
  within : ∀ g, C.Live g → s.outVisitCount g ≤ (C.group g).successors.length
  untouched : ∀ g, g ∉ s.absorbed → s.outVisitCount g = 0
  finished : ∀ g ∈ s.absorbed, g ∉ s.queue → s.outVisitCount g = (C.group g).successors.length
  counted : ∀ g, C.Live g → g ∉ s.absorbed → (C.group g).hasInputTransition = false →
    s.inVisitCount g = (C.reachedFrom s g).length
  fewer : ∀ g, C.Live g → g ∉ s.absorbed → (C.group g).hasInputTransition = false →
    (C.group g).predecessors ≠ [] → (C.reachedFrom s g).length < (C.group g).predecessors.length
  doomed : ∀ g ∈ s.absorbed, (C.firing entry).Doomed g
  nucleii : ∀ g, C.Live g → (C.group g).hasDeadTransition = true → g ∈ s.absorbed

theorem length_filter_or_eq {l : List Nat} (nodup : l.Nodup) {a : Nat} (member : a ∈ l) {q : Nat → Bool}
    (fresh : q a = false) : (l.filter fun x => q x || decide (x = a)).length = (l.filter q).length + 1 := by
  induction l with
  | nil => cases member
  | cons x rest ih =>
      obtain ⟨absent, nodup⟩ := List.nodup_cons.mp nodup
      by_cases same : x = a
      · subst same
        have others : rest.filter (fun y => q y || decide (y = x)) = rest.filter q := by
          refine List.filter_congr fun y isRest => ?_
          have distinct : y ≠ x := fun equal => absent (equal ▸ isRest)
          simp [distinct]
        simp [fresh, others]
      · have inRest : a ∈ rest := (List.mem_cons.mp member).resolve_left fun equal => same equal.symm
        have more := ih nodup inRest
        by_cases holds : q x = true
        · simp only [List.filter_cons, holds, Bool.true_or, if_true, List.length_cons, more]
        · simp only [List.filter_cons, holds, same, decide_false, Bool.or_false, Bool.false_eq_true, if_false, more]

section Visit
variable {s : DeadSearch} {top succ : Nat}

omit [DecidableEq E] in
theorem mem_take_countVisit {g p : Nat} (here : (C.group top).successors[s.outVisitCount top]? = some succ) :
    g ∈ (C.group p).successors.take (countVisit s.outVisitCount top p) ↔
      g ∈ (C.group p).successors.take (s.outVisitCount p) ∨ p = top ∧ g = succ := by
  unfold countVisit
  split_ifs with isTop
  · subst isTop
    rw [List.take_add_one, here, List.mem_append]
    simp
  · simp [isTop]

omit [DecidableEq E] in
theorem reachedFrom_other {g : Nat} (here : (C.group top).successors[s.outVisitCount top]? = some succ)
    (other : g ≠ succ) :
    C.reachedFrom { s with outVisitCount := countVisit s.outVisitCount top } g = C.reachedFrom s g := by
  refine List.filter_congr fun p _ => decide_eq_decide.mpr ?_
  rw [mem_take_countVisit here]
  simp [other]

omit [DecidableEq E] in
theorem reachedFrom_succ (wf : C.WellFormed) (sets : C.ListsSets) (liveTop : C.Live top)
    (here : (C.group top).successors[s.outVisitCount top]? = some succ) :
    (C.reachedFrom { s with outVisitCount := countVisit s.outVisitCount top } succ).length =
      (C.reachedFrom s succ).length + 1 := by
  have member : succ ∈ (C.group top).successors := List.mem_of_getElem? here
  obtain ⟨liveSucc, isPred⟩ := wf.forward_closed.successors top succ liveTop member
  have fresh : decide (succ ∈ (C.group top).successors.take (s.outVisitCount top)) = false := by
    refine decide_eq_false fun early => ?_
    obtain ⟨i, at_⟩ := List.mem_iff_getElem?.mp early
    obtain ⟨bound, _⟩ := List.getElem?_eq_some_iff.mp at_
    rw [List.length_take] at bound
    rw [List.getElem?_take_of_lt (by omega)] at at_
    have same := (List.getElem?_inj (by omega) (sets top liveTop).1).mp (at_.trans here.symm)
    omega
  have more := @length_filter_or_eq _ (sets succ liveSucc).2 top isPred
    (fun p => decide (succ ∈ (C.group p).successors.take (s.outVisitCount p))) fresh
  refine Eq.trans (congrArg List.length (List.filter_congr fun p _ => ?_)) more
  rw [Bool.eq_iff_iff, Bool.or_eq_true, decide_eq_true_iff, decide_eq_true_iff, decide_eq_true_iff,
    mem_take_countVisit here]
  simp only [and_true]

omit [DecidableEq E] in
theorem reachedFrom_length_le (g : Nat) : (C.reachedFrom s g).length ≤ (C.group g).predecessors.length :=
  List.length_filter_le _ _

section Depart
variable {rest : List Nat}

omit [DecidableEq E] in
theorem Counting.top_absorbed (counting : Counting C entry s) (front : s.queue = top :: rest) : top ∈ s.absorbed :=
  counting.queued top (by simp [front])

omit [DecidableEq E] in
theorem Counting.within_countVisit (counting : Counting C entry s)
    (here : (C.group top).successors[s.outVisitCount top]? = some succ) {g : Nat} (live : C.Live g) :
    countVisit s.outVisitCount top g ≤ (C.group g).successors.length := by
  by_cases isTop : g = top
  · subst isTop
    exact (if_pos rfl).trans_le (List.getElem?_eq_some_iff.mp here).1
  · exact (if_neg isTop).trans_le (counting.within g live)

omit [DecidableEq E] in
theorem Counting.untouched_countVisit (counting : Counting C entry s) (front : s.queue = top :: rest) {g : Nat}
    (free : g ∉ s.absorbed) : countVisit s.outVisitCount top g = 0 := by
  have other : g ≠ top := fun same => free (same ▸ counting.top_absorbed front)
  exact (if_neg other).trans (counting.untouched g free)

omit [DecidableEq E] in
theorem Counting.finished_countVisit (counting : Counting C entry s) (front : s.queue = top :: rest) {g : Nat}
    (absorbed : g ∈ s.absorbed) (free : g ∉ s.queue) :
    countVisit s.outVisitCount top g = (C.group g).successors.length := by
  have other : g ≠ top := fun same => free (by rw [same, front]; exact List.mem_cons_self)
  exact (if_neg other).trans (counting.finished g absorbed free)

omit [DecidableEq E] in
theorem Counting.counted_other (counting : Counting C entry s)
    (here : (C.group top).successors[s.outVisitCount top]? = some succ) {g : Nat} (live : C.Live g)
    (free : g ∉ s.absorbed) (noInput : (C.group g).hasInputTransition = false) (other : g ≠ succ) :
    s.inVisitCount g = (C.reachedFrom { s with outVisitCount := countVisit s.outVisitCount top } g).length := by
  rw [reachedFrom_other here other]
  exact counting.counted g live free noInput

omit [DecidableEq E] in
theorem Counting.fewer_other (counting : Counting C entry s)
    (here : (C.group top).successors[s.outVisitCount top]? = some succ) {g : Nat} (live : C.Live g)
    (free : g ∉ s.absorbed) (noInput : (C.group g).hasInputTransition = false)
    (some : (C.group g).predecessors ≠ []) (other : g ≠ succ) :
    (C.reachedFrom { s with outVisitCount := countVisit s.outVisitCount top } g).length <
      (C.group g).predecessors.length := by
  rw [reachedFrom_other here other]
  exact counting.fewer g live free noInput some

omit [DecidableEq E] in
theorem Counting.settled (counting : Counting C entry s) (front : s.queue = top :: rest)
    (here : (C.group top).successors[s.outVisitCount top]? = some succ)
    (settled : succ ∈ s.absorbed ∨ (C.group succ).hasInputTransition = true) :
    Counting C entry { s with outVisitCount := countVisit s.outVisitCount top } := by
  have other {g : Nat} (free : g ∉ s.absorbed) (noInput : (C.group g).hasInputTransition = false) : g ≠ succ := by
    rintro rfl
    rcases settled with absorbed | input
    · exact free absorbed
    · rw [noInput] at input
      cases input
  exact ⟨counting.queued, counting.onQueue, counting.nodup, fun _ => counting.within_countVisit here,
    fun _ => counting.untouched_countVisit front, fun _ => counting.finished_countVisit front,
    fun _ live free noInput => counting.counted_other here live free noInput (other free noInput),
    fun _ live free noInput some => counting.fewer_other here live free noInput some (other free noInput),
    counting.doomed, counting.nucleii⟩

omit [DecidableEq E] in
theorem Counting.await (counting : Counting C entry s) (front : s.queue = top :: rest)
    (here : (C.group top).successors[s.outVisitCount top]? = some succ)
    (reached : s.inVisitCount succ + 1 =
      (C.reachedFrom { s with outVisitCount := countVisit s.outVisitCount top } succ).length)
    (incomplete : s.inVisitCount succ + 1 ≠ (C.group succ).predecessors.length) :
    Counting C entry { s with
      outVisitCount := countVisit s.outVisitCount top
      inVisitCount := countVisit s.inVisitCount succ } := by
  refine ⟨counting.queued, counting.onQueue, counting.nodup, fun _ => counting.within_countVisit here,
    fun _ => counting.untouched_countVisit front, fun _ => counting.finished_countVisit front,
    fun g live free noInput => ?_, fun g live free noInput some => ?_, counting.doomed, counting.nucleii⟩
  · by_cases isSucc : g = succ
    · subst isSucc
      exact (if_pos rfl).trans reached
    · exact (if_neg isSucc).trans (counting.counted_other here live free noInput isSucc)
  · by_cases isSucc : g = succ
    · subst isSucc
      exact lt_of_le_of_ne (reachedFrom_length_le g) fun equal => incomplete (reached.trans equal)
    · exact counting.fewer_other here live free noInput some isSucc

omit [DecidableEq E] in
/-- A group that was reached from all its predecessors is doomed, as they are. -/
theorem Counting.doomed_of_complete (counting : Counting C entry s) (front : s.queue = top :: rest)
    (entryFirst : (C.group entry).predecessors = []) (live : C.Live succ) (isPred : top ∈ (C.group succ).predecessors)
    (noInput : (C.group succ).hasInputTransition = false)
    (complete : (C.reachedFrom { s with outVisitCount := countVisit s.outVisitCount top } succ).length =
      (C.group succ).predecessors.length) :
    (C.firing entry).Doomed succ := by
  have all : ∀ p ∈ (C.group succ).predecessors, p ∈ s.absorbed := by
    intro p isPred'
    have whole := List.filter_eq_self.mp ((List.filter_sublist).eq_of_length complete) p isPred'
    by_contra free
    simp [counting.untouched_countVisit front free] at whole
  refine FiringGraph.Doomed.starved live ?_ (List.ne_nil_of_mem isPred) fun p isPred' =>
    counting.doomed p (all p isPred')
  rintro (rfl | input)
  · exact List.ne_nil_of_mem isPred entryFirst
  · rw [noInput] at input
    cases input

omit [DecidableEq E] in
theorem Counting.absorb (counting : Counting C entry s) (front : s.queue = top :: rest)
    (here : (C.group top).successors[s.outVisitCount top]? = some succ) (doomed : (C.firing entry).Doomed succ) :
    Counting C entry { s with
      absorbed := insertPointer m.below succ s.absorbed
      onQueue := succ :: s.onQueue
      queue := succ :: s.queue
      outVisitCount := countVisit s.outVisitCount top
      inVisitCount := countVisit s.inVisitCount succ } := by
  have member_iff (g : Nat) : g ∈ insertPointer m.below succ s.absorbed ↔ g = succ ∨ g ∈ s.absorbed :=
    mem_insertPointer m.below
  have free {g : Nat} (outside : g ∉ insertPointer m.below succ s.absorbed) : g ≠ succ ∧ g ∉ s.absorbed := by
    rw [member_iff, not_or] at outside
    exact outside
  refine ⟨fun g member => ?_, fun g member => ?_, nodup_insertPointer m.below counting.nodup,
    fun _ => counting.within_countVisit here, fun _ outside => counting.untouched_countVisit front (free outside).2,
    fun g member outside => ?_, fun g live outside noInput => ?_, fun g live outside noInput some => ?_,
    fun g member => ?_, fun g live isDead => (member_iff g).mpr (Or.inr (counting.nucleii g live isDead))⟩
  · exact (member_iff g).mpr ((List.mem_cons.mp member).imp_right (counting.queued g))
  · exact (member_iff g).mpr ((List.mem_cons.mp member).imp_right (counting.onQueue g))
  · rw [List.mem_cons, not_or] at outside
    exact counting.finished_countVisit front (((member_iff g).mp member).resolve_left outside.1) outside.2
  · exact (if_neg (free outside).1).trans
      (counting.counted_other here live (free outside).2 noInput (free outside).1)
  · exact counting.fewer_other here live (free outside).2 noInput some (free outside).1
  · rcases (member_iff g).mp member with rfl | member
    · exact doomed
    · exact counting.doomed g member

end Depart

omit [DecidableEq E] in
theorem Counting.visit (wf : C.WellFormed) (sets : C.ListsSets) (entryFirst : (C.group entry).predecessors = [])
    (counting : Counting C entry s) {rest : List Nat} (front : s.queue = top :: rest)
    (here : (C.group top).successors[s.outVisitCount top]? = some succ) :
    Counting C entry (C.visitDead m { s with outVisitCount := countVisit s.outVisitCount top } succ) := by
  have liveTop : C.Live top := (counting.doomed top (counting.top_absorbed front)).live
  obtain ⟨liveSucc, isPred⟩ := wf.forward_closed.successors top succ liveTop (List.mem_of_getElem? here)
  have reached (free : succ ∉ s.absorbed) (noInput : (C.group succ).hasInputTransition = false) :
      s.inVisitCount succ + 1 =
        (C.reachedFrom { s with outVisitCount := countVisit s.outVisitCount top } succ).length := by
    rw [reachedFrom_succ wf sets liveTop here, counting.counted succ liveSucc free noInput]
  unfold visitDead
  split_ifs with isOnQueue isAbsorbed input complete
  · exact counting.settled front here (Or.inl (counting.onQueue succ isOnQueue))
  · exact counting.settled front here (Or.inl isAbsorbed)
  · exact counting.settled front here (Or.inr input)
  · have noInput : (C.group succ).hasInputTransition = false := Bool.eq_false_iff.mpr input
    have whole := (reached isAbsorbed noInput).symm.trans complete
    exact counting.absorb front here (counting.doomed_of_complete front entryFirst liveSucc isPred noInput whole)
  · have noInput : (C.group succ).hasInputTransition = false := Bool.eq_false_iff.mpr input
    exact counting.await front here (reached isAbsorbed noInput) complete

end Visit

omit [DecidableEq E] in
theorem Counting.pop {s : DeadSearch} (counting : Counting C entry s) {top : Nat} {rest : List Nat}
    (front : s.queue = top :: rest) (complete : s.outVisitCount top = (C.group top).successors.length) :
    Counting C entry { s with queue := rest, onQueue := erasePointer top s.onQueue } := by
  refine { counting with
    queued := fun g member => counting.queued g ?_
    onQueue := fun g member => counting.onQueue g (mem_erasePointer.mp member).1
    finished := fun g absorbed free => ?_
    counted := counting.counted
    fewer := counting.fewer }
  · rw [front]
    exact List.mem_cons_of_mem top member
  · by_cases isTop : g = top
    · rw [isTop]
      exact complete
    · refine counting.finished g absorbed fun member => ?_
      rw [front, List.mem_cons] at member
      exact member.elim isTop free

omit [DecidableEq E] in
theorem Counting.absorbed_iff (wf : C.WellFormed) {s : DeadSearch} (counting : Counting C entry s)
    (empty : s.queue = []) (g : Nat) : g ∈ s.absorbed ↔ (C.firing entry).Doomed g := by
  refine ⟨counting.doomed g, fun doomed => ?_⟩
  induction doomed with
  | dead live isDead => exact counting.nucleii _ live isDead
  | @starved g live noSource some _ ih =>
      by_contra free
      have noInput : (C.group g).hasInputTransition = false := Bool.eq_false_iff.mpr fun input => noSource (Or.inr input)
      have all : C.reachedFrom s g = (C.group g).predecessors := by
        refine List.filter_eq_self.mpr fun p isPred => decide_eq_true ?_
        rw [counting.finished p (ih p isPred) (by simp [empty]), List.take_length]
        exact (wf.forward_closed.predecessors p g live isPred).2
      have fewer := counting.fewer g live free noInput some
      rw [all] at fewer
      exact Nat.lt_irrefl _ fewer

/-- What is left to do: the arcs that were not gone along, the groups on the queue and those that
may still be put on it. -/
def leftToSearch (C : GroupGraph E) (s : DeadSearch) : Nat :=
  (C.cpelementGroups.map fun g => (C.group g).successors.length - s.outVisitCount g).sum + s.queue.length +
    (C.cpelementGroups.length - s.absorbed.length)

omit [DecidableEq E] in
theorem Counting.absorbed_length_le {s : DeadSearch} (counting : Counting C entry s) :
    s.absorbed.length ≤ C.cpelementGroups.length :=
  (counting.nodup.subperm fun g member => (counting.doomed g member).live).length_le

omit [DecidableEq E] in
/-- A visit absorbs one group and puts it on the queue, or leaves both alone. -/
theorem visitDead_lengths (s : DeadSearch) (succ : Nat) :
    (C.visitDead m s succ).outVisitCount = s.outVisitCount ∧
      ((C.visitDead m s succ).queue.length = s.queue.length ∧
          (C.visitDead m s succ).absorbed.length = s.absorbed.length ∨
        (C.visitDead m s succ).queue.length = s.queue.length + 1 ∧
          (C.visitDead m s succ).absorbed.length = s.absorbed.length + 1) := by
  unfold visitDead
  split_ifs with _ absorbed _ _
  · exact ⟨rfl, Or.inl ⟨rfl, rfl⟩⟩
  · exact ⟨rfl, Or.inl ⟨rfl, rfl⟩⟩
  · exact ⟨rfl, Or.inl ⟨rfl, rfl⟩⟩
  · refine ⟨rfl, Or.inr ⟨rfl, ?_⟩⟩
    show (insertPointer m.below succ s.absorbed).length = _
    rw [insertPointer, if_neg absorbed, List.orderedInsert_length]
  · exact ⟨rfl, Or.inl ⟨rfl, rfl⟩⟩

omit [DecidableEq E] in
theorem sum_countVisit_lt {count : Nat → Nat} {top : Nat} (live : C.Live top)
    (bound : count top < (C.group top).successors.length) :
    (C.cpelementGroups.map fun g => (C.group g).successors.length - countVisit count top g).sum <
      (C.cpelementGroups.map fun g => (C.group g).successors.length - count g).sum := by
  refine List.sum_lt_sum _ _ (fun g _ => ?_) ⟨top, live, ?_⟩
  · unfold countVisit
    split_ifs with isTop
    · rw [isTop]
      omega
    · exact Nat.le_refl _
  · unfold countVisit
    rw [if_pos rfl]
    omega

omit [DecidableEq E] in
theorem Counting.leftToSearch_lt {s : DeadSearch} {top succ : Nat}
    (visited : Counting C entry (C.visitDead m { s with outVisitCount := countVisit s.outVisitCount top } succ))
    (live : C.Live top) (bound : s.outVisitCount top < (C.group top).successors.length) :
    C.leftToSearch (C.visitDead m { s with outVisitCount := countVisit s.outVisitCount top } succ) <
      C.leftToSearch s := by
  have few := visited.absorbed_length_le
  have arcs := sum_countVisit_lt live bound
  obtain ⟨outs, lengths⟩ := visitDead_lengths (m := m) (C := C)
    { s with outVisitCount := countVisit s.outVisitCount top } succ
  unfold leftToSearch
  rw [outs]
  rcases lengths with ⟨queue, absorbed⟩ | ⟨queue, absorbed⟩
  · rw [queue, absorbed]
    dsimp only
    omega
  · rw [absorbed] at few
    rw [queue, absorbed]
    dsimp only at few ⊢
    omega

omit [DecidableEq E] in
theorem searchDead_total (wf : C.WellFormed) (sets : C.ListsSets) (entryFirst : (C.group entry).predecessors = [])
    (vectors : ∀ g, C.Live g → (C.group g).successorVector = (C.group g).successors) (fuel : Nat) (s : DeadSearch)
    (counting : Counting C entry s) (enough : C.leftToSearch s ≤ fuel) :
    ∃ absorbed, C.searchDead m fuel s = some absorbed ∧ absorbed.Nodup ∧
      ∀ g, g ∈ absorbed ↔ (C.firing entry).Doomed g := by
  induction fuel generalizing s with
  | zero =>
      have empty : s.queue = [] := by
        refine List.length_eq_zero_iff.mp ?_
        unfold leftToSearch at enough
        omega
      refine ⟨s.absorbed, ?_, counting.nodup, counting.absorbed_iff wf empty⟩
      rw [searchDead, if_pos empty]
  | succ fuel ih =>
      rw [searchDead]
      split
      · next front => exact ⟨s.absorbed, rfl, counting.nodup, counting.absorbed_iff wf front⟩
      · next top rest front =>
          have liveTop : C.Live top := (counting.doomed top (counting.top_absorbed front)).live
          by_cases complete : s.outVisitCount top = (C.group top).successors.length
          · rw [if_pos complete]
            refine ih _ (counting.pop front complete) ?_
            unfold leftToSearch at enough ⊢
            rw [front, List.length_cons] at enough
            dsimp only
            omega
          · rw [if_neg complete, vectors top liveTop]
            have bound : s.outVisitCount top < (C.group top).successors.length :=
              lt_of_le_of_ne (counting.within top liveTop) complete
            obtain ⟨succ, here⟩ : ∃ succ, (C.group top).successors[s.outVisitCount top]? = some succ :=
              ⟨_, List.getElem?_eq_getElem bound⟩
            rw [here]
            have visited := Counting.visit (m := m) wf sets entryFirst counting front here
            have less := visited.leftToSearch_lt liveTop bound
            exact ih _ visited (by omega)

omit [DecidableEq E] in
theorem Counting.start :
    let nucleii := insertPointers m.below [] (C.cpelementGroups.filter fun g => (C.group g).hasDeadTransition)
    Counting C entry ⟨nucleii.reverse, nucleii.reverse, fun _ => 0, fun _ => 0, nucleii⟩ := by
  intro nucleii
  have isNucleus (g : Nat) : g ∈ nucleii ↔ C.Live g ∧ (C.group g).hasDeadTransition = true := by
    simp [nucleii, Live]
  have unreached (g : Nat) :
      C.reachedFrom ⟨nucleii.reverse, nucleii.reverse, fun _ => 0, fun _ => 0, nucleii⟩ g = [] := by
    simp [reachedFrom]
  refine ⟨fun g => List.mem_reverse.mp, fun g => List.mem_reverse.mp, nodup_insertPointers m.below List.nodup_nil,
    fun _ _ => Nat.zero_le _, fun _ _ => rfl, fun g member free => absurd (List.mem_reverse.mpr member) free,
    fun g _ _ _ => ?_, fun g _ _ _ some => ?_, fun g member => ?_, fun g live isDead => (isNucleus g).mpr ⟨live, isDead⟩⟩
  · rw [unreached]
    rfl
  · rw [unreached]
    exact List.length_pos_of_ne_nil some
  · obtain ⟨live, isDead⟩ := (isNucleus g).mp member
    exact FiringGraph.Doomed.dead live isDead

end Search

section Eliminate
variable {entry : Nat}

omit [DecidableEq E] in
theorem firing_generateSuccessorVectors : C.generateSuccessorVectors.firing entry = C.firing entry := by
  have same (g : Nat) : (C.generateSuccessorVectors.group g).predecessors = (C.group g).predecessors ∧
      (C.generateSuccessorVectors.group g).hasInputTransition = (C.group g).hasInputTransition ∧
      (C.generateSuccessorVectors.group g).hasPlace = (C.group g).hasPlace ∧
      (C.generateSuccessorVectors.group g).hasDeadTransition = (C.group g).hasDeadTransition := by
    simp only [generateSuccessorVectors, apply_ite CPElementGroup.predecessors,
      apply_ite CPElementGroup.hasInputTransition, apply_ite CPElementGroup.hasPlace,
      apply_ite CPElementGroup.hasDeadTransition, ite_self, and_self]
  simp only [firing, same]
  rfl

theorem deleteGroup_bare {g : Nat} (h : Nat) : ((deleteGroup C g).group h).bare = (C.group h).bare := by
  refine (foldl_bare (fun C s h => modify_bare ?_ h) _ h _).trans (foldl_bare (fun C s h => modify_bare ?_ h) _ h _)
  · exact fun _ => rfl
  · exact fun _ => rfl

theorem deleteGroups_bare (groups : List Nat) (h : Nat) : ((C.deleteGroups groups).group h).bare = (C.group h).bare :=
  foldl_bare (fun _ _ h => deleteGroup_bare h) groups h C

theorem deleteGroups_removed (wf : C.WellFormed) {groups : List Nat} (nodup : groups.Nodup) :
    FiringGraph.Removed (C.firing entry) ((C.deleteGroups groups).firing entry) (fun g => g ∈ groups) := by
  have live (x : Nat) : (C.deleteGroups groups).Live x ↔ C.Live x ∧ x ∉ groups := by
    rw [Live, (deleteGroups_live groups C).1, List.mem_filter, decide_eq_true_iff]
    rfl
  have same (x : Nat) := CPElementGroup.SameDrive.of_bare (deleteGroups_bare (C := C) groups x)
  refine ⟨live, fun x stays p => ?_, fun x => ?_, fun x => ?_, fun x => ?_⟩
  · obtain ⟨wasLive, outside⟩ := (live x).mp stays
    refine ((deleteGroups_links groups C nodup x outside p).2.2.1).trans (and_congr_right fun isPred => ?_)
    exact not_congr (and_iff_left (wf.forward_closed.predecessors p x wasLive isPred).2)
  · show x = entry ∨ _ ↔ x = entry ∨ _
    rw [(same x).hasInputTransition]
  · show _ = true ↔ _ = true
    rw [(same x).hasPlace]
  · show _ = true ↔ _ = true
    rw [(same x).hasDeadTransition]

/-- `C'` is `C` without the groups that can never fire, and what is left fires as before. -/
structure EliminatesExactly (C C' : GroupGraph E) (entry : Nat) : Prop where
  deleted_never : ∀ g, C.Live g → ¬ C'.Live g → ¬ (C.firing entry).CanFire g
  never_deleted : ∀ g, C.Live g → ¬ (C.firing entry).CanFire g → ¬ C'.Live g
  behaviour : ∀ fired, (C'.firing entry).Fires fired ↔ (C.firing entry).Fires fired

/-- The elimination is exact when no group waits for one that never fires beside one that may, or in
a circle. -/
theorem eliminateDeadGroups_exact_iff (wf : C.WellFormed) (sets : C.ListsSets)
    (entryFirst : (C.group entry).predecessors = []) {fuel : Nat}
    (enough : (C.cpelementGroups.map fun g => (C.group g).successors.length).sum + C.cpelementGroups.length ≤ fuel) :
    ∃ R, eliminateDeadGroups m fuel (Chronicle.start C) = some R ∧
      (EliminatesExactly C R.current entry ↔ (C.firing entry).Starving) := by
  set G := C.generateSuccessorVectors with isVectored
  have wf' : G.WellFormed := generateSuccessorVectors_wellFormed.mpr wf
  have lists (g : Nat) : (G.group g).successors = (C.group g).successors ∧
      (G.group g).predecessors = (C.group g).predecessors := by
    simp only [isVectored, generateSuccessorVectors, apply_ite CPElementGroup.successors,
      apply_ite CPElementGroup.predecessors, ite_self, and_self]
  have sets' : G.ListsSets := fun g live => by
    rw [(lists g).1, (lists g).2]
    exact sets g live
  have vectors : ∀ g, G.Live g → (G.group g).successorVector = (G.group g).successors := by
    intro g live
    rw [(lists g).1, isVectored, generateSuccessorVectors]
    exact congrArg CPElementGroup.successorVector (if_pos live)
  have start := @Counting.start E m G entry
  obtain ⟨absorbed, run, nodup, isAbsorbed⟩ := searchDead_total (m := m) wf' sets'
    ((lists entry).2.trans entryFirst) vectors fuel _ start (by
      have few := start.absorbed_length_le
      simp only [leftToSearch, lists, List.length_reverse, Nat.sub_zero] at few ⊢
      have same : G.cpelementGroups = C.cpelementGroups := rfl
      rw [same] at few ⊢
      omega)
  refine ⟨(Chronicle.start C |>.revise G).record (.deleteGroups absorbed) (G.deleteGroups absorbed), ?_, ?_⟩
  · unfold eliminateDeadGroups
    exact Option.bind_eq_some_iff.mpr ⟨absorbed, run, rfl⟩
  · have sameFiring : G.firing entry = C.firing entry := firing_generateSuccessorVectors
    have removed : FiringGraph.Removed (G.firing entry) ((G.deleteGroups absorbed).firing entry) (fun g => g ∈ absorbed) :=
      deleteGroups_removed wf' nodup
    rw [sameFiring] at removed isAbsorbed
    have closed : ∀ g, C.Live g → ∀ p ∈ (C.group g).predecessors, C.Live p :=
      fun g live p isPred => (wf.forward_closed.predecessors p g live isPred).1
    have gone {g : Nat} (live : C.Live g) : ¬ (G.deleteGroups absorbed).Live g ↔ g ∈ absorbed := by
      rw [show (G.deleteGroups absorbed).Live g ↔ C.Live g ∧ g ∉ absorbed from removed.live g]
      tauto
    rw [← FiringGraph.doomed_iff_starving C.cpelementGroups (fun _ live => live) closed]
    constructor
    · intro exact_ g live never
      exact (isAbsorbed g).mp ((gone live).mp (exact_.never_deleted g live never))
    · intro all
      refine ⟨fun g live deleted => ((isAbsorbed g).mp ((gone live).mp deleted)).not_canFire,
        fun g live never => (gone live).mpr ((isAbsorbed g).mpr (all g live never)), ?_⟩
      refine removed.fires_iff (fun g live => ?_) closed
      exact ⟨fun member => ((isAbsorbed g).mp member).not_canFire, fun never => (isAbsorbed g).mpr (all g live never)⟩

end Eliminate

section Example

/-- The entry `0` leads to `2` and to the dead transition `1`, which `3` waits for. -/
def deadTail : GroupGraph Nat :=
  ofGroups 4 fun g =>
    if g = 0 then { successors := [1, 2], hasTransition := true, isFork := true }
    else if g = 1 then { predecessors := [0], successors := [3], hasTransition := true, hasDeadTransition := true }
    else if g = 2 then { predecessors := [0], hasTransition := true }
    else { predecessors := [1], hasTransition := true }

theorem deadTail_wellFormed : deadTail.WellFormed :=
  ofGroups_wellFormed (by decide) (by decide) (by decide)

theorem deadTail_starving : (deadTail.firing 0).Starving := by
  have live (g : Nat) : (deadTail.firing 0).live g ↔ g < 4 := List.mem_range
  have closed (g : Nat) (isLive : (deadTail.firing 0).live g) (p : Nat) (isPred : p ∈ (deadTail.firing 0).pred g) :
      (deadTail.firing 0).live p :=
    (deadTail_wellFormed.forward_closed.predecessors p g isLive isPred).1
  have entry : (deadTail.firing 0).CanFire 0 :=
    FiringGraph.Enabled.canFire FiringGraph.Fires.start ⟨(live 0).mpr (by decide), Bool.false_ne_true, Or.inl (Or.inl rfl)⟩
  have dead : (deadTail.firing 0).Doomed 1 := FiringGraph.Doomed.dead ((live 1).mpr (by decide)) rfl
  refine (FiringGraph.doomed_iff_starving (List.range 4) (fun _ isLive => isLive) closed).mp fun g isLive never => ?_
  have few : g = 0 ∨ g = 1 ∨ g = 2 ∨ g = 3 := by
    have := (live g).mp isLive
    omega
  rcases few with rfl | rfl | rfl | rfl
  · exact absurd entry never
  · exact dead
  · obtain ⟨fired, run, member⟩ := entry
    refine absurd (FiringGraph.Enabled.canFire run ⟨isLive, Bool.false_ne_true, Or.inr (Or.inr ⟨Bool.false_ne_true,
      List.cons_ne_nil 0 [], fun p isPred => ?_⟩)⟩) never
    exact List.mem_singleton.mp isPred ▸ member
  · exact FiringGraph.Doomed.starved isLive (by decide : ¬ ((3 : Nat) = 0 ∨ (deadTail.group 3).hasInputTransition = true))
      (List.cons_ne_nil 1 []) fun p isPred => List.mem_singleton.mp isPred ▸ dead

theorem eliminateDeadGroups_exact_deadTail :
    ∃ R, eliminateDeadGroups plainTransitions 7 (Chronicle.start deadTail) = some R ∧
      EliminatesExactly deadTail R.current 0 := by
  obtain ⟨R, run, exact_⟩ : ∃ R, eliminateDeadGroups plainTransitions 7 (Chronicle.start deadTail) = some R ∧
      (EliminatesExactly deadTail R.current 0 ↔ (deadTail.firing 0).Starving) :=
    eliminateDeadGroups_exact_iff deadTail_wellFormed
      (show ∀ g ∈ List.range 4, (deadTail.group g).successors.Nodup ∧ (deadTail.group g).predecessors.Nodup by decide)
      rfl (by decide)
  exact ⟨R, run, exact_.mpr deadTail_starving⟩

/-- The entry `0` leads to the dead transition `1` and to `2`, which join in `3`. -/
def deadJoin : GroupGraph Nat :=
  ofGroups 4 fun g =>
    if g = 0 then { successors := [1, 2], hasTransition := true, isFork := true }
    else if g = 1 then { predecessors := [0], successors := [3], hasTransition := true, hasDeadTransition := true }
    else if g = 2 then { predecessors := [0], successors := [3], hasTransition := true }
    else { predecessors := [1, 2], hasTransition := true, isJoin := true }

theorem deadJoin_wellFormed : deadJoin.WellFormed :=
  ofGroups_wellFormed (by decide) (by decide) (by decide)

/-- The join never fires, and is not deleted. -/
theorem deadJoin_not_exact :
    deadJoin.WellFormed ∧ ∃ R, eliminateDeadGroups plainTransitions 8 (Chronicle.start deadJoin) = some R ∧
      ¬ EliminatesExactly deadJoin R.current 0 := by
  have stays : ∃ R, eliminateDeadGroups plainTransitions 8 (Chronicle.start deadJoin) = some R ∧
      3 ∈ R.current.cpelementGroups := ⟨_, rfl, by decide⟩
  obtain ⟨R, run, live⟩ := stays
  have never : ¬ (deadJoin.firing 0).CanFire 3 := by
    intro can
    rcases can.enabled.2.2 with source | ⟨place, _⟩ | ⟨_, _, all⟩
    · revert source
      exact (by decide : ¬ ((3 : Nat) = 0 ∨ (deadJoin.group 3).hasInputTransition = true))
    · cases place
    · exact (all 1 (by decide : (1 : Nat) ∈ (deadJoin.group 3).predecessors)).enabled.2.1 rfl
  exact ⟨deadJoin_wellFormed, R, run,
    fun exact_ => exact_.never_deleted 3 (by decide : (3 : Nat) ∈ List.range 4) never live⟩

end Example

end GroupGraph

end Ahir.ControlPath
