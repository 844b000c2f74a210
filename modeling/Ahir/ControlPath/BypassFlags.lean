import Ahir.ControlPath.CPElementGroup

/-!
# Bypass flags

`Update_Group_Bypass_Flags` goes forward from the groups without predecessors and counts the groups
that are bypassed on the way.  A group is gone on from again when the count for it has risen.  The
set of the groups on the queue gets only those the traversal starts from.
-/

set_option autoImplicit false

namespace Ahir.ControlPath
open Ahir.Graph

def CPElementGroup.isTrueJoin {E : Type} (g : CPElementGroup E) : Bool :=
  (g.isJoin || g.isFork) &&
    if g.pipelineParent.isSome then
      decide (1 < g.predecessors.length) ||
        decide (0 < g.predecessors.length) && decide (0 < g.markedPredecessors.length)
    else decide (1 < g.predecessors.length)

structure BypassState where
  queue : List Nat
  onQueue : List Nat
  visited : List Nat
  distance : Nat → Nat
  bypass : Nat → Bool

/-- `succ` is a successor of the group on top. -/
def visitSuccessor (stride counter : Nat) (acc : BypassState × Bool) (succ : Nat) : BypassState × Bool :=
  if succ ∈ acc.1.onQueue then
    -- a cycle that ends at `succ`
    ({ acc.1 with distance := fun g => if g = succ then stride else acc.1.distance g }, acc.2)
  else if succ ∈ acc.1.visited then
    if acc.1.bypass succ && decide (acc.1.distance succ < counter) then
      ({ acc.1 with
        distance := fun g => if g = succ then counter else acc.1.distance g
        queue := succ :: acc.1.queue }, false)
    else acc
  else
    ({ acc.1 with
      distance := fun g => if g = succ then counter else acc.1.distance g
      bypass := fun g => if g = succ then true else acc.1.bypass g
      queue := succ :: acc.1.queue }, false)

/-- `succ` is gone on from, with the count `counter`. -/
def BypassState.push (s : BypassState) (counter succ : Nat) : BypassState :=
  { s with
    distance := fun g => if g = succ then counter else s.distance g
    bypass := fun g => if g = succ then true else s.bypass g
    queue := succ :: s.queue }

namespace GroupGraph
variable {E : Type} (C : GroupGraph E) (stride : Nat)

def stopsBypass (s : BypassState) (top : Nat) : Bool :=
  (C.group top).hasInputTransition || decide (stride ≤ s.distance top) && (C.group top).isTrueJoin

def bypassCounter (s : BypassState) (top : Nat) : Nat :=
  if C.stopsBypass stride s top then 1 else s.distance top + 1

def bypassTurn (s : BypassState) (top : Nat) : BypassState :=
  let counter := C.bypassCounter stride s top
  let s := { s with
    visited := if top ∈ s.visited then s.visited else top :: s.visited
    bypass := fun g => if g = top then !C.stopsBypass stride s top else s.bypass g }
  let (s, allNeighboursVisited) := (C.group top).successors.foldl (visitSuccessor stride counter) (s, true)
  if allNeighboursVisited then { s with queue := s.queue.tail, onQueue := erasePointer top s.onQueue } else s

def bypassLoop : Nat → BypassState → Option BypassState
  | 0, s => if s.queue = [] then some s else none
  | fuel + 1, s =>
      match s.queue with
      | [] => some s
      | top :: _ => bypassLoop fuel (C.bypassTurn stride s top)

def bypassRoots : List Nat := C.cpelementGroups.filter fun g => (C.group g).predecessors.isEmpty

def bypassStart : BypassState where
  queue := C.bypassRoots
  onQueue := C.bypassRoots
  visited := []
  distance := fun g => if g ∈ C.bypassRoots then stride else 0
  bypass := fun g => decide (g ∈ C.bypassRoots)

/-- `Update_Group_Bypass_Flags`, on groups whose flags are clear. -/
def updateGroupBypassFlags (minClockPeriod : Bool) (fuel : Nat) : Option (Nat → Bool) :=
  if minClockPeriod then (C.bypassLoop stride fuel (C.bypassStart stride)).map fun s => s.bypass
  else some fun g => decide (g ∈ C.cpelementGroups)

variable {C stride}

section Turn
variable {s : BypassState} {top : Nat}

/-- `g` is put on the queue when it is a successor of the group on top. -/
def raised (s : BypassState) (counter g : Nat) : Bool :=
  decide (g ∉ s.visited) || s.bypass g && decide (s.distance g < counter)

theorem visitSuccessor_raised {counter succ : Nat} (free : succ ∉ s.onQueue) (isRaised : raised s counter succ = true)
    (all : Bool) : visitSuccessor stride counter (s, all) succ = (s.push counter succ, false) := by
  unfold visitSuccessor
  rw [if_neg free]
  by_cases seen : succ ∈ s.visited
  · have both : (s.bypass succ && decide (s.distance succ < counter)) = true := by
      simpa [raised, seen] using isRaised
    have flagged : s.bypass succ = true := (Bool.and_eq_true_iff.mp both).1
    have same : (fun g => if g = succ then true else s.bypass g) = s.bypass := by
      funext g
      split_ifs with isSucc
      · rw [isSucc, flagged]
      · rfl
    rw [if_pos seen, if_pos both, BypassState.push, same]
  · rw [if_neg seen]
    rfl

theorem visitSuccessor_not_raised {counter succ : Nat} (free : succ ∉ s.onQueue)
    (isRaised : ¬ raised s counter succ = true) (all : Bool) :
    visitSuccessor stride counter (s, all) succ = (s, all) := by
  simp only [raised, Bool.or_eq_true, decide_eq_true_eq, not_or, not_not] at isRaised
  unfold visitSuccessor
  rw [if_neg free, if_pos isRaised.1, if_neg isRaised.2]

theorem raised_push {counter succ g : Nat} (other : g ≠ succ) :
    raised (s.push counter succ) counter g = raised s counter g := by
  have distance : (s.push counter succ).distance g = s.distance g := if_neg other
  have bypass : (s.push counter succ).bypass g = s.bypass g := if_neg other
  rw [raised, distance, bypass]
  rfl

theorem visitSuccessors {counter : Nat} {succs : List Nat} (nodup : succs.Nodup)
    (apart : ∀ g ∈ succs, g ∉ s.onQueue) (all : Bool) :
    succs.foldl (visitSuccessor stride counter) (s, all) =
      ({ s with
        distance := fun g => if g ∈ succs ∧ raised s counter g = true then counter else s.distance g
        bypass := fun g => if g ∈ succs ∧ raised s counter g = true then true else s.bypass g
        queue := (succs.filter (raised s counter)).reverse ++ s.queue },
      all && (succs.filter (raised s counter)).isEmpty) := by
  induction succs generalizing s all with
  | nil => simp
  | cons succ rest ih =>
      obtain ⟨fresh, nodup⟩ := List.nodup_cons.mp nodup
      have free : succ ∉ s.onQueue := apart succ List.mem_cons_self
      have apart' : ∀ g ∈ rest, g ∉ s.onQueue := fun g member => apart g (List.mem_cons_of_mem succ member)
      have same {g : Nat} (member : g ∈ rest) : raised (s.push counter succ) counter g = raised s counter g :=
        raised_push fun isSucc => fresh (isSucc ▸ member)
      rw [List.foldl_cons]
      by_cases isRaised : raised s counter succ = true
      · -- a field that is set at `succ` first and at the later ones then
        have merged {α : Type} {g : Nat} (new old : α) :
            (if g ∈ rest ∧ raised (s.push counter succ) counter g = true then new
              else if g = succ then new else old) =
              if g ∈ succ :: rest ∧ raised s counter g = true then new else old := by
          by_cases isSucc : g = succ
          · subst isSucc
            simp [isRaised]
          · by_cases member : g ∈ rest
            · simp only [isSucc, member, true_and, if_false, List.mem_cons, false_or]
              rw [same member]
            · simp [isSucc, member]
        rw [visitSuccessor_raised free isRaised, @ih (s.push counter succ) nodup apart' false,
          List.filter_congr fun g member => same member, List.filter_cons_of_pos isRaised]
        refine Prod.ext ?_ (by simp)
        simp only [BypassState.push, BypassState.mk.injEq, List.reverse_cons, List.append_assoc, List.singleton_append,
          true_and]
        exact ⟨funext fun g => merged counter (s.distance g), funext fun g => merged true (s.bypass g)⟩
      · have drop (g : Nat) : g ∈ succ :: rest ∧ raised s counter g = true ↔ g ∈ rest ∧ raised s counter g = true := by
          refine and_congr_left fun holds => ?_
          rw [List.mem_cons, or_iff_right]
          rintro rfl
          exact isRaised holds
        rw [visitSuccessor_not_raised free isRaised, ih nodup apart', List.filter_cons_of_neg isRaised]
        simp only [drop]

def entered (C : GroupGraph E) (stride : Nat) (s : BypassState) (top : Nat) : BypassState :=
  { s with
    visited := if top ∈ s.visited then s.visited else top :: s.visited
    bypass := fun g => if g = top then !C.stopsBypass stride s top else s.bypass g }

/-- The successors that the turn of `top` puts on the queue. -/
def pushes (C : GroupGraph E) (stride : Nat) (s : BypassState) (top : Nat) : List Nat :=
  (C.group top).successors.filter (raised (C.entered stride s top) (C.bypassCounter stride s top))

structure Turned (C : GroupGraph E) (stride : Nat) (s : BypassState) (top : Nat) (s' : BypassState) : Prop where
  visited : ∀ g, g ∈ s'.visited ↔ g = top ∨ g ∈ s.visited
  distance : ∀ g, s'.distance g = if g ∈ C.pushes stride s top then C.bypassCounter stride s top else s.distance g
  bypass : ∀ g, s'.bypass g = if g ∈ C.pushes stride s top then true
    else if g = top then !C.stopsBypass stride s top else s.bypass g
  onQueue : ∀ g ∈ s'.onQueue, g ∈ s.onQueue
  queue : C.pushes stride s top = [] ∧ s'.queue = s.queue.tail ∨
    C.pushes stride s top ≠ [] ∧ s'.queue = (C.pushes stride s top).reverse ++ s.queue

theorem mem_entered {g : Nat} : g ∈ (C.entered stride s top).visited ↔ g = top ∨ g ∈ s.visited := by
  unfold entered
  split_ifs with seen
  · exact ⟨Or.inr, fun either => either.elim (fun same => same ▸ seen) id⟩
  · exact List.mem_cons

theorem bypassTurn_spec (nodup : (C.group top).successors.Nodup)
    (apart : ∀ g ∈ (C.group top).successors, g ∉ s.onQueue) : Turned C stride s top (C.bypassTurn stride s top) := by
  have looked := @visitSuccessors stride (C.entered stride s top) (C.bypassCounter stride s top) _ nodup apart true
  have member (g : Nat) : g ∈ (C.group top).successors ∧
      raised (C.entered stride s top) (C.bypassCounter stride s top) g = true ↔ g ∈ C.pushes stride s top :=
    List.mem_filter.symm
  simp only [member, Bool.true_and] at looked
  have turn : C.bypassTurn stride s top =
      if (C.pushes stride s top).isEmpty then
        { C.entered stride s top with
          distance := fun g => if g ∈ C.pushes stride s top then C.bypassCounter stride s top else s.distance g
          bypass := fun g => if g ∈ C.pushes stride s top then true else (C.entered stride s top).bypass g
          queue := ((C.pushes stride s top).reverse ++ s.queue).tail
          onQueue := erasePointer top s.onQueue }
      else
        { C.entered stride s top with
          distance := fun g => if g ∈ C.pushes stride s top then C.bypassCounter stride s top else s.distance g
          bypass := fun g => if g ∈ C.pushes stride s top then true else (C.entered stride s top).bypass g
          queue := (C.pushes stride s top).reverse ++ s.queue } := by
    unfold bypassTurn
    show (match (C.group top).successors.foldl (visitSuccessor stride (C.bypassCounter stride s top))
      (C.entered stride s top, true) with
      | (s', all) =>
          if all then { s' with queue := s'.queue.tail, onQueue := erasePointer top s'.onQueue } else s') = _
    rw [looked]
    rfl
  rw [turn]
  split_ifs with quiet
  · have none := List.isEmpty_iff.mp quiet
    refine ⟨fun g => @mem_entered E C stride s top g, fun g => rfl, fun g => rfl, fun g inside => (mem_erasePointer.mp inside).1,
      Or.inl ⟨none, ?_⟩⟩
    rw [none]
    rfl
  · exact ⟨fun g => @mem_entered E C stride s top g, fun g => rfl, fun g => rfl, fun g => id,
      Or.inr ⟨fun none => quiet (List.isEmpty_iff.mpr none), rfl⟩⟩

theorem mem_pushes {g : Nat} : g ∈ C.pushes stride s top ↔ g ∈ (C.group top).successors ∧
    (¬ (g = top ∨ g ∈ s.visited) ∨ (C.entered stride s top).bypass g = true ∧
      s.distance g < C.bypassCounter stride s top) := by
  rw [pushes, List.mem_filter, raised, Bool.or_eq_true, Bool.and_eq_true, decide_eq_true_iff, decide_eq_true_iff,
    mem_entered]
  rfl

end Turn

section Sweep
variable {s : BypassState} {top : Nat}

def FromRoot (C : GroupGraph E) (g : Nat) : Prop :=
  ∃ r, C.Live r ∧ (C.group r).predecessors = [] ∧ Relation.ReflTransGen (fun a b => b ∈ (C.group a).successors) r g

theorem FromRoot.live (wf : C.WellFormed) {g : Nat} (reached : C.FromRoot g) : C.Live g := by
  obtain ⟨r, live, _, path⟩ := reached
  induction path with
  | refl => exact live
  | tail _ arc ih => exact (wf.forward_closed.successors _ _ ih arc).1

theorem FromRoot.tail {g h : Nat} (reached : C.FromRoot g) (arc : h ∈ (C.group g).successors) : C.FromRoot h := by
  obtain ⟨r, live, first, path⟩ := reached
  exact ⟨r, live, first, path.tail arc⟩

/-- What the traversal keeps; a group on the queue may still have to be gone on from. -/
structure Sweeping (C : GroupGraph E) (stride : Nat) (s : BypassState) : Prop where
  roots_onQueue : ∀ g ∈ s.onQueue, (C.group g).predecessors = []
  reached : ∀ g, g ∈ s.visited ∨ g ∈ s.queue → C.FromRoot g
  counted : ∀ g, g ∈ s.visited ∨ g ∈ s.queue →
    (C.group g).predecessors = [] ∧ s.distance g = stride ∨ 1 ≤ s.distance g
  flagged : ∀ g, s.bypass g = true → g ∈ s.visited ∨ g ∈ s.queue
  lowered : ∀ g ∈ s.visited, s.bypass g = false → C.stopsBypass stride s g = true
  settled : ∀ g ∈ s.visited, g ∉ s.queue → s.bypass g = !C.stopsBypass stride s g
  passed : ∀ u ∈ s.visited, u ∉ s.queue → ∀ w ∈ (C.group u).successors,
    w ∈ s.visited ∧ (s.bypass w = false ∨ C.bypassCounter stride s u ≤ s.distance w)
  started : ∀ r, C.Live r → (C.group r).predecessors = [] → r ∈ s.visited ∨ r ∈ s.queue

theorem stopsBypass_congr {s' : BypassState} {g : Nat} (same : s'.distance g = s.distance g) :
    C.stopsBypass stride s' g = C.stopsBypass stride s g := by
  rw [stopsBypass, stopsBypass, same]

theorem bypassCounter_congr {s' : BypassState} {g : Nat} (same : s'.distance g = s.distance g) :
    C.bypassCounter stride s' g = C.bypassCounter stride s g := by
  rw [bypassCounter, bypassCounter, stopsBypass_congr same, same]

theorem bypassCounter_pos (g : Nat) : 1 ≤ C.bypassCounter stride s g := by
  unfold bypassCounter
  split_ifs
  · exact Nat.le_refl 1
  · exact Nat.succ_le_succ (Nat.zero_le _)

theorem Sweeping.apart (wf : C.WellFormed) (sweeping : Sweeping C stride s) {rest : List Nat}
    (front : s.queue = top :: rest) : ∀ g ∈ (C.group top).successors, g ∉ s.onQueue := by
  intro g arc onQueue
  have live := (sweeping.reached top (Or.inr (by simp [front]))).live wf
  have isPred := (wf.forward_closed.successors top g live arc).2
  exact List.ne_nil_of_mem isPred (sweeping.roots_onQueue g onQueue)

section Turned
variable {s' : BypassState}

theorem Turned.kept (turned : Turned C stride s top s') {rest : List Nat} (front : s.queue = top :: rest) {g : Nat}
    (member : g ∈ s.queue) : g ∈ s'.visited ∨ g ∈ s'.queue := by
  rcases turned.queue with ⟨_, queue⟩ | ⟨_, queue⟩
  · rw [front] at member queue
    rcases List.mem_cons.mp member with isTop | member
    · exact Or.inl ((turned.visited g).mpr (Or.inl isTop))
    · exact Or.inr (queue ▸ member)
  · exact Or.inr (queue ▸ List.mem_append_right _ member)

theorem Turned.known (turned : Turned C stride s top s') {rest : List Nat} (front : s.queue = top :: rest) {g : Nat}
    (member : g ∈ s'.visited ∨ g ∈ s'.queue) : g ∈ C.pushes stride s top ∨ g ∈ s.visited ∨ g ∈ s.queue := by
  rcases member with seen | member
  · rcases (turned.visited g).mp seen with rfl | seen
    · exact Or.inr (Or.inr (by simp [front]))
    · exact Or.inr (Or.inl seen)
  · rcases turned.queue with ⟨_, queue⟩ | ⟨_, queue⟩
    · exact Or.inr (Or.inr (List.mem_of_mem_tail (queue ▸ member)))
    · rw [queue, List.mem_append, List.mem_reverse] at member
      exact member.imp_right Or.inr

theorem Turned.pushed (turned : Turned C stride s top s') {g : Nat} (member : g ∈ C.pushes stride s top) :
    g ∈ s'.queue := by
  rcases turned.queue with ⟨none, _⟩ | ⟨_, queue⟩
  · rw [none] at member
    cases member
  · rw [queue]
    exact List.mem_append_left _ (List.mem_reverse.mpr member)

/-- What is neither on top nor on the queue afterwards was not there before. -/
theorem Turned.off (turned : Turned C stride s top s') {rest : List Nat} (front : s.queue = top :: rest) {g : Nat}
    (other : g ≠ top) (free : g ∉ s'.queue) : g ∉ s.queue := by
  intro member
  rcases turned.queue with ⟨_, queue⟩ | ⟨_, queue⟩
  · rw [front] at member queue
    exact free (queue ▸ (List.mem_cons.mp member).resolve_left other)
  · exact free (queue ▸ List.mem_append_right _ member)

theorem Turned.distance_kept (turned : Turned C stride s top s') {g : Nat} (free : g ∉ C.pushes stride s top) :
    s'.distance g = s.distance g := by
  rw [turned.distance, if_neg free]

/-- The group on top leaves the queue when nothing is put on it. -/
theorem Turned.passed_top (turned : Turned C stride s top s') {rest : List Nat} (front : s.queue = top :: rest)
    (free : top ∉ s'.queue) {w : Nat} (arc : w ∈ (C.group top).successors) :
    w ∈ s'.visited ∧ (s'.bypass w = false ∨ C.bypassCounter stride s top ≤ s'.distance w) := by
  have none : C.pushes stride s top = [] := by
    rcases turned.queue with ⟨none, _⟩ | ⟨_, queue⟩
    · exact none
    · refine absurd ?_ free
      rw [queue, front]
      simp
  have free' : w ∉ C.pushes stride s top := none ▸ List.not_mem_nil
  obtain ⟨seenW, quiet⟩ := not_or.mp fun raised => free' (mem_pushes.mpr ⟨arc, raised⟩)
  refine ⟨(turned.visited w).mpr (not_not.mp seenW), ?_⟩
  rw [turned.distance_kept free', turned.bypass, if_neg free']
  cases isBypassed : (C.entered stride s top).bypass w with
  | true => exact Or.inr (Nat.not_lt.mp fun less => quiet ⟨isBypassed, less⟩)
  | false => exact Or.inl isBypassed

/-- A successor that was visited gets no lower count and no flag it did not have. -/
theorem Turned.passed_other (turned : Turned C stride s top s')
    (lowered : ∀ g ∈ s.visited, s.bypass g = false → C.stopsBypass stride s g = true) {w count : Nat}
    (seen : w ∈ s.visited) (before : s.bypass w = false ∨ count ≤ s.distance w) :
    s'.bypass w = false ∨ count ≤ s'.distance w := by
  have stays (isClear : s.bypass w = false) : (C.entered stride s top).bypass w = false := by
    show (if w = top then !C.stopsBypass stride s top else s.bypass w) = false
    split_ifs with same
    · rw [← same, lowered w seen isClear]
      rfl
    · exact isClear
  by_cases isPushed : w ∈ C.pushes stride s top
  · obtain ⟨_, unseen | ⟨isBypassed, less⟩⟩ := mem_pushes.mp isPushed
    · exact absurd (Or.inr seen) unseen
    · rcases before with isClear | before
      · rw [stays isClear] at isBypassed
        cases isBypassed
      · rw [turned.distance, if_pos isPushed]
        exact Or.inr (before.trans less.le)
  · rw [turned.distance_kept isPushed, turned.bypass, if_neg isPushed]
    exact before.imp_left stays

end Turned

theorem Sweeping.turn (sweeping : Sweeping C stride s) {rest : List Nat} (front : s.queue = top :: rest)
    {s' : BypassState} (turned : Turned C stride s top s') : Sweeping C stride s' := by
  have topKnown : top ∈ s.visited ∨ top ∈ s.queue := Or.inr (by simp [front])
  have stillKnown {g : Nat} (known : g ∈ s.visited ∨ g ∈ s.queue) : g ∈ s'.visited ∨ g ∈ s'.queue :=
    known.elim (fun seen => Or.inl ((turned.visited g).mpr (Or.inr seen))) (turned.kept front)
  refine ⟨fun g member => sweeping.roots_onQueue g (turned.onQueue g member), fun g member => ?_, fun g member => ?_,
    fun g isBypassed => ?_, fun g seen isClear => ?_, fun g seen free => ?_, fun u seen free w arc => ?_,
    fun r live first => stillKnown (sweeping.started r live first)⟩
  · rcases turned.known front member with isPushed | before
    · exact (sweeping.reached top topKnown).tail (mem_pushes.mp isPushed).1
    · exact sweeping.reached g before
  · by_cases isPushed : g ∈ C.pushes stride s top
    · rw [turned.distance, if_pos isPushed]
      exact Or.inr (bypassCounter_pos top)
    · rw [turned.distance_kept isPushed]
      exact sweeping.counted g ((turned.known front member).resolve_left isPushed)
  · by_cases isPushed : g ∈ C.pushes stride s top
    · exact Or.inr (turned.pushed isPushed)
    · rw [turned.bypass, if_neg isPushed] at isBypassed
      by_cases isTop : g = top
      · exact Or.inl ((turned.visited g).mpr (Or.inl isTop))
      · rw [if_neg isTop] at isBypassed
        exact stillKnown (sweeping.flagged g isBypassed)
  · have isKept : g ∉ C.pushes stride s top := fun isPushed => by
      rw [turned.bypass, if_pos isPushed] at isClear
      cases isClear
    rw [turned.bypass, if_neg isKept] at isClear
    rw [stopsBypass_congr (turned.distance_kept isKept)]
    by_cases isTop : g = top
    · subst isTop
      rw [if_pos rfl] at isClear
      simpa using isClear
    · rw [if_neg isTop] at isClear
      exact sweeping.lowered g (((turned.visited g).mp seen).resolve_left isTop) isClear
  · have isKept : g ∉ C.pushes stride s top := fun isPushed => free (turned.pushed isPushed)
    rw [turned.bypass, if_neg isKept, stopsBypass_congr (turned.distance_kept isKept)]
    split_ifs with isTop
    · rw [isTop]
    · exact sweeping.settled g (((turned.visited g).mp seen).resolve_left isTop) (turned.off front isTop free)
  · have isKept : u ∉ C.pushes stride s top := fun isPushed => free (turned.pushed isPushed)
    rw [bypassCounter_congr (turned.distance_kept isKept)]
    by_cases isTop : u = top
    · subst isTop
      exact turned.passed_top front free arc
    · obtain ⟨seenW, before⟩ :=
        sweeping.passed u (((turned.visited u).mp seen).resolve_left isTop) (turned.off front isTop free) w arc
      exact ⟨(turned.visited w).mpr (Or.inr seenW), turned.passed_other sweeping.lowered seenW before⟩

theorem mem_bypassRoots {g : Nat} : g ∈ C.bypassRoots ↔ C.Live g ∧ (C.group g).predecessors = [] := by
  rw [bypassRoots, List.mem_filter, List.isEmpty_iff]
  rfl

theorem Sweeping.start : Sweeping C stride (C.bypassStart stride) := by
  have isRoot {g : Nat} (member : g ∈ (C.bypassStart stride).visited ∨ g ∈ (C.bypassStart stride).queue) :
      g ∈ C.bypassRoots := member.resolve_left List.not_mem_nil
  refine ⟨fun g member => (mem_bypassRoots.mp member).2, fun g member => ?_, fun g member => ?_, fun g isBypassed => ?_,
    fun g seen => absurd seen List.not_mem_nil, fun g seen => absurd seen List.not_mem_nil,
    fun u seen => absurd seen List.not_mem_nil, fun r live first => Or.inr (mem_bypassRoots.mpr ⟨live, first⟩)⟩
  · obtain ⟨live, first⟩ := mem_bypassRoots.mp (isRoot member)
    exact ⟨g, live, first, Relation.ReflTransGen.refl⟩
  · exact Or.inl ⟨(mem_bypassRoots.mp (isRoot member)).2, if_pos (isRoot member)⟩
  · exact Or.inr (of_decide_eq_true isBypassed)

end Sweep

end GroupGraph

end Ahir.ControlPath
