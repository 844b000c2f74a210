import Ahir.Graph.TopologicalSort
import Ahir.ControlPath.DeadGroups
import Ahir.ControlPath.BypassFlags

/-!
# Bypassed loops

A loop of groups that neither stop the bypass as input transitions nor as true joins is gone round
for ever, since the count rises with each round.  When the traversal ends, the counts rise along the
arcs between bypassed groups, and a bypassed join is reached within the stride.
-/

set_option autoImplicit false

namespace Ahir.ControlPath
open Ahir.Graph

namespace GroupGraph
variable {E : Type} {C : GroupGraph E} {stride : Nat}

def Unstopped (C : GroupGraph E) (g : Nat) : Prop :=
  (C.group g).hasInputTransition = false ∧ (C.group g).isTrueJoin = false

/-- Each directed cycle that can be reached has an input transition or a true join. -/
def LoopsStop (C : GroupGraph E) : Prop :=
  ∀ x, ¬ Relation.TransGen (fun a b => C.FromRoot a ∧ C.Unstopped a ∧ b ∈ (C.group a).successors) x x

/-- No directed cycle is all bypassed, and no such path to a true join has more groups than the stride. -/
structure BypassesSafely (C : GroupGraph E) (stride : Nat) (bypass : Nat → Bool) : Prop where
  noLoop : ∀ x, ¬ Relation.TransGen
    (fun a b => b ∈ (C.group a).successors ∧ bypass a = true ∧ bypass b = true) x x
  withinStride : ∀ path : List Nat, path.IsChain (fun a b => b ∈ (C.group a).successors) →
    (∀ g ∈ path, bypass g = true) → ∀ last ∈ path.getLast?, (C.group last).isTrueJoin = true → path.length ≤ stride

section Ending
variable {s : BypassState}

theorem bypassLoop_sweeping (wf : C.WellFormed) (sets : C.ListsSets) (fuel : Nat) {s' : BypassState}
    (sweeping : Sweeping C stride s) (run : C.bypassLoop stride fuel s = some s') :
    Sweeping C stride s' ∧ s'.queue = [] := by
  induction fuel generalizing s with
  | zero =>
      rw [bypassLoop] at run
      split_ifs at run with empty
      obtain rfl := Option.some.inj run
      exact ⟨sweeping, empty⟩
  | succ fuel ih =>
      rw [bypassLoop] at run
      split at run
      · next empty =>
          obtain rfl := Option.some.inj run
          exact ⟨sweeping, empty⟩
      · next top rest front =>
          have live := (sweeping.reached top (Or.inr (by simp [front]))).live wf
          exact ih (sweeping.turn front (bypassTurn_spec (sets top live).1 (sweeping.apart wf front))) run

theorem Sweeping.visited_of_fromRoot (sweeping : Sweeping C stride s) (empty : s.queue = []) {g : Nat}
    (reached : C.FromRoot g) : g ∈ s.visited := by
  have off (g : Nat) : g ∉ s.queue := empty ▸ List.not_mem_nil
  obtain ⟨r, live, first, path⟩ := reached
  induction path with
  | refl => exact (sweeping.started r live first).resolve_right (off r)
  | tail _ arc ih => exact (sweeping.passed _ ih (off _) _ arc).1

/-- In the end the count rises from a bypassed group to a bypassed successor. -/
theorem Sweeping.distance_lt (sweeping : Sweeping C stride s) (empty : s.queue = []) {a b : Nat}
    (arc : b ∈ (C.group a).successors) (isBypassed : s.bypass a = true) (isBypassed' : s.bypass b = true) :
    s.distance a < s.distance b := by
  have off (g : Nat) : g ∉ s.queue := empty ▸ List.not_mem_nil
  have seen := (sweeping.flagged a isBypassed).resolve_right (off a)
  have goesOn : C.stopsBypass stride s a = false := by
    have := sweeping.settled a seen (off a)
    rw [isBypassed] at this
    simpa using this.symm
  rcases (sweeping.passed a seen (off a) b arc).2 with isClear | before
  · rw [isBypassed'] at isClear
    cases isClear
  · rw [bypassCounter, goesOn] at before
    exact before

theorem Sweeping.distance_path (sweeping : Sweeping C stride s) (empty : s.queue = []) {path : List Nat} {first last : Nat}
    (chain : (first :: path).IsChain fun a b => b ∈ (C.group a).successors)
    (bypassed : ∀ g ∈ first :: path, s.bypass g = true) (ends : last ∈ (first :: path).getLast?) :
    s.distance first + path.length ≤ s.distance last := by
  induction path generalizing first with
  | nil =>
      obtain rfl : first = last := by simpa using ends
      exact Nat.le_refl _
  | cons second rest ih =>
      obtain ⟨arc, chain⟩ := List.isChain_cons_cons.mp chain
      have later := ih chain (fun g member => bypassed g (List.mem_cons_of_mem first member)) (by simpa using ends)
      have less := sweeping.distance_lt empty arc (bypassed first List.mem_cons_self) (bypassed second (by simp))
      rw [List.length_cons]
      omega

theorem Sweeping.safe (sweeping : Sweeping C stride s) (empty : s.queue = []) : BypassesSafely C stride s.bypass := by
  have off (g : Nat) : g ∉ s.queue := empty ▸ List.not_mem_nil
  refine ⟨fun x around => ?_, fun path chain bypassed last ends join => ?_⟩
  · exact acyclic_of_rising s.distance (fun _ _ arc => sweeping.distance_lt empty arc.1 arc.2.1 arc.2.2) x around
  · cases path with
    | nil => cases ends
    | cons first rest =>
        have along := sweeping.distance_path empty chain bypassed ends
        have lastBypassed := bypassed last (List.mem_of_getLast? ends)
        have seen := (sweeping.flagged last lastBypassed).resolve_right (off last)
        have goesOn := sweeping.settled last seen (off last)
        rw [lastBypassed] at goesOn
        have within : s.distance last < stride := by
          by_contra far
          rw [stopsBypass, join, decide_eq_true (Nat.not_lt.mp far)] at goesOn
          simp at goesOn
        have firstSeen := sweeping.flagged first (bypassed first List.mem_cons_self)
        rw [List.length_cons]
        rcases sweeping.counted first firstSeen with ⟨_, isRoot⟩ | some
        · omega
        · omega

theorem Sweeping.loopsStop (sweeping : Sweeping C stride s) (empty : s.queue = []) : C.LoopsStop := by
  have off (g : Nat) : g ∉ s.queue := empty ▸ List.not_mem_nil
  intro x around
  have bypassed {a : Nat} (reached : C.FromRoot a) (unstopped : C.Unstopped a) : s.bypass a = true := by
    have seen := sweeping.visited_of_fromRoot empty reached
    rw [sweeping.settled a seen (off a), stopsBypass, unstopped.1, unstopped.2]
    simp
  have rises (y : Nat) (isBypassed : s.bypass y = true) (way : Relation.TransGen
      (fun a b => C.FromRoot a ∧ C.Unstopped a ∧ b ∈ (C.group a).successors) x y) :
      s.distance x < s.distance y := by
    induction way with
    | single arc => exact sweeping.distance_lt empty arc.2.2 (bypassed arc.1 arc.2.1) isBypassed
    | tail _ arc ih =>
        have before := bypassed arc.1 arc.2.1
        exact (ih before).trans (sweeping.distance_lt empty arc.2.2 before isBypassed)
  obtain ⟨_, arc, _⟩ := Relation.TransGen.head'_iff.mp around
  exact lt_irrefl _ (rises x (bypassed arc.1 arc.2.1) around)

end Ending

section Termination
variable {s : BypassState} {rank : Nat → Nat}

/-- The counts stay below the stride and the longest way on which nothing stops the bypass. -/
def Bounded (stride : Nat) (rank : Nat → Nat) (s : BypassState) : Prop :=
  ∀ g, g ∈ s.visited ∨ g ∈ s.queue → s.distance g ≤ stride + 1 + rank g

theorem Bounded.turn (sweeping : Sweeping C stride s)
    (rises : ∀ a b, C.FromRoot a ∧ C.Unstopped a ∧ b ∈ (C.group a).successors → rank a < rank b)
    (bounded : Bounded stride rank s) {top : Nat} {rest : List Nat} (front : s.queue = top :: rest) {s' : BypassState}
    (turned : Turned C stride s top s') : Bounded stride rank s' := by
  have topKnown : top ∈ s.visited ∨ top ∈ s.queue := Or.inr (by simp [front])
  intro g member
  by_cases isPushed : g ∈ C.pushes stride s top
  · have arc := (mem_pushes.mp isPushed).1
    rw [turned.distance, if_pos isPushed, bypassCounter]
    split_ifs with stops
    · omega
    · rw [stopsBypass, Bool.or_eq_true, Bool.and_eq_true, decide_eq_true_iff, not_or, not_and] at stops
      have before := bounded top topKnown
      by_cases join : (C.group top).isTrueJoin = true
      · have less := Nat.not_le.mp fun far => stops.2 far join
        omega
      · have unstopped : C.Unstopped top := ⟨Bool.eq_false_iff.mpr stops.1, Bool.eq_false_iff.mpr join⟩
        have := rises top g ⟨sweeping.reached top topKnown, unstopped, arc⟩
        omega
  · rw [turned.distance_kept isPushed]
    exact bounded g ((turned.known front member).resolve_left isPushed)

/-- The groups that were not visited, how far the counts of the others may rise, and what is on the queue. -/
def sweepLeft (C : GroupGraph E) (bound : Nat) (s : BypassState) : ℕ ×ₗ ℕ ×ₗ ℕ :=
  toLex ((C.cpelementGroups.map fun g => if g ∈ s.visited then 0 else 1).sum,
    toLex ((C.cpelementGroups.map fun g => if g ∈ s.visited then bound - s.distance g else 0).sum,
      match s.queue with
      | [] => 0
      | top :: rest => if top ∈ s.visited then rest.length + 2 else 1))

section Measure
variable {top : Nat} {s' : BypassState}

theorem sum_unvisited_lt (turned : Turned C stride s top s') (live : C.Live top) (fresh : top ∉ s.visited) :
    (C.cpelementGroups.map fun g => if g ∈ s'.visited then 0 else 1).sum <
      (C.cpelementGroups.map fun g => if g ∈ s.visited then 0 else 1).sum := by
  refine List.sum_lt_sum _ _ (fun g _ => ?_) ⟨top, live, ?_⟩
  · simp only [turned.visited]
    split_ifs with seen' isSeen
    · exact Nat.le_refl _
    · exact Nat.zero_le _
    · exact absurd (Or.inr ‹_›) seen'
    · exact Nat.le_refl _
  · simp only [turned.visited, true_or, if_true, fresh, if_false]
    exact Nat.one_pos

theorem Turned.mem_visited (turned : Turned C stride s top s') (seen : top ∈ s.visited) (g : Nat) :
    g ∈ s'.visited ↔ g ∈ s.visited := by
  rw [turned.visited, or_iff_right_of_imp fun isTop => isTop ▸ seen]

theorem sum_distance_lt (turned : Turned C stride s top s') (seen : top ∈ s.visited) {bound again : Nat}
    (live : C.Live again) (isPushed : again ∈ C.pushes stride s top) (isSeen : again ∈ s.visited)
    (bounded : s'.distance again ≤ bound) :
    (C.cpelementGroups.map fun g => if g ∈ s'.visited then bound - s'.distance g else 0).sum <
      (C.cpelementGroups.map fun g => if g ∈ s.visited then bound - s.distance g else 0).sum := by
  have raises (g : Nat) (isPushed : g ∈ C.pushes stride s top) (isSeen : g ∈ s.visited) :
      s.distance g < s'.distance g := by
    rw [turned.distance, if_pos isPushed]
    exact ((mem_pushes.mp isPushed).2.resolve_left fun unseen => unseen (Or.inr isSeen)).2
  simp only [turned.mem_visited seen]
  refine List.sum_lt_sum _ _ (fun g _ => ?_) ⟨again, live, ?_⟩
  · split_ifs with isSeen
    · by_cases isPushed : g ∈ C.pushes stride s top
      · have := raises g isPushed isSeen
        omega
      · rw [turned.distance_kept isPushed]
    · exact Nat.le_refl _
  · have := raises again isPushed isSeen
    simp only [isSeen, if_true]
    omega

/-- What is put on the queue was not visited, so the next turn visits one more group. -/
theorem queueLeft_lt (turned : Turned C stride s top s') {rest : List Nat} (front : s.queue = top :: rest)
    (seen : top ∈ s.visited) (fresh : ∀ g ∈ C.pushes stride s top, g ∉ s.visited) :
    (match s'.queue with
      | [] => 0
      | top :: rest => if top ∈ s'.visited then rest.length + 2 else 1) <
      (match s.queue with
      | [] => 0
      | top :: rest => if top ∈ s.visited then rest.length + 2 else 1) := by
  rw [front]
  simp only [turned.mem_visited seen, seen, if_true]
  rcases turned.queue with ⟨_, queue⟩ | ⟨some, queue⟩
  · rw [queue, front, List.tail_cons]
    cases rest with
    | nil => simp
    | cons next rest =>
        dsimp only
        split_ifs
        · simp
        · simp
  · obtain ⟨earlier, next, isLast⟩ := List.eq_nil_or_concat' (C.pushes stride s top) |>.resolve_left some
    have unseen : next ∉ s.visited := fresh next (by simp [isLast])
    rw [queue, isLast, List.reverse_append, List.reverse_singleton, List.singleton_append, List.cons_append]
    simp only [unseen, if_false]
    omega

theorem sweepLeft_lt {bound : Nat} (live : C.Live top) {rest : List Nat} (front : s.queue = top :: rest)
    (turned : Turned C stride s top s')
    (bounded : ∀ g, g ∈ s'.visited → g ∈ C.pushes stride s top → s'.distance g ≤ bound)
    (liveSucc : ∀ g ∈ C.pushes stride s top, C.Live g) : C.sweepLeft bound s' < C.sweepLeft bound s := by
  unfold sweepLeft
  rw [Prod.Lex.toLex_lt_toLex]
  by_cases seen : top ∈ s.visited
  · refine Or.inr ⟨by simp only [turned.mem_visited seen], ?_⟩
    rw [Prod.Lex.toLex_lt_toLex]
    by_cases again : ∃ g ∈ C.pushes stride s top, g ∈ s.visited
    · obtain ⟨g, isPushed, isSeen⟩ := again
      have few := bounded g ((turned.mem_visited seen g).mpr isSeen) isPushed
      exact Or.inl (sum_distance_lt turned seen (liveSucc g isPushed) isPushed isSeen few)
    · have settled (g : Nat) (isSeen : g ∈ s.visited) : s'.distance g = s.distance g :=
        turned.distance_kept fun isPushed => again ⟨g, isPushed, isSeen⟩
      refine Or.inr ⟨congrArg List.sum (List.map_congr_left fun g _ => ?_), ?_⟩
      · simp only [turned.mem_visited seen]
        split_ifs with isSeen
        · rw [settled g isSeen]
        · rfl
      · exact queueLeft_lt turned front seen fun g isPushed isSeen => again ⟨g, isPushed, isSeen⟩
  · exact Or.inl (sum_unvisited_lt turned live seen)

end Measure

theorem bypassLoop_ends (wf : C.WellFormed) (sets : C.ListsSets) {bound : Nat} (most : ∀ g, stride + 1 + rank g ≤ bound)
    (rises : ∀ a b, C.FromRoot a ∧ C.Unstopped a ∧ b ∈ (C.group a).successors → rank a < rank b)
    (s : BypassState) (sweeping : Sweeping C stride s) (bounded : Bounded stride rank s) :
    ∃ fuel s', C.bypassLoop stride fuel s = some s' := by
  induction left : C.sweepLeft bound s using WellFoundedLT.induction generalizing s with
  | ind left ih =>
      cases front : s.queue with
      | nil => exact ⟨0, s, by rw [bypassLoop, if_pos front]⟩
      | cons top rest =>
          have live := (sweeping.reached top (Or.inr (by simp [front]))).live wf
          have turned := @bypassTurn_spec E C stride s top (sets top live).1 (sweeping.apart wf front)
          have bounded' := bounded.turn sweeping rises front turned
          have less := sweepLeft_lt live front turned
            (fun g seen _ => (bounded' g (Or.inl seen)).trans (most g))
            (fun g isPushed => (wf.forward_closed.successors top g live (mem_pushes.mp isPushed).1).1)
          obtain ⟨fuel, s', run⟩ := ih _ (left ▸ less) _ (sweeping.turn front turned) bounded' rfl
          refine ⟨fuel + 1, s', ?_⟩
          rw [bypassLoop, front]
          exact run

end Termination

section Flags

structure AllBypassable (C : GroupGraph E) (stride : Nat) : Prop where
  acyclic : ∀ x, ¬ Relation.TransGen (fun a b => C.Live a ∧ b ∈ (C.group a).successors) x x
  short : ∀ path : List Nat, path.IsChain (fun a b => b ∈ (C.group a).successors) → (∀ g ∈ path, C.Live g) →
    ∀ last ∈ path.getLast?, (C.group last).isTrueJoin = true → path.length ≤ stride

theorem bypassesSafely_all_iff (wf : C.WellFormed) :
    C.BypassesSafely stride (fun g => decide (g ∈ C.cpelementGroups)) ↔ C.AllBypassable stride := by
  have arcs (a b : Nat) : (b ∈ (C.group a).successors ∧ decide (a ∈ C.cpelementGroups) = true ∧
      decide (b ∈ C.cpelementGroups) = true) ↔ C.Live a ∧ b ∈ (C.group a).successors := by
    rw [decide_eq_true_iff, decide_eq_true_iff]
    exact ⟨fun ⟨arc, live, _⟩ => ⟨live, arc⟩,
      fun ⟨live, arc⟩ => ⟨arc, live, (wf.forward_closed.successors a b live arc).1⟩⟩
  constructor
  · intro safe
    refine ⟨fun x around => safe.noLoop x (Relation.TransGen.mono (fun a b => (arcs a b).mpr) _ _ around), ?_⟩
    exact fun path chain live => safe.withinStride path chain fun g member => decide_eq_true (live g member)
  · intro safe
    refine ⟨fun x around => safe.acyclic x (Relation.TransGen.mono (fun a b => (arcs a b).mp) _ _ around), ?_⟩
    exact fun path chain live => safe.short path chain fun g member => of_decide_eq_true (live g member)

theorem bypassLoop_start_loopsStop (wf : C.WellFormed) (sets : C.ListsSets) {fuel : Nat} {s : BypassState}
    (run : C.bypassLoop stride fuel (C.bypassStart stride) = some s) : C.LoopsStop := by
  obtain ⟨sweeping, empty⟩ := bypassLoop_sweeping wf sets fuel Sweeping.start run
  exact sweeping.loopsStop empty

theorem bypassLoop_start_ends (wf : C.WellFormed) (sets : C.ListsSets) (stops : C.LoopsStop) :
    ∃ fuel s, C.bypassLoop stride fuel (C.bypassStart stride) = some s := by
  obtain ⟨rank, rises, most⟩ := exists_rank C.cpelementGroups (fun a b arc => arc.1.live wf) stops
  refine bypassLoop_ends wf sets (fun g => Nat.add_le_add_left (most g) _) rises _ Sweeping.start fun g member => ?_
  have isRoot : g ∈ C.bypassRoots := member.resolve_left List.not_mem_nil
  show (if g ∈ C.bypassRoots then stride else 0) ≤ _
  rw [if_pos isRoot, Nat.add_assoc]
  exact Nat.le_add_right _ _

/-- A delay element does not stop the bypass. -/
theorem updateGroupBypassFlags_safe_iff (wf : C.WellFormed) (sets : C.ListsSets) (minClockPeriod : Bool) :
    (∃ fuel bypass, C.updateGroupBypassFlags stride minClockPeriod fuel = some bypass ∧
      C.BypassesSafely stride bypass) ↔
        minClockPeriod = true ∧ C.LoopsStop ∨ minClockPeriod = false ∧ C.AllBypassable stride := by
  cases minClockPeriod with
  | true =>
      simp only [updateGroupBypassFlags, if_true, true_and, Bool.true_eq_false, false_and, or_false]
      constructor
      · rintro ⟨fuel, bypass, run, _⟩
        obtain ⟨s, run, _⟩ := Option.map_eq_some_iff.mp run
        exact bypassLoop_start_loopsStop wf sets run
      · intro stops
        obtain ⟨fuel, s, run⟩ := @bypassLoop_start_ends E C stride wf sets stops
        obtain ⟨sweeping, empty⟩ := bypassLoop_sweeping wf sets fuel Sweeping.start run
        exact ⟨fuel, s.bypass, Option.map_eq_some_iff.mpr ⟨s, run, rfl⟩, sweeping.safe empty⟩
  | false =>
      simp only [updateGroupBypassFlags, Bool.false_eq_true, if_false, false_and, true_and, false_or]
      rw [← bypassesSafely_all_iff wf]
      constructor
      · rintro ⟨_, bypass, run, safe⟩
        exact Option.some.inj run ▸ safe
      · exact fun safe => ⟨0, _, rfl, safe⟩

/-- The entry `0` leads to the place `1`, which the input transition `2` leads back to. -/
def inputLoop : GroupGraph Nat :=
  ofGroups 3 fun g =>
    if g = 0 then { successors := [1], hasTransition := true }
    else if g = 1 then { predecessors := [0, 2], successors := [2], hasPlace := true, isMerge := true }
    else { predecessors := [1], successors := [1], hasTransition := true, hasInputTransition := true }

theorem inputLoop_loopsStop : inputLoop.LoopsStop := by
  refine acyclic_of_rising id fun a b way => ?_
  obtain ⟨_, unstopped, arc⟩ := way
  by_cases isEntry : a = 0
  · subst isEntry
    obtain rfl : b = 1 := List.mem_singleton.mp arc
    exact Nat.zero_lt_one
  · by_cases isPlace : a = 1
    · subst isPlace
      obtain rfl : b = 2 := List.mem_singleton.mp arc
      exact Nat.one_lt_two
    · simp [Unstopped, inputLoop, ofGroups, isEntry, isPlace] at unstopped

theorem updateGroupBypassFlags_safe_inputLoop :
    ∃ fuel bypass, inputLoop.updateGroupBypassFlags 1 true fuel = some bypass ∧ inputLoop.BypassesSafely 1 bypass := by
  have wf : inputLoop.WellFormed := ofGroups_wellFormed (by decide) (by decide) (by decide)
  have sets : inputLoop.ListsSets :=
    show ∀ g ∈ List.range 3, (inputLoop.group g).successors.Nodup ∧ (inputLoop.group g).predecessors.Nodup by decide
  exact (updateGroupBypassFlags_safe_iff wf sets true).mpr (Or.inl ⟨rfl, inputLoop_loopsStop⟩)

/-- Each directed cycle has an input transition, a delay element or a true join. -/
def CyclesCut (C : GroupGraph E) : Prop :=
  ∀ x, ¬ Relation.TransGen (fun a b => b ∈ (C.group a).successors ∧ C.Unstopped a ∧
    (C.group a).isDelayElement = false ∧ (C.group b).isDelayElement = false) x x

/-- The entry `0` leads to the place `1`, which the delay element `2` leads back to. -/
def delayLoop : GroupGraph Nat :=
  ofGroups 3 fun g =>
    if g = 0 then { successors := [1], hasTransition := true }
    else if g = 1 then { predecessors := [0, 2], successors := [2], hasPlace := true, isMerge := true }
    else { predecessors := [1], successors := [1], hasTransition := true, isDelayElement := true }

theorem delayLoop_wellFormed : delayLoop.WellFormed :=
  ofGroups_wellFormed (by decide) (by decide) (by decide)

theorem delayLoop_listsSets : delayLoop.ListsSets :=
  show ∀ g ∈ List.range 3, (delayLoop.group g).successors.Nodup ∧ (delayLoop.group g).predecessors.Nodup by decide

/-- The loop is cut by its delay element, and the traversal does not end. -/
theorem delayLoop_runs_on :
    delayLoop.CyclesCut ∧ ¬ ∃ fuel bypass, delayLoop.updateGroupBypassFlags 1 true fuel = some bypass := by
  constructor
  · intro x around
    have rises (y : Nat) (way : Relation.TransGen (fun a b => b ∈ (delayLoop.group a).successors ∧
        delayLoop.Unstopped a ∧ (delayLoop.group a).isDelayElement = false ∧
        (delayLoop.group b).isDelayElement = false) x y) : x = 0 ∧ y = 1 := by
      have step (a b : Nat) (arc : b ∈ (delayLoop.group a).successors)
          (noDelay : (delayLoop.group a).isDelayElement = false)
          (noDelay' : (delayLoop.group b).isDelayElement = false) : a = 0 ∧ b = 1 := by
        by_cases isEntry : a = 0
        · subst isEntry
          exact ⟨rfl, List.mem_singleton.mp arc⟩
        · by_cases isPlace : a = 1
          · subst isPlace
            obtain rfl : b = 2 := List.mem_singleton.mp arc
            cases noDelay'
          · simp [delayLoop, ofGroups, isEntry, isPlace] at noDelay
      induction way with
      | single arc => exact step _ _ arc.1 arc.2.2.1 arc.2.2.2
      | tail _ arc ih => exact ⟨ih.1, (step _ _ arc.1 arc.2.2.1 arc.2.2.2).2⟩
    obtain ⟨first, last⟩ := rises x around
    exact absurd (first.symm.trans last) (by decide)
  · rintro ⟨fuel, bypass, run⟩
    obtain ⟨s, run, _⟩ := Option.map_eq_some_iff.mp run
    have stops := bypassLoop_start_loopsStop delayLoop_wellFormed delayLoop_listsSets run
    have root : delayLoop.FromRoot 0 := ⟨0, (by decide : (0 : Nat) ∈ List.range 3), rfl, Relation.ReflTransGen.refl⟩
    have place : delayLoop.FromRoot 1 := root.tail (by decide)
    have delay : delayLoop.FromRoot 2 := place.tail (by decide)
    refine stops 1 (Relation.TransGen.tail (Relation.TransGen.single ⟨place, ⟨rfl, rfl⟩, ?_⟩) ⟨delay, ⟨rfl, rfl⟩, ?_⟩)
    · exact List.mem_singleton_self 2
    · exact List.mem_singleton_self 1

end Flags

end GroupGraph

end Ahir.ControlPath
