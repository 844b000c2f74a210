import Ahir.ControlPath.RedundantArcs

/-!
# Arcs that are passed over

`Remove_Redundant_Arcs` goes through the successors of an element by their positions.  When it
removes one, the next one moves to its position and is not looked at.
-/

set_option autoImplicit false

namespace Ahir.ControlPath
open Ahir.Graph

section PassOver
variable {α : Type} {far : α → Bool}

/-- What a loop over the positions of a list leaves of it, when it removes those that are far. -/
def passOver (far : α → Bool) : List α → List α
  | [] => []
  | [x] => if far x then [] else [x]
  | x :: y :: rest => if far x then y :: passOver far rest else x :: passOver far (y :: rest)

theorem passOver_cons_of_not_far {x : α} (near : far x = false) (rest : List α) :
    passOver far (x :: rest) = x :: passOver far rest := by
  cases rest with
  | nil => simp [passOver, near]
  | cons y rest => simp [passOver, near]

/-- All that are far are removed just when no two of them are neighbours. -/
theorem forall_mem_passOver_iff (l : List α) :
    (∀ x ∈ passOver far l, ¬ far x = true) ↔ l.IsChain (fun x y => ¬ (far x = true ∧ far y = true)) := by
  induction l using passOver.induct far with
  | case1 => simp [passOver]
  | case2 x isFar =>
      rw [passOver, if_pos isFar]
      simp
  | case3 x near =>
      rw [passOver, if_neg near]
      simp [near]
  | case4 x y rest isFar ih =>
      rw [passOver, if_pos isFar, List.forall_mem_cons, List.isChain_cons_cons, ih]
      simp only [isFar, true_and]
      refine and_congr_right fun near => ?_
      cases rest with
      | nil => simp
      | cons z rest => simp [List.isChain_cons_cons, near]
  | case5 x y rest near ih =>
      rw [passOver, if_neg near, List.forall_mem_cons, List.isChain_cons_cons, ih]
      simp only [near, false_and, not_false_eq_true, true_and, Bool.false_eq_true]

end PassOver

namespace CPForkBlock
variable {E : Type} [DecidableEq E] (B : CPForkBlock E)

/-- There is another way along the arcs from `x` to `y` than an arc between them. -/
def Redundant (x y : E) : Prop := ∃ z, z ≠ x ∧ z ≠ y ∧ B.Precedes x z ∧ B.Precedes z y

def TransitivelyReduced : Prop := ∀ x y, B.Arc x y → ¬ B.Redundant x y

/-- What `Add_Fork_Point` and `Add_Join_Point` make: the lists are mirror images without
duplicates, and each arc is in the fork map or in the join map of each end that is a transition. -/
structure Recorded : Prop where
  linked : B.Linked
  nodup : ∀ x ∈ B.vertices, (B.successors x).Nodup
  ends : ∀ x y, B.Arc x y → B.isTransition x = true ∨ B.isTransition y = true
  forked : ∀ x y, B.Arc x y → B.isTransition x = true → y ∈ B.forkMap x
  joined : ∀ x y, B.Arc x y → B.isTransition y = true → x ∈ B.joinMap y

structure Erases (B B' : CPForkBlock E) (x y : E) : Prop where
  vertices : B'.vertices = B.vertices
  isTransition : B'.isTransition = B.isTransition
  recorded : B'.Recorded
  successors : ∀ e, B'.successors e = if e = x then (B.successors e).erase y else B.successors e

variable {B}

theorem Recorded.predecessors_nodup (recorded : B.Recorded) {y : E} (inside : y ∈ B.vertices) :
    (B.predecessors y).Nodup := by
  rw [List.nodup_iff_count_le_one]
  intro x
  by_cases member : x ∈ B.predecessors y
  · have insideX := recorded.linked.predecessors_inside y inside x member
    rw [← recorded.linked.mirrored x insideX y inside]
    exact List.nodup_iff_count_le_one.mp (recorded.nodup x insideX) y
  · rw [List.count_eq_zero_of_not_mem member]
    exact Nat.zero_le 1

theorem Erases.of_absent (recorded : B.Recorded) {x y : E} (absent : y ∉ B.successors x) : Erases B B x y := by
  refine ⟨rfl, rfl, recorded, fun e => ?_⟩
  split_ifs with eq
  · rw [eq, List.erase_of_not_mem absent]
  · rfl

theorem arc_of_erased {B' : CPForkBlock E} {x y : E} (vertices : B'.vertices = B.vertices)
    (successors : ∀ e, B'.successors e = if e = x then (B.successors e).erase y else B.successors e)
    (nodup : (B.successors x).Nodup) {a b : E} (arc : B'.Arc a b) : B.Arc a b ∧ ¬ (a = x ∧ b = y) := by
  obtain ⟨inside, isNext⟩ := arc
  rw [vertices] at inside
  rw [successors] at isNext
  split_ifs at isNext with eq
  · subst eq
    exact ⟨⟨inside, List.mem_of_mem_erase isNext⟩, fun both => (nodup.mem_erase_iff.mp isNext).1 both.2⟩
  · exact ⟨⟨inside, isNext⟩, fun both => eq both.1⟩

theorem Erases.trans {B' B'' : CPForkBlock E} {x y : E} (first : Erases B B' x y) (second : Erases B' B'' x y)
    (nodup : (B.successors x).Nodup) : Erases B B'' x y := by
  refine ⟨second.vertices.trans first.vertices, second.isTransition.trans first.isTransition, second.recorded, fun e => ?_⟩
  rw [second.successors, first.successors]
  split_ifs with eq
  · rw [eq, List.erase_of_not_mem nodup.not_mem_erase]
  · rfl

/-- The arcs of a block that lost one of them, with maps that lost nothing else. -/
theorem recorded_of_unlink (recorded : B.Recorded) {x y : E} (inside : x ∈ B.vertices) {B' : CPForkBlock E}
    (linked : B'.Linked) (vertices : B'.vertices = B.vertices) (isTransition : B'.isTransition = B.isTransition)
    (successors : ∀ e, B'.successors e = if e = x then (B.successors e).erase y else B.successors e)
    (forked : ∀ a b, ¬ (a = x ∧ b = y) → b ∈ B.forkMap a → b ∈ B'.forkMap a)
    (joined : ∀ a b, ¬ (a = x ∧ b = y) → a ∈ B.joinMap b → a ∈ B'.joinMap b) : Erases B B' x y := by
  have kept {a b : E} (arc : B'.Arc a b) : B.Arc a b ∧ ¬ (a = x ∧ b = y) :=
    arc_of_erased vertices successors (recorded.nodup x inside) arc
  refine ⟨vertices, isTransition, ⟨linked, fun a insideA => ?_, fun a b arc => ?_, fun a b arc transition => ?_,
    fun a b arc transition => ?_⟩, successors⟩
  · rw [vertices] at insideA
    rw [successors]
    split_ifs
    · exact (recorded.nodup a insideA).erase y
    · exact recorded.nodup a insideA
  · rw [isTransition]
    exact recorded.ends a b (kept arc).1
  · rw [isTransition] at transition
    exact forked a b (kept arc).2 (recorded.forked a b (kept arc).1 transition)
  · rw [isTransition] at transition
    exact joined a b (kept arc).2 (recorded.joined a b (kept arc).1 transition)

theorem removeForkPoint_erases (recorded : B.Recorded) {x y : E} (inside : x ∈ B.vertices)
    (transition : B.isTransition x = true) : Erases B (B.removeForkPoint x y) x y := by
  by_cases listed : y ∈ B.forkMap x
  · have shrinks := removeForkPoint_shrinks recorded.linked x y
    unfold removeForkPoint at shrinks ⊢
    rw [if_pos listed] at shrinks ⊢
    refine recorded_of_unlink recorded inside shrinks.linked rfl rfl (fun e => rfl) (fun a b other mem => ?_)
      fun a b _ mem => mem
    show b ∈ if a = x then (B.forkMap a).filter (fun l => l ≠ y) else B.forkMap a
    split_ifs with eq
    · exact List.mem_filter.mpr ⟨mem, decide_eq_true fun isY => other ⟨eq, isY⟩⟩
    · exact mem
  · rw [removeForkPoint, if_neg listed]
    exact Erases.of_absent recorded fun isNext => listed (recorded.forked x y ⟨inside, isNext⟩ transition)

theorem removeJoinPoint_erases (recorded : B.Recorded) {x y : E} (inside : x ∈ B.vertices)
    (transition : B.isTransition y = true) : Erases B (B.removeJoinPoint y x) x y := by
  by_cases listed : x ∈ B.joinMap y
  · have shrinks := removeJoinPoint_shrinks recorded.linked y x
    unfold removeJoinPoint at shrinks ⊢
    rw [if_pos listed] at shrinks ⊢
    refine recorded_of_unlink recorded inside shrinks.linked rfl rfl (fun e => rfl) (fun a b _ mem => mem)
      fun a b other mem => ?_
    show a ∈ if b = y then (B.joinMap b).filter (fun l => l ≠ x) else B.joinMap b
    split_ifs with eq
    · exact List.mem_filter.mpr ⟨mem, decide_eq_true fun isX => other ⟨isX, eq⟩⟩
    · exact mem
  · rw [removeJoinPoint, if_neg listed]
    exact Erases.of_absent recorded fun isNext => listed (recorded.joined x y ⟨inside, isNext⟩ transition)

theorem Recorded.absent (recorded : B.Recorded) {x y : E} (inside : x ∈ B.vertices)
    (noneX : ¬ B.isTransition x = true) (noneY : ¬ B.isTransition y = true) : y ∉ B.successors x := fun isNext =>
  (recorded.ends x y ⟨inside, isNext⟩).elim noneX noneY

/-- The arc is taken away from the end `a`, and then from the end `b`. -/
theorem erases_of_ends (recorded : B.Recorded) {x y a b : E} (inside : x ∈ B.vertices)
    (ends : a = x ∧ b = y ∨ a = y ∧ b = x) (removeA removeB : CPForkBlock E → CPForkBlock E)
    (first : ∀ {B : CPForkBlock E}, B.Recorded → x ∈ B.vertices → B.isTransition a = true → Erases B (removeA B) x y)
    (second : ∀ {B : CPForkBlock E}, B.Recorded → x ∈ B.vertices → B.isTransition b = true → Erases B (removeB B) x y) :
    let B' := if B.isTransition a then removeA B else B
    Erases B (if B'.isTransition b then removeB B' else B') x y := by
  have absent (noneA : ¬ B.isTransition a = true) (noneB : ¬ B.isTransition b = true) : y ∉ B.successors x := by
    rcases ends with ⟨rfl, rfl⟩ | ⟨rfl, rfl⟩
    · exact recorded.absent inside noneA noneB
    · exact recorded.absent inside noneB noneA
  dsimp only
  by_cases transitionA : B.isTransition a = true
  · have erases := first recorded inside transitionA
    rw [if_pos transitionA, erases.isTransition]
    split_ifs with transitionB
    · have again := second erases.recorded (erases.vertices ▸ inside) (erases.isTransition ▸ transitionB)
      exact erases.trans again (recorded.nodup x inside)
    · exact erases
  · rw [if_neg transitionA]
    split_ifs with transitionB
    · exact second recorded inside transitionB
    · exact Erases.of_absent recorded (absent transitionA transitionB)

theorem removePair_erases (recorded : B.Recorded) {pair : E × E} (inside : pair.1 ∈ B.vertices) :
    Erases B (B.removePair pair) pair.1 pair.2 :=
  erases_of_ends recorded inside (Or.inl ⟨rfl, rfl⟩) (removeForkPoint · pair.1 pair.2) (removeJoinPoint · pair.2 pair.1)
    (fun recorded inside => removeForkPoint_erases recorded inside)
    (fun recorded inside => removeJoinPoint_erases recorded inside)

theorem removeAt_erases (recorded : B.Recorded) {d : E → E → Nat} {u v : E} {idx : Nat} (inside : u ∈ B.vertices)
    (at_ : (B.successors u)[idx]? = some v) (far : 1 < d u v) : Erases B (removeAt d u B idx) u v := by
  have erases := erases_of_ends recorded inside (Or.inr ⟨rfl, rfl⟩) (removeJoinPoint · v u) (removeForkPoint · u v)
    (fun recorded inside => removeJoinPoint_erases recorded inside)
    (fun recorded inside => removeForkPoint_erases recorded inside)
  unfold removeAt
  rw [at_]
  dsimp only
  rw [if_pos far]
  exact erases

theorem removePairs_successors (recorded : B.Recorded) {pairs : List (E × E)} (inside : ∀ pair ∈ pairs, pair.1 ∈ B.vertices) :
    (B.removePairs pairs).Recorded ∧ (B.removePairs pairs).vertices = B.vertices ∧
      ∀ u ∈ B.vertices, (B.removePairs pairs).successors u = (B.successors u).filter fun v => decide ((u, v) ∉ pairs) := by
  induction pairs generalizing B with
  | nil => exact ⟨recorded, rfl, fun u _ => by simp [removePairs]⟩
  | cons pair rest ih =>
      have first := removePair_erases recorded (inside pair List.mem_cons_self)
      obtain ⟨recorded', vertices, successors⟩ := ih first.recorded fun other mem => by
        rw [first.vertices]
        exact inside other (List.mem_cons_of_mem pair mem)
      refine ⟨recorded', vertices.trans first.vertices, fun u insideU => ?_⟩
      have kept := successors u (by rw [first.vertices]; exact insideU)
      show ((B.removePair pair).removePairs rest).successors u = _
      rw [kept, first.successors]
      split_ifs with eq
      · subst eq
        rw [(recorded.nodup _ insideU).erase_eq_filter, List.filter_filter]
        refine List.filter_congr fun v _ => ?_
        by_cases isV : v = pair.2 <;> simp [isV, Prod.ext_iff]
      · refine List.filter_congr fun v _ => ?_
        simp [Prod.ext_iff, eq]

section Loop
variable {d : E → E → Nat} {u : E}

theorem removeAt_of_le {idx : Nat} (outside : (B.successors u).length ≤ idx) : removeAt d u B idx = B := by
  unfold removeAt
  rw [List.getElem?_eq_none outside]

theorem foldl_removeAt_of_le (l : List Nat) (outside : ∀ idx ∈ l, (B.successors u).length ≤ idx) :
    l.foldl (removeAt d u) B = B := by
  induction l with
  | nil => rfl
  | cons idx rest ih =>
      rw [List.foldl_cons, removeAt_of_le (outside idx List.mem_cons_self)]
      exact ih fun other mem => outside other (List.mem_cons_of_mem idx mem)

theorem foldl_removeAt (n : Nat) (kept rest : List E) (recorded : B.Recorded) (inside : u ∈ B.vertices)
    (successors : B.successors u = kept ++ rest) (enough : rest.length ≤ n) :
    let B' := (List.range' kept.length n).foldl (removeAt d u) B
    B'.Recorded ∧ B'.vertices = B.vertices ∧
      B'.successors u = kept ++ passOver (fun v => decide (1 < d u v)) rest ∧ ∀ e, e ≠ u → B'.successors e = B.successors e := by
  induction n generalizing B kept rest with
  | zero =>
      obtain rfl : rest = [] := List.length_eq_zero_iff.mp (by omega)
      exact ⟨recorded, rfl, successors, fun _ _ => rfl⟩
  | succ n ih =>
      rw [List.range'_succ, List.foldl_cons]
      cases rest with
      | nil =>
          rw [← List.foldl_cons, ← List.range'_succ, foldl_removeAt_of_le _ fun idx mem => ?_]
          · exact ⟨recorded, rfl, successors, fun _ _ => rfl⟩
          · rw [successors, List.append_nil]
            exact (List.mem_range'_1.mp mem).1
      | cons v rest =>
          have here : (B.successors u)[kept.length]? = some v := by
            rw [successors, List.getElem?_append_right (Nat.le_refl _), Nat.sub_self, List.getElem?_cons_zero]
          rw [List.length_cons] at enough
          by_cases far : 1 < d u v
          · have erases := removeAt_erases recorded inside here far
            have nodup := recorded.nodup u inside
            have absent : v ∉ kept := fun mem => by
              rw [successors] at nodup
              exact (List.nodup_append.mp nodup).2.2 v mem v List.mem_cons_self rfl
            have left : (removeAt d u B kept.length).successors u = kept ++ rest := by
              rw [erases.successors, if_pos rfl, successors, List.erase_append_right _ absent, List.erase_cons_head]
            have others (e : E) (other : e ≠ u) : (removeAt d u B kept.length).successors e = B.successors e := by
              rw [erases.successors, if_neg other]
            cases rest with
            | nil =>
                rw [foldl_removeAt_of_le _ fun idx mem => ?_]
                · refine ⟨erases.recorded, erases.vertices, ?_, others⟩
                  rw [left, passOver, if_pos (decide_eq_true far)]
                · rw [left, List.append_nil]
                  exact (Nat.le_succ _).trans (List.mem_range'_1.mp mem).1
            | cons w rest =>
                rw [List.length_cons] at enough
                have next := ih (kept ++ [w]) rest erases.recorded (erases.vertices ▸ inside)
                  (by rw [left, List.append_assoc, List.singleton_append]) (by omega)
                rw [List.length_append, List.length_singleton] at next
                refine ⟨next.1, next.2.1.trans erases.vertices, ?_, fun e other => (next.2.2.2 e other).trans (others e other)⟩
                rw [next.2.2.1, passOver, if_pos (decide_eq_true far), List.append_assoc, List.singleton_append]
          · have stays : removeAt d u B kept.length = B := by
              unfold removeAt
              rw [here]
              exact if_neg far
            have next := ih (kept ++ [v]) rest recorded inside
              (by rw [successors, List.append_assoc, List.singleton_append]) (by omega)
            rw [List.length_append, List.length_singleton] at next
            have passes := @passOver_cons_of_not_far E (fun v => decide (1 < d u v)) v (decide_eq_false far) rest
            rw [stays]
            refine ⟨next.1, next.2.1, ?_, next.2.2.2⟩
            rw [next.2.2.1, passes, List.append_assoc, List.singleton_append]

theorem foldl_turns {us : List E} (nodup : us.Nodup) (inside : ∀ u ∈ us, u ∈ B.vertices) (recorded : B.Recorded) :
    let B' := us.foldl (fun B u => (List.range (B.successors u).length).foldl (removeAt d u) B) B
    B'.Recorded ∧ (∀ u ∈ us, B'.successors u = passOver (fun v => decide (1 < d u v)) (B.successors u)) ∧
      ∀ u, u ∉ us → B'.successors u = B.successors u := by
  induction us generalizing B with
  | nil => exact ⟨recorded, by simp, fun _ _ => rfl⟩
  | cons u rest ih =>
      obtain ⟨fresh, nodup⟩ := List.nodup_cons.mp nodup
      obtain ⟨recorded', vertices, here, others⟩ := foldl_removeAt (d := d) (B.successors u).length [] (B.successors u)
        recorded (inside u List.mem_cons_self) rfl (Nat.le_refl _)
      rw [List.length_nil, ← List.range_eq_range'] at recorded' vertices here others
      have next := ih nodup (fun w member => vertices ▸ inside w (List.mem_cons_of_mem u member)) recorded'
      rw [List.foldl_cons]
      refine ⟨next.1, fun w member => ?_, fun w other => ?_⟩
      · rcases List.mem_cons.mp member with rfl | member
        · exact (next.2.2 w fresh).trans here
        · have distinct : w ≠ u := fun same => fresh (same ▸ member)
          rw [next.2.1 w member, others w distinct]
      · rw [List.mem_cons, not_or] at other
        exact (next.2.2 w other.2).trans (others w other.1)

end Loop

theorem removeRedundantArcs_successors (recorded : B.Recorded) (below : E → E → Bool) (d : E → E → Nat) :
    (B.removeRedundantArcs below d).Recorded ∧ ∀ u ∈ B.vertices,
      (B.removeRedundantArcs below d).successors u = passOver (fun v => decide (1 < d u v)) (B.successors u) := by
  have members (u : E) : u ∈ insertPointers below [] B.vertices ↔ u ∈ B.vertices := by simp
  obtain ⟨recorded', turned, _⟩ := foldl_turns (d := d) (nodup_insertPointers below List.nodup_nil)
    (fun u member => (members u).mp member) recorded
  exact ⟨recorded', fun u inside => turned u ((members u).mpr inside)⟩

theorem redundantPairs_inside (linked : B.Linked) {fuel : Nat} {s : DfsState E} (run : B.dfsOrder fuel = some s) :
    ∀ pair ∈ s.redundantPairs, pair.1 ∈ B.vertices := by
  obtain ⟨parent, searching⟩ := Searching.loop linked fuel _ s id Searching.start run
  intro pair member
  obtain ⟨_, visited, path⟩ := searching.pairs pair member
  rcases Relation.ReflTransGen.cases_head path with same | ⟨_, link, _⟩
  · exact same ▸ searching.inside _ visited
  · exact link.1.1

omit [DecidableEq E] in
theorem redundant_congr {B' : CPForkBlock E} (same : ∀ x y, B'.Precedes x y ↔ B.Precedes x y) (x y : E) :
    B'.Redundant x y ↔ B.Redundant x y := by
  simp only [Redundant, same]

/-- The subscripts of the loop over the positions that `Get_Successor` reads the list at, each with
the length of the list then. -/
def subscripts (d : E → E → Nat) (u : E) : List Nat → CPForkBlock E → List (Nat × Nat)
  | [], _ => []
  | idx :: rest, B =>
      (if idx < (B.successors u).length then [(idx, (B.successors u).length)] else []) ++
        subscripts d u rest (removeAt d u B idx)

/-- Those of `Remove_Redundant_Arcs`. -/
def redundantArcSubscripts (d : E → E → Nat) : List E → CPForkBlock E → List (Nat × Nat)
  | [], _ => []
  | u :: us, B =>
      let positions := List.range (B.successors u).length
      subscripts d u positions B ++ redundantArcSubscripts d us (positions.foldl (removeAt d u) B)

theorem subscripts_inRange {d : E → E → Nat} {u : E} {positions : List Nat} :
    ∀ read ∈ subscripts d u positions B, read.1 < read.2 := by
  induction positions generalizing B with
  | nil => simp [subscripts]
  | cons idx rest ih =>
      intro read member
      rw [subscripts, List.mem_append] at member
      rcases member with here | later
      · split_ifs at here with inRange
        · rw [List.mem_singleton.mp here]
          exact inRange
        · exact absurd here List.not_mem_nil
      · exact ih read later

theorem redundantArcSubscripts_inRange {d : E → E → Nat} {us : List E} :
    ∀ read ∈ redundantArcSubscripts d us B, read.1 < read.2 := by
  induction us generalizing B with
  | nil => simp [redundantArcSubscripts]
  | cons u rest ih =>
      intro read member
      rw [redundantArcSubscripts, List.mem_append] at member
      rcases member with here | later
      · exact subscripts_inRange read here
      · exact ih read later

/-- What is asked of `Eliminate_Redundant_Dependencies`. -/
structure Eliminated (B' : CPForkBlock E) (reads : List (Nat × Nat)) : Prop where
  reduced : B'.TransitivelyReduced
  inRange : ∀ read ∈ reads, read.1 < read.2
  linked : B'.Linked
  successors_nodup : ∀ x ∈ B'.vertices, (B'.successors x).Nodup
  predecessors_nodup : ∀ x ∈ B'.vertices, (B'.predecessors x).Nodup

/-- The subscripts of `Eliminate_Redundant_Dependencies`. -/
def eliminationSubscripts (B : CPForkBlock E) (below : E → E → Bool)
    (topologicalSort : List (Option E) → List (Option E × Option E) → List (Option E))
    (redundantPairs : List (E × E)) : List (Nat × Nat) :=
  let B := B.removePairs redundantPairs
  redundantArcSubscripts (B.allPairsLongestPaths (topologicalSort B.sortedVertices B.sortedEdges))
    (insertPointers below [] B.vertices) B

/-- Among the successors that the depth first search leaves, no two neighbours are both redundant. -/
def NoNeighbours (B : CPForkBlock E) (redundantPairs : List (E × E)) : Prop :=
  ∀ u ∈ B.vertices, ((B.successors u).filter fun v => redundantPairs.all fun pair => decide (pair ≠ (u, v))).IsChain
    fun v w => ¬ (B.Redundant u v ∧ B.Redundant u w)

omit [DecidableEq E] in
theorem reduced_iff_chains {far : E → E → Bool} {B' : CPForkBlock E} (vertices : B'.vertices = B.vertices)
    (successors : ∀ u ∈ B.vertices, B'.successors u = passOver (far u) (B.successors u))
    (isFar : ∀ u v, far u v = true ↔ B'.Redundant u v) :
    B'.TransitivelyReduced ↔ ∀ u ∈ B.vertices, (B.successors u).IsChain
      fun v w => ¬ (B'.Redundant u v ∧ B'.Redundant u w) := by
  simp only [← isFar, ← forall_mem_passOver_iff, TransitivelyReduced, Arc, vertices]
  constructor
  · intro reduced u inside v member
    exact reduced u v ⟨inside, by rwa [successors u inside]⟩
  · rintro all u v ⟨inside, member⟩
    rw [successors u inside] at member
    exact all u inside v member

theorem eliminated_iff_noNeighbours (recorded : B.Recorded) (acyclic : ∀ x, ¬ Relation.TransGen B.Arc x x)
    (below : E → E → Bool)
    {topologicalSort : List (Option E) → List (Option E × Option E) → List (Option E)}
    (sorts : SortsTopologically topologicalSort) {fuel : Nat} {s : DfsState E} (run : B.dfsOrder fuel = some s) :
    Eliminated (B.eliminateRedundantDependencies below topologicalSort s.redundantPairs)
        (B.eliminationSubscripts below topologicalSort s.redundantPairs) ↔
      NoNeighbours B s.redundantPairs := by
  obtain ⟨recorded', vertices, filtered⟩ := removePairs_successors recorded (redundantPairs_inside recorded.linked run)
  obtain ⟨acyclic', longest⟩ := removePairs_longest recorded.linked acyclic sorts s.redundantPairs
  set B₁ := B.removePairs s.redundantPairs with isFirst
  set d := B₁.allPairsLongestPaths (topologicalSort B₁.sortedVertices B₁.sortedEdges) with isLongest
  have isResult : B.eliminateRedundantDependencies below topologicalSort s.redundantPairs =
      B₁.removeRedundantArcs below d := rfl
  obtain ⟨recorded'', passed⟩ := removeRedundantArcs_successors recorded' below d
  have arcs := removeRedundantArcs_shrinks recorded'.linked below d
  have first (x y : E) : B₁.Redundant x y ↔ B.Redundant x y :=
    redundant_congr (removePairs_precedes recorded.linked run) x y
  have second (x y : E) : (B₁.removeRedundantArcs below d).Redundant x y ↔ B₁.Redundant x y :=
    redundant_congr (removeRedundantArcs_precedes recorded'.linked below longest) x y
  have isFar (x y : E) : decide (1 < d x y) = true ↔ (B₁.removeRedundantArcs below d).Redundant x y := by
    rw [decide_eq_true_iff, second]
    exact longest.one_lt_iff acyclic' x y
  have reduced := reduced_iff_chains arcs.vertices passed isFar
  have chains : (∀ u ∈ B₁.vertices, (B₁.successors u).IsChain fun v w =>
      ¬ ((B₁.removeRedundantArcs below d).Redundant u v ∧ (B₁.removeRedundantArcs below d).Redundant u w)) ↔
      NoNeighbours B s.redundantPairs := by
    simp only [second, first, NoNeighbours, vertices]
    refine forall₂_congr fun u inside => ?_
    have same (v : E) : decide ((u, v) ∉ s.redundantPairs) = s.redundantPairs.all fun pair => decide (pair ≠ (u, v)) := by
      rw [Bool.eq_iff_iff, decide_eq_true_iff, List.all_eq_true]
      simp only [decide_eq_true_eq]
      exact ⟨fun absent pair member same => absent (same ▸ member), fun all member => all _ member rfl⟩
    rw [filtered u inside, funext same]
  rw [isResult]
  constructor
  · exact fun eliminated => chains.mp (reduced.mp eliminated.reduced)
  · exact fun apart => ⟨reduced.mpr (chains.mpr apart), redundantArcSubscripts_inRange, recorded''.linked,
      recorded''.nodup, fun _ => recorded''.predecessors_nodup⟩

theorem eliminateRedundantDependencies_reduced_iff (recorded : B.Recorded)
    (acyclic : ∀ x, ¬ Relation.TransGen B.Arc x x) (below : E → E → Bool)
    {topologicalSort : List (Option E) → List (Option E × Option E) → List (Option E)}
    (sorts : SortsTopologically topologicalSort) {fuel : Nat} (enough : 2 * B.vertices.length ≤ fuel + 1) :
    ∃ s, B.dfsOrder fuel = some s ∧
      (Eliminated (B.eliminateRedundantDependencies below topologicalSort s.redundantPairs)
          (B.eliminationSubscripts below topologicalSort s.redundantPairs) ↔
        NoNeighbours B s.redundantPairs) := by
  obtain ⟨s, run⟩ := dfsOrder_total recorded.linked enough
  exact ⟨s, run, eliminated_iff_noNeighbours recorded acyclic below sorts run⟩

/-- `0` has the successors `2` and `3` and, behind them, `1`, which leads to both. -/
def passedArc : CPForkBlock (Fin 5) where
  entry := 0
  exit := 4
  elements := [1, 2, 3]
  isTransition := fun _ => true
  predecessors := fun x => match x with | 0 => [] | 1 => [0] | 2 => [0, 1] | 3 => [0, 1] | 4 => [2, 3]
  successors := fun x => match x with | 0 => [2, 3, 1] | 1 => [2, 3] | 2 => [4] | 3 => [4] | 4 => []
  forkMap := fun x => match x with | 0 => [2, 3, 1] | 1 => [2, 3] | 2 => [4] | 3 => [4] | 4 => []
  joinMap := fun x => match x with | 0 => [] | 1 => [0] | 2 => [0, 1] | 3 => [0, 1] | 4 => [2, 3]

theorem passedArc_recorded : passedArc.Recorded where
  linked := ⟨by decide, by decide, by decide⟩
  nodup := by decide
  ends := fun _ _ _ => Or.inl rfl
  forked := fun _ _ arc _ => arc.2
  joined := fun x y arc _ =>
    (show ∀ x y, y ∈ passedArc.successors x → x ∈ passedArc.joinMap y by decide) x y arc.2

theorem passedArc_acyclic (x : Fin 5) : ¬ Relation.TransGen passedArc.Arc x x := by
  have upwards : ∀ x y : Fin 5, y ∈ passedArc.successors x →
      (![0, 1, 2, 2, 3] : Fin 5 → Nat) x < (![0, 1, 2, 2, 3] : Fin 5 → Nat) y := by decide
  exact acyclic_of_rising _ (fun x y arc => upwards x y arc.2) x

theorem eliminateRedundantDependencies_reduced_iff_passedArc :
    ∃ s, passedArc.dfsOrder 9 = some s ∧
      (Eliminated (passedArc.eliminateRedundantDependencies (fun a b => a < b) sinksFirst s.redundantPairs)
          (passedArc.eliminationSubscripts (fun a b => a < b) sinksFirst s.redundantPairs) ↔
        NoNeighbours passedArc s.redundantPairs) :=
  eliminateRedundantDependencies_reduced_iff passedArc_recorded passedArc_acyclic (fun a b => a < b) sinksFirst_sorts
    (by decide)

/-- The arc from `0` to `2` is removed, the one to `3` is not. -/
theorem passedArc_not_eliminated :
    ∃ s, passedArc.dfsOrder 9 = some s ∧
      ¬ Eliminated (passedArc.eliminateRedundantDependencies (fun a b => a < b) sinksFirst s.redundantPairs)
        (passedArc.eliminationSubscripts (fun a b => a < b) sinksFirst s.redundantPairs) := by
  have run : passedArc.dfsOrder 9 = some ⟨[], [1, 3, 4, 2, 0], [0, 2, 4, 3, 1], false, []⟩ := rfl
  have inside : ∀ x : Fin 5, x ∈ passedArc.vertices := by decide
  have arc {x y : Fin 5} (isNext : y ∈ passedArc.successors x) : passedArc.Precedes x y :=
    Relation.ReflTransGen.single ⟨inside x, isNext⟩
  have redundant {y : Fin 5} (notLast : 1 ≠ y) (isNext : y ∈ passedArc.successors 1) : passedArc.Redundant 0 y :=
    ⟨1, by decide, notLast, arc (by decide), arc isNext⟩
  refine ⟨_, run, fun eliminated => ?_⟩
  have apart := (eliminated_iff_noNeighbours passedArc_recorded passedArc_acyclic (fun a b => a < b) sinksFirst_sorts
    run).mp eliminated 0 (by decide)
  have first : ¬ (passedArc.Redundant 0 2 ∧ passedArc.Redundant 0 3) := (List.isChain_cons_cons.mp apart).1
  exact first ⟨redundant (by decide) (by decide), redundant (by decide) (by decide)⟩

end CPForkBlock
end Ahir.ControlPath
