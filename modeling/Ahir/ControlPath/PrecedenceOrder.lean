import Ahir.ControlPath.CPForkBlock

/-!
# The precedence order of a fork block

`Precedence_Order` scans the block from its entry: an element is put into the
scanned set when the last of its predecessors has been ordered, and the lowest
element of the scanned set is ordered next.  On a well formed block the result
lists every vertex once, each one after all its predecessors.
-/

set_option autoImplicit false

namespace Ahir.ControlPath.CPForkBlock
variable {E : Type} [DecidableEq E] (B : CPForkBlock E) (below : E → E → Bool)

/-- The neighbours of `top` whose predecessors have all been ordered join the
scanned set. -/
def scanNeighbours (ordered : List E) (scanned : List E) (adj : List E) : List E :=
  adj.foldl (fun scanned w =>
    if (B.predecessors w).all (fun u => u ∈ ordered) then insertPointer below w scanned
    else scanned) scanned

/-- The loop of `Precedence_Order`; the ordered set has the elements of the order. -/
def precedenceLoop : Nat → List E → List E → Option (List E)
  | _, [], order => some order
  | 0, _ :: _, _ => none
  | fuel + 1, top :: scanned, order =>
      precedenceLoop fuel
        (B.scanNeighbours below (order ++ [top]) scanned (B.successors top)) (order ++ [top])

/-- `Precedence_Order`, not reversed, from the entry. -/
def precedenceOrder (fuel : Nat) : Option (List E) :=
  if B.predecessors B.entry = [] then B.precedenceLoop below fuel [B.entry] [] else none

variable {B below}

theorem mem_scanNeighbours {ordered scanned adj : List E} {w : E} :
    w ∈ B.scanNeighbours below ordered scanned adj ↔
      w ∈ scanned ∨ (w ∈ adj ∧ ∀ u ∈ B.predecessors w, u ∈ ordered) := by
  unfold scanNeighbours
  induction adj generalizing scanned with
  | nil => simp
  | cons first rest ih =>
      rw [List.foldl_cons, ih]
      split_ifs with ready
      · simp only [List.all_eq_true, decide_eq_true_eq] at ready
        simp only [mem_insertPointer, List.mem_cons]
        constructor
        · rintro ((rfl | member) | ⟨member, allOrdered⟩)
          · exact Or.inr ⟨Or.inl rfl, ready⟩
          · exact Or.inl member
          · exact Or.inr ⟨Or.inr member, allOrdered⟩
        · rintro (member | ⟨rfl | member, allOrdered⟩)
          · exact Or.inl (Or.inr member)
          · exact Or.inl (Or.inl rfl)
          · exact Or.inr ⟨member, allOrdered⟩
      · simp only [List.all_eq_true, decide_eq_true_eq] at ready
        simp only [List.mem_cons]
        constructor
        · rintro (member | ⟨member, allOrdered⟩)
          · exact Or.inl member
          · exact Or.inr ⟨Or.inr member, allOrdered⟩
        · rintro (member | ⟨rfl | member, allOrdered⟩)
          · exact Or.inl member
          · exact absurd allOrdered ready
          · exact Or.inr ⟨member, allOrdered⟩

theorem nodup_scanNeighbours {ordered scanned adj : List E} (nodup : scanned.Nodup) :
    (B.scanNeighbours below ordered scanned adj).Nodup := by
  unfold scanNeighbours
  induction adj generalizing scanned with
  | nil => exact nodup
  | cons first rest ih =>
      rw [List.foldl_cons]
      split_ifs with ready
      · exact ih (nodup_insertPointer below nodup)
      · exact ih nodup

/-- What the loop keeps: nothing is listed twice, an element waits in the
scanned set exactly from when its last predecessor has been ordered. -/
structure Scanning (B : CPForkBlock E) (scanned order : List E) : Prop where
  inside : ∀ x, x ∈ scanned ∨ x ∈ order → x ∈ B.vertices
  nodup : (order ++ scanned).Nodup
  earlier : ∀ before x after, order = before ++ x :: after → ∀ y ∈ B.predecessors x, y ∈ before
  ready : ∀ x ∈ B.vertices, (x ∈ scanned ∨ x ∈ order) ↔ ∀ y ∈ B.predecessors x, y ∈ order

theorem Scanning.start (wf : B.WellFormed) : B.Scanning [B.entry] [] := by
  refine ⟨?_, ?_, ?_, ?_⟩
  · rintro x (member | member)
    · exact List.mem_singleton.mp member ▸ entry_mem
    · simp at member
  · simp
  · intro before x after split
    simp at split
  · intro x inside
    constructor
    · rintro (member | member)
      · rw [List.mem_singleton.mp member, wf.entry_first]
        simp
      · simp at member
    · intro none
      left
      by_contra notEntry
      obtain ⟨y, arc⟩ := wf.exists_predecessor inside (by simpa using notEntry)
      exact absurd (none y (wf.arc_iff.mp arc).2) (by simp)

theorem Scanning.step (wf : B.WellFormed) {top : E} {scanned order : List E}
    (scan : B.Scanning (top :: scanned) order) :
    B.Scanning (B.scanNeighbours below (order ++ [top]) scanned (B.successors top))
      (order ++ [top]) := by
  have topInside : top ∈ B.vertices := scan.inside top (Or.inl (by simp))
  have topReady : ∀ y ∈ B.predecessors top, y ∈ order :=
    (scan.ready top topInside).mp (Or.inl (by simp))
  have topFresh : top ∉ order := by
    intro member
    exact (List.disjoint_of_nodup_append scan.nodup) member (by simp)
  have nodup' : ((order ++ [top]) ++ scanned).Nodup := by simpa using scan.nodup
  refine ⟨?_, ?_, ?_, ?_⟩
  · rintro x (member | member)
    · rcases mem_scanNeighbours.mp member with member | ⟨member, _⟩
      · exact scan.inside x (Or.inl (List.mem_cons_of_mem _ member))
      · exact wf.successors_inside top topInside x member
    · rcases List.mem_append.mp member with member | member
      · exact scan.inside x (Or.inr member)
      · exact List.mem_singleton.mp member ▸ topInside
  · refine List.Nodup.append (List.Nodup.of_append_left nodup')
      (nodup_scanNeighbours (List.Nodup.of_append_right nodup')) ?_
    intro x inOrder inScanned
    rcases mem_scanNeighbours.mp inScanned with member | ⟨isNext, _⟩
    · exact List.disjoint_of_nodup_append nodup' inOrder member
    · -- a successor of `top` still waited for `top`
      have insideX := wf.successors_inside top topInside x isNext
      have isPrev := (wf.mirrored top topInside x insideX).mp isNext
      rcases List.mem_append.mp inOrder with member | member
      · exact topFresh ((scan.ready x insideX).mp (Or.inr member) top isPrev)
      · rw [List.mem_singleton.mp member] at isPrev
        exact topFresh (topReady top isPrev)
  · intro before x after split y isPrev
    rcases List.eq_nil_or_concat after with rfl | ⟨rest, last, rfl⟩
    · obtain ⟨rfl, same⟩ := List.append_inj' split rfl
      rw [← (List.cons.inj same).1] at isPrev
      exact topReady y isPrev
    · have split' : order ++ [top] = (before ++ x :: rest) ++ [last] := by simpa using split
      obtain ⟨rfl, _⟩ := List.append_inj' split' rfl
      exact scan.earlier before x rest rfl y isPrev
  · intro x insideX
    constructor
    · rintro (member | member) y isPrev
      · rcases mem_scanNeighbours.mp member with member | ⟨_, allOrdered⟩
        · exact List.mem_append_left _
            ((scan.ready x insideX).mp (Or.inl (List.mem_cons_of_mem _ member)) y isPrev)
        · exact allOrdered y isPrev
      · rcases List.mem_append.mp member with member | member
        · exact List.mem_append_left _ ((scan.ready x insideX).mp (Or.inr member) y isPrev)
        · rw [List.mem_singleton.mp member] at isPrev
          exact List.mem_append_left _ (topReady y isPrev)
    · intro allOrdered
      by_cases already : ∀ y ∈ B.predecessors x, y ∈ order
      · rcases (scan.ready x insideX).mpr already with member | member
        · rcases List.mem_cons.mp member with rfl | member
          · exact Or.inr (by simp)
          · exact Or.inl (mem_scanNeighbours.mpr (Or.inl member))
        · exact Or.inr (List.mem_append_left _ member)
      · obtain ⟨y, isPrev, late⟩ : ∃ y ∈ B.predecessors x, y ∉ order := by
          simpa using already
        have isTop : y = top := by
          rcases List.mem_append.mp (allOrdered y isPrev) with member | member
          · exact absurd member late
          · exact List.mem_singleton.mp member
        subst isTop
        exact Or.inl (mem_scanNeighbours.mpr
          (Or.inr ⟨(wf.mirrored y topInside x insideX).mpr isPrev, allOrdered⟩))

structure IsPrecedenceOrder (B : CPForkBlock E) (order : List E) : Prop where
  nodup : order.Nodup
  complete : ∀ x, x ∈ order ↔ x ∈ B.vertices
  earlier : ∀ before x after, order = before ++ x :: after → ∀ y ∈ B.predecessors x, y ∈ before

omit [DecidableEq E] in
theorem Scanning.finish (wf : B.WellFormed) {order : List E} (scan : B.Scanning [] order) :
    B.IsPrecedenceOrder order := by
  refine ⟨by simpa using scan.nodup, ?_, scan.earlier⟩
  have all : ∀ x : {x // x ∈ B.vertices}, x.val ∈ order := by
    intro x
    induction x using wf.wellFounded.induction with
    | _ x ih =>
        have waiting := (scan.ready x.val x.property).mpr (by
          intro y isPrev
          exact ih ⟨y, wf.predecessors_inside x.val x.property y isPrev⟩
            (wf.arc_iff.mpr ⟨x.property, isPrev⟩))
        simpa using waiting
  exact fun x => ⟨fun member => scan.inside x (Or.inr member), fun inside => all ⟨x, inside⟩⟩

theorem precedenceLoop_spec (wf : B.WellFormed) {fuel : Nat} {scanned order result : List E}
    (scan : B.Scanning scanned order)
    (run : B.precedenceLoop below fuel scanned order = some result) :
    B.IsPrecedenceOrder result := by
  induction fuel generalizing scanned order with
  | zero =>
      cases scanned with
      | nil =>
          obtain rfl := Option.some.inj run
          exact scan.finish wf
      | cons top rest => cases run
  | succ fuel ih =>
      cases scanned with
      | nil =>
          obtain rfl := Option.some.inj run
          exact scan.finish wf
      | cons top rest => exact ih (scan.step wf) run

theorem precedenceOrder_spec (wf : B.WellFormed) {fuel : Nat} {order : List E}
    (run : B.precedenceOrder below fuel = some order) : B.IsPrecedenceOrder order := by
  rw [precedenceOrder, if_pos wf.entry_first] at run
  exact precedenceLoop_spec wf (Scanning.start wf) run

end Ahir.ControlPath.CPForkBlock
