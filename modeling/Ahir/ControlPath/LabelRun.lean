import Ahir.ControlPath.LabelInvariant

/-!
# The run of the label pass

One turn of the loop carries the invariant from the vertices visited so far to
these and the next one, so the invariant holds of all vertices at the end, and
what the labels stand for is a token flow through the block.
-/

set_option autoImplicit false

namespace Ahir.ControlPath
open Ahir.Graph
variable {E : Type} [DecidableEq E] {B : CPForkBlock E} {addr : Addresses E}
  {sub : SubBlockLabels E}

section Order
variable {order done rest : List E} {x : E}

def placeIn (order : List E) (x : E) : Nat := order.idxOf x

theorem placeIn_lt_iff (nodup : order.Nodup) (split : order = done ++ x :: rest) {t : E} :
    placeIn order t < placeIn order x ↔ t ∈ done := by
  subst split
  have fresh : x ∉ done := by
    intro member
    exact List.disjoint_of_nodup_append nodup member (by simp)
  have place : (done ++ x :: rest).idxOf x = done.length := by
    rw [List.idxOf_append_of_notMem fresh, List.idxOf_cons_self, Nat.add_zero]
  unfold placeIn
  rw [place]
  by_cases member : t ∈ done
  · rw [List.idxOf_append_of_mem member]
    exact iff_of_true (List.idxOf_lt_length_of_mem member) member
  · rw [List.idxOf_append_of_notMem member]
    exact iff_of_false (by omega) member

theorem next_of_split (isOrder : B.IsPrecedenceOrder order)
    (split : order = done ++ x :: rest) : Next B (placeIn order) done x := by
  have fresh : x ∉ done := by
    intro member
    exact List.disjoint_of_nodup_append (split ▸ isOrder.nodup) member (by simp)
  refine ⟨?_, fresh, isOrder.earlier done x rest split, ?_, ?_⟩
  · exact (isOrder.complete x).mp (by simp [split])
  · exact fun t _ => placeIn_lt_iff isOrder.nodup split
  · exact fun y member => (isOrder.complete y).mp (by simp [split, member])

theorem upward_of_order (wf : B.WellFormed) (isOrder : B.IsPrecedenceOrder order) :
    ∀ x ∈ B.inside, ∀ y ∈ B.successors x, placeIn order x < placeIn order y := by
  intro x insideX y isNext
  have insideY := wf.successors_inside x insideX y isNext
  obtain ⟨before, after, split⟩ := List.append_of_mem ((isOrder.complete y).mpr insideY)
  exact (placeIn_lt_iff isOrder.nodup split).mpr
    (isOrder.earlier before y after split x ((wf.mirrored x insideX y insideY).mp isNext))

theorem low_of_split (isOrder : B.IsPrecedenceOrder order) (split : order = done ++ rest) :
    ∀ x ∈ done, ∀ t ∈ B.inside, placeIn order t < placeIn order x → t ∈ done := by
  intro x member t _ less
  obtain ⟨before, after, rfl⟩ := List.append_of_mem member
  have inBefore := (placeIn_lt_iff isOrder.nodup
    (split.trans (by simp : before ++ x :: after ++ rest = before ++ x :: (after ++ rest)))).mp less
  exact List.mem_append_left _ inBefore

end Order

section Visit
variable {rank : E → Nat} {done : List E} {s s' : LabelState E}

theorem passOn_label {t : E} {reduced : LabelId E} {way : E × Nat} :
    (passOn addr B t reduced s way).compatibilityLabel = s.compatibilityLabel := by
  obtain ⟨ncpe, idx⟩ := way
  cases map : s.nlMap ncpe <;>
    simp only [passOn, LabelState.findOrMakeLabel, map] <;> split_ifs <;> rfl

theorem passOn_single {t ncpe : E} {reduced : LabelId E} {idx : Nat}
    (single : (B.successors t).length = 1) :
    passOn addr B t reduced s (ncpe, idx) = passAlong addr reduced s ncpe := by
  simp only [passOn, passAlong, if_pos single]

variable (addr) in
theorem Labelled.afterPassOnAll (wf : B.WellFormed) {sent : E → Nat → Prop} {t : E} {reduced : LabelId E}
    (upward : ∀ x ∈ B.inside, ∀ y ∈ B.successors x, rank x < rank y)
    (low : ∀ x ∈ done, ∀ t ∈ B.inside, rank t < rank x → t ∈ done)
    (visited : t ∈ done) (insideT : t ∈ B.vertices) (notYet : ∀ i, ¬ sent t i)
    (later : ∀ y ∈ B.successors t, y ∉ done) :
    ∀ (pre rest : List E) (s : LabelState E), B.successors t = pre ++ rest →
      s.compatibilityLabel t = some reduced →
      Labelled B rank done (fun y i => sent y i ∨ (y = t ∧ i < pre.length)) s →
      Labelled B rank done (fun y i => sent y i ∨ (y = t ∧ i < (B.successors t).length))
        ((rest.zipIdx pre.length).foldl (passOn addr B t reduced) s) := by
  intro pre rest
  induction rest generalizing pre with
  | nil =>
      intro s split _ lab
      rw [split, List.append_nil]
      exact lab
  | cons ncpe rest ih =>
      intro s split label lab
      have way : (B.successors t)[pre.length]? = some ncpe := by simp [split]
      have isNext : ncpe ∈ B.successors t := List.mem_of_getElem? way
      have step : Labelled B rank done _ (passOn addr B t reduced s (ncpe, pre.length)) :=
        lab.afterPassOn wf upward low visited label way (later ncpe isNext) insideT (by simp [notYet])
      rw [List.zipIdx_cons, List.foldl_cons]
      have lengths : pre.length + 1 = (pre ++ [ncpe]).length := by simp
      rw [lengths]
      refine ih (pre ++ [ncpe]) _ (by simp [split]) (by rw [passOn_label]; exact label) ?_
      have same : (fun y i => sent y i ∨ (y = t ∧ i < (pre ++ [ncpe]).length)) =
          (fun y i => (sent y i ∨ (y = t ∧ i < pre.length)) ∨ (y = t ∧ i = pre.length)) := by
        funext y i
        apply propext
        simp only [List.length_append, List.length_singleton]
        constructor
        · rintro (isSent | ⟨rfl, less⟩)
          · exact Or.inl (Or.inl isSent)
          · rcases Nat.lt_or_eq_of_le (Nat.le_of_lt_succ less) with less | same
            · exact Or.inl (Or.inr ⟨rfl, less⟩)
            · exact Or.inr ⟨rfl, same⟩
        · rintro ((isSent | ⟨rfl, less⟩) | ⟨rfl, rfl⟩)
          · exact Or.inl isSent
          · exact Or.inr ⟨rfl, by omega⟩
          · exact Or.inr ⟨rfl, by omega⟩
      rw [same]
      exact step

theorem Labelled.afterAllForeign {sent : E → Nat → Prop}
    (visitedInside : ∀ y ∈ done, y ∈ B.vertices)
    (upward : ∀ x ∈ B.inside, ∀ y ∈ B.successors x, rank x < rank y)
    (low : ∀ x ∈ done, ∀ t ∈ B.inside, rank t < rank x → t ∈ done)
    {below : LabelId E → LabelId E → Bool} :
    ∀ (made : List (LabelId E × LabelArcs E)) (s : LabelState E), (∀ m ∈ made, Foreign B m.1) →
      Labelled B rank done sent s →
      Labelled B rank done sent
        (made.foldl (fun s m => s.makeCompatibilityLabel below m.1 m.2) s) := by
  intro made
  induction made with
  | nil => exact fun s _ lab => lab
  | cons m rest ih =>
      intro s isForeign lab
      exact ih _ (fun m' member => isForeign m' (List.mem_cons_of_mem _ member))
        (lab.afterForeign visitedInside upward low (isForeign m List.mem_cons_self))

theorem foldl_make_label {below : LabelId E → LabelId E → Bool}
    (made : List (LabelId E × LabelArcs E)) (s : LabelState E) :
    (made.foldl (fun s m => s.makeCompatibilityLabel below m.1 m.2) s).compatibilityLabel =
      s.compatibilityLabel := by
  induction made generalizing s with
  | nil => rfl
  | cons m rest ih => exact ih _

omit [DecidableEq E] in
theorem allSent_append {x : E} :
    (fun y i => allSent B done y i ∨ (y = x ∧ i < (B.successors x).length)) =
      allSent B (done ++ [x]) := by
  funext y i
  apply propext
  simp only [allSent, List.mem_append, List.mem_singleton]
  constructor
  · rintro (⟨visited, bound⟩ | ⟨rfl, bound⟩)
    · exact ⟨Or.inl visited, bound⟩
    · exact ⟨Or.inr rfl, bound⟩
  · rintro ⟨visited | rfl, bound⟩
    · exact Or.inl ⟨visited, bound⟩
    · exact Or.inr ⟨rfl, bound⟩

theorem Labelled.afterPassToSuccessors (wf : B.WellFormed) (separate : sub.Separate B) {x : E}
    {reduced : LabelId E} (lab : Labelled B rank (done ++ [x]) (allSent B done) s)
    (upward : ∀ x ∈ B.inside, ∀ y ∈ B.successors x, rank x < rank y)
    (low : ∀ y ∈ done ++ [x], ∀ t ∈ B.inside, rank t < rank y → t ∈ done ++ [x])
    (next : Next B rank done x) (label : s.compatibilityLabel x = some reduced)
    (run : passToSuccessors addr sub B x reduced s = some s') :
    Labelled B rank (done ++ [x]) (allSent B (done ++ [x])) s' := by
  have visited : x ∈ done ++ [x] := by simp
  have visitedInside : ∀ y ∈ done ++ [x], y ∈ B.vertices := by
    intro y member
    rcases List.mem_append.mp member with member | member
    · exact next.visited_inside y member
    · exact List.mem_singleton.mp member ▸ next.inside
  have notYet : ∀ i, ¬ allSent B done x i := fun i sent => next.fresh sent.1
  have later : ∀ y ∈ B.successors x, y ∉ done ++ [x] := by
    intro y isNext member
    have less := upward x next.inside y isNext
    rcases List.mem_append.mp member with member | member
    · have := (next.lower y (next.visited_inside y member)).mpr member
      omega
    · rw [List.mem_singleton.mp member] at less
      omega
  have start : ∀ s, Labelled B rank (done ++ [x]) (allSent B done) s →
      Labelled B rank (done ++ [x])
        (fun y i => allSent B done y i ∨ (y = x ∧ i < ([] : List E).length)) s := by
    intro s lab
    simpa using lab
  unfold passToSuccessors at run
  split_ifs at run with isTransition single
  · obtain rfl := Option.some.inj run
    rw [← allSent_append]
    exact Labelled.afterPassOnAll addr wf upward low visited next.inside notYet later []
      (B.successors x) s rfl label
      (start s lab)
  · obtain rfl := Option.some.inj run
    have made : Labelled B rank (done ++ [x]) (allSent B done) ((sub x reduced).foldl
        (fun s m => s.makeCompatibilityLabel addr.label m.1 m.2) s) :=
      Labelled.afterAllForeign visitedInside upward low (sub x reduced) s (separate x reduced) lab
    obtain ⟨ncpe, only⟩ := List.length_eq_one_iff.mp single
    have all := Labelled.afterPassOnAll addr wf upward low visited next.inside notYet later
      [] (B.successors x) _ rfl ((foldl_make_label (sub x reduced) s).symm ▸ label) (start _ made)
    rw [← allSent_append]
    rw [only] at all ⊢
    simpa only [List.zipIdx_cons, List.zipIdx_nil, List.foldl_cons, List.foldl_nil,
      passOn_single single] using all

theorem Labelled.afterVisit (wf : B.WellFormed) (separate : sub.Separate B)
    (lab : Labelled B rank done (allSent B done) s)
    (upward : ∀ x ∈ B.inside, ∀ y ∈ B.successors x, rank x < rank y)
    (low : ∀ x ∈ done, ∀ t ∈ B.inside, rank t < rank x → t ∈ done) {x : E}
    (next : Next B rank done x)
    (low' : ∀ y ∈ done ++ [x], ∀ t ∈ B.inside, rank t < rank y → t ∈ done ++ [x]) {fuel : Nat}
    (run : visit addr sub B fuel s x = some s') :
    Labelled B rank (done ++ [x]) (allSent B (done ++ [x])) s' := by
  rw [visit.eq_def] at run
  cases map : s.nlMap x with
  | none => simp [map] at run
  | some nl =>
      simp only [map] at run
      split at run
      · cases run
      · next unlabeled reduced loop =>
          have spec : SettledAt s x nl unlabeled reduced (s.settle x nl unlabeled reduced) :=
            settledAt_spec
          have settled := lab.afterSettle wf upward low next map loop spec
          have label := (spec.label x).trans (if_pos rfl)
          exact settled.afterPassToSuccessors wf separate upward low' next label run

theorem labelled_inheritedState : Labelled B rank [] (allSent B []) (inheritedState B) := by
  have none : ∀ {P : Prop} (y i), allSent B [] y i → P := by
    rintro P y i ⟨member, _⟩
    simp at member
  refine ⟨fun y i => none y i, ?_, ?_, rfl, fun t i => none t i, ?_, ?_, ?_, ?_⟩
  · simp [inheritedState]
  · intro x l label
    simp [inheritedState] at label
  · intro b _ _ nl map
    simp only [inheritedState] at map
    split_ifs at map with isEntry
    exact Or.inl ⟨isEntry, (Option.some.inj map).symm⟩
  · intro b _ _
    simp only [inheritedState]
    split_ifs with isEntry
    · simp [isEntry]
    · simp only [ne_eq, not_true_eq_false, false_iff, not_or]
      exact ⟨isEntry, fun ⟨y, i, sent, _⟩ => none y i sent⟩
  · intro l member _
    exact Or.inl (Or.inl (List.mem_singleton.mp member))
  · intro x member
    simp at member

end Visit

section Run
variable {order : List E} {s s' : LabelState E}

theorem Labelled.afterVisitAll (wf : B.WellFormed) (separate : sub.Separate B)
    (isOrder : B.IsPrecedenceOrder order) {fuel : Nat} :
    ∀ (rest done : List E) (s : LabelState E), order = done ++ rest →
      Labelled B (placeIn order) done (allSent B done) s →
      visitAll addr sub B fuel rest s = some s' →
      Labelled B (placeIn order) order (allSent B order) s' := by
  intro rest
  induction rest with
  | nil =>
      intro done s split lab run
      rw [List.append_nil] at split
      subst split
      obtain rfl := Option.some.inj run
      exact lab
  | cons x rest ih =>
      intro done s split lab run
      have split' : order = (done ++ [x]) ++ rest := by simpa using split
      rw [visitAll.eq_def] at run
      simp only at run
      split at run
      · cases run
      · next s1 visited =>
          refine ih (done ++ [x]) s1 split' ?_ run
          exact lab.afterVisit wf separate (upward_of_order wf isOrder) (low_of_split isOrder split)
            (next_of_split isOrder split) (low_of_split isOrder split') visited

theorem computeForkBlockLabels_spec (wf : B.WellFormed) (separate : sub.Separate B) {fuel : Nat}
    (run : computeForkBlockLabels addr sub B fuel = some s) :
    ∃ order, B.IsPrecedenceOrder order ∧ Labelled B (placeIn order) order (allSent B order) s := by
  rw [computeForkBlockLabels.eq_def] at run
  split at run
  · cases run
  · next order found =>
      have isOrder := CPForkBlock.precedenceOrder_spec wf found
      exact ⟨order, isOrder,
        Labelled.afterVisitAll wf separate isOrder order [] _ rfl labelled_inheritedState run⟩

def tokenFlow (wf : B.WellFormed) (isOrder : B.IsPrecedenceOrder order)
    (lab : Labelled B (placeIn order) order (allSent B order) s) : TokenFlow E where
  inside := B.inside
  next := B.successors
  entry := B.entry
  exit := B.exit
  rank := placeIn order
  held := heldBy s.arcs s.compatibilityLabel
  next_inside := wf.successors_inside
  next_nodup := wf.successors_nodup
  exit_last := wf.exit_last
  rank_injective := by
    intro x insideX y _ same
    exact (List.idxOf_inj ((isOrder.complete x).mpr insideX)).mp same
  upward := upward_of_order wf isOrder
  entry_inside := CPForkBlock.entry_mem
  from_entry := wf.from_entry
  to_exit := wf.to_exit
  trades := fun x insideX => lab.trades x ((isOrder.complete x).mpr insideX)

end Run

end Ahir.ControlPath
