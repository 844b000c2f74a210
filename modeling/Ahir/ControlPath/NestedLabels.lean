import Ahir.ControlPath.LabelTree
import Ahir.ControlPath.NestedBlocks

/-!
# Compatible elements of nested blocks

A series block and a branch block hand their label to all that they hold; a parallel block
with several elements makes a label for each of them.  Two transitions or places are then
compatible unless a parallel block has them in different elements, so that operators are
shared wherever the order of the blocks allows it and nowhere else.
-/

set_option autoImplicit false

namespace Ahir.ControlPath
open Ahir.Graph Relation
variable {E : Type} [DecidableEq E]

/-- The label of the element at the position: that of the block, or the one that the fork
makes for it. -/
def wayLabel (way : Option E) (idx : Nat) (l : LabelId E) : LabelId E :=
  match way with
  | none => l
  | some t => .forFork t idx

/-- `Make_Compatibility_Label` and `Add_In_Arc` where the element gets a label of its own. -/
def LabelState.makeWay (below : LabelId E → LabelId E → Bool) (way : Option E) (idx : Nat) (l : LabelId E)
    (s : LabelState E) : LabelState E :=
  match way with
  | none => s
  | some t => s.makeCompatibilityLabel below (.forFork t idx) ⟨some (l, t, idx), []⟩

/-- The fork by which a block gives a label to each of its elements: the entry of a parallel
block with several. -/
def BlockKind.way (L : Level E) : BlockKind E → Option E
  | parallel => if 1 < L.elements.length then some L.entry else none
  | _ => none

omit [DecidableEq E] in
theorem BlockKind.way_eq_some {kind : BlockKind E} {L : Level E} {t : E} (isWay : kind.way L = some t) :
    kind = parallel ∧ t = L.entry := by
  cases kind with
  | parallel =>
      unfold way at isWay
      split_ifs at isWay
      exact ⟨rfl, (Option.some.inj isWay).symm⟩
  | _ => exact absurd isWay (Option.some_ne_none t).symm

/-- `Set_Compatibility_Label`. -/
def LabelState.setLabel (cpe : E) (l : LabelId E) (s : LabelState E) : LabelState E :=
  { s with compatibilityLabel := fun e => if e = cpe then some l else s.compatibilityLabel e }

namespace CPElements
variable (kind : E → BlockKind E)

/-- `Compute_Compatibility_Labels` of the elements of a series, parallel or branch block,
from the position on; a fork block has a pass of its own. -/
def computeLabels (below : LabelId E → LabelId E → Bool) :
    CPElements E → Option E → Nat → LabelId E → LabelState E → LabelState E
  | nil, _, _, _, s => s
  | element cpe rest, way, idx, l, s =>
      let s := (s.makeWay below way idx l).setLabel cpe (wayLabel way idx l)
      rest.computeLabels below way (idx + 1) l s
  | block b entry exit inner rest, way, idx, l, s =>
      let nl := wayLabel way idx l
      let s := ((s.makeWay below way idx l).setLabel b nl).setLabel entry nl
      let s := inner.computeLabels below ((kind b).way ⟨b, entry, exit, inner.items⟩) 0 nl s
      rest.computeLabels below way (idx + 1) l (s.setLabel exit nl)

def firstLabel : LabelState E where
  arcs := fun _ => ⟨none, []⟩
  labelSet := [.inherited]
  nlMap := fun _ => none
  compatibilityLabel := fun _ => none

def computeCompatibilityLabels (addr : Addresses E) (P : CPElements E) (fuel : Nat) : Option (CompatibilityResult E) :=
  let s := P.computeLabels kind addr.label none 0 .inherited firstLabel
  match LabelGraph.connect addr.label fuel s with
  | none => none
  | some g =>
      match g.updateCompatibilityMap addr fuel with
      | none => none
      | some g => some ⟨s.compatibilityLabel, g⟩

/-! ### What the pass assigns and makes -/

def assigned : CPElements E → Option E → Nat → LabelId E → List (E × LabelId E)
  | nil, _, _, _ => []
  | element cpe rest, way, idx, l => (cpe, wayLabel way idx l) :: rest.assigned way (idx + 1) l
  | block b entry exit inner rest, way, idx, l =>
      let nl := wayLabel way idx l
      (b, nl) :: (entry, nl) :: (inner.assigned ((kind b).way ⟨b, entry, exit, inner.items⟩) 0 nl ++
        (exit, nl) :: rest.assigned way (idx + 1) l)

def wayMade (way : Option E) (idx : Nat) (l : LabelId E) : List (LabelId E × LabelArcs E) :=
  match way with
  | none => []
  | some t => [(.forFork t idx, ⟨some (l, t, idx), []⟩)]

def made : CPElements E → Option E → Nat → LabelId E → List (LabelId E × LabelArcs E)
  | nil, _, _, _ => []
  | element _ rest, way, idx, l => wayMade way idx l ++ rest.made way (idx + 1) l
  | block b entry exit inner rest, way, idx, l =>
      wayMade way idx l ++ (inner.made ((kind b).way ⟨b, entry, exit, inner.items⟩) 0 (wayLabel way idx l) ++
        rest.made way (idx + 1) l)

/-- `Set_Compatibility_Label` for each. -/
def setAll (labels : List (E × LabelId E)) (s : LabelState E) : LabelState E :=
  labels.foldl (fun s p => s.setLabel p.1 p.2) s

theorem setAll_frame (labels : List (E × LabelId E)) (s : LabelState E) :
    (setAll labels s).arcs = s.arcs ∧ (setAll labels s).labelSet = s.labelSet := by
  induction labels generalizing s with
  | nil => exact ⟨rfl, rfl⟩
  | cons p labels ih => exact ih (s.setLabel p.1 p.2)

variable {kind} {below : LabelId E → LabelId E → Bool}

theorem makeAll_setLabel (labels : List (LabelId E × LabelArcs E)) (cpe : E) (l : LabelId E) (s : LabelState E) :
    (s.setLabel cpe l).makeAll below labels = (s.makeAll below labels).setLabel cpe l := by
  induction labels generalizing s with
  | nil => rfl
  | cons m labels ih => exact ih (s.makeCompatibilityLabel below m.1 m.2)

theorem makeAll_setAll (labels : List (LabelId E × LabelArcs E)) (set : List (E × LabelId E)) (s : LabelState E) :
    (setAll set s).makeAll below labels = setAll set (s.makeAll below labels) := by
  induction set generalizing s with
  | nil => rfl
  | cons p set ih =>
      rw [setAll, List.foldl_cons, ← setAll, ih, makeAll_setLabel]
      rfl

theorem makeWay_eq (way : Option E) (idx : Nat) (l : LabelId E) (s : LabelState E) :
    s.makeWay below way idx l = s.makeAll below (wayMade way idx l) := by
  cases way with
  | none => rfl
  | some t => rfl

theorem makeAll_append (first second : List (LabelId E × LabelArcs E)) (s : LabelState E) :
    s.makeAll below (first ++ second) = (s.makeAll below first).makeAll below second :=
  List.foldl_append

theorem setAll_append (first second : List (E × LabelId E)) (s : LabelState E) :
    setAll (first ++ second) s = setAll second (setAll first s) :=
  List.foldl_append

theorem setAll_cons (p : E × LabelId E) (labels : List (E × LabelId E)) (s : LabelState E) :
    setAll (p :: labels) s = setAll labels (s.setLabel p.1 p.2) := rfl

/-- The pass makes its labels and sets those of the elements, whatever comes first. -/
theorem computeLabels_eq (P : CPElements E) (way : Option E) (idx : Nat) (l : LabelId E) (s : LabelState E) :
    P.computeLabels kind below way idx l s =
      setAll (P.assigned kind way idx l) (s.makeAll below (P.made kind way idx l)) := by
  induction P generalizing way idx l s with
  | nil => rfl
  | element cpe rest ih =>
      rw [computeLabels, ih, makeAll_setLabel, makeWay_eq, made, assigned, makeAll_append, setAll_cons]
  | block b entry exit inner rest ihInner ihRest =>
      simp only [computeLabels, ihRest, ihInner, makeWay_eq, made, assigned, makeAll_append, makeAll_setLabel,
        makeAll_setAll, setAll_cons, setAll_append]

omit [DecidableEq E] in
theorem assigned_keys [DecidableEq E] (P : CPElements E) (way : Option E) (idx : Nat) (l : LabelId E) :
    ((P.assigned kind way idx l).map Prod.fst).Perm P.visited := by
  induction P generalizing way idx l with
  | nil => exact .refl _
  | element cpe rest ih => exact (ih way (idx + 1) l).cons cpe
  | block b entry exit inner rest ihInner ihRest =>
      refine List.perm_iff_count.mpr fun x => ?_
      have countInner := (ihInner ((kind b).way ⟨b, entry, exit, inner.items⟩) 0 (wayLabel way idx l)).count_eq x
      have countRest := (ihRest way (idx + 1) l).count_eq x
      simp only [assigned, visited, List.map_append, List.map_cons, List.count_append, List.count_cons] at countInner countRest ⊢
      omega

theorem setAll_of_notMem {labels : List (E × LabelId E)} {s : LabelState E} {x : E} (new : x ∉ labels.map Prod.fst) :
    (setAll labels s).compatibilityLabel x = s.compatibilityLabel x := by
  induction labels generalizing s with
  | nil => rfl
  | cons p labels ih =>
      simp only [List.map_cons, List.mem_cons, not_or] at new
      rw [setAll, List.foldl_cons, ← setAll, ih new.2]
      exact if_neg new.1

theorem setAll_of_mem {labels : List (E × LabelId E)} {s : LabelState E} {x : E} {l : LabelId E}
    (distinct : (labels.map Prod.fst).Nodup) (member : (x, l) ∈ labels) :
    (setAll labels s).compatibilityLabel x = some l := by
  induction labels generalizing s with
  | nil => exact absurd member List.not_mem_nil
  | cons p labels ih =>
      obtain ⟨new, distinct⟩ := List.nodup_cons.mp distinct
      rw [setAll, List.foldl_cons, ← setAll]
      rcases List.mem_cons.mp member with rfl | member
      · rw [setAll_of_notMem new]
        exact if_pos rfl
      · exact ih distinct member

/-! ### The labels of a level -/

omit [DecidableEq E] in
theorem assigned_item (P : CPElements E) (way : Option E) (idx : Nat) (l : LabelId E) {i : Nat} {x : E}
    (isItem : P.items[i]? = some x) : (x, wayLabel way (idx + i) l) ∈ P.assigned kind way idx l := by
  induction P generalizing idx i with
  | nil => simp [items] at isItem
  | element cpe rest ih =>
      cases i with
      | zero =>
          obtain rfl : cpe = x := by simpa [items] using isItem
          exact List.mem_cons_self
      | succ i =>
          rw [items, List.getElem?_cons_succ] at isItem
          have later := ih (idx + 1) isItem
          rw [Nat.add_right_comm, Nat.add_assoc] at later
          exact .tail _ later
  | block b entry exit inner rest _ ih =>
      cases i with
      | zero =>
          obtain rfl : b = x := by simpa [items] using isItem
          exact List.mem_cons_self
      | succ i =>
          rw [items, List.getElem?_cons_succ] at isItem
          have later := ih (idx + 1) isItem
          rw [Nat.add_right_comm, Nat.add_assoc] at later
          simp [assigned, later]

omit [DecidableEq E] in
theorem made_item (P : CPElements E) {t : E} (idx : Nat) (l : LabelId E) {i : Nat} (isItem : i < P.items.length) :
    (.forFork t (idx + i), ⟨some (l, t, idx + i), []⟩) ∈ P.made kind (some t) idx l := by
  induction P generalizing idx i with
  | nil => exact absurd isItem (Nat.not_lt_zero i)
  | element cpe rest ih =>
      cases i with
      | zero => exact List.mem_cons_self
      | succ i =>
          have later := ih (idx + 1) (Nat.lt_of_succ_lt_succ isItem)
          rw [Nat.add_right_comm, Nat.add_assoc] at later
          exact .tail _ later
  | block b entry exit inner rest _ ih =>
      cases i with
      | zero => exact List.mem_cons_self
      | succ i =>
          have later := ih (idx + 1) (Nat.lt_of_succ_lt_succ isItem)
          rw [Nat.add_right_comm, Nat.add_assoc] at later
          exact List.mem_append_right _ (List.mem_append_right _ later)

structure LevelLabels (kind : E → BlockKind E) (A : List (E × LabelId E)) (M : List (LabelId E × LabelArcs E))
    (L : Level E) (l : LabelId E) : Prop where
  block : (L.block, l) ∈ A
  entry : (L.entry, l) ∈ A
  exit : (L.exit, l) ∈ A
  elements : ∀ i x, L.elements[i]? = some x → (x, wayLabel ((kind L.block).way L) i l) ∈ A
  made : ∀ t, (kind L.block).way L = some t → ∀ i < L.elements.length, (.forFork t i, ⟨some (l, t, i), []⟩) ∈ M

omit [DecidableEq E] in
theorem LevelLabels.mono {A A' : List (E × LabelId E)} {M M' : List (LabelId E × LabelArcs E)} {L : Level E}
    {l : LabelId E} (labels : LevelLabels kind A M L l) (moreA : A ⊆ A') (moreM : M ⊆ M') :
    LevelLabels kind A' M' L l where
  block := moreA labels.block
  entry := moreA labels.entry
  exit := moreA labels.exit
  elements := fun i x isElement => moreA (labels.elements i x isElement)
  made := fun t isWay i inside => moreM (labels.made t isWay i inside)

omit [DecidableEq E] in
theorem level_labels (P : CPElements E) (way : Option E) (idx : Nat) (l : LabelId E) :
    ∀ L ∈ P.levels, ∃ nl, LevelLabels kind (P.assigned kind way idx l) (P.made kind way idx l) L nl := by
  induction P generalizing way idx l with
  | nil => simp [levels]
  | element cpe rest ih =>
      intro L isLevel
      obtain ⟨nl, labels⟩ := ih way (idx + 1) l L isLevel
      exact ⟨nl, labels.mono (List.subset_cons_self _ _) (List.subset_append_right _ _)⟩
  | block b entry exit inner rest ihInner ihRest =>
      let L' : Level E := ⟨b, entry, exit, inner.items⟩
      let nl := wayLabel way idx l
      have innerA : inner.assigned kind ((kind b).way L') 0 nl ⊆
          (CPElements.block b entry exit inner rest).assigned kind way idx l := by
        intro p member
        simp [assigned, member, nl, L']
      have innerM : inner.made kind ((kind b).way L') 0 nl ⊆
          (CPElements.block b entry exit inner rest).made kind way idx l := by
        intro m member
        simp [made, member, nl, L']
      intro L isLevel
      rcases List.mem_append.mp isLevel with isInner | isLevel
      · obtain ⟨nl', labels⟩ := ihInner ((kind b).way L') 0 nl L isInner
        exact ⟨nl', labels.mono innerA innerM⟩
      · rcases List.mem_cons.mp isLevel with rfl | isRest
        · refine ⟨nl, by simp [assigned, nl], by simp [assigned, nl], by simp [assigned, nl], ?_, ?_⟩
          · intro i x isElement
            have item := @assigned_item E kind inner ((kind b).way L') 0 nl i x isElement
            rw [Nat.zero_add] at item
            exact innerA item
          · intro t isWay i inside
            have item := @made_item E kind inner t 0 nl i inside
            rw [Nat.zero_add] at item
            exact innerM (isWay ▸ item)
        · obtain ⟨nl', labels⟩ := ihRest way (idx + 1) l L isRest
          refine ⟨nl', labels.mono (fun p member => ?_) fun m member => ?_⟩
          · simp [assigned, member]
          · simp [made, member]

/-! ### The tree of the labels -/

omit [DecidableEq E] in
theorem wayMade_hangs (way : Option E) (idx : Nat) (l : LabelId E) {before : List (LabelId E)} (inside : l ∈ before) :
    Hangs before (wayMade way idx l) ∧ wayLabel way idx l ∈ before ++ (wayMade way idx l).map Prod.fst := by
  cases way with
  | none => exact ⟨trivial, List.mem_append_left _ inside⟩
  | some t => exact ⟨⟨⟨l, inside, t, idx, rfl⟩, trivial⟩, List.mem_append_right _ List.mem_cons_self⟩

omit [DecidableEq E] in
theorem made_hangs (P : CPElements E) (way : Option E) (idx : Nat) (l : LabelId E) {before : List (LabelId E)}
    (inside : l ∈ before) : Hangs before (P.made kind way idx l) := by
  induction P generalizing way idx l before with
  | nil => trivial
  | element cpe rest ih =>
      exact (wayMade_hangs way idx l inside).1.append (ih way (idx + 1) l (List.mem_append_left _ inside))
  | block b entry exit inner rest ihInner ihRest =>
      obtain ⟨first, labelInside⟩ := wayMade_hangs way idx l inside
      refine first.append ((ihInner _ 0 _ labelInside).append (ihRest way (idx + 1) l ?_))
      exact List.mem_append_left _ (List.mem_append_left _ inside)

omit [DecidableEq E] in
theorem wayMade_key {way : Option E} {idx : Nat} {l w : LabelId E} (isKey : w ∈ (wayMade way idx l).map Prod.fst) :
    ∃ t, way = some t ∧ w = .forFork t idx := by
  cases way with
  | none => exact absurd isKey List.not_mem_nil
  | some t => exact ⟨t, rfl, List.mem_singleton.mp isKey⟩

omit [DecidableEq E] in
/-- A label is made by the fork of the block or by the entry of a block within. -/
theorem made_key (P : CPElements E) (way : Option E) (idx : Nat) (l : LabelId E) :
    ∀ w ∈ (P.made kind way idx l).map Prod.fst, ∃ t i, w = .forFork t i ∧ (way = some t ∧ idx ≤ i ∨ t ∈ P.visited) := by
  induction P generalizing way idx l with
  | nil => exact fun w isKey => absurd isKey List.not_mem_nil
  | element cpe rest ih =>
      intro w isKey
      rw [made, List.map_append] at isKey
      rcases List.mem_append.mp isKey with isFirst | isLater
      · obtain ⟨t, isWay, rfl⟩ := wayMade_key isFirst
        exact ⟨t, idx, rfl, .inl ⟨isWay, le_refl idx⟩⟩
      · obtain ⟨t, i, rfl, ⟨isWay, later⟩ | isVisited⟩ := ih way (idx + 1) l w isLater
        · exact ⟨t, i, rfl, .inl ⟨isWay, Nat.le_of_succ_le later⟩⟩
        · exact ⟨t, i, rfl, .inr (.tail _ isVisited)⟩
  | block b entry exit inner rest ihInner ihRest =>
      intro w isKey
      rw [made, List.map_append, List.map_append] at isKey
      rcases List.mem_append.mp isKey with isFirst | isLater
      · obtain ⟨t, isWay, rfl⟩ := wayMade_key isFirst
        exact ⟨t, idx, rfl, .inl ⟨isWay, le_refl idx⟩⟩
      · rcases List.mem_append.mp isLater with isInner | isRest
        · obtain ⟨t, i, rfl, ⟨isWay, -⟩ | isVisited⟩ := ihInner _ 0 _ w isInner
          · obtain rfl := (BlockKind.way_eq_some isWay).2
            exact ⟨t, i, rfl, .inr List.mem_cons_self⟩
          · exact ⟨t, i, rfl, .inr (by simp [visited, isVisited])⟩
        · obtain ⟨t, i, rfl, ⟨isWay, later⟩ | isVisited⟩ := ihRest way (idx + 1) l w isRest
          · exact ⟨t, i, rfl, .inl ⟨isWay, Nat.le_of_succ_le later⟩⟩
          · exact ⟨t, i, rfl, .inr (by simp [visited, isVisited])⟩

omit [DecidableEq E] in
theorem made_nodup (P : CPElements E) (way : Option E) (idx : Nat) (l : LabelId E) (distinct : P.visited.Nodup)
    (new : ∀ t, way = some t → t ∉ P.visited) : ((P.made kind way idx l).map Prod.fst).Nodup := by
  have first (way : Option E) (idx : Nat) (l : LabelId E) : ((wayMade way idx l).map Prod.fst).Nodup := by
    cases way with
    | none => exact List.nodup_nil
    | some t => exact List.nodup_singleton _
  induction P generalizing way idx l with
  | nil => exact List.nodup_nil
  | element cpe rest ih =>
      have later := ih way (idx + 1) l (List.nodup_cons.mp distinct).2 fun t isWay isVisited => new t isWay (.tail _ isVisited)
      rw [made, List.map_append]
      refine List.nodup_append.mpr ⟨first way idx l, later, ?_⟩
      rintro w isFirst _ isLater rfl
      obtain ⟨t, isWay, rfl⟩ := wayMade_key isFirst
      obtain ⟨t', i, same, ⟨-, less⟩ | isVisited⟩ := made_key rest way (idx + 1) l _ isLater
      · obtain ⟨-, rfl⟩ : t = t' ∧ idx = i := by simpa using same
        exact absurd less (Nat.not_succ_le_self idx)
      · obtain ⟨rfl, -⟩ : t = t' ∧ idx = i := by simpa using same
        exact new t isWay (.tail _ isVisited)
  | block b entry exit inner rest ihInner ihRest =>
      let way' := (kind b).way ⟨b, entry, exit, inner.items⟩
      have wayEntry (t : E) (isWay : way' = some t) : t = entry := (BlockKind.way_eq_some isWay).2
      obtain ⟨newEntry, distinct⟩ := List.nodup_cons.mp distinct
      obtain ⟨distinctInner, distinctRest, apart⟩ := List.nodup_append.mp distinct
      have restNodup : rest.visited.Nodup := (List.nodup_cons.mp (List.nodup_cons.mp distinctRest).2).2
      have inner' := ihInner way' 0 (wayLabel way idx l) distinctInner fun t isWay isVisited =>
        newEntry (wayEntry t isWay ▸ List.mem_append_left _ isVisited)
      have rest' := ihRest way (idx + 1) l restNodup fun t isWay isVisited => new t isWay (by simp [visited, isVisited])
      -- The forks of the elements within are the entry and what is within them.
      have innerKey (w : LabelId E) (isKey : w ∈ (inner.made kind way' 0 (wayLabel way idx l)).map Prod.fst) :
          ∃ t i, w = .forFork t i ∧ (t = entry ∨ t ∈ inner.visited) := by
        obtain ⟨t, i, same, ⟨isWay, -⟩ | isVisited⟩ := made_key inner way' 0 _ w isKey
        · exact ⟨t, i, same, .inl (wayEntry t isWay)⟩
        · exact ⟨t, i, same, .inr isVisited⟩
      rw [made, List.map_append, List.map_append]
      refine List.nodup_append.mpr ⟨first way idx l, List.nodup_append.mpr ⟨inner', rest', ?_⟩, ?_⟩
      · rintro w isInner _ isRest rfl
        obtain ⟨t, i, rfl, isInside⟩ := innerKey w isInner
        obtain ⟨t', i', same, ⟨isWay, -⟩ | isVisited⟩ := made_key rest way (idx + 1) l _ isRest
        · obtain ⟨rfl, -⟩ : t = t' ∧ i = i' := by simpa using same
          exact new t isWay (by simpa [visited] using isInside.imp_right .inl)
        · obtain ⟨rfl, -⟩ : t = t' ∧ i = i' := by simpa using same
          rcases isInside with rfl | isInside
          · exact newEntry (by simp [isVisited])
          · exact apart t isInside t (by simp [isVisited]) rfl
      · rintro w isFirst _ isLater rfl
        obtain ⟨t, isWay, rfl⟩ := wayMade_key isFirst
        rcases List.mem_append.mp isLater with isInner | isRest
        · obtain ⟨t', i, same, isInside⟩ := innerKey _ isInner
          obtain ⟨rfl, -⟩ : t = t' ∧ idx = i := by simpa using same
          exact new t isWay (by simpa [visited] using isInside.imp_right .inl)
        · obtain ⟨t', i, same, ⟨-, less⟩ | isVisited⟩ := made_key rest way (idx + 1) l _ isRest
          · obtain ⟨-, rfl⟩ : t = t' ∧ idx = i := by simpa using same
            exact absurd less (Nat.not_succ_le_self idx)
          · obtain ⟨rfl, -⟩ : t = t' ∧ idx = i := by simpa using same
            exact new t isWay (by simp [visited, isVisited])

omit [DecidableEq E] in
theorem length_made_le (P : CPElements E) (way : Option E) (idx : Nat) (l : LabelId E) :
    (P.made kind way idx l).length ≤ P.visited.length := by
  have first (way : Option E) (idx : Nat) (l : LabelId E) : (wayMade way idx l).length ≤ 1 := by
    cases way <;> simp [wayMade]
  induction P generalizing way idx l with
  | nil => exact le_refl 0
  | element cpe rest ih =>
      have later := ih way (idx + 1) l
      have here := first way idx l
      simp only [made, visited, List.length_append, List.length_cons]
      omega
  | block b entry exit inner rest ihInner ihRest =>
      have within := ihInner ((kind b).way ⟨b, entry, exit, inner.items⟩) 0 (wayLabel way idx l)
      have later := ihRest way (idx + 1) l
      have here := first way idx l
      simp only [made, visited, List.length_append, List.length_cons]
      omega

omit [DecidableEq E] in
/-- The elements have the label of the start or labels that are made. -/
theorem assigned_known (P : CPElements E) (way : Option E) (idx : Nat) (l : LabelId E) :
    ∀ p ∈ P.assigned kind way idx l, p.2 ∈ l :: (P.made kind way idx l).map Prod.fst := by
  have first (way : Option E) (idx : Nat) (l : LabelId E) :
      wayLabel way idx l ∈ l :: (wayMade way idx l).map Prod.fst := by
    cases way with
    | none => exact List.mem_cons_self
    | some t => exact .tail _ List.mem_cons_self
  induction P generalizing way idx l with
  | nil => exact fun p member => absurd member List.not_mem_nil
  | element cpe rest ih =>
      have here := first way idx l
      have later := ih way (idx + 1) l
      intro p member
      simp only [assigned, made, List.map_append, List.mem_cons, List.mem_append] at member here later ⊢
      rcases member with rfl | member
      · exact here.imp_right .inl
      · exact (later p member).imp_right .inr
  | block b entry exit inner rest ihInner ihRest =>
      have here := first way idx l
      have within := ihInner ((kind b).way ⟨b, entry, exit, inner.items⟩) 0 (wayLabel way idx l)
      have later := ihRest way (idx + 1) l
      intro p member
      simp only [assigned, made, List.map_append, List.mem_cons, List.mem_append] at member here within later ⊢
      rcases member with rfl | rfl | member | rfl | member
      · exact here.imp_right .inl
      · exact here.imp_right .inl
      · rcases within p member with same | isMade
        · rw [same]
          exact here.imp_right .inl
        · exact .inr (.inr (.inl isMade))
      · exact here.imp_right .inl
      · exact (later p member).imp_right fun isMade => .inr (.inr isMade)

def labelled (kind : E → BlockKind E) (below : LabelId E → LabelId E → Bool) (P : CPElements E) : LabelState E :=
  P.computeLabels kind below none 0 .inherited firstLabel

section Labelled
variable {P : CPElements E} (distinct : P.visited.Nodup)
include distinct

theorem labelled_tree : ∃ depth, LabelTree (P.labelled kind below) .inherited depth := by
  have start := setAll_frame (P.assigned kind none 0 .inherited) firstLabel
  refine ⟨fun w => (.inherited :: (P.made kind none 0 .inherited).map Prod.fst).idxOf w, ?_⟩
  rw [labelled, computeLabels_eq, ← makeAll_setAll]
  refine LabelState.makeAll_tree start.2 (by rw [start.1]; rfl) ?_ (made_hangs P none 0 .inherited List.mem_cons_self)
  refine List.nodup_cons.mpr ⟨fun isKey => ?_, ?_⟩
  · obtain ⟨t, i, same, -⟩ := made_key P none 0 _ _ isKey
    exact absurd same (by simp)
  · exact made_nodup P none 0 _ distinct fun t isWay => absurd isWay.symm (Option.some_ne_none t)

omit distinct in
theorem mem_labelled {w : LabelId E} : w ∈ (P.labelled kind below).labelSet ↔
    w ∈ .inherited :: (P.made kind none 0 .inherited).map Prod.fst := by
  rw [labelled, computeLabels_eq, (setAll_frame _ _).2, LabelState.mem_makeAll]
  simp [firstLabel]

theorem length_labelled : (P.labelled kind below).labelSet.length ≤ P.visited.length + 1 := by
  obtain ⟨depth, tree⟩ := @labelled_tree E _ kind below P distinct
  have fewer := (List.subperm_of_subset tree.nodup fun w inside => mem_labelled.mp inside).length_le
  refine fewer.trans ?_
  rw [List.length_cons, List.length_map]
  exact Nat.succ_le_succ (length_made_le P none 0 .inherited)

theorem compatibilityLabel_of_mem {x : E} {l : LabelId E} (member : (x, l) ∈ P.assigned kind none 0 .inherited) :
    (P.labelled kind below).compatibilityLabel x = some l := by
  rw [labelled, computeLabels_eq]
  exact setAll_of_mem ((P.assigned_keys none 0 .inherited).nodup_iff.mpr distinct) member

theorem forkArc_of_made {w a : LabelId E} {t : E} {i : Nat}
    (isMade : (w, ⟨some (a, t, i), []⟩) ∈ P.made kind none 0 .inherited) : ForkArc (P.labelled kind below) a t w := by
  refine ⟨mem_labelled.mpr (.tail _ (List.mem_map.mpr ⟨_, isMade, rfl⟩)), i, ?_⟩
  have nodup := @made_nodup E kind P none 0 .inherited distinct fun t isWay => absurd isWay.symm (Option.some_ne_none t)
  rw [labelled, computeLabels_eq, (setAll_frame _ _).1]
  exact LabelState.makeAll_arcs_of_mem nodup isMade

theorem exists_label {x : E} (isVisited : x ∈ P.visited) : ∃ l, (x, l) ∈ P.assigned kind none 0 .inherited ∧
    l ∈ (P.labelled kind below).labelSet ∧ (P.labelled kind below).compatibilityLabel x = some l := by
  obtain ⟨⟨x', l⟩, member, rfl⟩ := List.mem_map.mp ((P.assigned_keys none 0 .inherited).mem_iff.mpr isVisited)
  exact ⟨l, member, mem_labelled.mpr (assigned_known P none 0 .inherited _ member), compatibilityLabel_of_mem distinct member⟩

theorem label_unique {x : E} {l l' : LabelId E} (first : (x, l) ∈ P.assigned kind none 0 .inherited)
    (second : (x, l') ∈ P.assigned kind none 0 .inherited) : l = l' := by
  have same := @compatibilityLabel_of_mem E _ kind (fun _ _ => true) P distinct x l first
  rw [compatibilityLabel_of_mem distinct second] at same
  exact (Option.some.inj same).symm

/-- What a block holds has its label or one that the block makes. -/
theorem held_label {L : Level E} (isLevel : L ∈ P.levels) {x : E} (held : x ∈ L.inside) {l ℓ : LabelId E}
    (ofBlock : (L.block, ℓ) ∈ P.assigned kind none 0 .inherited) (ofX : (x, l) ∈ P.assigned kind none 0 .inherited) :
    l = ℓ ∨ ∃ t i, (kind L.block).way L = some t ∧ L.elements[i]? = some x ∧ l = .forFork t i ∧
      ForkArc (P.labelled kind below) ℓ t l := by
  obtain ⟨nl, labels⟩ := level_labels P none 0 .inherited L isLevel
  obtain rfl := label_unique distinct labels.block ofBlock
  simp only [Level.inside, List.mem_cons, List.mem_append, List.not_mem_nil, or_false] at held
  rcases held with rfl | isElement | rfl
  · exact .inl (label_unique distinct ofX labels.entry)
  · obtain ⟨i, isAt⟩ := List.mem_iff_getElem?.mp isElement
    have label := label_unique distinct ofX (labels.elements i x isAt)
    cases isWay : (kind L.block).way L with
    | none => exact .inl (by rw [label, isWay]; rfl)
    | some t =>
        rw [isWay] at label
        have inside : i < L.elements.length := (List.getElem?_eq_some_iff.mp isAt).1
        exact .inr ⟨t, i, rfl, isAt, label, label ▸ forkArc_of_made distinct (labels.made t isWay i inside)⟩
  · exact .inl (label_unique distinct ofX labels.exit)

/-- On the way down to an element the label stays until a fork of a block within. -/
theorem within_label {e x : E} (within : P.Within e x) {l ℓ : LabelId E}
    (ofX : (x, ℓ) ∈ P.assigned kind none 0 .inherited) (ofE : (e, l) ∈ P.assigned kind none 0 .inherited) :
    l = ℓ ∨ ∃ L ∈ P.levels, P.Within L.block x ∧ ∃ t c, (kind L.block).way L = some t ∧
      ForkArc (P.labelled kind below) ℓ t c ∧ ReflTransGen (P.labelled kind below).Succeeds c l := by
  induction within generalizing ℓ with
  | refl => exact .inl (label_unique distinct ofE ofX)
  | @tail b x within held ih =>
      obtain ⟨L, isLevel, rfl, inside⟩ := held
      obtain ⟨nl, ofB, -⟩ := @exists_label E _ kind below P distinct b (visited_of_inside isLevel inside)
      rcases held_label distinct isLevel inside ofX ofB with rfl | ⟨t, i, isWay, -, -, arc⟩
      · exact (ih ofB).imp_right fun ⟨L', isLevel', within', rest⟩ =>
          ⟨L', isLevel', within'.tail ⟨L, isLevel, rfl, inside⟩, rest⟩
      · refine .inr ⟨L, isLevel, .refl, t, nl, isWay, arc, ?_⟩
        rcases ih ofB with rfl | ⟨L', -, -, t', c, -, arc', below'⟩
        · exact .refl
        · exact .head arc'.succeeds below'

theorem within_below {e x : E} (within : P.Within e x) {l ℓ : LabelId E}
    (ofX : (x, ℓ) ∈ P.assigned kind none 0 .inherited) (ofE : (e, l) ∈ P.assigned kind none 0 .inherited) :
    ReflTransGen (P.labelled kind below).Succeeds ℓ l := by
  rcases within_label distinct within ofX ofE with rfl | ⟨L, -, -, t, c, -, arc, below'⟩
  · exact .refl
  · exact .head arc.succeeds below'

end Labelled

/-! ### Where two elements part -/

section Parting
variable {P : CPElements E} (distinct : P.visited.Nodup)
include distinct

theorem holds_unique {x b b' : E} (held : P.Holds x b) (held' : P.Holds x b') : b = b' := by
  obtain ⟨L, isLevel, rfl, inside⟩ := held
  obtain ⟨L', isLevel', rfl, inside'⟩ := held'
  rw [level_of_inside distinct isLevel isLevel' inside inside']

theorem within_rises {x b : E} (within : P.Within x b) : P.visited.idxOf x ≤ P.visited.idxOf b := by
  induction within with
  | refl => exact le_refl _
  | tail _ held ih => exact ih.trans (holds_rises distinct held).le

theorem within_comparable {z x y : E} (overX : P.Within z x) (overY : P.Within z y) : P.Within x y ∨ P.Within y x :=
  ReflTransGen.total_of_right_unique (fun _ _ _ => holds_unique distinct) overX overY

/-- An element that is in an element of a block, and not it, has the block within. -/
theorem block_within {L : Level E} (isLevel : L ∈ P.levels) {x y : E} (inside : x ∈ L.inside) (within : P.Within x y)
    (differ : x ≠ y) : P.Within L.block y := by
  rcases ReflTransGen.cases_head within with same | ⟨b, held, within⟩
  · exact absurd same differ
  · rwa [holds_unique distinct held ⟨L, isLevel, rfl, inside⟩] at within

theorem inside_apart {L : Level E} (isLevel : L ∈ P.levels) {x y z : E} (insideX : x ∈ L.inside) (insideY : y ∈ L.inside)
    (overX : P.Within z x) (overY : P.Within z y) : x = y := by
  have apart {x y : E} (insideX : x ∈ L.inside) (insideY : y ∈ L.inside) (within : P.Within x y) : x = y := by
    by_contra differ
    have above := within_rises distinct (block_within distinct isLevel insideX within differ)
    exact absurd above (holds_rises distinct ⟨L, isLevel, rfl, insideY⟩).not_ge
  rcases within_comparable distinct overX overY with within | within
  · exact apart insideX insideY within
  · exact (apart insideY insideX within).symm

theorem parting_unique {L L' : Level E} (isLevel : L ∈ P.levels) (isLevel' : L' ∈ P.levels) {e f x y x' y' : E}
    (insideX : x ∈ L.inside) (insideY : y ∈ L.inside) (differ : x ≠ y) (insideX' : x' ∈ L'.inside) (insideY' : y' ∈ L'.inside)
    (differ' : x' ≠ y') (overX : P.Within e x) (overY : P.Within f y) (overX' : P.Within e x') (overY' : P.Within f y') :
    L = L' ∧ x = x' ∧ y = y' := by
  have step {L L' : Level E} (isLevel : L ∈ P.levels) (isLevel' : L' ∈ P.levels) {x y x' y' : E} (insideX : x ∈ L.inside)
      (insideY : y ∈ L.inside) (insideX' : x' ∈ L'.inside) (insideY' : y' ∈ L'.inside) (differ' : x' ≠ y')
      (overY : P.Within f y) (overY' : P.Within f y') (within : P.Within x x') : x = x' := by
    by_contra differ
    have above := block_within distinct isLevel insideX within differ
    have overX' : P.Within f x' := (overY.tail ⟨L, isLevel, rfl, insideY⟩).trans above
    exact differ' (inside_apart distinct isLevel' insideX' insideY' overX' overY')
  have sameX : x = x' := by
    rcases within_comparable distinct overX overX' with within | within
    · exact step isLevel isLevel' insideX insideY insideX' insideY' differ' overY overY' within
    · exact (step isLevel' isLevel insideX' insideY' insideX insideY differ overY' overY within).symm
  subst sameX
  obtain rfl := level_of_inside distinct isLevel isLevel' insideX insideX'
  exact ⟨rfl, rfl, inside_apart distinct isLevel insideY insideY' overY overY'⟩

theorem exists_parting {e f b : E} (leafE : e ∈ P.leaves) (leafF : f ∈ P.leaves) (differ : e ≠ f) (withinE : P.Within e b)
    (withinF : P.Within f b) :
    ∃ L ∈ P.levels, ∃ x ∈ L.inside, ∃ y ∈ L.inside, x ≠ y ∧ P.Within e x ∧ P.Within f y := by
  have notBlock {x z : E} (leaf : x ∈ P.leaves) : ¬ P.Holds z x := by
    rintro ⟨L, isLevel, rfl, -⟩
    exact notMem_leaves distinct isLevel leaf
  induction withinE with
  | refl =>
      rcases ReflTransGen.cases_tail withinF with same | ⟨z, -, held⟩
      · exact absurd same differ
      · exact absurd held (notBlock leafE)
  | @tail x b withinX held ih =>
      rcases ReflTransGen.cases_tail withinF with rfl | ⟨y, withinY, held'⟩
      · exact absurd held (notBlock leafF)
      · by_cases same : x = y
        · exact ih (same ▸ withinY)
        · obtain ⟨L, isLevel, rfl, insideX⟩ := held
          obtain ⟨L', isLevel', sameBlock, insideY⟩ := held'
          obtain rfl := level_of_block distinct isLevel' isLevel sameBlock
          exact ⟨L', isLevel', x, insideX, y, insideY, same, withinX, withinY⟩

end Parting

theorem exists_item {P : CPElements E} (distinct : P.visited.Nodup) {x : E} (isVisited : x ∈ P.visited) :
    ∃ top ∈ P.items, P.Within x top := by
  induction left : P.visited.length - P.visited.idxOf x using Nat.strong_induction_on generalizing x with
  | _ n ih =>
      rcases List.mem_append.mp (P.inside_perm.mem_iff.mpr isVisited) with isItem | isInside
      · exact ⟨x, isItem, .refl⟩
      · obtain ⟨L, isLevel, inside⟩ := List.mem_flatMap.mp isInside
        have held : P.Holds x L.block := ⟨L, isLevel, rfl, inside⟩
        have blockVisited := P.blocks_perm.mem_iff.mp (List.mem_append_right _ (List.mem_map_of_mem isLevel))
        have later := holds_rises distinct held
        have inVisited := List.idxOf_lt_length_of_mem blockVisited
        obtain ⟨top, isItem, within⟩ := ih (P.visited.length - P.visited.idxOf L.block) (by omega) blockVisited rfl
        exact ⟨top, isItem, .head held within⟩

theorem visited_of_leaf {P : CPElements E} {x : E} (leaf : x ∈ P.leaves) : x ∈ P.visited :=
  P.blocks_perm.mem_iff.mp (List.mem_append_left _ leaf)

omit [DecidableEq E] in
theorem inside_of_element {L : Level E} {x : E} (isElement : x ∈ L.elements) : x ∈ L.inside := by
  simp [Level.inside, isElement]

theorem within_root {P : CPElements E} (distinct : P.visited.Nodup) {root : E} (whole : P.items = [root]) {x : E}
    (leaf : x ∈ P.leaves) : P.Within x root := by
  obtain ⟨top, isItem, within⟩ := exists_item distinct (visited_of_leaf leaf)
  rw [whole, List.mem_singleton] at isItem
  exact isItem ▸ within

/-- A parallel block has the two in different elements. -/
def Beside (kind : E → BlockKind E) (P : CPElements E) (e f : E) : Prop :=
  ∃ L ∈ P.levels, kind L.block = .parallel ∧ ∃ x ∈ L.elements, ∃ y ∈ L.elements, x ≠ y ∧ P.Within e x ∧ P.Within f y

section Compatible
variable {P : CPElements E} (distinct : P.visited.Nodup)
include distinct

/-- What is in an element of a block has the label of the block, or is below a fork of it that
is the entry of the block or of a block within the element. -/
theorem below_level {L : Level E} (isLevel : L ∈ P.levels) {e x : E} (inside : x ∈ L.inside) (within : P.Within e x)
    {l ℓ : LabelId E} (ofBlock : (L.block, ℓ) ∈ P.assigned kind none 0 .inherited)
    (ofE : (e, l) ∈ P.assigned kind none 0 .inherited) :
    l = ℓ ∨ ∃ L' ∈ P.levels, (P.Within L'.block x ∨ L' = L ∧ kind L.block = .parallel ∧ x ∈ L.elements) ∧
      ∃ c, ForkArc (P.labelled kind below) ℓ L'.entry c ∧ ReflTransGen (P.labelled kind below).Succeeds c l := by
  obtain ⟨lx, ofX, -⟩ := @exists_label E _ kind below P distinct x (visited_of_inside isLevel inside)
  rcases @held_label E _ kind below P distinct L isLevel x inside lx ℓ ofBlock ofX with rfl | ⟨t, i, isWay, isAt, -, arc⟩
  · rcases @within_label E _ kind below P distinct e x within l lx ofX ofE with same | ⟨L', isLevel', within', rest⟩
    · exact .inl same
    · obtain ⟨t, c, isWay, arc, below'⟩ := rest
      obtain ⟨-, rfl⟩ := BlockKind.way_eq_some isWay
      exact .inr ⟨L', isLevel', .inl within', c, arc, below'⟩
  · obtain ⟨isParallel, rfl⟩ := BlockKind.way_eq_some isWay
    exact .inr ⟨L, isLevel, .inr ⟨rfl, isParallel, List.mem_of_getElem? isAt⟩, lx, arc, within_below distinct within ofX ofE⟩

/-- An element of a parallel block with another has a label that hangs below that of the block. -/
theorem fan_label {L : Level E} (isLevel : L ∈ P.levels) (isParallel : kind L.block = .parallel)
    (several : 1 < L.elements.length) {x : E} {i : Nat} (isAt : L.elements[i]? = some x) {ℓ : LabelId E}
    (ofBlock : (L.block, ℓ) ∈ P.assigned kind none 0 .inherited) :
    (x, .forFork L.entry i) ∈ P.assigned kind none 0 .inherited ∧
      ForkArc (P.labelled kind below) ℓ L.entry (.forFork L.entry i) := by
  obtain ⟨nl, labels⟩ := level_labels P none 0 .inherited L isLevel
  obtain rfl := label_unique distinct labels.block ofBlock
  have isWay : (kind L.block).way L = some L.entry := by
    rw [isParallel]
    exact if_pos several
  have label := labels.elements i x isAt
  rw [isWay] at label
  exact ⟨label, forkArc_of_made distinct (labels.made _ isWay i (List.getElem?_eq_some_iff.mp isAt).1)⟩

/-- The labels tell of two elements that part in different elements of a parallel block, and of no others. -/
theorem label_compatible_iff {root : E} (whole : P.items = [root]) {e f : E} (leafE : e ∈ P.leaves) (leafF : f ∈ P.leaves)
    {l l' : LabelId E} (ofE : (e, l) ∈ P.assigned kind none 0 .inherited) (ofF : (f, l') ∈ P.assigned kind none 0 .inherited) :
    (ReflTransGen (P.labelled kind below).Succeeds l l' ∨ ReflTransGen (P.labelled kind below).Succeeds l' l ∨
      ∃ a t t' c c', t ≠ t' ∧ ForkArc (P.labelled kind below) a t c ∧ ForkArc (P.labelled kind below) a t' c' ∧
        ReflTransGen (P.labelled kind below).Succeeds c l ∧ ReflTransGen (P.labelled kind below).Succeeds c' l') ↔
      ¬ P.Beside kind e f := by
  obtain ⟨depth, tree⟩ := @labelled_tree E _ kind below P distinct
  by_cases same : e = f
  · subst same
    obtain rfl := label_unique distinct ofE ofF
    refine iff_of_true (.inl .refl) ?_
    rintro ⟨L, isLevel, -, x, isX, y, isY, differ, overX, overY⟩
    exact differ (inside_apart distinct isLevel (inside_of_element isX) (inside_of_element isY) overX overY)
  · obtain ⟨L, isLevel, x, insideX, y, insideY, differ, overX, overY⟩ :=
      exists_parting distinct leafE leafF same (within_root distinct whole leafE) (within_root distinct whole leafF)
    obtain ⟨ℓ, labels⟩ := level_labels P none 0 .inherited L isLevel
    constructor
    · rintro compatible ⟨L', isLevel', isParallel, x', isX, y', isY, differ', overX', overY'⟩
      obtain ⟨rfl, rfl, rfl⟩ := parting_unique distinct isLevel isLevel' insideX insideY differ
        (inside_of_element isX) (inside_of_element isY) differ' overX overY overX' overY'
      obtain ⟨i, atX⟩ := List.mem_iff_getElem?.mp isX
      obtain ⟨j, atY⟩ := List.mem_iff_getElem?.mp isY
      have others : i ≠ j := by
        rintro rfl
        exact differ (Option.some.inj (atX.symm.trans atY))
      have several : 1 < L.elements.length := by
        have first := (List.getElem?_eq_some_iff.mp atX).1
        have second := (List.getElem?_eq_some_iff.mp atY).1
        omega
      obtain ⟨ofX, arcX⟩ := @fan_label E _ kind below P distinct L isLevel isParallel several x i atX ℓ labels.block
      obtain ⟨ofY, arcY⟩ := @fan_label E _ kind below P distinct L isLevel isParallel several y j atY ℓ labels.block
      exact tree.siblings_apart arcX arcY (by simpa using others) (within_below distinct overX ofX ofE)
        (within_below distinct overY ofY ofF) compatible
    · intro notBeside
      have overL {z : E} (insideZ : z ∈ L.inside) : ¬ P.Within L.block z := fun within =>
        absurd (within_rises distinct within) (holds_rises distinct ⟨L, isLevel, rfl, insideZ⟩).not_ge
      rcases @below_level E _ kind below P distinct L isLevel e x insideX overX l ℓ labels.block ofE with
        rfl | ⟨L₁, isLevel₁, place₁, c, arc, belowC⟩
      · rcases @below_level E _ kind below P distinct L isLevel f y insideY overY l' l labels.block ofF with
          rfl | ⟨L₂, -, -, c', arc', belowC'⟩
        · exact .inl .refl
        · exact .inl (.head arc'.succeeds belowC')
      · rcases @below_level E _ kind below P distinct L isLevel f y insideY overY l' ℓ labels.block ofF with
          rfl | ⟨L₂, isLevel₂, place₂, c', arc', belowC'⟩
        · exact .inr (.inl (.head arc.succeeds belowC))
        · refine .inr (.inr ⟨ℓ, L₁.entry, L₂.entry, c, c', fun sameFork => ?_, arc, arc', belowC, belowC'⟩)
          obtain rfl := level_of_inside distinct isLevel₁ isLevel₂ List.mem_cons_self (sameFork ▸ List.mem_cons_self)
          rcases place₁ with within₁ | ⟨rfl, isParallel, isX⟩
          · rcases place₂ with within₂ | ⟨rfl, -, -⟩
            · exact differ (inside_apart distinct isLevel insideX insideY within₁ within₂)
            · exact overL insideX within₁
          · rcases place₂ with within₂ | ⟨-, -, isY⟩
            · exact overL insideY within₂
            · exact notBeside ⟨L₁, isLevel, isParallel, x, isX, y, isY, differ, overX, overY⟩

end Compatible

theorem computeCompatibilityLabels_spec {P : CPElements E} (distinct : P.visited.Nodup) (addr : Addresses E) {fuel : Nat}
    (enough : P.visited.length < fuel) {root : E} (whole : P.items = [root]) :
    ∃ r, P.computeCompatibilityLabels kind addr fuel = some r ∧
      ∀ e ∈ P.leaves, ∀ f ∈ P.leaves, r.compatibleElements e f = true ↔ ¬ P.Beside kind e f := by
  obtain ⟨depth, tree⟩ := @labelled_tree E _ kind addr.label P distinct
  obtain ⟨g, g', isGraph, isMap, compatible⟩ := tree.compatible_iff addr ((length_labelled distinct).trans enough)
  refine ⟨⟨(P.labelled kind addr.label).compatibilityLabel, g'⟩, ?_, fun e leafE f leafF => ?_⟩
  · rw [labelled] at isGraph
    simp [computeCompatibilityLabels, isGraph, isMap, labelled]
  · obtain ⟨l, ofE, insideE, labelE⟩ := @exists_label E _ kind addr.label P distinct e (visited_of_leaf leafE)
    obtain ⟨l', ofF, insideF, labelF⟩ := @exists_label E _ kind addr.label P distinct f (visited_of_leaf leafF)
    simp only [CompatibilityResult.compatibleElements, labelE, labelF]
    rw [compatible l insideE l' insideF]
    exact label_compatible_iff distinct whole leafE leafF ofE ofF

/-- Some block has an element that the one is in before an element that the other is in. -/
def Before (kind : E → BlockKind E) (P : CPElements E) (e f : E) : Prop :=
  ∃ L ∈ P.levels, ∃ x y, P.Within e x ∧ P.Within f y ∧ (kind L.block).Precedes L x y

section Ordered
variable {P : CPElements E} (distinct : P.visited.Nodup)
  (plain : ∀ L ∈ P.levels, kind L.block = .series ∨ kind L.block = .parallel)
include distinct plain

theorem before_parts {e f : E} (before : P.Before kind e f) : ∃ L ∈ P.levels, ∃ x ∈ L.inside, ∃ y ∈ L.inside, x ≠ y ∧
    P.Within e x ∧ P.Within f y ∧ (kind L.block = .parallel → x = L.entry ∨ y = L.exit) := by
  obtain ⟨L, isLevel, x, y, overX, overY, precedes⟩ := before
  rcases plain L isLevel with isKind | isKind
  · rw [isKind] at precedes
    have differ : x ≠ y := by simpa using (inside_nodup distinct isLevel).sublist precedes
    exact ⟨L, isLevel, x, precedes.subset List.mem_cons_self, y, precedes.subset (.tail _ List.mem_cons_self), differ,
      overX, overY, fun isParallel => absurd (isKind.symm.trans isParallel) (by simp)⟩
  · rw [isKind] at precedes
    obtain ⟨differ, insideX, insideY, ends⟩ := precedes
    exact ⟨L, isLevel, x, insideX, y, insideY, differ, overX, overY, fun _ => ends⟩

theorem not_beside_of_before {e f : E} (before : P.Before kind e f) : ¬ P.Beside kind e f ∧ ¬ P.Beside kind f e := by
  obtain ⟨L, isLevel, x, insideX, y, insideY, differ, overX, overY, ends⟩ := before_parts distinct plain before
  obtain ⟨entryApart, exitApart, -⟩ := BlockKind.ends_apart (inside_nodup distinct isLevel)
  have apart (isParallel : kind L.block = .parallel) (isX : x ∈ L.elements) (isY : y ∈ L.elements) : False := by
    rcases ends isParallel with rfl | rfl
    · exact entryApart isX
    · exact exitApart isY
  constructor
  · rintro ⟨L', isLevel', isParallel, x', isX, y', isY, differ', overX', overY'⟩
    obtain ⟨rfl, rfl, rfl⟩ := parting_unique distinct isLevel isLevel' insideX insideY differ
      (inside_of_element isX) (inside_of_element isY) differ' overX overY overX' overY'
    exact apart isParallel isX isY
  · rintro ⟨L', isLevel', isParallel, y', isY, x', isX, differ', overY', overX'⟩
    obtain ⟨rfl, rfl, rfl⟩ := parting_unique distinct isLevel isLevel' insideX insideY differ
      (inside_of_element isX) (inside_of_element isY) differ'.symm overX overY overX' overY'
    exact apart isParallel isX isY

/-- In series and parallel blocks what is not beside each other is ordered. -/
theorem not_beside_iff {root : E} (whole : P.items = [root]) {e f : E} (leafE : e ∈ P.leaves) (leafF : f ∈ P.leaves) :
    ¬ P.Beside kind e f ↔ (e = f ∨ P.Before kind e f) ∨ f = e ∨ P.Before kind f e := by
  constructor
  · intro notBeside
    by_cases same : e = f
    · exact .inl (.inl same)
    · obtain ⟨L, isLevel, x, insideX, y, insideY, differ, overX, overY⟩ :=
        exists_parting distinct leafE leafF same (within_root distinct whole leafE) (within_root distinct whole leafF)
      rcases plain L isLevel with isKind | isKind
      · rcases pair_sublist_total insideX insideY differ with pair | pair
        · exact .inl (.inr ⟨L, isLevel, x, y, overX, overY, by rw [isKind]; exact pair⟩)
        · exact .inr (.inr ⟨L, isLevel, y, x, overY, overX, by rw [isKind]; exact pair⟩)
      · have ends : (x = L.entry ∨ y = L.exit) ∨ y = L.entry ∨ x = L.exit := by
          by_contra neither
          simp only [Level.inside, List.mem_cons, List.mem_append, List.not_mem_nil, or_false] at insideX insideY
          refine notBeside ⟨L, isLevel, isKind, x, ?_, y, ?_, differ, overX, overY⟩
          · tauto
          · tauto
        rcases ends with ends | ends
        · exact .inl (.inr ⟨L, isLevel, x, y, overX, overY, by rw [isKind]; exact ⟨differ, insideX, insideY, ends⟩⟩)
        · exact .inr (.inr ⟨L, isLevel, y, x, overY, overX, by rw [isKind]; exact ⟨differ.symm, insideY, insideX, ends⟩⟩)
  · rintro ((rfl | before) | rfl | before)
    · rintro ⟨L, isLevel, -, x, isX, y, isY, differ, overX, overY⟩
      exact differ (inside_apart distinct isLevel (inside_of_element isX) (inside_of_element isY) overX overY)
    · exact (not_beside_of_before distinct plain before).1
    · rintro ⟨L, isLevel, -, x, isX, y, isY, differ, overX, overY⟩
      exact differ (inside_apart distinct isLevel (inside_of_element isX) (inside_of_element isY) overX overY)
    · exact (not_beside_of_before distinct plain before).2

end Ordered

end CPElements

/-- For a control path of series, parallel and branch blocks two transitions or places are compatible unless a
parallel block has them in different elements; without branch blocks, just when a path of the group graph leads
from the group of one to that of the other. -/
theorem GroupGraph.compatible_iff_ordered (m : Memory E) (addr : Addresses E) (P : CPElements E) (kind : E → BlockKind E)
    (rootIndexCounter fuel : Nat) (distinct : P.visited.Nodup) (root : E) (whole : P.items = [root])
    (plain : ∀ x ∈ P.visited, (m.info x).associatedCPFunction = none)
    (unforked : ∀ L ∈ P.levels, ∀ B, kind L.block ≠ .fork B) (enough : P.visited.length < fuel) :
    ∃ C r, constructGroupGraph m P (P.blockLinks kind) rootIndexCounter = some C ∧
      P.computeCompatibilityLabels kind addr fuel = some r ∧
      ∀ e f g h, C.getGroup e = some g → C.getGroup f = some h →
        (r.compatibleElements e f = true ↔ ¬ P.Beside kind e f) ∧
          ((∀ L ∈ P.levels, ∀ branchMap mergeMap, kind L.block ≠ .branch branchMap mergeMap) →
            (r.compatibleElements e f = true ↔ ReflTransGen C.forward.succ g h ∨ ReflTransGen C.forward.succ h g)) := by
  obtain ⟨C, isResult, constructed, -⟩ := exists_constructed m kind rootIndexCounter distinct
  obtain ⟨r, isLabelled, compatible⟩ := @CPElements.computeCompatibilityLabels_spec E _ kind P distinct addr fuel enough root whole
  refine ⟨C, r, isResult, isLabelled, fun e f g h ofE ofF => ?_⟩
  have leafE := (constructed.grouped e).mpr ⟨g, ofE⟩
  have leafF := (constructed.grouped f).mpr ⟨h, ofF⟩
  refine ⟨compatible e leafE f leafF, fun unbranched => ?_⟩
  have simple (L : Level E) (isLevel : L ∈ P.levels) : kind L.block = .series ∨ kind L.block = .parallel := by
    cases isKind : kind L.block with
    | series => exact .inl rfl
    | parallel => exact .inr rfl
    | fork B => exact absurd isKind (unforked L isLevel B)
    | branch branchMap mergeMap => exact absurd isKind (unbranched L isLevel branchMap mergeMap)
  have checked (L : Level E) (isLevel : L ∈ P.levels) : (kind L.block).Checked L := by
    rcases simple L isLevel with isKind | isKind <;> rw [isKind] <;> exact True.intro
  rw [compatible e leafE f leafF, CPElements.not_beside_iff distinct simple whole leafE leafF, constructed.reaches_iff ofE ofF,
    constructed.reaches_iff ofF ofE, CPElements.reaches_iff distinct checked plain leafE leafF,
    CPElements.reaches_iff distinct checked plain leafF leafE]
  rfl

def rowAddresses : Addresses Nat where
  element := fun x y => decide (x < y)
  label := fun _ _ => true

/-- The two series blocks beside each other share nothing. -/
theorem GroupGraph.compatible_iff_ordered_besidePair :
    ∃ C r, constructGroupGraph plainTransitions besidePair (besidePair.blockLinks besideKind) 0 = some C ∧
      besidePair.computeCompatibilityLabels besideKind rowAddresses 20 = some r ∧
      ∀ g h, C.getGroup 21 = some g → C.getGroup 34 = some h → r.compatibleElements 21 34 = false ∧
        ¬ ReflTransGen C.forward.succ g h ∧ ¬ ReflTransGen C.forward.succ h g := by
  have levels : besidePair.levels = [⟨20, 21, 22, []⟩, ⟨30, 31, 32, [33, 34]⟩, ⟨10, 11, 12, [20, 30]⟩, ⟨0, 1, 2, [3, 10]⟩] := rfl
  have simple (b : Nat) : (∀ B, besideKind b ≠ .fork B) ∧ ∀ branchMap mergeMap, besideKind b ≠ .branch branchMap mergeMap := by
    unfold besideKind
    split_ifs
    · exact ⟨nofun, nofun⟩
    · exact ⟨nofun, nofun⟩
  obtain ⟨C, r, isResult, isLabelled, spec⟩ := GroupGraph.compatible_iff_ordered plainTransitions rowAddresses besidePair
    besideKind 0 20 (by decide) 0 rfl (fun _ _ => rfl) (fun L _ => (simple L.block).1) (by decide)
  refine ⟨C, r, isResult, isLabelled, fun g h ofE ofF => ?_⟩
  obtain ⟨labels, order⟩ := spec 21 34 g h ofE ofF
  have first : besidePair.Holds 21 20 := ⟨⟨20, 21, 22, []⟩, by simp [levels], rfl, by decide⟩
  have second : besidePair.Holds 34 30 := ⟨⟨30, 31, 32, [33, 34]⟩, by simp [levels], rfl, by decide⟩
  have beside : besidePair.Beside besideKind 21 34 :=
    ⟨⟨10, 11, 12, [20, 30]⟩, by simp [levels], rfl, 20, by decide, 30, by decide, by decide, .single first, .single second⟩
  have incompatible : ¬ r.compatibleElements 21 34 = true := fun compatible => labels.mp compatible beside
  have noPath := mt (order fun L _ => (simple L.block).2).mpr incompatible
  exact ⟨Bool.eq_false_iff.mpr incompatible, fun path => noPath (.inl path), fun path => noPath (.inr path)⟩

end Ahir.ControlPath
