import Mathlib.Tactic

/-!
# Slots of shared ports

A shared memory space or pipe keeps for each module the operator groups that
access it, in a map in the order of the modules' addresses, and counts them.  The
slots of a module are found by counting down along the map.
-/

set_option autoImplicit false

namespace Ahir.DataPath

variable {M : Type} [LinearOrder M]

/-- A `map<vcModule*,vector<int> >` with the count beside it. -/
structure SlotRegistry (M : Type) where
  groupMap : List (M × List Nat)
  count : Int

/-- `map[m].push_back(idx)`. -/
def pushBack (m : M) (idx : Nat) : List (M × List Nat) → List (M × List Nat)
  | [] => [(m, [idx])]
  | (k, v) :: rest =>
      if k < m then (k, v) :: pushBack m idx rest
      else if k = m then (k, v ++ [idx]) :: rest
      else (m, [idx]) :: (k, v) :: rest

/-- `map.erase(m)`. -/
def eraseKey (m : M) (map : List (M × List Nat)) : List (M × List Nat) := map.filter fun e => e.1 ≠ m

namespace SlotRegistry

def empty : SlotRegistry M := { groupMap := [], count := 0 }

def register (r : SlotRegistry M) (m : M) (idx : Nat) : SlotRegistry M :=
  { groupMap := pushBack m idx r.groupMap, count := r.count + 1 }

def deregister (r : SlotRegistry M) (m : M) : SlotRegistry M :=
  match r.groupMap.lookup m with
  | none => r
  | some v => { groupMap := eraseKey m r.groupMap, count := r.count - v.length }

/-- The loop over the operator groups of a module: those on the resource are registered. -/
def registerGroups {A : Type} (on : A → Bool) (m : M) : Nat → List A → SlotRegistry M → SlotRegistry M
  | _, [], r => r
  | idx, g :: rest, r => registerGroups on m (idx + 1) rest (if on g then r.register m idx else r)

/-- The loop of `Get_Caller_Module_Section`; the result is `hindex` and `lindex`. -/
def sectionFrom (m : M) : Int → List (M × List Nat) → Option (Int × Int)
  | _, [] => none
  | hindex, (k, v) :: rest =>
      if m = k then some (hindex, hindex + 1 - v.length) else sectionFrom m (hindex - v.length) rest

def getCallerModuleSection (r : SlotRegistry M) (m : M) : Option (Int × Int) :=
  sectionFrom m (r.count - 1) r.groupMap

end SlotRegistry

def groupsFrom {A : Type} (on : A → Bool) : Nat → List A → List Nat
  | _, [] => []
  | idx, g :: rest => (if on g then [idx] else []) ++ groupsFrom on (idx + 1) rest

/-- The loop over the groups of a module, from the left; a group that is not there
fails the assertion. -/
def downIndexFrom (size idx : Nat) : Nat → List Nat → Option Int
  | _, [] => none
  | index, g :: rest => if idx = g then some (size - 1 - index : Int) else downIndexFrom size idx (index + 1) rest

def downIndex (groups : List Nat) (idx : Nat) : Option Int := downIndexFrom groups.length idx 0 groups

def In (map : List (M × List Nat)) (m : M) (idx : Nat) : Prop := ∃ v, (m, v) ∈ map ∧ idx ∈ v

def total (map : List (M × List Nat)) : Nat := (map.map fun e => e.2.length).sum

namespace SlotRegistry

structure Formed (r : SlotRegistry M) : Prop where
  sorted : r.groupMap.Pairwise fun e f => e.1 < f.1
  distinct : ∀ e ∈ r.groupMap, e.2.Nodup
  count : r.count = total r.groupMap

/-- The group `idx` of the module is registered. -/
def Has (r : SlotRegistry M) (m : M) (idx : Nat) : Prop := In r.groupMap m idx

def vector (r : SlotRegistry M) (m : M) : List Nat := (r.groupMap.lookup m).getD []

def Owns (r : SlotRegistry M) (m : M) (slot : Int) : Prop :=
  ∃ hindex lindex, r.getCallerModuleSection m = some (hindex, lindex) ∧ lindex ≤ slot ∧ slot ≤ hindex

/-- The slot of a group among all: its position within the section of its module. -/
def slotOf (r : SlotRegistry M) (m : M) (idx : Nat) : Option Int := do
  let (_, lindex) ← r.getCallerModuleSection m
  let groups ← r.groupMap.lookup m
  let down ← downIndex groups idx
  some (lindex + down)

end SlotRegistry

section Map
variable {m m' : M} {idx : Nat} {map : List (M × List Nat)}

theorem total_pushBack : total (pushBack m idx map) = total map + 1 := by
  induction map with
  | nil => rfl
  | cons e rest ih =>
      obtain ⟨k, v⟩ := e
      unfold total at ih ⊢
      rw [pushBack]
      split_ifs
      · simp only [List.map_cons, List.sum_cons, ih]
        omega
      · simp only [List.map_cons, List.sum_cons, List.length_append, List.length_singleton]
        omega
      · simp only [List.map_cons, List.sum_cons, List.length_singleton]
        omega

theorem mem_pushBack {e : M × List Nat} (member : e ∈ pushBack m idx map) :
    e ∈ map ∨ e = (m, [idx]) ∨ ∃ v, (m, v) ∈ map ∧ e = (m, v ++ [idx]) := by
  induction map with
  | nil => exact Or.inr (Or.inl (List.mem_singleton.mp member))
  | cons f rest ih =>
      obtain ⟨k, v⟩ := f
      rw [pushBack] at member
      split_ifs at member with before same
      · rcases List.mem_cons.mp member with rfl | later
        · exact Or.inl List.mem_cons_self
        · rcases ih later with old | new | ⟨u, isEntry, grown⟩
          · exact Or.inl (List.mem_cons_of_mem _ old)
          · exact Or.inr (Or.inl new)
          · exact Or.inr (Or.inr ⟨u, List.mem_cons_of_mem _ isEntry, grown⟩)
      · subst same
        rcases List.mem_cons.mp member with rfl | later
        · exact Or.inr (Or.inr ⟨v, List.mem_cons_self, rfl⟩)
        · exact Or.inl (List.mem_cons_of_mem _ later)
      · rcases List.mem_cons.mp member with rfl | later
        · exact Or.inr (Or.inl rfl)
        · exact Or.inl later

theorem sorted_pushBack (sorted : map.Pairwise fun e f => e.1 < f.1) :
    (pushBack m idx map).Pairwise fun e f => e.1 < f.1 := by
  induction map with
  | nil => exact List.pairwise_singleton _ _
  | cons f rest ih =>
      obtain ⟨k, v⟩ := f
      obtain ⟨first, later⟩ := List.pairwise_cons.mp sorted
      rw [pushBack]
      split_ifs with before same
      · refine List.pairwise_cons.mpr ⟨?_, ih later⟩
        intro e member
        rcases mem_pushBack member with old | rfl | ⟨u, -, rfl⟩
        · exact first e old
        · exact before
        · exact before
      · exact List.pairwise_cons.mpr ⟨first, later⟩
      · have ahead : m < k := lt_of_le_of_ne (not_lt.mp before) (Ne.symm same)
        refine List.pairwise_cons.mpr ⟨?_, sorted⟩
        intro e member
        rcases List.mem_cons.mp member with rfl | old
        · exact ahead
        · exact ahead.trans (first e old)

theorem lookup_cons_eq {k : M} {v : List Nat} :
    ((k, v) :: map).lookup m = if m = k then some v else map.lookup m := by
  rw [List.lookup_cons]
  by_cases same : m = k
  · rw [if_pos same, beq_iff_eq.mpr same]
  · rw [if_neg same, beq_false_of_ne same]

theorem lookup_eq_none (ahead : ∀ e ∈ map, m < e.1) : map.lookup m = none := by
  induction map with
  | nil => rfl
  | cons f rest ih =>
      rw [lookup_cons_eq, if_neg (ne_of_lt (ahead f List.mem_cons_self))]
      exact ih fun e member => ahead e (List.mem_cons_of_mem _ member)

theorem lookup_pushBack (sorted : map.Pairwise fun e f => e.1 < f.1) : (pushBack m idx map).lookup m' =
    if m' = m then some ((map.lookup m).getD [] ++ [idx]) else map.lookup m' := by
  induction map with
  | nil => exact lookup_cons_eq
  | cons f rest ih =>
      obtain ⟨k, v⟩ := f
      obtain ⟨first, later⟩ := List.pairwise_cons.mp sorted
      rw [pushBack]
      rcases lt_trichotomy k m with before | rfl | ahead
      · rw [if_pos before, lookup_cons_eq, ih later, lookup_cons_eq, lookup_cons_eq, if_neg (ne_of_gt before)]
        by_cases isKey : m' = m
        · rw [if_pos isKey, if_neg (isKey ▸ ne_of_gt before), if_pos isKey]
        · rw [if_neg isKey, if_neg isKey]
      · rw [if_neg (lt_irrefl k), if_pos rfl, lookup_cons_eq, lookup_cons_eq, lookup_cons_eq, if_pos rfl]
        by_cases isKey : m' = k
        · rw [if_pos isKey, if_pos isKey]
          rfl
        · rw [if_neg isKey, if_neg isKey, if_neg isKey]
      · have none : ((k, v) :: rest).lookup m = none := by
          apply lookup_eq_none
          intro e member
          rcases List.mem_cons.mp member with rfl | old
          · exact ahead
          · exact ahead.trans (first e old)
        rw [if_neg (not_lt.mpr (le_of_lt ahead)), if_neg (ne_of_gt ahead), lookup_cons_eq, none]
        rfl

theorem lookup_of_mem {v : List Nat} (sorted : map.Pairwise fun e f => e.1 < f.1) (member : (m, v) ∈ map) :
    map.lookup m = some v := by
  induction map with
  | nil => exact absurd member List.not_mem_nil
  | cons f rest ih =>
      obtain ⟨k, u⟩ := f
      obtain ⟨first, later⟩ := List.pairwise_cons.mp sorted
      rw [lookup_cons_eq]
      rcases List.mem_cons.mp member with same | isLater
      · obtain ⟨rfl, rfl⟩ := Prod.mk.inj same
        exact if_pos rfl
      · rw [if_neg (ne_of_gt (first _ isLater))]
        exact ih later isLater

theorem mem_of_lookup {v : List Nat} (found : map.lookup m = some v) : (m, v) ∈ map := by
  induction map with
  | nil => exact absurd found (by simp)
  | cons f rest ih =>
      obtain ⟨k, u⟩ := f
      rw [lookup_cons_eq] at found
      split_ifs at found with same
      · obtain rfl := same
        obtain rfl := Option.some.inj found
        exact List.mem_cons_self
      · exact List.mem_cons_of_mem _ (ih found)

theorem lookup_eraseKey : (eraseKey m map).lookup m' = if m' = m then none else map.lookup m' := by
  induction map with
  | nil => simp [eraseKey]
  | cons f rest ih =>
      obtain ⟨k, v⟩ := f
      unfold eraseKey at ih ⊢
      by_cases same : k = m
      · rw [List.filter_cons_of_neg (by simpa using same), ih, lookup_cons_eq, same]
        split_ifs <;> rfl
      · rw [List.filter_cons_of_pos (by simpa using same), lookup_cons_eq, lookup_cons_eq, ih]
        split_ifs with isKey isErased <;> simp_all

theorem total_eraseKey {v : List Nat} (sorted : map.Pairwise fun e f => e.1 < f.1) (member : (m, v) ∈ map) :
    total (eraseKey m map) + v.length = total map := by
  induction map with
  | nil => exact absurd member List.not_mem_nil
  | cons f rest ih =>
      obtain ⟨k, u⟩ := f
      obtain ⟨first, later⟩ := List.pairwise_cons.mp sorted
      rcases List.mem_cons.mp member with same | isLater
      · obtain ⟨rfl, rfl⟩ := Prod.mk.inj same
        have others : eraseKey m rest = rest := by
          apply List.filter_eq_self.mpr
          intro e isEntry
          exact decide_eq_true (ne_of_gt (first e isEntry))
        have erased : eraseKey m ((m, v) :: rest) = rest := by
          rw [eraseKey, List.filter_cons_of_neg (by simp)]
          exact others
        rw [erased]
        simp only [total, List.map_cons, List.sum_cons]
        omega
      · have differs : k ≠ m := ne_of_lt (first _ isLater)
        have kept : eraseKey m ((k, u) :: rest) = (k, u) :: eraseKey m rest :=
          List.filter_cons_of_pos (decide_eq_true differs)
        have rest_eq := ih later isLater
        rw [kept]
        simp only [total, List.map_cons, List.sum_cons] at rest_eq ⊢
        omega

end Map

section Sections
open SlotRegistry
variable {m m' : M} {map : List (M × List Nat)} {h hindex lindex hindex' lindex' : Int}

/-- A section is as long as the vector of its module, and lies below `h`. -/
theorem sectionFrom_some (found : sectionFrom m h map = some (hindex, lindex)) :
    ∃ v, (m, v) ∈ map ∧ lindex = hindex + 1 - v.length ∧ hindex ≤ h ∧ h + 1 - total map ≤ lindex := by
  induction map generalizing h with
  | nil => exact absurd found (by simp [sectionFrom])
  | cons f rest ih =>
      obtain ⟨k, u⟩ := f
      have sum : (total ((k, u) :: rest) : Int) = u.length + total rest := by
        simp [total]
      rw [sectionFrom] at found
      split_ifs at found with same
      · obtain ⟨rfl, rfl⟩ := Prod.mk.inj (Option.some.inj found)
        subst same
        exact ⟨u, List.mem_cons_self, rfl, le_refl _, by omega⟩
      · obtain ⟨v, member, low, high, bottom⟩ := ih found
        exact ⟨v, List.mem_cons_of_mem _ member, low, by omega, by omega⟩

theorem sectionFrom_of_mem {v : List Nat} (sorted : map.Pairwise fun e f => e.1 < f.1) (member : (m, v) ∈ map)
    (h : Int) :
    ∃ hindex : Int, sectionFrom m h map = some (hindex, hindex + 1 - v.length) := by
  induction map generalizing h with
  | nil => exact absurd member List.not_mem_nil
  | cons f rest ih =>
      obtain ⟨k, u⟩ := f
      obtain ⟨first, later⟩ := List.pairwise_cons.mp sorted
      rw [sectionFrom]
      rcases List.mem_cons.mp member with same | isLater
      · obtain ⟨rfl, rfl⟩ := Prod.mk.inj same
        exact ⟨h, if_pos rfl⟩
      · rw [if_neg (ne_of_gt (first _ isLater))]
        exact ih later isLater _

theorem sectionFrom_cover (sorted : map.Pairwise fun e f => e.1 < f.1) {slot : Int} (top : slot ≤ h)
    (bottom : h + 1 - total map ≤ slot) :
    ∃ m hindex lindex, sectionFrom m h map = some (hindex, lindex) ∧ lindex ≤ slot ∧ slot ≤ hindex := by
  induction map generalizing h with
  | nil =>
      change h + 1 - (0 : Nat) ≤ slot at bottom
      omega
  | cons f rest ih =>
      obtain ⟨k, u⟩ := f
      obtain ⟨first, later⟩ := List.pairwise_cons.mp sorted
      have sum : (total ((k, u) :: rest) : Int) = u.length + total rest := by
        simp [total]
      by_cases here : h + 1 - u.length ≤ slot
      · exact ⟨k, h, h + 1 - u.length, by rw [sectionFrom, if_pos rfl], here, top⟩
      · obtain ⟨m, hindex, lindex, found, inside⟩ := ih later (h := h - u.length) (by omega) (by omega)
        obtain ⟨v, member, -⟩ := sectionFrom_some found
        refine ⟨m, hindex, lindex, ?_, inside⟩
        rw [sectionFrom, if_neg (ne_of_gt (first _ member))]
        exact found

theorem sectionFrom_disjoint {slot : Int} (found : sectionFrom m h map = some (hindex, lindex))
    (found' : sectionFrom m' h map = some (hindex', lindex')) (low : lindex ≤ slot) (high : slot ≤ hindex)
    (low' : lindex' ≤ slot) (high' : slot ≤ hindex') : m = m' := by
  induction map generalizing h with
  | nil => exact absurd found (by simp [sectionFrom])
  | cons f rest ih =>
      obtain ⟨k, u⟩ := f
      rw [sectionFrom] at found found'
      split_ifs at found found' with same same'
      · exact same.trans same'.symm
      · obtain ⟨rfl, rfl⟩ := Prod.mk.inj (Option.some.inj found)
        obtain ⟨-, -, -, below, -⟩ := sectionFrom_some found'
        omega
      · obtain ⟨rfl, rfl⟩ := Prod.mk.inj (Option.some.inj found')
        obtain ⟨-, -, -, below, -⟩ := sectionFrom_some found
        omega
      · exact ih found found'

end Sections

section Down
variable {size idx idx' : Nat} {groups : List Nat}

theorem downIndexFrom_eq (index : Nat) : downIndexFrom size idx index groups =
    if idx ∈ groups then some (size - 1 - (index + groups.idxOf idx : Nat) : Int) else none := by
  induction groups generalizing index with
  | nil => rfl
  | cons g rest ih =>
      rw [downIndexFrom, List.idxOf_cons]
      by_cases same : idx = g
      · subst same
        simp
      · have differs : (g == idx) = false := beq_false_of_ne (Ne.symm same)
        rw [if_neg same, ih, differs]
        by_cases later : idx ∈ rest
        · rw [if_pos later, if_pos (List.mem_cons_of_mem _ later)]
          simp only [cond_false]
          congr 2
          push_cast
          omega
        · rw [if_neg later, if_neg (by simp [same, later])]

theorem downIndex_of_mem (isGroup : idx ∈ groups) :
    downIndex groups idx = some ((groups.length : Int) - 1 - groups.idxOf idx) := by
  rw [downIndex, downIndexFrom_eq, if_pos isGroup, Nat.zero_add]

theorem mem_of_downIndex {down : Int} (found : downIndex groups idx = some down) : idx ∈ groups := by
  rw [downIndex, downIndexFrom_eq] at found
  by_contra none
  rw [if_neg none] at found
  exact absurd found (by simp)

theorem downIndex_surjective (distinct : groups.Nodup) {down : Int} (low : 0 ≤ down) (high : down < groups.length) :
    ∃ idx ∈ groups, downIndex groups idx = some down := by
  obtain ⟨d, rfl⟩ := Int.eq_ofNat_of_zero_le low
  have inside : groups.length - 1 - d < groups.length := by omega
  refine ⟨groups[groups.length - 1 - d], List.getElem_mem inside, ?_⟩
  rw [downIndex_of_mem (List.getElem_mem inside), distinct.idxOf_getElem]
  congr 1
  omega

theorem downIndex_injective {down : Int} (found : downIndex groups idx = some down)
    (found' : downIndex groups idx' = some down) : idx = idx' := by
  have isGroup := mem_of_downIndex found
  have isGroup' := mem_of_downIndex found'
  rw [downIndex_of_mem isGroup] at found
  rw [downIndex_of_mem isGroup'] at found'
  apply (List.idxOf_inj isGroup).mp
  have same := Option.some.inj (found.trans found'.symm)
  omega

end Down

namespace SlotRegistry
variable {r : SlotRegistry M} {m : M} {idx : Nat}

theorem formed_empty : (empty : SlotRegistry M).Formed := ⟨List.Pairwise.nil, by simp [empty], rfl⟩

theorem Formed.register (formed : r.Formed) (fresh : ¬ r.Has m idx) : (r.register m idx).Formed := by
  refine ⟨sorted_pushBack formed.sorted, ?_, ?_⟩
  · intro e member
    rcases mem_pushBack member with old | rfl | ⟨v, isEntry, rfl⟩
    · exact formed.distinct e old
    · exact List.nodup_singleton idx
    · apply List.Nodup.append (formed.distinct _ isEntry) (List.nodup_singleton idx)
      rw [List.disjoint_singleton]
      exact fun isGroup => fresh ⟨v, isEntry, isGroup⟩
  · change r.count + 1 = (total (pushBack m idx r.groupMap) : Nat)
    rw [total_pushBack, formed.count, Nat.cast_succ]

theorem has_iff_vector (formed : r.Formed) : r.Has m idx ↔ idx ∈ r.vector m := by
  constructor
  · rintro ⟨v, member, isGroup⟩
    rw [vector, lookup_of_mem formed.sorted member]
    exact isGroup
  · intro isGroup
    rw [vector] at isGroup
    cases found : r.groupMap.lookup m with
    | none =>
        rw [found] at isGroup
        exact absurd isGroup List.not_mem_nil
    | some v =>
        rw [found] at isGroup
        exact ⟨v, mem_of_lookup found, isGroup⟩

theorem vector_register (formed : r.Formed) (m' : M) :
    (r.register m idx).vector m' = if m' = m then r.vector m ++ [idx] else r.vector m' := by
  rw [vector, register, lookup_pushBack formed.sorted]
  split_ifs <;> rfl

theorem Formed.deregister (formed : r.Formed) (m : M) : (r.deregister m).Formed := by
  unfold SlotRegistry.deregister
  cases found : r.groupMap.lookup m with
  | none => exact formed
  | some v =>
      refine ⟨formed.sorted.filter _, ?_, ?_⟩
      · intro e member
        exact formed.distinct e (List.mem_filter.mp member).1
      · have count := total_eraseKey formed.sorted (mem_of_lookup found)
        change r.count - v.length = (total (eraseKey m r.groupMap) : Nat)
        rw [formed.count, ← count]
        push_cast
        omega

theorem vector_deregister (m' : M) : (r.deregister m).vector m' = if m' = m then [] else r.vector m' := by
  unfold SlotRegistry.deregister
  cases found : r.groupMap.lookup m with
  | none =>
      by_cases same : m' = m
      · rw [if_pos same, same, vector, found]
        rfl
      · rw [if_neg same]
  | some v =>
      change ((eraseKey m r.groupMap).lookup m').getD [] = _
      rw [lookup_eraseKey]
      by_cases same : m' = m
      · rw [if_pos same, if_pos same]
        rfl
      · rw [if_neg same, if_neg same]
        rfl

section Groups
variable {A : Type} {on : A → Bool} {groups : List A} {i : Nat}

theorem registerGroups_spec (formed : r.Formed) (fresh : ∀ k ∈ r.vector m, k < i) :
    (registerGroups on m i groups r).Formed ∧ ∀ m', (registerGroups on m i groups r).vector m' =
      if m' = m then r.vector m ++ groupsFrom on i groups else r.vector m' := by
  induction groups generalizing i r with
  | nil =>
      refine ⟨formed, ?_⟩
      intro m'
      change r.vector m' = if m' = m then r.vector m ++ [] else r.vector m'
      split_ifs with same
      · rw [same, List.append_nil]
      · rfl
  | cons g rest ih =>
      rw [registerGroups, groupsFrom]
      cases isOn : on g with
      | false => exact ih formed fun k isGroup => Nat.lt_succ_of_lt (fresh k isGroup)
      | true =>
          have new : ¬ r.Has m i := fun has => Nat.lt_irrefl _ (fresh i ((has_iff_vector formed).mp has))
          have formed' := formed.register new
          have own : (r.register m i).vector m = r.vector m ++ [i] := by rw [vector_register formed, if_pos rfl]
          obtain ⟨all, vectors⟩ := @ih _ (i + 1) formed' (by
            intro k isGroup
            rw [own, List.mem_append, List.mem_singleton] at isGroup
            rcases isGroup with old | rfl
            · exact Nat.lt_succ_of_lt (fresh k old)
            · exact Nat.lt_succ_self k)
          refine ⟨all, ?_⟩
          intro m'
          change (registerGroups on m (i + 1) rest (r.register m i)).vector m' =
            if m' = m then r.vector m ++ ([i] ++ groupsFrom on (i + 1) rest) else r.vector m'
          rw [vectors m', own, List.append_assoc, vector_register formed]
          split_ifs <;> rfl

end Groups

/-- The sections of the modules partition the slots, and so do the groups. -/
structure Assigned (r : SlotRegistry M) : Prop where
  /-- A module has a section with a slot for each of its groups. -/
  sections : ∀ m v, (m, v) ∈ r.groupMap → ∃ hindex lindex, r.getCallerModuleSection m = some (hindex, lindex) ∧
    0 ≤ lindex ∧ hindex < r.count ∧ hindex + 1 - lindex = v.length
  cover : ∀ slot, 0 ≤ slot → slot < r.count → ∃! m, r.Owns m slot
  inside : ∀ m idx, r.Has m idx → ∃ slot, r.slotOf m idx = some slot ∧ r.Owns m slot
  groups : ∀ slot, 0 ≤ slot → slot < r.count → ∃! g : M × Nat, r.Has g.1 g.2 ∧ r.slotOf g.1 g.2 = some slot

theorem Formed.slotOf_eq (formed : r.Formed) {v : List Nat} (member : (m, v) ∈ r.groupMap) {hindex lindex down : Int}
    (found : r.getCallerModuleSection m = some (hindex, lindex)) (isDown : downIndex v idx = some down) :
    r.slotOf m idx = some (lindex + down) := by
  rw [slotOf, found, lookup_of_mem formed.sorted member]
  simp [isDown]

theorem Formed.assigned (formed : r.Formed) : r.Assigned := by
  have bottom : r.count - 1 + 1 - total r.groupMap = 0 := by
    rw [formed.count]
    omega
  have sections : ∀ m v, (m, v) ∈ r.groupMap → ∃ hindex lindex, r.getCallerModuleSection m = some (hindex, lindex) ∧
      0 ≤ lindex ∧ hindex < r.count ∧ hindex + 1 - lindex = v.length := by
    intro m v member
    obtain ⟨hindex, found⟩ := sectionFrom_of_mem formed.sorted member (r.count - 1)
    obtain ⟨u, -, low, high, least⟩ := sectionFrom_some found
    exact ⟨hindex, _, found, by omega, by omega, by omega⟩
  have cover : ∀ slot, 0 ≤ slot → slot < r.count → ∃! m, r.Owns m slot := by
    intro slot low high
    obtain ⟨m, hindex, lindex, found, inside⟩ := sectionFrom_cover formed.sorted
      (by omega : slot ≤ r.count - 1) (by omega)
    refine ⟨m, ⟨hindex, lindex, found, inside⟩, ?_⟩
    rintro m' ⟨hindex', lindex', found', low', high'⟩
    exact sectionFrom_disjoint found' found low' high' inside.1 inside.2
  have inside : ∀ m idx, r.Has m idx → ∃ slot, r.slotOf m idx = some slot ∧ r.Owns m slot := by
    rintro m idx ⟨v, member, isGroup⟩
    obtain ⟨hindex, lindex, found, -, -, length⟩ := sections m v member
    have isDown := downIndex_of_mem isGroup
    have short := List.idxOf_lt_length_of_mem isGroup
    exact ⟨_, formed.slotOf_eq member found isDown, hindex, lindex, found, by omega, by omega⟩
  refine ⟨sections, cover, inside, ?_⟩
  intro slot low high
  obtain ⟨m, ⟨hindex, lindex, found, low', high'⟩, only⟩ := cover slot low high
  obtain ⟨v, member, -⟩ := sectionFrom_some found
  obtain ⟨hindex', lindex', again, -, -, length⟩ := sections m v member
  obtain ⟨rfl, rfl⟩ := Prod.mk.inj (Option.some.inj (found.symm.trans again))
  have distinct : v.Nodup := formed.distinct _ member
  obtain ⟨idx, isGroup, isDown⟩ := downIndex_surjective distinct (by omega : 0 ≤ slot - lindex) (by omega)
  refine ⟨(m, idx), ⟨⟨v, member, isGroup⟩, ?_⟩, ?_⟩
  · rw [formed.slotOf_eq member found isDown]
    congr 1
    omega
  · rintro ⟨m', idx'⟩ ⟨has, isSlot⟩
    obtain ⟨slot', isSlot', owns⟩ := inside m' idx' has
    obtain rfl := Option.some.inj (isSlot.symm.trans isSlot')
    obtain rfl : m' = m := only m' owns
    obtain ⟨v', member', isGroup'⟩ := has
    obtain rfl : v' = v :=
      Option.some.inj ((lookup_of_mem formed.sorted member').symm.trans (lookup_of_mem formed.sorted member))
    have isDown' := downIndex_of_mem isGroup'
    have same := Option.some.inj ((formed.slotOf_eq member found isDown').symm.trans isSlot)
    have sameDown : downIndex v' idx' = some (slot - lindex) := by
      rw [isDown']
      congr 1
      omega
    rw [downIndex_injective sameDown isDown]

end SlotRegistry

end Ahir.DataPath
