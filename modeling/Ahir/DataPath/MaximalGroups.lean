import Ahir.Run.FirstFit
import Ahir.ControlPath.CompatibilityMap
import Ahir.DataPath.VcOperator

/-!
# Groups of elements that share an operator

`Compute_Maximal_Groups` puts the elements of a data path, in the order of their
names, each into the first group of its kind that `Update_Maximal_Groups` finds
compatible.  A group is a set in address order; its first member stands for it
in the test of the operation, while the labels are compared with every member.

Reading past the end of a vector is undefined: the result is `none`.
-/

set_option autoImplicit false

namespace Ahir.DataPath
open Ahir.ControlPath Ahir.Run

section AreCompatible
variable {L : Type} (compatible : L → L → Bool)

/-- The inner loop of `Are_Compatible`, which reads `l2[i]` at every turn. -/
def compareAt (u : L) (v : Option L) : Nat → Bool → Option Bool
  | 0, retVal => some retVal
  | turns + 1, retVal =>
      match v with
      | none => none
      | some v => if compatible u v then compareAt u (some v) turns retVal else some false

/-- `for(i = 0; i < l1.size(); i++)`, from the position `i` on. -/
def compareFrom (size : Nat) (l2 : List L) : Nat → List L → Bool → Option Bool
  | _, [], retVal => some retVal
  | i, u :: rest, retVal =>
      match compareAt compatible u l2[i]? size retVal with
      | none => none
      | some retVal => compareFrom size l2 (i + 1) rest retVal

/-- `Are_Compatible` of two vectors of labels. -/
def areCompatible (l1 l2 : List L) : Option Bool := compareFrom compatible l1.length l2 0 l1 true

variable {compatible}

theorem compareAt_some (u v : L) (turns : Nat) (retVal : Bool) :
    compareAt compatible u (some v) (turns + 1) retVal = some (retVal && compatible u v) := by
  induction turns with
  | zero => by_cases same : compatible u v = true <;> simp [compareAt, same]
  | succ turns ih =>
      rw [compareAt]
      split_ifs with same
      · exact ih
      · simp [same]

theorem compareFrom_eq {size : Nat} {l2 : List L} : ∀ (rest : List L) (i : Nat) (retVal : Bool),
    rest.length ≤ size → compareFrom compatible size l2 i rest retVal =
      if i + rest.length ≤ l2.length ∨ rest = [] then
        some (retVal && (rest.zip (l2.drop i)).all fun uv => compatible uv.1 uv.2)
      else none := by
  intro rest
  induction rest with
  | nil => simp [compareFrom]
  | cons u rest ih =>
      intro i retVal bound
      obtain ⟨turns, rfl⟩ := Nat.exists_eq_succ_of_ne_zero (show size ≠ 0 by simp at bound; omega)
      rw [compareFrom]
      by_cases inside : i < l2.length
      · rw [List.getElem?_eq_getElem inside, compareAt_some]
        dsimp only
        rw [ih (i + 1) _ (by simp at bound; omega), List.drop_eq_getElem_cons inside]
        simp only [List.length_cons, List.zip_cons_cons, List.all_cons, Bool.and_assoc]
        split_ifs <;> grind
      · rw [List.getElem?_eq_none (by omega), compareAt, if_neg (by simp; omega)]

theorem areCompatible_isSome (l1 l2 : List L) :
    (areCompatible compatible l1 l2).isSome = true ↔ l1.length ≤ l2.length := by
  rw [areCompatible, compareFrom_eq l1 0 true (Nat.le_refl _)]
  split_ifs with fits
  · simp only [Option.isSome_some, true_iff]
    rcases fits with fits | rfl
    · omega
    · exact Nat.zero_le _
  · simp only [Option.isSome_none, Bool.false_eq_true, false_iff]
    omega

theorem areCompatible_eq_true {l1 l2 : List L} :
    areCompatible compatible l1 l2 = some true ↔ l1.length ≤ l2.length ∧
      ∀ (i : Nat) (u v : L), l1[i]? = some u → l2[i]? = some v → compatible u v = true := by
  rw [areCompatible, compareFrom_eq l1 0 true (Nat.le_refl _)]
  have pairs : ((l1.zip (l2.drop 0)).all fun uv => compatible uv.1 uv.2) = true ↔
      ∀ (i : Nat) (u v : L), l1[i]? = some u → l2[i]? = some v → compatible u v = true := by
    rw [List.all_eq_true, List.drop_zero]
    constructor
    · intro all i u v atI atI'
      exact all (u, v) (List.mem_of_getElem? (List.getElem?_zip_eq_some.mpr ⟨atI, atI'⟩))
    · intro all uv member
      obtain ⟨i, found⟩ := List.mem_iff_getElem?.mp member
      obtain ⟨atI, atI'⟩ := List.getElem?_zip_eq_some.mp found
      exact all i uv.1 uv.2 atI atI'
  split_ifs with fits
  · have bound : l1.length ≤ l2.length := by
      rcases fits with fits | rfl
      · omega
      · exact Nat.zero_le _
    rw [Bool.true_and, Option.some_inj, pairs]
    exact (and_iff_right bound).symm
  · refine iff_of_false (by simp) ?_
    rintro ⟨bound, _⟩
    omega

end AreCompatible

inductive GroupKind where
  | splitOperator | load | store | call | outport | inport
  deriving DecidableEq

/-- The vector of `Compute_Maximal_Groups` that the elements of a class go to. -/
def DatapathClass.groupKind : DatapathClass → Option GroupKind
  | .unarySplitOperator => some .splitOperator
  | .binarySplitOperator _ _ _ _ => some .splitOperator
  | .load _ => some .load
  | .store _ => some .store
  | .call _ => some .call
  | .outport _ => some .outport
  | .inport _ => some .inport
  | .ungrouped => none

/-- `vcDataPath`: what its elements point to, their address order, and
`_dpe_map` in the order of the names. -/
structure VcDataPath (D E : Type) where
  element : D → DatapathElement E
  below : D → D → Bool
  dpeMap : List D
  dpeMap_nodup : dpeMap.Nodup

namespace VcDataPath
variable {D E : Type} [DecidableEq D] [DecidableEq E] (dp : VcDataPath D E)
  (cp : CompatibilityResult E) (volatileModule minAreaFlag : Bool)

/-- `Are_Compatible` of two label pointers. -/
def compatibleLabels (u v : Option (LabelId E)) : Bool :=
  match u, v with
  | some u, some v => cp.graph.areCompatible u v
  | none, none => true
  | _, _ => false

def getLabelInterval (dpe : D) : List (Option (LabelId E)) :=
  (dp.element dpe).reqs.map cp.compatibilityLabel ++ (dp.element dpe).acks.map cp.compatibilityLabel

/-- The loop of `Update_Maximal_Groups` over the members of a group. -/
def compatibleWithMembers (dpe : D) : List D → Option Bool
  | [] => some true
  | member :: rest =>
      match areCompatible (compatibleLabels cp) (dp.getLabelInterval cp dpe)
          (dp.getLabelInterval cp member) with
      | none => none
      | some false => some false
      | some true => compatibleWithMembers dpe rest

def testsLabels (dpe : D) : Bool := !minAreaFlag && !(dp.element dpe).isPipelinedOperator

/-- `dpe` passes the tests against the first member of the group. -/
def passesFirst (dpe first : D) : Bool :=
  (dp.element dpe).isShareableWith (dp.element first) &&
    decide ((dp.element dpe).fullRate = (dp.element first).fullRate)

/-- Whether `Update_Maximal_Groups` adds `dpe` to the group. -/
def acceptsElement (dpe : D) (group : List D) : Option Bool :=
  if volatileModule then some false
  else match group with
    | [] => none
    | first :: _ =>
        if dp.passesFirst dpe first then
          if dp.testsLabels minAreaFlag dpe then dp.compatibleWithMembers cp dpe group else some true
        else some false

omit [DecidableEq E] in
theorem insertPointer_perm (below : D → D → Bool) (dpe : D) (group : List D) (fresh : dpe ∉ group) :
    (insertPointer below dpe group).Perm (dpe :: group) := by
  rw [insertPointer, if_neg fresh]
  exact List.perm_orderedInsert _ dpe group

/-- The turn of `Compute_Maximal_Groups` for one element. -/
def updateMaximalGroups : FirstFit D GroupKind where
  kind := fun dpe => (dp.element dpe).cls.groupKind
  accepts := dp.acceptsElement cp volatileModule minAreaFlag
  insert := insertPointer dp.below
  insert_perm := insertPointer_perm dp.below

def computeMaximalGroups : Option (GroupKind → List (List D)) :=
  (dp.updateMaximalGroups cp volatileModule minAreaFlag).fill dp.dpeMap

/-- Two elements may use one operator: they do the same on the same types at one
rate, and each request and acknowledge of the one is compatible with each of the
other, unless they are pipelined operators. -/
structure SafeToShare (a b : D) : Prop where
  shareable : (dp.element a).isShareableWith (dp.element b) = true
  function : (dp.element a).SameFunction (dp.element b)
  operands : (dp.element a).SameOperandTypes (dp.element b)
  results : (dp.element a).SameResultType (dp.element b)
  rate : (dp.element a).fullRate = (dp.element b).fullRate
  labels : (dp.element a).isPipelinedOperator = true ∨
    ∀ u ∈ dp.getLabelInterval cp a, ∀ v ∈ dp.getLabelInterval cp b, compatibleLabels cp u v = true

/-- The members of a group whose labels are read: up to the first one that is not compatible. -/
def comparedMembers (dpe : D) : List D → List D
  | [] => []
  | member :: rest =>
      member :: (if areCompatible (compatibleLabels cp) (dp.getLabelInterval cp dpe)
          (dp.getLabelInterval cp member) = some true then comparedMembers dpe rest else [])

/-- The elements whose labels are compared with those of `dpe`. -/
def compared (dpe : D) : List (List D) → List D
  | [] => []
  | group :: rest =>
      (match group with
        | [] => []
        | first :: _ =>
            if dp.passesFirst dpe first && dp.testsLabels false dpe then dp.comparedMembers cp dpe group
            else []) ++
        (if dp.acceptsElement cp false false dpe group = some true then [] else compared dpe rest)

/-- When the turn of `dpe` does what sharing needs: no comparison reads past the
end of a vector of labels, and in the group that is found the types that are not
tested match those of the first member, and the labels at different positions
are compatible with those of every member. -/
structure JoinsSafely (groups : List (List D)) (dpe : D) : Prop where
  readable : ∀ member ∈ dp.compared cp dpe groups,
    (dp.getLabelInterval cp dpe).length ≤ (dp.getLabelInterval cp member).length
  types : ∀ first rest,
    (dp.updateMaximalGroups cp false false).host dpe groups = some (first :: rest) →
      (dp.element dpe).RestMatches (dp.element first)
  crosswise : ∀ group, (dp.updateMaximalGroups cp false false).host dpe groups = some group →
    (dp.element dpe).isPipelinedOperator = true ∨ ∀ member ∈ group, ∀ (i j : Nat) u v, i ≠ j →
      (dp.getLabelInterval cp dpe)[i]? = some u → (dp.getLabelInterval cp member)[j]? = some v →
        compatibleLabels cp u v = true

variable {dp cp volatileModule minAreaFlag} {a b dpe : D}

theorem compatibleLabels_symm (u v : Option (LabelId E)) :
    compatibleLabels cp u v = compatibleLabels cp v u := by
  cases u with
  | none => cases v <;> rfl
  | some u =>
      cases v with
      | none => rfl
      | some v =>
          simp only [compatibleLabels, LabelGraph.areCompatible]
          grind

omit [DecidableEq D] in
theorem safeToShare_iff : dp.SafeToShare cp a b ↔
    (dp.element a).SameKey (dp.element b) ∧ (dp.element a).fullRate = (dp.element b).fullRate ∧
      ((dp.element a).isPipelinedOperator = true ∨
        ∀ u ∈ dp.getLabelInterval cp a, ∀ v ∈ dp.getLabelInterval cp b, compatibleLabels cp u v = true) := by
  constructor
  · intro safe
    refine ⟨?_, safe.rate, safe.labels⟩
    apply DatapathElement.isShareableWith_iff.mp
    refine ⟨safe.shareable, ?_⟩
    have operands := safe.operands
    have results := safe.results
    unfold DatapathElement.SameOperandTypes at operands
    unfold DatapathElement.SameResultType at results
    unfold DatapathElement.RestMatches
    split
    · next clsA clsB =>
        rw [clsA, clsB] at operands results
        exact ⟨results, fun _ => operands.2⟩
    · trivial
  · rintro ⟨same, rate, labels⟩
    obtain ⟨shareable, function, operands, results, _⟩ := same.spec
    exact ⟨shareable, function, operands, results, rate, labels⟩

omit [DecidableEq D] in
theorem SafeToShare.symm (safe : dp.SafeToShare cp a b) : dp.SafeToShare cp b a := by
  obtain ⟨same, rate, labels⟩ := safeToShare_iff.mp safe
  refine safeToShare_iff.mpr ⟨same.symm, rate.symm, ?_⟩
  rw [← same.spec.2.2.2.2]
  apply labels.imp_right
  intro all u member v member'
  rw [compatibleLabels_symm]
  exact all v member' u member

omit [DecidableEq D] in
theorem compatibleWithMembers_eq_true {group : List D} :
    dp.compatibleWithMembers cp dpe group = some true ↔ ∀ member ∈ group,
      areCompatible (compatibleLabels cp) (dp.getLabelInterval cp dpe)
        (dp.getLabelInterval cp member) = some true := by
  induction group with
  | nil => simp [compatibleWithMembers]
  | cons member rest ih =>
      rw [compatibleWithMembers, List.forall_mem_cons]
      split
      · next undefined => simp [undefined]
      · next rejected => simp [rejected]
      · next accepted => simp [accepted, ih]

omit [DecidableEq D] in
theorem compatibleWithMembers_isSome {group : List D} :
    (dp.compatibleWithMembers cp dpe group).isSome = true ↔ ∀ member ∈ dp.comparedMembers cp dpe group,
      (dp.getLabelInterval cp dpe).length ≤ (dp.getLabelInterval cp member).length := by
  induction group with
  | nil => simp [compatibleWithMembers, comparedMembers]
  | cons member rest ih =>
      rw [compatibleWithMembers, comparedMembers, List.forall_mem_cons,
        ← @areCompatible_isSome _ (compatibleLabels cp)]
      split
      · next undefined => simp [undefined]
      · next rejected => simp [rejected]
      · next accepted => simp [accepted, ih]

/-- What must hold beyond the tests when `dpe` joins a group. -/
def Fits (dp : VcDataPath D E) (cp : CompatibilityResult E) (dpe : D) (group : List D) : Prop :=
  (∀ first rest, group = first :: rest → (dp.element dpe).RestMatches (dp.element first)) ∧
    ((dp.element dpe).isPipelinedOperator = true ∨ ∀ member ∈ group, ∀ (i j : Nat) u v, i ≠ j →
      (dp.getLabelInterval cp dpe)[i]? = some u → (dp.getLabelInterval cp member)[j]? = some v →
        compatibleLabels cp u v = true)

omit [DecidableEq D] in
theorem labels_iff_crosswise {group : List D}
    (tested : ∀ member ∈ group, areCompatible (compatibleLabels cp) (dp.getLabelInterval cp dpe)
      (dp.getLabelInterval cp member) = some true) :
    (∀ member ∈ group, ∀ u ∈ dp.getLabelInterval cp dpe, ∀ v ∈ dp.getLabelInterval cp member,
      compatibleLabels cp u v = true) ↔
    ∀ member ∈ group, ∀ (i j : Nat) u v, i ≠ j → (dp.getLabelInterval cp dpe)[i]? = some u →
      (dp.getLabelInterval cp member)[j]? = some v → compatibleLabels cp u v = true := by
  constructor
  · intro all member inside i j u v _ atI atJ
    exact all member inside u (List.mem_of_getElem? atI) v (List.mem_of_getElem? atJ)
  · intro crosswise member inside u memberU v memberV
    obtain ⟨i, atI⟩ := List.mem_iff_getElem?.mp memberU
    obtain ⟨j, atJ⟩ := List.mem_iff_getElem?.mp memberV
    by_cases same : i = j
    · subst same
      exact (areCompatible_eq_true.mp (tested member inside)).2 i u v atI atJ
    · exact crosswise member inside i j u v same atI atJ

omit [DecidableEq D] in
theorem accepted_iff_fits (group : List D) (occupied : group ≠ [])
    (related : group.Pairwise (dp.SafeToShare cp))
    (accepted : dp.acceptsElement cp false false dpe group = some true) :
    (∀ member ∈ group, dp.SafeToShare cp dpe member) ↔ dp.Fits cp dpe group := by
  obtain ⟨first, rest, rfl⟩ := List.exists_cons_of_ne_nil occupied
  have passes : dp.passesFirst dpe first = true := by
    by_contra fails
    simp [acceptsElement, fails] at accepted
  have covered : (dp.element dpe).isPipelinedOperator = true ∨ ∀ member ∈ first :: rest,
      areCompatible (compatibleLabels cp) (dp.getLabelInterval cp dpe)
        (dp.getLabelInterval cp member) = some true := by
    by_cases pipelined : (dp.element dpe).isPipelinedOperator = true
    · exact Or.inl pipelined
    · refine Or.inr (compatibleWithMembers_eq_true.mp ?_)
      simpa [acceptsElement, passes, testsLabels, pipelined] using accepted
  simp only [passesFirst, Bool.and_eq_true, decide_eq_true_eq] at passes
  obtain ⟨shareable, rate⟩ := passes
  constructor
  · intro safe
    constructor
    · intro first' rest' split
      obtain rfl := (List.cons.inj split).1
      have same := (safeToShare_iff.mp (safe first List.mem_cons_self)).1
      exact (DatapathElement.isShareableWith_iff.mpr same).2
    · by_cases pipelined : (dp.element dpe).isPipelinedOperator = true
      · exact Or.inl pipelined
      · refine Or.inr ((labels_iff_crosswise (covered.resolve_left pipelined)).mp ?_)
        exact fun member inside => (safe member inside).labels.resolve_left pipelined
  · rintro ⟨types, labels⟩ member inside
    have same := DatapathElement.isShareableWith_iff.mp ⟨shareable, types first rest rfl⟩
    have likeFirst : (dp.element first).SameKey (dp.element member) ∧
        (dp.element first).fullRate = (dp.element member).fullRate := by
      rcases List.mem_cons.mp inside with rfl | inRest
      · exact ⟨same.symm.trans same, rfl⟩
      · have safe := (List.pairwise_cons.mp related).1 member inRest
        exact ⟨(safeToShare_iff.mp safe).1, safe.rate⟩
    refine safeToShare_iff.mpr ⟨same.trans likeFirst.1, rate.trans likeFirst.2, ?_⟩
    by_cases pipelined : (dp.element dpe).isPipelinedOperator = true
    · exact Or.inl pipelined
    · refine Or.inr ((labels_iff_crosswise (covered.resolve_left pipelined)).mpr ?_ member inside)
      exact labels.resolve_left pipelined

theorem place_isSome_iff {groups : List (List D)} (occupied : ∀ group ∈ groups, group ≠ []) :
    ((dp.updateMaximalGroups cp false false).place dpe groups).isSome = true ↔
      ∀ member ∈ dp.compared cp dpe groups,
        (dp.getLabelInterval cp dpe).length ≤ (dp.getLabelInterval cp member).length := by
  induction groups with
  | nil => simp [FirstFit.place, compared]
  | cons group rest ih =>
      obtain ⟨first, others, rfl⟩ := List.exists_cons_of_ne_nil (occupied group List.mem_cons_self)
      have later := ih fun group inside => occupied group (List.mem_cons_of_mem _ inside)
      rw [compared, List.forall_mem_append]
      rw [FirstFit.place]
      have accepts : (dp.updateMaximalGroups cp false false).accepts dpe (first :: others) =
          dp.acceptsElement cp false false dpe (first :: others) := rfl
      have tested : (dp.acceptsElement cp false false dpe (first :: others)).isSome = true ↔
          ∀ member ∈ (if dp.passesFirst dpe first && dp.testsLabels false dpe then
              dp.comparedMembers cp dpe (first :: others) else []),
            (dp.getLabelInterval cp dpe).length ≤ (dp.getLabelInterval cp member).length := by
        by_cases passes : dp.passesFirst dpe first = true
        · by_cases tests : dp.testsLabels false dpe = true
          · simp only [acceptsElement, passes, tests, Bool.and_self, if_true, Bool.false_eq_true, if_false]
            exact compatibleWithMembers_isSome
          · simp [acceptsElement, passes, tests]
        · simp [acceptsElement, passes]
      rw [accepts, ← tested]
      split
      · next undefined => simp [undefined]
      · next accepted => simp [accepted]
      · next rejected => simp [rejected, later]

theorem fitsIn_iff {groups : GroupKind → List (List D)}
    (occupied : ∀ k, ∀ group ∈ groups k, group ≠ []) :
    (dp.updateMaximalGroups cp false false).FitsIn (dp.Fits cp) groups dpe ↔
      ∀ k, (dp.element dpe).cls.groupKind = some k → dp.JoinsSafely cp (groups k) dpe := by
  unfold FirstFit.FitsIn
  apply forall₂_congr
  intro k _
  rw [place_isSome_iff (occupied k)]
  constructor
  · rintro ⟨readable, fits⟩
    refine ⟨readable, fun first rest hosted => ?_, fun group hosted => (fits group hosted).2⟩
    exact (fits _ hosted).1 first rest rfl
  · intro joins
    refine ⟨joins.readable, fun group hosted => ⟨?_, joins.crosswise group hosted⟩⟩
    rintro first rest rfl
    exact joins.types first rest hosted

/-- The groups of a data path hold each element that is grouped once, and any two
members of a group can share an operator, just when each turn is safe. -/
theorem computeMaximalGroups_safe_iff (dp : VcDataPath D E) (cp : CompatibilityResult E) :
    (∃ groups, dp.computeMaximalGroups cp false false = some groups ∧
      (∀ k, (groups k).flatten.Perm (dp.dpeMap.filter fun dpe => (dp.element dpe).cls.groupKind = some k)) ∧
      ∀ k, ∀ group ∈ groups k, ∀ a ∈ group, ∀ b ∈ group, a ≠ b → dp.SafeToShare cp a b) ↔
    ∀ before dpe after, dp.dpeMap = before ++ dpe :: after →
      ∀ groups, (dp.updateMaximalGroups cp false false).fill before = some groups →
        ∀ k, (dp.element dpe).cls.groupKind = some k → dp.JoinsSafely cp (groups k) dpe := by
  have symm : ∀ a b, dp.SafeToShare cp a b → dp.SafeToShare cp b a := fun a b => SafeToShare.symm
  have runs := FirstFit.fill_related_iff (F := dp.updateMaximalGroups cp false false) symm
    (fun dpe group => accepted_iff_fits group) dp.dpeMap_nodup
  have turns : (∀ before dpe after, dp.dpeMap = before ++ dpe :: after →
        ∀ groups, (dp.updateMaximalGroups cp false false).fill before = some groups →
          (dp.updateMaximalGroups cp false false).FitsIn (dp.Fits cp) groups dpe) ↔
      ∀ before dpe after, dp.dpeMap = before ++ dpe :: after →
        ∀ groups, (dp.updateMaximalGroups cp false false).fill before = some groups →
          ∀ k, (dp.element dpe).cls.groupKind = some k → dp.JoinsSafely cp (groups k) dpe := by
    apply forall₃_congr
    intro before dpe after
    apply forall₃_congr
    intro split groups filled
    have nodup : before.Nodup := (List.nodup_append.mp (split ▸ dp.dpeMap_nodup)).1
    exact fitsIn_iff (FirstFit.fill_filled nodup filled).occupied
  rw [← turns, ← runs]
  apply exists_congr
  intro groups
  apply and_congr_right
  intro filled
  have partition := FirstFit.fill_filled dp.dpeMap_nodup filled
  constructor
  · rintro ⟨_, safe⟩ k group inside
    have nodup : group.Nodup := by
      have whole := (partition.perm k).nodup_iff.mpr (dp.dpeMap_nodup.filter _)
      exact (List.nodup_flatten.mp whole).1 group inside
    exact List.Pairwise.imp_of_mem (fun memberA memberB distinct => safe k group inside _ memberA _ memberB distinct)
      nodup
  · intro related
    have : Std.Symm (dp.SafeToShare cp) := ⟨symm⟩
    exact ⟨partition.perm, fun k group inside a memberA b memberB distinct =>
      (related k group inside).forall memberA memberB distinct⟩

end VcDataPath

section Example

/-- `0` leads to `1` and `2`, where it forks to `3`, `4` and to `5`, `6`; these join
in `7`, and `8` and `9` lead to the exit. -/
def forkAndJoin : CPForkBlock (Fin 11) where
  entry := 0
  exit := 10
  elements := [1, 2, 3, 4, 5, 6, 7, 8, 9]
  isTransition := fun _ => true
  predecessors := fun x => [[], [0], [1], [2], [3], [2], [5], [4, 6], [7], [8], [9]].getD x []
  successors := fun x => [[1], [2], [3, 5], [4], [7], [6], [7], [8], [9], [10], []].getD x []
  forkMap := fun x => [[1], [2], [3, 5], [4], [7], [6], [7], [8], [9], [10], []].getD x []
  joinMap := fun x => [[], [0], [1], [2], [3], [2], [5], [4, 6], [7], [8], [9]].getD x []

def forkAndJoinAddresses : Addresses (Fin 11) where
  element := fun a b => a < b
  label := fun l m => match l, m with
    | .inherited, _ => true
    | .forElement a, .forElement b => a < b
    | .forFork a i, .forFork b j => a < b || (a = b && i < j)
    | .forFork _ _, .forElement _ => true
    | _, _ => false

def forkAndJoinLabels : Option (CompatibilityResult (Fin 11)) :=
  computeCompatibilityLabels forkAndJoinAddresses (fun _ _ => []) forkAndJoin 24

theorem forkAndJoinLabels_isSome : forkAndJoinLabels.isSome = true := by decide +kernel

def byteWire : Wire := ⟨.int 8, none, fun _ isNone => by cases isNone⟩

/-- Two multipliers.  The first is sampled before the fork and updated in one
branch, the second is sampled in the other branch and updated behind the join. -/
def twoMultipliers : VcDataPath Bool (Fin 11) where
  element := fun second =>
    { cls := .binarySplitOperator .mul byteWire byteWire byteWire
      fullRate := false
      flowThrough := false
      reqs := if second then [5, 8] else [1, 3]
      acks := if second then [6, 9] else [2, 4] }
  below := fun a b => !a && b
  dpeMap := [false, true]
  dpeMap_nodup := by decide

/-- The update of the first multiplier and the sampling of the second are in
different branches of the fork, and still the two multipliers are one group. -/
theorem computeMaximalGroups_concurrent :
    ∃ groups, twoMultipliers.computeMaximalGroups (forkAndJoinLabels.get forkAndJoinLabels_isSome)
        false false = some groups ∧
      ∃ group ∈ groups .splitOperator, ∃ a ∈ group, ∃ b ∈ group, a ≠ b ∧
        ¬ twoMultipliers.SafeToShare (forkAndJoinLabels.get forkAndJoinLabels_isSome) a b := by
  have grouped : (twoMultipliers.computeMaximalGroups (forkAndJoinLabels.get forkAndJoinLabels_isSome)
      false false).map (fun groups => groups .splitOperator) = some [[false, true]] := by
    decide +kernel
  have apart : VcDataPath.compatibleLabels (forkAndJoinLabels.get forkAndJoinLabels_isSome)
      ((forkAndJoinLabels.get forkAndJoinLabels_isSome).compatibilityLabel 3)
      ((forkAndJoinLabels.get forkAndJoinLabels_isSome).compatibilityLabel 5) = false := by
    decide +kernel
  obtain ⟨groups, run, isGroup⟩ := Option.map_eq_some_iff.mp grouped
  refine ⟨groups, run, [false, true], by rw [isGroup]; exact List.mem_singleton_self _,
    false, by decide, true, by decide, by decide, fun safe => ?_⟩
  have together := (safe.labels.resolve_left (by decide)) _
    (List.mem_append_left _ (List.mem_map_of_mem (show (3 : Fin 11) ∈ [1, 3] by decide))) _
    (List.mem_append_left _ (List.mem_map_of_mem (show (5 : Fin 11) ∈ [5, 8] by decide)))
  rw [apart] at together
  cases together

end Example

end Ahir.DataPath
