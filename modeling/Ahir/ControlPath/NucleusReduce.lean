import Ahir.ControlPath.GroupFiring
import Ahir.ControlPath.GroupReduce

/-!
# What a nucleus absorbs

The search from a nucleus gathers groups that can be absorbed by each group they
wait for.  The nucleus is then asked for every one of them, and may refuse some:
it may be associated with another function than the group it is asked for, while
a group without a function has led on.  A group behind a refused one is
absorbed nevertheless, and no longer waits for it.
-/

set_option autoImplicit false

namespace Ahir.ControlPath
open Ahir.Graph Ahir.Run

namespace GroupGraph
variable {E : Type} [DecidableEq E]

/-- Each group has what its elements have, and its successor vector is that of a set. -/
structure Described (m : Memory E) (C : GroupGraph E) : Prop where
  groups : ∀ g, C.Live g → (C.group g).Described m
  vectors : ∀ g, C.Live g → (C.group g).successorVector.Nodup

/-- The group that is merged away waits for the one it is merged into only. -/
def WaitsForWhole (C : GroupGraph E) : GroupOperation → Prop
  | .mergeGroups part whole => ∀ p ∈ (C.group part).predecessors, p = whole
  | _ => True

/-- Whom else the group that is merged away waits for is not associated with
another function than the one it is merged into. -/
def FunctionsAgree (C : GroupGraph E) : GroupOperation → Prop
  | .mergeGroups part whole => ∀ p ∈ (C.group part).predecessors, p ≠ whole →
      (C.group p).associatedCPFunction = none ∨
        (C.group p).associatedCPFunction = (C.group whole).associatedCPFunction
  | _ => True

variable {m : Memory E} {C : GroupGraph E}

section Gather
variable {absorbed : List Nat} {nucleus : Nat}

/-- `p` has been gathered, and been found able to absorb `g`. -/
structure Visit (C : GroupGraph E) (nucleus : Nat) (s : AbsorbSearch) (p g : Nat) : Prop where
  gathered : p = nucleus ∨ p ∈ s.reductionVector
  absorbs : (C.group p).canPotentiallyAbsorb (C.group g) = true
  done : g ∈ (C.group p).successorVector.take (s.outVisitCount p)

/-- What the search keeps: each visit that counts is from another group, and a
group is gathered when all groups it waits for have been. -/
structure Gathering (C : GroupGraph E) (absorbed : List Nat) (nucleus : Nat) (s : AbsorbSearch)
    (visits : Nat → List Nat) : Prop where
  queue : ∀ g ∈ s.queue, g = nucleus ∨ g ∈ s.reductionVector
  live : ∀ g ∈ s.reductionVector, C.Live g ∧ g ∉ absorbed
  counted : ∀ g, (visits g).length = s.inVisitCount g
  nodup : ∀ g, (visits g).Nodup
  visited : ∀ g, ∀ p ∈ visits g, Visit C nucleus s p g
  waits : ∀ before r after, s.reductionVector = before ++ r :: after →
    (C.group r).predecessors ≠ [] ∧ ∀ p ∈ (C.group r).predecessors,
      (p = nucleus ∨ p ∈ before) ∧ (C.group p).canPotentiallyAbsorb (C.group r) = true

structure UpToDate (C : GroupGraph E) (absorbed : List Nat) (nucleus : Nat) : Prop where
  arcs : ∀ g, C.Live g → g = nucleus ∨ g ∉ absorbed →
    ∀ x ∈ (C.group g).successorVector, C.forward.succ g x
  nodup : ∀ g, C.Live g → (C.group g).successorVector.Nodup
  nucleus_live : C.Live nucleus

theorem Visit.mono {s s' : AbsorbSearch} {p g : Nat} (visit : Visit C nucleus s p g)
    (vector : ∀ x ∈ s.reductionVector, x ∈ s'.reductionVector)
    (counts : ∀ x, s.outVisitCount x ≤ s'.outVisitCount x) : Visit C nucleus s' p g := by
  refine ⟨?_, visit.absorbs, ?_⟩
  · rcases visit.gathered with isNucleus | member
    · exact Or.inl isNucleus
    · exact Or.inr (vector p member)
  · exact (List.take_sublist_take_left (counts p)).subset visit.done

theorem Visit.predecessor (wf : C.WellFormed) (vectors : UpToDate C absorbed nucleus)
    {s : AbsorbSearch} {visits : Nat → List Nat} (gathering : Gathering C absorbed nucleus s visits)
    {p g : Nat} (visit : Visit C nucleus s p g) : p ∈ (C.group g).predecessors := by
  have isLive : C.Live p ∧ (p = nucleus ∨ p ∉ absorbed) := by
    rcases visit.gathered with rfl | member
    · exact ⟨vectors.nucleus_live, Or.inl rfl⟩
    · exact ⟨(gathering.live p member).1, Or.inr (gathering.live p member).2⟩
  have arc := vectors.arcs p isLive.1 isLive.2 g (List.mem_of_mem_take visit.done)
  exact (wf.forward_closed.successors p g isLive.1 arc).2

theorem Gathering.advance {s : AbsorbSearch} {visits : Nat → List Nat}
    (gathering : Gathering C absorbed nucleus s visits) (top : Nat) :
    Gathering C absorbed nucleus { s with outVisitCount := countVisit s.outVisitCount top } visits :=
  ⟨gathering.queue, gathering.live, gathering.counted, gathering.nodup,
    fun g p member => (gathering.visited g p member).mono (fun _ => id) (le_countVisit _ _),
    gathering.waits⟩

/-- The set of the groups to be absorbed later does not matter to the search. -/
theorem Gathering.note {s : AbsorbSearch} {visits : Nat → List Nat}
    (gathering : Gathering C absorbed nucleus s visits) (unabsorbed : List Nat) :
    Gathering C absorbed nucleus { s with unabsorbed := unabsorbed } visits :=
  ⟨gathering.queue, gathering.live, gathering.counted, gathering.nodup,
    fun g p member => (gathering.visited g p member).mono (fun _ => id) fun _ => Nat.le_refl _,
    gathering.waits⟩

theorem Gathering.count {s : AbsorbSearch} {visits : Nat → List Nat}
    (gathering : Gathering C absorbed nucleus s visits) {top succ : Nat}
    (visit : Visit C nucleus s top succ) (fresh : top ∉ visits succ) :
    Gathering C absorbed nucleus { s with inVisitCount := countVisit s.inVisitCount succ }
      (fun g => if g = succ then top :: visits g else visits g) := by
  refine ⟨gathering.queue, gathering.live, ?_, ?_, ?_, gathering.waits⟩
  · intro g
    dsimp only [countVisit]
    split_ifs with isSucc
    · rw [List.length_cons, gathering.counted, isSucc]
    · exact gathering.counted g
  · intro g
    split_ifs with isSucc
    · exact List.nodup_cons.mpr ⟨isSucc ▸ fresh, gathering.nodup g⟩
    · exact gathering.nodup g
  · intro g p member
    have still : ∀ p g, Visit C nucleus s p g → Visit C nucleus
        { s with inVisitCount := countVisit s.inVisitCount succ } p g :=
      fun p g visit => visit.mono (fun _ => id) fun _ => Nat.le_refl _
    split_ifs at member with isSucc
    · rcases List.mem_cons.mp member with rfl | member
      · exact still p g (isSucc ▸ visit)
      · exact still p g (gathering.visited g p member)
    · exact still p g (gathering.visited g p member)

/-- `succ` has been visited by all groups it waits for, and is gathered. -/
theorem Gathering.gather (wf : C.WellFormed) (vectors : UpToDate C absorbed nucleus)
    {s : AbsorbSearch} {visits : Nat → List Nat} (gathering : Gathering C absorbed nucleus s visits)
    {succ : Nat} (isLive : C.Live succ) (outside : succ ∉ absorbed) (some : visits succ ≠ [])
    (last : s.inVisitCount succ = (C.group succ).predecessors.length) :
    Gathering C absorbed nucleus
      { s with
        reductionVector := s.reductionVector ++ [succ]
        onQueue := succ :: s.onQueue
        queue := succ :: s.queue } visits := by
  have all : (visits succ).Perm (C.group succ).predecessors := by
    have inside : visits succ ⊆ (C.group succ).predecessors := fun p member =>
      (gathering.visited succ p member).predecessor wf vectors gathering
    apply (List.subperm_of_subset (gathering.nodup succ) inside).perm_of_length_le
    rw [gathering.counted, last]
  refine ⟨?_, ?_, gathering.counted, gathering.nodup, ?_, ?_⟩
  · intro g member
    rcases List.mem_cons.mp member with rfl | member
    · exact Or.inr (by simp)
    · rcases gathering.queue g member with isNucleus | member
      · exact Or.inl isNucleus
      · exact Or.inr (List.mem_append_left [succ] member)
  · intro g member
    rcases List.mem_append.mp member with member | member
    · exact gathering.live g member
    · rw [List.mem_singleton.mp member]
      exact ⟨isLive, outside⟩
  · intro g p member
    exact (gathering.visited g p member).mono (fun x => List.mem_append_left [succ])
      fun _ => Nat.le_refl _
  · intro before r after split
    rcases List.eq_nil_or_concat after with rfl | ⟨after, last', rfl⟩
    · obtain ⟨rfl, same⟩ := List.append_inj' split rfl
      obtain rfl := List.singleton_inj.mp same
      refine ⟨fun none => some (List.perm_nil.mp (none ▸ all)), ?_⟩
      intro p member
      have visit := gathering.visited succ p (all.mem_iff.mpr member)
      exact ⟨visit.gathered, visit.absorbs⟩
    · rw [List.concat_eq_append, ← List.cons_append, ← List.append_assoc] at split
      exact gathering.waits before r after (List.append_inj' split rfl).1

theorem Gathering.visit (wf : C.WellFormed) (vectors : UpToDate C absorbed nucleus)
    {s : AbsorbSearch} {visits : Nat → List Nat} (gathering : Gathering C absorbed nucleus s visits)
    {top succ : Nat} (queued : top ∈ s.queue)
    (found : (C.group top).successorVector[s.outVisitCount top]? = some succ) :
    ∃ visits', Gathering C absorbed nucleus (C.visitAbsorbable m absorbed top
      { s with outVisitCount := countVisit s.outVisitCount top } succ) visits' := by
  have top_spec := gathering.queue top queued
  have upToDate : C.Live top ∧ (top = nucleus ∨ top ∉ absorbed) := by
    rcases top_spec with rfl | member
    · exact ⟨vectors.nucleus_live, Or.inl rfl⟩
    · exact ⟨(gathering.live top member).1, Or.inr (gathering.live top member).2⟩
  have arc := vectors.arcs top upToDate.1 upToDate.2 succ (List.mem_of_getElem? found)
  have isLive := (wf.forward_closed.successors top succ upToDate.1 arc).1
  have taken : (C.group top).successorVector.take (s.outVisitCount top + 1) =
      (C.group top).successorVector.take (s.outVisitCount top) ++ [succ] := by
    rw [List.take_add_one, found]
    rfl
  have fresh : top ∉ visits succ := by
    intro member
    have nodup := (vectors.nodup top upToDate.1).sublist (List.take_sublist (s.outVisitCount top + 1) _)
    rw [taken] at nodup
    have before := (gathering.visited succ top member).done
    exact (List.nodup_append.mp nodup).2.2 succ before succ (List.mem_singleton_self succ) rfl
  have advanced := gathering.advance top
  unfold visitAbsorbable
  dsimp only
  split_ifs with inside onQueue absorbs last
  · exact ⟨visits, advanced⟩
  · exact ⟨visits, advanced⟩
  · have visit : Visit C nucleus { s with
        outVisitCount := countVisit s.outVisitCount top
        unabsorbed := insertPointer m.below succ s.unabsorbed } top succ := by
      refine ⟨top_spec, absorbs, ?_⟩
      simp [countVisit, taken]
    have counted := (advanced.note (insertPointer m.below succ s.unabsorbed)).count visit fresh
    refine ⟨_, counted.gather wf vectors isLive inside (by simp) ?_⟩
    rw [← last]
    simp [countVisit]
  · have visit : Visit C nucleus { s with
        outVisitCount := countVisit s.outVisitCount top
        unabsorbed := insertPointer m.below succ s.unabsorbed } top succ := by
      refine ⟨top_spec, absorbs, ?_⟩
      simp [countVisit, taken]
    exact ⟨_, (advanced.note (insertPointer m.below succ s.unabsorbed)).count visit fresh⟩
  · exact ⟨visits, advanced.note _⟩

theorem searchAbsorbable_gathers (wf : C.WellFormed) (vectors : UpToDate C absorbed nucleus) :
    ∀ (fuel : Nat) (s s' : AbsorbSearch) (visits : Nat → List Nat),
      Gathering C absorbed nucleus s visits → C.searchAbsorbable m absorbed fuel s = some s' →
      ∃ visits', Gathering C absorbed nucleus s' visits' := by
  intro fuel
  induction fuel with
  | zero =>
      intro s s' visits gathering run
      rw [searchAbsorbable] at run
      split_ifs at run
      exact ⟨visits, Option.some.inj run ▸ gathering⟩
  | succ fuel ih =>
      intro s s' visits gathering run
      rw [searchAbsorbable] at run
      split at run
      · exact ⟨visits, Option.some.inj run ▸ gathering⟩
      · next top rest front =>
          split_ifs at run with done
          · apply ih _ s' visits _ run
            refine ⟨?_, gathering.live, gathering.counted, gathering.nodup, ?_, gathering.waits⟩
            · intro g member
              apply gathering.queue
              rw [front]
              exact List.mem_cons_of_mem top member
            · intro g p member
              exact (gathering.visited g p member).mono (fun _ => id) fun _ => Nat.le_refl _
          · split at run
            · cases run
            · next succ found =>
                obtain ⟨visits', gathering'⟩ := gathering.visit (m := m) wf vectors
                  (by rw [front]; exact List.mem_cons_self) found
                exact ih _ s' visits' gathering' run

end Gather

section Absorb
open CPElementGroup

/-- `this` will never absorb `g`, whatever else it absorbs. -/
def Refuses (this g : CPElementGroup E) : Prop :=
  this.isBoundAsInputToCPFunction = true ∨ this.isDelayElement = true ∨ ¬ this.Agrees g

omit [DecidableEq E] in
theorem agrees_of_bare {this this' g g' : CPElementGroup E} (same : this'.bare = this.bare)
    (same' : g'.bare = g.bare) : this'.Agrees g' ↔ this.Agrees g := by
  have function : this'.associatedCPFunction = this.associatedCPFunction :=
    congrArg (fun h => h.associatedCPFunction) same
  have function' : g'.associatedCPFunction = g.associatedCPFunction :=
    congrArg (fun h => h.associatedCPFunction) same'
  rw [Agrees, Agrees, function, function']

theorem Refuses.addElements {this g : CPElementGroup E} (refuses : Refuses this g) (cpes : List E) :
    Refuses (this.addElements m cpes) g := by
  induction cpes generalizing this with
  | nil => exact refuses
  | cons cpe rest ih =>
      apply ih
      rcases refuses with bound | delay | differ
      · exact Or.inl (by simp [CPElementGroup.addElement, bound])
      · exact Or.inr (Or.inl (by simp [CPElementGroup.addElement, delay]))
      · refine Or.inr (Or.inr fun agrees => differ ?_)
        unfold Agrees at agrees ⊢
        cases function : this.associatedCPFunction with
        | none => exact Or.inl rfl
        | some f =>
            simp only [CPElementGroup.addElement, function, Option.orElse_some] at agrees
            exact agrees

omit [DecidableEq E] in
theorem Refuses.of_bare {this this' g g' : CPElementGroup E} (refuses : Refuses this g)
    (same : this'.bare = this.bare) (same' : g'.bare = g.bare) : Refuses this' g' := by
  rcases refuses with bound | delay | differ
  · have sameBound : this'.isBoundAsInputToCPFunction = this.isBoundAsInputToCPFunction :=
      congrArg (fun h => h.isBoundAsInputToCPFunction) same
    exact Or.inl (sameBound.trans bound)
  · exact Or.inr (Or.inl ((SameDrive.of_bare same).isDelayElement.trans delay))
  · exact Or.inr (Or.inr fun agrees => differ ((agrees_of_bare same same').mp agrees))

theorem described_of_bare {g g' : CPElementGroup E} (described : g.Described m)
    (same : g'.bare = g.bare) : g'.Described m := by
  have drive := SameDrive.of_bare same
  have elements : g'.elements = g.elements := congrArg (fun h => h.elements) same
  refine ⟨?_, ?_⟩
  · rw [drive.hasTransition, drive.hasPlace]
    exact described.kind
  · rw [elements, same]
    exact described.elements

/-- The nucleus is asked for the groups of `rest`; it has refused those of `refused`. -/
structure Reducing (m : Memory E) (nucleus : Nat) (rest refused : List Nat) (C : GroupGraph E) :
    Prop where
  kind : (C.group nucleus).hasTransition = !(C.group nucleus).hasPlace
  live : ∀ g ∈ rest, C.Live g ∧ g ≠ nucleus
  nodup : rest.Nodup
  described : ∀ g ∈ rest, (C.group g).Described m
  follows : ∀ g ∈ rest, (C.group nucleus).Follows (C.group g)
  waits : ∀ before r after, rest = before ++ r :: after → ∀ p ∈ (C.group r).predecessors,
    p = nucleus ∨ p ∈ refused ∨ p ∈ before
  refuses : ∀ p ∈ refused, p ≠ nucleus ∧ Refuses (C.group nucleus) (C.group p)

variable {nucleus : Nat} {rest refused : List Nat} {r : Nat}

theorem Reducing.refuse (reducing : Reducing m nucleus (r :: rest) refused C)
    (refused' : ¬ (C.group nucleus).canPotentiallyAbsorb (C.group r) = true) :
    Reducing m nucleus rest (r :: refused) C := by
  have tail : ∀ g ∈ rest, g ∈ r :: rest := fun g => List.mem_cons_of_mem r
  refine ⟨reducing.kind, fun g member => reducing.live g (tail g member),
    (List.nodup_cons.mp reducing.nodup).2, fun g member => reducing.described g (tail g member),
    fun g member => reducing.follows g (tail g member), ?_, ?_⟩
  · intro before x after split p member
    rcases reducing.waits (r :: before) x after (by rw [split]; rfl) p member with
      isNucleus | member | member
    · exact Or.inl isNucleus
    · exact Or.inr (Or.inl (List.mem_cons_of_mem r member))
    · rcases List.mem_cons.mp member with rfl | member
      · exact Or.inr (Or.inl List.mem_cons_self)
      · exact Or.inr (Or.inr member)
  · intro p member
    rcases List.mem_cons.mp member with rfl | member
    · refine ⟨(reducing.live p List.mem_cons_self).2, ?_⟩
      have described := reducing.described p List.mem_cons_self
      rw [canPotentiallyAbsorb_iff reducing.kind described.kind] at refused'
      by_contra accepts
      simp only [Refuses, not_or, Bool.not_eq_true, not_not] at accepts
      exact refused' ⟨accepts.2.2, accepts.1, accepts.2.1, reducing.follows p List.mem_cons_self⟩
    · exact reducing.refuses p member

theorem Reducing.sole_iff (reducing : Reducing m nucleus (r :: rest) refused C)
    (absorbs : (C.group nucleus).canPotentiallyAbsorb (C.group r) = true) :
    (∀ p ∈ (C.group r).predecessors, p = nucleus) ↔ ∀ p ∈ (C.group r).predecessors, p ≠ nucleus →
      (C.group p).associatedCPFunction = none ∨
        (C.group p).associatedCPFunction = (C.group nucleus).associatedCPFunction := by
  constructor
  · exact fun sole p member other => absurd (sole p member) other
  · intro agree p member
    by_contra other
    have described := reducing.described r List.mem_cons_self
    obtain ⟨_, notBound, notDelay, _⟩ :=
      (canPotentiallyAbsorb_iff reducing.kind described.kind).mp absorbs
    rcases reducing.waits [] r rest rfl p member with isNucleus | isRefused | none
    · exact other isNucleus
    · rcases (reducing.refuses p isRefused).2 with bound | delay | differ
      · rw [notBound] at bound
        cases bound
      · rw [notDelay] at delay
        cases delay
      · rcases agree p member other with none | same
        · exact differ (Or.inr (Or.inl none))
        · exact differ (Or.inr (Or.inr same.symm))
    · cases none

theorem Reducing.absorb (wf : C.WellFormed) (reducing : Reducing m nucleus (r :: rest) refused C)
    {C' : GroupGraph E} (run : C.mergeGroups m r nucleus = some C') :
    Reducing m nucleus rest refused C' := by
  obtain ⟨liveR, distinct⟩ := reducing.live r List.mem_cons_self
  have described := reducing.described r List.mem_cons_self
  have follows := reducing.follows r List.mem_cons_self
  obtain ⟨fresh, nodup⟩ := List.nodup_cons.mp reducing.nodup
  obtain ⟨_, _, _, _, _, groups, _⟩ := mergeGroups_cases run
  have bare := mergeGroups_bare run
  have other : ∀ g, g ≠ nucleus → (C'.group g).bare = (C.group g).bare := by
    intro g isOther
    rw [bare, if_neg isOther]
  have grown : (C'.group nucleus).bare =
      (C.group nucleus).bare.addElements m (C.group r).elements := by
    rw [bare, if_pos rfl]
  have drive := mergeGroups_sameDrive described reducing.kind follows run nucleus
  have waits := fun (g : Nat) (member : g ∈ rest) (p : Nat) =>
    mergeGroups_waits wf liveR distinct follows.unmarked run
      (reducing.live g (List.mem_cons_of_mem r member)).1 p
  refine ⟨?_, ?_, nodup, ?_, ?_, ?_, ?_⟩
  · rw [drive.hasTransition, drive.hasPlace]
    exact reducing.kind
  · intro g member
    obtain ⟨isLive, isOther⟩ := reducing.live g (List.mem_cons_of_mem r member)
    refine ⟨?_, isOther⟩
    rw [Live, groups, mem_erasePointer]
    exact ⟨isLive, fun isR => fresh (isR ▸ member)⟩
  · intro g member
    have inside := List.mem_cons_of_mem r member
    exact described_of_bare (reducing.described g inside) (other g (reducing.live g inside).2)
  · intro g member
    have inside := List.mem_cons_of_mem r member
    have same := SameDrive.of_bare (other g (reducing.live g inside).2)
    have before := (reducing.follows g inside).of_sameDrive drive
    refine ⟨same.isBoundAsOutputFromCPFunction.trans before.notBound,
      same.isDelayElement.trans before.notDelay, same.hasInputTransition.trans before.noInput, ?_,
      same.pipelineParent.trans before.sameParent, same.hasDeadTransition.trans before.notDead,
      same.hasTiedHighTransition.trans before.notTiedHigh,
      same.hasLeftOpenTransition.trans before.notLeftOpen, same.hasPlace.trans before.sameKind⟩
    apply List.eq_nil_iff_forall_not_mem.mpr
    intro p listed
    rcases ((waits g member p).2).mp listed with ⟨listed, _⟩ | ⟨_, listed, _⟩
    · rw [before.unmarked] at listed
      cases listed
    · rw [before.unmarked] at listed
      cases listed
  · intro before x after split p listed
    have member : x ∈ rest := by
      rw [split]
      simp
    rcases ((waits x member p).1).mp listed with ⟨listed, notR⟩ | ⟨isNucleus, _⟩
    · rcases reducing.waits (r :: before) x after (by rw [split]; rfl) p listed with
        isNucleus | isRefused | earlier
      · exact Or.inl isNucleus
      · exact Or.inr (Or.inl isRefused)
      · exact Or.inr (Or.inr ((List.mem_cons.mp earlier).resolve_left notR))
    · exact Or.inl isNucleus
  · intro p member
    obtain ⟨isOther, refuses⟩ := reducing.refuses p member
    refine ⟨isOther, ?_⟩
    have before : Refuses (C.group nucleus).bare (C.group p) := refuses.of_bare rfl rfl
    have after := before.addElements (m := m) (C.group r).elements
    rw [← grown] at after
    exact after.of_bare rfl (other p isOther)

theorem Gathering.follows {absorbed : List Nat} {s : AbsorbSearch} {visits : Nat → List Nat}
    (gathering : Gathering C absorbed nucleus s visits) (kind : (C.group nucleus).Described m)
    (described : ∀ g ∈ s.reductionVector, (C.group g).Described m) :
    ∀ before after, s.reductionVector = before ++ after →
      ∀ g ∈ before, (C.group nucleus).Follows (C.group g) := by
  intro before
  induction before using List.reverseRecOn with
  | nil => exact fun _ _ _ member => absurd member List.not_mem_nil
  | append_singleton before r ih =>
      intro after split g member
      rw [List.append_assoc] at split
      rcases List.mem_append.mp member with member | isR
      · exact ih _ split g member
      · obtain rfl := List.mem_singleton.mp isR
        obtain ⟨some, waits⟩ := gathering.waits before g after split
        obtain ⟨p, listed⟩ := List.exists_mem_of_ne_nil _ some
        obtain ⟨earlier, absorbs⟩ := waits p listed
        have describedG := described g (by rw [split]; simp)
        rcases earlier with rfl | earlier
        · exact ((canPotentiallyAbsorb_iff kind.kind describedG.kind).mp absorbs).2.2.2
        · have describedP := described p (by rw [split]; exact List.mem_append_left _ earlier)
          have onward := ((canPotentiallyAbsorb_iff describedP.kind describedG.kind).mp absorbs).2.2.2
          have before := ih _ split p earlier
          exact ⟨onward.notBound, onward.notDelay, onward.noInput, onward.unmarked,
            onward.sameParent.trans before.sameParent, onward.notDead, onward.notTiedHigh,
            onward.notLeftOpen, onward.sameKind.trans before.sameKind⟩

theorem reducing_start {absorbed rest : List Nat} {fuel : Nat} {s : AbsorbSearch}
    (wf : C.WellFormed) (described : C.Described m) (nucleii : Nucleii absorbed (nucleus :: rest) C)
    (search : C.searchAbsorbable m (insertPointer m.below nucleus absorbed) fuel
      ⟨[nucleus], [], fun _ => 0, fun _ => 0, [], rest⟩ = some s) :
    Reducing m nucleus s.reductionVector [] C := by
  obtain ⟨liveNucleus, unabsorbedNucleus⟩ := nucleii.live nucleus List.mem_cons_self
  have searching := searchAbsorbable_spec wf nucleii.vectors_insert fuel _ s nucleii.start search
  have vectors : UpToDate C (insertPointer m.below nucleus absorbed) nucleus := by
    refine ⟨?_, described.vectors, liveNucleus⟩
    rintro g isLive (rfl | outside)
    · exact nucleii.vectors g isLive unabsorbedNucleus
    · exact nucleii.vectors_insert g isLive outside
  have start : Gathering C (insertPointer m.below nucleus absorbed) nucleus
      ⟨[nucleus], [], fun _ => 0, fun _ => 0, [], rest⟩ (fun _ => []) :=
    ⟨by simp, by simp, by simp, by simp, by simp, by simp⟩
  obtain ⟨visits, gathering⟩ := searchAbsorbable_gathers wf vectors fuel _ s _ start search
  have describedAll : ∀ g ∈ s.reductionVector, (C.group g).Described m := fun g member =>
    described.groups g (gathering.live g member).1
  refine ⟨(described.groups nucleus liveNucleus).kind, ?_, searching.nodup, describedAll, ?_, ?_,
    by simp⟩
  · intro g member
    obtain ⟨isLive, outside⟩ := gathering.live g member
    refine ⟨isLive, ?_⟩
    rintro rfl
    exact outside ((mem_insertPointer m.below).mpr (Or.inl rfl))
  · exact gathering.follows (described.groups nucleus liveNucleus) describedAll s.reductionVector []
      (by simp)
  · intro before r after split p listed
    rcases ((gathering.waits before r after split).2 p listed).1 with isNucleus | earlier
    · exact Or.inl isNucleus
    · exact Or.inr (Or.inr earlier)

end Absorb

section Run
variable {nucleus : Nat}

/-- A graph in which the elements fire as in `C`. -/
def Faithful (C C' : GroupGraph E) : Prop := C'.WellFormed ∧ C'.firings = C.firings

section Absorb
variable {C : GroupGraph E} (safe : GroupGraph E → GroupOperation → Prop)
  (exact : ∀ C r rest refused, Reducing m nucleus (r :: rest) refused C →
    (C.group nucleus).canPotentiallyAbsorb (C.group r) = true →
    (safe C (.mergeGroups r nucleus) ↔ ∀ p ∈ (C.group r).predecessors, p = nucleus))
include exact

/-- A turn of the loop over the reduction vector; `safe` says of a merge that no other group is waited for. -/
theorem absorb_turn_faithful {r : Nat} {rest refused : List Nat} {Ru Ru₁ : Reduction E × List Nat}
    (account : Chronicle.Accounted (Faithful C) safe Ru.1 (Reducing m nucleus (r :: rest) refused))
    (turn : absorb m nucleus Ru r = some Ru₁) :
    ∃ refused, Chronicle.Accounted (Faithful C) safe Ru₁.1 (Reducing m nucleus rest refused) := by
  unfold absorb at turn
  split_ifs at turn with absorbs
  · obtain ⟨C', merged, turn⟩ := Option.bind_eq_some_iff.mp turn
    obtain rfl := Option.some.inj turn
    refine ⟨refused, ?_⟩
    apply account.record
    · intro faithful reducing
      obtain ⟨liveR, distinct⟩ := reducing.live r List.mem_cons_self
      rw [exact _ r rest refused reducing absorbs]
      constructor
      · intro faithful' p listed
        rw [((mergeGroups_wellFormed_iff faithful.1 liveR merged).mp faithful'.1).2] at listed
        exact List.mem_singleton.mp listed
      · intro waits
        have sole : (Ru.1.current.group r).predecessors = [nucleus] := by
          obtain ⟨p, one⟩ := List.length_eq_one_iff.mp (mergeGroups_cases merged).1
          rw [one, waits p (by rw [one]; exact List.mem_singleton_self p)]
        refine ⟨faithful.1.mergeGroups liveR distinct sole merged, ?_⟩
        rw [← faithful.2]
        exact mergeGroups_firings faithful.1 liveR distinct
          (reducing.described r List.mem_cons_self) reducing.kind
          (reducing.follows r List.mem_cons_self) sole merged
    · exact fun faithful reducing _ => reducing.absorb faithful.1 merged
  · obtain rfl := Option.some.inj turn
    exact ⟨r :: refused, account.mono fun _ reducing => reducing.refuse absorbs⟩

theorem absorb_faithful (rest refused : List Nat) (Ru Ru' : Reduction E × List Nat)
    (account : Chronicle.Accounted (Faithful C) safe Ru.1 (Reducing m nucleus rest refused))
    (run : rest.foldlM (absorb m nucleus) Ru = some Ru') :
    Chronicle.Accounted (Faithful C) safe Ru'.1 (fun _ => True) := by
  obtain ⟨_, ended⟩ := foldlM_rule
    (fun rest Ru => ∃ refused, Chronicle.Accounted (Faithful C) safe Ru.1 (Reducing m nucleus rest refused))
    (fun _ _ _ _ ⟨_, account⟩ turn => absorb_turn_faithful safe exact account turn) ⟨refused, account⟩ run
  exact ended.mono fun _ _ => trivial

end Absorb

/-- The nucleus absorbs only groups that wait for nothing else, and the elements
fire as before, just when no group is absorbed behind one that is associated
with another function. -/
theorem reduceFromNucleus_waits_iff {absorbed rest : List Nat} {fuel : Nat} (wf : C.WellFormed)
    (described : C.Described m) (nucleii : Nucleii absorbed (nucleus :: rest) C)
    {Ru : Reduction E × List Nat}
    (run : reduceFromNucleus m fuel nucleus (insertPointer m.below nucleus absorbed)
      (Chronicle.start C, rest) = some Ru) :
    ((∀ step ∈ Ru.1.history, WaitsForWhole step.1 step.2) ∧
      ∀ C' ∈ Ru.1.states, C'.firings = C.firings) ↔
      ∀ step ∈ Ru.1.history, FunctionsAgree step.1 step.2 := by
  unfold reduceFromNucleus at run
  obtain ⟨s, search, run⟩ := Option.bind_eq_some_iff.mp run
  have reducing := reducing_start wf described nucleii search
  have faithful : Faithful C C := ⟨wf, rfl⟩
  have waits := (absorb_faithful WaitsForWhole (fun _ _ _ _ _ _ => Iff.rfl) s.reductionVector []
    (Chronicle.start C, s.unabsorbed) Ru (Chronicle.Accounted.start faithful reducing) run).good_iff_safe
  have agree := (absorb_faithful FunctionsAgree
    (fun _ _ _ _ reducing absorbs => (reducing.sole_iff absorbs).symm) s.reductionVector []
    (Chronicle.start C, s.unabsorbed) Ru (Chronicle.Accounted.start faithful reducing) run).good_iff_safe
  rw [← agree, waits]
  constructor
  · exact fun both => both.1
  · intro all
    exact ⟨all, fun C' member => ((waits.mpr all) C' member).2⟩

end Run

section Example

/-- Four transitions in a row; the first is associated with function 10, the
third with function 11 or with none. -/
def rowFunction (differs : Bool) (e : Nat) : Option Nat :=
  if e = 0 then some 10 else if e = 2 ∧ differs then some 11 else none

def rowMemory (differs : Bool) : Memory Nat where
  info := fun e =>
    { isTransition := true, isPlace := false, isInput := false, isOutput := false, isDead := false,
      isTiedHigh := false, isLeftOpen := false, isDelayElement := false,
      isBoundAsInputToCPFunction := false, isBoundAsOutputFromCPFunction := false,
      isBoundAsInputToRegion := false, isBoundAsOutputFromRegion := false, numberOfPredecessors := 1,
      numberOfSuccessors := 1, numberOfMarkedPredecessors := 0, numberOfMarkedSuccessors := 0,
      pipelineParent := none, associatedCPFunction := rowFunction differs e }
  belowElement := fun x y => decide (x < y)
  below := fun x y => decide (x < y)

def row (differs : Bool) : GroupGraph Nat where
  cpelementGroups := [0, 1, 2, 3]
  group := fun g =>
    if g = 0 then
      { elements := [0], successors := [1], successorVector := [1], hasTransition := true,
        associatedCPFunction := rowFunction differs 0 }
    else if g = 1 then
      { elements := [1], predecessors := [0], successors := [2], successorVector := [2],
        hasTransition := true }
    else if g = 2 then
      { elements := [2], predecessors := [1], successors := [3], successorVector := [3],
        hasTransition := true, associatedCPFunction := rowFunction differs 2 }
    else if g = 3 then { elements := [3], predecessors := [2], hasTransition := true }
    else {}
  cpelementToGroupMap := fun e => if e ∈ [0, 1, 2, 3] then some (some e) else none
  rootIndexCounter := 4

theorem row_wellFormed (differs : Bool) : (row differs).WellFormed := by
  have lists : ∀ x ∈ [0, 1, 2, 3],
      (∀ y ∈ ((row differs).group x).successors,
        y ∈ [0, 1, 2, 3] ∧ x ∈ ((row differs).group y).predecessors) ∧
      (∀ y ∈ ((row differs).group x).predecessors,
        y ∈ [0, 1, 2, 3] ∧ x ∈ ((row differs).group y).successors) ∧
      ((row differs).group x).markedSuccessors = [] ∧
      ((row differs).group x).markedPredecessors = [] ∧
      ((row differs).group x).elements = [x] ∧ x < 4 := by
    cases differs <;> decide
  have mapped : ∀ x ∈ [0, 1, 2, 3], (row differs).cpelementToGroupMap x = some (some x) :=
    fun x member => if_pos member
  refine ⟨⟨⟨?_, ?_⟩, ⟨?_, ?_⟩, ?_, ?_, ?_, ?_⟩, ?_⟩
  · exact fun x y isLive arc => (lists x isLive).1 y arc
  · exact fun x y isLive arc => (lists y isLive).2.1 x arc
  · intro x y isLive arc
    change y ∈ ((row differs).group x).markedSuccessors at arc
    rw [(lists x isLive).2.2.1] at arc
    cases arc
  · intro x y isLive arc
    change x ∈ ((row differs).group y).markedPredecessors at arc
    rw [(lists y isLive).2.2.2.1] at arc
    cases arc
  · intro g isLive e member
    rw [(lists g isLive).2.2.2.2.1, List.mem_singleton] at member
    rw [member]
    exact mapped g isLive
  · intro e g belongs
    change (if e ∈ [0, 1, 2, 3] then some (some e) else none) = some (some g) at belongs
    split_ifs at belongs with member
    obtain rfl := Option.some.inj (Option.some.inj belongs)
    refine ⟨member, ?_⟩
    rw [(lists e member).2.2.2.2.1]
    exact List.mem_singleton_self e
  · exact (by decide : [0, 1, 2, 3].Nodup)
  · exact fun g isLive => (lists g isLive).2.2.2.2.2
  · intro g isLive
    rw [(lists g isLive).2.2.2.2.1]
    exact List.cons_ne_nil g []

theorem row_described (differs : Bool) : (row differs).Described (rowMemory differs) := by
  constructor
  · intro g isLive
    change g ∈ [0, 1, 2, 3] at isLive
    fin_cases isLive
    all_goals
      refine ⟨rfl, fun cpe member => ?_⟩
      obtain rfl := List.mem_singleton.mp member
      cases differs <;> rfl
  · change ∀ g ∈ [0, 1, 2, 3], ((row differs).group g).successorVector.Nodup
    cases differs <;> decide

theorem row_nucleii (differs : Bool) : Nucleii [] [0] (row differs) := by
  refine ⟨?_, by decide, ?_⟩
  · intro n member
    obtain rfl := List.mem_singleton.mp member
    exact ⟨(by decide : 0 ∈ [0, 1, 2, 3]), List.not_mem_nil⟩
  · intro g isLive _ x member
    change g ∈ [0, 1, 2, 3] at isLive
    fin_cases isLive
    all_goals exact member

/-- Without the other function the first transition absorbs the whole row. -/
theorem reduceFromNucleus_waits_iff_row :
    ∃ Ru, reduceFromNucleus (rowMemory false) 9 0 [0] (Chronicle.start (row false), []) = some Ru ∧
      (((∀ step ∈ Ru.1.history, WaitsForWhole step.1 step.2) ∧
        ∀ C' ∈ Ru.1.states, C'.firings = (row false).firings) ↔
        ∀ step ∈ Ru.1.history, FunctionsAgree step.1 step.2) ∧
      Ru.1.current.cpelementGroups = [0] := by
  have absorbed : ∃ Ru, reduceFromNucleus (rowMemory false) 9 0 [0] (Chronicle.start (row false), []) =
      some Ru ∧ Ru.1.current.cpelementGroups = [0] := ⟨_, rfl, by decide⟩
  obtain ⟨Ru, run, groups⟩ := absorbed
  exact ⟨Ru, run, reduceFromNucleus_waits_iff (row_wellFormed false) (row_described false)
    (row_nucleii false) run, groups⟩

/-- With it the third transition stays, and the one behind it is absorbed. -/
theorem reduceFromNucleus_overtakes :
    (row true).WellFormed ∧ (row true).Described (rowMemory true) ∧ Nucleii [] [0] (row true) ∧
      ∃ Ru, reduceFromNucleus (rowMemory true) 9 0 [0] (Chronicle.start (row true), []) = some Ru ∧
        Ru.1.current.cpelementGroups = [0, 2] ∧
        ¬ ∀ step ∈ Ru.1.history, WaitsForWhole step.1 step.2 := by
  refine ⟨row_wellFormed true, row_described true, row_nucleii true, _, rfl, by decide, ?_⟩
  intro waits
  have last := waits _ (List.mem_cons_of_mem _ List.mem_cons_self)
  have listed : 2 = 0 := last 2 List.mem_cons_self
  cases listed

end Example

end GroupGraph

end Ahir.ControlPath
