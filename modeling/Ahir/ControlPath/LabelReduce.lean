import Ahir.Graph.TokenRun
import Ahir.ControlPath.CompatibilityLabel

/-!
# Reducing a label trades branches back

A label stands for a set of tokens: the label of a fork arc for one branch, a
label with unlabeled in-arcs for what their sources stand for.  Replacing a
label by the sources of its in-arcs changes nothing, and the insert and erase
sets of `Reduce` are one trade, so a whole reduction is a chain of trades.
-/

set_option autoImplicit false

namespace Ahir.ControlPath
open Ahir.Graph
variable {E : Type} [DecidableEq E]

def LabelId.token : LabelId E → Option (Token E)
  | .inherited => some .whole
  | .forElement _ => none
  | .forFork t idx => some (.branch t idx)

/-- The labels without unlabeled in-arcs that a label joins, itself if it is one. -/
def joined (arcs : LabelId E → LabelArcs E) (l : LabelId E) : List (LabelId E) :=
  if (arcs l).unlabeledInArcs = [] then [l] else (arcs l).unlabeledInArcs

def tokens (arcs : LabelId E → LabelArcs E) (l : LabelId E) : Set (Token E) :=
  {p | ∃ u ∈ joined arcs l, u.token = some p}

def tokensOf (arcs : LabelId E → LabelArcs E) (labels : List (LabelId E)) : Set (Token E) :=
  {p | ∃ u ∈ labels, p ∈ tokens arcs u}

section Tokens
variable {arcs : LabelId E → LabelArcs E}

omit [DecidableEq E]

theorem tokens_of_single {l : LabelId E} (none : (arcs l).unlabeledInArcs = []) {p : Token E} :
    p ∈ tokens arcs l ↔ l.token = some p := by
  simp [tokens, joined, none]

theorem tokens_of_join {l : LabelId E} (some : (arcs l).unlabeledInArcs ≠ [])
    (single : ∀ u ∈ (arcs l).unlabeledInArcs, (arcs u).unlabeledInArcs = []) :
    tokens arcs l = tokensOf arcs (arcs l).unlabeledInArcs := by
  ext p
  simp only [tokens, joined, if_neg some, tokensOf, Set.mem_ofPred_eq]
  constructor
  · rintro ⟨u, member, token⟩
    exact ⟨u, member, u, by simp [single u member], token⟩
  · rintro ⟨u, member, w, memberW, token⟩
    rw [if_pos (single u member), List.mem_singleton] at memberW
    exact ⟨u, member, memberW ▸ token⟩

theorem tokens_eq_of_arcs {arcs' : LabelId E → LabelArcs E} {l : LabelId E}
    (same : arcs' l = arcs l) : tokens arcs' l = tokens arcs l := by
  simp [tokens, joined, same]

theorem LabelId.token_injective {l m : LabelId E} {p : Token E} (first : l.token = some p)
    (second : m.token = some p) : l = m := by
  cases l <;> cases m <;> cases first <;> cases second <;> rfl

end Tokens

/-- The heap as far as the labels of the vertices in `done` go: `labelOf` is the
label of a vertex, `Branch` says which labels stand for one token. -/
structure Reducible (B : CPForkBlock E) (arcs : LabelId E → LabelArcs E)
    (labelOf : E → Option (LabelId E)) (Branch : LabelId E → Prop) : Prop where
  branch_single : ∀ u, Branch u → (arcs u).unlabeledInArcs = []
  branch_name : ∀ u, Branch u → (u = .inherited ∧ (arcs u).labeledInArc = none) ∨
    ∃ t i l, u = .forFork t i ∧ i < (B.successors t).length ∧ (B.successors t).length ≠ 1 ∧
      labelOf t = some l ∧ (arcs u).labeledInArc = some (l, t, i)
  joins_branches : ∀ t l, labelOf t = some l → Branch l ∨
    ((arcs l).unlabeledInArcs ≠ [] ∧ ∀ u ∈ (arcs l).unlabeledInArcs, Branch u)

section Passes
variable {below : LabelId E → LabelId E → Bool} {arcs : LabelId E → LabelArcs E}
  {numberOfSuccessors : E → Nat}

/-- The branches by `t` below `v`. -/
def branchesOf (arcs : LabelId E → LabelArcs E) (v : LabelId E) (t : E)
    (labels : List (LabelId E)) : List (LabelId E) :=
  labels.filter (fun u => (arcs u).labeledInArc.map (fun arc => (arc.1, arc.2.1)) = some (v, t))

/-- A label gets into the insert set when as many branches by one fork have been
counted as the fork has successors. -/
theorem mem_insertSetLoop {v : LabelId E} :
    ∀ (labels : List (LabelId E)) (reduceMap : List (LabelId E × E)) (insertSet : List (LabelId E)),
      v ∈ insertSetLoop below arcs numberOfSuccessors reduceMap insertSet labels →
      v ∈ insertSet ∨ ∃ t pre u post, labels = pre ++ u :: post ∧
        (arcs u).labeledInArc.map (fun arc => (arc.1, arc.2.1)) = some (v, t) ∧
        reduceMap.count (v, t) + (branchesOf arcs v t pre).length + 1 = numberOfSuccessors t := by
  intro labels
  induction labels with
  | nil =>
      intro reduceMap insertSet member
      exact Or.inl member
  | cons u rest ih =>
      intro reduceMap insertSet member
      cases arc : (arcs u).labeledInArc with
      | none =>
          rw [insertSetLoop, arc] at member
          rcases ih reduceMap insertSet member with old | ⟨t, pre, w, post, rfl, below', full⟩
          · exact Or.inl old
          · refine Or.inr ⟨t, u :: pre, w, post, rfl, below', ?_⟩
            simpa [branchesOf, arc] using full
      | some labeled =>
          obtain ⟨v', t', i⟩ := labeled
          rw [insertSetLoop, arc] at member
          rcases ih _ _ member with old | ⟨t, pre, w, post, rfl, below', full⟩
          · split_ifs at old with complete
            · rcases (mem_insertPointer below).mp old with rfl | old
              · exact Or.inr ⟨t', [], u, rest, rfl, by simp [arc], by simpa [branchesOf] using complete⟩
              · exact Or.inl old
            · exact Or.inl old
          · refine Or.inr ⟨t, u :: pre, w, post, rfl, below', ?_⟩
            by_cases same : (v', t') = (v, t)
            · obtain ⟨rfl, rfl⟩ := Prod.mk.inj same
              simp only [List.count_cons_self] at full
              simp only [branchesOf, List.filter_cons, arc, Option.map_some, decide_true, if_true,
                List.length_cons] at full ⊢
              omega
            · rw [List.count_cons_of_ne same] at full
              have other : ¬ (v' = v ∧ t' = t) := fun both => same (Prod.ext both.1 both.2)
              simpa [branchesOf, arc, other] using full

theorem mem_eliminateUnlabeledPaths {unlabeled : List (LabelId E)} {w : LabelId E} :
    w ∈ eliminateUnlabeledPaths below arcs unlabeled ↔ ∃ u ∈ unlabeled, w ∈ joined arcs u := by
  simp only [eliminateUnlabeledPaths, mem_insertPointers, List.mem_filter, List.mem_flatMap,
    decide_eq_true_eq, joined]
  constructor
  · rintro (⟨member, single⟩ | ⟨u, member, inU⟩)
    · exact ⟨w, member, by simp [single]⟩
    · refine ⟨u, member, ?_⟩
      rw [if_neg (List.ne_nil_of_mem inU)]
      exact inU
  · rintro ⟨u, member, inU⟩
    split_ifs at inU with single
    · rw [List.mem_singleton] at inU
      exact Or.inl ⟨inU ▸ member, inU ▸ single⟩
    · exact Or.inr ⟨u, member, inU⟩

theorem nodup_eliminateUnlabeledPaths {unlabeled : List (LabelId E)} (nodup : unlabeled.Nodup) :
    (eliminateUnlabeledPaths below arcs unlabeled).Nodup :=
  nodup_insertPointers below (nodup.filter _)

/-- As many different positions below `n` as there are positions: all of them. -/
theorem all_positions {n : Nat} {positions : List Nat} (nodup : positions.Nodup)
    (bounded : ∀ i ∈ positions, i < n) (many : positions.length = n) : ∀ i < n, i ∈ positions := by
  intro i bound
  have subset : positions.toFinset ⊆ Finset.range n := by
    intro j member
    exact Finset.mem_range.mpr (bounded j (List.mem_toFinset.mp member))
  have card : (Finset.range n).card ≤ positions.toFinset.card := by
    rw [Finset.card_range, List.toFinset_card_of_nodup nodup, many]
  have all := Finset.eq_of_subset_of_card_le subset card
  exact List.mem_toFinset.mp (all ▸ Finset.mem_range.mpr bound)

end Passes

section Trades
variable {below : LabelId E → LabelId E → Bool} {arcs : LabelId E → LabelArcs E}
  {B : CPForkBlock E} {labelOf : E → Option (LabelId E)} {Branch : LabelId E → Prop}

def heldBy (arcs : LabelId E → LabelArcs E) (labelOf : E → Option (LabelId E)) (x : E) :
    Set (Token E) :=
  {p | ∃ l, labelOf x = some l ∧ p ∈ tokens arcs l}

def Known (labelOf : E → Option (LabelId E)) (Branch : LabelId E → Prop) (u : LabelId E) : Prop :=
  Branch u ∨ ∃ t, labelOf t = some u

def LabelId.position : LabelId E → Nat
  | .forFork _ idx => idx
  | _ => 0

omit [DecidableEq E] in
theorem Reducible.token_of_branch (red : Reducible B arcs labelOf Branch) {u : LabelId E}
    (branch : Branch u) {p : Token E} : p ∈ tokens arcs u ↔ u.token = some p :=
  tokens_of_single (red.branch_single u branch)

omit [DecidableEq E] in
theorem Reducible.joined_branch (red : Reducible B arcs labelOf Branch) {u w : LabelId E}
    (known : Known labelOf Branch u) (member : w ∈ joined arcs u) : Branch w := by
  have ofJoin : (arcs u).unlabeledInArcs ≠ [] → (∀ v ∈ (arcs u).unlabeledInArcs, Branch v) →
      Branch w := by
    intro some branches
    rw [joined, if_neg some] at member
    exact branches w member
  have ofBranch : Branch u → Branch w := by
    intro branch
    rw [joined, if_pos (red.branch_single u branch), List.mem_singleton] at member
    exact member ▸ branch
  rcases known with branch | ⟨t, label⟩
  · exact ofBranch branch
  · rcases red.joins_branches t u label with branch | ⟨some, branches⟩
    · exact ofBranch branch
    · exact ofJoin some branches

theorem Reducible.tokensOf_eliminate (red : Reducible B arcs labelOf Branch)
    {unlabeled : List (LabelId E)} (known : ∀ u ∈ unlabeled, Known labelOf Branch u) :
    tokensOf arcs (eliminateUnlabeledPaths below arcs unlabeled) = tokensOf arcs unlabeled := by
  ext p
  constructor
  · rintro ⟨w, member, token⟩
    obtain ⟨u, inUnlabeled, inU⟩ := mem_eliminateUnlabeledPaths.mp member
    have branch := red.joined_branch (known u inUnlabeled) inU
    exact ⟨u, inUnlabeled, w, inU, (red.token_of_branch branch).mp token⟩
  · rintro ⟨u, inUnlabeled, w, inU, token⟩
    have branch := red.joined_branch (known u inUnlabeled) inU
    exact ⟨w, mem_eliminateUnlabeledPaths.mpr ⟨u, inUnlabeled, inU⟩,
      (red.token_of_branch branch).mpr token⟩

omit [DecidableEq E] in
theorem Reducible.name_of_labeled (red : Reducible B arcs labelOf Branch) {u v : LabelId E} {t : E}
    (branch : Branch u)
    (labeled : (arcs u).labeledInArc.map (fun arc => (arc.1, arc.2.1)) = some (v, t)) :
    labelOf t = some v ∧ (B.successors t).length ≠ 1 ∧
      ∃ i < (B.successors t).length, u = .forFork t i := by
  rcases red.branch_name u branch with ⟨_, none⟩ | ⟨t', i, l, rfl, bound, fork, label, some⟩
  · simp [none] at labeled
  · simp only [some, Option.map_some, Option.some.injEq, Prod.mk.injEq] at labeled
    obtain ⟨rfl, rfl⟩ := labeled
    exact ⟨label, fork, i, bound, rfl⟩

/-- A label of the insert set is the label of a fork all of whose branches are there. -/
theorem Reducible.all_branches (red : Reducible B arcs labelOf Branch)
    {sources : List (LabelId E)} (branches : ∀ u ∈ sources, Branch u) (nodup : sources.Nodup)
    {v : LabelId E}
    (member : v ∈ insertSetLoop below arcs (fun t => (B.successors t).length) [] [] sources) :
    ∃ t, labelOf t = some v ∧ 2 ≤ (B.successors t).length ∧
      ∀ i < (B.successors t).length, LabelId.forFork t i ∈ sources := by
  rcases mem_insertSetLoop sources [] [] member with none | ⟨t, pre, u, post, split, labeled, count⟩
  · simp at none
  have uBranch : Branch u := branches u (by simp [split])
  obtain ⟨label, fork, i, bound, rfl⟩ := red.name_of_labeled uBranch labeled
  refine ⟨t, label, by omega, ?_⟩
  have prefixNodup : (pre ++ [LabelId.forFork t i]).Nodup := by
    rw [split, List.append_cons] at nodup
    exact nodup.of_append_left
  have named : ∀ w ∈ branchesOf arcs v t (pre ++ [LabelId.forFork t i]),
      w ∈ sources ∧ ∃ j < (B.successors t).length, w = .forFork t j := by
    intro w inBranches
    simp only [branchesOf, List.mem_filter, decide_eq_true_eq] at inBranches
    have inSources : w ∈ sources := by
      rw [split, List.append_cons]
      exact List.mem_append_left _ inBranches.1
    exact ⟨inSources, (red.name_of_labeled (branches w inSources) inBranches.2).2.2⟩
  have full : (branchesOf arcs v t (pre ++ [LabelId.forFork t i])).length =
      (B.successors t).length := by
    rw [branchesOf, List.filter_append, List.length_append]
    simp only [List.count_nil] at count
    simp only [labeled, List.filter_cons, decide_true, if_true, List.filter_nil, List.length_singleton]
    rw [branchesOf] at count
    omega
  have nodupPositions : ((branchesOf arcs v t (pre ++ [LabelId.forFork t i])).map
      LabelId.position).Nodup := by
    refine List.Nodup.map_on ?_ (prefixNodup.filter _)
    intro w inW w' inW' same
    obtain ⟨_, k, _, rfl⟩ := named w inW
    obtain ⟨_, k', _, rfl⟩ := named w' inW'
    exact congrArg _ same
  have bounded : ∀ j ∈ (branchesOf arcs v t (pre ++ [LabelId.forFork t i])).map LabelId.position,
      j < (B.successors t).length := by
    intro j inPositions
    obtain ⟨w, inBranches, rfl⟩ := List.mem_map.mp inPositions
    obtain ⟨_, k, bound', rfl⟩ := named w inBranches
    exact bound'
  intro j below'
  obtain ⟨w, inBranches, position⟩ :=
    List.mem_map.mp (all_positions nodupPositions bounded (by rw [List.length_map, full]) j below')
  obtain ⟨inSources, k, _, rfl⟩ := named w inBranches
  exact position ▸ inSources

theorem mem_eraseSet {insertSet unlabeled : List (LabelId E)} {u : LabelId E} :
    u ∈ eraseSet arcs insertSet unlabeled ↔
      u ∈ unlabeled ∧ ∃ v t i, (arcs u).labeledInArc = some (v, t, i) ∧ v ∈ insertSet := by
  rw [eraseSet, List.mem_filter]
  cases arc : (arcs u).labeledInArc with
  | none => simp
  | some labeled =>
      obtain ⟨v, t, i⟩ := labeled
      simp

variable {inside : Set E} {rank : E → Nat} {x : E}

theorem Reducible.traded (red : Reducible B arcs labelOf Branch)
    (early : ∀ t l, labelOf t = some l → t ∈ inside ∧ rank t < rank x)
    {sources : List (LabelId E)} (branches : ∀ u ∈ sources, Branch u) (nodup : sources.Nodup) :
    let insertSet := insertSetLoop below arcs (fun t => (B.successors t).length) [] [] sources
    let erased := eraseSet arcs insertSet sources
    TradedBack inside B.successors rank (heldBy arcs labelOf) x (tokensOf arcs sources)
      (tokensOf arcs (insertPointers below (sources.filter (fun u => u ∉ erased)) insertSet)) := by
  intro insertSet erased
  have complete : ∀ v ∈ insertSet, ∃ t, labelOf t = some v ∧ 2 ≤ (B.successors t).length ∧
      ∀ i < (B.successors t).length, LabelId.forFork t i ∈ sources :=
    fun v member => red.all_branches branches nodup member
  refine ⟨{t | ∃ v ∈ insertSet, labelOf t = some v ∧ 2 ≤ (B.successors t).length ∧
      ∀ i < (B.successors t).length, LabelId.forFork t i ∈ sources},
    {p | ∃ u ∈ erased, u.token = some p}, ?_, ?_, ?_⟩
  · rintro t ⟨v, member, label, wide, pieces⟩
    refine ⟨(early t v label).1, (early t v label).2, wide, fun i bound => ?_⟩
    have branch := branches _ (pieces i bound)
    refine ⟨⟨_, pieces i bound, (red.token_of_branch branch).mpr rfl⟩, .forFork t i, ?_, rfl⟩
    rcases red.branch_name _ branch with ⟨other, _⟩ | ⟨t', i', l, same, _, _, label', labeled⟩
    · cases other
    · cases same
      rw [label] at label'
      obtain rfl := Option.some.inj label'
      exact mem_eraseSet.mpr ⟨pieces i bound, v, t, i, labeled, member⟩
  · rintro p ⟨u, inErased, token⟩
    obtain ⟨inSources, v, s, j, labeled, member⟩ := mem_eraseSet.mp inErased
    obtain ⟨label, _, i, _, rfl⟩ :=
      red.name_of_labeled (branches u inSources) (v := v) (t := s) (by simp [labeled])
    obtain ⟨t, labelT, wide, pieces⟩ := complete v member
    refine ⟨t, ⟨v, member, labelT, wide, pieces⟩, s, i, (Option.some.inj token).symm,
      (early s v label).1, (early s v label).2, ?_⟩
    simp [heldBy, label, labelT]
  · ext p
    constructor
    · rintro ⟨u, member, token⟩
      rcases (mem_insertPointers below).mp member with member | member
      · obtain ⟨inSources, kept⟩ := List.mem_filter.mp member
        have kept' : u ∉ erased := by simpa using kept
        refine Or.inl ⟨⟨u, inSources, token⟩, ?_⟩
        rintro ⟨w, inErased, tokenW⟩
        have tokenU := (red.token_of_branch (branches u inSources)).mp token
        exact kept' (LabelId.token_injective tokenU tokenW ▸ inErased)
      · obtain ⟨t, label, wide, pieces⟩ := complete u member
        exact Or.inr ⟨t, ⟨u, member, label, wide, pieces⟩, u, label, token⟩
    · rintro (⟨⟨u, inSources, token⟩, kept⟩ | ⟨t, ⟨v, member, label, _⟩, l, label', token⟩)
      · refine ⟨u, (mem_insertPointers below).mpr (Or.inl (List.mem_filter.mpr ⟨inSources, ?_⟩)), token⟩
        have tokenU := (red.token_of_branch (branches u inSources)).mp token
        simpa using fun inErased => kept ⟨u, inErased, tokenU⟩
      · rw [label] at label'
        obtain rfl := Option.some.inj label'
        exact ⟨v, (mem_insertPointers below).mpr (Or.inr member), token⟩

theorem reduceLoop_cases {numberOfSuccessors : E → Nat} {this : LabelId E} {fuel : Nat}
    {unlabeled kept : List (LabelId E)} {reduced : LabelId E} (nonempty : unlabeled ≠ [])
    (loop : reduceLoop below arcs numberOfSuccessors this (fuel + 1) unlabeled =
      some (kept, reduced)) :
    unlabeled = [reduced] ∨ ∃ pass changed,
      reducePass below arcs numberOfSuccessors unlabeled = some (pass, changed) ∧
      (pass = [reduced] ∨
        (changed = true ∧ reduceLoop below arcs numberOfSuccessors this fuel pass =
          some (kept, reduced)) ∨
        (changed = false ∧ kept = pass ∧ reduced = this)) := by
  rw [reduceLoop.eq_def] at loop
  simp only at loop
  split at loop
  · cases loop
  · match unlabeled, loop with
    | [], _ => exact absurd rfl nonempty
    | [u], loop =>
        cases loop
        exact Or.inl rfl
    | u :: v :: rest, loop =>
        right
        simp only at loop
        split at loop
        · cases loop
        · next w changed pass =>
            cases loop
            exact ⟨_, _, pass, Or.inl rfl⟩
        · next kept' _ pass => exact ⟨_, _, pass, Or.inr (Or.inl ⟨rfl, loop⟩)⟩
        · next kept' _ pass =>
            cases loop
            exact ⟨_, _, pass, Or.inr (Or.inr ⟨rfl, rfl, rfl⟩)⟩

/-- What one pass leaves: labels that are known again, something at all, and
branches only when nothing changed. -/
theorem Reducible.reducePass_spec (red : Reducible B arcs labelOf Branch)
    (early : ∀ t l, labelOf t = some l → t ∈ inside ∧ rank t < rank x)
    {unlabeled kept : List (LabelId E)} {changed : Bool} (nodup : unlabeled.Nodup)
    (nonempty : unlabeled ≠ []) (known : ∀ u ∈ unlabeled, Known labelOf Branch u)
    (pass : reducePass below arcs (fun t => (B.successors t).length) unlabeled =
      some (kept, changed)) :
    kept.Nodup ∧ kept ≠ [] ∧ (∀ u ∈ kept, Known labelOf Branch u) ∧
      (changed = false → ∀ u ∈ kept, Branch u) ∧
      TradedBack inside B.successors rank (heldBy arcs labelOf) x (tokensOf arcs unlabeled)
        (tokensOf arcs kept) := by
  rw [reducePass] at pass
  split at pass
  · cases pass
  · obtain ⟨rfl, rfl⟩ := Prod.mk.inj (Option.some.inj pass)
    have branches : ∀ u ∈ eliminateUnlabeledPaths below arcs unlabeled, Branch u := by
      intro w member
      obtain ⟨u, inUnlabeled, inU⟩ := mem_eliminateUnlabeledPaths.mp member
      exact red.joined_branch (known u inUnlabeled) inU
    have sourcesNodup : (eliminateUnlabeledPaths below arcs unlabeled).Nodup :=
      nodup_eliminateUnlabeledPaths nodup
    refine ⟨nodup_insertPointers below (sourcesNodup.filter _), ?_, ?_, ?_, ?_⟩
    · -- some source is left, or it was erased for a label that is inserted
      obtain ⟨u, inUnlabeled⟩ := List.exists_mem_of_ne_nil _ nonempty
      obtain ⟨w, inU⟩ : ∃ w, w ∈ joined arcs u := by
        rw [joined]
        split_ifs with single
        · exact ⟨u, by simp⟩
        · exact List.exists_mem_of_ne_nil _ single
      have inSources : w ∈ eliminateUnlabeledPaths below arcs unlabeled :=
        mem_eliminateUnlabeledPaths.mpr ⟨u, inUnlabeled, inU⟩
      by_cases gone : w ∈ eraseSet arcs (insertSetLoop below arcs
          (fun t => (B.successors t).length) [] [] (eliminateUnlabeledPaths below arcs unlabeled))
          (eliminateUnlabeledPaths below arcs unlabeled)
      · obtain ⟨_, v, _, _, _, inserted⟩ := mem_eraseSet.mp gone
        exact List.ne_nil_of_mem ((mem_insertPointers below).mpr (Or.inr inserted))
      · exact List.ne_nil_of_mem ((mem_insertPointers below).mpr
          (Or.inl (List.mem_filter.mpr ⟨inSources, by simpa using gone⟩)))
    · intro u member
      rcases (mem_insertPointers below).mp member with member | member
      · exact Or.inl (branches u (List.mem_filter.mp member).1)
      · obtain ⟨t, label, _⟩ := red.all_branches branches sourcesNodup member
        exact Or.inr ⟨t, label⟩
    · intro same u member
      simp only [decide_eq_false_iff_not, not_or, ne_eq, not_not] at same
      rcases (mem_insertPointers below).mp member with member | member
      · exact branches u (List.mem_filter.mp member).1
      · rw [same.2] at member
        simp at member
    · rw [← red.tokensOf_eliminate known]
      exact red.traded early branches sourcesNodup

/-- `Reduce` is a chain of trades.  It ends with one label, or with several
branches that become the in-arcs of the label itself. -/
theorem Reducible.reduceLoop_spec (red : Reducible B arcs labelOf Branch)
    (early : ∀ t l, labelOf t = some l → t ∈ inside ∧ rank t < rank x) {this : LabelId E} :
    ∀ (fuel : Nat) (unlabeled kept : List (LabelId E)) (reduced : LabelId E),
      unlabeled.Nodup → unlabeled ≠ [] → (∀ u ∈ unlabeled, Known labelOf Branch u) →
      reduceLoop below arcs (fun t => (B.successors t).length) this fuel unlabeled =
        some (kept, reduced) →
      (reduced = this ∧ kept ≠ [] ∧ (∀ u ∈ kept, Branch u) ∧
        Relation.ReflTransGen (TradedBack inside B.successors rank (heldBy arcs labelOf) x)
          (tokensOf arcs unlabeled) (tokensOf arcs kept)) ∨
      (Known labelOf Branch reduced ∧
        Relation.ReflTransGen (TradedBack inside B.successors rank (heldBy arcs labelOf) x)
          (tokensOf arcs unlabeled) (tokens arcs reduced)) := by
  have single : ∀ u : LabelId E, tokensOf arcs [u] = tokens arcs u := by
    intro u
    ext p
    simp [tokensOf]
  intro fuel
  induction fuel with
  | zero =>
      intro unlabeled kept reduced _ _ _ loop
      cases loop
  | succ fuel ih =>
      intro unlabeled kept reduced nodup nonempty known loop
      rcases reduceLoop_cases nonempty loop with rfl | ⟨pass, changed, isPass, rest⟩
      · right
        rw [single]
        exact ⟨known reduced (by simp), Relation.ReflTransGen.refl⟩
      · obtain ⟨nodup', nonempty', known', branches, traded⟩ :=
          red.reducePass_spec early nodup nonempty known isPass
        rcases rest with rfl | ⟨_, loop'⟩ | ⟨same, rfl, rfl⟩
        · right
          rw [single] at traded
          exact ⟨known' reduced (by simp), Relation.ReflTransGen.single traded⟩
        · rcases ih pass kept reduced nodup' nonempty' known' loop' with
            ⟨isThis, kept', branches', trades⟩ | ⟨knownR, trades⟩
          · exact Or.inl ⟨isThis, kept', branches', trades.head traded⟩
          · exact Or.inr ⟨knownR, trades.head traded⟩
        · exact Or.inl ⟨rfl, nonempty', branches same, Relation.ReflTransGen.single traded⟩

end Trades

end Ahir.ControlPath
