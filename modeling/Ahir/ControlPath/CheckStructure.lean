import Ahir.Graph.DepthFirst
import Ahir.ControlPath.RedundantArcs

/-!
# The structure check of fork blocks

`Check_Structure` searches a block from its entry, depth first, and back from
its exit, breadth first.  It counts what the searches visit and asks whether the
first one met a cycle.  A block whose links are in step passes exactly when it is
well formed.
-/

set_option autoImplicit false

namespace Ahir.ControlPath.CPForkBlock
open Ahir.Graph
variable {E : Type} [DecidableEq E] (B : CPForkBlock E)

/-- What `Check_Structure` has to say about a block. -/
inductive StructureReport (E : Type) where
  | notReachableFromEntry
  | cyclesPresent
  | exitNotReachable
  | nonTransitionFork (cpe : E)
  | nonTransitionJoin (cpe : E)
deriving DecidableEq

namespace StructureReport

/-- Reports that come with `ret_flag = false`. -/
def fails : StructureReport E → Bool
  | notReachableFromEntry | cyclesPresent | exitNotReachable => true
  | nonTransitionFork _ | nonTransitionJoin _ => false

def text (region : String) (hierarchicalId : E → String) : StructureReport E → String
  | notReachableFromEntry => "all elements not reachable from entry in region " ++ region
  | cyclesPresent => "Cycles present in fork region " ++ region
  | exitNotReachable => "exit not reachable from every element in region " ++ region
  | nonTransitionFork cpe => "non-transition cannot be a fork: " ++ hierarchicalId cpe
  | nonTransitionJoin cpe => "non-transition cannot be a join: " ++ hierarchicalId cpe

end StructureReport

def reportElements : List (StructureReport E) :=
  B.elements.flatMap fun cpe =>
    if B.isTransition cpe then []
    else
      (if 1 < (B.successors cpe).length then [.nonTransitionFork cpe] else []) ++
        (if 1 < (B.predecessors cpe).length then [.nonTransitionJoin cpe] else [])

def reportSearches (forth : DfsState E) (back : List E) : List (StructureReport E) :=
  (if forth.ordered.length ≠ B.elements.length + 2 then [.notReachableFromEntry] else []) ++
    (if forth.cycleFlag then [.cyclesPresent] else []) ++
    (if back.length ≠ B.elements.length + 2 then [.exitNotReachable] else [])

/-- `BFS_Order` from the exit, reversed. -/
def bfsFromExit (fuel : Nat) : Option (List E) := breadthFirst B.predecessors fuel [B.exit] []

/-- What `Check_Structure` leaves behind. -/
structure Checked (E : Type) where
  passes : Bool
  reports : List (StructureReport E)
  block : CPForkBlock E

/-- `vcCPForkBlock::Check_Structure`; `childrenPass` is what `vcCPBlock::Check_Structure` returns,
the conjunction over the elements. -/
def checkStructure (below : E → E → Bool)
    (topologicalSort : List (Option E) → List (Option E × Option E) → List (Option E))
    (fuel : Nat) (childrenPass : Bool) : Option (Checked E) :=
  if childrenPass then do
    let forth ← B.dfsOrder fuel
    let back ← B.bfsFromExit fuel
    let reports := B.reportSearches forth back ++ B.reportElements
    some ⟨reports.all fun report => !report.fails, reports,
      B.eliminateRedundantDependencies below topologicalSort forth.redundantPairs⟩
  else some ⟨false, [], B.eliminateRedundantDependencies below topologicalSort []⟩

structure Single : Prop where
  vertices : B.vertices.Nodup
  successors : ∀ x ∈ B.vertices, (B.successors x).Nodup
  predecessors : ∀ x ∈ B.vertices, (B.predecessors x).Nodup

variable {B}

/-! ## The search from the entry -/

/-- The turn of the top: the neighbours seen so far were visited, those on the queue noticed. -/
theorem explored_scan {top : E} {rest finished : List E} (seen adj : List E) (s : DfsState E)
    (split : B.successors top = seen ++ adj) (front : s.queue = top :: rest)
    (old : ∀ y ∈ seen, y ∈ s.visited ∧ (y ∈ s.queue → s.cycleFlag = true))
    (explored : Explored B.successors B.entry s.queue s.visited finished s.cycleFlag) :
    ∃ finished', Explored B.successors B.entry (B.dfsScan top adj s).queue (B.dfsScan top adj s).visited
      finished' (B.dfsScan top adj s).cycleFlag := by
  induction adj generalizing seen s with
  | nil =>
      rw [List.append_nil] at split
      rw [front] at explored
      refine ⟨top :: finished, ?_⟩
      rw [dfsScan, front]
      refine explored.pop fun y isNext => ?_
      rw [split] at isNext
      rw [← front]
      exact old y isNext
  | cons w adj ih =>
      have isNext : w ∈ B.successors top := by simp [split]
      have split' : B.successors top = (seen ++ [w]) ++ adj := by
        rw [split, List.append_assoc, List.singleton_append]
      rw [dfsScan]
      split_ifs with onQueue visited
      · have noticed : Explored B.successors B.entry s.queue s.visited finished true := by
          rw [front] at explored onQueue ⊢
          exact explored.look isNext onQueue
        refine ih (seen ++ [w]) { s with cycleFlag := true } split' front (fun y member => ?_) noticed
        refine ⟨?_, fun _ => rfl⟩
        rcases List.mem_append.mp member with member | member
        · exact (old y member).1
        · rw [List.mem_singleton.mp member]
          exact (explored.split w).mpr (Or.inl onQueue)
      · refine ih (seen ++ [w]) s split' front (fun y member => ?_) explored
        rcases List.mem_append.mp member with member | member
        · exact old y member
        · rw [List.mem_singleton.mp member]
          exact ⟨visited, fun onQueue' => absurd onQueue' onQueue⟩
      · refine ⟨finished, ?_⟩
        rw [discover, front]
        rw [front] at explored
        exact explored.push isNext visited

theorem explored_loop (fuel : Nat) (s s' : DfsState E) {finished : List E}
    (explored : Explored B.successors B.entry s.queue s.visited finished s.cycleFlag)
    (run : B.dfsLoop fuel s = some s') :
    ∃ finished', Explored B.successors B.entry [] s'.visited finished' s'.cycleFlag := by
  induction fuel generalizing s finished with
  | zero =>
      rw [dfsLoop] at run
      split_ifs at run with done
      obtain rfl := Option.some.inj run
      exact ⟨finished, done ▸ explored⟩
  | succ fuel ih =>
      rw [dfsLoop] at run
      split at run
      · next done =>
          obtain rfl := Option.some.inj run
          exact ⟨finished, done ▸ explored⟩
      · next top rest front =>
          obtain ⟨finished', explored'⟩ :=
            explored_scan [] (B.successors top) s rfl front (by simp) explored
          exact ih _ explored' run

theorem dfsOrder_explored {fuel : Nat} {s : DfsState E} (run : B.dfsOrder fuel = some s) :
    ∃ finished, Explored B.successors B.entry [] s.visited finished s.cycleFlag :=
  explored_loop fuel _ s Explored.begin run

theorem dfsScan_ordered {top : E} : ∀ (adj : List E) (s : DfsState E), s.ordered = s.visited.reverse →
    (B.dfsScan top adj s).ordered = (B.dfsScan top adj s).visited.reverse := by
  intro adj
  induction adj with
  | nil => exact fun s same => same
  | cons w adj ih =>
      intro s same
      rw [dfsScan]
      split_ifs
      · exact ih { s with cycleFlag := true } same
      · exact ih s same
      · simp [discover, same]

theorem dfsLoop_ordered : ∀ (fuel : Nat) (s s' : DfsState E), s.ordered = s.visited.reverse →
    B.dfsLoop fuel s = some s' → s'.ordered = s'.visited.reverse := by
  intro fuel
  induction fuel with
  | zero =>
      intro s s' same run
      rw [dfsLoop] at run
      split_ifs at run
      exact Option.some.inj run ▸ same
  | succ fuel ih =>
      intro s s' same run
      rw [dfsLoop] at run
      split at run
      · exact Option.some.inj run ▸ same
      · next top rest front => exact ih _ s' (dfsScan_ordered _ s same) run

/-! ## What the searches find -/

theorem Linked.leads_iff (linked : B.Linked) {x y : E} (inside : x ∈ B.vertices) :
    Leads B.successors x y ↔ B.Precedes x y := by
  constructor
  · intro walk
    have both : y ∈ B.vertices ∧ B.Precedes x y := by
      induction walk with
      | refl => exact ⟨inside, Relation.ReflTransGen.refl⟩
      | @tail a b _ isNext ih =>
          exact ⟨linked.successors_inside a ih.1 b isNext, ih.2.tail ⟨ih.1, isNext⟩⟩
    exact both.2
  · exact fun path => Relation.ReflTransGen.mono (fun _ _ (arc : B.Arc _ _) => arc.2) _ _ path

theorem Linked.leads_back_iff (linked : B.Linked) {x y : E} (inside : y ∈ B.vertices) :
    Leads B.predecessors y x ↔ B.Precedes x y := by
  constructor
  · intro walk
    have both : x ∈ B.vertices ∧ B.Precedes x y := by
      induction walk with
      | refl => exact ⟨inside, Relation.ReflTransGen.refl⟩
      | @tail a b _ isPrev ih =>
          have inside' := linked.predecessors_inside a ih.1 b isPrev
          exact ⟨inside', Relation.ReflTransGen.head (linked.arc_iff.mpr ⟨ih.1, isPrev⟩) ih.2⟩
    exact both.2
  · intro path
    induction path using Relation.ReflTransGen.head_induction_on with
    | refl => exact Relation.ReflTransGen.refl
    | head arc _ ih => exact ih.tail (linked.arc_iff.mp arc).2

omit [DecidableEq E] in
/-- A list of vertices is as long as the list of all vertices when it has them all. -/
theorem Single.length_eq_iff (single : B.Single) {found : List E} (nodup : found.Nodup)
    (inside : ∀ x ∈ found, x ∈ B.vertices) :
    found.length = B.elements.length + 2 ↔ ∀ x ∈ B.vertices, x ∈ found := by
  have length : B.vertices.length = B.elements.length + 2 := rfl
  rw [← length]
  constructor
  · intro same x member
    exact ((nodup.subperm inside).perm_of_length_le same.ge).mem_iff.mpr member
  · intro all
    exact le_antisymm (nodup.subperm inside).length_le (single.vertices.subperm all).length_le

/-- The depth first search counts to the number of the vertices when all can be reached. -/
theorem dfsOrder_counts (linked : B.Linked) (single : B.Single) {fuel : Nat} {s : DfsState E}
    (run : B.dfsOrder fuel = some s) :
    s.ordered.length = B.elements.length + 2 ↔ ∀ x ∈ B.vertices, B.Precedes B.entry x := by
  obtain ⟨finished, explored⟩ := dfsOrder_explored run
  obtain ⟨_, searching⟩ := Searching.loop linked fuel _ s id Searching.start run
  have length : s.ordered.length = s.visited.length := by
    rw [dfsLoop_ordered fuel _ s rfl run, List.length_reverse]
  rw [length, single.length_eq_iff searching.nodup searching.inside]
  refine forall₂_congr fun x _ => ?_
  rw [explored.mem_iff, linked.leads_iff entry_mem]

omit [DecidableEq E] in
theorem exit_mem : B.exit ∈ B.vertices := by simp [vertices]

/-- A cycle within the reach of the entry is a cycle of the block. -/
theorem Linked.cycleAhead_iff (linked : B.Linked) :
    CycleAhead B.successors B.entry ↔ ∃ x, B.Precedes B.entry x ∧ Relation.TransGen B.Arc x x := by
  have around {x : E} (inside : x ∈ B.vertices) :
      Relation.TransGen (fun a b => b ∈ B.successors a) x x ↔ Relation.TransGen B.Arc x x := by
    rw [Relation.TransGen.head'_iff, Relation.TransGen.head'_iff]
    refine exists_congr fun y => ?_
    constructor
    · rintro ⟨isNext, back⟩
      exact ⟨⟨inside, isNext⟩, (linked.leads_iff (linked.successors_inside x inside y isNext)).mp back⟩
    · rintro ⟨arc, back⟩
      exact ⟨arc.2, (linked.leads_iff (linked.successors_inside x inside y arc.2)).mpr back⟩
  have inside : ∀ x, B.Precedes B.entry x → x ∈ B.vertices := by
    intro x path
    induction path with
    | refl => exact entry_mem
    | tail _ arc _ => exact linked.successors_inside _ arc.1 _ arc.2
  refine exists_congr fun x => ?_
  rw [linked.leads_iff entry_mem]
  exact and_congr_right fun path => around (inside x path)

/-- The breadth first search back from the exit ends and has the vertices that reach it. -/
theorem bfsFromExit_spec (linked : B.Linked) {fuel : Nat} (enough : B.vertices.length ≤ fuel) :
    ∃ back, B.bfsFromExit fuel = some back ∧ back.Nodup ∧ (∀ x ∈ back, x ∈ B.vertices) ∧
      ∀ x, x ∈ back ↔ B.Precedes x B.exit := by
  have begun : Searched B.predecessors B.exit ([] ++ [B.exit]) (fun _ => []) fun p _ => p ∈ [] :=
    Searched.begin.congr (fun _ _ => False.elim) fun _ _ _ isDone _ => absurd isDone List.not_mem_nil
  obtain ⟨back, word, run, inside, searched⟩ := breadthFirst_spec linked.predecessors_inside fuel
    [B.exit] [] (fun x member => List.mem_singleton.mp member ▸ exit_mem) enough begun
  refine ⟨back, run, searched.nodup, inside, fun x => ?_⟩
  rw [← linked.leads_back_iff exit_mem]
  constructor
  · intro member
    have reached : ∀ (word : List Nat) (y : E), LeadsTo B.predecessors B.exit word y →
        Leads B.predecessors B.exit y := by
      intro word y leads
      induction leads with
      | nil => exact Relation.ReflTransGen.refl
      | snoc _ isNext ih => exact ih.tail (List.mem_of_getElem? isNext)
    exact reached _ x (searched.leads x member)
  · intro walk
    induction walk with
    | refl => exact searched.started
    | @tail y z _ isPrev ih =>
        obtain ⟨i, position⟩ := List.mem_iff_getElem?.mp isPrev
        exact (searched.closed y i z ih position).1

/-! ## Well formed blocks -/

/-- What the searches decide, for a block whose links are in step. -/
structure Sound (B : CPForkBlock E) : Prop where
  from_entry : ∀ x ∈ B.vertices, B.Precedes B.entry x
  acyclic : ¬ ∃ x, B.Precedes B.entry x ∧ Relation.TransGen B.Arc x x
  to_exit : ∀ x ∈ B.vertices, B.Precedes x B.exit

theorem Linked.wellFormed_iff (linked : B.Linked) (single : B.Single) : B.WellFormed ↔ B.Sound := by
  constructor
  · intro wf
    exact ⟨wf.from_entry, fun ⟨x, _, cycle⟩ => wf.acyclic x cycle, wf.to_exit⟩
  · intro sound
    have acyclic : ∀ x, ¬ Relation.TransGen B.Arc x x := by
      intro x cycle
      obtain ⟨_, arc, _⟩ := Relation.TransGen.head'_iff.mp cycle
      exact sound.acyclic ⟨x, sound.from_entry x arc.1, cycle⟩
    refine ⟨linked.successors_inside, linked.predecessors_inside, fun x insideX y insideY =>
      linked.mem_iff insideX insideY, single.successors, single.predecessors, ?_, ?_, acyclic,
      sound.from_entry, sound.to_exit⟩
    · -- An arc into the entry would close a cycle.
      refine List.eq_nil_iff_forall_not_mem.mpr fun x isPrev => ?_
      have arc := linked.arc_iff.mpr ⟨entry_mem, isPrev⟩
      exact acyclic x (Relation.TransGen.head' arc (sound.from_entry x arc.1))
    · refine List.eq_nil_iff_forall_not_mem.mpr fun y isNext => ?_
      have inside := linked.successors_inside B.exit exit_mem y isNext
      exact acyclic y (Relation.TransGen.tail' (sound.to_exit y inside) ⟨exit_mem, isNext⟩)

omit [DecidableEq E] in
theorem mem_reportElements {report : StructureReport E} : report ∈ B.reportElements ↔
    ∃ cpe ∈ B.elements, B.isTransition cpe = false ∧
      (report = .nonTransitionFork cpe ∧ 1 < (B.successors cpe).length ∨
        report = .nonTransitionJoin cpe ∧ 1 < (B.predecessors cpe).length) := by
  rw [reportElements, List.mem_flatMap]
  refine exists_congr fun cpe => and_congr_right fun _ => ?_
  cases B.isTransition cpe with
  | true => simp
  | false =>
      simp only [Bool.false_eq_true, if_false, List.mem_append, true_and]
      refine or_congr ?_ ?_
      · split_ifs with many <;> simp [many]
      · split_ifs with many <;> simp [many]

omit [DecidableEq E] in
theorem mem_reportSearches {forth : DfsState E} {back : List E} {report : StructureReport E} :
    report ∈ B.reportSearches forth back ↔
      report = .notReachableFromEntry ∧ forth.ordered.length ≠ B.elements.length + 2 ∨
        report = .cyclesPresent ∧ forth.cycleFlag = true ∨
        report = .exitNotReachable ∧ back.length ≠ B.elements.length + 2 := by
  have one {condition : Prop} [Decidable condition] {this : StructureReport E} :
      report ∈ (if condition then [this] else []) ↔ report = this ∧ condition := by
    split_ifs with holds <;> simp [holds]
  rw [reportSearches, List.mem_append, List.mem_append, one, one, one, or_assoc]

/-- What is reported of a block, in terms of its arcs. -/
inductive Reported (B : CPForkBlock E) : StructureReport E → Prop where
  | notReachableFromEntry {x : E} : x ∈ B.vertices → ¬ B.Precedes B.entry x →
      Reported B .notReachableFromEntry
  | cyclesPresent {x : E} : B.Precedes B.entry x → Relation.TransGen B.Arc x x →
      Reported B .cyclesPresent
  | exitNotReachable {x : E} : x ∈ B.vertices → ¬ B.Precedes x B.exit → Reported B .exitNotReachable
  | nonTransitionFork {cpe : E} : cpe ∈ B.elements → B.isTransition cpe = false →
      1 < (B.successors cpe).length → Reported B (.nonTransitionFork cpe)
  | nonTransitionJoin {cpe : E} : cpe ∈ B.elements → B.isTransition cpe = false →
      1 < (B.predecessors cpe).length → Reported B (.nonTransitionJoin cpe)

theorem checkStructure_reports (linked : B.Linked) (single : B.Single) (below : E → E → Bool)
    (topologicalSort : List (Option E) → List (Option E × Option E) → List (Option E)) {fuel : Nat}
    (enough : 2 * B.vertices.length ≤ fuel + 1) :
    ∃ reports B', B.checkStructure below topologicalSort fuel true =
        some ⟨reports.all fun report => !report.fails, reports, B'⟩ ∧
      ∀ report, report ∈ reports ↔ Reported B report := by
  obtain ⟨forth, forthRun⟩ := dfsOrder_total linked enough
  have two : 2 ≤ B.vertices.length := by simp [vertices]
  obtain ⟨back, backRun, backNodup, backInside, backMem⟩ :=
    bfsFromExit_spec linked (show B.vertices.length ≤ fuel by omega)
  obtain ⟨_, explored⟩ := dfsOrder_explored forthRun
  have backCounts : back.length = B.elements.length + 2 ↔ ∀ x ∈ B.vertices, B.Precedes x B.exit := by
    rw [single.length_eq_iff backNodup backInside]
    exact forall₂_congr fun x _ => backMem x
  refine ⟨B.reportSearches forth back ++ B.reportElements,
    B.eliminateRedundantDependencies below topologicalSort forth.redundantPairs, ?_, fun report => ?_⟩
  · rw [checkStructure, if_pos rfl, forthRun, backRun]
    rfl
  · rw [List.mem_append, mem_reportSearches, mem_reportElements, Ne, Ne,
      dfsOrder_counts linked single forthRun, backCounts, explored.cycle_iff, linked.cycleAhead_iff]
    constructor
    · rintro ((⟨rfl, unreached⟩ | ⟨rfl, x, path, cycle⟩ | ⟨rfl, unreached⟩) |
        ⟨cpe, member, kind, ⟨rfl, many⟩ | ⟨rfl, many⟩⟩)
      · push Not at unreached
        obtain ⟨x, inside, none⟩ := unreached
        exact .notReachableFromEntry inside none
      · exact .cyclesPresent path cycle
      · push Not at unreached
        obtain ⟨x, inside, none⟩ := unreached
        exact .exitNotReachable inside none
      · exact .nonTransitionFork member kind many
      · exact .nonTransitionJoin member kind many
    · rintro (⟨inside, none⟩ | ⟨path, cycle⟩ | ⟨inside, none⟩ | ⟨member, kind, many⟩ | ⟨member, kind, many⟩)
      · exact Or.inl (Or.inl ⟨rfl, fun all => none (all _ inside)⟩)
      · exact Or.inl (Or.inr (Or.inl ⟨rfl, _, path, cycle⟩))
      · exact Or.inl (Or.inr (Or.inr ⟨rfl, fun all => none (all _ inside)⟩))
      · exact Or.inr ⟨_, member, kind, Or.inl ⟨rfl, many⟩⟩
      · exact Or.inr ⟨_, member, kind, Or.inr ⟨rfl, many⟩⟩

/-- None of the reports that fail a block is given of a well formed one. -/
theorem Linked.passes_iff (linked : B.Linked) (single : B.Single) :
    (∀ report, Reported B report → report.fails = false) ↔ B.WellFormed := by
  rw [linked.wellFormed_iff single]
  constructor
  · intro passes
    refine ⟨fun x inside => ?_, ?_, fun x inside => ?_⟩
    · by_contra none
      exact absurd (passes _ (.notReachableFromEntry inside none)) (by simp [StructureReport.fails])
    · rintro ⟨x, path, cycle⟩
      exact absurd (passes _ (.cyclesPresent path cycle)) (by simp [StructureReport.fails])
    · by_contra none
      exact absurd (passes _ (.exitNotReachable inside none)) (by simp [StructureReport.fails])
  · rintro sound report (⟨inside, none⟩ | ⟨path, cycle⟩ | ⟨inside, none⟩ | _ | _)
    · exact absurd (sound.from_entry _ inside) none
    · exact absurd ⟨_, path, cycle⟩ sound.acyclic
    · exact absurd (sound.to_exit _ inside) none
    · rfl
    · rfl

/-- A block passes the check exactly when its elements do and it is well formed, and the check
reports all that there is to report. -/
theorem checkStructure_passes_iff (linked : B.Linked) (single : B.Single) (below : E → E → Bool)
    (topologicalSort : List (Option E) → List (Option E × Option E) → List (Option E)) {fuel : Nat}
    (enough : 2 * B.vertices.length ≤ fuel + 1) (childrenPass : Bool) :
    ∃ checked, B.checkStructure below topologicalSort fuel childrenPass = some checked ∧
      (checked.passes = true ↔ childrenPass = true ∧ B.WellFormed) ∧
      (childrenPass = true → ∀ report, report ∈ checked.reports ↔ Reported B report) := by
  cases childrenPass with
  | false => exact ⟨_, rfl, by simp, by simp⟩
  | true =>
      obtain ⟨reports, B', run, reported⟩ := checkStructure_reports linked single below topologicalSort enough
      refine ⟨_, run, ?_, fun _ => reported⟩
      rw [← linked.passes_iff single]
      simp only [List.all_eq_true, Bool.not_eq_true', true_and]
      exact forall_congr' fun report => by rw [reported]

theorem shortcuts_single : shortcuts.Single := ⟨by decide, by decide, by decide⟩

theorem checkStructure_passes_iff_shortcuts :
    ∃ checked, shortcuts.checkStructure (fun a b => a < b) sinksFirst 7 true = some checked ∧
      (checked.passes = true ↔ true = true ∧ shortcuts.WellFormed) ∧
      (true = true → ∀ report, report ∈ checked.reports ↔ Reported shortcuts report) :=
  checkStructure_passes_iff shortcuts_linked shortcuts_single (fun a b => a < b) sinksFirst (by decide) true

end Ahir.ControlPath.CPForkBlock
