import Ahir.Graph.Nested
import Ahir.ControlPath.GroupConstruction
import Ahir.ControlPath.GroupReduce

/-!
# The order that nested blocks stand for

A series block has its elements one behind the other, a parallel block has them beside
each other, a fork block and a branch block have the arcs that they declare.
`Update_Predecessor_Successor_Links` lists these arcs at the elements, and the group graph
is made of what is listed.  In it a transition or place comes before another just when a
block says so of two elements that they are in.
-/

set_option autoImplicit false

namespace Ahir.ControlPath
open Ahir.Graph Relation

structure Level (E : Type) where
  block : E
  entry : E
  exit : E
  elements : List E

namespace Level
variable {E : Type} (L : Level E)

def inside : List E := L.entry :: (L.elements ++ [L.exit])

end Level

namespace CPElements
variable {E : Type}

/-- `_elements`. -/
def items : CPElements E → List E
  | nil => []
  | element cpe rest => cpe :: rest.items
  | block b _ _ _ rest => b :: rest.items

def levels : CPElements E → List (Level E)
  | nil => []
  | element _ rest => rest.levels
  | block b entry exit inner rest => inner.levels ++ ⟨b, entry, exit, inner.items⟩ :: rest.levels

/-- The block `b` holds `x`. -/
def Holds (P : CPElements E) (x b : E) : Prop := ∃ L ∈ P.levels, L.block = b ∧ x ∈ L.inside

/-- `e` is `x` or somewhere in it. -/
def Within (P : CPElements E) (e x : E) : Prop := ReflTransGen P.Holds e x

end CPElements

/-- How a block joins what it holds; a fork block as its own update leaves it, a branch
block with the places of its two maps. -/
inductive BlockKind (E : Type) where
  | series
  | parallel
  | fork (B : CPForkBlock E)
  | branch (branchMap mergeMap : List (E × List E))

namespace BlockKind
variable {E : Type}

/-! ### The source -/

/-- The loop over the elements of a series block, behind the element `before`. -/
def seriesLoop : Option E → List E → List (LinkCall E)
  | _, [] => []
  | before, cpe :: rest =>
      before.toList.map (fun prev => .add .predecessors cpe prev) ++
        (rest.head?.toList.map (fun next => .add .successors cpe next) ++ seriesLoop (some cpe) rest)

/-- `vcCPSeriesBlock::Update_Predecessor_Successor_Links`. -/
def seriesLinks (entry exit : E) : List E → List (LinkCall E)
  | [] => LinkCall.connect entry exit
  | front :: rest =>
      LinkCall.connect entry front ++ (seriesLoop none (front :: rest) ++
        LinkCall.connect ((front :: rest).getLast (List.cons_ne_nil front rest)) exit)

/-- `vcCPParallelBlock::Update_Predecessor_Successor_Links`. -/
def parallelLinks (entry exit : E) : List E → List (LinkCall E)
  | [] => LinkCall.connect entry exit
  | front :: rest => (front :: rest).flatMap fun cpe =>
      [.add .successors entry cpe, .add .predecessors cpe entry, .add .predecessors exit cpe, .add .successors cpe exit]

/-- `vcCPBranchBlock::Update_Predecessor_Successor_Links`. -/
def branchLinks (branchMap mergeMap : List (E × List E)) : List (LinkCall E) :=
  (branchMap.flatMap fun p => p.2.flatMap fun e => [.add .predecessors e p.1, .add .successors p.1 e]) ++
    mergeMap.flatMap fun p => p.2.flatMap fun e => [.add .successors e p.1, .add .predecessors p.1 e]

def linkCalls (L : Level E) : BlockKind E → List (LinkCall E)
  | series => seriesLinks L.entry L.exit L.elements
  | parallel => parallelLinks L.entry L.exit L.elements
  | fork _ => []
  | branch branchMap mergeMap => branchLinks branchMap mergeMap

def declared (x : E) : BlockKind E → CPElementLinks E
  | fork B => { links := fun
      | .successors => B.successors x
      | .predecessors => B.predecessors x
      | _ => [] }
  | _ => {}

/-! ### What it stands for -/

def Arc (L : Level E) : BlockKind E → E → E → Prop
  | series, x, y => [x, y] <:+: L.inside
  | parallel, x, y => L.elements = [] ∧ x = L.entry ∧ y = L.exit ∨ x = L.entry ∧ y ∈ L.elements ∨
      x ∈ L.elements ∧ y = L.exit
  | fork B, x, y => B.Arc x y
  | branch branchMap mergeMap, x, y => (∃ p ∈ branchMap, x = p.1 ∧ y ∈ p.2) ∨ ∃ p ∈ mergeMap, x ∈ p.2 ∧ y = p.1

/-- Which of the elements that a block holds comes before which. -/
def Precedes (L : Level E) : BlockKind E → E → E → Prop
  | series, x, y => List.Sublist [x, y] L.inside
  | parallel, x, y => x ≠ y ∧ x ∈ L.inside ∧ y ∈ L.inside ∧ (x = L.entry ∨ y = L.exit)
  | fork B, x, y => TransGen B.Arc x y
  | branch branchMap mergeMap, x, y => TransGen ((branch branchMap mergeMap).Arc L) x y

/-- What the checks of a block ask of the arcs that it declares. -/
def Checked (L : Level E) : BlockKind E → Prop
  | series | parallel => True
  | fork B => B.entry = L.entry ∧ B.exit = L.exit ∧ B.elements = L.elements ∧ B.WellFormed
  | branch branchMap mergeMap =>
      (∀ x y, (branch branchMap mergeMap).Arc L x y → x ∈ L.inside ∧ y ∈ L.inside) ∧
        ∀ x ∈ L.inside, ReflTransGen ((branch branchMap mergeMap).Arc L) L.entry x ∧
          ReflTransGen ((branch branchMap mergeMap).Arc L) x L.exit

end BlockKind

namespace CPElements
variable {E : Type} (kind : E → BlockKind E)

/-- `Update_Predecessor_Successor_Links` of the blocks, from the outer to the inner. -/
def linkCalls : CPElements E → List (LinkCall E)
  | nil => []
  | element _ rest => rest.linkCalls
  | block b entry exit inner rest =>
      (kind b).linkCalls ⟨b, entry, exit, inner.items⟩ ++ (inner.linkCalls ++ rest.linkCalls)

variable [DecidableEq E]

def declaredLinks (P : CPElements E) (x : E) : CPElementLinks E :=
  match P.levels.find? fun L => x ∈ L.inside with
  | none => {}
  | some L => (kind L.block).declared x

def blockLinks (P : CPElements E) : E → CPElementLinks E :=
  (P.linkCalls kind).foldl LinkCall.apply (P.declaredLinks kind)

def nested (P : CPElements E) : NestedGraph E where
  child := P.Holds
  arc := fun x y => ∃ L ∈ P.levels, (kind L.block).Arc L x y
  entry := P.entryElement
  exit := P.exitElement

end CPElements

/-! ### The elements of the levels -/

namespace CPElements
variable {E : Type} [DecidableEq E]

/-- Each element is held by one block, but for those that none holds. -/
theorem inside_perm (P : CPElements E) : (P.items ++ P.levels.flatMap Level.inside).Perm P.visited := by
  induction P with
  | nil => exact .refl _
  | element cpe rest ih => exact ih.cons cpe
  | block b entry exit inner rest ihInner ihRest =>
      refine List.perm_iff_count.mpr fun x => ?_
      have countInner := ihInner.count_eq x
      have countRest := ihRest.count_eq x
      simp only [items, levels, visited, Level.inside, List.flatMap_append, List.flatMap_cons, List.count_append,
        List.count_cons, List.count_nil] at countInner countRest ⊢
      omega

theorem blocks_perm (P : CPElements E) : (P.leaves ++ P.levels.map Level.block).Perm P.visited := by
  induction P with
  | nil => exact .refl _
  | element cpe rest ih => exact ih.cons cpe
  | block b entry exit inner rest ihInner ihRest =>
      refine List.perm_iff_count.mpr fun x => ?_
      have countInner := ihInner.count_eq x
      have countRest := ihRest.count_eq x
      simp only [leaves, levels, visited, List.map_append, List.map_cons, List.count_append,
        List.count_cons] at countInner countRest ⊢
      omega

omit [DecidableEq E] in
theorem mem_blocks (P : CPElements E) (block : E × E × E) :
    block ∈ P.blocks ↔ ∃ L ∈ P.levels, block = (L.block, L.entry, L.exit) := by
  induction P with
  | nil => simp [blocks, levels]
  | element cpe rest ih => exact ih
  | block b entry exit inner rest ihInner ihRest =>
      simp only [blocks, levels, List.mem_cons, List.mem_append, ihInner, ihRest, or_and_right, exists_or,
        exists_eq_left]
      exact or_left_comm

omit [DecidableEq E] in
theorem items_subset (P : CPElements E) : P.items ⊆ P.visited := by
  induction P with
  | nil => exact List.Subset.refl _
  | element cpe rest ih => exact List.cons_subset_cons cpe ih
  | block b entry exit inner rest ihInner ihRest =>
      intro x isItem
      rcases List.mem_cons.mp isItem with rfl | isItem
      · simp [visited]
      · simp [visited, ihRest isItem]

omit [DecidableEq E] in
theorem before_block (P : CPElements E) :
    ∀ L ∈ P.levels, ∃ before behind, P.visited = before ++ L.block :: behind ∧ L.inside ⊆ before := by
  induction P with
  | nil => simp [levels]
  | element cpe rest ih =>
      intro L isLevel
      obtain ⟨before, behind, split, held⟩ := ih L isLevel
      exact ⟨cpe :: before, behind, by rw [visited, split, List.cons_append], List.subset_cons_of_subset cpe held⟩
  | block b entry exit inner rest ihInner ihRest =>
      intro L isLevel
      rcases List.mem_append.mp isLevel with isInner | isLevel
      · obtain ⟨before, behind, split, held⟩ := ihInner L isInner
        refine ⟨entry :: before, behind ++ exit :: b :: rest.visited, ?_, List.subset_cons_of_subset entry held⟩
        simp [visited, split]
      · rcases List.mem_cons.mp isLevel with rfl | isRest
        · refine ⟨entry :: (inner.visited ++ [exit]), rest.visited, by simp [visited], ?_⟩
          have inside := inner.items_subset
          intro x held
          simp only [Level.inside, List.mem_cons, List.mem_append] at held ⊢
          exact held.imp_right (Or.imp_left fun isItem => inside isItem)
        · obtain ⟨before, behind, split, held⟩ := ihRest L isRest
          refine ⟨entry :: (inner.visited ++ exit :: b :: before), behind, by simp [visited, split], ?_⟩
          intro x isHeld
          simp [held isHeld]

section Distinct
variable {P : CPElements E} (distinct : P.visited.Nodup)
include distinct

theorem level_of_inside {L L' : Level E} (isLevel : L ∈ P.levels) (isLevel' : L' ∈ P.levels) {x : E}
    (held : x ∈ L.inside) (held' : x ∈ L'.inside) : L = L' := by
  have all := (List.nodup_append.mp (P.inside_perm.nodup_iff.mpr distinct)).2.1
  have apart := (List.nodup_flatMap.mp all).2
  have : Std.Symm (Function.onFun List.Disjoint (Level.inside : Level E → List E)) := ⟨fun _ _ => List.Disjoint.symm⟩
  by_contra differ
  exact apart.forall isLevel isLevel' differ held held'

theorem level_of_block {L L' : Level E} (isLevel : L ∈ P.levels) (isLevel' : L' ∈ P.levels)
    (same : L.block = L'.block) : L = L' :=
  List.inj_on_of_nodup_map (List.nodup_append.mp (P.blocks_perm.nodup_iff.mpr distinct)).2.1 isLevel isLevel' same

theorem inside_nodup {L : Level E} (isLevel : L ∈ P.levels) : L.inside.Nodup := by
  have all := (List.nodup_append.mp (P.inside_perm.nodup_iff.mpr distinct)).2.1
  exact (List.nodup_flatMap.mp all).1 L isLevel

omit distinct in
theorem visited_of_inside {L : Level E} (isLevel : L ∈ P.levels) {x : E} (held : x ∈ L.inside) : x ∈ P.visited :=
  P.inside_perm.mem_iff.mp (List.mem_append_right _ (List.mem_flatMap.mpr ⟨L, isLevel, held⟩))

theorem notMem_leaves {L : Level E} (isLevel : L ∈ P.levels) : L.block ∉ P.leaves := by
  intro isLeaf
  have apart := (List.nodup_append.mp (P.blocks_perm.nodup_iff.mpr distinct)).2.2
  exact apart L.block isLeaf L.block (List.mem_map_of_mem isLevel) rfl

theorem ends_of_block {L : Level E} (isLevel : L ∈ P.levels) :
    P.entryElement L.block = L.entry ∧ P.exitElement L.block = L.exit := by
  have isBlock := (P.mem_blocks _).mpr ⟨L, isLevel, rfl⟩
  cases found : P.blocks.find? fun block => block.1 = L.block with
  | none => simpa using List.find?_eq_none.mp found _ isBlock
  | some block =>
      obtain ⟨L', isLevel', rfl⟩ := (P.mem_blocks block).mp (List.mem_of_find?_eq_some found)
      have same : L'.block = L.block := by simpa using List.find?_some found
      rw [entryElement, exitElement, found, level_of_block distinct isLevel' isLevel same]
      exact ⟨rfl, rfl⟩

omit distinct in
theorem ends_of_leaf {x : E} (leaf : ∀ L ∈ P.levels, L.block ≠ x) : P.entryElement x = x ∧ P.exitElement x = x := by
  have none : (P.blocks.find? fun block => block.1 = x) = none := by
    refine List.find?_eq_none.mpr fun block isBlock => ?_
    obtain ⟨L, isLevel, rfl⟩ := (P.mem_blocks block).mp isBlock
    simpa using leaf L isLevel
  rw [entryElement, exitElement, none]
  exact ⟨rfl, rfl⟩

theorem holds_rises {x b : E} (held : P.Holds x b) : P.visited.idxOf x < P.visited.idxOf b := by
  obtain ⟨L, isLevel, rfl, held⟩ := held
  obtain ⟨before, behind, split, inside⟩ := P.before_block L isLevel
  have new : L.block ∉ before := by
    rw [split] at distinct
    exact fun old => (List.nodup_append.mp distinct).2.2 _ old _ List.mem_cons_self rfl
  rw [split, List.idxOf_append_of_mem (inside held), List.idxOf_append_of_notMem new]
  exact Nat.lt_add_right _ (List.idxOf_lt_length_of_mem (inside held))

theorem holds_wellFounded : WellFounded P.Holds :=
  Subrelation.wf (fun held => holds_rises distinct held) (measure fun x => P.visited.idxOf x).wf

end Distinct

end CPElements

/-! ### What a block says of its own elements -/

namespace BlockKind
variable {E : Type} {L : Level E} {kind : BlockKind E} {x y : E}

theorem arc_inside (checked : kind.Checked L) (arc : kind.Arc L x y) : x ∈ L.inside ∧ y ∈ L.inside := by
  cases kind with
  | series => exact ⟨arc.subset List.mem_cons_self, arc.subset (.tail x List.mem_cons_self)⟩
  | parallel =>
      simp only [Arc] at arc
      simp only [Level.inside, List.mem_cons, List.mem_append]
      tauto
  | fork B =>
      obtain ⟨entry, exit, elements, wf⟩ := checked
      have same : ∀ z, z ∈ B.vertices → z ∈ L.inside := by
        intro z isVertex
        simp only [CPForkBlock.vertices, entry, exit, elements, List.mem_cons] at isVertex
        simp only [Level.inside, List.mem_cons, List.mem_append]
        tauto
      exact ⟨same x arc.1, same y (wf.successors_inside x arc.1 y arc.2)⟩
  | branch branchMap mergeMap => exact checked.1 x y arc

/-- The entry and the exit are two, and neither is among the elements. -/
theorem ends_apart (distinct : L.inside.Nodup) :
    L.entry ∉ L.elements ∧ L.exit ∉ L.elements ∧ L.entry ≠ L.exit := by
  obtain ⟨newEntry, distinct⟩ := List.nodup_cons.mp distinct
  simp only [List.mem_append, List.mem_singleton, not_or] at newEntry
  refine ⟨newEntry.1, fun isIn => ?_, newEntry.2⟩
  exact (List.nodup_append.mp distinct).2.2 _ isIn _ (List.mem_singleton_self _) rfl

/-- In a parallel block each element is a way from the entry to the exit. -/
theorem transGen_parallel_iff (distinct : L.inside.Nodup) :
    TransGen (parallel.Arc L) x y ↔ parallel.Precedes L x y := by
  obtain ⟨entryApart, exitApart, differ⟩ := ends_apart distinct
  have inside (z : E) : z ∈ L.inside ↔ z = L.entry ∨ z ∈ L.elements ∨ z = L.exit := by simp [Level.inside]
  have step {p q : E} (arc : parallel.Arc L p q) : parallel.Precedes L p q ∧ p ≠ L.exit ∧ (q = L.exit ∨ p = L.entry) := by
    rcases arc with ⟨-, rfl, rfl⟩ | ⟨rfl, isIn⟩ | ⟨isIn, rfl⟩
    · exact ⟨⟨differ, (inside _).mpr (.inl rfl), (inside _).mpr (.inr (.inr rfl)), .inl rfl⟩, differ, .inl rfl⟩
    · have other : L.entry ≠ q := fun same => entryApart (same ▸ isIn)
      exact ⟨⟨other, (inside _).mpr (.inl rfl), (inside _).mpr (.inr (.inl isIn)), .inl rfl⟩, differ, .inr rfl⟩
    · have other : p ≠ L.exit := fun same => exitApart (same ▸ isIn)
      exact ⟨⟨other, (inside _).mpr (.inr (.inl isIn)), (inside _).mpr (.inr (.inr rfl)), .inr rfl⟩, other, .inl rfl⟩
  constructor
  · intro walk
    induction walk with
    | single arc => exact (step arc).1
    | tail _ arc ih =>
        obtain ⟨before, notExit, ends⟩ := step arc
        obtain ⟨other, isIn, -, first | last⟩ := ih
        · rcases ends with rfl | second
          · exact ⟨first ▸ differ, isIn, before.2.2.1, .inr rfl⟩
          · exact absurd (first.trans second.symm) other
        · exact absurd last notExit
  · have through : TransGen (parallel.Arc L) L.entry L.exit := by
      rcases L.elements.eq_nil_or_concat with none | ⟨_, cpe, some⟩
      · exact .single (.inl ⟨none, rfl, rfl⟩)
      · have isIn : cpe ∈ L.elements := by simp [some]
        exact .tail (.single (.inr (.inl ⟨rfl, isIn⟩))) (.inr (.inr ⟨isIn, rfl⟩))
    rintro ⟨other, insideX, insideY, rfl | rfl⟩
    · rcases (inside y).mp insideY with same | isIn | rfl
      · exact absurd same.symm other
      · exact .single (.inr (.inl ⟨rfl, isIn⟩))
      · exact through
    · rcases (inside x).mp insideX with rfl | isIn | same
      · exact through
      · exact .single (.inr (.inr ⟨isIn, rfl⟩))
      · exact absurd same other

theorem transGen_arc_iff (distinct : L.inside.Nodup) : TransGen (kind.Arc L) x y ↔ kind.Precedes L x y := by
  cases kind with
  | series => exact transGen_infix_iff distinct
  | parallel => exact transGen_parallel_iff distinct
  | fork B => exact Iff.rfl
  | branch branchMap mergeMap => exact Iff.rfl

theorem between_ends (checked : kind.Checked L) (distinct : L.inside.Nodup) (held : x ∈ L.inside) :
    ReflTransGen (kind.Arc L) L.entry x ∧ ReflTransGen (kind.Arc L) x L.exit := by
  have reaches {p q : E} (before : p = q ∨ kind.Precedes L p q) : ReflTransGen (kind.Arc L) p q := by
    rcases before with rfl | before
    · exact .refl
    · exact ((transGen_arc_iff distinct).mpr before).to_reflTransGen
  obtain ⟨entryApart, exitApart, differ⟩ := ends_apart distinct
  cases kind with
  | series =>
      constructor
      · rcases List.mem_cons.mp held with rfl | isBehind
        · exact .refl
        · exact reaches (.inr (pair_sublist_cons.mpr (.inl ⟨rfl, isBehind⟩)))
      · rcases List.mem_append.mp (show x ∈ (L.entry :: L.elements) ++ [L.exit] from held) with isBefore | isExit
        · exact reaches (.inr ((List.singleton_sublist.mpr isBefore).append (List.Sublist.refl [L.exit])))
        · exact reaches (.inl (List.mem_singleton.mp isExit))
  | parallel =>
      have entryIn : L.entry ∈ L.inside := List.mem_cons_self
      have exitIn : L.exit ∈ L.inside := by simp [Level.inside]
      constructor
      · refine reaches ((eq_or_ne L.entry x).imp_right fun other => ⟨other, entryIn, held, .inl rfl⟩)
      · refine reaches ((eq_or_ne x L.exit).imp_right fun other => ⟨other, held, exitIn, .inr rfl⟩)
  | fork B =>
      obtain ⟨entry, exit, elements, wf⟩ := checked
      have isVertex : x ∈ B.vertices := by
        simp only [Level.inside, List.mem_cons, List.mem_append] at held
        simp only [CPForkBlock.vertices, entry, exit, elements, List.mem_cons]
        tauto
      exact ⟨entry ▸ wf.from_entry x isVertex, exit ▸ wf.to_exit x isVertex⟩
  | branch branchMap mergeMap => exact checked.2 x held

/-! ### What the calls list -/

theorem mem_seriesLoop (before : Option E) (l : List E) :
    (.add .successors x y ∈ seriesLoop before l ↔ [x, y] <:+: l) ∧
      (.add .predecessors y x ∈ seriesLoop before l ↔ before = some x ∧ l.head? = some y ∨ [x, y] <:+: l) := by
  induction l generalizing before with
  | nil => simp [seriesLoop]
  | cons cpe rest ih =>
      obtain ⟨next, prev⟩ := ih (some cpe)
      simp only [seriesLoop, List.mem_append, List.mem_map, Option.mem_toList, LinkCall.add.injEq, next, prev,
        pair_infix_cons]
      constructor
      · simp [and_comm, @eq_comm E cpe]
      · simp [eq_comm]

theorem mem_seriesLinks {entry exit : E} (l : List E) :
    (.add .successors x y ∈ seriesLinks entry exit l ↔ [x, y] <:+: entry :: (l ++ [exit])) ∧
      (.add .predecessors y x ∈ seriesLinks entry exit l ↔ [x, y] <:+: entry :: (l ++ [exit])) := by
  cases l with
  | nil =>
      simp only [seriesLinks, LinkCall.connect, List.nil_append, pair_infix_cons]
      constructor
      · simp [@eq_comm E exit]
      · simp [@eq_comm E exit, and_comm]
  | cons front rest =>
      have loop := @mem_seriesLoop E x y none (front :: rest)
      have arcs : [x, y] <:+: entry :: (front :: rest ++ [exit]) ↔ x = entry ∧ front = y ∨ [x, y] <:+: front :: rest ∨
          (front :: rest).getLast (List.cons_ne_nil front rest) = x ∧ y = exit := by
        rw [pair_infix_cons, pair_infix_concat, List.getLast?_eq_some_getLast (List.cons_ne_nil front rest),
          List.cons_append, List.head?_cons, Option.some_inj, Option.some_inj]
      simp only [seriesLinks, LinkCall.connect, List.mem_append, List.mem_cons, LinkCall.add.injEq, loop, arcs]
      constructor
      · simp [@eq_comm E y, @eq_comm E x]
      · simp [@eq_comm E y, @eq_comm E x, and_comm]

theorem mem_parallelLinks {entry exit : E} (l : List E) :
    (.add .successors x y ∈ parallelLinks entry exit l ↔
        l = [] ∧ x = entry ∧ y = exit ∨ x = entry ∧ y ∈ l ∨ x ∈ l ∧ y = exit) ∧
      (.add .predecessors y x ∈ parallelLinks entry exit l ↔
        l = [] ∧ x = entry ∧ y = exit ∨ x = entry ∧ y ∈ l ∨ x ∈ l ∧ y = exit) := by
  cases l with
  | nil => simp [parallelLinks, LinkCall.connect, and_comm]
  | cons front rest =>
      simp only [parallelLinks, List.mem_flatMap]
      constructor
      · grind
      · grind

/-- Every arc is listed at both of its ends, and nothing else is. -/
theorem listed_iff (checked : kind.Checked L) :
    (.add .successors x y ∈ kind.linkCalls L ∨ x ∈ L.inside ∧ y ∈ (kind.declared x).links .successors ↔
        kind.Arc L x y) ∧
      (.add .predecessors y x ∈ kind.linkCalls L ∨ y ∈ L.inside ∧ x ∈ (kind.declared y).links .predecessors ↔
        kind.Arc L x y) := by
  cases kind with
  | series => simpa [linkCalls, declared, Arc, Level.inside] using mem_seriesLinks L.elements
  | parallel => simpa [linkCalls, declared, Arc] using mem_parallelLinks L.elements
  | branch branchMap mergeMap =>
      simp only [linkCalls, branchLinks, declared, List.mem_append, List.mem_flatMap, Arc]
      constructor
      · simp
      · simp
  | fork B =>
      obtain ⟨entry, exit, elements, wf⟩ := checked
      have isVertex (z : E) : z ∈ L.inside ↔ z ∈ B.vertices := by
        simp [Level.inside, CPForkBlock.vertices, entry, exit, elements, or_comm]
      simp only [linkCalls, declared, List.not_mem_nil, false_or, isVertex, Arc, CPForkBlock.Arc]
      refine ⟨trivial, ?_, ?_⟩
      · rintro ⟨inside, isPrev⟩
        have insideX := wf.predecessors_inside y inside x isPrev
        exact ⟨insideX, (wf.mirrored x insideX y inside).mpr isPrev⟩
      · rintro ⟨inside, isNext⟩
        have insideY := wf.successors_inside x inside y isNext
        exact ⟨insideY, (wf.mirrored x inside y insideY).mp isNext⟩

/-- The call adds to a vector of arcs that are not marked. -/
def Plain (call : LinkCall E) : Prop := ∃ x y, call = .add .successors x y ∨ call = .add .predecessors x y

theorem plain_successor (x y : E) : Plain (.add .successors x y) := ⟨x, y, .inl rfl⟩

theorem plain_predecessor (x y : E) : Plain (.add .predecessors x y) := ⟨x, y, .inr rfl⟩

theorem seriesLoop_plain (before : Option E) (l : List E) : ∀ call ∈ seriesLoop before l, Plain call := by
  induction l generalizing before with
  | nil => simp [seriesLoop]
  | cons cpe rest ih =>
      intro call isCall
      simp only [seriesLoop, List.mem_append, List.mem_map] at isCall
      rcases isCall with ⟨prev, -, rfl⟩ | ⟨next, -, rfl⟩ | isCall
      · exact plain_predecessor cpe prev
      · exact plain_successor cpe next
      · exact ih (some cpe) call isCall

theorem linkCalls_plain (L : Level E) (kind : BlockKind E) : ∀ call ∈ kind.linkCalls L, Plain call := by
  have connected (x y : E) : ∀ call ∈ LinkCall.connect x y, Plain call := by
    simp [LinkCall.connect, plain_successor, plain_predecessor]
  intro call isCall
  cases kind with
  | series =>
      simp only [linkCalls] at isCall
      cases same : L.elements with
      | nil =>
          rw [same] at isCall
          exact connected L.entry L.exit call isCall
      | cons front rest =>
          rw [same] at isCall
          rcases List.mem_append.mp isCall with isCall | isCall
          · exact connected _ _ call isCall
          · exact (List.mem_append.mp isCall).elim (seriesLoop_plain none _ call) (connected _ _ call)
  | parallel =>
      simp only [linkCalls] at isCall
      cases same : L.elements with
      | nil =>
          rw [same] at isCall
          exact connected L.entry L.exit call isCall
      | cons front rest =>
          rw [same, parallelLinks] at isCall
          obtain ⟨cpe, -, isCall⟩ := List.mem_flatMap.mp isCall
          simp only [List.mem_cons, List.not_mem_nil, or_false] at isCall
          rcases isCall with rfl | rfl | rfl | rfl
          · exact plain_successor L.entry cpe
          · exact plain_predecessor cpe L.entry
          · exact plain_predecessor L.exit cpe
          · exact plain_successor cpe L.exit
  | fork B => exact absurd isCall List.not_mem_nil
  | branch branchMap mergeMap =>
      simp only [linkCalls, branchLinks, List.mem_append, List.mem_flatMap] at isCall
      rcases isCall with ⟨p, -, e, -, isCall⟩ | ⟨p, -, e, -, isCall⟩
      · revert call
        simp [plain_successor, plain_predecessor]
      · revert call
        simp [plain_successor, plain_predecessor]

end BlockKind

/-! ### What the elements list in the end -/

theorem LinkCall.mem_foldl {E : Type} [DecidableEq E] {calls : List (LinkCall E)}
    (adds : ∀ call ∈ calls, ∃ kind x y, call = add kind x y) (elements : E → CPElementLinks E) {k : LinkKind} {x y : E} :
    y ∈ (calls.foldl apply elements x).links k ↔ add k x y ∈ calls ∨ y ∈ (elements x).links k := by
  induction calls generalizing elements with
  | nil => simp
  | cons call calls ih =>
      obtain ⟨kind, this, cpe, rfl⟩ := adds call List.mem_cons_self
      rw [List.foldl_cons, ih (fun call isCall => adds call (.tail _ isCall)), mem_apply_add, List.mem_cons,
        @eq_comm _ (add k x y), or_assoc, or_left_comm]

namespace CPElements
variable {E : Type} {P : CPElements E} {kind : E → BlockKind E}

theorem mem_linkCalls {call : LinkCall E} :
    call ∈ P.linkCalls kind ↔ ∃ L ∈ P.levels, call ∈ (kind L.block).linkCalls L := by
  induction P with
  | nil => simp [linkCalls, levels]
  | element cpe rest ih => exact ih
  | block b entry exit inner rest ihInner ihRest =>
      simp only [linkCalls, levels, List.mem_append, List.mem_cons, ihInner, ihRest, or_and_right, exists_or,
        exists_eq_left]
      exact or_left_comm

variable [DecidableEq E]

theorem mem_blockLinks {k : LinkKind} {x y : E} : y ∈ (P.blockLinks kind x).links k ↔
    (∃ L ∈ P.levels, .add k x y ∈ (kind L.block).linkCalls L) ∨ y ∈ (P.declaredLinks kind x).links k := by
  rw [← mem_linkCalls]
  refine LinkCall.mem_foldl (fun call isCall => ?_) _
  obtain ⟨L, -, isCall⟩ := mem_linkCalls.mp isCall
  obtain ⟨x, y, rfl | rfl⟩ := BlockKind.linkCalls_plain L _ call isCall
  · exact ⟨_, x, y, rfl⟩
  · exact ⟨_, x, y, rfl⟩

section Distinct
variable (distinct : P.visited.Nodup)
include distinct

theorem mem_declaredLinks {k : LinkKind} {x y : E} : y ∈ (P.declaredLinks kind x).links k ↔
    ∃ L ∈ P.levels, x ∈ L.inside ∧ y ∈ ((kind L.block).declared x).links k := by
  unfold declaredLinks
  cases found : P.levels.find? fun L => x ∈ L.inside with
  | none =>
      refine iff_of_false List.not_mem_nil ?_
      rintro ⟨L, isLevel, held, -⟩
      exact absurd held (by simpa using List.find?_eq_none.mp found L isLevel)
  | some L =>
      have isLevel := List.mem_of_find?_eq_some found
      have held : x ∈ L.inside := by simpa using List.find?_some found
      refine ⟨fun isListed => ⟨L, isLevel, held, isListed⟩, ?_⟩
      rintro ⟨L', isLevel', held', isListed⟩
      rwa [level_of_inside distinct isLevel isLevel' held held']

variable (checked : ∀ L ∈ P.levels, (kind L.block).Checked L)
include checked

theorem mem_links_iff {x y : E} :
    (y ∈ (P.blockLinks kind x).links .successors ↔ (P.nested kind).arc x y) ∧
      (x ∈ (P.blockLinks kind y).links .predecessors ↔ (P.nested kind).arc x y) := by
  simp only [mem_blockLinks, mem_declaredLinks distinct, ← exists_or, ← and_or_left]
  constructor
  · exact exists_congr fun L => and_congr_right fun isLevel => (BlockKind.listed_iff (checked L isLevel)).1
  · exact exists_congr fun L => and_congr_right fun isLevel => (BlockKind.listed_iff (checked L isLevel)).2

omit checked in
theorem no_marked {x : E} : (P.blockLinks kind x).links .markedSuccessors = [] ∧
    (P.blockLinks kind x).links .markedPredecessors = [] := by
  have none (k : LinkKind) (isMarked : k ≠ .successors ∧ k ≠ .predecessors) : (P.blockLinks kind x).links k = [] := by
    refine List.eq_nil_iff_forall_not_mem.mpr fun y isListed => ?_
    rw [mem_blockLinks, mem_declaredLinks distinct] at isListed
    rcases isListed with ⟨L, -, isCall⟩ | ⟨L, -, -, isListed⟩
    · obtain ⟨x, y, same | same⟩ := BlockKind.linkCalls_plain L _ _ isCall
      · exact isMarked.1 (LinkCall.add.inj same).1
      · exact isMarked.2 (LinkCall.add.inj same).1
    · cases isKind : kind L.block with
      | fork B => 
          rw [isKind] at isListed
          cases k <;> simp_all [BlockKind.declared]
      | _ => simp [isKind, BlockKind.declared] at isListed
  exact ⟨none _ ⟨nofun, nofun⟩, none _ ⟨nofun, nofun⟩⟩

omit checked in
theorem isLeaf_of_mem {e : E} (leaf : e ∈ P.leaves) : (P.nested kind).IsLeaf e := by
  rintro x ⟨L, isLevel, rfl, -⟩
  exact notMem_leaves distinct isLevel leaf

theorem isNested : (P.nested kind).Nested where
  wellFounded := holds_wellFounded distinct
  unique := by
    rintro x _ _ ⟨L, isLevel, rfl, held⟩ ⟨L', isLevel', rfl, held'⟩
    rw [level_of_inside distinct isLevel isLevel' held held']
  siblings := by
    rintro x y ⟨L, isLevel, arc⟩
    obtain ⟨insideX, insideY⟩ := BlockKind.arc_inside (checked L isLevel) arc
    exact ⟨L.block, ⟨L, isLevel, rfl, insideX⟩, L, isLevel, rfl, insideY⟩
  ofLeaf := by
    intro x leaf
    refine ends_of_leaf fun L isLevel same => leaf L.entry ⟨L, isLevel, same, List.mem_cons_self⟩
  entryOf := by
    rintro x _ ⟨L, isLevel, rfl, -⟩
    rw [show (P.nested kind).entry L.block = L.entry from (ends_of_block distinct isLevel).1]
    have isLeaf := (P.blocks_spec _ ((P.mem_blocks _).mpr ⟨L, isLevel, rfl⟩)).1
    exact ⟨⟨L, isLevel, rfl, List.mem_cons_self⟩, isLeaf_of_mem distinct isLeaf⟩
  exitOf := by
    rintro x _ ⟨L, isLevel, rfl, -⟩
    rw [show (P.nested kind).exit L.block = L.exit from (ends_of_block distinct isLevel).2]
    have isLeaf := (P.blocks_spec _ ((P.mem_blocks _).mpr ⟨L, isLevel, rfl⟩)).2
    exact ⟨⟨L, isLevel, rfl, by simp [Level.inside]⟩, isLeaf_of_mem distinct isLeaf⟩

theorem isSound : (P.nested kind).Sound := by
  have lift {L : Level E} (isLevel : L ∈ P.levels) {x y : E} (path : ReflTransGen ((kind L.block).Arc L) x y) :
      ReflTransGen (P.nested kind).arc x y :=
    ReflTransGen.mono (fun _ _ arc => ⟨L, isLevel, arc⟩) _ _ path
  constructor
  · rintro x _ ⟨L, isLevel, rfl, held⟩
    rw [show (P.nested kind).entry L.block = L.entry from (ends_of_block distinct isLevel).1]
    exact lift isLevel (BlockKind.between_ends (checked L isLevel) (inside_nodup distinct isLevel) held).1
  · rintro x _ ⟨L, isLevel, rfl, held⟩
    rw [show (P.nested kind).exit L.block = L.exit from (ends_of_block distinct isLevel).2]
    exact lift isLevel (BlockKind.between_ends (checked L isLevel) (inside_nodup distinct isLevel) held).2

/-- A walk stays in its block, where it goes from an element to one that comes after it. -/
theorem transGen_arc_iff {x y : E} :
    TransGen (P.nested kind).arc x y ↔ ∃ L ∈ P.levels, (kind L.block).Precedes L x y := by
  have walk : TransGen (P.nested kind).arc x y ↔ ∃ L ∈ P.levels, TransGen ((kind L.block).Arc L) x y := by
    constructor
    · intro walk
      induction walk with
      | single step =>
          obtain ⟨L, isLevel, arc⟩ := step
          exact ⟨L, isLevel, .single arc⟩
      | tail _ step ih =>
          obtain ⟨L, isLevel, walk⟩ := ih
          obtain ⟨L', isLevel', arc⟩ := step
          obtain ⟨z, -, last⟩ := TransGen.tail'_iff.mp walk
          have held := (BlockKind.arc_inside (checked L isLevel) last).2
          have held' := (BlockKind.arc_inside (checked L' isLevel') arc).1
          obtain rfl := level_of_inside distinct isLevel isLevel' held held'
          exact ⟨L, isLevel, walk.tail arc⟩
    · rintro ⟨L, isLevel, walk⟩
      exact TransGen.mono (fun _ _ arc => ⟨L, isLevel, arc⟩) _ _ walk
  rw [walk]
  exact exists_congr fun L => and_congr_right fun isLevel => BlockKind.transGen_arc_iff (inside_nodup distinct isLevel)

theorem forwardArc_iff {m : Memory E} (plain : ∀ x ∈ P.visited, (m.info x).associatedCPFunction = none) {e f : E} :
    P.ForwardArc m (P.blockLinks kind) e f ↔ e ≠ f ∧ (P.nested kind).Flat e f := by
  constructor
  · rintro ⟨differ, -, -, x, y, isSource, isTarget, -, listed⟩
    refine ⟨differ, x, y, ?_, isSource, isTarget⟩
    rcases listed with ⟨-, isNext⟩ | ⟨-, isPrev⟩
    · exact (mem_links_iff distinct checked).1.mp isNext
    · exact (mem_links_iff distinct checked).2.mp isPrev
  · rintro ⟨differ, x, y, arc, rfl, rfl⟩
    have isNext := (mem_links_iff distinct checked).1.mpr arc
    obtain ⟨L, isLevel, isArc⟩ := arc
    obtain ⟨insideX, insideY⟩ := BlockKind.arc_inside (checked L isLevel) isArc
    have visitedX := visited_of_inside isLevel insideX
    have visitedY := visited_of_inside isLevel insideY
    exact ⟨differ, (ends_mem_leaves visitedX).2, (ends_mem_leaves visitedY).1, x, y, rfl, rfl,
      by simp [isImplicit, plain x visitedX],
      .inl ⟨visitedX, isNext⟩⟩

/-- One leaf comes before another by the arcs just when the blocks say so. -/
theorem reaches_iff {m : Memory E} (plain : ∀ x ∈ P.visited, (m.info x).associatedCPFunction = none) {e f : E}
    (leafE : e ∈ P.leaves) (leafF : f ∈ P.leaves) :
    ReflTransGen (P.ForwardArc m (P.blockLinks kind)) e f ↔ e = f ∨ ∃ L ∈ P.levels, ∃ x y,
      P.Within e x ∧ P.Within f y ∧ (kind L.block).Precedes L x y := by
  have path : ReflTransGen (P.ForwardArc m (P.blockLinks kind)) e f ↔ ReflTransGen (P.nested kind).Flat e f := by
    constructor
    · exact ReflTransGen.mono (fun _ _ arc => ((forwardArc_iff distinct checked plain).mp arc).2) _ _
    · intro path
      clear leafF
      induction path with
      | refl => exact .refl
      | @tail z f _ step ih =>
          by_cases same : z = f
          · exact same ▸ ih
          · exact ih.tail ((forwardArc_iff distinct checked plain).mpr ⟨same, step⟩)
  rw [path, reflTransGen_iff_eq_or_transGen, (isNested distinct checked).reaches_iff (isSound distinct checked)
    (isLeaf_of_mem distinct leafE) (isLeaf_of_mem distinct leafF), @eq_comm _ f]
  refine or_congr_right ?_
  simp only [transGen_arc_iff distinct checked]
  constructor
  · rintro ⟨x, y, underX, underY, L, isLevel, before⟩
    exact ⟨L, isLevel, x, y, underX, underY, before⟩
  · rintro ⟨L, isLevel, x, y, underX, underY, before⟩
    exact ⟨x, y, underX, underY, L, isLevel, before⟩

end Distinct

end CPElements

namespace GroupGraph
variable {E : Type} [DecidableEq E] {m : Memory E} {P : CPElements E} {links : E → CPElementLinks E} {C : GroupGraph E}

theorem Constructed.reaches_iff (constructed : Constructed m P links C) {e f : E} {g h : Nat}
    (ofE : C.getGroup e = some g) (ofF : C.getGroup f = some h) :
    ReflTransGen C.forward.succ g h ↔ ReflTransGen (P.ForwardArc m links) e f := by
  constructor
  · intro path
    induction path generalizing f with
    | refl =>
        rw [constructed.unique ofE ofF]
    | tail _ step ih =>
        obtain ⟨e', f', ofE', ofF', arc⟩ := (constructed.forward _ _).mp step
        rw [constructed.unique ofF ofF']
        exact (ih ofE').tail arc
  · intro path
    induction path generalizing h with
    | refl =>
        rw [Option.some.inj (ofE.symm.trans ofF)]
    | tail _ arc ih =>
        obtain ⟨b, ofB⟩ := (constructed.grouped _).mp arc.2.1
        exact (ih ofB).tail ((constructed.forward b h).mpr ⟨_, _, ofB, ofF, arc⟩)

theorem exists_constructed (m : Memory E) {P : CPElements E} (kind : E → BlockKind E) (rootIndexCounter : Nat)
    (distinct : P.visited.Nodup) : ∃ C, constructGroupGraph m P (P.blockLinks kind) rootIndexCounter = some C ∧
      Constructed m P (P.blockLinks kind) C ∧ C.checkGroupGraphStructure = [] := by
  have noMarked (e f : E) (delay : Int) : ¬ P.MarkedArc (P.blockLinks kind) e f delay := by
    rintro ⟨-, -, -, x, y, -, -, listed⟩
    have none (z : E) := @CPElements.no_marked E P kind _ distinct z
    simp [(none x).1, (none y).2] at listed
  have leaves : P.leaves.Nodup := (List.nodup_append.mp (P.blocks_perm.nodup_iff.mpr distinct)).1
  obtain ⟨makes, made⟩ := constructGroupGraph_constructed m P (P.blockLinks kind) rootIndexCounter
  obtain ⟨C, isResult⟩ := makes.mpr ⟨leaves, fun e f delay marked => absurd marked (noMarked e f delay)⟩
  have constructed := made C isResult
  refine ⟨C, isResult, constructed, ?_⟩
  refine (checkGroupGraphStructure_eq_nil_iff constructed.wellFormed).mpr fun g h _ both => ?_
  obtain ⟨e, f, delay, -, -, marked⟩ := (constructed.marked g h).mp both.2
  exact noMarked e f delay marked

/-- Nested blocks whose checks pass get a group graph that passes its own, and in it one
transition or place comes before another just when some block has an element that the one
is in before an element that the other is in. -/
theorem constructGroupGraph_order (m : Memory E) (P : CPElements E) (kind : E → BlockKind E) (rootIndexCounter : Nat)
    (distinct : P.visited.Nodup) (plain : ∀ x ∈ P.visited, (m.info x).associatedCPFunction = none)
    (checked : ∀ L ∈ P.levels, (kind L.block).Checked L) :
    ∃ C, constructGroupGraph m P (P.blockLinks kind) rootIndexCounter = some C ∧ C.checkGroupGraphStructure = [] ∧
      (∀ e, e ∈ P.leaves ↔ ∃ g, C.getGroup e = some g) ∧
      ∀ e f g h, C.getGroup e = some g → C.getGroup f = some h →
        (ReflTransGen C.forward.succ g h ↔ e = f ∨ ∃ L ∈ P.levels, ∃ x y,
          P.Within e x ∧ P.Within f y ∧ (kind L.block).Precedes L x y) := by
  obtain ⟨C, isResult, constructed, passes⟩ := exists_constructed m kind rootIndexCounter distinct
  refine ⟨C, isResult, passes, constructed.grouped, fun e f g h ofE ofF => ?_⟩
  rw [constructed.reaches_iff ofE ofF]
  exact CPElements.reaches_iff distinct checked plain ((constructed.grouped e).mpr ⟨g, ofE⟩)
    ((constructed.grouped f).mpr ⟨h, ofF⟩)

/-- A transition before two series blocks beside each other, the second with two transitions. -/
def besidePair : CPElements Nat :=
  .block 0 1 2 (.element 3 (.block 10 11 12 (.block 20 21 22 .nil (.block 30 31 32 (.element 33 (.element 34 .nil)) .nil))
    .nil)) .nil

def besideKind (b : Nat) : BlockKind Nat := if b = 10 then .parallel else .series

theorem besideKind_checked : ∀ L ∈ besidePair.levels, (besideKind L.block).Checked L := by
  intro L _
  unfold besideKind
  split_ifs
  · trivial
  · trivial

theorem constructGroupGraph_order_besidePair :
    ∃ C, constructGroupGraph plainTransitions besidePair (besidePair.blockLinks besideKind) 0 = some C ∧
      ∀ g h, C.getGroup 3 = some g → C.getGroup 34 = some h → ReflTransGen C.forward.succ g h := by
  obtain ⟨C, isResult, -, -, order⟩ := constructGroupGraph_order plainTransitions besidePair besideKind 0 (by decide)
    (fun _ _ => rfl) besideKind_checked
  refine ⟨C, isResult, fun g h ofE ofF => (order 3 34 g h ofE ofF).mpr (.inr ?_)⟩
  have levels : besidePair.levels = [⟨20, 21, 22, []⟩, ⟨30, 31, 32, [33, 34]⟩, ⟨10, 11, 12, [20, 30]⟩, ⟨0, 1, 2, [3, 10]⟩] := rfl
  have inSeries : besidePair.Holds 34 30 := ⟨⟨30, 31, 32, [33, 34]⟩, by simp [levels], rfl, by decide⟩
  have inParallel : besidePair.Holds 30 10 := ⟨⟨10, 11, 12, [20, 30]⟩, by simp [levels], rfl, by decide⟩
  refine ⟨⟨0, 1, 2, [3, 10]⟩, by simp [levels], 3, 10, .refl, .tail (.single inSeries) inParallel, ?_⟩
  exact (by decide : List.Sublist [3, 10] [1, 3, 10, 2])

end GroupGraph

end Ahir.ControlPath
