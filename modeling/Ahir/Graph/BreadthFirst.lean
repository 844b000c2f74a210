import Mathlib.Data.List.Lex
import Mathlib.Data.List.Nodup
import Mathlib.Data.Prod.Lex
import Mathlib.Logic.Relation
import Mathlib.Tactic

/-!
# Breadth first orders

A word of positions leads from the start to a vertex: at each vertex the next letter picks one of
its successors.  A breadth first search reaches the vertices in the order of the first words that
lead to them, the shorter words first and those of one length in lexicographic order.
-/

set_option autoImplicit false

namespace Ahir.Graph
variable {V : Type} {next : V → List V} {start : V}

def wordPlace (word : List Nat) : ℕ ×ₗ List ℕ := toLex (word.length, word)

theorem wordPlace_lt {x y : List Nat} :
    wordPlace x < wordPlace y ↔ x.length < y.length ∨ x.length = y.length ∧ x < y :=
  Prod.Lex.toLex_lt_toLex

theorem wordPlace_injective {x y : List Nat} (same : wordPlace x = wordPlace y) : x = y :=
  congrArg Prod.snd (toLex.injective same)

theorem append_lt_append {x y : List Nat} (length : x.length = y.length) (less : x < y) (s t : List Nat) :
    x ++ s < y ++ t := by
  induction x generalizing y with
  | nil =>
      obtain rfl : y = [] := List.length_eq_zero_iff.mp length.symm
      exact absurd less (lt_irrefl _)
  | cons a x ih =>
      cases y with
      | nil => simp at length
      | cons b y =>
          rw [List.cons_append, List.cons_append]
          rcases List.cons_lt_cons_iff.mp less with first | ⟨same, rest⟩
          · exact List.cons_lt_cons_iff.mpr (Or.inl first)
          · exact List.cons_lt_cons_iff.mpr (Or.inr ⟨same, ih (Nat.succ.inj length) rest⟩)

theorem wordPlace_snoc_lt {x y : List Nat} (less : wordPlace x < wordPlace y) (i j : Nat) :
    wordPlace (x ++ [i]) < wordPlace (y ++ [j]) := by
  rw [wordPlace_lt] at less ⊢
  rw [List.length_append, List.length_append, List.length_singleton, List.length_singleton]
  rcases less with shorter | ⟨same, less⟩
  · exact Or.inl (Nat.add_lt_add_right shorter 1)
  · exact Or.inr ⟨congrArg (· + 1) same, append_lt_append same less [i] [j]⟩

theorem wordPlace_snoc_lt_snoc (x : List Nat) {i j : Nat} (less : i < j) :
    wordPlace (x ++ [i]) < wordPlace (x ++ [j]) := by
  rw [wordPlace_lt]
  refine Or.inr ⟨by simp, ?_⟩
  exact List.Lex.append_left (· < ·) (List.Lex.rel less) x

theorem wordPlace_nil_lt_snoc (x : List Nat) (i : Nat) : wordPlace [] < wordPlace (x ++ [i]) :=
  wordPlace_lt.mpr (Or.inl (by simp))

inductive LeadsTo (next : V → List V) (start : V) : List Nat → V → Prop where
  | nil : LeadsTo next start [] start
  | snoc {word : List Nat} {x y : V} {i : Nat} :
      LeadsTo next start word x → (next x)[i]? = some y → LeadsTo next start (word ++ [i]) y

/-- Some word leads to `x` that comes before all that lead to `y`. -/
def Sooner (next : V → List V) (start x y : V) : Prop :=
  ∃ word, LeadsTo next start word x ∧ ∀ word', LeadsTo next start word' y → wordPlace word < wordPlace word'

section Search
variable [DecidableEq V]

/-- The loop of a breadth first search; `order` has the vertices that were taken from the queue. -/
def breadthFirst (next : V → List V) : Nat → List V → List V → Option (List V)
  | _, [], order => some order
  | 0, _ :: _, _ => none
  | fuel + 1, top :: queue, order =>
      let order := order ++ [top]
      breadthFirst next fuel
        ((next top).foldl (fun queue w => if w ∈ queue ∨ w ∈ order then queue else queue ++ [w]) queue) order

/-- `found` has the vertices reached so far, `word` the first words that lead to them; the arcs of
`done` were looked at. -/
structure Searched (next : V → List V) (start : V) (found : List V) (word : V → List Nat)
    (done : V → Nat → Prop) : Prop where
  started : start ∈ found
  word_start : word start = []
  sorted : found.Pairwise fun x y => wordPlace (word x) < wordPlace (word y)
  leads : ∀ x ∈ found, LeadsTo next start (word x) x
  reached : ∀ x ∈ found, x = start ∨ ∃ p i, p ∈ found ∧ done p i ∧ word x = word p ++ [i]
  closed : ∀ p i x, done p i → (next p)[i]? = some x → x ∈ found ∧ wordPlace (word x) ≤ wordPlace (word p ++ [i])

omit [DecidableEq V] in
theorem Searched.nodup {found : List V} {word : V → List Nat} {done : V → Nat → Prop}
    (searched : Searched next start found word done) : found.Nodup :=
  searched.sorted.imp fun {_ _} less same => absurd (same ▸ less) (lt_irrefl _)

omit [DecidableEq V] in
theorem Searched.begin : Searched next start [start] (fun _ => []) fun _ _ => False := by
  refine ⟨List.mem_singleton_self start, rfl, List.pairwise_singleton _ _, fun x member => ?_, fun x member => ?_,
    fun _ _ _ done => done.elim⟩
  · rw [List.mem_singleton.mp member]
    exact LeadsTo.nil
  · exact Or.inl (List.mem_singleton.mp member)

omit [DecidableEq V] in
theorem Searched.congr {found : List V} {word : V → List Nat} {done done' : V → Nat → Prop}
    (searched : Searched next start found word done) (more : ∀ p i, done p i → done' p i)
    (same : ∀ p i x, done' p i → (next p)[i]? = some x → done p i) : Searched next start found word done' := by
  refine { searched with reached := fun x member => ?_, closed := fun p i x isDone isNext => ?_ }
  · rcases searched.reached x member with isStart | ⟨p, i, inside, isDone, isWord⟩
    · exact Or.inl isStart
    · exact Or.inr ⟨p, i, inside, more p i isDone, isWord⟩
  · exact searched.closed p i x (same p i x isDone isNext) isNext

omit [DecidableEq V] in
theorem Searched.word_le {found : List V} {word : V → List Nat} {done : V → Nat → Prop}
    (searched : Searched next start found word done) {top : V} {i : Nat}
    (latest : ∀ p j, p ∈ found → done p j → wordPlace (word p ++ [j]) < wordPlace (word top ++ [i])) :
    ∀ x ∈ found, wordPlace (word x) < wordPlace (word top ++ [i]) := by
  intro x member
  rcases searched.reached x member with rfl | ⟨p, j, inside, isDone, isWord⟩
  · rw [searched.word_start]
    exact wordPlace_nil_lt_snoc _ i
  · rw [isWord]
    exact latest p j inside isDone

omit [DecidableEq V] in
theorem Searched.look {found : List V} {word : V → List Nat} {done : V → Nat → Prop}
    (searched : Searched next start found word done) {top w : V} {i : Nat} (topFound : top ∈ found)
    (isNext : (next top)[i]? = some w)
    (latest : ∀ p j, p ∈ found → done p j → wordPlace (word p ++ [j]) < wordPlace (word top ++ [i]))
    (known : w ∈ found) :
    Searched next start found word fun p j => done p j ∨ p = top ∧ j = i := by
  refine { searched with reached := fun x member => ?_, closed := ?_ }
  · rcases searched.reached x member with isStart | ⟨p, j, inside, isDone, isWord⟩
    · exact Or.inl isStart
    · exact Or.inr ⟨p, j, inside, Or.inl isDone, isWord⟩
  · rintro p j x (isDone | ⟨rfl, rfl⟩) isNext'
    · exact searched.closed p j x isDone isNext'
    · obtain rfl := Option.some.inj (isNext.symm.trans isNext')
      exact ⟨known, (searched.word_le latest w known).le⟩

theorem Searched.push {found : List V} {word : V → List Nat} {done : V → Nat → Prop}
    (searched : Searched next start found word done) {top w : V} {i : Nat} (topFound : top ∈ found)
    (isNext : (next top)[i]? = some w)
    (inside : ∀ p j, done p j → p ∈ found)
    (latest : ∀ p j, p ∈ found → done p j → wordPlace (word p ++ [j]) < wordPlace (word top ++ [i]))
    (fresh : w ∉ found) :
    Searched next start (found ++ [w]) (fun x => if x = w then word top ++ [i] else word x)
      fun p j => done p j ∨ p = top ∧ j = i := by
  have old {x : V} (member : x ∈ found) : (if x = w then word top ++ [i] else word x) = word x :=
    if_neg fun same : x = w => fresh (same ▸ member)
  have new : (if w = w then word top ++ [i] else word w) = word top ++ [i] := if_pos rfl
  refine ⟨List.mem_append_left _ searched.started, ?_, ?_, fun x member => ?_, fun x member => ?_, ?_⟩
  · rw [old searched.started, searched.word_start]
  · refine List.pairwise_append.mpr ⟨?_, List.pairwise_singleton _ _, fun x member y isNew => ?_⟩
    · refine searched.sorted.imp_of_mem fun {x y} memberX memberY less => ?_
      rw [old memberX, old memberY]
      exact less
    · rw [List.mem_singleton.mp isNew, new, old member]
      exact searched.word_le latest x member
  · rcases List.mem_append.mp member with member | member
    · rw [old member]
      exact searched.leads x member
    · rw [List.mem_singleton.mp member, new]
      exact LeadsTo.snoc (searched.leads top topFound) isNext
  · rcases List.mem_append.mp member with member | member
    · rcases searched.reached x member with isStart | ⟨p, j, insideP, isDone, isWord⟩
      · exact Or.inl isStart
      · refine Or.inr ⟨p, j, List.mem_append_left _ insideP, Or.inl isDone, ?_⟩
        rw [old member, old insideP]
        exact isWord
    · rw [List.mem_singleton.mp member]
      refine Or.inr ⟨top, i, List.mem_append_left _ topFound, Or.inr ⟨rfl, rfl⟩, ?_⟩
      rw [new, old topFound]
  · rintro p j x (isDone | ⟨rfl, rfl⟩) isNext'
    · obtain ⟨member, before⟩ := searched.closed p j x isDone isNext'
      rw [old member, old (inside p j isDone)]
      exact ⟨List.mem_append_left _ member, before⟩
    · obtain rfl := Option.some.inj (isNext.symm.trans isNext')
      rw [new, old topFound]
      exact ⟨List.mem_append_right _ (List.mem_singleton_self w), le_refl _⟩

theorem Searched.turn (order : List V) {top : V} (rest seen queue : List V) {word : V → List Nat}
    (split : next top = seen ++ rest)
    (searched : Searched next start ((order ++ [top]) ++ queue) word
      fun p j => p ∈ order ∨ p = top ∧ j < seen.length) :
    ∃ word', Searched next start ((order ++ [top]) ++ rest.foldl (fun queue w =>
      if w ∈ queue ∨ w ∈ order ++ [top] then queue else queue ++ [w]) queue) word' fun p _ => p ∈ order ++ [top] := by
  induction rest generalizing seen queue word with
  | nil =>
      refine ⟨word, searched.congr (fun p j isDone => ?_) fun p j x isDone isNext => ?_⟩
      · rcases isDone with member | ⟨rfl, _⟩
        · exact List.mem_append_left _ member
        · exact List.mem_append_right _ (List.mem_singleton_self p)
      · rcases List.mem_append.mp isDone with member | member
        · exact Or.inl member
        · obtain rfl := List.mem_singleton.mp member
          rw [split, List.append_nil] at isNext
          exact Or.inr ⟨rfl, (List.getElem?_eq_some_iff.mp isNext).1⟩
  | cons w rest ih =>
      have isNext : (next top)[seen.length]? = some w := by
        rw [split, List.getElem?_append_right (Nat.le_refl _), Nat.sub_self, List.getElem?_cons_zero]
      have topFound : top ∈ (order ++ [top]) ++ queue := by simp
      have latest (p : V) (j : Nat) (_ : p ∈ (order ++ [top]) ++ queue)
          (isDone : p ∈ order ∨ p = top ∧ j < seen.length) :
          wordPlace (word p ++ [j]) < wordPlace (word top ++ [seen.length]) := by
        rcases isDone with member | ⟨rfl, before⟩
        · have sorted := (List.pairwise_append.mp searched.sorted).1
          exact wordPlace_snoc_lt
            ((List.pairwise_append.mp sorted).2.2 p member top (List.mem_singleton_self top)) j seen.length
        · exact wordPlace_snoc_lt_snoc (word p) before
      have further {found : List V} {word : V → List Nat}
          (searched : Searched next start found word
            fun p j => (p ∈ order ∨ p = top ∧ j < seen.length) ∨ p = top ∧ j = seen.length) :
          Searched next start found word fun p j => p ∈ order ∨ p = top ∧ j < (seen ++ [w]).length := by
        rw [List.length_append, List.length_singleton]
        refine searched.congr (fun p j isDone => ?_) fun p j x isDone _ => ?_
        · rcases isDone with (member | ⟨same, before⟩) | ⟨same, here⟩
          · exact Or.inl member
          · exact Or.inr ⟨same, by omega⟩
          · exact Or.inr ⟨same, by omega⟩
        · rcases isDone with member | ⟨same, before⟩
          · exact Or.inl (Or.inl member)
          · rcases Nat.lt_succ_iff_lt_or_eq.mp before with earlier | here
            · exact Or.inl (Or.inr ⟨same, earlier⟩)
            · exact Or.inr ⟨same, here⟩
      have split' : next top = (seen ++ [w]) ++ rest := by rw [split, List.append_assoc, List.singleton_append]
      rw [List.foldl_cons]
      by_cases known : w ∈ queue ∨ w ∈ order ++ [top]
      · rw [if_pos known]
        refine ih (seen ++ [w]) queue split' (further (searched.look topFound isNext latest ?_))
        exact List.mem_append.mpr known.symm
      · rw [if_neg known]
        have fresh : w ∉ (order ++ [top]) ++ queue := fun member => known (List.mem_append.mp member).symm
        have pushed := searched.push topFound isNext (fun p j isDone => ?_) latest fresh
        · rw [List.append_assoc] at pushed
          exact ih (seen ++ [w]) (queue ++ [w]) split' (further pushed)
        · rcases isDone with member | ⟨rfl, _⟩
          · simp [member]
          · exact topFound

theorem mem_foldl_queue {found rest queue : List V} {x : V}
    (member : x ∈ rest.foldl (fun queue w => if w ∈ queue ∨ w ∈ found then queue else queue ++ [w]) queue) :
    x ∈ queue ∨ x ∈ rest := by
  induction rest generalizing queue with
  | nil => exact Or.inl member
  | cons w rest ih =>
      rw [List.foldl_cons] at member
      rcases ih member with old | later
      · split_ifs at old with known
        · exact Or.inl old
        · rcases List.mem_append.mp old with old | new
          · exact Or.inl old
          · rw [List.mem_singleton.mp new]
            exact Or.inr List.mem_cons_self
      · exact Or.inr (List.mem_cons_of_mem w later)

theorem breadthFirst_spec {vertices : List V} (inside : ∀ x ∈ vertices, ∀ y ∈ next x, y ∈ vertices) (fuel : Nat)
    (queue order : List V) {word : V → List Nat} (within : ∀ x ∈ order ++ queue, x ∈ vertices)
    (enough : vertices.length ≤ fuel + order.length)
    (searched : Searched next start (order ++ queue) word fun p _ => p ∈ order) :
    ∃ found word', breadthFirst next fuel queue order = some found ∧ (∀ x ∈ found, x ∈ vertices) ∧
      Searched next start found word' fun p _ => p ∈ found := by
  induction fuel generalizing queue order word with
  | zero =>
      cases queue with
      | nil =>
          rw [List.append_nil] at within searched
          exact ⟨order, word, rfl, within, searched⟩
      | cons top queue =>
          have most := (searched.nodup.subperm within).length_le
          rw [List.length_append, List.length_cons] at most
          omega
  | succ fuel ih =>
      cases queue with
      | nil =>
          rw [List.append_nil] at within searched
          exact ⟨order, word, rfl, within, searched⟩
      | cons top queue =>
          rw [List.append_cons] at within searched
          have topInside : top ∈ vertices := within top (by simp)
          obtain ⟨word', turned⟩ := Searched.turn order (next top) [] queue rfl
            (searched.congr (fun p j isDone => Or.inl isDone) fun p j x isDone _ =>
              isDone.resolve_right fun both => Nat.not_lt_zero _ both.2)
          rw [breadthFirst]
          refine ih _ _ (fun x member => ?_) (by rw [List.length_append, List.length_singleton]; omega) turned
          rcases List.mem_append.mp member with member | member
          · exact within x (List.mem_append_left _ member)
          · rcases mem_foldl_queue member with old | isNext
            · exact within x (List.mem_append_right _ old)
            · exact inside top topInside x isNext

end Search

section Order
variable {order : List V} {word : V → List Nat}

theorem Searched.first (searched : Searched next start order word fun p _ => p ∈ order) {x : V} {other : List Nat}
    (leads : LeadsTo next start other x) : x ∈ order ∧ wordPlace (word x) ≤ wordPlace other := by
  induction leads with
  | nil => exact ⟨searched.started, le_of_eq (congrArg wordPlace searched.word_start)⟩
  | @snoc before p y i _ isNext ih =>
      obtain ⟨member, least⟩ := searched.closed p i y ih.1 isNext
      refine ⟨member, least.trans ?_⟩
      rcases ih.2.lt_or_eq with less | same
      · exact (wordPlace_snoc_lt less i i).le
      · rw [wordPlace_injective same]

theorem Searched.sooner_iff (searched : Searched next start order word fun p _ => p ∈ order) {x y : V}
    (memberX : x ∈ order) (memberY : y ∈ order) :
    Sooner next start x y ↔ wordPlace (word x) < wordPlace (word y) := by
  constructor
  · rintro ⟨other, leads, before⟩
    exact (searched.first leads).2.trans_lt (before (word y) (searched.leads y memberY))
  · exact fun less => ⟨word x, searched.leads x memberX, fun other leads => less.trans_le (searched.first leads).2⟩

/-- The arcs of the graph lead from earlier to later vertices of the list. -/
def Forward (next : V → List V) : List V → Prop
  | [] => True
  | x :: rest => (∀ y ∈ next x, y ∈ rest) ∧ Forward next rest

theorem forward_iff_of_sorted {place : V → ℕ ×ₗ List ℕ} (before rest : List V)
    (sorted : (before ++ rest).Pairwise fun x y => place x < place y)
    (inside : ∀ x ∈ rest, ∀ y ∈ next x, y ∈ before ++ rest) :
    Forward next rest ↔ ∀ x ∈ rest, ∀ y ∈ next x, place x < place y := by
  induction rest generalizing before with
  | nil => simp [Forward]
  | cons x rest ih =>
      have later := ih (before ++ [x]) (by rwa [List.append_assoc, List.singleton_append]) fun z member y isNext => by
        rw [List.append_assoc, List.singleton_append]
        exact inside z (List.mem_cons_of_mem x member) y isNext
      rw [Forward, later, List.forall_mem_cons]
      refine and_congr_left fun _ => forall₂_congr fun y isNext => ?_
      obtain ⟨_, after, apart⟩ := List.pairwise_append.mp sorted
      constructor
      · exact fun member => (List.pairwise_cons.mp after).1 y member
      · intro less
        rcases List.mem_append.mp (inside x List.mem_cons_self y isNext) with early | late
        · exact absurd (less.trans (apart y early x List.mem_cons_self)) (lt_irrefl _)
        · rcases List.mem_cons.mp late with rfl | late
          · exact absurd less (lt_irrefl _)
          · exact late

/-- A breadth first order goes along the arcs when the source of each can be reached sooner. -/
theorem Searched.forward_iff (searched : Searched next start order word fun p _ => p ∈ order) :
    Forward next order ↔ ∀ x ∈ order, ∀ y ∈ next x, Sooner next start x y := by
  have inside : ∀ x ∈ order, ∀ y ∈ next x, y ∈ order := fun x member y isNext => by
    obtain ⟨i, at_⟩ := List.mem_iff_getElem?.mp isNext
    exact (searched.closed x i y member at_).1
  rw [forward_iff_of_sorted [] order searched.sorted inside]
  exact forall₂_congr fun x member => forall₂_congr fun y isNext =>
    (searched.sooner_iff member (inside x member y isNext)).symm

end Order

end Ahir.Graph
