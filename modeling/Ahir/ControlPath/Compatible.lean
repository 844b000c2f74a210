import Ahir.Graph.TopologicalSort
import Ahir.ControlPath.LabelRun
import Ahir.ControlPath.CompatibilityMap

/-!
# Compatible elements are ordered

Each way in which two labels are found compatible gives a full walk that both
stand for: a label and one below it, labels below two forks of one label, and a
pair found by looking back.  Elements on a common walk are joined by a path.
-/

set_option autoImplicit false

namespace Ahir.ControlPath
open Ahir.Graph
variable {E : Type}

/-- The label `w` is the source of an in-arc of `x`. -/
def InArc (arcs : LabelId E → LabelArcs E) (w x : LabelId E) : Prop :=
  w ∈ (arcs x).unlabeledInArcs ∨ ∃ t i, (arcs x).labeledInArc = some (w, t, i)

/-- `v` lies below `u` in the graph of the labels. -/
def LabelReaches (arcs : LabelId E → LabelArcs E) : LabelId E → LabelId E → Prop :=
  Relation.ReflTransGen (InArc arcs)

variable [DecidableEq E]

theorem LabelArcs.inArc_of_comesFrom {arcs : LabelId E → LabelArcs E} {w x : LabelId E}
    (comes : (arcs x).comesFrom w = true) : InArc arcs w x := by
  cases arc : (arcs x).labeledInArc with
  | none =>
      simp only [LabelArcs.comesFrom, arc, decide_eq_true_eq] at comes
      exact Or.inl comes
  | some labeled =>
      obtain ⟨v, t, i⟩ := labeled
      simp only [LabelArcs.comesFrom, arc, decide_eq_true_eq] at comes
      exact Or.inr ⟨t, i, comes ▸ arc⟩

section Live
variable {B : CPForkBlock E} {order : List E} {s : LabelState E}

/-- A label of the block that is in use at the end of the pass. -/
def Live (B : CPForkBlock E) (order : List E) (s : LabelState E) (l : LabelId E) : Prop :=
  BranchLabel B (allSent B order) l ∨ ∃ y, JoinLabel B order (allSent B order) s l y

variable (wf : B.WellFormed) (isOrder : B.IsPrecedenceOrder order)
  (lab : Labelled B (placeIn order) order (allSent B order) s)

section Labels
include lab

theorem live_of_label {x : E} {l : LabelId E} (label : s.compatibilityLabel x = some l) :
    Live B order s l := lab.labels x l label

theorem live_of_labeled {w u : LabelId E} {t : E} {i : Nat} (live : Live B order s w)
    (labeled : (s.arcs w).labeledInArc = some (u, t, i)) :
    w = .forFork t i ∧ s.compatibilityLabel t = some u ∧ allSent B order t i ∧
      (B.successors t).length ≠ 1 := by
  rcases live with (rfl | ⟨t', i', sent, fork, rfl⟩) | ⟨y, join⟩
  · rw [lab.inherited_arcs] at labeled
    cases labeled
  · obtain ⟨l, label, arcs⟩ := lab.fork_arcs t' i' sent fork
    rw [arcs] at labeled
    cases labeled
    exact ⟨rfl, label, sent, fork⟩
  · rw [join.unlabeled] at labeled
    cases labeled

theorem branch_of_unlabeled {w x : LabelId E} (live : Live B order s x)
    (member : w ∈ (s.arcs x).unlabeledInArcs) :
    BranchLabel B (allSent B order) w ∧ ∃ y, JoinLabel B order (allSent B order) s x y := by
  rcases live with branch | ⟨y, join⟩
  · rw [lab.branch_arcs branch] at member
    simp at member
  · exact ⟨join.branches w member, y, join⟩

theorem live_of_inArc {w x : LabelId E} (live : Live B order s x) (arc : InArc s.arcs w x) :
    Live B order s w := by
  rcases arc with member | ⟨t, i, labeled⟩
  · exact Or.inl (branch_of_unlabeled lab live member).1
  · exact live_of_label lab (live_of_labeled lab live labeled).2.1

theorem live_of_reaches {w x : LabelId E} (live : Live B order s x)
    (reaches : LabelReaches s.arcs w x) : Live B order s w := by
  induction reaches using Relation.ReflTransGen.head_induction_on with
  | refl => exact live
  | head arc _ ih => exact live_of_inArc lab ih arc

theorem tokens_of_join_label {l : LabelId E} {y : E}
    (join : JoinLabel B order (allSent B order) s l y) :
    tokens s.arcs l = tokensOf s.arcs (s.arcs l).unlabeledInArcs :=
  tokens_of_join join.nonempty fun u member => lab.branch_arcs (join.branches u member)

theorem exists_token {l : LabelId E} (live : Live B order s l) : ∃ p, p ∈ tokens s.arcs l := by
  have ofBranch : ∀ u, BranchLabel B (allSent B order) u → ∃ p, p ∈ tokens s.arcs u := by
    rintro u branch
    have single := lab.branch_arcs branch
    rcases branch with rfl | ⟨t, i, _, _, rfl⟩
    · exact ⟨.whole, (tokens_of_single single).mpr rfl⟩
    · exact ⟨.branch t i, (tokens_of_single single).mpr rfl⟩
  rcases live with branch | ⟨y, join⟩
  · exact ofBranch l branch
  · obtain ⟨u, member⟩ := List.exists_mem_of_ne_nil _ join.nonempty
    obtain ⟨p, token⟩ := ofBranch u (join.branches u member)
    exact ⟨p, tokens_of_join_label lab join ▸ ⟨u, member, token⟩⟩

end Labels

theorem born_of_live {l : LabelId E} (live : Live B order s l) {p : Token E}
    (token : p ∈ tokens s.arcs l) : (tokenFlow wf isOrder lab).Born order.length p := by
  have ofBranch : ∀ u, BranchLabel B (allSent B order) u → ∀ p ∈ tokens s.arcs u,
      (tokenFlow wf isOrder lab).Born order.length p := by
    rintro u branch p token
    have isToken := (tokens_of_single (lab.branch_arcs branch)).mp token
    rcases branch with rfl | ⟨t, i, sent, fork, rfl⟩
    · obtain rfl := Option.some.inj isToken
      trivial
    · obtain rfl := Option.some.inj isToken
      have wide : 2 ≤ (B.successors t).length := by
        have := sent.2
        omega
      exact ⟨(isOrder.complete t).mp sent.1, List.idxOf_lt_length_of_mem sent.1, sent.2, wide⟩
  rcases live with branch | ⟨y, join⟩
  · exact ofBranch l branch p token
  · rw [tokens_of_join_label lab join] at token
    obtain ⟨u, member, token⟩ := token
    exact ofBranch u (join.branches u member) p token

/-- Each token of a label is broken into, or is, a token of any label below it. -/
theorem below_of_reaches {u v : LabelId E} (live : Live B order s v)
    (reaches : LabelReaches s.arcs u v) : ∀ p ∈ tokens s.arcs u, ∃ q ∈ tokens s.arcs v,
      (tokenFlow wf isOrder lab).Below p q := by
  induction reaches using Relation.ReflTransGen.head_induction_on with
  | refl => exact fun p token => ⟨p, token, Relation.ReflTransGen.refl⟩
  | @head u w arc rest ih =>
      have liveW := live_of_reaches lab live rest
      intro p token
      rcases arc with member | ⟨t, i, labeled⟩
      · obtain ⟨branch, y, join⟩ := branch_of_unlabeled lab liveW member
        exact ih p (tokens_of_join_label lab join ▸ ⟨u, member, token⟩)
      · obtain ⟨rfl, label, sent, fork⟩ := live_of_labeled lab liveW labeled
        have branch : BranchLabel B (allSent B order) (.forFork t i) :=
          Or.inr ⟨t, i, sent, fork, rfl⟩
        obtain ⟨q, tokenQ, below⟩ :=
          ih (.branch t i) ((tokens_of_single (lab.branch_arcs branch)).mpr rfl)
        exact ⟨q, tokenQ, Relation.ReflTransGen.head
          ⟨t, i, rfl, (isOrder.complete t).mp sent.1, u, label, token⟩ below⟩

def Meets (u v : LabelId E) : Prop :=
  ∃ walk, (tokenFlow wf isOrder lab).Walk walk ∧
    (∃ p ∈ tokens s.arcs u, (tokenFlow wf isOrder lab).Covers walk p) ∧
    ∃ q ∈ tokens s.arcs v, (tokenFlow wf isOrder lab).Covers walk q

section Meets
variable {wf isOrder lab}

theorem Meets.symm {u v : LabelId E} (meets : Meets wf isOrder lab u v) :
    Meets wf isOrder lab v u := by
  obtain ⟨walk, full, first, second⟩ := meets
  exact ⟨walk, full, second, first⟩

/-- A token of `u` that is a token of `v` too, or is broken into one, makes them meet. -/
theorem meets_of_below {u v : LabelId E} {p q : Token E} (live : Live B order s v)
    (tokenP : p ∈ tokens s.arcs u) (tokenQ : q ∈ tokens s.arcs v)
    (below : (tokenFlow wf isOrder lab).Below p q) : Meets wf isOrder lab u v := by
  obtain ⟨walk, full, coversP, coversQ⟩ :=
    TokenFlow.exists_walk_of_below below (born_of_live wf isOrder lab live tokenQ)
  exact ⟨walk, full, ⟨p, tokenP, coversP⟩, q, tokenQ, coversQ⟩

theorem meets_of_reaches {u v : LabelId E} (live : Live B order s v)
    (reaches : LabelReaches s.arcs u v) : Meets wf isOrder lab u v := by
  obtain ⟨p, token⟩ := exists_token lab (live_of_reaches lab live reaches)
  obtain ⟨q, tokenQ, below⟩ := below_of_reaches wf isOrder lab live reaches p token
  exact meets_of_below live token tokenQ below

theorem meets_of_forks {u u' w w' d d' : LabelId E} {t t' : E} {i i' : Nat}
    (live : Live B order s d) (live' : Live B order s d')
    (labeled : (s.arcs w).labeledInArc = some (u, t, i))
    (labeled' : (s.arcs w').labeledInArc = some (u', t', i')) (distinct : t ≠ t')
    {p : Token E} (token : p ∈ tokens s.arcs u) (token' : p ∈ tokens s.arcs u')
    (reaches : LabelReaches s.arcs w d) (reaches' : LabelReaches s.arcs w' d') :
    Meets wf isOrder lab d d' := by
  have branchToken : ∀ {w u d : LabelId E} {t : E} {i : Nat}, Live B order s d →
      (s.arcs w).labeledInArc = some (u, t, i) → LabelReaches s.arcs w d →
      s.compatibilityLabel t = some u ∧ t ∈ B.inside ∧ ∃ q ∈ tokens s.arcs d,
        (tokenFlow wf isOrder lab).Below (.branch t i) q := by
    intro w u d t i live labeled reaches
    obtain ⟨rfl, label, sent, fork⟩ :=
      live_of_labeled lab (live_of_reaches lab live reaches) labeled
    have branch : BranchLabel B (allSent B order) (.forFork t i) := Or.inr ⟨t, i, sent, fork, rfl⟩
    obtain ⟨q, tokenQ, below⟩ := below_of_reaches wf isOrder lab live reaches (.branch t i)
      ((tokens_of_single (lab.branch_arcs branch)).mpr rfl)
    exact ⟨label, (isOrder.complete t).mp sent.1, q, tokenQ, below⟩
  obtain ⟨label, inside, q, tokenQ, below⟩ := branchToken live labeled reaches
  obtain ⟨label', inside', q', tokenQ', below'⟩ := branchToken live' labeled' reaches'
  obtain ⟨walk, full, covers, covers'⟩ := TokenFlow.exists_walk_of_breaks
    (F := tokenFlow wf isOrder lab) inside inside' distinct ⟨u, label, token⟩ ⟨u', label', token'⟩
    below below' (born_of_live wf isOrder lab live tokenQ) (born_of_live wf isOrder lab live' tokenQ')
  exact ⟨walk, full, ⟨q, tokenQ, covers⟩, q', tokenQ', covers'⟩

theorem precedes_of_meets {a b : E} {u v : LabelId E} (insideA : a ∈ B.vertices)
    (insideB : b ∈ B.vertices) (labelA : s.compatibilityLabel a = some u)
    (labelB : s.compatibilityLabel b = some v) (meets : Meets wf isOrder lab u v) :
    B.Precedes a b ∨ B.Precedes b a := by
  obtain ⟨walk, full, ⟨p, tokenP, coversP⟩, q, tokenQ, coversQ⟩ := meets
  exact TokenFlow.joined_of_common_walk (F := tokenFlow wf isOrder lab) insideA insideB full
    ⟨u, labelA, tokenP⟩ ⟨v, labelB, tokenQ⟩ coversP coversQ

end Meets

end Live

section Descendents
variable {below : LabelId E → LabelId E → Bool} {next : LabelId E → List (LabelId E)}

theorem mem_foldl_insertPointers {α : Type} {below : LabelId E → LabelId E → Bool}
    {f : α → List (LabelId E)} {l : LabelId E} : ∀ (items : List α) (set : List (LabelId E)),
      l ∈ items.foldl (fun set w => insertPointers below set (f w)) set ↔
        l ∈ set ∨ ∃ w ∈ items, l ∈ f w := by
  intro items
  induction items with
  | nil => simp
  | cons w rest ih =>
      intro set
      rw [List.foldl_cons, ih, mem_insertPointers]
      simp only [List.mem_cons, exists_eq_or_imp, or_assoc]

theorem mem_recordDescendents {d : LabelId E → List (LabelId E)} {u w v : LabelId E} :
    v ∈ LabelGraph.recordDescendents below next d u w ↔
      v ∈ d w ∨ (w = u ∧ (v = u ∨ ∃ y ∈ next u, v ∈ d y)) := by
  unfold LabelGraph.recordDescendents
  split_ifs with same
  · subst same
    rw [mem_foldl_insertPointers, mem_insertPointer]
    simp only [true_and]
    tauto
  · simp [same]

/-- What is recorded as descendant of `w` is `w` or is recorded for a successor of `w`. -/
def RecordedThrough (next d : LabelId E → List (LabelId E)) : Prop :=
  ∀ w, ∀ v ∈ d w, v = w ∨ ∃ y ∈ next w, v ∈ d y

theorem recordedThrough_fold : ∀ (order : List (LabelId E)) (d : LabelId E → List (LabelId E)),
    RecordedThrough next d →
    RecordedThrough next (order.foldl (LabelGraph.recordDescendents below next) d) := by
  intro order
  induction order with
  | nil => exact fun _ through => through
  | cons u rest ih =>
      intro d through
      refine ih _ ?_
      intro w v member
      have grows : ∀ y, v ∈ d y → v ∈ LabelGraph.recordDescendents below next d u y :=
        fun y old => mem_recordDescendents.mpr (Or.inl old)
      rcases mem_recordDescendents.mp member with old | ⟨rfl, rfl | ⟨y, isNext, old⟩⟩
      · rcases through w v old with same | ⟨y, isNext, old⟩
        · exact Or.inl same
        · exact Or.inr ⟨y, isNext, grows y old⟩
      · exact Or.inl rfl
      · exact Or.inr ⟨y, isNext, grows y old⟩

theorem reaches_of_fold {arcs : LabelId E → LabelArcs E}
    (isArc : ∀ u, ∀ w ∈ next u, InArc arcs u w) :
    ∀ (order : List (LabelId E)) (d : LabelId E → List (LabelId E)),
      (∀ u, ∀ v ∈ d u, LabelReaches arcs u v) →
      ∀ u, ∀ v ∈ order.foldl (LabelGraph.recordDescendents below next) d u, LabelReaches arcs u v := by
  intro order
  induction order with
  | nil => exact fun _ sound => sound
  | cons u rest ih =>
      intro d sound
      refine ih _ ?_
      intro w v member
      rcases mem_recordDescendents.mp member with old | ⟨rfl, rfl | ⟨y, isNext, old⟩⟩
      · exact sound w v old
      · exact Relation.ReflTransGen.refl
      · exact Relation.ReflTransGen.head (isArc w y isNext) (sound y v old)

structure Recorded (s : LabelState E) (g : LabelGraph E) : Prop where
  arcs : g.arcs = s.arcs
  labels : g.labels = s.labelSet
  reaches : ∀ u, ∀ v ∈ g.descendentMap u, LabelReaches s.arcs u v
  through : RecordedThrough (LabelGraph.successors s.arcs s.labelSet) g.descendentMap

theorem inArc_of_successor {arcs : LabelId E → LabelArcs E} {labels : List (LabelId E)}
    {u w : LabelId E} (isNext : w ∈ LabelGraph.successors arcs labels u) : InArc arcs u w :=
  LabelArcs.inArc_of_comesFrom (List.mem_filter.mp isNext).2

theorem recorded_of_connect {s : LabelState E} {g : LabelGraph E} {fuel : Nat}
    (run : LabelGraph.connect below fuel s = some g) :
    Recorded s g ∧ ∀ u, g.compatibleMap u = [] := by
  rw [LabelGraph.connect.eq_def] at run
  split at run
  · split at run
    · cases run
    · obtain rfl := Option.some.inj run
      refine ⟨⟨rfl, rfl, ?_, ?_⟩, fun _ => rfl⟩
      · exact reaches_of_fold (fun _ _ => inArc_of_successor) _ _ (by simp)
      · exact recordedThrough_fold _ _ (by simp [RecordedThrough])
  · cases run

end Descendents

section LookBack
variable {below : LabelId E → LabelId E → Bool} {g : LabelGraph E} {v : LabelId E}

theorem lookBackUnlabeled_true
    {further : LabelId E → List (LabelId E) → Option (Bool × List (LabelId E))} :
    ∀ (unlabeled visited visited' : List (LabelId E)),
      LabelGraph.lookBackUnlabeled below g.descendentMap v further unlabeled visited =
        some (true, visited') →
      ∃ upred ∈ unlabeled, v ∈ g.descendentMap upred ∨
        (v ∉ g.descendentMap upred ∧ ∃ seen seen', further upred seen = some (true, seen')) := by
  intro unlabeled
  induction unlabeled with
  | nil =>
      intro visited visited' run
      cases run
  | cons upred rest ih =>
      intro visited visited' run
      have later : ∀ seen, LabelGraph.lookBackUnlabeled below g.descendentMap v further rest seen =
          some (true, visited') → ∃ w ∈ upred :: rest, v ∈ g.descendentMap w ∨
          (v ∉ g.descendentMap w ∧ ∃ seen seen', further w seen = some (true, seen')) := by
        intro seen run
        obtain ⟨w, member, found⟩ := ih seen visited' run
        exact ⟨w, List.mem_cons_of_mem _ member, found⟩
      rw [LabelGraph.lookBackUnlabeled] at run
      split_ifs at run with old here
      · exact later _ run
      · exact ⟨upred, List.mem_cons_self, Or.inl here⟩
      · split at run
        · cases run
        · next found => exact ⟨upred, List.mem_cons_self, Or.inr ⟨here, _, _, found⟩⟩
        · exact later _ run

/-- Looking back succeeds at a label above the start that does not lie above `v`
but has an unlabeled in-arc from one that does. -/
theorem lookBack_true : ∀ (fuel : Nat) (u : LabelId E) (visited visited' : List (LabelId E)),
    g.lookBack below v fuel u visited = some (true, visited') → v ∉ g.descendentMap u →
    ∃ w w', LabelReaches g.arcs w' u ∧ v ∉ g.descendentMap w' ∧
      w ∈ (g.arcs w').unlabeledInArcs ∧ v ∈ g.descendentMap w := by
  intro fuel
  induction fuel with
  | zero =>
      intro u visited visited' run
      cases run
  | succ fuel ih =>
      intro u visited visited' run apart
      rw [LabelGraph.lookBack] at run
      split at run
      · cases run
      · next found =>
          obtain ⟨upred, member, here | ⟨apart', seen, seen', further⟩⟩ :=
            lookBackUnlabeled_true _ _ _ found
          · exact ⟨upred, u, Relation.ReflTransGen.refl, apart, member, here⟩
          · obtain ⟨w, w', reaches, rest⟩ := ih upred seen seen' further apart'
            exact ⟨w, w', reaches.tail (Or.inl member), rest⟩
      · split at run
        · cases run
        · next lpred t i labeled =>
            split_ifs at run with above
            · cases run
            · obtain ⟨w, w', reaches, rest⟩ := ih lpred _ _ run above
              exact ⟨w, w', reaches.tail (Or.inr ⟨t, i, labeled⟩), rest⟩

end LookBack

section Update
variable {B : CPForkBlock E} {order : List E} {s : LabelState E} {wf : B.WellFormed}
  {isOrder : B.IsPrecedenceOrder order}
  {lab : Labelled B (placeIn order) order (allSent B order) s} {g : LabelGraph E}

/-- The arc by which a label below a join label hangs is a fork arc. -/
theorem first_arc_of_join (lab : Labelled B (placeIn order) order (allSent B order) s)
    {w' u : LabelId E} {y : E}
    (join : JoinLabel B order (allSent B order) s w' y) (live : Live B order s u)
    (reaches : LabelReaches s.arcs w' u) :
    u = w' ∨ ∃ x t i, (s.arcs x).labeledInArc = some (w', t, i) ∧ LabelReaches s.arcs x u := by
  rcases Relation.ReflTransGen.cases_head reaches with same | ⟨x, arc, rest⟩
  · exact Or.inl same.symm
  · rcases arc with member | ⟨t, i, labeled⟩
    · have branch := (branch_of_unlabeled lab (live_of_reaches lab live rest) member).1
      exact absurd (lab.branch_arcs branch) join.nonempty
    · exact Or.inr ⟨x, t, i, labeled, rest⟩

theorem meets_of_lookBack (recorded : Recorded s g) {u v w w' : LabelId E}
    (liveU : Live B order s u) (liveV : Live B order s v) (reaches : LabelReaches s.arcs w' u)
    (apart : v ∉ g.descendentMap w') (member : w ∈ (s.arcs w').unlabeledInArcs)
    (above : v ∈ g.descendentMap w) : Meets wf isOrder lab u v := by
  obtain ⟨branch, y, join⟩ := branch_of_unlabeled lab (live_of_reaches lab liveU reaches) member
  obtain ⟨p, token⟩ := exists_token lab (Or.inl branch)
  have joins : p ∈ tokens s.arcs w' := tokens_of_join_label lab join ▸ ⟨w, member, token⟩
  have single := lab.branch_arcs branch
  rcases recorded.through w v above with rfl | ⟨y1, isNext, fromNext⟩
  · exact (meets_of_reaches liveU (reaches.head (Or.inl member))).symm
  have other : y1 ≠ w' := by
    rintro rfl
    exact apart fromNext
  have reachesV := recorded.reaches y1 v fromNext
  have liveNext := live_of_reaches lab liveV reachesV
  rcases first_arc_of_join lab join liveU reaches with rfl | ⟨x, t, i, labeled, rest⟩
  · obtain ⟨q, tokenQ, below⟩ := below_of_reaches wf isOrder lab liveV
      (recorded.reaches w v above) p token
    exact meets_of_below liveV joins tokenQ below
  -- the two labels hang below different forks that share the token of `w`
  have distinct : ∀ {z m : LabelId E} {t' : E} {i' : Nat}, Live B order s z →
      (s.arcs z).labeledInArc = some (m, t', i') → m ≠ w' → t ≠ t' := by
    rintro z m t' i' live labeled' otherM rfl
    have label := (live_of_labeled lab (live_of_reaches lab liveU rest) labeled).2.1
    have label' := (live_of_labeled lab live labeled').2.1
    rw [label] at label'
    exact otherM (Option.some.inj label').symm
  rcases inArc_of_successor isNext with memberNext | ⟨t', i', labeled'⟩
  · obtain ⟨_, y', join'⟩ := branch_of_unlabeled lab liveNext memberNext
    have joins' : p ∈ tokens s.arcs y1 := tokens_of_join_label lab join' ▸ ⟨w, memberNext, token⟩
    rcases first_arc_of_join lab join' liveV reachesV with rfl | ⟨x', t', i', labeled', rest'⟩
    · obtain ⟨q, tokenQ, below⟩ := below_of_reaches wf isOrder lab liveU reaches p joins
      exact (meets_of_below liveU joins' tokenQ below).symm
    · exact meets_of_forks liveU liveV labeled labeled'
        (distinct (live_of_reaches lab liveV rest') labeled' other) joins joins' rest rest'
  · refine meets_of_forks liveU liveV labeled labeled' (distinct liveNext labeled' ?_) joins token
      rest reachesV
    rintro rfl
    exact join.nonempty single

def PairsMeet (wf : B.WellFormed) (isOrder : B.IsPrecedenceOrder order)
    (lab : Labelled B (placeIn order) order (allSent B order) s) (g : LabelGraph E) : Prop :=
  ∀ u, ∀ v ∈ g.compatibleMap u, Live B order s u → Live B order s v → Meets wf isOrder lab u v

theorem meets_of_areCompatible (recorded : Recorded s g) (pairs : PairsMeet wf isOrder lab g)
    {u v : LabelId E} (liveU : Live B order s u) (liveV : Live B order s v)
    (compatible : g.areCompatible u v = true) : Meets wf isOrder lab u v := by
  simp only [LabelGraph.areCompatible, Bool.or_eq_true, decide_eq_true_eq] at compatible
  rcases compatible with (((rfl | below) | above) | pair) | pair
  · exact meets_of_reaches liveV Relation.ReflTransGen.refl
  · exact meets_of_reaches liveV (recorded.reaches u v below)
  · exact (meets_of_reaches liveU (recorded.reaches v u above)).symm
  · exact pairs u v pair liveU liveV
  · exact (pairs v u pair liveV liveU).symm

structure Updating (wf : B.WellFormed) (isOrder : B.IsPrecedenceOrder order)
    (lab : Labelled B (placeIn order) order (allSent B order) s) (g : LabelGraph E) : Prop where
  recorded : Recorded s g
  pairs : PairsMeet wf isOrder lab g

theorem Updating.recordCompatible {below : LabelId E → LabelId E → Bool}
    (updating : Updating wf isOrder lab g) {u v : LabelId E}
    (meets : Live B order s u → Live B order s v → Meets wf isOrder lab u v) :
    Updating wf isOrder lab (g.recordCompatible below u v) := by
  refine ⟨⟨updating.recorded.arcs, updating.recorded.labels, updating.recorded.reaches,
    updating.recorded.through⟩, ?_⟩
  intro a b member liveA liveB
  simp only [LabelGraph.recordCompatible] at member
  split_ifs at member with same
  · subst same
    rcases (mem_insertPointer below).mp member with rfl | old
    · exact meets liveA liveB
    · exact updating.pairs a b old liveA liveB
  · exact updating.pairs a b member liveA liveB

theorem Updating.markAsCompatible {below : LabelId E → LabelId E → Bool} {vset : List (LabelId E)} :
    ∀ (uset : List (LabelId E)) (g : LabelGraph E), Updating wf isOrder lab g →
      (∀ u ∈ uset, ∀ v ∈ vset, Live B order s u → Live B order s v → Meets wf isOrder lab u v) →
      Updating wf isOrder lab (g.markAsCompatible below uset vset) := by
  have inner : ∀ (u : LabelId E) (vset : List (LabelId E)) (g : LabelGraph E),
      Updating wf isOrder lab g →
      (∀ v ∈ vset, Live B order s u → Live B order s v → Meets wf isOrder lab u v) →
      Updating wf isOrder lab (vset.foldl (fun g v => g.recordCompatible below u v) g) := by
    intro u vset
    induction vset with
    | nil => exact fun _ updating _ => updating
    | cons v rest ih =>
        intro g updating meets
        exact ih _ (updating.recordCompatible (meets v List.mem_cons_self))
          (fun v' member => meets v' (List.mem_cons_of_mem _ member))
  intro uset
  induction uset with
  | nil => exact fun _ updating _ => updating
  | cons u rest ih =>
      intro g updating meets
      exact ih _ (inner u vset g updating (meets u List.mem_cons_self))
        (fun u' member => meets u' (List.mem_cons_of_mem _ member))

theorem mem_forkMap {below : LabelId E → LabelId E → Bool} (recorded : Recorded s g)
    {u d : LabelId E} {t : E} (member : d ∈ g.forkMap below u t) :
    ∃ w i, (s.arcs w).labeledInArc = some (u, t, i) ∧ LabelReaches s.arcs w d := by
  have scan : ∀ (labels set : List (LabelId E)),
      d ∈ labels.foldl (fun set w =>
        if (g.arcs w).labeledInArc.map (fun arc => arc.2.1) = some t then
          insertPointers below (insertPointer below w set) (g.descendentMap w)
        else set) set →
      d ∈ set ∨ ∃ w ∈ labels, (g.arcs w).labeledInArc.map (fun arc => arc.2.1) = some t ∧
        (d = w ∨ d ∈ g.descendentMap w) := by
    intro labels
    induction labels with
    | nil => exact fun set member => Or.inl member
    | cons w rest ih =>
        intro set member
        rw [List.foldl_cons] at member
        rcases ih _ member with inSet | ⟨w', inRest, found⟩
        · split_ifs at inSet with isFork
          · rcases (mem_insertPointers below).mp inSet with inSet | inMap
            · rcases (mem_insertPointer below).mp inSet with same | inSet
              · exact Or.inr ⟨w, List.mem_cons_self, isFork, Or.inl same⟩
              · exact Or.inl inSet
            · exact Or.inr ⟨w, List.mem_cons_self, isFork, Or.inr inMap⟩
          · exact Or.inl inSet
        · exact Or.inr ⟨w', List.mem_cons_of_mem _ inRest, found⟩
  rcases scan _ _ member with none | ⟨w, isNext, isFork, found⟩
  · simp at none
  · rw [recorded.arcs, recorded.labels] at isNext
    rw [recorded.arcs] at isFork
    obtain ⟨⟨m, t', i⟩, labeled, isT⟩ := Option.map_eq_some_iff.mp isFork
    have comes := (List.mem_filter.mp isNext).2
    simp only [LabelArcs.comesFrom, labeled, decide_eq_true_eq] at comes
    simp only at isT
    refine ⟨w, i, by rw [labeled, comes, isT], ?_⟩
    rcases found with rfl | inMap
    · exact Relation.ReflTransGen.refl
    · exact recorded.reaches w d inMap

theorem Updating.markForkPairs {below : LabelId E → LabelId E → Bool} {u : LabelId E} :
    ∀ (forks : List E) (g : LabelGraph E), forks.Nodup → Updating wf isOrder lab g →
      Updating wf isOrder lab (LabelGraph.markForkPairs below u forks g) := by
  have inner : ∀ (t : E) (later : List E) (g : LabelGraph E), t ∉ later →
      Updating wf isOrder lab g →
      Updating wf isOrder lab (later.foldl (fun g t' => g.markAsCompatible below
        (g.forkMap below u t) (g.forkMap below u t')) g) := by
    intro t later
    induction later with
    | nil => exact fun _ _ updating => updating
    | cons t' rest ih =>
        intro g fresh updating
        simp only [List.mem_cons, not_or] at fresh
        refine ih _ fresh.2 (Updating.markAsCompatible _ g updating ?_)
        intro d inMap d' inMap' live live'
        obtain ⟨w, i, labeled, reaches⟩ := mem_forkMap updating.recorded inMap
        obtain ⟨w', i', labeled', reaches'⟩ := mem_forkMap updating.recorded inMap'
        have liveU := live_of_inArc lab (live_of_reaches lab live reaches) (Or.inr ⟨t, i, labeled⟩)
        obtain ⟨p, token⟩ := exists_token lab liveU
        exact meets_of_forks live live' labeled labeled' fresh.1 token token reaches reaches'
  intro forks
  induction forks with
  | nil => exact fun _ _ updating => updating
  | cons t later ih =>
      intro g nodup updating
      obtain ⟨fresh, nodup⟩ := List.nodup_cons.mp nodup
      exact ih _ nodup (inner t later g fresh updating)

theorem Updating.updatePair {below : LabelId E → LabelId E → Bool} {g' : LabelGraph E}
    (updating : Updating wf isOrder lab g) {fuel : Nat} {u v : LabelId E}
    (run : g.updatePair below fuel u v = some g') : Updating wf isOrder lab g' := by
  rw [LabelGraph.updatePair] at run
  split_ifs at run with compatible
  · exact Option.some.inj run ▸ updating
  · have apart : v ∉ g.descendentMap u := by
      intro member
      simp [LabelGraph.areCompatible, member] at compatible
    split at run
    · cases run
    · next found =>
        obtain ⟨w, w', reaches, apart', member, above⟩ := lookBack_true fuel u _ _ found apart
        rw [updating.recorded.arcs] at reaches member
        refine Option.some.inj run ▸ updating.recordCompatible fun liveU liveV => ?_
        exact meets_of_lookBack updating.recorded liveU liveV reaches apart' member above
    · exact Option.some.inj run ▸ updating

theorem Updating.updateAgainst {below : LabelId E → LabelId E → Bool} {fuel : Nat} {u : LabelId E} :
    ∀ (rest : List (LabelId E)) (g g' : LabelGraph E), Updating wf isOrder lab g →
      LabelGraph.updateAgainst below fuel u rest g = some g' → Updating wf isOrder lab g' := by
  intro rest
  induction rest with
  | nil => exact fun g g' updating run => Option.some.inj run ▸ updating
  | cons v rest ih =>
      intro g g' updating run
      rw [LabelGraph.updateAgainst] at run
      split at run
      · cases run
      · next g1 pair => exact ih g1 g' (updating.updatePair pair) run

theorem Updating.updatePairs {below : LabelId E → LabelId E → Bool} {fuel : Nat} :
    ∀ (labels : List (LabelId E)) (g g' : LabelGraph E), Updating wf isOrder lab g →
      LabelGraph.updatePairs below fuel labels g = some g' → Updating wf isOrder lab g' := by
  intro labels
  induction labels with
  | nil => exact fun g g' updating run => Option.some.inj run ▸ updating
  | cons u rest ih =>
      intro g g' updating run
      rw [LabelGraph.updatePairs] at run
      split at run
      · cases run
      · next g1 against => exact ih g1 g' (Updating.updateAgainst rest g g1 updating against) run

theorem Updating.updateCompatibilityMap {addr : Addresses E} {fuel : Nat} {g' : LabelGraph E}
    (updating : Updating wf isOrder lab g)
    (run : g.updateCompatibilityMap addr fuel = some g') : Updating wf isOrder lab g' := by
  have marks : ∀ (labels : List (LabelId E)) (g : LabelGraph E), Updating wf isOrder lab g →
      Updating wf isOrder lab (labels.foldl (fun g u =>
        LabelGraph.markForkPairs addr.label u (g.forksBelow addr u) g) g) := by
    intro labels
    induction labels with
    | nil => exact fun _ updating => updating
    | cons u rest ih =>
        intro g updating
        exact ih _ (Updating.markForkPairs _ g
          (nodup_insertPointers addr.element List.nodup_nil) updating)
  exact Updating.updatePairs _ _ g' (marks g.labels g updating) run

end Update

/-- After `Compute_Compatibility_Labels` elements with compatible labels are
ordered by a directed path of the block. -/
theorem compatible_elements_ordered (addr : Addresses E) (sub : SubBlockLabels E)
    (B : CPForkBlock E) (wf : B.WellFormed) (separate : sub.Separate B) (fuel : Nat)
    (r : CompatibilityResult E) (run : computeCompatibilityLabels addr sub B fuel = some r)
    (a b : E) (insideA : a ∈ B.vertices) (insideB : b ∈ B.vertices)
    (compatible : r.compatibleElements a b = true) : B.Precedes a b ∨ B.Precedes b a := by
  rw [computeCompatibilityLabels.eq_def] at run
  split at run
  · cases run
  next s labelled =>
    obtain ⟨order, isOrder, lab⟩ := computeForkBlockLabels_spec wf separate labelled
    split at run
    · cases run
    next g connected =>
      obtain ⟨recorded, empty⟩ := recorded_of_connect connected
      split at run
      · cases run
      next g' updated =>
        obtain rfl := Option.some.inj run
        have start : Updating wf isOrder lab g :=
          ⟨recorded, fun u v member => by simp [empty] at member⟩
        have updating := start.updateCompatibilityMap updated
        obtain ⟨u, labelA⟩ := Option.ne_none_iff_exists'.mp
          ((lab.visited a).mpr ((isOrder.complete a).mpr insideA))
        obtain ⟨v, labelB⟩ := Option.ne_none_iff_exists'.mp
          ((lab.visited b).mpr ((isOrder.complete b).mpr insideB))
        simp only [CompatibilityResult.compatibleElements, labelA, labelB] at compatible
        exact precedes_of_meets insideA insideB labelA labelB
          (meets_of_areCompatible updating.recorded updating.pairs
            (live_of_label lab labelA) (live_of_label lab labelB) compatible)

def diamondAddresses : Addresses (Fin 4) where
  element := fun a b => a < b
  label := fun l m => match l, m with
    | .inherited, _ => true
    | .forElement a, .forElement b => a < b
    | .forFork a i, .forFork b j => a < b || (a = b && i < j)
    | .forFork _ _, .forElement _ => true
    | _, _ => false

def noSubBlocks : SubBlockLabels (Fin 4) := fun _ _ => []

def diamondResult : Option (CompatibilityResult (Fin 4)) :=
  computeCompatibilityLabels diamondAddresses noSubBlocks diamond 8

theorem diamondResult_isSome : diamondResult.isSome = true := by decide +kernel

theorem compatible_elements_ordered_diamond :
    (diamondResult.get diamondResult_isSome).compatibleElements 1 3 = true ∧
      (diamond.Precedes 1 3 ∨ diamond.Precedes 3 1) := by
  have compatible : (diamondResult.get diamondResult_isSome).compatibleElements 1 3 = true := by
    decide +kernel
  have separate : noSubBlocks.Separate diamond := by
    intro e l made member
    cases member
  exact ⟨compatible, compatible_elements_ordered diamondAddresses noSubBlocks diamond
    diamond_wellFormed separate 8 _ (Option.some_get _).symm 1 3 (by decide) (by decide) compatible⟩

end Ahir.ControlPath
