import Ahir.Graph.Shortcut
import Ahir.ControlPath.ForkPoints

/-!
# The redundant pairs found by the depth first search

When `DFS_Order` discovers `v` from `u`, every other predecessor of `v` that is
still on the queue makes a redundant pair with `v`: the queue leads from it to
`u` and on to `v`.  The links of the queue are tree links, and a tree link is
never itself one of the pairs.
-/

set_option autoImplicit false

namespace Ahir.ControlPath.CPForkBlock
open Ahir.Graph
variable {E : Type} [DecidableEq E] (B : CPForkBlock E)

/-- What `DFS_Order` works on; the elements on the queue are those of the queue
set, the front of the queue comes first. -/
structure DfsState (E : Type) where
  queue : List E
  visited : List E
  ordered : List E
  cycleFlag : Bool
  redundantPairs : List (E × E)

/-- `DFS_Forward_Edge_Action`, not reversed. -/
def dfsForwardEdgeAction (queue : List E) (u v : E) : List (E × E) :=
  ((B.predecessors v).filter (fun w => w ≠ u ∧ w ∈ queue)).map (fun w => (w, v))

/-- `w` is discovered from `top` and pushed on the queue. -/
def discover (s : DfsState E) (top w : E) : DfsState E where
  queue := w :: s.queue
  visited := w :: s.visited
  ordered := s.ordered ++ [w]
  cycleFlag := s.cycleFlag
  redundantPairs := s.redundantPairs ++ B.dfsForwardEdgeAction s.queue top w

/-- The loop over the neighbours of `top`: the first one that has not been
visited is pushed, without one `top` is popped. -/
def dfsScan (top : E) : List E → DfsState E → DfsState E
  | [], s => { s with queue := s.queue.tail }
  | w :: adj, s =>
      if w ∈ s.queue then dfsScan top adj { s with cycleFlag := true }
      else if w ∈ s.visited then dfsScan top adj s
      else B.discover s top w

def dfsLoop : Nat → DfsState E → Option (DfsState E)
  | 0, s => if s.queue = [] then some s else none
  | fuel + 1, s =>
      match s.queue with
      | [] => some s
      | top :: _ => dfsLoop fuel (B.dfsScan top (B.successors top) s)

/-- `DFS_Order` from the entry. -/
def dfsOrder (fuel : Nat) : Option (DfsState E) :=
  B.dfsLoop fuel ⟨[B.entry], [B.entry], [B.entry], false, []⟩

variable {B}

/-- The link by which `b` was discovered. -/
def TreeLink (B : CPForkBlock E) (s : DfsState E) (parent : E → E) (a b : E) : Prop :=
  B.Arc a b ∧ b ∈ s.visited ∧ b ≠ B.entry ∧ parent b = a

/-- What the search keeps; `parent` tells from where an element was discovered. -/
structure Searching (B : CPForkBlock E) (s : DfsState E) (parent : E → E) : Prop where
  inside : ∀ x ∈ s.visited, x ∈ B.vertices
  nodup : s.visited.Nodup
  started : B.entry ∈ s.visited
  queued : ∀ x ∈ s.queue, x ∈ s.visited
  queue_links : s.queue.IsChain (fun b a => TreeLink B s parent a b)
  pairs : ∀ pair ∈ s.redundantPairs, pair.1 ≠ parent pair.2 ∧ pair.2 ∈ s.visited ∧
    Relation.ReflTransGen (TreeLink B s parent) pair.1 pair.2

omit [DecidableEq E] in
theorem Searching.start : Searching B ⟨[B.entry], [B.entry], [B.entry], false, []⟩ id := by
  refine ⟨?_, by simp, by simp, by simp, List.IsChain.singleton _, by simp⟩
  intro x member
  rw [List.mem_singleton.mp member]
  exact entry_mem

omit [DecidableEq E] in
theorem TreeLink.mono {s s' : DfsState E} {parent parent' : E → E}
    (more : ∀ x ∈ s.visited, x ∈ s'.visited) (same : ∀ x ∈ s.visited, parent' x = parent x) {a b : E}
    (link : TreeLink B s parent a b) : TreeLink B s' parent' a b :=
  ⟨link.1, more b link.2.1, link.2.2.1, (same b link.2.1).trans link.2.2.2⟩

omit [DecidableEq E] in
theorem reaches_front {link : E → E → Prop} : ∀ {queue : List E} {top : E},
    (top :: queue).IsChain (fun b a => link a b) → ∀ x ∈ top :: queue,
      Relation.ReflTransGen link x top := by
  intro queue
  induction queue with
  | nil =>
      intro top _ x member
      rw [List.mem_singleton.mp member]
  | cons next rest ih =>
      intro top chain x member
      rw [List.isChain_cons_cons] at chain
      rcases List.mem_cons.mp member with rfl | member
      · exact Relation.ReflTransGen.refl
      · exact (ih chain.2 x member).tail chain.1

theorem Searching.push (linked : B.Linked) {s : DfsState E} {parent : E → E}
    (searching : Searching B s parent) {top w : E} {rest : List E} (front : s.queue = top :: rest)
    (isNext : w ∈ B.successors top) (fresh : w ∉ s.visited) :
    Searching B (B.discover s top w) (fun x => if x = w then top else parent x) := by
  have topVisited : top ∈ s.visited := searching.queued top (by simp [front])
  have topInside := searching.inside top topVisited
  have other : ∀ x ∈ s.visited, x ≠ w := by
    rintro x visited rfl
    exact fresh visited
  have grows : ∀ a b, TreeLink B s parent a b →
      TreeLink B (B.discover s top w) (fun x => if x = w then top else parent x) a b := by
    intro a b link
    exact link.mono (fun x => List.mem_cons_of_mem w) (fun x visited => if_neg (other x visited))
  have newLink : TreeLink B (B.discover s top w) (fun x => if x = w then top else parent x) top w := by
    refine ⟨⟨topInside, isNext⟩, List.mem_cons_self, ?_, if_pos rfl⟩
    rintro rfl
    exact fresh searching.started
  have chain := searching.queue_links.imp fun b a => grows a b
  refine ⟨?_, List.nodup_cons.mpr ⟨fresh, searching.nodup⟩,
    List.mem_cons_of_mem w searching.started, ?_, ?_, ?_⟩
  · intro x member
    rcases List.mem_cons.mp member with rfl | member
    · exact linked.successors_inside top topInside x isNext
    · exact searching.inside x member
  · intro x member
    rcases List.mem_cons.mp member with rfl | member
    · exact List.mem_cons_self
    · exact List.mem_cons_of_mem w (searching.queued x member)
  · rw [front] at chain
    rw [discover, front]
    exact List.isChain_cons_cons.mpr ⟨newLink, chain⟩
  · intro pair member
    rcases List.mem_append.mp member with member | member
    · obtain ⟨notParent, visited, path⟩ := searching.pairs pair member
      refine ⟨?_, List.mem_cons_of_mem w visited, Relation.ReflTransGen.mono grows _ _ path⟩
      rw [if_neg (other _ visited)]
      exact notParent
    · obtain ⟨z, isPrev, rfl⟩ := List.mem_map.mp member
      have both := (List.mem_filter.mp isPrev).2
      simp only [ne_eq, decide_eq_true_eq] at both
      refine ⟨?_, List.mem_cons_self, ?_⟩
      · rw [if_pos rfl]
        exact both.1
      · rw [front] at chain both
        exact (reaches_front chain z both.2).tail newLink

theorem Searching.scan (linked : B.Linked) {parent : E → E} {top : E} {rest : List E} :
    ∀ (adj : List E) (s : DfsState E), (∀ w ∈ adj, w ∈ B.successors top) →
      s.queue = top :: rest → Searching B s parent →
      ∃ parent', Searching B (B.dfsScan top adj s) parent' := by
  intro adj
  induction adj with
  | nil =>
      intro s _ front searching
      refine ⟨parent, searching.inside, searching.nodup, searching.started, ?_, ?_, searching.pairs⟩
      · exact fun x member => searching.queued x (List.mem_of_mem_tail member)
      · exact searching.queue_links.tail
  | cons w adj ih =>
      intro s isNext front searching
      have isNext' : ∀ x ∈ adj, x ∈ B.successors top :=
        fun x member => isNext x (List.mem_cons_of_mem w member)
      rw [dfsScan]
      split_ifs with onQueue visited
      · apply ih { s with cycleFlag := true } isNext' front
        exact ⟨searching.inside, searching.nodup, searching.started, searching.queued,
          searching.queue_links, searching.pairs⟩
      · exact ih s isNext' front searching
      · exact ⟨_, searching.push linked front (isNext w List.mem_cons_self) visited⟩

theorem Searching.loop (linked : B.Linked) : ∀ (fuel : Nat) (s s' : DfsState E) (parent : E → E),
    Searching B s parent → B.dfsLoop fuel s = some s' → ∃ parent', Searching B s' parent' := by
  intro fuel
  induction fuel with
  | zero =>
      intro s s' parent searching run
      rw [dfsLoop] at run
      split_ifs at run
      exact ⟨parent, Option.some.inj run ▸ searching⟩
  | succ fuel ih =>
      intro s s' parent searching run
      rw [dfsLoop] at run
      split at run
      · exact ⟨parent, Option.some.inj run ▸ searching⟩
      · next top rest front =>
          obtain ⟨parent', searching'⟩ :=
            Searching.scan linked (B.successors top) s (fun _ => id) front searching
          exact ih _ s' parent' searching' run

theorem dfsScan_measure {top : E} {rest : List E} : ∀ (adj : List E) (s : DfsState E),
    s.queue = top :: rest →
    (B.dfsScan top adj s).visited.length = s.visited.length ∧
        (B.dfsScan top adj s).queue.length + 1 = s.queue.length ∨
      (B.dfsScan top adj s).visited.length = s.visited.length + 1 ∧
        (B.dfsScan top adj s).queue.length = s.queue.length + 1 := by
  intro adj
  induction adj with
  | nil =>
      intro s front
      left
      simp [dfsScan, front]
  | cons w adj ih =>
      intro s front
      rw [dfsScan]
      split_ifs
      · exact ih { s with cycleFlag := true } front
      · exact ih s front
      · right
        simp [discover]

theorem dfsLoop_total (linked : B.Linked) : ∀ (fuel : Nat) (s : DfsState E) (parent : E → E),
    Searching B s parent →
    2 * B.vertices.length + s.queue.length ≤ fuel + 2 * s.visited.length →
    ∃ s', B.dfsLoop fuel s = some s' := by
  intro fuel
  induction fuel with
  | zero =>
      intro s parent searching enough
      have visited := (searching.nodup.subperm searching.inside).length_le
      have empty : s.queue = [] := List.length_eq_zero_iff.mp (by omega)
      exact ⟨s, by rw [dfsLoop, if_pos empty]⟩
  | succ fuel ih =>
      intro s parent searching enough
      rw [dfsLoop]
      split
      · exact ⟨s, rfl⟩
      · next top rest front =>
          obtain ⟨parent', searching'⟩ :=
            Searching.scan linked (B.successors top) s (fun _ => id) front searching
          apply ih _ parent' searching'
          rcases dfsScan_measure (B := B) (B.successors top) s front with ⟨same, shorter⟩ | ⟨more, longer⟩
          · omega
          · omega

theorem dfsOrder_total (linked : B.Linked) {fuel : Nat} (enough : 2 * B.vertices.length ≤ fuel + 1) :
    ∃ s, B.dfsOrder fuel = some s := by
  apply dfsLoop_total linked fuel _ id Searching.start
  simp only [List.length_singleton]
  omega

/-- The pairs can be done without: tree links lead from the one to the other,
and no tree link is a pair. -/
theorem redundantPairs_justified (linked : B.Linked) {fuel : Nat} {s : DfsState E}
    (run : B.dfsOrder fuel = some s) :
    ∀ pair ∈ s.redundantPairs, Relation.ReflTransGen
      (fun a b => B.Arc a b ∧ (a, b) ∉ s.redundantPairs) pair.1 pair.2 := by
  obtain ⟨parent, searching⟩ := Searching.loop linked fuel _ s id Searching.start run
  intro pair member
  have path := (searching.pairs pair member).2.2
  refine Relation.ReflTransGen.mono ?_ _ _ path
  intro a b link
  refine ⟨link.1, fun isPair => ?_⟩
  exact (searching.pairs (a, b) isPair).1 link.2.2.2.symm

end Ahir.ControlPath.CPForkBlock
