import Ahir.Graph.BreadthFirst

/-!
# Depth first searches

A depth first search keeps a stack of the vertices it is still looking at, each
a successor of the one below it.  A vertex leaves the stack when all its
successors were visited; it is then before its successors in the list of the
finished vertices, unless one of them was still on the stack.  Such a successor
closes a cycle, and no cycle can be closed in another way.
-/

set_option autoImplicit false

namespace Ahir.Graph
variable {V : Type} {next : V → List V} {start : V}

/-- There is a walk from `x` to `y`. -/
def Leads (next : V → List V) : V → V → Prop := Relation.ReflTransGen fun a b => b ∈ next a

def CycleAhead (next : V → List V) (start : V) : Prop :=
  ∃ x, Leads next start x ∧ Relation.TransGen (fun a b => b ∈ next a) x x

structure Explored (next : V → List V) (start : V) (stack visited finished : List V) (cycle : Bool) :
    Prop where
  started : start ∈ visited
  split : ∀ x, x ∈ visited ↔ x ∈ stack ∨ x ∈ finished
  nodup : (stack ++ finished).Nodup
  links : stack.IsChain fun b a => b ∈ next a
  reached : ∀ x ∈ visited, Leads next start x
  closed : ∀ x ∈ finished, ∀ y ∈ next x, y ∈ visited
  forward : cycle = false → Forward next finished
  turned : cycle = true → CycleAhead next start

namespace Explored
variable {stack visited finished : List V} {cycle : Bool} {top : V}

theorem begin : Explored next start [start] [start] [] false := by
  refine ⟨List.mem_singleton_self start, by simp, by simp, List.IsChain.singleton _, fun x member => ?_,
    by simp, fun _ => trivial, by simp⟩
  rw [List.mem_singleton.mp member]
  exact Relation.ReflTransGen.refl

theorem leads_top : ∀ {stack : List V} {top : V}, (top :: stack).IsChain (fun b a => b ∈ next a) →
    ∀ x ∈ top :: stack, Leads next x top := by
  intro stack
  induction stack with
  | nil =>
      intro top _ x member
      rw [List.mem_singleton.mp member]
      exact Relation.ReflTransGen.refl
  | cons below rest ih =>
      intro top chain x member
      rw [List.isChain_cons_cons] at chain
      rcases List.mem_cons.mp member with rfl | member
      · exact Relation.ReflTransGen.refl
      · exact (ih chain.2 x member).tail chain.1

/-- A successor of the top that is on the stack closes a cycle. -/
theorem look (explored : Explored next start (top :: stack) visited finished cycle) {w : V}
    (isNext : w ∈ next top) (onStack : w ∈ top :: stack) :
    Explored next start (top :: stack) visited finished true := by
  refine { explored with forward := by simp, turned := fun _ => ?_ }
  have back := leads_top explored.links w onStack
  have reached := explored.reached w ((explored.split w).mpr (Or.inl onStack))
  exact ⟨w, reached, Relation.TransGen.tail' back isNext⟩

/-- A successor of the top that was not visited goes on the stack. -/
theorem push (explored : Explored next start (top :: stack) visited finished cycle) {w : V}
    (isNext : w ∈ next top) (fresh : w ∉ visited) :
    Explored next start (w :: top :: stack) (w :: visited) finished cycle := by
  have topVisited : top ∈ visited := (explored.split top).mpr (Or.inl List.mem_cons_self)
  refine ⟨List.mem_cons_of_mem w explored.started, fun x => ?_, ?_, ?_, fun x member => ?_,
    fun x member y isNext' => ?_, explored.forward, explored.turned⟩
  · rw [List.mem_cons, explored.split x, List.mem_cons (a := x) (b := w), or_assoc]
  · rw [List.cons_append]
    refine List.nodup_cons.mpr ⟨fun member => fresh ?_, explored.nodup⟩
    exact (explored.split w).mpr (List.mem_append.mp member)
  · exact List.isChain_cons_cons.mpr ⟨isNext, explored.links⟩
  · rcases List.mem_cons.mp member with rfl | member
    · exact (explored.reached top topVisited).tail isNext
    · exact explored.reached x member
  · exact List.mem_cons_of_mem w (explored.closed x member y isNext')

/-- The top leaves the stack when its successors were visited; those on the stack were noticed. -/
theorem pop (explored : Explored next start (top :: stack) visited finished cycle)
    (seen : ∀ y ∈ next top, y ∈ visited ∧ (y ∈ top :: stack → cycle = true)) :
    Explored next start stack visited (top :: finished) cycle := by
  refine ⟨explored.started, fun x => ?_, ?_, explored.links.tail, explored.reached,
    fun x member y isNext => ?_, fun none => ⟨fun y isNext => ?_, explored.forward none⟩, explored.turned⟩
  · rw [explored.split x, List.mem_cons, List.mem_cons]
    tauto
  · exact List.nodup_middle.mpr explored.nodup
  · rcases List.mem_cons.mp member with rfl | member
    · exact (seen y isNext).1
    · exact explored.closed x member y isNext
  · obtain ⟨visited', noticed⟩ := seen y isNext
    rcases (explored.split y).mp visited' with onStack | done
    · exact absurd (noticed onStack) (by simp [none])
    · exact done

theorem mem_iff (explored : Explored next start [] visited finished cycle) {x : V} :
    x ∈ visited ↔ Leads next start x := by
  refine ⟨explored.reached x, fun walk => ?_⟩
  induction walk with
  | refl => exact explored.started
  | @tail y z _ isNext ih =>
      have done := ((explored.split y).mp ih).resolve_left List.not_mem_nil
      exact explored.closed y done z isNext

end Explored

theorem Forward.mem_of_leads {list : List V} (forward : Forward next list) {x y : V} (member : x ∈ list)
    (walk : Leads next x y) : y ∈ list := by
  have step : ∀ {list : List V}, Forward next list → ∀ x ∈ list, ∀ y ∈ next x, y ∈ list := by
    intro list
    induction list with
    | nil => simp
    | cons a rest ih =>
        intro forward x member y isNext
        rcases List.mem_cons.mp member with rfl | member
        · exact List.mem_cons_of_mem x (forward.1 y isNext)
        · exact List.mem_cons_of_mem a (ih forward.2 x member y isNext)
  induction walk with
  | refl => exact member
  | tail _ isNext ih => exact step forward _ ih _ isNext

theorem Forward.no_cycle {list : List V} (forward : Forward next list) (nodup : list.Nodup) {x : V}
    (member : x ∈ list) : ¬ Relation.TransGen (fun a b => b ∈ next a) x x := by
  induction list with
  | nil => exact absurd member List.not_mem_nil
  | cons a rest ih =>
      obtain ⟨new, nodup⟩ := List.nodup_cons.mp nodup
      rcases List.mem_cons.mp member with rfl | member
      · intro cycle
        obtain ⟨y, isNext, back⟩ := Relation.TransGen.head'_iff.mp cycle
        exact new (forward.2.mem_of_leads (forward.1 y isNext) back)
      · exact ih forward.2 nodup member

theorem Explored.cycle_iff {visited finished : List V} {cycle : Bool}
    (explored : Explored next start [] visited finished cycle) :
    cycle = true ↔ CycleAhead next start := by
  refine ⟨explored.turned, ?_⟩
  rintro ⟨x, walk, closes⟩
  by_contra unnoticed
  have done := ((explored.split x).mp (explored.mem_iff.mpr walk)).resolve_left List.not_mem_nil
  have nodup : finished.Nodup := explored.nodup
  exact (explored.forward (by simpa using unnoticed)).no_cycle nodup done closes

end Ahir.Graph
