import Mathlib.Tactic

/-!
# Graphs that list their arcs twice

Every node keeps its successors and its predecessors.  Such a graph is closed
over its live nodes when each neighbour of a live node is live and lists it
back.  An edit that takes nodes away and adds arcs keeps it so when both lists
are edited for the same arcs.
-/

set_option autoImplicit false

namespace Ahir.Graph
variable {V : Type}

/-- `succ x y`: `x` lists `y` as successor; `pred y x`: `y` lists `x` as predecessor. -/
structure Links (V : Type) where
  succ : V → V → Prop
  pred : V → V → Prop

namespace Links

structure Closed (links : Links V) (live : V → Prop) : Prop where
  successors : ∀ x y, live x → links.succ x y → live y ∧ links.pred y x
  predecessors : ∀ x y, live y → links.pred y x → live x ∧ links.succ x y

variable {links links' : Links V} {live live' : V → Prop}

theorem Closed.succ_iff (closed : links.Closed live) {x y : V} (liveX : live x) (liveY : live y) :
    links.succ x y ↔ links.pred y x :=
  ⟨fun arc => (closed.successors x y liveX arc).2, fun arc => (closed.predecessors x y liveY arc).2⟩

/-- What the nodes that stay list after an edit: their arcs to nodes that stay,
and the added ones. -/
structure Edited (links links' : Links V) (live' gone : V → Prop) (added : V → V → Prop) : Prop where
  succ : ∀ x y, live' x → (links'.succ x y ↔ links.succ x y ∧ ¬ gone y ∨ added x y)
  pred : ∀ x y, live' y → (links'.pred y x ↔ links.pred y x ∧ ¬ gone x ∨ added x y)

theorem Closed.edit (closed : links.Closed live) {gone : V → Prop} {added : V → V → Prop}
    (edited : Edited links links' live' gone added)
    (live_iff : ∀ x, live' x ↔ live x ∧ ¬ gone x)
    (inside : ∀ x y, live' x ∨ live' y → added x y → live' x ∧ live' y) : links'.Closed live' := by
  constructor
  · intro x y liveX arc
    obtain ⟨wasX, stayX⟩ := (live_iff x).mp liveX
    rcases (edited.succ x y liveX).mp arc with ⟨old, stayY⟩ | new
    · obtain ⟨wasY, back⟩ := closed.successors x y wasX old
      have liveY := (live_iff y).mpr ⟨wasY, stayY⟩
      exact ⟨liveY, (edited.pred x y liveY).mpr (Or.inl ⟨back, stayX⟩)⟩
    · have liveY := (inside x y (Or.inl liveX) new).2
      exact ⟨liveY, (edited.pred x y liveY).mpr (Or.inr new)⟩
  · intro x y liveY arc
    obtain ⟨wasY, stayY⟩ := (live_iff y).mp liveY
    rcases (edited.pred x y liveY).mp arc with ⟨old, stayX⟩ | new
    · obtain ⟨wasX, back⟩ := closed.predecessors x y wasY old
      have liveX := (live_iff x).mpr ⟨wasX, stayX⟩
      exact ⟨liveX, (edited.succ x y liveX).mpr (Or.inl ⟨back, stayY⟩)⟩
    · have liveX := (inside x y (Or.inr liveY) new).1
      exact ⟨liveX, (edited.succ x y liveX).mpr (Or.inr new)⟩

theorem Closed.extend (closed : links.Closed live) {new : V}
    (live_iff : ∀ x, live' x ↔ live x ∨ x = new)
    (same : ∀ x, live x → (∀ y, links'.succ x y ↔ links.succ x y) ∧ ∀ y, links'.pred x y ↔ links.pred x y)
    (bare : (∀ y, ¬ links'.succ new y) ∧ ∀ y, ¬ links'.pred new y) : links'.Closed live' := by
  constructor
  · intro x y isLive arc
    rcases (live_iff x).mp isLive with wasLive | rfl
    · obtain ⟨liveY, back⟩ := closed.successors x y wasLive (((same x wasLive).1 y).mp arc)
      exact ⟨(live_iff y).mpr (Or.inl liveY), ((same y liveY).2 x).mpr back⟩
    · exact absurd arc (bare.1 y)
  · intro x y isLive arc
    rcases (live_iff y).mp isLive with wasLive | rfl
    · obtain ⟨liveX, back⟩ := closed.predecessors x y wasLive (((same y wasLive).2 x).mp arc)
      exact ⟨(live_iff x).mpr (Or.inl liveX), ((same x liveX).1 y).mpr back⟩
    · exact absurd arc (bare.2 x)

end Links

end Ahir.Graph
