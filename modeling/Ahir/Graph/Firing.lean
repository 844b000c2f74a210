import Ahir.Graph.TopologicalSort

/-!
# Vertices that fire

A vertex fires once any, or once all, of its predecessors have fired; the sources fire by
themselves and the dead vertices do not.  The doomed vertices are the dead ones and those that have
doomed predecessors only.  They do not fire, and they are all that do not fire just when no vertex
waits for one that never fires beside one that does, or in a circle.
-/

set_option autoImplicit false

namespace Ahir.Graph
variable {V : Type}

/-- A vertex with `any` fires with any of its predecessors, the others with all. -/
structure FiringGraph (V : Type) where
  live : V → Prop
  pred : V → List V
  source : V → Prop
  any : V → Prop
  dead : V → Prop

namespace FiringGraph
variable (G : FiringGraph V)

/-- `x` may fire after the vertices of `fired`. -/
def Enabled (fired : List V) (x : V) : Prop :=
  G.live x ∧ ¬ G.dead x ∧ (G.source x ∨ (G.any x ∧ ∃ p ∈ G.pred x, p ∈ fired) ∨
    (¬ G.any x ∧ G.pred x ≠ [] ∧ ∀ p ∈ G.pred x, p ∈ fired))

inductive Fires : List V → Prop where
  | start : Fires []
  | fire {fired : List V} {x : V} : Fires fired → G.Enabled fired x → Fires (x :: fired)

def CanFire (x : V) : Prop := ∃ fired, G.Fires fired ∧ x ∈ fired

inductive Doomed : V → Prop where
  | dead {x : V} : G.live x → G.dead x → Doomed x
  | starved {x : V} : G.live x → ¬ G.source x → G.pred x ≠ [] → (∀ p ∈ G.pred x, Doomed p) → Doomed x

/-- A vertex that cannot fire and is not dead. -/
def Idle (x : V) : Prop := G.live x ∧ ¬ G.CanFire x ∧ ¬ G.dead x

/-- The vertices that cannot fire wait for such vertices only, and not in a circle. -/
structure Starving : Prop where
  waits : ∀ x, G.Idle x → G.pred x ≠ [] ∧ ∀ p ∈ G.pred x, ¬ G.CanFire p
  acyclic : ∀ x, ¬ Relation.TransGen (fun p x => G.Idle p ∧ G.Idle x ∧ p ∈ G.pred x) x x

variable {G}

theorem Enabled.canFire {fired : List V} {x : V} (run : G.Fires fired) (enabled : G.Enabled fired x) : G.CanFire x :=
  ⟨x :: fired, run.fire enabled, List.mem_cons_self⟩

theorem CanFire.enabled {x : V} (can : G.CanFire x) :
    G.live x ∧ ¬ G.dead x ∧ (G.source x ∨ (G.any x ∧ ∃ p ∈ G.pred x, G.CanFire p) ∨
      (¬ G.any x ∧ G.pred x ≠ [] ∧ ∀ p ∈ G.pred x, G.CanFire p)) := by
  obtain ⟨fired, run, member⟩ := can
  induction run with
  | start => exact absurd member List.not_mem_nil
  | @fire fired y run enabled ih =>
      rcases List.mem_cons.mp member with rfl | before
      · obtain ⟨live, alive, cause⟩ := enabled
        refine ⟨live, alive, ?_⟩
        rcases cause with source | ⟨any, p, isPred, inside⟩ | ⟨all, some, inside⟩
        · exact Or.inl source
        · exact Or.inr (Or.inl ⟨any, p, isPred, fired, run, inside⟩)
        · exact Or.inr (Or.inr ⟨all, some, fun p isPred => ⟨fired, run, inside p isPred⟩⟩)
      · exact ih before

theorem Doomed.not_canFire {x : V} (doomed : G.Doomed x) : ¬ G.CanFire x := by
  induction doomed with
  | dead _ isDead => exact fun can => can.enabled.2.1 isDead
  | starved _ noSource some _ ih =>
      intro can
      rcases can.enabled.2.2 with source | ⟨_, p, isPred, canP⟩ | ⟨_, _, canAll⟩
      · exact noSource source
      · exact ih p isPred canP
      · obtain ⟨p, isPred⟩ := List.exists_mem_of_ne_nil _ some
        exact ih p isPred (canAll p isPred)

theorem Doomed.live {x : V} (doomed : G.Doomed x) : G.live x := by
  cases doomed with
  | dead live _ => exact live
  | starved live _ _ _ => exact live

theorem Doomed.acc {x : V} (doomed : G.Doomed x) :
    Acc (fun p x => G.Idle p ∧ G.Idle x ∧ p ∈ G.pred x) x := by
  induction doomed with
  | dead _ isDead => exact Acc.intro _ fun p arc => absurd isDead arc.2.1.2.2
  | starved _ _ _ _ ih => exact Acc.intro _ fun p arc => ih p arc.2.2

theorem not_around_of_acc {arc : V → V → Prop} {x : V} (acc : Acc arc x) : ¬ Relation.TransGen arc x x := by
  replace acc := acc.transGen
  induction acc with
  | intro x _ ih => exact fun around => ih x around around

theorem doomed_iff_starving (vertices : List V) (inside : ∀ x, G.live x → x ∈ vertices)
    (closed : ∀ x, G.live x → ∀ p ∈ G.pred x, G.live p) :
    (∀ x, G.live x → ¬ G.CanFire x → G.Doomed x) ↔ G.Starving := by
  constructor
  · intro exact_
    refine ⟨fun x idle => ?_, fun x around => ?_⟩
    · cases exact_ x idle.1 idle.2.1 with
      | dead _ isDead => exact absurd isDead idle.2.2
      | starved _ _ some doomed => exact ⟨some, fun p isPred => (doomed p isPred).not_canFire⟩
    · obtain ⟨_, _, _, idle, _⟩ := Relation.TransGen.tail'_iff.mp around
      exact not_around_of_acc (exact_ x idle.1 idle.2.1).acc around
  · intro starving
    obtain ⟨rank, upwards, _⟩ := exists_rank vertices (fun p _ arc => inside p arc.1.1) starving.acyclic
    intro x live never
    induction least : rank x using Nat.strong_induction_on generalizing x with
    | h n ih =>
        subst least
        by_cases isDead : G.dead x
        · exact Doomed.dead live isDead
        · have idle : G.Idle x := ⟨live, never, isDead⟩
          obtain ⟨some, neverPred⟩ := starving.waits x idle
          refine Doomed.starved live (fun source => never ?_) some fun p isPred => ?_
          · exact Enabled.canFire Fires.start ⟨live, isDead, Or.inl source⟩
          · have liveP := closed x live p isPred
            by_cases deadP : G.dead p
            · exact Doomed.dead liveP deadP
            · have idleP : G.Idle p := ⟨liveP, neverPred p isPred, deadP⟩
              exact ih (rank p) (upwards p x ⟨idleP, idle, isPred⟩) p liveP idleP.2.1 rfl

/-- `G'` is what is left of `G` without the vertices of `gone`. -/
structure Removed (G G' : FiringGraph V) (gone : V → Prop) : Prop where
  live : ∀ x, G'.live x ↔ G.live x ∧ ¬ gone x
  pred : ∀ x, G'.live x → ∀ p, p ∈ G'.pred x ↔ p ∈ G.pred x ∧ ¬ gone p
  source : ∀ x, G'.source x ↔ G.source x
  any : ∀ x, G'.any x ↔ G.any x
  dead : ∀ x, G'.dead x ↔ G.dead x

theorem Removed.fires_iff {G' : FiringGraph V} {gone : V → Prop} (removed : Removed G G' gone)
    (never : ∀ x, G.live x → (gone x ↔ ¬ G.CanFire x)) (closed : ∀ x, G.live x → ∀ p ∈ G.pred x, G.live p)
    (fired : List V) : G'.Fires fired ↔ G.Fires fired := by
  -- a vertex that can fire after all its predecessors has none that is gone
  have same {x : V} (stays : G'.live x) (canAll : ∀ p ∈ G.pred x, G.CanFire p) (p : V) :
      p ∈ G'.pred x ↔ p ∈ G.pred x := by
    rw [removed.pred x stays]
    refine and_iff_left_of_imp fun isPred isGone => ?_
    exact (never p (closed x ((removed.live x).mp stays).1 p isPred)).mp isGone (canAll p isPred)
  have same_nil {x : V} (equal : ∀ p, p ∈ G'.pred x ↔ p ∈ G.pred x) : G'.pred x = [] ↔ G.pred x = [] := by
    rw [List.eq_nil_iff_forall_not_mem, List.eq_nil_iff_forall_not_mem]
    exact forall_congr' fun p => not_congr (equal p)
  constructor
  · intro run
    induction run with
    | start => exact Fires.start
    | @fire fired x _ enabled ih =>
        refine ih.fire ?_
        obtain ⟨live, alive, cause⟩ := enabled
        obtain ⟨wasLive, stays⟩ := (removed.live x).mp live
        have can : G.CanFire x := not_not.mp fun isNever => stays ((never x wasLive).mpr isNever)
        refine ⟨wasLive, fun isDead => alive ((removed.dead x).mpr isDead), ?_⟩
        rcases cause with source | ⟨any, p, isPred, member⟩ | ⟨all, some, members⟩
        · exact Or.inl ((removed.source x).mp source)
        · exact Or.inr (Or.inl ⟨(removed.any x).mp any, p, ((removed.pred x live p).mp isPred).1, member⟩)
        · rcases can.enabled.2.2 with source | ⟨any, _⟩ | ⟨notAny, _, canAll⟩
          · exact Or.inl source
          · exact absurd ((removed.any x).mpr any) all
          · refine Or.inr (Or.inr ⟨notAny, fun none => some ((same_nil (same live canAll)).mpr none), fun p isPred => ?_⟩)
            exact members p ((same live canAll p).mpr isPred)
  · intro run
    induction run with
    | start => exact Fires.start
    | @fire fired x before enabled ih =>
        refine ih.fire ?_
        have can := enabled.canFire before
        obtain ⟨live, alive, cause⟩ := enabled
        have stays : G'.live x := (removed.live x).mpr ⟨live, fun isGone => (never x live).mp isGone can⟩
        refine ⟨stays, fun isDead => alive ((removed.dead x).mp isDead), ?_⟩
        rcases cause with source | ⟨any, p, isPred, member⟩ | ⟨all, some, members⟩
        · exact Or.inl ((removed.source x).mpr source)
        · refine Or.inr (Or.inl ⟨(removed.any x).mpr any, p, (removed.pred x stays p).mpr ⟨isPred, fun isGone => ?_⟩, member⟩)
          exact (never p (closed x live p isPred)).mp isGone ⟨fired, before, member⟩
        · have canAll : ∀ p ∈ G.pred x, G.CanFire p := fun p isPred => ⟨fired, before, members p isPred⟩
          refine Or.inr (Or.inr ⟨fun any => all ((removed.any x).mp any),
            fun none => some ((same_nil (same stays canAll)).mp none), fun p isPred => ?_⟩)
          exact members p ((same stays canAll p).mp isPred)

end FiringGraph

end Ahir.Graph
