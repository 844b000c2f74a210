import Mathlib.Algebra.BigOperators.Group.Finset.Basic
import Mathlib.Algebra.Order.BigOperators.Group.Finset
import Mathlib.Data.List.Count
import Mathlib.Data.Prod.Lex
import Mathlib.Data.Set.Finite.Lattice
import Mathlib.Logic.Relation
import Mathlib.Order.Preorder.Finite
import Mathlib.Tactic

/-!
# Marked graphs

Each arc of a marked graph has one source and one target and holds some tokens
at first.  A vertex fires when every arc into it holds a token; it takes one
from each of them and puts one on each arc out of it.  What an arc holds is
known from the firings alone, so the firing sequences are those that keep a
bound for each arc, and an arc may be left out when a path of other arcs with
as many tokens leads the same way.  When the arcs without tokens rise in some
order, no vertex is ever cut off: it can fire again after more firings.
-/

set_option autoImplicit false

namespace Ahir.Graph

/-- `arc x y n`: an arc from `x` to `y` that holds `n` tokens at first. -/
structure MarkedGraph (V : Type) where
  inside : Set V
  arc : V → V → Nat → Prop

abbrev Marking (V : Type) := V → V → Nat → Nat

namespace MarkedGraph
variable {V : Type} [DecidableEq V] (G : MarkedGraph V)

omit [DecidableEq V] in
def Enabled (marking : Marking V) (x : V) : Prop :=
  x ∈ G.inside ∧ ∀ y n, G.arc y x n → 0 < marking y x n

/-- `x` takes a token from each arc into it and puts one on each arc out of it. -/
def fire (marking : Marking V) (x : V) : Marking V := fun y z n =>
  marking y z n - (if z = x then 1 else 0) + (if y = x then 1 else 0)

inductive Fires : List V → Marking V → Prop where
  | start : Fires [] (fun _ _ n => n)
  | step {firings : List V} {marking : Marking V} {x : V} : Fires firings marking →
      G.Enabled marking x → Fires (firings ++ [x]) (fire marking x)

def firingSequences : Set (List V) := {firings | ∃ marking, G.Fires firings marking}

/-- Whatever has fired, each vertex can still come to fire. -/
def Live : Prop :=
  ∀ firings ∈ G.firingSequences, ∀ x ∈ G.inside, ∃ more, firings ++ more ++ [x] ∈ G.firingSequences

def Balanced (firings : List V) : Prop :=
  ∀ x y n, G.arc x y n → firings.count y ≤ n + firings.count x

/-- A path along which there are `n` tokens at first. -/
inductive Carries : V → V → Nat → Prop where
  | refl (x : V) : Carries x x 0
  | snoc {x y z : V} {m n : Nat} : Carries x y m → G.arc y z n → Carries x z (m + n)

variable {G} {G' : MarkedGraph V}

theorem Fires.tokens {firings : List V} {marking : Marking V} (run : G.Fires firings marking)
    {x y : V} {n : Nat} (arc : G.arc x y n) :
    marking x y n + firings.count y = n + firings.count x := by
  induction run with
  | start => simp
  | @step firings marking z _ enabled ih =>
      rw [List.count_append, List.count_append, List.count_singleton, List.count_singleton]
      have held : z = y → 0 < marking x y n := by
        rintro rfl
        exact enabled.2 x n arc
      simp only [fire, beq_iff_eq, eq_comm (a := y), eq_comm (a := x)]
      split_ifs with isY isX isX
      · have := held isY
        omega
      · have := held isY
        omega
      · omega
      · omega

theorem Fires.enabled_iff {firings : List V} {marking : Marking V} (run : G.Fires firings marking)
    {x : V} : G.Enabled marking x ↔
      x ∈ G.inside ∧ ∀ y n, G.arc y x n → firings.count x + 1 ≤ n + firings.count y := by
  refine and_congr_right fun _ => forall_congr' fun y => forall_congr' fun n => ?_
  constructor
  · intro holds arc
    have := holds arc
    have := run.tokens arc
    omega
  · intro bound arc
    have := bound arc
    have := run.tokens arc
    omega

theorem Fires.balanced {firings : List V} {marking : Marking V} (run : G.Fires firings marking) :
    G.Balanced firings := by
  intro x y n arc
  have := run.tokens arc
  omega

theorem snoc_mem_firingSequences {firings : List V} (sequence : firings ∈ G.firingSequences) {x : V}
    (inside : x ∈ G.inside)
    (room : ∀ y n, G.arc y x n → firings.count x + 1 ≤ n + firings.count y) :
    firings ++ [x] ∈ G.firingSequences := by
  obtain ⟨marking, run⟩ := sequence
  exact ⟨_, Fires.step run (run.enabled_iff.mpr ⟨inside, room⟩)⟩

theorem balanced_of_mem_firingSequences {firings : List V}
    (sequence : firings ∈ G.firingSequences) : G.Balanced firings := by
  obtain ⟨marking, run⟩ := sequence
  exact run.balanced

omit [DecidableEq V] in
theorem Carries.trans {x y z : V} {m n : Nat} (first : G.Carries x y m) (second : G.Carries y z n) :
    G.Carries x z (m + n) := by
  induction second with
  | refl => exact first
  | snoc _ arc ih =>
      rw [← Nat.add_assoc]
      exact Carries.snoc ih arc

omit [DecidableEq V] in
theorem Carries.single {x y : V} {n : Nat} (arc : G.arc x y n) : G.Carries x y n := by
  have path := Carries.snoc (Carries.refl x) arc
  rwa [Nat.zero_add] at path

theorem Balanced.of_carries {firings : List V} (balanced : G.Balanced firings) {x y : V} {n : Nat}
    (path : G.Carries x y n) : firings.count y ≤ n + firings.count x := by
  induction path with
  | refl => simp
  | snoc _ arc ih =>
      have := balanced _ _ _ arc
      omega

/-- Arcs that other arcs make up for may be left out: the firing sequences stay. -/
theorem firingSequences_eq (inside : G'.inside = G.inside)
    (fewer : ∀ x y n, G'.arc x y n → G.arc x y n)
    (carried : ∀ x y n, G.arc x y n → G'.Carries x y n) (live : ∀ x, ¬ G.arc x x 0) :
    G'.firingSequences = G.firingSequences := by
  have both : ∀ firings, firings ∈ G'.firingSequences ↔ firings ∈ G.firingSequences := by
    intro firings
    constructor
    · rintro ⟨marking, run⟩
      induction run with
      | start => exact ⟨_, Fires.start⟩
      | @step firings marking x run enabled ih =>
          obtain ⟨marking', run'⟩ := ih
          refine ⟨_, Fires.step run' (run'.enabled_iff.mpr ⟨inside ▸ enabled.1, ?_⟩)⟩
          intro y n arc
          -- after the firing the path in place of the arc is balanced too
          have after := (Fires.step run enabled).balanced.of_carries (carried y x n arc)
          simp only [List.count_append, List.count_singleton, beq_self_eq_true, if_true,
            beq_iff_eq] at after
          by_cases loop : x = y
          · subst loop
            have some : n ≠ 0 := by
              rintro rfl
              exact live x arc
            omega
          · rw [if_neg loop] at after
            omega
    · rintro ⟨marking, run⟩
      induction run with
      | start => exact ⟨_, Fires.start⟩
      | @step firings marking x run enabled ih =>
          obtain ⟨marking', run'⟩ := ih
          refine ⟨_, Fires.step run' (run'.enabled_iff.mpr ⟨inside.symm ▸ enabled.1, ?_⟩)⟩
          intro y n arc
          exact (run.enabled_iff.mp enabled).2 y n (fewer y x n arc)
  exact Set.ext both

section Live
variable {R : Type} [LinearOrder R] {rank : V → R}

theorem Fires.exists_enabled (finite : G.inside.Finite)
    (closed : ∀ x y n, G.arc x y n → x ∈ G.inside)
    (rising : ∀ x y, G.arc x y 0 → rank x < rank y) {firings : List V} {marking : Marking V}
    (run : G.Fires firings marking) {x : V} (inside : x ∈ G.inside) :
    ∃ y ∈ G.inside, firings.count y ≤ firings.count x ∧ G.Enabled marking y := by
  obtain ⟨y, insideY, least⟩ := Set.exists_min_image G.inside
    (fun y => toLex (firings.count y, rank y)) finite ⟨x, inside⟩
  have notMore : ∀ z ∈ G.inside, firings.count y < firings.count z ∨
      firings.count y = firings.count z ∧ rank y ≤ rank z := by
    intro z insideZ
    exact Prod.Lex.le_iff.mp (least z insideZ)
  refine ⟨y, insideY, ?_, run.enabled_iff.mpr ⟨insideY, ?_⟩⟩
  · rcases notMore x inside with fewer | ⟨same, _⟩
    · exact fewer.le
    · exact same.le
  · intro z n arc
    rcases notMore z (closed z y n arc) with fewer | ⟨same, lower⟩
    · omega
    · have some : n ≠ 0 := by
        intro none
        subst none
        exact absurd (rising z y arc) (not_lt.mpr lower)
      omega

theorem live_of_rank (finite : G.inside.Finite) (closed : ∀ x y n, G.arc x y n → x ∈ G.inside)
    (rising : ∀ x y, G.arc x y 0 → rank x < rank y) : G.Live := by
  intro firings sequence x inside
  -- what the vertices lag behind the firing of `x` that is wanted
  generalize lag : ∑ y ∈ finite.toFinset, (firings.count x + 1 - firings.count y) = total
  induction total using Nat.strong_induction_on generalizing firings with
  | _ total ih =>
    obtain ⟨marking, run⟩ := sequence
    obtain ⟨y, insideY, notMore, enabled⟩ := run.exists_enabled finite closed rising inside
    by_cases same : y = x
    · subst same
      refine ⟨[], fire marking y, ?_⟩
      rw [List.append_nil]
      exact Fires.step run enabled
    · have stays : (firings ++ [y]).count x = firings.count x := by
        rw [List.count_append, List.count_singleton, if_neg (by simpa using same), Nat.add_zero]
      have less : ∑ z ∈ finite.toFinset, ((firings ++ [y]).count x + 1 - (firings ++ [y]).count z) <
          total := by
        rw [← lag]
        refine Finset.sum_lt_sum ?_ ⟨y, finite.mem_toFinset.mpr insideY, ?_⟩
        · intro z _
          rw [stays, List.count_append]
          omega
        · rw [stays, List.count_append, List.count_singleton_self]
          omega
      obtain ⟨more, after⟩ := ih _ less (firings ++ [y]) ⟨_, Fires.step run enabled⟩ rfl
      refine ⟨y :: more, ?_⟩
      rwa [List.append_assoc firings, List.singleton_append] at after

end Live

end MarkedGraph

end Ahir.Graph
