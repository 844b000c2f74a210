import Ahir.DataPath.LevelSlacks

/-!
# The repeaters of a wire

The repeaters for the slacks of a wire, in the order of its set, drive the copy of
the wire for each slack; together with the one of its driver they take the stall
indices one after the other.
-/

set_option autoImplicit false

namespace Ahir.DataPath.Level
open Ahir.Graph Ahir.Hardware

namespace VcDataPath

/-! ### One row of repeaters -/

section Row
variable {α : Type} {uninitialised : α} {stall : Int → Nat → Bool} {level : Int}

theorem dataOut_at (low : Int) (depth : Nat) (input : Nat → α) :
    SquashLevelRepeater.dataOut uninitialised depth (fun i => stall (low + i - 1)) (fun _ => true) input =
      SquashLevelRepeater.delayed uninitialised stall (low - 1) input depth := by
  funext t
  rw [← SquashLevelRepeater.dataOut_eq_delayed]
  congr 1
  funext i
  congr 1
  omega

theorem delayed_add (uninitialised : α) (stall : Int → Nat → Bool) (level : Int) (source : Nat → α) {last curr : Int}
    (nonneg : 0 ≤ last) (later : last ≤ curr) :
    SquashLevelRepeater.delayed uninitialised stall (level + last)
        (SquashLevelRepeater.delayed uninitialised stall level source last.toNat) (curr - last).toNat =
      SquashLevelRepeater.delayed uninitialised stall level source curr.toNat := by
  funext t
  have cast : (last.toNat : Int) = last := Int.toNat_of_nonneg nonneg
  have joined := SquashLevelRepeater.delayed_delayed uninitialised stall level source last.toNat (curr - last).toNat t
  rw [cast] at joined
  rw [joined]
  congr 1
  omega

theorem paddings_delayed {signal : Int → Nat → α} : ∀ (slacks : List Int) (last : Int), 0 ≤ last →
    slacks.Pairwise (· < ·) → (∀ k ∈ slacks, 0 < k → last < k) →
    (∀ r ∈ paddings level last slacks, signal r.currSlack = SquashLevelRepeater.dataOut uninitialised r.depth
      (fun i => stall (r.low + i - 1)) (fun _ => true) (signal r.lastSlack)) →
    signal last = SquashLevelRepeater.delayed uninitialised stall level (signal 0) last.toNat →
    ∀ k ∈ slacks, 0 < k → signal k = SquashLevelRepeater.delayed uninitialised stall level (signal 0) k.toNat := by
  intro slacks
  induction slacks with
  | nil => exact fun _ _ _ _ _ _ k member => absurd member List.not_mem_nil
  | cons curr slacks ih =>
      intro last nonneg sorted later driven known k member positive
      obtain ⟨first, sorted⟩ := List.pairwise_cons.mp sorted
      by_cases padded : 0 < curr
      · rw [paddings, if_pos padded] at driven
        have step := driven _ List.mem_cons_self
        simp only [Padding.depth] at step
        rw [dataOut_at, known] at step
        have after : last ≤ curr := le_of_lt (later curr List.mem_cons_self padded)
        have depth : level + curr - (level + last + 1) + 1 = curr - last := by omega
        have base : level + last + 1 - 1 = level + last := by omega
        rw [depth, base, delayed_add _ _ _ _ nonneg after] at step
        rcases List.mem_cons.mp member with rfl | member
        · exact step
        · exact ih curr (le_of_lt padded) sorted (fun k member _ => first k member)
            (fun r member => driven r (List.mem_cons_of_mem _ member)) step k member positive
      · rw [paddings, if_neg padded] at driven
        rcases List.mem_cons.mp member with rfl | member
        · exact absurd positive padded
        · exact ih last nonneg sorted (fun k member => later k (List.mem_cons_of_mem _ member)) driven known
            k member positive

/-- The stall ranges of the repeaters, from the end of the range before them. -/
theorem paddings_ranges (level : Int) : ∀ (slacks : List Int) (last : Int),
    slacks.Pairwise (· < ·) → (∀ k ∈ slacks, 0 < k → last < k) →
    (∀ r : Int × Int, r.2 = level + last →
      (r :: (paddings level last slacks).map fun r => (r.low, r.high)).IsChain fun r s => s.1 = r.2 + 1) ∧
    ((paddings level last slacks).map fun r => (r.low, r.high)).Pairwise (fun r s => r.2 < s.1) ∧
    ∀ r ∈ (paddings level last slacks).map fun r => (r.low, r.high),
      level + last < r.1 ∧ r.1 ≤ r.2 ∧ ∃ k ∈ slacks, 0 < k ∧ r.2 = level + k := by
  intro slacks
  induction slacks with
  | nil =>
      intro last _ _
      exact ⟨fun r _ => List.isChain_singleton r, List.Pairwise.nil, fun r member => absurd member List.not_mem_nil⟩
  | cons curr slacks ih =>
      intro last sorted later
      obtain ⟨first, sorted⟩ := List.pairwise_cons.mp sorted
      by_cases padded : 0 < curr
      · obtain ⟨chain, apart, inside⟩ := ih curr sorted (fun k member _ => first k member)
        have after := later curr List.mem_cons_self padded
        rw [paddings, if_pos padded]
        simp only [List.map_cons]
        refine ⟨fun r last => ?_, ?_, ?_⟩
        · rw [List.isChain_cons_cons]
          exact ⟨by rw [last], chain _ rfl⟩
        · exact List.pairwise_cons.mpr ⟨fun r member => (inside r member).1, apart⟩
        · intro r member
          rcases List.mem_cons.mp member with rfl | member
          · exact ⟨by dsimp only; omega, by dsimp only; omega, curr, List.mem_cons_self, padded, rfl⟩
          · obtain ⟨above, proper, k, isSlack, positive, same⟩ := inside r member
            exact ⟨by omega, proper, k, List.mem_cons_of_mem curr isSlack, positive, same⟩
      · obtain ⟨chain, apart, inside⟩ := ih last sorted (fun k member => later k (List.mem_cons_of_mem curr member))
        rw [paddings, if_neg padded]
        refine ⟨chain, apart, fun r member => ?_⟩
        obtain ⟨above, proper, k, isSlack, positive, same⟩ := inside r member
        exact ⟨above, proper, k, List.mem_cons_of_mem curr isSlack, positive, same⟩

end Row

end VcDataPath

end Ahir.DataPath.Level
