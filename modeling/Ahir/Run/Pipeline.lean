import Mathlib.Data.List.Induction

/-!
# Pipelines that stall

A clocked system that keeps its state in a cycle in which it is stalled, and a row of
stages that hands on what enters it.
-/

set_option autoImplicit false

universe u v

namespace Ahir.Run

section Stalling
variable {σ : Type u} {ι : Type v}

/-- A run over cycles: whether the system is stalled, and its input. -/
def runStalling (step : σ → ι → σ) (s : σ) (cycles : List (Bool × ι)) : σ :=
  cycles.foldl (fun s cycle => if cycle.1 then s else step s cycle.2) s

/-- The inputs of the cycles that are not stalled. -/
def entered (cycles : List (Bool × ι)) : List ι := (cycles.filter fun cycle => !cycle.1).map Prod.snd

theorem runStalling_eq (step : σ → ι → σ) (s : σ) (cycles : List (Bool × ι)) :
    runStalling step s cycles = (entered cycles).foldl step s := by
  induction cycles generalizing s with
  | nil => rfl
  | cons cycle cycles ih =>
      obtain ⟨stall, input⟩ := cycle
      cases stall with
      | true => exact ih s
      | false => exact ih (step s input)

theorem runStalling_append (step : σ → ι → σ) (s : σ) (before after : List (Bool × ι)) :
    runStalling step s (before ++ after) = runStalling step (runStalling step s before) after := List.foldl_append

theorem entered_append (before after : List (Bool × ι)) : entered (before ++ after) = entered before ++ entered after := by
  unfold entered
  rw [List.filter_append, List.map_append]

theorem entered_cons_false (input : ι) (cycles : List (Bool × ι)) :
    entered ((false, input) :: cycles) = input :: entered cycles := by
  unfold entered
  rw [List.filter_cons_of_pos rfl, List.map_cons]

theorem entered_replicate (k : Nat) (input : ι) : entered (List.replicate k (false, input)) = List.replicate k input := by
  unfold entered
  rw [List.filter_replicate_of_pos rfl, List.map_replicate]

end Stalling

section Stages
variable {σ : Type u}

/-- Every stage works on what the one before it has, the first one on what enters. -/
def advance (work : Nat → σ → σ) (stages : Nat → σ) (enters : σ) : Nat → σ
  | 0 => work 0 enters
  | k + 1 => work (k + 1) (stages k)

/-- The work of the stages up to stage `k`. -/
def through (work : Nat → σ → σ) : Nat → σ → σ
  | 0, enters => work 0 enters
  | k + 1, enters => work (k + 1) (through work k enters)

theorem foldl_advance (work : Nat → σ → σ) (before after : List σ) (enters : σ) (stages : Nat → σ) :
    (before ++ enters :: after).foldl (advance work) stages after.length = through work after.length enters := by
  induction after using List.reverseRecOn with
  | nil =>
      rw [List.foldl_append, List.foldl_cons, List.foldl_nil]
      rfl
  | append_singleton after last ih =>
      rw [← List.cons_append, ← List.append_assoc, List.foldl_append, List.foldl_cons, List.foldl_nil,
        List.length_append, List.length_singleton]
      exact congrArg (work (after.length + 1)) ih

/-- The values of a delay line with what comes in: delay `d` gives the value at `d`. -/
def delayed (din : σ) (line : Nat → σ) : Nat → σ
  | 0 => din
  | d + 1 => line d

end Stages

section Flight
variable {σ : Type u} {ι : Type v}

theorem follow {step : σ → ι → σ} {At : Nat → σ → Prop} {input : ι} (enters : ∀ s, At 1 (step s input))
    (goes : ∀ k s later, 0 < k → At k s → At (k + 1) (step s later)) (s : σ) (after : List ι) :
    At (after.length + 1) ((input :: after).foldl step s) := by
  induction after using List.reverseRecOn with
  | nil => exact enters s
  | append_singleton after last ih =>
      rw [← List.cons_append, List.foldl_append, List.length_append, List.length_singleton]
      exact goes _ _ _ (Nat.succ_pos _) ih

end Flight

end Ahir.Run
