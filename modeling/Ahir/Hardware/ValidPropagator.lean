import Ahir.Hardware.Buffer
import Ahir.Hardware.SquashLevelRepeater

/-!
# Level pipelines

`ValidPropagator` moves the valid bits of a level pipeline and tells a
`SquashLevelRepeater` of the same depth which of its registers stall.  Together they are a
queue: a stage that is empty takes in what is behind it whether the output stalls or not.
-/

set_option autoImplicit false

namespace Ahir.Hardware.ValidPropagator
variable {α : Type}

section
variable (depth : Nat) (stallIn : Bool) (validIn : Bool) (ivalids : Nat → Bool)

/-- `ivalids`, where `ivalids(0)` follows the input. -/
def ivalid : Nat → Bool
  | 0 => validIn
  | i + 1 => ivalids (i + 1)

/-- `stalls(g_depth+1-k)` -/
def stallsFromOutput : Nat → Bool
  | 0 => stallIn
  | k + 1 => ivalids (depth - k) && stallsFromOutput k

def stalls (i : Nat) : Bool := stallsFromOutput depth stallIn ivalids (depth + 1 - i)

def tick : Nat → Bool
  | 0 => ivalids 0
  | i + 1 => if stalls depth stallIn ivalids (i + 1) then ivalids (i + 1) else ivalid validIn ivalids i

@[simp]
theorem stalls_output : stalls depth stallIn ivalids (depth + 1) = stallIn := by
  rw [stalls, Nat.sub_self]
  rfl

theorem stalls_stage {i : Nat} (isStage : i ≤ depth) :
    stalls depth stallIn ivalids i = (ivalids i && stalls depth stallIn ivalids (i + 1)) := by
  have above : depth + 1 - i = depth - i + 1 := by omega
  have same : depth + 1 - (i + 1) = depth - i := by omega
  rw [stalls, stalls, above, same, stallsFromOutput, Nat.sub_sub_self isStage]

theorem stalls_of_free (i : Nat) : stalls depth false ivalids i = false := by
  unfold stalls
  induction depth + 1 - i with
  | zero => rfl
  | succ k ih => rw [stallsFromOutput, ih, Bool.and_false]

end

/-- The valid bits of a `ValidPropagator` and the registers of the `SquashLevelRepeater`. -/
structure State (α : Type) where
  ivalids : Nat → Bool
  regs : Nat → α

/-- The two circuits in one pipeline, the enable high.  An item is pushed when `valid_in` is
high and stage 1 does not stall, and popped when `valid_out` is high and `stall_in` low. -/
def levelPipeline (depth : Nat) : Buffer (State α) α where
  reset := fun s r =>
    { ivalids := fun _ => false
      regs := SquashLevelRepeater.tick (stalls depth (!r.popReq) s.ivalids) true r.dataIn s.regs }
  respond := fun s r =>
    { dataOut := SquashLevelRepeater.dataRegs true r.dataIn s.regs depth
      pushAck := !stalls depth (!r.popReq) s.ivalids 1
      popAck := ivalid r.pushReq s.ivalids depth }
  next := fun s r =>
    { ivalids := tick depth (!r.popReq) r.pushReq s.ivalids
      regs := SquashLevelRepeater.tick (stalls depth (!r.popReq) s.ivalids) true r.dataIn s.regs }

section Items
variable {depth : Nat} (s : State α) (r : Request α)

def stage (i : Nat) : List α := if s.ivalids i then [s.regs i] else []

/-- The items in the last stages, as many as the number, the one nearest the output first. -/
def held (depth : Nat) (s : State α) : Nat → List α
  | 0 => []
  | n + 1 => held depth s n ++ stage s (depth - n)

/-- The item that leaves a stage in a cycle; what leaves stage 0 is what comes in. -/
def leaves (depth : Nat) (s : State α) (r : Request α) (i : Nat) : List α :=
  if ivalid r.pushReq s.ivalids i && !stalls depth (!r.popReq) s.ivalids (i + 1) then
    [SquashLevelRepeater.dataRegs true r.dataIn s.regs i]
  else []

theorem pushed_eq : ((levelPipeline depth).pushed s r).toList = leaves depth s r 0 := by
  unfold Buffer.pushed leaves
  rw [apply_ite Option.toList]
  rfl

theorem popped_eq : ((levelPipeline depth).popped s r).toList = leaves depth s r depth := by
  unfold Buffer.popped leaves
  rw [apply_ite Option.toList, stalls_output, Bool.not_not, Bool.and_comm]
  rfl

theorem leaves_stage (i : Nat) :
    leaves depth s r (i + 1) = if stalls depth (!r.popReq) s.ivalids (i + 2) then [] else stage s (i + 1) := by
  unfold leaves stage
  cases stalls depth (!r.popReq) s.ivalids (i + 2) with
  | false => rw [Bool.not_false, Bool.and_true]; rfl
  | true => rw [Bool.not_true, Bool.and_false]; rfl

/-- Whether a stage moves is decided alike for its valid bit and its data. -/
theorem stage_next (i : Nat) :
    stage ((levelPipeline depth).next s r) (i + 1) =
      if stalls depth (!r.popReq) s.ivalids (i + 1) then stage s (i + 1) else leaves depth s r i := by
  cases stalled : stalls depth (!r.popReq) s.ivalids (i + 1) with
  | false =>
      simp only [stage, leaves, levelPipeline, tick, SquashLevelRepeater.tick, stalled, Bool.not_false, Bool.and_true,
        Bool.false_eq_true, if_false]
  | true => simp only [stage, levelPipeline, tick, SquashLevelRepeater.tick, stalled, if_true]

/-- A stage first hands on what it has and then takes in what comes. -/
theorem stage_step {i : Nat} (isStage : i + 1 ≤ depth) :
    stage s (i + 1) ++ leaves depth s r i =
      leaves depth s r (i + 1) ++ stage ((levelPipeline depth).next s r) (i + 1) := by
  have decides := stalls_stage depth (!r.popReq) s.ivalids isStage
  rw [stage_next, leaves_stage]
  cases valid : s.ivalids (i + 1) with
  | false =>
      have empty : stage s (i + 1) = [] := by rw [stage, valid, if_neg Bool.false_ne_true]
      rw [valid, Bool.false_and] at decides
      rw [decides, if_neg Bool.false_ne_true, empty, ite_self]
  | true =>
      rw [valid, Bool.true_and] at decides
      rw [← decides]
      cases stalled : stalls depth (!r.popReq) s.ivalids (i + 1) with
      | false => rw [if_neg Bool.false_ne_true, if_neg Bool.false_ne_true]
      | true =>
          have stays : leaves depth s r i = [] := by
            rw [leaves, stalled, Bool.not_true, Bool.and_false, if_neg Bool.false_ne_true]
          rw [if_pos rfl, if_pos rfl, stays, List.append_nil, List.nil_append]

theorem held_step {n : Nat} (within : n ≤ depth) :
    held depth s n ++ leaves depth s r (depth - n) =
      leaves depth s r depth ++ held depth ((levelPipeline depth).next s r) n := by
  induction n with
  | zero => rw [held, held, List.nil_append, List.append_nil, Nat.sub_zero]
  | succ n ih =>
      have isStage : depth - (n + 1) + 1 = depth - n := by omega
      have one := stage_step s r (show depth - (n + 1) + 1 ≤ depth by omega)
      rw [isStage] at one
      calc held depth s (n + 1) ++ leaves depth s r (depth - (n + 1))
          = (held depth s n ++ leaves depth s r (depth - n)) ++ stage ((levelPipeline depth).next s r) (depth - n) := by
            rw [held, List.append_assoc, one, List.append_assoc]
        _ = leaves depth s r depth ++ held depth ((levelPipeline depth).next s r) (n + 1) := by
            rw [ih (by omega), List.append_assoc, held]

theorem length_held (n : Nat) : (held depth s n).length ≤ n := by
  induction n with
  | zero => exact Nat.le_refl 0
  | succ n ih =>
      have one : (stage s (depth - n)).length ≤ 1 := by
        unfold stage
        split <;> simp
      rw [held, List.length_append]
      omega

end Items

theorem levelPipeline_fifo (depth : Nat) :
    (levelPipeline depth : Buffer (State α) α).Fifo depth fun s q => held depth s depth = q := by
  refine ⟨fun s r => ?_, fun s q contents => ?_, fun s r q contents => ⟨_, rfl, ?_⟩⟩
  · have empty : ∀ n, held depth ((levelPipeline depth).reset s r) n = [] := by
      intro n
      induction n with
      | zero => rfl
      | succ n ih =>
          rw [held, ih]
          rfl
    exact empty depth
  · rw [← contents]
    exact length_held s depth
  · have law := held_step s r (Nat.le_refl depth)
    rw [Nat.sub_self] at law
    rw [← contents, pushed_eq, popped_eq, law]

/-- In a cycle in which the output is free the stages behind the last ones move up. -/
theorem held_free (depth : Nat) (s : State α) (r : Request α) (free : r.popReq = true) {n : Nat} (within : n < depth) :
    held depth s (n + 1) = leaves depth s r depth ++ held depth ((levelPipeline depth).next s r) n := by
  have law := held_step s r (Nat.le_of_lt within)
  obtain ⟨i, isStage⟩ : ∃ i, depth - n = i + 1 := ⟨depth - n - 1, by omega⟩
  rw [isStage, leaves_stage, free, Bool.not_true, stalls_of_free, if_neg Bool.false_ne_true, ← isStage] at law
  exact law

/-- The items of the last stages come out in as many cycles with a free output. -/
theorem held_prefix_pops (depth : Nat) (rs : List (Request α)) :
    ∀ (s : State α) (n : Nat), n ≤ depth → n ≤ rs.countP Request.popReq →
      held depth s n <+: (levelPipeline depth).pops s rs := by
  induction rs with
  | nil =>
      intro s n _ enough
      rw [List.countP_nil, Nat.le_zero] at enough
      rw [enough]
      exact List.nil_prefix
  | cons r rs ih =>
      intro s n within enough
      rw [Buffer.pops, popped_eq]
      cases free : r.popReq with
      | false =>
          have refused : leaves depth s r depth = [] := by
            rw [leaves, stalls_output, free, Bool.not_false, Bool.not_true, Bool.and_false, if_neg Bool.false_ne_true]
          have law := held_step s r within
          rw [List.countP_cons_of_neg (by rw [free]; exact Bool.false_ne_true)] at enough
          rw [refused, List.nil_append] at law ⊢
          exact (List.prefix_append _ _).trans (law ▸ ih _ n within enough)
      | true =>
          cases n with
          | zero => exact List.nil_prefix
          | succ n =>
              rw [List.countP_cons_of_pos free] at enough
              rw [held_free depth s r free within]
              exact List.prefix_append_right_inj _ |>.mpr (ih _ n (by omega) (by omega))

theorem output_held {depth : Nat} (pos : 0 < depth) {s : State α} {r : Request α} (refused : r.popReq = false)
    (valid : ((levelPipeline depth).respond s r).popAck = true) (later : Request α) :
    let B : Buffer (State α) α := levelPipeline depth
    (B.respond (B.next s r) later).popAck = true ∧ (B.respond (B.next s r) later).dataOut = (B.respond s r).dataOut := by
  obtain ⟨d, rfl⟩ : ∃ d, depth = d + 1 := ⟨depth - 1, by omega⟩
  have validBit : s.ivalids (d + 1) = true := valid
  have stalled : stalls (d + 1) (!r.popReq) s.ivalids (d + 1) = true := by
    rw [stalls_stage _ _ _ (Nat.le_refl _), validBit, stalls_output, refused]
    rfl
  refine ⟨?_, ?_⟩
  · change tick (d + 1) (!r.popReq) r.pushReq s.ivalids (d + 1) = true
    rw [tick, stalled, if_pos rfl, validBit]
  · change SquashLevelRepeater.tick (stalls (d + 1) (!r.popReq) s.ivalids) true r.dataIn s.regs (d + 1) = s.regs (d + 1)
    rw [SquashLevelRepeater.tick, stalled, if_pos rfl]

/-- From a reset on, the items that have come out and then those in the stages are the items
that were accepted; they are out after as many cycles with a free output as there are
stages, and a refused one is held. -/
theorem levelPipeline_carries_items {depth : Nat} (pos : 0 < depth) (s : State α) (r : Request α) :
    let B : Buffer (State α) α := levelPipeline depth
    let start := B.reset s r
    (∀ rs, B.pushes start rs = B.pops start rs ++ held depth (B.run start rs) depth ∧
      (held depth (B.run start rs) depth).length ≤ depth) ∧
    (∀ rs later, depth ≤ later.countP Request.popReq → B.pushes start rs <+: B.pops start (rs ++ later)) ∧
    ∀ rs request next, request.popReq = false → (B.respond (B.run start rs) request).popAck = true →
      (B.respond (B.run start (rs ++ [request])) next).popAck = true ∧
        (B.respond (B.run start (rs ++ [request])) next).dataOut = (B.respond (B.run start rs) request).dataOut := by
  intro B start
  have law : ∀ rs, B.pushes start rs = B.pops start rs ++ held depth (B.run start rs) depth ∧
      (held depth (B.run start rs) depth).length ≤ depth := by
    intro rs
    obtain ⟨_, rfl, bounded, law⟩ := (levelPipeline_fifo depth).run_reset s r rs
    exact ⟨law, bounded⟩
  refine ⟨law, fun rs later enough => ?_, fun rs request next refused valid => ?_⟩
  · rw [Buffer.pops_append, (law rs).1]
    exact (List.prefix_append_right_inj _).mpr (held_prefix_pops depth later _ depth (Nat.le_refl depth) enough)
  · rw [Buffer.run_append, Buffer.run_singleton]
    exact output_held pos refused valid next

/-- Two stages: the bubble behind the first item is squashed while the output stalls. -/
theorem levelPipeline_carries_items_two :
    let B : Buffer (State Nat) Nat := levelPipeline 2
    let start := B.reset ⟨fun _ => false, fun _ => 0⟩ ⟨0, false, true⟩
    let rs : List (Request Nat) := [⟨7, true, true⟩, ⟨0, false, true⟩, ⟨8, true, false⟩, ⟨9, true, false⟩]
    let later : List (Request Nat) := [⟨0, false, true⟩, ⟨0, false, true⟩]
    B.pushes start rs = [7, 8] ∧ B.pushes start rs <+: B.pops start (rs ++ later) :=
  ⟨rfl, (levelPipeline_carries_items (by decide) _ _).2.1 _ _ (by decide)⟩

end Ahir.Hardware.ValidPropagator
