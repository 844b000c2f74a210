import Mathlib.Data.Int.Notation

/-!
# SquashLevelRepeater

A shift register each of whose stages has its own stall, and the delayed copies
of a signal along the stall indices of a pipeline.
-/

set_option autoImplicit false

namespace Ahir.Hardware.SquashLevelRepeater
variable {α : Type}

/-- `data_regs`, where `data_regs(0)` follows the inputs and the enable: with the
enable low the first register is inserted again. -/
def dataRegs (enable : Bool) (dataIn : α) (regs : Nat → α) : Nat → α
  | 0 => if enable then dataIn else regs 1
  | i + 1 => regs (i + 1)

/-- The clock edge: the registers whose `stall_vector(I)` is low shift. -/
def tick (stallVector : Nat → Bool) (enable : Bool) (dataIn : α) (regs : Nat → α) : Nat → α
  | 0 => regs 0
  | i + 1 => if stallVector (i + 1) then regs (i + 1) else dataRegs enable dataIn regs i

/-- The registers after `t` edges, from uninitialised ones. -/
def registers (uninitialised : α) (stallVector : Nat → Nat → Bool) (enable : Nat → Bool) (dataIn : Nat → α) :
    Nat → Nat → α
  | 0 => fun _ => uninitialised
  | t + 1 => tick (fun i => stallVector i t) (enable t) (dataIn t) (registers uninitialised stallVector enable dataIn t)

/-- `data_out`; the generate of depth 0 has no enable. -/
def dataOut (uninitialised : α) (depth : Nat) (stallVector : Nat → Nat → Bool) (enable : Nat → Bool)
    (dataIn : Nat → α) (t : Nat) : α :=
  if depth = 0 then dataIn t
  else dataRegs (enable t) (dataIn t) (registers uninitialised stallVector enable dataIn t) depth

/-- The signal behind `k` registers, the `i`-th of them under `stall(level + i)`. -/
def delayed (uninitialised : α) (stall : Int → Nat → Bool) (level : Int) (source : Nat → α) : Nat → Nat → α
  | 0, t => source t
  | _ + 1, 0 => uninitialised
  | k + 1, t + 1 =>
      if stall (level + (k + 1 : Nat)) t then delayed uninitialised stall level source (k + 1) t
      else delayed uninitialised stall level source k t

section
variable (uninitialised : α) (stall : Int → Nat → Bool) (level : Int) (source : Nat → α)

@[simp]
theorem delayed_zero : delayed uninitialised stall level source 0 = source := by
  funext t
  rw [delayed]

theorem delayed_delayed (m : Nat) : ∀ n t,
    delayed uninitialised stall (level + m) (delayed uninitialised stall level source m) n t =
      delayed uninitialised stall level source (m + n) t := by
  intro n t
  induction t generalizing n with
  | zero =>
      cases n with
      | zero => rfl
      | succ n => rfl
  | succ t ih =>
      cases n with
      | zero => rfl
      | succ n =>
          have index : level + (m : Int) + ((n + 1 : Nat) : Int) = level + ((m + n + 1 : Nat) : Int) := by omega
          simp only [delayed]
          rw [index, ih (n + 1), ih n]
          rfl

/-- With the enable high the repeater at `stall(level + 1 to level + depth)` only delays. -/
theorem dataOut_eq_delayed (depth : Nat) (t : Nat) :
    dataOut uninitialised depth (fun i => stall (level + i)) (fun _ => true) source t =
      delayed uninitialised stall level source depth t := by
  have registers_eq : ∀ t i, registers uninitialised (fun i => stall (level + i)) (fun _ => true) source t (i + 1) =
      delayed uninitialised stall level source (i + 1) t := by
    intro t
    induction t with
    | zero => exact fun _ => rfl
    | succ t ih =>
        intro i
        cases i with
        | zero => simp only [registers, tick, delayed, dataRegs, ih 0, if_true]
        | succ i => simp only [registers, tick, delayed, dataRegs, ih]
  cases depth with
  | zero => simp only [dataOut, delayed, if_true]
  | succ depth =>
      rw [dataOut, if_neg (Nat.succ_ne_zero depth)]
      exact registers_eq t depth

end

end Ahir.Hardware.SquashLevelRepeater
