import Mathlib.Tactic

/-!
# Places

The places of the control path: a counter of tokens of `LogWidth(capacity)`
bits, or a single bit, that a token comes into and leaves.  `place` shows a
token in the cycle after it came in, `place_with_bypass` in the same cycle.
-/

set_option autoImplicit false

namespace Ahir.Hardware

/-- The loop of `LogWidth`. -/
def logWidthLoop (x : Nat) : (fuel retVal : Nat) → Nat
  | 0, retVal => retVal
  | fuel + 1, retVal =>
      if 2 ^ (retVal + 1) > x then retVal + 1 else logWidthLoop x fuel (retVal + 1)

def logWidth (x : Nat) : Nat := if x > 1 then logWidthLoop x x 1 else 1

/-- A place: its state after the reset, what a clock edge makes of it when a
token comes in or leaves, whether it shows a token, and how many it holds. -/
structure TokenPlace where
  State : Type
  reset : State
  next : State → (incomingToken backwardReset : Bool) → State
  token : State → (incomingToken : Bool) → Bool
  count : State → Nat

def place (capacity marking : Nat) : TokenPlace where
  State := Nat
  reset := marking % 2 ^ logWidth capacity
  next := fun tokenLatch incomingToken backwardReset =>
    if backwardReset && !incomingToken then
      if tokenLatch > 0 then tokenLatch - 1 else tokenLatch
    else if incomingToken && !backwardReset then
      if tokenLatch < capacity then (tokenLatch + 1) % 2 ^ logWidth capacity else tokenLatch
    else tokenLatch
  token := fun tokenLatch _ => decide (tokenLatch > 0)
  count := fun tokenLatch => tokenLatch

/-- `CapGtOne`, a counter that wraps around in both directions. -/
def placeWithBypassCapGtOne (capacity marking : Nat) : TokenPlace where
  State := Nat
  reset := marking % 2 ^ logWidth capacity
  next := fun tokenLatch incomingToken backwardReset =>
    if incomingToken && !backwardReset then (tokenLatch + 1) % 2 ^ logWidth capacity
    else if backwardReset && !incomingToken then
      (tokenLatch + (2 ^ logWidth capacity - 1)) % 2 ^ logWidth capacity
    else tokenLatch
  token := fun tokenLatch incomingToken => incomingToken || decide (tokenLatch ≠ 0)
  count := fun tokenLatch => tokenLatch

/-- `CapEqOne`. -/
def placeWithBypassCapEqOne (marking : Nat) : TokenPlace where
  State := Bool
  reset := decide (marking > 0)
  next := fun nonZero incomingToken backwardReset =>
    if incomingToken && !backwardReset then true
    else if backwardReset && !incomingToken then false
    else nonZero
  token := fun nonZero incomingToken => incomingToken || nonZero
  count := fun nonZero => nonZero.toNat

def placeWithBypass (capacity marking : Nat) : TokenPlace :=
  if capacity > 1 then placeWithBypassCapGtOne capacity marking else placeWithBypassCapEqOne marking

/-- What a place is for: it counts the tokens that came in and have not left, as
long as none comes in over its capacity and none leaves that it does not show. -/
structure TokenPlace.Counts (P : TokenPlace) (capacity marking : Nat) (bypass : Bool) : Prop where
  reset : P.count P.reset = marking
  token : ∀ s incoming, P.token s incoming = (decide (0 < P.count s) || bypass && incoming)
  next : ∀ s incoming backward, P.count s ≤ capacity →
    (backward = true → P.token s incoming = true) →
    (incoming = true → backward = false → P.count s ≠ capacity) →
    P.count (P.next s incoming backward) + backward.toNat = P.count s + incoming.toNat

theorem TokenPlace.Counts.next_le {P : TokenPlace} {capacity marking : Nat} {bypass : Bool}
    (counts : P.Counts capacity marking bypass) {s : P.State} {incoming backward : Bool}
    (bounded : P.count s ≤ capacity) (leaves : backward = true → P.token s incoming = true)
    (room : incoming = true → backward = false → P.count s ≠ capacity) :
    P.count (P.next s incoming backward) ≤ capacity := by
  have step := counts.next s incoming backward bounded leaves room
  cases incoming <;> cases backward <;> simp at step room <;> omega

theorem lt_two_pow_logWidthLoop {x : Nat} : ∀ fuel retVal, x < 2 ^ (retVal + fuel) →
    x < 2 ^ logWidthLoop x fuel retVal := by
  intro fuel
  induction fuel with
  | zero =>
      intro retVal wide
      exact wide
  | succ fuel ih =>
      intro retVal wide
      unfold logWidthLoop
      split_ifs with found
      · exact found
      · apply ih
        rwa [Nat.add_assoc, Nat.add_comm 1 fuel]

/-- The counter has a value for every number of tokens up to the capacity. -/
theorem lt_two_pow_logWidth (x : Nat) : x < 2 ^ logWidth x := by
  unfold logWidth
  split_ifs with many
  · apply lt_two_pow_logWidthLoop
    calc x < 2 ^ x := Nat.lt_two_pow_self
      _ ≤ 2 ^ (1 + x) := Nat.pow_le_pow_right (by decide) (by omega)
  · omega

section Counts
variable {capacity marking : Nat}

theorem place_counts (fits : marking ≤ capacity) : (place capacity marking).Counts capacity marking false := by
  have wide := lt_two_pow_logWidth capacity
  refine ⟨Nat.mod_eq_of_lt (by omega), ?_, ?_⟩
  · intro (tokenLatch : Nat) incoming
    change decide (tokenLatch > 0) = (decide (0 < tokenLatch) || false && incoming)
    simp
  · intro s incoming backward bounded leaves room
    change Nat at s
    cases incoming <;> cases backward <;> simp [place] at bounded leaves room ⊢
    · rw [if_pos leaves]
      omega
    · have below : s < capacity := by omega
      rw [if_pos below, Nat.mod_eq_of_lt (by omega)]

theorem placeWithBypassCapGtOne_counts (fits : marking ≤ capacity) :
    (placeWithBypassCapGtOne capacity marking).Counts capacity marking true := by
  have wide := lt_two_pow_logWidth capacity
  refine ⟨Nat.mod_eq_of_lt (by omega), ?_, ?_⟩
  · intro (tokenLatch : Nat) incoming
    change (incoming || decide (tokenLatch ≠ 0)) = (decide (0 < tokenLatch) || true && incoming)
    rw [Bool.true_and, Bool.or_comm, decide_eq_decide.mpr Nat.pos_iff_ne_zero]
  · intro s incoming backward bounded leaves room
    change Nat at s
    cases incoming <;> cases backward <;> simp [placeWithBypassCapGtOne] at bounded leaves room ⊢
    · rw [show s + (2 ^ logWidth capacity - 1) = s - 1 + 2 ^ logWidth capacity by omega,
        Nat.add_mod_right, Nat.mod_eq_of_lt (by omega)]
      omega
    · rw [Nat.mod_eq_of_lt (by omega)]

theorem placeWithBypassCapEqOne_counts (fits : marking ≤ 1) :
    (placeWithBypassCapEqOne marking).Counts 1 marking true := by
  refine ⟨?_, ?_, ?_⟩
  · simp only [placeWithBypassCapEqOne]
    interval_cases marking <;> rfl
  · intro s incoming
    change Bool at s
    cases s <;> cases incoming <;> rfl
  · intro s incoming backward bounded leaves room
    change Bool at s
    cases s <;> cases incoming <;> cases backward <;>
      simp [placeWithBypassCapEqOne] at leaves room ⊢

theorem placeWithBypass_counts (positive : 0 < capacity) (fits : marking ≤ capacity) :
    (placeWithBypass capacity marking).Counts capacity marking true := by
  unfold placeWithBypass
  split_ifs with many
  · exact placeWithBypassCapGtOne_counts fits
  · obtain rfl : capacity = 1 := by omega
    exact placeWithBypassCapEqOne_counts fits

end Counts

end Ahir.Hardware
