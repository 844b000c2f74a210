import Ahir.Hardware.Place
import Ahir.Hardware.QueueBase

/-!
# The loop terminator

`loop_terminator` bounds the iterations of a pipelined loop that are in flight.
It counts the slots that are free: a continue takes one and starts the next
iteration, an iteration that leaves the body gives one back, and a terminate
waits until every slot is back, but for the one that the first iteration of the
next execution of the loop takes.
-/

set_option autoImplicit false

namespace Ahir.Hardware

structure LoopEvents where
  bodyExit : Bool
  loopContinue : Bool
  loopTerminate : Bool

def lcPlace : TokenPlace := placeWithBypass 1 0

def ltPlace : TokenPlace := place 1 0

def lbePlace : TokenPlace := place 1 0

structure LoopState where
  availableIterations : Nat
  lc : lcPlace.State
  lt : ltPlace.State
  lbe : lbePlace.State

namespace LoopState
variable (maxIterations : Nat)

/-- `To_Unsigned`, to the width of the counter. -/
def toCounter (value : Nat) : Nat := value % 2 ^ ceilLog2 (maxIterations + 1)

def reset : LoopState where
  availableIterations := toCounter maxIterations (maxIterations - 1)
  lc := lcPlace.reset
  lt := ltPlace.reset
  lbe := lbePlace.reset

variable (s : LoopState) (e : LoopEvents)

def incr : Bool := lbePlace.token s.lbe e.bodyExit

def loopBack : Bool := lcPlace.token s.lc e.loopContinue && decide (s.availableIterations > 0)

def lastLeaves : Bool :=
  s.incr e && !s.loopBack e && decide (s.availableIterations = maxIterations - 1)

def loopExit : Bool :=
  ltPlace.token s.lt e.loopTerminate &&
    (decide (s.availableIterations = maxIterations) || s.lastLeaves maxIterations e)

def nextAvailable : Nat :=
  if s.loopExit maxIterations e then toCounter maxIterations (maxIterations - 1)
  else if s.incr e && !s.loopBack e then toCounter maxIterations (s.availableIterations + 1)
  else if s.loopBack e && !s.incr e then
    toCounter maxIterations (s.availableIterations + (2 ^ ceilLog2 (maxIterations + 1) - 1))
  else s.availableIterations

def next : LoopState where
  availableIterations := s.nextAvailable maxIterations e
  lc := lcPlace.next s.lc e.loopContinue (s.loopBack e)
  lt := ltPlace.next s.lt e.loopTerminate (s.loopExit maxIterations e)
  lbe := lbePlace.next s.lbe e.bodyExit (s.incr e)

end LoopState

/-- What happened in a run: the iterations that were started, that decided to
continue or to terminate, that left the body, and the exits from the loop.  The
first iteration of an execution counts as started from the reset, or from the
exit before, on; its slot is taken there. -/
structure LoopTally where
  started : Nat
  continued : Nat
  terminated : Nat
  left : Nat
  exits : Nat

namespace LoopTally

def reset : LoopTally := { started := 1, continued := 0, terminated := 0, left := 0, exits := 0 }

variable (maxIterations : Nat) (t : LoopTally) (s : LoopState) (e : LoopEvents)

def next : LoopTally where
  started := t.started + (s.loopBack e).toNat + (s.loopExit maxIterations e).toNat
  continued := t.continued + e.loopContinue.toNat
  terminated := t.terminated + e.loopTerminate.toNat
  left := t.left + e.bodyExit.toNat
  exits := t.exits + (s.loopExit maxIterations e).toNat

/-- The protocol of the loop: an iteration decides once, in a cycle after it was
started, and leaves the body once. -/
structure Admits : Prop where
  decides : (t.next maxIterations s e).continued + (t.next maxIterations s e).terminated ≤ t.started
  leaves : (t.next maxIterations s e).left ≤ (t.next maxIterations s e).started

end LoopTally

inductive LoopRun (maxIterations : Nat) : LoopState → LoopTally → Prop
  | reset : LoopRun maxIterations (LoopState.reset maxIterations) LoopTally.reset
  | cycle {s : LoopState} {t : LoopTally} (e : LoopEvents) : LoopRun maxIterations s t →
      t.Admits maxIterations s e → LoopRun maxIterations (s.next maxIterations e) (t.next maxIterations s e)

structure LoopBalance (maxIterations : Nat) (s : LoopState) (t : LoopTally) : Prop where
  slots : s.availableIterations + lbePlace.count s.lbe + t.started = maxIterations + t.left
  left_le : t.left ≤ t.started
  lbe_le : lbePlace.count s.lbe ≤ 1
  decisions : lcPlace.count s.lc + ltPlace.count s.lt + t.started = 1 + t.continued + t.terminated
  decided_le : t.continued + t.terminated ≤ t.started
  exits : t.exits + ltPlace.count s.lt = t.terminated

theorem lcPlace_counts : lcPlace.Counts 1 0 true := placeWithBypass_counts (by decide) (by decide)

theorem ltPlace_counts : ltPlace.Counts 1 0 false := place_counts (by decide)

theorem lbePlace_counts : lbePlace.Counts 1 0 false := place_counts (by decide)

section Step
variable {maxIterations : Nat} {s : LoopState} {t : LoopTally} {e : LoopEvents}

theorem toCounter_of_le {value : Nat} (fits : value ≤ maxIterations) :
    LoopState.toCounter maxIterations value = value := by
  have wide := le_two_pow_ceilLog2 (maxIterations + 1)
  exact Nat.mod_eq_of_lt (by omega)

theorem LoopState.incr_iff : s.incr e = true ↔ 0 < lbePlace.count s.lbe := by
  simp [incr, lbePlace_counts.token]

theorem LoopState.loopBack_iff : s.loopBack e = true ↔
    (0 < lcPlace.count s.lc ∨ e.loopContinue = true) ∧ 0 < s.availableIterations := by
  simp [loopBack, lcPlace_counts.token]

namespace LoopBalance
variable (balance : LoopBalance maxIterations s t) (admits : t.Admits maxIterations s e)
include balance admits

/-- There is one token of a decision, or one comes in, or the iteration that was
started last has not decided. -/
theorem oneDecision : lcPlace.count s.lc + ltPlace.count s.lt + e.loopContinue.toNat +
    e.loopTerminate.toNat ≤ 1 := by
  have decisions := balance.decisions
  have decides := admits.decides
  simp only [LoopTally.next] at decides
  omega

theorem no_loopBack (waits : 0 < ltPlace.count s.lt) : s.loopBack e = false := by
  have one := balance.oneDecision admits
  rw [← Bool.not_eq_true, LoopState.loopBack_iff]
  rintro ⟨pending | arrives, _⟩
  · omega
  · rw [arrives, Bool.toNat_true] at one
    omega

/-- The exit is in the cycle in which a terminate waits and every iteration that
was started has left the body. -/
theorem loopExit_iff (positive : 0 < maxIterations) : s.loopExit maxIterations e = true ↔
    0 < ltPlace.count s.lt ∧ t.left = t.started := by
  have slots := balance.slots
  have left_le := balance.left_le
  have lbe_le := balance.lbe_le
  simp only [LoopState.loopExit, LoopState.lastLeaves, ltPlace_counts.token, Bool.and_eq_true,
    Bool.or_eq_true, decide_eq_true_eq, Bool.false_and, Bool.or_false, Bool.not_eq_true',
    LoopState.incr_iff]
  constructor
  · rintro ⟨waits, full | ⟨⟨pending, _⟩, last⟩⟩
    · exact ⟨waits, by omega⟩
    · exact ⟨waits, by omega⟩
  · rintro ⟨waits, all⟩
    refine ⟨waits, ?_⟩
    have still := balance.no_loopBack admits waits
    rcases Nat.eq_zero_or_pos (lbePlace.count s.lbe) with none | pending
    · exact Or.inl (by omega)
    · exact Or.inr ⟨⟨pending, still⟩, by omega⟩

omit admits in
theorem nextAvailable_eq (positive : 0 < maxIterations) :
    s.nextAvailable maxIterations e = if s.loopExit maxIterations e then maxIterations - 1
      else s.availableIterations + (s.incr e).toNat - (s.loopBack e).toNat := by
  have room : s.incr e = true → s.availableIterations < maxIterations := by
    intro incr
    have pending := LoopState.incr_iff.mp incr
    have slots := balance.slots
    have left_le := balance.left_le
    omega
  have bounded : s.availableIterations ≤ maxIterations := by
    have slots := balance.slots
    have left_le := balance.left_le
    omega
  unfold LoopState.nextAvailable
  cases exit : s.loopExit maxIterations e with
  | true => exact toCounter_of_le (by omega)
  | false =>
      cases incr : s.incr e with
      | true =>
          cases back : s.loopBack e with
          | true => simp
          | false => simpa using toCounter_of_le (room incr)
      | false =>
          cases back : s.loopBack e with
          | false => simp
          | true =>
              have free := (LoopState.loopBack_iff.mp back).2
              have wide : 0 < 2 ^ ceilLog2 (maxIterations + 1) := Nat.two_pow_pos _
              simp only [Bool.false_eq_true, if_false, Bool.not_true, Bool.not_false, Bool.and_true,
                Bool.and_false, if_true, Bool.toNat_false, Bool.toNat_true, Nat.add_zero]
              rw [LoopState.toCounter, show s.availableIterations + (2 ^ ceilLog2 (maxIterations + 1) - 1) =
                s.availableIterations - 1 + 2 ^ ceilLog2 (maxIterations + 1) by omega, Nat.add_mod_right]
              exact toCounter_of_le (by omega)

theorem step (positive : 0 < maxIterations) :
    LoopBalance maxIterations (s.next maxIterations e) (t.next maxIterations s e) := by
  have one := balance.oneDecision admits
  have exitIff := balance.loopExit_iff admits positive
  have available := balance.nextAvailable_eq (e := e) positive
  have still := balance.no_loopBack admits
  have leaves := admits.leaves
  have decides := admits.decides
  obtain ⟨slots, left_le, lbe_le, decisions, decided_le, exits⟩ := balance
  -- what the places hold after the cycle
  have lc := lcPlace_counts.next s.lc e.loopContinue (s.loopBack e) (by omega)
    (fun back => by
      have token := LoopState.loopBack_iff.mp back
      simpa [lcPlace_counts.token] using token.1)
    (fun arrives _ => by
      rw [arrives, Bool.toNat_true] at one
      omega)
  have lt := ltPlace_counts.next s.lt e.loopTerminate (s.loopExit maxIterations e) (by omega)
    (fun exit => by
      simpa [ltPlace_counts.token] using (exitIff.mp exit).1)
    (fun arrives _ => by
      rw [arrives, Bool.toNat_true] at one
      omega)
  have lbe := lbePlace_counts.next s.lbe e.bodyExit (s.incr e) lbe_le (fun incr => incr)
    (fun _ stays => by
      rw [← Bool.not_eq_true, LoopState.incr_iff] at stays
      omega)
  have incr : (s.incr e).toNat = lbePlace.count s.lbe := by
    cases incr : s.incr e with
    | false =>
        rw [← Bool.not_eq_true, LoopState.incr_iff] at incr
        rw [Bool.toNat_false]
        omega
    | true =>
        have := LoopState.incr_iff.mp incr
        rw [Bool.toNat_true]
        omega
  have back : (s.loopBack e).toNat ≤ s.availableIterations := by
    cases back : s.loopBack e with
    | false => exact Nat.zero_le _
    | true => exact (LoopState.loopBack_iff.mp back).2
  have exited : e.bodyExit.toNat ≤ 1 := Bool.toNat_le e.bodyExit
  simp only [LoopTally.next] at leaves decides
  simp only [LoopState.next, LoopTally.next]
  cases exit : s.loopExit maxIterations e with
  | true =>
      have all := exitIff.mp exit
      have noBack := still all.1
      simp only [exit, noBack, if_true, Bool.toNat_true, Bool.toNat_false] at available leaves lc lt lbe ⊢
      constructor <;> simp only [] <;> omega
  | false =>
      simp only [exit, Bool.false_eq_true, if_false, Bool.toNat_false] at available leaves lc lt lbe ⊢
      constructor <;> simp only [] <;> omega

end LoopBalance

end Step

theorem LoopBalance.reset {maxIterations : Nat} (positive : 0 < maxIterations) :
    LoopBalance maxIterations (LoopState.reset maxIterations) LoopTally.reset := by
  have lc : lcPlace.count lcPlace.reset = 0 := lcPlace_counts.reset
  have lt : ltPlace.count ltPlace.reset = 0 := ltPlace_counts.reset
  have lbe : lbePlace.count lbePlace.reset = 0 := lbePlace_counts.reset
  have free := toCounter_of_le (Nat.sub_le maxIterations 1)
  constructor <;> simp only [LoopState.reset, LoopTally.reset, lc, lt, lbe, free] <;> omega

theorem LoopRun.balance {maxIterations : Nat} (positive : 0 < maxIterations) {s : LoopState} {t : LoopTally}
    (run : LoopRun maxIterations s t) : LoopBalance maxIterations s t := by
  induction run with
  | reset => exact LoopBalance.reset positive
  | cycle e _ admits ih => exact ih.step admits positive

/-- In every run that keeps the protocol the free slots and the iterations in
flight are as many as the bound; an iteration whose exit waits in its place is in
flight.  The exits from the loop are as many as the terminates, but for one that
waits.  Whatever the protocol admits next, an iteration is started only while a
slot is free, the counter does not wrap around, and the loop is left just when a
terminate waits and all iterations have left the body, which gives the counter
its initial value. -/
theorem loopTerminator_bounds_iterations {maxIterations : Nat} (positive : 0 < maxIterations)
    {s : LoopState} {t : LoopTally} (run : LoopRun maxIterations s t) :
    s.availableIterations + (lbePlace.count s.lbe + (t.started - t.left)) = maxIterations ∧
      t.left ≤ t.started ∧
      t.exits + ltPlace.count s.lt = t.terminated ∧
      ltPlace.count s.lt ≤ 1 ∧
      ∀ e, t.Admits maxIterations s e →
        (s.loopBack e = true → 0 < s.availableIterations ∧ t.started - t.left < maxIterations) ∧
        (s.loopExit maxIterations e = false →
          (s.next maxIterations e).availableIterations + (s.loopBack e).toNat =
            s.availableIterations + (s.incr e).toNat) ∧
        (s.loopExit maxIterations e = true ↔ 0 < ltPlace.count s.lt ∧ t.left = t.started) ∧
        (s.loopExit maxIterations e = true → s.loopBack e = false ∧
          (s.next maxIterations e).availableIterations =
            (LoopState.reset maxIterations).availableIterations) := by
  have balance := run.balance positive
  have slots := balance.slots
  have left_le := balance.left_le
  have decisions := balance.decisions
  have decided_le := balance.decided_le
  refine ⟨by omega, left_le, balance.exits, by omega, fun e admits => ⟨?_, ?_, ?_, ?_⟩⟩
  · intro back
    have free := (LoopState.loopBack_iff.mp back).2
    exact ⟨free, by omega⟩
  · intro stays
    have available := balance.nextAvailable_eq (e := e) positive
    rw [stays, if_neg Bool.false_ne_true] at available
    have back : (s.loopBack e).toNat ≤ s.availableIterations := by
      cases back : s.loopBack e with
      | false => exact Nat.zero_le _
      | true => exact (LoopState.loopBack_iff.mp back).2
    change s.nextAvailable maxIterations e + _ = _
    omega
  · exact balance.loopExit_iff admits positive
  · intro exit
    have available := balance.nextAvailable_eq (e := e) positive
    rw [exit, if_pos rfl] at available
    refine ⟨balance.no_loopBack admits ((balance.loopExit_iff admits positive).mp exit).1, ?_⟩
    change s.nextAvailable maxIterations e = LoopState.toCounter maxIterations (maxIterations - 1)
    rw [available, toCounter_of_le (Nat.sub_le _ _)]

/-- Two iterations, the second of which terminates while the first is in the body. -/
theorem loopTerminator_bounds_iterations_two :
    let events : List LoopEvents :=
      [⟨false, true, false⟩, ⟨true, false, true⟩, ⟨true, false, false⟩]
    let s := events.foldl (LoopState.next 2) (LoopState.reset 2)
    let last : LoopEvents := ⟨false, false, false⟩
    s.loopExit 2 last = true ∧
      (s.next 2 last).availableIterations = (LoopState.reset 2).availableIterations := by
  intro events s last
  have exit : s.loopExit 2 last = true := by decide
  have run := LoopRun.cycle ⟨true, false, false⟩ (LoopRun.cycle ⟨true, false, true⟩
    (LoopRun.cycle ⟨false, true, false⟩ (@LoopRun.reset 2)
      ⟨by decide, by decide⟩) ⟨by decide, by decide⟩) ⟨by decide, by decide⟩
  have next := (loopTerminator_bounds_iterations (by decide) run).2.2.2.2 last ⟨by decide, by decide⟩
  exact ⟨exit, (next.2.2.2 exit).2⟩

end Ahir.Hardware
