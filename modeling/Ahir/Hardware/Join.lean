import Ahir.Hardware.Place

/-!
# Joins

A join has a place for each predecessor and fires when every place shows a
token; the firing takes a token from each.  `generic_join` delays its
predecessors, `marked_join` has places that start with a token, and
`join_with_input` has a place for its input.
-/

set_option autoImplicit false

namespace Ahir.Hardware

/-- The generics of a place and of the delay element before it. -/
structure PlaceGenerics where
  capacity : Nat
  marking : Nat
  bypass : Bool
  delay : Nat := 0

def PlaceGenerics.circuit (g : PlaceGenerics) : TokenPlace :=
  if g.bypass then placeWithBypass g.capacity g.marking else place g.capacity g.marking

structure PlaceGenerics.Asserted (g : PlaceGenerics) : Prop where
  capacity_pos : 0 < g.capacity
  marking_le : g.marking ≤ g.capacity

theorem PlaceGenerics.Asserted.counts {g : PlaceGenerics} (asserted : g.Asserted) :
    g.circuit.Counts g.capacity g.marking g.bypass := by
  unfold circuit
  cases bypass : g.bypass with
  | false => exact place_counts asserted.marking_le
  | true => exact placeWithBypass_counts asserted.capacity_pos asserted.marking_le

section DelayElement

/-- The output of `control_delay_element` with these registers. -/
def delayAck (srState : List Bool) (req : Bool) : Bool :=
  match srState with
  | [] => req
  | first :: rest => (first :: rest).getLast (List.cons_ne_nil first rest)

def delayNext (srState : List Bool) (req : Bool) : List Bool :=
  match srState with
  | [] => []
  | first :: rest => req :: (first :: rest).dropLast

theorem delay_step (srState : List Bool) (req : Bool) :
    srState.reverse ++ [req] = delayAck srState req :: (delayNext srState req).reverse := by
  cases srState with
  | nil => rfl
  | cons first rest =>
      have split := List.dropLast_append_getLast (List.cons_ne_nil first rest)
      calc (first :: rest).reverse ++ [req]
          = ((first :: rest).dropLast ++ [delayAck (first :: rest) req]).reverse ++ [req] := by
            rw [delayAck, split]
        _ = delayAck (first :: rest) req :: (delayNext (first :: rest) req).reverse := by
            rw [List.reverse_append, List.reverse_singleton, delayNext, List.reverse_cons, List.append_assoc]
            rfl

end DelayElement

section Entities
variable {n m : Nat}

def genericJoin (capacities markings delays : Fin n → Nat) : Fin n → PlaceGenerics := fun i =>
  { capacity := capacities i, marking := markings i, bypass := true, delay := delays i }

def join (placeCapacity : Nat) (bypass : Bool) : Fin n → PlaceGenerics := fun _ =>
  { capacity := placeCapacity, marking := 0, bypass := bypass }

def joinWithInput (placeCapacity : Nat) (bypass : Bool) : Fin n ⊕ Unit → PlaceGenerics
  | .inl _ => { capacity := placeCapacity, marking := 0, bypass := bypass }
  | .inr _ => { capacity := placeCapacity, marking := 0, bypass := true }

def markedJoin (placeCapacity : Nat) (bypass : Bool) (markedPredecessorBypass : Fin m → Bool) :
    Fin n ⊕ Fin m → PlaceGenerics
  | .inl _ => { capacity := placeCapacity, marking := 0, bypass := bypass }
  | .inr i => { capacity := placeCapacity, marking := 1, bypass := markedPredecessorBypass i }

theorem markedJoin_asserted {placeCapacity : Nat} {bypass : Bool} {markedPredecessorBypass : Fin m → Bool}
    (positive : 0 < placeCapacity) (i : Fin n ⊕ Fin m) :
    (markedJoin placeCapacity bypass markedPredecessorBypass i).Asserted := by
  cases i with
  | inl i => exact ⟨positive, Nat.zero_le _⟩
  | inr i => exact ⟨positive, positive⟩

end Entities

structure JoinState {ι : Type} (g : ι → PlaceGenerics) where
  srState : ι → List Bool
  placeState : (i : ι) → (g i).circuit.State

namespace JoinState
variable {ι : Type} [Fintype ι] (g : ι → PlaceGenerics)

def reset : JoinState g where
  srState := fun i => List.replicate (g i).delay false
  placeState := fun i => (g i).circuit.reset

variable {g} (s : JoinState g) (preds : ι → Bool)

def arrives (i : ι) : Bool := delayAck (s.srState i) (preds i)

/-- `symbol_out`, the conjunction over all places. -/
def fires : Bool := decide (∀ i, (g i).circuit.token (s.placeState i) (s.arrives preds i) = true)

def next : JoinState g where
  srState := fun i => delayNext (s.srState i) (preds i)
  placeState := fun i => (g i).circuit.next (s.placeState i) (s.arrives preds i) (s.fires preds)

def run (cycles : List (ι → Bool)) : JoinState g := cycles.foldl next s

def tokens (i : ι) : Nat := (g i).circuit.count (s.placeState i)

def arrivals : JoinState g → List (ι → Bool) → ι → Nat
  | _, [], _ => 0
  | s, preds :: cycles, i => (s.arrives preds i).toNat + arrivals (s.next preds) cycles i

def firings : JoinState g → List (ι → Bool) → Nat
  | _, [] => 0
  | s, preds :: cycles => (s.fires preds).toNat + firings (s.next preds) cycles

/-- No token comes into a place that is full while the join does not fire. -/
def NoOverflow : JoinState g → List (ι → Bool) → Prop
  | _, [] => True
  | s, preds :: cycles =>
      (∀ i, s.arrives preds i = true → s.fires preds = false → s.tokens i ≠ (g i).capacity) ∧
        NoOverflow (s.next preds) cycles

instance : (s : JoinState g) → (cycles : List (ι → Bool)) → Decidable (s.NoOverflow cycles)
  | _, [] => inferInstanceAs (Decidable True)
  | s, preds :: cycles =>
      have : Decidable ((s.next preds).NoOverflow cycles) := instDecidableNoOverflow (s.next preds) cycles
      inferInstanceAs (Decidable (_ ∧ _))

variable {s preds}

/-- A join fires when each of its places has a token, or lets one pass. -/
theorem fires_iff (asserted : ∀ i, (g i).Asserted) :
    s.fires preds = true ↔ ∀ i, 0 < s.tokens i ∨ (g i).bypass = true ∧ s.arrives preds i = true := by
  rw [fires, decide_eq_true_iff]
  apply forall_congr'
  intro i
  rw [(asserted i).counts.token, Bool.or_eq_true, Bool.and_eq_true, decide_eq_true_iff, tokens]

/-- A cycle adds the token that comes in and takes away the one of the firing. -/
theorem tokens_next (asserted : ∀ i, (g i).Asserted) (i : ι) (bounded : s.tokens i ≤ (g i).capacity)
    (room : s.arrives preds i = true → s.fires preds = false → s.tokens i ≠ (g i).capacity) :
    (s.next preds).tokens i + (s.fires preds).toNat = s.tokens i + (s.arrives preds i).toNat ∧
      (s.next preds).tokens i ≤ (g i).capacity := by
  have shown : s.fires preds = true →
      (g i).circuit.token (s.placeState i) (s.arrives preds i) = true := by
    intro fires
    rw [JoinState.fires, decide_eq_true_iff] at fires
    exact fires i
  have counts := (asserted i).counts
  exact ⟨counts.next _ _ _ bounded shown room, counts.next_le bounded shown room⟩

theorem tokens_run (asserted : ∀ i, (g i).Asserted) (i : ι) :
    ∀ (cycles : List (ι → Bool)) (s : JoinState g), s.tokens i ≤ (g i).capacity →
      s.NoOverflow cycles →
      (s.run cycles).tokens i + s.firings cycles = s.tokens i + s.arrivals cycles i ∧
        (s.run cycles).tokens i ≤ (g i).capacity := by
  intro cycles
  induction cycles with
  | nil =>
      intro s bounded _
      exact ⟨rfl, bounded⟩
  | cons preds cycles ih =>
      intro s bounded noOverflow
      obtain ⟨step, bounded'⟩ := tokens_next asserted i bounded (noOverflow.1 i)
      obtain ⟨rest, last⟩ := ih (s.next preds) bounded' noOverflow.2
      refine ⟨?_, last⟩
      rw [firings, arrivals]
      have run : s.run (preds :: cycles) = (s.next preds).run cycles := rfl
      rw [run]
      omega

/-- The tokens that come in are those in the delay registers, the oldest first,
and then the signals of the predecessor. -/
theorem arrivals_eq (i : ι) : ∀ (cycles : List (ι → Bool)) (s : JoinState g),
    s.arrivals cycles i =
      (((s.srState i).reverse ++ cycles.map fun preds => preds i).take cycles.length).count true := by
  intro cycles
  induction cycles with
  | nil =>
      intro s
      simp [arrivals]
  | cons preds cycles ih =>
      intro s
      have shift : (s.srState i).reverse ++ (preds :: cycles).map (fun preds => preds i) =
          s.arrives preds i :: (((s.next preds).srState i).reverse ++ cycles.map fun preds => preds i) := by
        rw [List.map_cons, ← List.singleton_append, ← List.append_assoc, delay_step, List.cons_append]
        rfl
      rw [arrivals, ih, shift, List.length_cons, List.take_succ_cons, List.count_cons]
      cases s.arrives preds i <;> simp [Nat.add_comm]

theorem arrivals_reset (cycles : List (ι → Bool)) (i : ι) :
    (reset g).arrivals cycles i =
      ((cycles.map fun preds => preds i).take (cycles.length - (g i).delay)).count true := by
  rw [arrivals_eq, reset, List.reverse_replicate, List.take_append, List.count_append,
    List.take_replicate, List.count_replicate, List.length_replicate]
  simp

end JoinState

/-- From the reset on, every place holds its marking and what came in less the
firings, within its capacity, and the join fires when every place has a token or
lets one pass. -/
theorem join_transition_rule {ι : Type} [Fintype ι] {g : ι → PlaceGenerics}
    (asserted : ∀ i, (g i).Asserted) {cycles : List (ι → Bool)}
    (noOverflow : (JoinState.reset g).NoOverflow cycles) :
    let last := (JoinState.reset g).run cycles
    (∀ i, last.tokens i + (JoinState.reset g).firings cycles =
        (g i).marking + (JoinState.reset g).arrivals cycles i ∧
      last.tokens i ≤ (g i).capacity ∧
      (JoinState.reset g).arrivals cycles i =
        ((cycles.map fun preds => preds i).take (cycles.length - (g i).delay)).count true) ∧
    ∀ preds, last.fires preds = true ↔
      ∀ i, 0 < last.tokens i ∨ (g i).bypass = true ∧ last.arrives preds i = true := by
  intro last
  refine ⟨fun i => ?_, fun preds => JoinState.fires_iff asserted⟩
  have marked : (JoinState.reset g).tokens i = (g i).marking := (asserted i).counts.reset
  have fits := (asserted i).marking_le
  obtain ⟨tokens, bounded⟩ := JoinState.tokens_run asserted i cycles (JoinState.reset g)
    (marked ▸ fits) noOverflow
  rw [marked] at tokens
  exact ⟨tokens, bounded, JoinState.arrivals_reset cycles i⟩

/-- A marked join whose marked predecessor comes late. -/
theorem join_transition_rule_marked :
    let g : Fin 1 ⊕ Fin 1 → PlaceGenerics := markedJoin 1 true fun _ => false
    let cycles : List (Fin 1 ⊕ Fin 1 → Bool) :=
      [fun i => i.isLeft, fun i => i.isLeft, fun i => i.isRight, fun _ => false]
    (JoinState.reset g).firings cycles = 2 ∧
      ∀ i, ((JoinState.reset g).run cycles).tokens i + (JoinState.reset g).firings cycles =
        (g i).marking + (JoinState.reset g).arrivals cycles i := by
  refine ⟨by decide, fun i => ((join_transition_rule ?_ ?_).1 i).1⟩
  · exact markedJoin_asserted (by decide)
  · decide

end Ahir.Hardware
