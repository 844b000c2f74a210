import Ahir.Data.Throughout
import Ahir.Hardware.Place

/-!
# Conditional forks

`conditional_fork` hands an input transition on to the output whose trigger is there.  There
is a place for each trigger and one for the input transition.  `phi_sequencer_v2` has two
of them, for the samples and for the updates.
-/

set_option autoImplicit false

namespace Ahir.Hardware
open Ahir.Data

structure ForkInputs (n : Nat) where
  triggers : Fin n → Bool
  inTransition : Bool

structure ConditionalFork (placeCapacity n : Nat) where
  trigPlaces : Fin n → (placeWithBypass placeCapacity 0).State
  inTransPlace : (placeWithBypass placeCapacity 0).State

namespace ConditionalFork
variable {placeCapacity n : Nat}

def reset : ConditionalFork placeCapacity n :=
  ⟨fun _ => (placeWithBypass placeCapacity 0).reset, (placeWithBypass placeCapacity 0).reset⟩

variable (s : ConditionalFork placeCapacity n) (i : ForkInputs n)

def trigToken (I : Fin n) : Bool := (placeWithBypass placeCapacity 0).token (s.trigPlaces I) (i.triggers I)

def inTransToken : Bool := (placeWithBypass placeCapacity 0).token s.inTransPlace i.inTransition

def trigClears (I : Fin n) : Bool := s.inTransToken i && s.trigToken i I

def outTransitions : Fin n → Bool := s.trigClears i

def inTransClear : Bool := (List.finRange n).any (s.trigClears i)

def next : ConditionalFork placeCapacity n where
  trigPlaces := fun I => (placeWithBypass placeCapacity 0).next (s.trigPlaces I) (i.triggers I) (s.trigClears i I)
  inTransPlace := (placeWithBypass placeCapacity 0).next s.inTransPlace i.inTransition (s.inTransClear i)

/-- The triggers of an index that wait, and the input transitions. -/
def waiting (I : Fin n) : Nat := (placeWithBypass placeCapacity 0).count (s.trigPlaces I)
def enabling : Nat := (placeWithBypass placeCapacity 0).count s.inTransPlace

def Triggered (I : Fin n) : Prop := 0 < s.waiting I ∨ i.triggers I = true

def Enabled : Prop := 0 < s.enabling ∨ i.inTransition = true

def Alone : Prop := s.Enabled i → ∀ I J, s.Triggered i I → s.Triggered i J → I = J

instance (I : Fin n) : Decidable (s.Triggered i I) := inferInstanceAs (Decidable (_ ∨ _))
instance : Decidable (s.Enabled i) := inferInstanceAs (Decidable (_ ∨ _))
instance : Decidable (s.Alone i) := inferInstanceAs (Decidable (_ → ∀ _I _J, _ → _ → _))

structure WithinCapacity : Prop where
  trigger : ∀ I, i.triggers I = true → s.waiting I = placeCapacity → s.trigClears i I = true
  inTransition : i.inTransition = true → s.enabling = placeCapacity → s.inTransClear i = true

instance : Decidable (s.WithinCapacity i) :=
  decidable_of_iff ((∀ I, i.triggers I = true → s.waiting I = placeCapacity → s.trigClears i I = true) ∧
      (i.inTransition = true → s.enabling = placeCapacity → s.inTransClear i = true))
    ⟨fun both => ⟨both.1, both.2⟩, fun within => ⟨within.trigger, within.inTransition⟩⟩

variable {s i}

theorem trigToken_iff (positive : 0 < placeCapacity) {I : Fin n} : s.trigToken i I = true ↔ s.Triggered i I := by
  rw [trigToken, (placeWithBypass_counts positive (Nat.zero_le _)).token, Bool.or_eq_true, decide_eq_true_iff,
    Bool.true_and]
  rfl

theorem inTransToken_iff (positive : 0 < placeCapacity) : s.inTransToken i = true ↔ s.Enabled i := by
  rw [inTransToken, (placeWithBypass_counts positive (Nat.zero_le _)).token, Bool.or_eq_true, decide_eq_true_iff,
    Bool.true_and]
  rfl

theorem trigClears_iff (positive : 0 < placeCapacity) {I : Fin n} :
    s.trigClears i I = true ↔ s.Enabled i ∧ s.Triggered i I := by
  rw [trigClears, Bool.and_eq_true, inTransToken_iff positive, trigToken_iff positive]

theorem inTransClear_iff (positive : 0 < placeCapacity) :
    s.inTransClear i = true ↔ s.Enabled i ∧ ∃ I, s.Triggered i I := by
  rw [inTransClear, List.any_eq_true]
  constructor
  · rintro ⟨I, -, clears⟩
    obtain ⟨enabled, triggered⟩ := (trigClears_iff positive).mp clears
    exact ⟨enabled, I, triggered⟩
  · rintro ⟨enabled, I, triggered⟩
    exact ⟨I, List.mem_finRange I, (trigClears_iff positive).mpr ⟨enabled, triggered⟩⟩

theorem waiting_next (positive : 0 < placeCapacity) (within : s.WithinCapacity i) (I : Fin n)
    (bounded : s.waiting I ≤ placeCapacity) :
    (s.next i).waiting I + (s.trigClears i I).toNat = s.waiting I + (i.triggers I).toNat ∧
      (s.next i).waiting I ≤ placeCapacity := by
  have counts := placeWithBypass_counts positive (Nat.zero_le placeCapacity)
  have shown : s.trigClears i I = true → s.trigToken i I = true := fun clears => (Bool.and_eq_true_iff.mp clears).2
  have room : i.triggers I = true → s.trigClears i I = false → s.waiting I ≠ placeCapacity := fun trigger stays full =>
    Bool.false_ne_true (stays.symm.trans (within.trigger I trigger full))
  exact ⟨counts.next _ _ _ bounded shown room, counts.next_le bounded shown room⟩

theorem enabling_next (positive : 0 < placeCapacity) (within : s.WithinCapacity i)
    (bounded : s.enabling ≤ placeCapacity) :
    (s.next i).enabling + (s.inTransClear i).toNat = s.enabling + i.inTransition.toNat ∧
      (s.next i).enabling ≤ placeCapacity := by
  have counts := placeWithBypass_counts positive (Nat.zero_le placeCapacity)
  have shown : s.inTransClear i = true → s.inTransToken i = true := fun clears =>
    (inTransToken_iff positive).mpr ((inTransClear_iff positive).mp clears).1
  have room : i.inTransition = true → s.inTransClear i = false → s.enabling ≠ placeCapacity := fun comes stays full =>
    Bool.false_ne_true (stays.symm.trans (within.inTransition comes full))
  exact ⟨counts.next _ _ _ bounded shown room, counts.next_le bounded shown room⟩

end ConditionalFork

/-- The fork with a log: the triggers in the order in which they came, the number of input
transitions, and the output transitions. -/
structure ForkLog (placeCapacity n : Nat) where
  fork : ConditionalFork placeCapacity n
  arrived : List (Fin n)
  tokens : Nat
  emitted : List (Fin n)

namespace ForkLog
variable {placeCapacity n : Nat}

def start : ForkLog placeCapacity n := ⟨ConditionalFork.reset, [], 0, []⟩

def next (b : ForkLog placeCapacity n) (i : ForkInputs n) : ForkLog placeCapacity n where
  fork := b.fork.next i
  arrived := b.arrived ++ (List.finRange n).filter i.triggers
  tokens := b.tokens + i.inTransition.toNat
  emitted := b.emitted ++ (List.finRange n).filter (b.fork.outTransitions i)

def after (ins : List (ForkInputs n)) : ForkLog placeCapacity n := ins.foldl next start

/-- No two outputs are for one token, and the outputs so far are the first of the triggers,
one for each input transition as long as there are triggers. -/
structure InOrder (b : ForkLog placeCapacity n) (i : ForkInputs n) : Prop where
  single : ∀ I J, b.fork.outTransitions i I = true → b.fork.outTransitions i J = true → I = J
  emitted : (b.next i).emitted = (b.next i).arrived.take (b.next i).tokens

instance (b : ForkLog placeCapacity n) (i : ForkInputs n) : Decidable (b.InOrder i) :=
  decidable_of_iff ((∀ I J, b.fork.outTransitions i I = true → b.fork.outTransitions i J = true → I = J) ∧
      (b.next i).emitted = (b.next i).arrived.take (b.next i).tokens)
    ⟨fun both => ⟨both.1, both.2⟩, fun order => ⟨order.single, order.emitted⟩⟩

variable (placeCapacity)

def KeepsOrder (ins : List (ForkInputs n)) : Prop :=
  Throughout (fun before i => (after before : ForkLog placeCapacity n).InOrder i) ins

/-- In each cycle of the run there are triggers of one index when there is an input transition. -/
def TriggersAlone (ins : List (ForkInputs n)) : Prop :=
  Throughout (fun before i => (after before : ForkLog placeCapacity n).fork.Alone i) ins

def RunWithinCapacity (ins : List (ForkInputs n)) : Prop :=
  Throughout (fun before i => (after before : ForkLog placeCapacity n).fork.WithinCapacity i) ins

instance (ins : List (ForkInputs n)) : Decidable (KeepsOrder placeCapacity ins) :=
  inferInstanceAs (Decidable (Throughout _ ins))
instance (ins : List (ForkInputs n)) : Decidable (TriggersAlone placeCapacity ins) :=
  inferInstanceAs (Decidable (Throughout _ ins))
instance (ins : List (ForkInputs n)) : Decidable (RunWithinCapacity placeCapacity ins) :=
  inferInstanceAs (Decidable (Throughout _ ins))

end ForkLog

section Indices
variable {n : Nat}

theorem count_filter_finRange (p : Fin n → Bool) (I : Fin n) : ((List.finRange n).filter p).count I = (p I).toNat := by
  cases holds : p I with
  | false => exact List.count_eq_zero_of_not_mem fun mem => Bool.false_ne_true (holds.symm.trans (List.mem_filter.mp mem).2)
  | true =>
      exact List.count_eq_one_of_mem ((List.nodup_finRange n).filter p) (List.mem_filter.mpr ⟨List.mem_finRange I, holds⟩)

theorem filter_finRange_eq_singleton {p : Fin n → Bool} {J : Fin n} (only : ∀ I, p I = true ↔ I = J) :
    (List.finRange n).filter p = [J] := by
  have same : (List.finRange n).filter p = (List.finRange n).filter (· == J) :=
    List.filter_congr fun I _ => Bool.eq_iff_iff.mpr ((only I).trans beq_iff_eq.symm)
  rw [same, List.filter_beq, List.count_eq_one_of_mem (List.nodup_finRange n) (List.mem_finRange J), List.replicate_one]

theorem filter_finRange_eq_nil {p : Fin n → Bool} (none : ∀ I, p I = false) : (List.finRange n).filter p = [] :=
  List.filter_eq_nil_iff.mpr fun I _ => Bool.eq_false_iff.mp (none I)

end Indices

namespace ForkLog
open ConditionalFork
variable {placeCapacity n : Nat} {b : ForkLog placeCapacity n} {rest : List (Fin n)} {i : ForkInputs n}

/-- The triggers that `rest` lists are in the places, or there is no input transition in its. -/
structure Inv (b : ForkLog placeCapacity n) (rest : List (Fin n)) : Prop where
  arrived : b.arrived = b.emitted ++ rest
  waiting : ∀ I, b.fork.waiting I = rest.count I
  waiting_le : ∀ I, b.fork.waiting I ≤ placeCapacity
  tokens : b.fork.enabling + b.emitted.length = b.tokens
  enabling_le : b.fork.enabling ≤ placeCapacity
  one : rest = [] ∨ b.fork.enabling = 0

theorem Inv.start (positive : 0 < placeCapacity) : (start : ForkLog placeCapacity n).Inv [] := by
  have reset := (placeWithBypass_counts positive (Nat.zero_le placeCapacity)).reset
  exact ⟨rfl, fun _ => reset, fun _ => reset.le.trans (Nat.zero_le _), reset, reset.le.trans (Nat.zero_le _), .inl rfl⟩

theorem Inv.triggered_iff (inv : b.Inv rest) (I : Fin n) :
    b.fork.Triggered i I ↔ I ∈ rest ++ (List.finRange n).filter i.triggers := by
  rw [ConditionalFork.Triggered, inv.waiting, List.count_pos_iff, List.mem_append, List.mem_filter]
  exact or_congr_right (and_iff_right (List.mem_finRange I)).symm

/-- What the fork emits in a cycle: the first of the triggers, with an input transition. -/
theorem Inv.emits (positive : 0 < placeCapacity) (inv : b.Inv rest) (alone : b.fork.Alone i) :
    ∃ out rest', rest ++ (List.finRange n).filter i.triggers = out ++ rest' ∧
      (List.finRange n).filter (b.fork.outTransitions i) = out ∧ out.length = (b.fork.inTransClear i).toNat ∧
      (b.fork.Enabled i → ∀ I ∈ rest', out = [I]) ∧ (b.fork.Enabled i → out = [] → rest' = []) := by
  by_cases enabled : b.fork.Enabled i
  · cases triggers : rest ++ (List.finRange n).filter i.triggers with
    | nil =>
        have none (I : Fin n) : ¬ b.fork.Triggered i I := fun triggered => by
          have mem := (inv.triggered_iff I).mp triggered
          rw [triggers] at mem
          cases mem
        have quiet : b.fork.inTransClear i = false := Bool.eq_false_iff.mpr fun clears =>
          have ⟨I, triggered⟩ := ((inTransClear_iff positive).mp clears).2
          none I triggered
        refine ⟨[], [], rfl, filter_finRange_eq_nil fun I => ?_, by rw [quiet]; rfl, fun _ I mem => (by cases mem), fun _ _ => rfl⟩
        exact Bool.eq_false_iff.mpr fun clears => none I ((trigClears_iff positive).mp clears).2
    | cons J rest' =>
        have triggered (I : Fin n) : b.fork.Triggered i I ↔ I ∈ J :: rest' := by rw [inv.triggered_iff, triggers]
        have only (I : Fin n) (mem : I ∈ J :: rest') : I = J :=
          alone enabled I J ((triggered I).mpr mem) ((triggered J).mpr List.mem_cons_self)
        have clears : b.fork.inTransClear i = true :=
          (inTransClear_iff positive).mpr ⟨enabled, J, (triggered J).mpr List.mem_cons_self⟩
        refine ⟨[J], rest', rfl, filter_finRange_eq_singleton fun I => ?_, by rw [clears]; rfl,
          fun _ I mem => by rw [only I (List.mem_cons_of_mem J mem)], fun _ nil => (by cases nil)⟩
        rw [outTransitions, trigClears_iff positive, triggered]
        exact ⟨fun both => only I both.2, fun eq => ⟨enabled, eq ▸ List.mem_cons_self⟩⟩
  · have quiet : b.fork.inTransClear i = false :=
      Bool.eq_false_iff.mpr fun clears => enabled ((inTransClear_iff positive).mp clears).1
    refine ⟨[], _, rfl, filter_finRange_eq_nil fun I => ?_, by rw [quiet]; rfl, fun is => absurd is enabled,
      fun is => absurd is enabled⟩
    exact Bool.eq_false_iff.mpr fun clears => enabled ((trigClears_iff positive).mp clears).1

theorem Inv.next (positive : 0 < placeCapacity) (inv : b.Inv rest) (alone : b.fork.Alone i)
    (within : b.fork.WithinCapacity i) : ∃ rest', (b.next i).Inv rest' := by
  obtain ⟨out, rest', split, emitted, length, same, empty⟩ := inv.emits positive alone
  have enabling := enabling_next positive within inv.enabling_le
  have tokens := inv.tokens
  refine ⟨rest', ?_, fun I => ?_, fun I => (waiting_next positive within I (inv.waiting_le I)).2, ?_, enabling.2, ?_⟩
  · show b.arrived ++ _ = b.emitted ++ _ ++ rest'
    rw [inv.arrived, emitted, List.append_assoc, split, List.append_assoc]
  · have step := (waiting_next positive within I (inv.waiting_le I)).1
    have counts := congrArg (List.count I) split
    rw [List.count_append, List.count_append, count_filter_finRange, ← emitted, count_filter_finRange, ← inv.waiting I] at counts
    show (b.fork.next i).waiting I = _
    rw [show b.fork.outTransitions i I = b.fork.trigClears i I from rfl] at counts
    omega
  · show (b.fork.next i).enabling + (b.emitted ++ _).length = b.tokens + i.inTransition.toNat
    rw [List.length_append, emitted, length]
    omega
  · show rest' = [] ∨ (b.fork.next i).enabling = 0
    by_cases enabled : b.fork.Enabled i
    · rcases inv.one with none | none
      · -- triggers that come in one cycle are of different indices
        left
        refine List.eq_nil_iff_forall_not_mem.mpr fun I mem => ?_
        have nodup := (List.nodup_finRange n).filter i.triggers
        rw [none, List.nil_append] at split
        rw [split, same enabled I mem, List.singleton_append, List.nodup_cons] at nodup
        exact nodup.1 mem
      · rcases List.eq_nil_or_concat out with nil | ⟨_, _, cons⟩
        · exact .inl (empty enabled nil)
        · rw [cons, List.concat_eq_append, List.length_append, List.length_singleton] at length
          have once := Bool.toNat_le i.inTransition
          exact .inr (by omega)
    · obtain ⟨none, quiet⟩ := not_or.mp enabled
      rw [Bool.not_eq_true] at quiet
      rw [quiet, Bool.toNat_false] at enabling
      exact .inr (by omega)

theorem after_snoc (ins : List (ForkInputs n)) (i : ForkInputs n) :
    (after (ins ++ [i]) : ForkLog placeCapacity n) = (after ins).next i := by
  rw [after, after, List.foldl_append, List.foldl_cons, List.foldl_nil]

theorem Inv.emitted_eq (inv : b.Inv rest) : b.emitted = b.arrived.take b.tokens := by
  have tokens := inv.tokens
  rw [inv.arrived]
  rcases inv.one with none | none
  · rw [none, List.append_nil, List.take_of_length_le (by omega)]
  · rw [List.take_left' (by omega)]

theorem inv_after (positive : 0 < placeCapacity) {ins : List (ForkInputs n)} (alone : TriggersAlone placeCapacity ins)
    (within : RunWithinCapacity placeCapacity ins) : ∃ rest, (after ins : ForkLog placeCapacity n).Inv rest := by
  induction ins using List.reverseRecOn with
  | nil => exact ⟨[], Inv.start positive⟩
  | append_singleton ins i ih =>
      unfold TriggersAlone at ih alone
      unfold RunWithinCapacity at ih within
      rw [throughout_snoc_iff] at alone within
      obtain ⟨rest, inv⟩ := ih alone.1 within.1
      rw [after_snoc]
      exact inv.next positive alone.2 within.2

/-- The outputs keep the order of the triggers just when the triggers are alone. -/
theorem keepsOrder_iff (positive : 0 < placeCapacity) (ins : List (ForkInputs n))
    (within : RunWithinCapacity placeCapacity ins) :
    KeepsOrder placeCapacity ins ↔ TriggersAlone placeCapacity ins := by
  constructor
  · intro keeps before i rest split enabled I J triggeredI triggeredJ
    exact (keeps before i rest split).single I J ((trigClears_iff positive).mpr ⟨enabled, triggeredI⟩)
      ((trigClears_iff positive).mpr ⟨enabled, triggeredJ⟩)
  · intro alone before i rest split
    have run : ins = before ++ [i] ++ rest := by rw [split, List.append_assoc, List.singleton_append]
    rw [run] at alone within
    obtain ⟨left, inv⟩ := inv_after positive alone.of_append within.of_append
    rw [after_snoc] at inv
    refine ⟨fun I J outI outJ => ?_, inv.emitted_eq⟩
    obtain ⟨enabled, triggeredI⟩ := (trigClears_iff positive).mp outI
    exact (throughout_snoc_iff.mp alone.of_append).2 enabled I J triggeredI ((trigClears_iff positive).mp outJ).2

end ForkLog

/-! ### Phi sequencers -/

structure PhiInputs (n : Nat) where
  triggers : Fin n → Bool
  srcSampleCompletes : Fin n → Bool
  srcUpdateCompletes : Fin n → Bool
  phiSampleReq : Bool
  phiUpdateReq : Bool
  phiMuxAck : Bool

structure PhiOutputs (n : Nat) where
  srcSampleStarts : Fin n → Bool
  srcUpdateStarts : Fin n → Bool
  phiMuxSelectReqs : Fin n → Bool
  phiSampleAck : Bool
  phiUpdateAck : Bool

structure PhiSequencer (placeCapacity n : Nat) where
  trigForkSample : ConditionalFork placeCapacity n
  trigForkUpdate : ConditionalFork placeCapacity n

namespace PhiSequencer
variable {placeCapacity n : Nat}

def sampleInputs (i : PhiInputs n) : ForkInputs n := ⟨i.triggers, i.phiSampleReq⟩
def updateInputs (i : PhiInputs n) : ForkInputs n := ⟨i.triggers, i.phiUpdateReq⟩

def reset : PhiSequencer placeCapacity n := ⟨.reset, .reset⟩

def outputs (s : PhiSequencer placeCapacity n) (i : PhiInputs n) : PhiOutputs n where
  srcSampleStarts := s.trigForkSample.outTransitions (sampleInputs i)
  srcUpdateStarts := s.trigForkUpdate.outTransitions (updateInputs i)
  phiMuxSelectReqs := i.srcUpdateCompletes
  phiSampleAck := (List.finRange n).any i.srcSampleCompletes
  phiUpdateAck := i.phiMuxAck

def next (s : PhiSequencer placeCapacity n) (i : PhiInputs n) : PhiSequencer placeCapacity n :=
  ⟨s.trigForkSample.next (sampleInputs i), s.trigForkUpdate.next (updateInputs i)⟩

end PhiSequencer

structure PhiLog (placeCapacity n : Nat) where
  sequencer : PhiSequencer placeCapacity n
  arrived : List (Fin n)
  sampleReqs : Nat
  sampleStarts : List (Fin n)
  updateReqs : Nat
  updateStarts : List (Fin n)

namespace PhiLog
open PhiSequencer
variable {placeCapacity n : Nat}

def start : PhiLog placeCapacity n := ⟨.reset, [], 0, [], 0, []⟩

def next (b : PhiLog placeCapacity n) (i : PhiInputs n) : PhiLog placeCapacity n where
  sequencer := b.sequencer.next i
  arrived := b.arrived ++ (List.finRange n).filter i.triggers
  sampleReqs := b.sampleReqs + i.phiSampleReq.toNat
  sampleStarts := b.sampleStarts ++ (List.finRange n).filter (b.sequencer.outputs i).srcSampleStarts
  updateReqs := b.updateReqs + i.phiUpdateReq.toNat
  updateStarts := b.updateStarts ++ (List.finRange n).filter (b.sequencer.outputs i).srcUpdateStarts

def after (ins : List (PhiInputs n)) : PhiLog placeCapacity n := ins.foldl next start

def sample (b : PhiLog placeCapacity n) : ForkLog placeCapacity n :=
  ⟨b.sequencer.trigForkSample, b.arrived, b.sampleReqs, b.sampleStarts⟩

def update (b : PhiLog placeCapacity n) : ForkLog placeCapacity n :=
  ⟨b.sequencer.trigForkUpdate, b.arrived, b.updateReqs, b.updateStarts⟩

variable (placeCapacity)

/-- The sources are started in the order of the triggers, for the samples and for the updates. -/
def KeepsOrder (ins : List (PhiInputs n)) : Prop :=
  Throughout (fun before i => (after before : PhiLog placeCapacity n).sample.InOrder (sampleInputs i) ∧
    (after before : PhiLog placeCapacity n).update.InOrder (updateInputs i)) ins

def TriggersAlone (ins : List (PhiInputs n)) : Prop :=
  ForkLog.TriggersAlone placeCapacity (ins.map sampleInputs) ∧ ForkLog.TriggersAlone placeCapacity (ins.map updateInputs)

def RunWithinCapacity (ins : List (PhiInputs n)) : Prop :=
  ForkLog.RunWithinCapacity placeCapacity (ins.map sampleInputs) ∧
    ForkLog.RunWithinCapacity placeCapacity (ins.map updateInputs)

variable {placeCapacity}

theorem after_forks (ins : List (PhiInputs n)) :
    (after ins : PhiLog placeCapacity n).sample = ForkLog.after (ins.map sampleInputs) ∧
      (after ins : PhiLog placeCapacity n).update = ForkLog.after (ins.map updateInputs) := by
  induction ins using List.reverseRecOn with
  | nil => exact ⟨rfl, rfl⟩
  | append_singleton ins i ih =>
      rw [after, List.foldl_append, List.foldl_cons, List.foldl_nil, List.map_append, List.map_append,
        List.map_singleton, List.map_singleton, ForkLog.after_snoc, ForkLog.after_snoc, ← ih.1, ← ih.2]
      exact ⟨rfl, rfl⟩

theorem keepsOrder_iff (positive : 0 < placeCapacity) (ins : List (PhiInputs n)) (within : RunWithinCapacity placeCapacity ins) :
    KeepsOrder placeCapacity ins ↔ TriggersAlone placeCapacity ins := by
  have forks : KeepsOrder placeCapacity ins ↔ ForkLog.KeepsOrder placeCapacity (ins.map sampleInputs) ∧
      ForkLog.KeepsOrder placeCapacity (ins.map updateInputs) := by
    unfold KeepsOrder ForkLog.KeepsOrder
    rw [throughout_and_iff, throughout_map_iff, throughout_map_iff]
    simp only [(after_forks _).1, (after_forks _).2]
  rw [forks, ForkLog.keepsOrder_iff positive _ within.1, ForkLog.keepsOrder_iff positive _ within.2]
  rfl

end PhiLog

/-- Of both entities, in every run that keeps within the capacities of the places. -/
theorem choices_keepOrder_iff {placeCapacity : Nat} (positive : 0 < placeCapacity) (n : Nat) :
    (∀ ins : List (ForkInputs n), ForkLog.RunWithinCapacity placeCapacity ins →
      (ForkLog.KeepsOrder placeCapacity ins ↔ ForkLog.TriggersAlone placeCapacity ins)) ∧
    (∀ ins : List (PhiInputs n), PhiLog.RunWithinCapacity placeCapacity ins →
      (PhiLog.KeepsOrder placeCapacity ins ↔ PhiLog.TriggersAlone placeCapacity ins)) :=
  ⟨ForkLog.keepsOrder_iff positive, PhiLog.keepsOrder_iff positive⟩

/-- Two triggers of one index before two input transitions. -/
theorem choices_keepOrder_two :
    let trigger : ForkInputs 2 := ⟨fun I => decide (I = 1), false⟩
    let enable : ForkInputs 2 := ⟨fun _ => false, true⟩
    ForkLog.KeepsOrder 2 [trigger, trigger, enable, enable] ∧
      (ForkLog.after [trigger, trigger, enable, enable] : ForkLog 2 2).emitted = [1, 1] := by
  intro trigger enable
  exact ⟨((choices_keepOrder_iff Nat.two_pos 2).1 _ (by decide)).mpr (by decide), by decide⟩

/-- A trigger of each index before an input transition: both outputs are for the one token. -/
theorem not_choices_keepOrder :
    let trigger (I : Fin 2) : ForkInputs 2 := ⟨fun J => decide (J = I), false⟩
    let enable : ForkInputs 2 := ⟨fun _ => false, true⟩
    let phi (i : ForkInputs 2) : PhiInputs 2 := ⟨i.triggers, fun _ => false, fun _ => false, i.inTransition, i.inTransition, false⟩
    ForkLog.RunWithinCapacity 1 [trigger 1, trigger 0, enable] ∧
      (ForkLog.after [trigger 1, trigger 0, enable] : ForkLog 1 2).emitted = [0, 1] ∧
      ¬ ForkLog.KeepsOrder 1 [trigger 1, trigger 0, enable] ∧
      ¬ PhiLog.KeepsOrder 1 [phi (trigger 1), phi (trigger 0), phi enable] := by
  intro trigger enable phi
  refine ⟨by decide, by decide, by decide, fun keeps => ?_⟩
  have order := (keeps [phi (trigger 1), phi (trigger 0)] (phi enable) [] rfl).1.single 0 1 (by decide) (by decide)
  cases order

end Ahir.Hardware
