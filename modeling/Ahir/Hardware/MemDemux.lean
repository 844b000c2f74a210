import Ahir.Hardware.BufferChain
import Ahir.Hardware.QueueBase

/-!
# The de-multiplexer of the memory subsystem

`mem_demux` puts a row of repeaters before each output and acknowledges an item when any
of the rows does.
-/

set_option autoImplicit false

namespace Ahir.Hardware.MemDemux
variable {w idWidth : Nat}

def memRepeater : Buffer (QueueState w 2) (BitVec w) := queueBase 2

def ShiftState (w : Nat) : Nat → Type
  | 0 => Unit
  | stages + 1 => QueueState w 2 × ShiftState w stages

def ShiftState.zero : (stages : Nat) → ShiftState w stages
  | 0 => ()
  | stages + 1 => ((⟨fun _ => 0#w, 0, 0, .emptyState⟩ : RingState w), zero stages)

def memShiftRepeater : (stages : Nat) → Buffer (ShiftState w stages) (BitVec w)
  | 0 => wires
  | stages + 1 => memRepeater.chain (memShiftRepeater stages)

section Repeaters

theorem memRepeater_registered : (memRepeater : Buffer (QueueState w 2) (BitVec w)).Registered := fun _ _ _ => rfl

theorem memRepeater_fifo : (memRepeater : Buffer (QueueState w 2) (BitVec w)).Fifo 2 QueueHolds :=
  queueBaseWithEmptyFull_fifo false false 2

def ShiftHolds : {stages : Nat} → ShiftState w stages → List (BitVec w) → Prop
  | 0, _, q => q = []
  | _ + 1, s, q => ∃ p p', QueueHolds s.1 p ∧ ShiftHolds s.2 p' ∧ q = p' ++ p

theorem memShiftRepeater_fifo (stages : Nat) :
    (memShiftRepeater stages : Buffer (ShiftState w stages) (BitVec w)).Fifo (2 * stages) ShiftHolds := by
  induction stages with
  | zero => exact wires_fifo
  | succ stages ih =>
      rw [Nat.mul_succ, Nat.add_comm (2 * stages)]
      exact Buffer.chain_fifo memRepeater_registered memRepeater_fifo ih

def ShiftState.work : {stages : Nat} → ShiftState w stages → Nat
  | 0, _ => 0
  | stages + 1, s => (stages + 1) * QueueState.count s.1 + @ShiftState.work stages s.2

theorem ShiftHolds.work_le {stages : Nat} {s : ShiftState w stages} {q : List (BitVec w)} (held : ShiftHolds s q) :
    s.work ≤ stages * (stages + 1) := by
  induction stages generalizing q with
  | zero => exact Nat.zero_le _
  | succ stages ih =>
      obtain ⟨p, p', heldB, heldC, _⟩ := held
      have rest := ih heldC
      have front : (stages + 1) * QueueState.count s.1 ≤ (stages + 1) * 2 := by
        rw [heldB.spec.1]
        exact Nat.mul_le_mul_left _ (memRepeater_fifo.bounded _ _ heldB)
      calc ShiftState.work s = (stages + 1) * QueueState.count s.1 + ShiftState.work s.2 := rfl
        _ ≤ (stages + 1) * 2 + stages * (stages + 1) := Nat.add_le_add front rest
        _ = (stages + 1) * (stages + 1 + 1) := by ring

theorem memShiftRepeater_drains (stages : Nat) :
    (memShiftRepeater stages : Buffer (ShiftState w stages) (BitVec w)).Drains ShiftHolds ShiftState.work stages := by
  induction stages with
  | zero => exact ⟨fun _ _ _ pop => pop, fun _ _ _ _ _ => Nat.zero_le _, fun _ _ _ held _ occupied => absurd held occupied⟩
  | succ stages ih =>
      refine Buffer.chain_drains memRepeater_registered memRepeater_fifo ih (fun s q held => held.spec.1) ?_ ?_
      · intro s r held
        rw [memRepeater, queueBase, (queueBaseWithEmptyFull_acks false 1 s r).1, Bool.not_eq_true', ← Bool.not_eq_true,
          held.spec.2.2]
        exact Nat.zero_ne_add_one 1
      · intro s r q held occupied
        rw [memRepeater, queueBase, (queueBaseWithEmptyFull_acks false 1 s r).2, Bool.not_eq_true', ← Bool.not_eq_true,
          held.spec.2.1]
        exact mt List.length_eq_zero_iff.mp occupied

def ShiftState.room : {stages : Nat} → ShiftState w stages → Bool → Bool
  | 0, _, ackIn => ackIn
  | _ + 1, s, _ => !QueueState.full s.1

theorem pushAck_eq {stages : Nat} (s : ShiftState w stages) (r : Request (BitVec w)) :
    ((memShiftRepeater stages).respond s r).pushAck = s.room r.popReq := by
  cases stages with
  | zero => rfl
  | succ stages => exact (queueBaseWithEmptyFull_acks false 1 s.1 r).1

end Repeaters

structure Cycle (w idWidth : Nat) where
  dataIn : BitVec w
  selIn : BitVec idWidth
  reqIn : Bool
  ackIn : Nat → Bool

namespace Cycle

def reqOutSig (c : Cycle w idWidth) (output : Nat) : Bool := c.reqIn && decide (c.selIn.toNat = output)

def request (c : Cycle w idWidth) (output : Nat) : Request (BitVec w) :=
  ⟨c.dataIn, c.reqOutSig output, c.ackIn output⟩

end Cycle

/-- The repeaters of each output. Those of outputs that do not exist are read by nothing. -/
abbrev State (w delay : Nat) : Type := Nat → ShiftState w delay

section Demux
variable {delay : Nat} (outputs : Nat) (s : State w delay) (c : Cycle w idWidth)

def ackInSig (output : Nat) : Bool := ((memShiftRepeater delay).respond (s output) (c.request output)).pushAck

def ackOut : Bool :=
  if 1 < outputs then (List.range outputs).any (ackInSig s c)
  else if outputs = 1 then c.ackIn 0
  else false

def reqOut (output : Nat) : Bool :=
  if 1 < outputs then ((memShiftRepeater delay).respond (s output) (c.request output)).popAck else c.reqIn

def dataOut (output : Nat) : BitVec w :=
  if 1 < outputs then ((memShiftRepeater delay).respond (s output) (c.request output)).dataOut else c.dataIn

def reset : State w delay := fun output => (memShiftRepeater delay).reset (s output) (c.request output)

def next : State w delay := fun output => (memShiftRepeater delay).next (s output) (c.request output)

/-- The item for an output that is acknowledged at the input. -/
def accepted (output : Nat) : Option (BitVec w) :=
  if c.reqIn && ackOut outputs s c && decide (c.selIn.toNat = output) then some c.dataIn else none

def delivered (output : Nat) : Option (BitVec w) :=
  if decide (output < outputs) && (c.ackIn output && reqOut outputs s c output) then some (dataOut outputs s c output) else none

end Demux

section Run
variable {delay : Nat} (outputs : Nat)

def acceptedIn : State w delay → List (Cycle w idWidth) → Nat → List (BitVec w)
  | _, [], _ => []
  | s, c :: cs, output => (accepted outputs s c output).toList ++ acceptedIn (next s c) cs output

def deliveredIn : State w delay → List (Cycle w idWidth) → Nat → List (BitVec w)
  | _, [], _ => []
  | s, c :: cs, output => (delivered outputs s c output).toList ++ deliveredIn (next s c) cs output

/-- The inserted delay of `demerge_tree`. -/
def insertedDelay (demuxDegree : Nat) : Nat := max 1 (ceilLog2 (outputs / demuxDegree))

def hasRoom (s : State w delay) (c : Cycle w idWidth) (output : Nat) : Bool :=
  if 1 < outputs then (s output).room (c.ackIn output) else c.ackIn output

/-- When there is room on the way to any output, there is on the way to the one that the
select names. -/
def Fits (s : State w delay) (c : Cycle w idWidth) : Prop :=
  c.reqIn = true → (∃ output < outputs, hasRoom outputs s c output = true) →
    c.selIn.toNat < outputs ∧ hasRoom outputs s c c.selIn.toNat = true

instance (s : State w delay) (c : Cycle w idWidth) : Decidable (Fits outputs s c) := by
  unfold Fits
  infer_instance

def AllFit : State w delay → List (Cycle w idWidth) → Prop
  | _, [] => True
  | s, c :: cs => Fits outputs s c ∧ AllFit (next s c) cs

def Idle (c : Cycle w idWidth) : Prop := c.reqIn = false ∧ ∀ output, c.ackIn output = true

variable {outputs} {s : State w delay}

theorem ackOut_iff {c : Cycle w idWidth} : ackOut outputs s c = true ↔ ∃ output < outputs, hasRoom outputs s c output = true := by
  unfold ackOut hasRoom
  by_cases more : 1 < outputs
  · rw [if_pos more, List.any_eq_true]
    refine exists_congr fun output => and_congr List.mem_range ?_
    rw [if_pos more, ackInSig, pushAck_eq]
    rfl
  · rw [if_neg more]
    by_cases single : outputs = 1
    · rw [if_pos single, single]
      constructor
      · exact fun ack => ⟨0, Nat.one_pos, ack⟩
      · rintro ⟨output, present, ack⟩
        rwa [Nat.lt_one_iff.mp present] at ack
    · rw [if_neg single]
      constructor
      · exact fun absurd => Bool.noConfusion absurd
      · rintro ⟨output, present, _⟩
        omega

theorem fits_iff {c : Cycle w idWidth} : Fits outputs s c ↔
    (c.reqIn = true → ackOut outputs s c = true →
      c.selIn.toNat < outputs ∧ (1 < outputs → (s c.selIn.toNat).room (c.ackIn c.selIn.toNat) = true)) := by
  unfold Fits
  rw [← ackOut_iff]
  refine imp_congr Iff.rfl (imp_congr_right fun ack => and_congr_right fun present => ?_)
  unfold hasRoom
  by_cases more : 1 < outputs
  · rw [if_pos more, imp_iff_right more]
  · obtain rfl : outputs = 1 := by omega
    rw [if_neg more, Nat.lt_one_iff.mp present]
    exact ⟨fun _ isMore => absurd isMore more, fun _ => ack⟩

theorem deliveredIn_of_ge {output : Nat} (absent : outputs ≤ output) (cs : List (Cycle w idWidth)) :
    deliveredIn outputs s cs output = [] := by
  induction cs generalizing s with
  | nil => rfl
  | cons c cs ih =>
      rw [deliveredIn, ih, delivered, decide_eq_false (Nat.not_lt.mpr absent), Bool.false_and, if_neg Bool.false_ne_true]
      rfl

section Repeated
variable (more : 1 < outputs)
include more

theorem delivered_eq {c : Cycle w idWidth} {output : Nat} (present : output < outputs) :
    delivered outputs s c output = (memShiftRepeater delay).popped (s output) (c.request output) := by
  unfold delivered reqOut dataOut
  rw [if_pos more, if_pos more, decide_eq_true present, Bool.true_and]
  rfl

theorem deliveredIn_eq {output : Nat} (present : output < outputs) (cs : List (Cycle w idWidth)) :
    deliveredIn outputs s cs output = (memShiftRepeater delay).pops (s output) (cs.map (·.request output)) := by
  induction cs generalizing s with
  | nil => rfl
  | cons c cs ih =>
      rw [deliveredIn, ih, delivered_eq more present]
      rfl

/-- After enough idle cycles all that the repeaters have taken in has come out. -/
theorem deliveredIn_idle {output : Nat} (present : output < outputs) (s₀ : State w delay) (c₀ : Cycle w idWidth)
    (cs after : List (Cycle w idWidth)) (idle : ∀ c ∈ after, Idle c) (enough : delay * (delay + 1) ≤ after.length) :
    deliveredIn outputs (reset s₀ c₀) (cs ++ after) output =
      (memShiftRepeater delay).pushes (reset s₀ c₀ output) (cs.map (·.request output)) := by
  obtain ⟨q, held, _, law⟩ := (memShiftRepeater_fifo delay).run_reset (s₀ output) (c₀.request output)
    (cs.map (·.request output))
  have drained := (memShiftRepeater_drains delay).pops (memShiftRepeater_fifo delay) (after.map (·.request output)) _ q held
    (by
      intro r mem
      obtain ⟨c, isLater, rfl⟩ := List.mem_map.mp mem
      obtain ⟨noRequest, accepts⟩ := idle c isLater
      exact ⟨by rw [Cycle.request, Cycle.reqOutSig, noRequest, Bool.false_and], accepts output⟩)
    (by
      rw [List.length_map]
      exact (ShiftHolds.work_le held).trans enough)
  rw [deliveredIn_eq more present, List.map_append, Buffer.pops_append]
  exact (congrArg (_ ++ ·) drained).trans law.symm

theorem accepted_of_pushed {c : Cycle w idWidth} {output : Nat} (present : output < outputs) {v : BitVec w}
    (pushed : (memShiftRepeater delay).pushed (s output) (c.request output) = some v) :
    accepted outputs s c output = some v := by
  unfold Buffer.pushed at pushed
  split at pushed
  · next both =>
      obtain ⟨request, ack⟩ := Bool.and_eq_true_iff.mp both
      obtain ⟨req, sel⟩ := Bool.and_eq_true_iff.mp request
      have any : ackOut outputs s c = true := by
        rw [ackOut, if_pos more]
        exact List.any_eq_true.mpr ⟨output, List.mem_range.mpr present, ack⟩
      rw [accepted, req, any, sel]
      exact pushed
  · exact absurd pushed (Option.some_ne_none v).symm

theorem pushed_eq_accepted {c : Cycle w idWidth} (fits : Fits outputs s c) {output : Nat} (present : output < outputs) :
    (memShiftRepeater delay).pushed (s output) (c.request output) = accepted outputs s c output := by
  cases pushed : (memShiftRepeater delay).pushed (s output) (c.request output) with
  | some v => exact (accepted_of_pushed more present pushed).symm
  | none =>
      unfold accepted
      split
      · next all =>
          obtain ⟨both, sel⟩ := Bool.and_eq_true_iff.mp all
          obtain ⟨req, ack⟩ := Bool.and_eq_true_iff.mp both
          obtain rfl : c.selIn.toNat = output := of_decide_eq_true sel
          have room := (fits_iff.mp fits req ack).2 more
          rw [Buffer.pushed, pushAck_eq, Cycle.request, Cycle.reqOutSig, req, sel, room] at pushed
          exact absurd pushed (Option.some_ne_none _)
      · rfl

/-- The repeaters of an output take in at most what is acknowledged for it. -/
theorem pushes_length_le {output : Nat} (present : output < outputs) (cs : List (Cycle w idWidth)) :
    ((memShiftRepeater delay).pushes (s output) (cs.map (·.request output))).length ≤
      (acceptedIn outputs s cs output).length := by
  induction cs generalizing s with
  | nil => exact Nat.le_refl _
  | cons c cs ih =>
      have first : ((memShiftRepeater delay).pushed (s output) (c.request output)).toList.length ≤
          (accepted outputs s c output).toList.length := by
        cases pushed : (memShiftRepeater delay).pushed (s output) (c.request output) with
        | none => exact Nat.zero_le _
        | some v => rw [accepted_of_pushed more present pushed]
      rw [List.map_cons, Buffer.pushes, acceptedIn, List.length_append, List.length_append]
      exact Nat.add_le_add first (@ih (next s c))

theorem acceptedIn_eq {cs : List (Cycle w idWidth)} (fits : AllFit outputs s cs) {output : Nat} (present : output < outputs) :
    (memShiftRepeater delay).pushes (s output) (cs.map (·.request output)) = acceptedIn outputs s cs output := by
  induction cs generalizing s with
  | nil => rfl
  | cons c cs ih =>
      have first : (memShiftRepeater delay).pushed (s output) (c.request output) = accepted outputs s c output :=
        pushed_eq_accepted more fits.1 present
      rw [List.map_cons, Buffer.pushes, acceptedIn, first, ← ih fits.2]
      rfl

end Repeated

/-- When the repeaters have taken in all that is acknowledged, all of it fitted. -/
theorem fits_of_taken {c : Cycle w idWidth} (present : c.selIn.toNat < outputs)
    (taken : (accepted outputs s c c.selIn.toNat).toList.length ≤
      ((memShiftRepeater delay).pushed (s c.selIn.toNat) (c.request c.selIn.toNat)).toList.length) : Fits outputs s c := by
  refine fits_iff.mpr fun req ack => ⟨present, fun _ => ?_⟩
  by_contra noRoom
  have lost : (memShiftRepeater delay).pushed (s c.selIn.toNat) (c.request c.selIn.toNat) = none := by
    rw [Buffer.pushed, pushAck_eq, Cycle.request, Bool.not_eq_true _ |>.mp noRoom, Bool.and_false,
      if_neg Bool.false_ne_true]
  have shown : accepted outputs s c c.selIn.toNat = some c.dataIn := by
    rw [accepted, req, ack, decide_eq_true rfl]
    rfl
  rw [lost, shown] at taken
  exact absurd taken (Nat.not_succ_le_zero 0)

theorem allFit_of_taken {cs : List (Cycle w idWidth)} (absent : ∀ output, outputs ≤ output → acceptedIn outputs s cs output = [])
    (taken : 1 < outputs → ∀ output < outputs, (acceptedIn outputs s cs output).length ≤
      ((memShiftRepeater delay).pushes (s output) (cs.map (·.request output))).length) : AllFit outputs s cs := by
  induction cs generalizing s with
  | nil => trivial
  | cons c cs ih =>
      have first : Fits outputs s c := by
        refine fits_iff.mpr fun req ack => ?_
        have present : c.selIn.toNat < outputs := by
          by_contra tooLarge
          have none := absent c.selIn.toNat (Nat.not_lt.mp tooLarge)
          rw [acceptedIn, accepted, req, ack, decide_eq_true rfl] at none
          exact List.cons_ne_nil _ _ none
        refine ⟨present, fun more => (fits_iff.mp (fits_of_taken present ?_) req ack).2 more⟩
        have both := taken more _ present
        have rest := pushes_length_le (s := next s c) more present cs
        rw [acceptedIn, List.map_cons, Buffer.pushes, List.length_append, List.length_append] at both
        exact Nat.le_of_add_le_add_right (both.trans (Nat.add_le_add_left rest _))
      refine ⟨first, ih (fun output tooLarge => ?_) fun more output present => ?_⟩
      · exact (List.append_eq_nil_iff.mp (absent output tooLarge)).2
      · have both := taken more output present
        have same : (memShiftRepeater delay).pushed (s output) (c.request output) = accepted outputs s c output :=
          pushed_eq_accepted more first present
        rw [acceptedIn, List.map_cons, Buffer.pushes, List.length_append, List.length_append, same] at both
        exact Nat.le_of_add_le_add_left both

theorem acceptedIn_of_ge {output : Nat} (absent : outputs ≤ output) {cs : List (Cycle w idWidth)}
    (fits : AllFit outputs s cs) : acceptedIn outputs s cs output = [] := by
  induction cs generalizing s with
  | nil => rfl
  | cons c cs ih =>
      have nothing : accepted outputs s c output = none := by
        refine if_neg fun all => Nat.not_lt.mpr absent ?_
        obtain ⟨both, sel⟩ := Bool.and_eq_true_iff.mp all
        obtain ⟨req, ack⟩ := Bool.and_eq_true_iff.mp both
        exact of_decide_eq_true sel ▸ (fits_iff.mp fits.1 req ack).1
      rw [acceptedIn, nothing, ih fits.2]
      rfl

section Wired

theorem delivered_wired (c : Cycle w idWidth) :
    delivered 1 s c 0 = if c.ackIn 0 && c.reqIn then some c.dataIn else none := by
  rw [delivered, reqOut, dataOut, if_neg (Nat.lt_irrefl 1), if_neg (Nat.lt_irrefl 1)]
  rfl

theorem delivered_eq_accepted {c : Cycle w idWidth} (fits : Fits 1 s c) : delivered 1 s c 0 = accepted 1 s c 0 := by
  have ack : ackOut 1 s c = c.ackIn 0 := by rw [ackOut, if_neg (Nat.lt_irrefl 1), if_pos rfl]
  rw [delivered_wired, accepted, ack]
  cases req : c.reqIn with
  | false => rw [Bool.and_false, Bool.false_and, Bool.false_and]
  | true =>
      cases accepts : c.ackIn 0 with
      | false => rfl
      | true =>
          rw [decide_eq_true (Nat.lt_one_iff.mp (fits_iff.mp fits req (ack.trans accepts)).1)]
          rfl

theorem deliveredIn_wired {cs after : List (Cycle w idWidth)} (idle : ∀ c ∈ after, Idle c) (fits : AllFit 1 s cs) :
    deliveredIn 1 s (cs ++ after) 0 = acceptedIn 1 s cs 0 := by
  induction cs generalizing s with
  | nil =>
      rw [List.nil_append, acceptedIn]
      clear fits
      induction after generalizing s with
      | nil => rfl
      | cons c after ih =>
          rw [deliveredIn, ih fun c' mem => idle c' (List.mem_cons_of_mem _ mem), delivered_wired,
            (idle c List.mem_cons_self).1, Bool.and_false, if_neg Bool.false_ne_true]
          rfl
  | cons c cs ih => rw [List.cons_append, deliveredIn, acceptedIn, delivered_eq_accepted fits.1, ih fits.2]

end Wired

/-- A request that is not acknowledged is kept up with its item and its select. -/
def Stable (outputs : Nat) : State w delay → List (Cycle w idWidth) → Prop
  | s, c :: c' :: cs =>
      (c.reqIn = true → ackOut outputs s c = false → c'.reqIn = true ∧ c'.dataIn = c.dataIn ∧ c'.selIn = c.selIn) ∧
        Stable outputs (next s c) (c' :: cs)
  | _, _ => True

/-- Each output delivers just what is acknowledged for it, in order and once. -/
def Delivers (outputs : Nat) (s : State w delay) (cs after : List (Cycle w idWidth)) : Prop :=
  ∀ output, deliveredIn outputs s (cs ++ after) output = acceptedIn outputs s cs output

/-- In every run from a reset on, however long its items are taken afterwards, the items
are delivered just when each one that is acknowledged fits. -/
theorem delivers_iff (outputs delay : Nat) (s₀ : State w delay) (c₀ : Cycle w idWidth) (cs after : List (Cycle w idWidth))
    (idle : ∀ c ∈ after, Idle c) (enough : delay * (delay + 1) ≤ after.length) :
    Delivers outputs (reset s₀ c₀) cs after ↔ AllFit outputs (reset s₀ c₀) cs := by
  constructor
  · intro delivers
    refine allFit_of_taken (fun output absent => ?_) fun more output present => ?_
    · rw [← delivers output, deliveredIn_of_ge absent]
    · rw [← delivers output, deliveredIn_idle more present s₀ c₀ cs after idle enough]
  · intro fits output
    by_cases present : output < outputs
    · by_cases more : 1 < outputs
      · rw [deliveredIn_idle more present s₀ c₀ cs after idle enough]
        exact acceptedIn_eq more fits present
      · obtain rfl : output = 0 := by omega
        obtain rfl : outputs = 1 := by omega
        exact deliveredIn_wired idle fits
    · rw [deliveredIn_of_ge (Nat.not_lt.mp present), acceptedIn_of_ge (Nat.not_lt.mp present) fits]

/-- Two items for one of two outputs. -/
theorem delivers_two :
    Delivers 2 (reset (fun _ => ShiftState.zero (insertedDelay 2 2))
        (⟨0#8, 0#1, false, fun _ => false⟩ : Cycle 8 1))
      [⟨7#8, 1#1, true, fun _ => false⟩, ⟨9#8, 1#1, true, fun _ => false⟩]
      (List.replicate 2 ⟨0#8, 0#1, false, fun _ => true⟩) :=
  (delivers_iff 2 _ _ _ _ _ (fun _ mem => List.eq_of_mem_replicate mem ▸ ⟨rfl, fun _ => rfl⟩) (by decide +kernel)).mpr
    ⟨by decide +kernel, by decide +kernel, trivial⟩

/-- A third item for an output that accepts nothing is acknowledged by the other one. -/
theorem not_delivers_three :
    Stable 2 (reset (fun _ => ShiftState.zero (insertedDelay 2 2))
        (⟨0#8, 0#1, false, fun _ => false⟩ : Cycle 8 1))
      [⟨7#8, 1#1, true, fun _ => false⟩, ⟨9#8, 1#1, true, fun _ => false⟩, ⟨5#8, 1#1, true, fun _ => false⟩] ∧
    ¬ Delivers 2 (reset (fun _ => ShiftState.zero (insertedDelay 2 2))
        (⟨0#8, 0#1, false, fun _ => false⟩ : Cycle 8 1))
      [⟨7#8, 1#1, true, fun _ => false⟩, ⟨9#8, 1#1, true, fun _ => false⟩, ⟨5#8, 1#1, true, fun _ => false⟩]
      (List.replicate 2 ⟨0#8, 0#1, false, fun _ => true⟩) := by
  refine ⟨⟨by decide +kernel, by decide +kernel, trivial⟩, fun delivers => ?_⟩
  have lost := delivers 1
  revert lost
  decide +kernel

end Run

end Ahir.Hardware.MemDemux
