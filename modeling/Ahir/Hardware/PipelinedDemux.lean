import Ahir.Hardware.QueueBase

/-!
# The de-multiplexer of the unordered memory

`PipelinedDemux` puts a result into the queue of the port that it names.
-/

set_option autoImplicit false

namespace Ahir.Hardware.PipelinedDemux
variable {w idWidth : Nat}

structure Cycle (w idWidth : Nat) where
  dataIn : BitVec w
  selIn : BitVec idWidth
  reqIn : Bool
  ackIn : Nat → Bool

abbrev State (w : Nat) : Type := Nat → QueueState w 2

section Demux
variable (numberOfOutputs : Nat) (s : State w) (c : Cycle w idWidth)

def reqOutSig (output : Nat) : Bool := c.reqIn && decide (c.selIn.toNat = output)

def request (output : Nat) : Request (BitVec w) := ⟨c.dataIn, reqOutSig c output, c.ackIn output⟩

def ackInSig (output : Nat) : Bool := ((queueBase 2).respond (s output) (request c output)).pushAck

def ackOut : Bool := (List.range numberOfOutputs).any fun output => ackInSig s c output && reqOutSig c output

def reset : State w := fun output => (queueBase 2).reset (s output) (request c output)

def next : State w := fun output => (queueBase 2).next (s output) (request c output)

def completed (output : Nat) : Option (BitVec w) := (queueBase 2).popped (s output) (request c output)

/-- The result for an output that is acknowledged at the input. -/
def delivered (output : Nat) : Option (BitVec w) :=
  if c.reqIn && ackOut numberOfOutputs s c && decide (c.selIn.toNat = output) then some c.dataIn else none

variable {numberOfOutputs s c}

theorem ackOut_eq {output : Nat} (isOutput : output < numberOfOutputs) (named : c.selIn.toNat = output) :
    ackOut numberOfOutputs s c = (c.reqIn && ackInSig s c output) := by
  rw [ackOut, Bool.eq_iff_iff]
  simp only [List.any_eq_true, List.mem_range, reqOutSig, Bool.and_eq_true, decide_eq_true_eq]
  constructor
  · rintro ⟨j, _, room, requests, same⟩
    rw [named] at same
    exact ⟨requests, same ▸ room⟩
  · rintro ⟨requests, room⟩
    exact ⟨output, isOutput, room, requests, named⟩

theorem pushed_eq {output : Nat} (isOutput : output < numberOfOutputs) :
    (queueBase 2).pushed (s output) (request c output) = delivered numberOfOutputs s c output := by
  unfold Buffer.pushed delivered
  by_cases named : c.selIn.toNat = output
  · rw [ackOut_eq isOutput named, decide_eq_true named, Bool.and_true, ← Bool.and_assoc, Bool.and_self]
    simp only [request, reqOutSig, decide_eq_true named, Bool.and_true]
    rfl
  · simp [request, reqOutSig, named]

/-- The results of each output come out in the order in which they were acknowledged. -/
theorem step {q : Nat → List (BitVec w)} (held : ∀ output, QueueHolds (s output) (q output)) :
    ∃ q' : Nat → List (BitVec w), (∀ output, QueueHolds (next s c output) (q' output)) ∧ ∀ output < numberOfOutputs,
      q output ++ (delivered numberOfOutputs s c output).toList = (completed s c output).toList ++ q' output := by
  have each : ∀ output, ∃ q', QueueHolds (next s c output) q' ∧
      q output ++ ((queueBase 2).pushed (s output) (request c output)).toList =
        ((queueBase 2).popped (s output) (request c output)).toList ++ q' := fun output =>
    (queueBaseWithEmptyFull_fifo false false 2).step _ (request c output) _ (held output)
  choose q' next law using each
  refine ⟨q', next, fun output isOutput => ?_⟩
  rw [← pushed_eq isOutput]
  exact law output

theorem completed_of_waits {q : List (BitVec w)} {output : Nat} (held : QueueHolds (s output) q) (waits : q ≠ [])
    (takes : c.ackIn output = true) : ∃ x, completed s c output = some x := by
  have offers : ((queueBase 2).respond (s output) (request c output)).popAck = true := by
    rw [queueBase, (queueBaseWithEmptyFull_acks false 1 (s output) _).2, Bool.not_eq_true', ← Bool.not_eq_true,
      held.spec.2.1]
    exact mt List.length_eq_zero_iff.mp waits
  refine ⟨_, if_pos ?_⟩
  rw [offers, Bool.and_true]
  exact takes

theorem waits_of_refused {q q' : List (BitVec w)} {output : Nat}
    (law : q ++ (delivered numberOfOutputs s c output).toList = (completed s c output).toList ++ q')
    (refuses : ¬ c.ackIn output = true) (waits : q ≠ []) : q' ≠ [] := by
  have stays : completed s c output = none := by
    refine if_neg ?_
    have asks : (request c output).popReq = c.ackIn output := rfl
    rw [asks, Bool.eq_false_of_not_eq_true refuses, Bool.false_and]
    exact Bool.false_ne_true
  rw [stays, Option.toList_none, List.nil_append] at law
  rw [← law]
  exact mt (fun empty => (List.append_eq_nil_iff.mp empty).1) waits

theorem ackOut_of_empty {output : Nat} (isOutput : output < numberOfOutputs) (named : c.selIn.toNat = output)
    (held : QueueHolds (s output) []) (requests : c.reqIn = true) : ackOut numberOfOutputs s c = true := by
  rw [ackOut_eq isOutput named, requests, Bool.true_and, ackInSig, queueBase,
    (queueBaseWithEmptyFull_acks false 1 (s output) _).1, Bool.not_eq_true', ← Bool.not_eq_true, held.spec.2.2]
  exact Nat.zero_ne_add_one 1

/-- At most one queue takes in a result, and it does when the result is acknowledged. -/
theorem delivered_count (numberOfOutputs : Nat) :
    ∑ output ∈ Finset.range numberOfOutputs, (delivered numberOfOutputs s c output).toList.length ≤
      if c.reqIn && ackOut numberOfOutputs s c then 1 else 0 := by
  by_cases taken : (c.reqIn && ackOut numberOfOutputs s c) = true
  · rw [if_pos taken]
    have each : ∀ output ∈ Finset.range numberOfOutputs, (delivered numberOfOutputs s c output).toList.length =
        if c.selIn.toNat = output then 1 else 0 := by
      intro output _
      unfold delivered
      rw [taken, Bool.true_and]
      by_cases named : c.selIn.toNat = output
      · rw [decide_eq_true named, if_pos rfl, if_pos named]
        rfl
      · rw [decide_eq_false named, if_neg Bool.false_ne_true, if_neg named]
        rfl
    rw [Finset.sum_congr rfl each, Finset.sum_ite_eq]
    split_ifs
    · exact Nat.le_refl 1
    · exact Nat.zero_le 1
  · rw [if_neg taken]
    refine le_of_eq (Finset.sum_eq_zero fun output _ => ?_)
    unfold delivered
    rw [Bool.eq_false_of_not_eq_true taken, Bool.false_and, if_neg Bool.false_ne_true]
    rfl

def completedCount (numberOfOutputs : Nat) (s : State w) (c : Cycle w idWidth) : Nat :=
  ∑ output ∈ Finset.range numberOfOutputs, (completed s c output).toList.length

theorem completedCount_pos {q : List (BitVec w)} {output : Nat} (isOutput : output < numberOfOutputs)
    (held : QueueHolds (s output) q) (waits : q ≠ []) (takes : c.ackIn output = true) :
    0 < completedCount numberOfOutputs s c := by
  obtain ⟨x, leaves⟩ := completed_of_waits held waits takes
  refine Finset.sum_pos' (fun _ _ => Nat.zero_le _) ⟨output, Finset.mem_range.mpr isOutput, ?_⟩
  rw [leaves]
  exact Nat.one_pos

theorem count_next {q q' : Nat → List (BitVec w)} (law : ∀ output < numberOfOutputs,
    q output ++ (delivered numberOfOutputs s c output).toList = (completed s c output).toList ++ q' output) :
    completedCount numberOfOutputs s c + ∑ output ∈ Finset.range numberOfOutputs, (q' output).length ≤
      ∑ output ∈ Finset.range numberOfOutputs, (q output).length +
        if c.reqIn && ackOut numberOfOutputs s c then 1 else 0 := by
  refine le_trans (le_of_eq ?_) (Nat.add_le_add_left (delivered_count numberOfOutputs) _)
  rw [completedCount, ← Finset.sum_add_distrib, ← Finset.sum_add_distrib]
  refine Finset.sum_congr rfl fun output member => ?_
  have lengths := congrArg List.length (law output (Finset.mem_range.mp member))
  rw [List.length_append, List.length_append] at lengths
  exact lengths.symm

end Demux

end Ahir.Hardware.PipelinedDemux
