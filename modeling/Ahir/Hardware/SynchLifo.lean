import Ahir.Data.Ring
import Ahir.Hardware.Buffer

/-!
# The stack with a bypass register

`SynchLifo` keeps its words in an array and the word on the top in a register as
well.  A push and a pop in one cycle replace the word in the register only, so
the array is behind until the next pop.
-/

set_option autoImplicit false

namespace Ahir.Hardware
open Ahir.Data

section Stack
variable {V : Type} [Inhabited V]

/-- A bounded stack: a pop takes the value on the top, a push in the same cycle
puts its value there after it. -/
def boundedStack (depth : Nat) : Buffer (List V) V where
  reset := fun _ _ => []
  respond := fun q _ =>
    { dataOut := q.headD default
      pushAck := decide (q.length < depth)
      popAck := !q.isEmpty }
  next := fun q r =>
    let rest := if r.popReq then q.tail else q
    if r.pushReq && decide (q.length < depth) then r.dataIn :: rest else rest

def popOnly : Request V := { dataIn := default, pushReq := false, popReq := true }

theorem boundedStack_pops_popOnly (depth n : Nat) (q : List V) :
    (boundedStack depth).pops q (List.replicate n popOnly) = q.take n := by
  induction n generalizing q with
  | zero => rfl
  | succ n ih =>
      rw [List.replicate_succ, Buffer.pops, ih]
      cases q <;> simp [Buffer.popped, boundedStack, popOnly]

end Stack

structure LifoState (w : Nat) where
  queueArray : Nat → BitVec w
  tosPointer : Nat
  writePointer : Nat
  queueSize : Nat
  selectBypass : Bool
  bypassReg : BitVec w
  memOutReg : BitVec w

variable {w : Nat}

namespace LifoState
variable (depth : Nat) (s : LifoState w) (r : Request (BitVec w))

def push : Bool := decide (s.queueSize < depth) && r.pushReq

def pop : Bool := decide (0 < s.queueSize) && r.popReq

/-- The function `Incr`, up to the last index. -/
def incr (x : Nat) : Nat := if x < depth - 1 then x + 1 else 0

def nextWritePointer : Nat :=
  if s.push depth r && !s.pop r then incr depth s.writePointer
  else if s.pop r && !s.push depth r then predWrap depth s.writePointer
  else s.writePointer

def nextTosPointer : Nat :=
  if s.push depth r && !s.pop r then if 0 < s.queueSize then incr depth s.tosPointer else 0
  else if s.pop r && !s.push depth r then if 0 < s.tosPointer then s.tosPointer - 1 else 0
  else s.tosPointer

def nextSize : Nat :=
  if s.push depth r && !s.pop r then s.queueSize + 1
  else if s.pop r && !s.push depth r then s.queueSize - 1
  else s.queueSize

/-- The registers that the reset does not reach; it clears `selectBypass` when
nothing is pushed or popped. -/
def writeRegisters (selectBypass : Bool) : LifoState w :=
  if s.push depth r && s.pop r then { s with selectBypass := true, bypassReg := r.dataIn }
  else if s.push depth r then
    { s with
      queueArray := Function.update s.queueArray s.writePointer r.dataIn
      selectBypass := true
      bypassReg := r.dataIn }
  else if s.pop r then
    { s with
      selectBypass := false
      memOutReg := if 0 < s.tosPointer then s.queueArray (s.tosPointer - 1) else s.memOutReg }
  else { s with selectBypass := selectBypass }

def dataOut : BitVec w := if s.selectBypass then s.bypassReg else s.memOutReg

end LifoState

def synchLifo (depth : Nat) : Buffer (LifoState w) (BitVec w) where
  reset := fun s r =>
    { s.writeRegisters depth r false with queueSize := 0, tosPointer := 0, writePointer := 0 }
  respond := fun s _ =>
    { dataOut := s.dataOut
      pushAck := decide (s.queueSize ≠ depth)
      popAck := decide (s.queueSize ≠ 0) }
  next := fun s r =>
    { s.writeRegisters depth r s.selectBypass with
      queueSize := s.nextSize depth r
      tosPointer := s.nextTosPointer depth r
      writePointer := s.nextWritePointer depth r }

namespace LifoState
variable {depth : Nat} {s : LifoState w} {r : Request (BitVec w)}

/-- The words of the stack, the top first: the word put out, then the cells below it. -/
def words (s : LifoState w) : List (BitVec w) :=
  match s.queueSize with
  | 0 => []
  | below' + 1 => s.dataOut :: below s.queueArray below'

/-- A push alone, onto a word that is in the bypass register, finds the word in
its cell of the array too. -/
def TopInArray (depth : Nat) (s : LifoState w) (r : Request (BitVec w)) : Prop :=
  s.push depth r = true → s.pop r = false → 0 < s.queueSize → s.selectBypass = true →
    s.queueArray s.tosPointer = s.bypassReg

structure Consistent (depth : Nat) (s : LifoState w) : Prop where
  bounded : s.queueSize ≤ depth
  write : s.writePointer = s.queueSize % depth
  tos : s.tosPointer = s.queueSize - 1
  fresh : s.selectBypass = false → 0 < s.queueSize → s.memOutReg = s.queueArray s.tosPointer

theorem incr_eq_mod {x : Nat} (inside : x < depth) : incr depth x = (x + 1) % depth := by
  rw [← succWrap_eq_mod inside, incr, succWrap]
  split_ifs <;> omega

theorem push_room (push : s.push depth r = true) : s.queueSize < depth := by
  simp only [LifoState.push, Bool.and_eq_true, decide_eq_true_eq] at push
  exact push.1

theorem pop_occupied (pop : s.pop r = true) : 0 < s.queueSize := by
  simp only [LifoState.pop, Bool.and_eq_true, decide_eq_true_eq] at pop
  exact pop.1

theorem Consistent.reset : ((synchLifo depth).reset s r).Consistent depth :=
  ⟨Nat.zero_le _, (Nat.zero_mod depth).symm, rfl, fun _ occupied => absurd occupied (Nat.lt_irrefl 0)⟩

theorem Consistent.step (consistent : s.Consistent depth) :
    ((synchLifo depth).next s r).Consistent depth := by
  obtain ⟨bounded, write, tos, fresh⟩ := consistent
  cases push : s.push depth r with
  | false =>
      cases pop : s.pop r with
      | false =>
          refine ⟨?_, ?_, ?_, ?_⟩ <;>
            simpa [synchLifo, nextSize, nextWritePointer, nextTosPointer, writeRegisters, push, pop]
      | true =>
          have occupied := pop_occupied pop
          refine ⟨?_, ?_, ?_, ?_⟩ <;>
            simp only [synchLifo, nextSize, nextWritePointer, nextTosPointer, writeRegisters, push, pop,
              Bool.not_true, Bool.not_false, Bool.and_true, Bool.and_false, Bool.false_eq_true,
              if_false, if_true]
          · omega
          · rw [write, predWrap_eq_mod (Nat.mod_lt _ (by omega)), Nat.mod_add_mod,
              show s.queueSize + (depth - 1) = s.queueSize - 1 + depth by omega, Nat.add_mod_right]
          · split_ifs <;> omega
          · intro _ left
            rw [if_pos (by omega), if_pos (by omega)]
  | true =>
      have room := push_room push
      cases pop : s.pop r with
      | false =>
          refine ⟨?_, ?_, ?_, ?_⟩ <;>
            simp only [synchLifo, nextSize, nextWritePointer, nextTosPointer, writeRegisters, push, pop,
              Bool.not_true, Bool.not_false, Bool.and_true, Bool.and_false, Bool.false_eq_true,
              if_false, if_true]
          · omega
          · rw [write, Nat.mod_eq_of_lt room, incr_eq_mod room]
          · split_ifs with occupied
            · rw [tos, incr_eq_mod (by omega), Nat.mod_eq_of_lt (by omega)]
              omega
            · omega
          · intro bypass
            cases bypass
      | true =>
          refine ⟨?_, ?_, ?_, ?_⟩
          all_goals
            simp only [synchLifo, nextSize, nextWritePointer, nextTosPointer, writeRegisters, push, pop,
              Bool.not_true, Bool.and_false, Bool.and_true, Bool.false_eq_true, if_false, if_true]
          · exact bounded
          · exact write
          · exact tos
          · intro bypass
            cases bypass

@[simp]
theorem words_length : s.words.length = s.queueSize := by
  unfold words
  cases s.queueSize <;> simp

theorem words_head (occupied : 0 < s.queueSize) : s.words.headD default = s.dataOut := by
  obtain ⟨n, size⟩ := Nat.exists_eq_succ_of_ne_zero occupied.ne'
  simp [words, size]

theorem boundedStack_next : (boundedStack depth).next s.words r =
    (if s.push depth r then [r.dataIn] else []) ++ if s.pop r then s.words.tail else s.words := by
  have popped : (if r.popReq then s.words.tail else s.words) =
      if s.pop r then s.words.tail else s.words := by
    rcases Nat.eq_zero_or_pos s.queueSize with empty | occupied
    · have none : s.words = [] := List.eq_nil_of_length_eq_zero (by rw [words_length, empty])
      simp [none]
    · simp [LifoState.pop, occupied]
  simp only [boundedStack, popped, words_length]
  rw [Bool.and_comm, ← LifoState.push]
  cases s.push depth r <;> simp

/-- The words after a cycle are those of the abstract stack just when a push
alone finds the top in the array. -/
theorem Consistent.words_step (consistent : s.Consistent depth) :
    ((synchLifo depth).next s r).words = (boundedStack depth).next s.words r ↔
      s.TopInArray depth r := by
  obtain ⟨bounded, write, tos, fresh⟩ := consistent
  rw [boundedStack_next]
  cases push : s.push depth r with
  | false =>
      have free : s.TopInArray depth r := by
        intro isPush
        rw [push] at isPush
        cases isPush
      simp only [free, iff_true, Bool.false_eq_true, if_false, List.nil_append]
      cases pop : s.pop r with
      | false => simp [words, synchLifo, nextSize, writeRegisters, push, pop, dataOut]
      | true =>
          -- the word below the top is read from the array
          have occupied := pop_occupied pop
          obtain ⟨n, size⟩ := Nat.exists_eq_succ_of_ne_zero occupied.ne'
          rw [size] at tos
          cases n with
          | zero => simp [words, synchLifo, nextSize, push, pop, size]
          | succ n =>
              have deeper : 0 < s.tosPointer := by omega
              simp [words, synchLifo, nextSize, writeRegisters, push, pop, size, dataOut, tos, below_succ]
  | true =>
      have room := push_room push
      rw [Nat.mod_eq_of_lt room] at write
      cases pop : s.pop r with
      | false =>
          rcases Nat.eq_zero_or_pos s.queueSize with empty | occupied
          · have free : s.TopInArray depth r := by
              intro _ _ occupied
              omega
            simp [words, synchLifo, nextSize, writeRegisters, push, pop, empty, free, dataOut, below]
          · -- the cell of the top is now the one that is seen
            obtain ⟨n, size⟩ := Nat.exists_eq_succ_of_ne_zero occupied.ne'
            rw [size, Nat.succ_eq_add_one, Nat.add_sub_cancel] at tos
            have seen : ((synchLifo depth).next s r).words =
                r.dataIn :: s.queueArray s.tosPointer :: below s.queueArray n := by
              simp [words, synchLifo, nextSize, writeRegisters, push, pop, size, dataOut, write, tos,
                below_update, below_succ]
            have kept : s.words = s.dataOut :: below s.queueArray n := by
              simp [words, size]
            rw [seen, if_pos rfl, if_neg (by simp), kept]
            simp only [List.cons_append, List.nil_append, List.cons.injEq, and_true, true_and]
            simp only [TopInArray, push, pop, occupied, dataOut]
            cases bypass : s.selectBypass with
            | false => simp [fresh bypass occupied]
            | true => simp
      | true =>
          have free : s.TopInArray depth r := by
            intro _ noPop
            rw [pop] at noPop
            cases noPop
          obtain ⟨n, size⟩ := Nat.exists_eq_succ_of_ne_zero (pop_occupied pop).ne'
          simp [words, synchLifo, nextSize, writeRegisters, push, pop, size, free, dataOut]

theorem popped_eq : (synchLifo depth).popped s r = (boundedStack depth).popped s.words r := by
  rcases Nat.eq_zero_or_pos s.queueSize with empty | occupied
  · have none : s.words = [] := List.eq_nil_of_length_eq_zero (by rw [words_length, empty])
    simp [Buffer.popped, synchLifo, boundedStack, empty, none]
  · have top := words_head occupied
    have some : s.words.isEmpty = false := by
      rw [List.isEmpty_eq_false_iff, ← List.length_pos_iff, words_length]
      exact occupied
    simp [Buffer.popped, synchLifo, boundedStack, occupied.ne', some, ← top]

theorem Consistent.run (consistent : s.Consistent depth) (us : List (Request (BitVec w))) :
    ((synchLifo depth).run s us).Consistent depth := by
  induction us generalizing s with
  | nil => exact consistent
  | cons r us ih => exact ih consistent.step

/-- The abstract stack has the words in the states of a run, just when every push
alone finds the top in the array. -/
theorem Consistent.run_words_iff (consistent : s.Consistent depth) (rs : List (Request (BitVec w))) :
    (∀ us, us <+: rs → ((synchLifo depth).run s us).words = (boundedStack depth).run s.words us) ↔
      ∀ us r, us ++ [r] <+: rs → ((synchLifo depth).run s us).TopInArray depth r := by
  constructor
  · intro same us r inRun
    rw [← (consistent.run us).words_step]
    have before := same us ((List.prefix_append us [r]).trans inRun)
    have after := same (us ++ [r]) inRun
    rwa [Buffer.run_append, Buffer.run_append, Buffer.run_singleton, Buffer.run_singleton, ← before] at after
  · intro top us
    induction us using List.reverseRecOn with
    | nil =>
        intro _
        rfl
    | append_singleton us r ih =>
        intro inRun
        have before := ih ((List.prefix_append us [r]).trans inRun)
        have step := (consistent.run us).words_step.mpr (top us r inRun)
        rw [Buffer.run_append, Buffer.run_append, Buffer.run_singleton, Buffer.run_singleton, step, before]

theorem pops_eq {us : List (Request (BitVec w))}
    (same : ∀ vs, vs <+: us → ((synchLifo depth).run s vs).words = (boundedStack depth).run s.words vs) :
    (synchLifo depth).pops s us = (boundedStack depth).pops s.words us := by
  induction us using List.reverseRecOn with
  | nil => rfl
  | append_singleton us r ih =>
      have inRun := List.prefix_append us [r]
      rw [Buffer.pops_append, Buffer.pops_append, ih fun vs inside => same vs (inside.trans inRun),
        Buffer.pops, Buffer.pops, popped_eq, same us inRun]
      rfl

theorem Consistent.pops_popOnly (consistent : s.Consistent depth) (n : Nat) :
    (synchLifo depth).pops s (List.replicate n popOnly) = s.words.take n := by
  rw [← boundedStack_pops_popOnly depth]
  apply pops_eq
  intro vs inside
  apply (consistent.run_words_iff _).mpr _ vs inside
  intro us r inRun isPush
  have member : r ∈ List.replicate n popOnly := inRun.subset (by simp)
  rw [List.eq_of_mem_replicate member] at isPush
  simp [LifoState.push, popOnly] at isPush

end LifoState

/-- In a run from the reset on, the words popped, and those that pops alone would
hand out from any of its states, are the words of the abstract stack, just when
no push alone comes onto a word that is in the bypass register and not in the
cell of the top. -/
theorem synchLifo_refines_stack_iff (depth : Nat) (s : LifoState w) (r : Request (BitVec w))
    (rs : List (Request (BitVec w))) :
    (∀ us, us <+: rs → ∀ n,
        (synchLifo depth).pops ((synchLifo depth).reset s r) (us ++ List.replicate n popOnly) =
          (boundedStack depth).pops [] (us ++ List.replicate n popOnly)) ↔
      ∀ us q, us ++ [q] <+: rs →
        ((synchLifo depth).run ((synchLifo depth).reset s r) us).TopInArray depth q := by
  have consistent : ((synchLifo depth).reset s r).Consistent depth := LifoState.Consistent.reset
  rw [← consistent.run_words_iff]
  have start : ((synchLifo depth).reset s r).words = [] := rfl
  rw [start]
  constructor
  · intro same us inRun
    have popped := same us inRun 0
    rw [List.replicate_zero, List.append_nil] at popped
    have drained : ∀ n, ((synchLifo depth).run ((synchLifo depth).reset s r) us).words.take n =
        ((boundedStack depth).run [] us).take n := by
      intro n
      have drained := same us inRun n
      rwa [Buffer.pops_append, Buffer.pops_append, popped, List.append_right_inj,
        (consistent.run us).pops_popOnly, boundedStack_pops_popOnly] at drained
    apply List.ext_getElem?
    intro i
    have upTo := drained (i + 1)
    calc _ = (((synchLifo depth).run ((synchLifo depth).reset s r) us).words.take (i + 1))[i]? := by
          rw [List.getElem?_take_of_succ]
      _ = _ := by rw [upTo, List.getElem?_take_of_succ]
  · intro same us inRun n
    have popped := LifoState.pops_eq (s := (synchLifo depth).reset s r) fun vs inside =>
      same vs (inside.trans inRun)
    rw [Buffer.pops_append, Buffer.pops_append, popped, (consistent.run us).pops_popOnly,
      boundedStack_pops_popOnly, same us inRun, start]

/-- A word is pushed, replaced in one cycle, and covered by another; the first
word comes out again in place of the one that replaced it. -/
theorem synchLifo_stale_word :
    let B := synchLifo (w := 8) 3
    let s : LifoState 8 := ⟨fun _ => 0, 0, 0, 0, false, 0, 0⟩
    let rs : List (Request (BitVec 8)) :=
      [⟨1, true, false⟩, ⟨2, true, true⟩, ⟨3, true, false⟩, ⟨0, false, true⟩, ⟨0, false, true⟩]
    B.pops (B.reset s popOnly) rs = [1, 3, 1] ∧ (boundedStack 3).pops [] rs = [1, 3, 2] := by
  decide

end Ahir.Hardware
