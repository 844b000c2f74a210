import Ahir.Data.Ring
import Ahir.Data.Discipline
import Mathlib.Data.BitVec

/-!
# The pipe handler

The software pipes: `write_to_pipe` and `read_from_pipe_base` move as many words
as they are asked for and can, with the mutex of the pipe held.  The pipe is one
that `register_pipe` made, so `is_signal` is not set.
-/

set_option autoImplicit false

namespace Ahir.PipeHandler
open Ahir.Data

inductive PipeMode where
  | fifo | lifo | fifoNonBlockRead
  deriving DecidableEq

structure PipeRec (V : Type) where
  pipeDepth : Nat
  pipeMode : PipeMode
  readPointer : Nat
  writePointer : Nat
  numberOfEntries : Nat
  buffer : Nat → V

namespace PipeRec
variable {V : Type} (p : PipeRec V)

def isLifoMode : Bool := decide (p.pipeMode = .lifo)

def incr (x : Nat) : Nat := succWrap p.pipeDepth x

def decr (x : Nat) : Nat := predWrap p.pipeDepth x

def push (x : V) : PipeRec V :=
  if p.numberOfEntries < p.pipeDepth then
    { p with
      numberOfEntries := p.numberOfEntries + 1
      buffer := Function.update p.buffer p.writePointer x
      readPointer := if p.isLifoMode then p.writePointer else p.readPointer
      writePointer := p.incr p.writePointer }
  else p

/-- `POP`, and the word it hands out. -/
def pop : Option V × PipeRec V :=
  if 0 < p.numberOfEntries then
    (some (p.buffer p.readPointer),
      { p with
        readPointer := if p.isLifoMode then p.decr p.readPointer else p.incr p.readPointer
        writePointer := if p.isLifoMode then p.readPointer else p.writePointer
        numberOfEntries := p.numberOfEntries - 1 })
  else (none, p)

/-- `POPANDRESTORE`; the write pointer is set to the old read pointer. -/
def popAndRestore : Option V × PipeRec V :=
  (p.pop.1,
    { p.pop.2 with
      readPointer := p.readPointer
      writePointer := p.readPointer
      numberOfEntries := p.numberOfEntries })

/-- `number_of_words_requested`, or as many as there are. -/
def readCount (requested : Nat) : Nat :=
  if p.numberOfEntries ≥ requested then requested
  else if p.numberOfEntries > 0 then p.numberOfEntries
  else 0

/-- A read that does not block is given zeros when there are too few words. -/
def readsZero (requested : Nat) : Bool :=
  decide (p.pipeMode = .fifoNonBlockRead) && decide (p.readCount requested < requested)

/-- The loop of `read_from_pipe_base`. -/
def readLoop (popFlag : Bool) : Nat → PipeRec V → List V × PipeRec V
  | 0, p => ([], p)
  | n + 1, p =>
      let (word, p₁) := if popFlag then p.pop else p.popAndRestore
      let (words, p₂) := readLoop popFlag n p₁
      (word.toList ++ words, p₂)

/-- The words that are returned; there are `ret_val` of them. -/
def readFromPipeBase [Zero V] (popFlag : Bool) (requested : Nat) : List V × PipeRec V :=
  if p.readsZero requested then (List.replicate requested 0, p)
  else readLoop popFlag (p.readCount requested) p

def available : Nat := p.pipeDepth - p.numberOfEntries

def writeCount (requested : Nat) : Nat :=
  if p.available ≥ requested then requested
  else if p.available > 0 then p.available
  else 0

/-- The loop of `write_to_pipe` pushes `writeCount` words, which it returns. -/
def writeToPipe (payload : List V) : PipeRec V :=
  (payload.take (p.writeCount payload.length)).foldl push p

end PipeRec

/-- `register_pipe`; the memory is cleared. -/
def registerPipe {V : Type} [Zero V] (pipeDepth : Int) (pipeMode : PipeMode) : PipeRec V where
  pipeDepth := if pipeDepth ≤ 0 then 1 else pipeDepth.toNat
  pipeMode := pipeMode
  readPointer := 0
  writePointer := 0
  numberOfEntries := 0
  buffer := fun _ => 0

/-- A call of `write_to_pipe` or of `read_from_pipe_base`, of some thread. -/
inductive Burst (V : Type) where
  | write (payload : List V)
  | read (popFlag : Bool) (requested : Nat)

namespace PipeRec
variable {V : Type} [Zero V] (p : PipeRec V)

def step : Burst V → PipeRec V
  | .write payload => p.writeToPipe payload
  | .read popFlag requested => (p.readFromPipeBase popFlag requested).2

def transfers : Burst V → List (Transfer V)
  | .write payload => (payload.take (p.writeCount payload.length)).map .stored
  | .read popFlag requested =>
      if popFlag && !p.readsZero requested then
        (p.readFromPipeBase popFlag requested).1.map .delivered
      else []

/-- The calls in the order in which they get the mutex. -/
def run (bursts : List (Burst V)) : PipeRec V := bursts.foldl step p

/-- All words that are stored and taken, in that order. -/
def log : PipeRec V → List (Burst V) → List (Transfer V)
  | _, [] => []
  | p, burst :: bursts => p.transfers burst ++ log (p.step burst) bursts

/-- A call that returns words and does not pop them finds the pointers equal. -/
def Restores : Burst V → Prop
  | .write _ => True
  | .read popFlag requested =>
      popFlag = false → p.readsZero requested = false → 0 < p.readCount requested →
        p.writePointer = p.readPointer

end PipeRec

/-- The pipe holds these words, the next one first: between the pointers of a
queue, or below the top of a stack. -/
structure PipeRec.Holds {V : Type} (p : PipeRec V) (q : List V) : Prop where
  inside : p.readPointer < p.pipeDepth
  bounded : q.length ≤ p.pipeDepth
  entries : p.numberOfEntries = q.length
  queue : p.pipeMode ≠ .lifo →
    p.writePointer = (p.readPointer + q.length) % p.pipeDepth ∧
      q = window p.buffer p.pipeDepth p.readPointer q.length
  stack : p.pipeMode = .lifo →
    p.writePointer = q.length % p.pipeDepth ∧ (0 < q.length → p.readPointer = q.length - 1) ∧
      q = below p.buffer q.length

section Word
variable {V : Type} {p : PipeRec V} {q : List V}

theorem registerPipe_holds [Zero V] (pipeDepth : Int) (pipeMode : PipeMode) :
    (registerPipe (V := V) pipeDepth pipeMode).Holds [] := by
  have positive : 0 < (registerPipe (V := V) pipeDepth pipeMode).pipeDepth := by
    simp only [registerPipe]
    split_ifs <;> omega
  exact
    { inside := positive
      bounded := Nat.zero_le _
      entries := rfl
      queue := fun _ => ⟨(Nat.zero_mod _).symm, rfl⟩
      stack := fun _ => ⟨(Nat.zero_mod _).symm, fun some => absurd some (Nat.lt_irrefl 0), rfl⟩ }

theorem PipeRec.Holds.push (holds : p.Holds q) (x : V) (room : q.length < p.pipeDepth) :
    (p.push x).Holds (put p.isLifoMode q x) := by
  obtain ⟨inside, bounded, entries, queue, stack⟩ := holds
  have pushed : p.push x =
      { p with
        numberOfEntries := p.numberOfEntries + 1
        buffer := Function.update p.buffer p.writePointer x
        readPointer := if p.isLifoMode then p.writePointer else p.readPointer
        writePointer := p.incr p.writePointer } := if_pos (entries ▸ room)
  rw [pushed]
  by_cases lifo : p.pipeMode = .lifo
  · obtain ⟨write, _, words⟩ := stack lifo
    rw [Nat.mod_eq_of_lt room] at write
    have mode : p.isLifoMode = true := by simp [PipeRec.isLifoMode, lifo]
    simp only [mode, put, if_true]
    refine ⟨by simp only [write]; exact room, by simp only [List.length_cons]; omega,
      by simp only [List.length_cons, entries], fun other => absurd lifo other, fun _ => ⟨?_, ?_, ?_⟩⟩
    · simp only [PipeRec.incr, write, List.length_cons]
      exact succWrap_eq_mod room
    · intro _
      simp only [write, List.length_cons, Nat.add_sub_cancel]
    · simp only [List.length_cons, write]
      rw [below_succ, Function.update_self, below_update (Nat.le_refl _), ← words]
  · obtain ⟨write, words⟩ := queue lifo
    have mode : p.isLifoMode = false := by simp [PipeRec.isLifoMode, lifo]
    have writeInside : p.writePointer < p.pipeDepth := by
      rw [write]
      exact Nat.mod_lt _ (by omega)
    simp only [mode, put, Bool.false_eq_true, if_false]
    refine ⟨inside, by simp only [List.length_append, List.length_singleton]; omega,
      by simp only [List.length_append, List.length_singleton, entries], fun _ => ⟨?_, ?_⟩,
      fun other => absurd other lifo⟩
    · simp only [PipeRec.incr, List.length_append, List.length_singleton]
      rw [succWrap_eq_mod writeInside, write, Nat.mod_add_mod, Nat.add_assoc]
    · simp only [List.length_append, List.length_singleton, write]
      rw [window_push room, ← words]

theorem PipeRec.Holds.pop {x : V} (holds : p.Holds (x :: q)) :
    p.pop.1 = some x ∧ p.pop.2.Holds q := by
  obtain ⟨inside, bounded, entries, queue, stack⟩ := holds
  have some : 0 < p.numberOfEntries := by
    rw [entries]
    exact Nat.zero_lt_succ _
  rw [List.length_cons] at bounded entries queue stack
  simp only [PipeRec.pop, if_pos some]
  by_cases lifo : p.pipeMode = .lifo
  · obtain ⟨write, read, words⟩ := stack lifo
    have top := read (by omega)
    rw [Nat.add_sub_cancel] at top
    have mode : p.isLifoMode = true := by simp [PipeRec.isLifoMode, lifo]
    rw [below_succ, List.cons.injEq, ← top] at words
    simp only [mode, if_true]
    refine ⟨by rw [words.1], ?_, by simp only []; omega, by simp only [entries]; omega,
      fun other => absurd lifo other, fun _ => ⟨?_, ?_, ?_⟩⟩
    · exact predWrap_lt inside
    · simp only [top]
      exact (Nat.mod_eq_of_lt (by omega)).symm
    · intro below
      simp only [PipeRec.decr, predWrap, top]
      rw [if_neg (by omega)]
    · rw [← top]
      exact words.2
  · obtain ⟨write, words⟩ := queue lifo
    have mode : p.isLifoMode = false := by simp [PipeRec.isLifoMode, lifo]
    rw [window_succ_front inside, List.cons.injEq] at words
    simp only [mode, Bool.false_eq_true, if_false, PipeRec.incr, succWrap_eq_mod inside]
    refine ⟨by rw [words.1], Nat.mod_lt _ (by omega), by simp only []; omega,
      by simp only [entries]; omega, fun _ => ⟨?_, words.2⟩, fun other => absurd other lifo⟩
    simp only [write, Nat.mod_add_mod]
    congr 1
    omega

/-- With equal pointers nothing is changed by a call that does not pop. -/
theorem PipeRec.popAndRestore_eq (equal : p.writePointer = p.readPointer) : p.popAndRestore.2 = p := by
  rcases p with ⟨depth, mode, read, write, entries, buffer⟩
  obtain rfl : write = read := equal
  unfold PipeRec.popAndRestore PipeRec.pop
  split_ifs <;> rfl

structure PipeRec.Same (p p' : PipeRec V) : Prop where
  depth : p'.pipeDepth = p.pipeDepth
  mode : p'.pipeMode = p.pipeMode

theorem PipeRec.Same.refl (p : PipeRec V) : p.Same p := ⟨rfl, rfl⟩

theorem PipeRec.Same.trans {p₁ p₂ p₃ : PipeRec V} (first : p₁.Same p₂) (second : p₂.Same p₃) : p₁.Same p₃ :=
  ⟨second.depth.trans first.depth, second.mode.trans first.mode⟩

theorem PipeRec.Same.lifo {p p' : PipeRec V} (same : p.Same p') : p'.isLifoMode = p.isLifoMode := by
  rw [PipeRec.isLifoMode, PipeRec.isLifoMode, same.mode]

theorem PipeRec.push_same (x : V) : p.Same (p.push x) := by
  unfold PipeRec.push
  split_ifs <;> exact ⟨rfl, rfl⟩

theorem PipeRec.pop_same : p.Same p.pop.2 := by
  unfold PipeRec.pop
  split_ifs <;> exact ⟨rfl, rfl⟩

theorem PipeRec.Holds.pushLoop (words : List V) : ∀ {p : PipeRec V} {q : List V}, p.Holds q →
    q.length + words.length ≤ p.pipeDepth →
    (words.foldl PipeRec.push p).Holds (words.foldl (put p.isLifoMode) q) ∧
      p.Same (words.foldl PipeRec.push p) := by
  induction words with
  | nil =>
      intro p q holds _
      exact ⟨holds, PipeRec.Same.refl p⟩
  | cons x words ih =>
      intro p q holds room
      rw [List.length_cons] at room
      have same := p.push_same x
      obtain ⟨holds', same'⟩ := ih (holds.push x (by omega)) (by rw [put_length, same.depth]; omega)
      rw [same.lifo] at holds'
      exact ⟨holds', same.trans same'⟩

theorem PipeRec.Holds.popLoop (words : List V) : ∀ {p : PipeRec V} {q : List V}, p.Holds (words ++ q) →
    (PipeRec.readLoop true words.length p).1 = words ∧
      (PipeRec.readLoop true words.length p).2.Holds q ∧
      p.Same (PipeRec.readLoop true words.length p).2 := by
  induction words with
  | nil =>
      intro p q holds
      exact ⟨rfl, holds, PipeRec.Same.refl p⟩
  | cons x words ih =>
      intro p q holds
      obtain ⟨word, holds₁⟩ := PipeRec.Holds.pop holds
      obtain ⟨rest, holds', same⟩ := ih holds₁
      refine ⟨?_, holds', PipeRec.pop_same.trans same⟩
      simp only [List.length_cons, PipeRec.readLoop, if_true, word, rest]
      rfl

theorem PipeRec.peekLoop (equal : p.writePointer = p.readPointer) :
    ∀ n, (PipeRec.readLoop false n p).2 = p := by
  intro n
  induction n with
  | zero => rfl
  | succ n ih =>
      simp only [PipeRec.readLoop, Bool.false_eq_true, if_false]
      rw [PipeRec.popAndRestore_eq equal, ih]

end Word

section Step
variable {V : Type} [Zero V] [DecidableEq V] {p : PipeRec V} {q : List V}

omit [Zero V] [DecidableEq V] in
theorem PipeRec.Holds.readCount_le (holds : p.Holds q) (requested : Nat) :
    p.readCount requested ≤ q.length := by
  have entries := holds.entries
  unfold PipeRec.readCount
  split_ifs <;> omega

omit [Zero V] [DecidableEq V] in
theorem PipeRec.Holds.writeCount_room (holds : p.Holds q) (requested : Nat) :
    p.writeCount requested ≤ requested ∧ q.length + p.writeCount requested ≤ p.pipeDepth := by
  have entries := holds.entries
  have bounded := holds.bounded
  unfold PipeRec.writeCount PipeRec.available
  split_ifs <;> omega

/-- A call does to the pipe what its transfers do to a queue or a stack. -/
theorem PipeRec.Holds.step {burst : Burst V} (holds : p.Holds q) (restores : p.Restores burst) :
    ∃ q', (p.step burst).Holds q' ∧ replay p.isLifoMode q (p.transfers burst) = some q' ∧
      p.Same (p.step burst) := by
  cases burst with
  | write payload =>
      obtain ⟨fits, room⟩ := holds.writeCount_room payload.length
      have length : (payload.take (p.writeCount payload.length)).length = p.writeCount payload.length := by
        rw [List.length_take]
        omega
      obtain ⟨holds', same⟩ := holds.pushLoop (payload.take (p.writeCount payload.length))
        (by rw [length]; exact room)
      exact ⟨_, holds', replay_stored _ q, same⟩
  | read popFlag requested =>
      cases zero : p.readsZero requested with
      | true =>
          refine ⟨q, ?_, ?_, ?_⟩ <;> simp [PipeRec.step, PipeRec.readFromPipeBase, PipeRec.transfers, zero, holds,
            replay, PipeRec.Same.refl]
      | false =>
          have read : p.readFromPipeBase popFlag requested =
              PipeRec.readLoop popFlag (p.readCount requested) p := by
            rw [PipeRec.readFromPipeBase, zero, if_neg Bool.false_ne_true]
          simp only [PipeRec.step, PipeRec.transfers, read, zero, Bool.not_false, Bool.and_true]
          cases popFlag with
          | true =>
              have whole := List.take_append_drop (p.readCount requested) q
              have length : (q.take (p.readCount requested)).length = p.readCount requested := by
                rw [List.length_take]
                have := holds.readCount_le requested
                omega
              rw [← whole] at holds
              obtain ⟨words, holds', same⟩ := holds.popLoop
              rw [length] at words holds' same
              refine ⟨_, holds', ?_, same⟩
              rw [if_pos rfl, words]
              nth_rewrite 1 [← whole]
              exact replay_delivered _ _
          | false =>
              have unchanged : (PipeRec.readLoop false (p.readCount requested) p).2 = p := by
                rcases Nat.eq_zero_or_pos (p.readCount requested) with none | some
                · rw [none]
                  rfl
                · exact PipeRec.peekLoop (restores rfl zero some) _
              rw [unchanged]
              exact ⟨q, holds, rfl, PipeRec.Same.refl p⟩

/-- In a run in which every call that only looks finds the pointers equal. -/
theorem PipeRec.Holds.run (bursts : List (Burst V)) : ∀ {p : PipeRec V} {q : List V}, p.Holds q →
    (∀ us burst, us ++ [burst] <+: bursts → (p.run us).Restores burst) →
    ∃ q', (p.run bursts).Holds q' ∧ replay p.isLifoMode q (p.log bursts) = some q' ∧
      p.Same (p.run bursts) := by
  induction bursts with
  | nil =>
      intro p q holds _
      exact ⟨q, holds, rfl, PipeRec.Same.refl p⟩
  | cons burst bursts ih =>
      intro p q holds restores
      obtain ⟨q₁, holds₁, replay₁, same₁⟩ := holds.step (restores [] burst (by simp))
      have rest : ∀ us burst', us ++ [burst'] <+: bursts → ((p.step burst).run us).Restores burst' := by
        intro us burst' inRun
        exact restores (burst :: us) burst' (by simpa using inRun)
      obtain ⟨q', holds', replay', same'⟩ := ih holds₁ rest
      refine ⟨q', holds', ?_, same₁.trans same'⟩
      rw [PipeRec.log, replay_append, replay₁, Option.bind_some, ← same₁.lifo]
      exact replay'

end Step

def Burst.Pops {V : Type} : Burst V → Prop
  | .write _ => True
  | .read popFlag _ => popFlag = true

theorem PipeRec.restores_of_pops {V : Type} {p : PipeRec V} {burst : Burst V} (pops : burst.Pops) :
    p.Restores burst := by
  cases burst with
  | write payload => exact trivial
  | read popFlag requested =>
      intro noPop
      rw [Burst.Pops, noPop] at pops
      cases pops

/-- From the registration on, in whatever order the calls get the mutex, the words
taken are those of the queue, or of the stack, that the words stored make; as many
are in the pipe as were stored and not taken, and the pointers are in range. -/
theorem pipe_keeps_discipline {w : Nat} (pipeDepth : Int) (pipeMode : PipeMode)
    {bursts : List (Burst (BitVec w))}
    (restores : ∀ us burst, us ++ [burst] <+: bursts →
      ((registerPipe pipeDepth pipeMode).run us).Restores burst) :
    let p : PipeRec (BitVec w) := registerPipe pipeDepth pipeMode
    let last := p.run bursts
    (∃ q, replay p.isLifoMode [] (p.log bursts) = some q ∧ last.Holds q) ∧
      (pipeMode ≠ .lifo → deliveredIn (p.log bursts) <+: storedIn (p.log bursts)) ∧
      last.numberOfEntries + (deliveredIn (p.log bursts)).length = (storedIn (p.log bursts)).length ∧
      last.numberOfEntries ≤ p.pipeDepth ∧
      last.readPointer < p.pipeDepth ∧ last.writePointer < p.pipeDepth := by
  intro p last
  obtain ⟨q, holds, replayed, same⟩ := (registerPipe_holds pipeDepth pipeMode).run bursts restores
  have counted : 0 + (storedIn (p.log bursts)).length = (deliveredIn (p.log bursts)).length + q.length :=
    replay_length replayed
  have entries : last.numberOfEntries = q.length := holds.entries
  have bounded : q.length ≤ p.pipeDepth := same.depth ▸ holds.bounded
  have inside : last.readPointer < p.pipeDepth := same.depth ▸ holds.inside
  refine ⟨⟨q, replayed, holds⟩, ?_, ?_, ?_, inside, ?_⟩
  · intro queue
    have mode : p.isLifoMode = false := decide_eq_false queue
    have queued := replay_queue (mode ▸ replayed)
    rw [List.nil_append] at queued
    exact ⟨q, queued.symm⟩
  · rw [entries]
    omega
  · rw [entries]
    exact bounded
  · have write : last.writePointer < last.pipeDepth := by
      have positive : 0 < last.pipeDepth := Nat.lt_of_le_of_lt (Nat.zero_le _) holds.inside
      by_cases lifo : last.pipeMode = .lifo
      · rw [(holds.stack lifo).1]
        exact Nat.mod_lt _ positive
      · rw [(holds.queue lifo).1]
        exact Nat.mod_lt _ positive
    rwa [same.depth] at write

/-- A stack of three words: a burst that is cut short, and reads of it. -/
theorem pipe_keeps_discipline_three :
    let p : PipeRec (BitVec 8) := registerPipe 3 .lifo
    let bursts : List (Burst (BitVec 8)) :=
      [.write [1, 2], .write [3, 4, 5], .read true 2, .write [6], .read true 4]
    deliveredIn (p.log bursts) = [3, 2, 6, 1] ∧
      (p.run bursts).numberOfEntries + (deliveredIn (p.log bursts)).length =
        (storedIn (p.log bursts)).length := by
  intro p bursts
  refine ⟨by decide, (pipe_keeps_discipline 3 .lifo ?_).2.2.1⟩
  intro us burst inRun
  have member : burst ∈ bursts := inRun.subset (by simp)
  apply PipeRec.restores_of_pops
  simp only [bursts, List.mem_cons, List.not_mem_nil, or_false] at member
  rcases member with rfl | rfl | rfl | rfl | rfl <;> simp [Burst.Pops]

/-- A look at the word in a queue moves the write pointer back to it, and the next
word is stored over it. -/
theorem popAndRestore_overwrites :
    let p : PipeRec (BitVec 8) := registerPipe 3 .fifo
    let bursts : List (Burst (BitVec 8)) :=
      [.write [1], .read false 1, .write [2], .read true 2]
    deliveredIn (p.log bursts) = [2, 0] ∧ storedIn (p.log bursts) = [1, 2] ∧
      ¬ deliveredIn (p.log bursts) <+: storedIn (p.log bursts) := by
  decide

end Ahir.PipeHandler
