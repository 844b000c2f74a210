import Ahir.CtestBench.PipeHandler
import Mathlib.Data.List.GetD

/-!
# Words in a pipe of the test bench

Words of one length are the cells of the buffer of a pipe: a circular buffer, or a
stack as long as it has not been filled.
-/

set_option autoImplicit false

namespace Ahir.CtestBench
open Ahir.Data

theorem WordLength.bytes_pos (n : WordLength) : 0 < n.bytes := by
  cases n <;> decide

namespace PipeRec
variable {p : PipeRec} {n : WordLength}

def cells (p : PipeRec) (n : WordLength) (k : Nat) : Word := p.load n k

theorem cells_store (p : PipeRec) (k : Nat) {x : Word} (length : x.length = n.bytes) :
    { p with buffer := p.store n k x }.cells n = Function.update (p.cells n) k x := by
  have pos := n.bytes_pos
  funext l
  unfold cells load
  dsimp only
  by_cases here : l = k
  · rw [here, Function.update_self]
    refine List.ext_getElem (by rw [List.length_map, List.length_range, length]) fun j inside _ => ?_
    have below : j < n.bytes := by rwa [List.length_map, List.length_range] at inside
    rw [List.getElem_map, List.getElem_range, store, if_pos ⟨by omega, by nlinarith⟩,
      show ((k : Int) * (n.bytes : Nat) + j - k * n.bytes).toNat = j by omega,
      List.getD_eq_getElem _ _ (by omega)]
  · rw [Function.update_of_ne here]
    refine List.map_congr_left fun j mem => ?_
    have below := List.mem_range.mp mem
    rw [store, if_neg]
    rintro ⟨low, high⟩
    rcases Nat.lt_or_gt_of_ne here with less | greater
    · have : (l + 1 : Int) * n.bytes ≤ k * n.bytes := by gcongr; omega
      have : ((l : Int) + 1) * n.bytes = l * n.bytes + n.bytes := by ring
      omega
    · have : ((k : Int) + 1) * n.bytes ≤ l * n.bytes := by gcongr; omega
      omega

structure Holds (p : PipeRec) (n : WordLength) (words : List Word) : Prop where
  depth_pos : 0 < p.pipeDepth
  room : p.numberOfEntries ≤ p.pipeDepth
  queue : p.lifoMode = false → ∃ first : Nat, first < p.pipeDepth ∧ p.readPointer = first ∧
    p.writePointer = ((first + p.numberOfEntries) % p.pipeDepth : Nat) ∧
      words = window (p.cells n) p.pipeDepth first p.numberOfEntries
  stack : p.lifoMode = true → words = below (p.cells n) p.numberOfEntries ∧
    (p.numberOfEntries < p.pipeDepth → p.writePointer = p.numberOfEntries ∧
      (0 < p.numberOfEntries → p.readPointer = p.numberOfEntries - 1))

theorem Holds.length {words : List Word} (holds : p.Holds n words) : words.length = p.numberOfEntries := by
  cases mode : p.lifoMode with
  | false =>
      obtain ⟨first, _, _, _, rfl⟩ := holds.queue mode
      exact window_length
  | true =>
      rw [(holds.stack mode).1]
      exact below_length

theorem incr_eq {k : Nat} (inside : k < p.pipeDepth) : p.incr k = (succWrap p.pipeDepth k : Nat) := by
  unfold incr succWrap
  by_cases last : k = p.pipeDepth - 1
  · rw [if_pos last, if_pos (by omega)]
    rfl
  · rw [if_neg last, if_neg (by omega)]
    rfl

end PipeRec

namespace Step
variable (s : Step)

/-- A word of the length of the pipe's words, and not wider than the pipe; a write when there are
fewer entries than its width, and no read from a stack that is full. -/
def Fits (lengths : String → WordLength) : Prop :=
  s.job.wordLength = lengths s.job.pipeName ∧ s.job.wordLength.bits ≤ s.pipe.pipeWidth ∧
    if s.job.readWriteBar then s.pipe.lifoMode = true → s.pipe.numberOfEntries < s.pipe.pipeDepth
    else s.pipe.numberOfEntries < s.pipe.pipeWidth

instance (lengths : String → WordLength) : Decidable (s.Fits lengths) := by unfold Fits; infer_instance

def pointer : Int := if s.job.readWriteBar then s.pipe.readPointer else s.pipe.writePointer

/-- The word is in the buffer that `add_pipe` has allocated. -/
def InsideBuffer : Prop :=
  0 ≤ s.pointer * s.job.wordLength.bytes ∧
    (s.pointer + 1) * s.job.wordLength.bytes ≤ (s.pipe.pipeDepth * s.pipe.pipeWidth / 8 : Nat)

theorem insideBuffer_of_lt {s : Step} {k : Nat} (width : s.job.wordLength.bits ≤ s.pipe.pipeWidth)
    (pointer : s.pointer = k) (inside : k < s.pipe.pipeDepth) : s.InsideBuffer := by
  have size : s.pipe.pipeDepth * s.job.wordLength.bytes ≤ s.pipe.pipeDepth * s.pipe.pipeWidth / 8 := by
    rw [Nat.le_div_iff_mul_le (by decide), Nat.mul_assoc, Nat.mul_comm _ 8]
    exact Nat.mul_le_mul_left _ width
  have bound : (k + 1) * s.job.wordLength.bytes ≤ s.pipe.pipeDepth * s.job.wordLength.bytes :=
    Nat.mul_le_mul_right _ inside
  unfold InsideBuffer
  rw [pointer]
  refine ⟨by positivity, ?_⟩
  exact_mod_cast bound.trans size

end Step

namespace PipeRec
variable {p : PipeRec} {job : PipeJob} {words : List Word} {lengths : String → WordLength}

theorem serveWord_write (write : job.readWriteBar = false) :
    (serveWord p job).1 = p.push job.wordLength (servedWord p job) := by
  rw [serveWord, write, if_neg Bool.false_ne_true]

theorem serveWord_read (read : job.readWriteBar = true) : (serveWord p job).1 = (p.pop job.wordLength).2 := by
  rw [serveWord, read, if_pos rfl]

theorem Holds.push (holds : p.Holds job.wordLength words) (write : job.readWriteBar = false)
    (fits : (⟨p, job, servedWord p job⟩ : Step).Fits lengths) (serves : canServe p job = true) :
    (serveWord p job).1.Holds job.wordLength (put p.lifoMode words (servedWord p job)) ∧
      (⟨p, job, servedWord p job⟩ : Step).InsideBuffer := by
  obtain ⟨-, width, narrow⟩ := fits
  dsimp only at width narrow
  rw [write, if_neg Bool.false_ne_true] at narrow
  have room : p.numberOfEntries < p.pipeDepth := by
    have notFull : p.isFull = false := by simpa [canServe, write] using (Bool.and_eq_true_iff.mp serves).2
    have := holds.room
    rw [isFull, decide_eq_false_iff_not] at notFull
    omega
  rw [serveWord_write write, PipeRec.push, if_pos narrow]
  cases mode : p.lifoMode with
  | false =>
      obtain ⟨first, inside, read, pointer, rfl⟩ := holds.queue mode
      have below : (first + p.numberOfEntries) % p.pipeDepth < p.pipeDepth := Nat.mod_lt _ holds.depth_pos
      refine ⟨⟨holds.depth_pos, room, fun _ => ⟨first, inside, read, ?_, ?_⟩, by simp⟩,
        Step.insideBuffer_of_lt width (by rw [Step.pointer, write]; exact pointer) below⟩
      · dsimp only
        rw [pointer, incr_eq below, succWrap_eq_mod below, Nat.mod_add_mod, Nat.add_assoc]
      · have cells := cells_store p ((first + p.numberOfEntries) % p.pipeDepth)
          (length_servedWord p job)
        rw [← pointer] at cells
        exact (window_push room).symm.trans (by rw [← cells]; rfl)
  | true =>
      obtain ⟨rfl, pointers⟩ := holds.stack mode
      have pointer := (pointers room).1
      refine ⟨⟨holds.depth_pos, room, by simp, fun _ => ⟨?_, fun more => ?_⟩⟩,
        Step.insideBuffer_of_lt width (by rw [Step.pointer, write]; exact pointer) room⟩
      · have cells := cells_store p p.numberOfEntries (length_servedWord p job)
        rw [← pointer] at cells
        have top : below (Function.update (p.cells job.wordLength) p.numberOfEntries (servedWord p job)) (p.numberOfEntries + 1) =
            servedWord p job :: below (p.cells job.wordLength) p.numberOfEntries := by
          rw [below_succ, Function.update_self, below_update (le_refl _)]
        exact top.symm.trans (by rw [← cells]; rfl)
      · dsimp only at more ⊢
        rw [pointer, incr_eq room, succWrap, if_neg (by omega)]
        exact ⟨rfl, fun _ => by push_cast; rfl⟩

theorem Holds.pop (holds : p.Holds job.wordLength words) (read : job.readWriteBar = true)
    (fits : (⟨p, job, servedWord p job⟩ : Step).Fits lengths) (serves : canServe p job = true) :
    ∃ rest, words = servedWord p job :: rest ∧ (serveWord p job).1.Holds job.wordLength rest ∧
      (⟨p, job, servedWord p job⟩ : Step).InsideBuffer := by
  obtain ⟨-, width, notFull⟩ := fits
  dsimp only at width notFull
  rw [read, if_pos rfl] at notFull
  have occupied : 0 < p.numberOfEntries := by
    have notEmpty : p.isEmpty = false := by simpa [canServe, read] using (Bool.and_eq_true_iff.mp serves).2
    rw [isEmpty, decide_eq_false_iff_not] at notEmpty
    omega
  obtain ⟨n, entries⟩ := Nat.exists_eq_succ_of_ne_zero occupied.ne'
  have room := holds.room
  have word : servedWord p job = p.load job.wordLength p.readPointer := by rw [servedWord, read, if_pos rfl]
  rw [serveWord_read read, PipeRec.pop, if_pos occupied]
  cases mode : p.lifoMode with
  | false =>
      obtain ⟨first, inside, pointer, writePointer, rfl⟩ := holds.queue mode
      refine ⟨window (p.cells job.wordLength) p.pipeDepth ((first + 1) % p.pipeDepth) n, ?_, ?_,
        Step.insideBuffer_of_lt width (by rw [Step.pointer, read]; exact pointer) inside⟩
      · rw [entries, window_succ_front inside, word, pointer, cells]
      · dsimp only
        rw [if_neg Bool.false_ne_true]
        refine ⟨holds.depth_pos, by dsimp only; omega, fun _ => ⟨(first + 1) % p.pipeDepth,
          Nat.mod_lt _ holds.depth_pos, ?_, ?_, ?_⟩, by simp⟩
        · dsimp only
          rw [pointer, incr_eq inside, succWrap_eq_mod inside]
        · dsimp only
          rw [writePointer, entries, Nat.mod_add_mod]
          congr 2
          omega
        · dsimp only
          rw [entries]
          rfl
  | true =>
      obtain ⟨rfl, pointers⟩ := holds.stack mode
      obtain ⟨writePointer, readPointer⟩ := pointers (notFull mode)
      have pointer : p.readPointer = n := by rw [readPointer occupied, entries]; push_cast; ring
      refine ⟨below (p.cells job.wordLength) n, ?_, ?_,
        Step.insideBuffer_of_lt width (by rw [Step.pointer, read]; exact pointer) (by dsimp only; omega)⟩
      · rw [entries, below_succ, word, pointer, cells]
      · dsimp only
        rw [if_pos rfl]
        refine ⟨holds.depth_pos, by dsimp only; omega, by simp, fun _ => ⟨?_, fun _ => ⟨?_, fun more => ?_⟩⟩⟩
        · dsimp only
          rw [entries]
          rfl
        · dsimp only
          rw [writePointer, entries]
          push_cast
          ring
        · dsimp only at more ⊢
          rw [writePointer, if_pos (by omega), entries]
          push_cast
          ring

theorem serveWord_same : (serveWord p job).1.lifoMode = p.lifoMode ∧ (serveWord p job).1.pipeDepth = p.pipeDepth ∧
    (serveWord p job).1.pipeWidth = p.pipeWidth := by
  unfold serveWord PipeRec.push PipeRec.pop
  dsimp only
  split
  · split
    · split <;> exact ⟨rfl, rfl, rfl⟩
    · exact ⟨rfl, rfl, rfl⟩
  · split <;> exact ⟨rfl, rfl, rfl⟩

/-- A word that is transferred is one on the list of words, too. -/
theorem Holds.transfer (holds : p.Holds job.wordLength words) (fits : (⟨p, job, servedWord p job⟩ : Step).Fits lengths)
    (serves : canServe p job = true) :
    ∃ words', replay p.lifoMode words [(⟨p, job, servedWord p job⟩ : Step).transfer] = some words' ∧
      (serveWord p job).1.Holds job.wordLength words' ∧ (⟨p, job, servedWord p job⟩ : Step).InsideBuffer := by
  unfold Step.transfer
  dsimp only
  cases kind : job.readWriteBar with
  | false =>
      obtain ⟨after, inside⟩ := holds.push kind fits serves
      exact ⟨_, rfl, after, inside⟩
  | true =>
      obtain ⟨rest, rfl, after, inside⟩ := holds.pop kind fits serves
      refine ⟨rest, ?_, after, inside⟩
      rw [if_pos rfl, replay, if_pos rfl, replay]

end PipeRec
end Ahir.CtestBench
