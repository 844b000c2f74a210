import Ahir.PipeHandler.PipeRec

/-!
# Looking into a pipe

A read that does not pop runs the loop of the read with a macro that restores the pipe after
each word: it looks at the first word again and again, and it sets the write pointer to the
read pointer.
-/

set_option autoImplicit false

namespace Ahir.PipeHandler
open Ahir.Data

namespace PipeRec
variable {V : Type} (p : PipeRec V)

def advance (x : Nat) : Nat := if p.isLifoMode then p.decr x else p.incr x

/-- A read that does not pop leaves the pipe as it was, and returns what one that pops would. -/
structure PeekUndisturbed [Zero V] (requested : Nat) : Prop where
  pipe : (p.readFromPipeBase false requested).2 = p
  words : (p.readFromPipeBase false requested).1 = (p.readFromPipeBase true requested).1

/-- There is nothing to look at, or the pointers are equal and the words are all the same. -/
def PeeksSafely (requested : Nat) : Prop :=
  p.readsZero requested = true ∨ p.readCount requested = 0 ∨
    p.writePointer = p.readPointer ∧
      ∀ k < p.readCount requested, p.buffer (p.advance^[k] p.readPointer) = p.buffer p.readPointer

variable {p}

theorem popAndRestore_of_pos (present : 0 < p.numberOfEntries) :
    p.popAndRestore = (some (p.buffer p.readPointer), { p with writePointer := p.readPointer }) := by
  unfold popAndRestore pop
  rw [if_pos present]

theorem pop_of_pos (present : 0 < p.numberOfEntries) :
    p.pop.1 = some (p.buffer p.readPointer) ∧ p.pop.2.readPointer = p.advance p.readPointer ∧
      p.pop.2.numberOfEntries = p.numberOfEntries - 1 ∧ p.pop.2.buffer = p.buffer := by
  unfold pop
  rw [if_pos present]
  exact ⟨rfl, rfl, rfl, rfl⟩

theorem Same.advance {p' : PipeRec V} (same : p.Same p') : p'.advance = p.advance := by
  funext x
  unfold PipeRec.advance decr incr
  rw [same.lifo, same.depth]

theorem peekLoop_eq (n : Nat) (present : 0 < p.numberOfEntries) :
    readLoop false (n + 1) p =
      (List.replicate (n + 1) (p.buffer p.readPointer), { p with writePointer := p.readPointer }) := by
  induction n generalizing p with
  | zero =>
      unfold readLoop
      rw [if_neg Bool.false_ne_true, popAndRestore_of_pos present]
      rfl
  | succ n ih =>
      rw [readLoop, if_neg Bool.false_ne_true, popAndRestore_of_pos present]
      dsimp only
      rw [ih (p := { p with writePointer := p.readPointer }) present]
      rfl

/-- The words that are popped are those along the way of the read pointer. -/
theorem popLoop_words (n : Nat) (enough : n ≤ p.numberOfEntries) :
    (readLoop true n p).1 = (List.range n).map fun k => p.buffer (p.advance^[k] p.readPointer) := by
  induction n generalizing p with
  | zero => rfl
  | succ n ih =>
      obtain ⟨word, pointer, entries, buffer⟩ := pop_of_pos (p := p) (by omega)
      have rest := ih (p := p.pop.2) (by omega)
      rw [buffer, pointer, Same.advance pop_same] at rest
      rw [readLoop, if_pos rfl]
      dsimp only
      rw [rest, word, List.range_succ_eq_map, List.map_cons, List.map_map]
      rfl

theorem replicate_eq_map_range {x : V} {f : Nat → V} (n : Nat) :
    List.replicate n x = (List.range n).map f ↔ ∀ k < n, f k = x := by
  rw [eq_comm, List.eq_replicate_iff, List.length_map, List.length_range, and_iff_right rfl, List.forall_mem_map]
  simp only [List.mem_range]

theorem readCount_le (requested : Nat) : p.readCount requested ≤ p.numberOfEntries := by
  unfold readCount
  split_ifs <;> omega

/-- In any state of a pipe, of each discipline. -/
theorem peekUndisturbed_iff [Zero V] (p : PipeRec V) (requested : Nat) :
    p.PeekUndisturbed requested ↔ p.PeeksSafely requested := by
  unfold PeeksSafely
  cases zero : p.readsZero requested with
  | true =>
      have read (popFlag : Bool) : p.readFromPipeBase popFlag requested = (List.replicate requested 0, p) := by
        rw [readFromPipeBase, zero, if_pos rfl]
      exact ⟨fun _ => .inl rfl, fun _ => ⟨by rw [read], by rw [read, read]⟩⟩
  | false =>
      have read (popFlag : Bool) : p.readFromPipeBase popFlag requested = readLoop popFlag (p.readCount requested) p := by
        rw [readFromPipeBase, zero, if_neg Bool.false_ne_true]
      have enough := readCount_le (p := p) requested
      cases count : p.readCount requested with
      | zero =>
          refine ⟨fun _ => .inr (.inl rfl), fun _ => ⟨?_, ?_⟩⟩
          · rw [read, count]
            rfl
          · rw [read, read, count]
            rfl
      | succ n =>
          have looked := peekLoop_eq n (p := p) (by omega)
          have popped := popLoop_words (n + 1) (p := p) (by omega)
          have words : (p.readFromPipeBase false requested).1 = (p.readFromPipeBase true requested).1 ↔
              ∀ k < n + 1, p.buffer (p.advance^[k] p.readPointer) = p.buffer p.readPointer := by
            rw [read, read, count, looked, popped]
            exact replicate_eq_map_range (n + 1)
          have pipe : (p.readFromPipeBase false requested).2 = p ↔ p.writePointer = p.readPointer := by
            rw [read, count, looked]
            constructor
            · intro same
              exact (congrArg PipeRec.writePointer same).symm
            · intro equal
              exact congrArg (fun pointer => { p with writePointer := pointer }) equal.symm
          constructor
          · intro undisturbed
            exact .inr (.inr ⟨pipe.mp undisturbed.pipe, words.mp undisturbed.words⟩)
          · rintro (isZero | none | ⟨equal, same⟩)
            · cases isZero
            · cases none
            · exact ⟨pipe.mpr equal, words.mpr same⟩

end PipeRec

section Discipline
variable {V : Type} {p : PipeRec V} {q : List V}

end Discipline

/-- A full queue of two equal words. -/
theorem peekUndisturbed_full :
    let p : PipeRec (BitVec 8) := (registerPipe 2 .fifo).run [.write [7, 7]]
    p.PeekUndisturbed 2 := by
  intro p
  exact (PipeRec.peekUndisturbed_iff p 2).mpr (.inr (.inr ⟨by decide, by decide⟩))

/-- Two words in a queue of three, of which both are looked at. -/
theorem not_peekUndisturbed_two :
    let p : PipeRec (BitVec 8) := (registerPipe 3 .fifo).run [.write [1, 2]]
    (p.readFromPipeBase false 2).1 = [1, 1] ∧ (p.readFromPipeBase true 2).1 = [1, 2] ∧
      p.writePointer = 2 ∧ (p.readFromPipeBase false 2).2.writePointer = 0 ∧ ¬ p.PeekUndisturbed 2 := by
  intro p
  refine ⟨by decide, by decide, by decide, by decide, fun undisturbed => ?_⟩
  have words := undisturbed.words
  revert words
  decide

end Ahir.PipeHandler
