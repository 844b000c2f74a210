import Mathlib.Data.List.Basic
import Mathlib.Tactic

/-!
# Clocked buffers

A buffer takes in a value in the cycles in which a push is requested and
acknowledged, and hands one out in those in which a pop is.  A representation
tells which values a state holds; when every cycle obeys the law of a queue, or
of a stack, so do all runs.
-/

set_option autoImplicit false

namespace Ahir.Hardware

structure Request (V : Type) where
  dataIn : V
  pushReq : Bool
  popReq : Bool

structure Response (V : Type) where
  dataOut : V
  pushAck : Bool
  popAck : Bool

/-- A circuit with a push and a pop port.  `reset` is the clock edge while the
reset is asserted, `next` any other. -/
structure Buffer (S V : Type) where
  reset : S → Request V → S
  respond : S → Request V → Response V
  next : S → Request V → S

namespace Buffer
variable {S V : Type} (B : Buffer S V)

def pushed (s : S) (r : Request V) : Option V :=
  if r.pushReq && (B.respond s r).pushAck then some r.dataIn else none

def popped (s : S) (r : Request V) : Option V :=
  if r.popReq && (B.respond s r).popAck then some (B.respond s r).dataOut else none

def run (s : S) (rs : List (Request V)) : S := rs.foldl B.next s

def pushes : S → List (Request V) → List V
  | _, [] => []
  | s, r :: rs => (B.pushed s r).toList ++ pushes (B.next s r) rs

def pops : S → List (Request V) → List V
  | _, [] => []
  | s, r :: rs => (B.popped s r).toList ++ pops (B.next s r) rs

variable {B}

@[simp]
theorem run_append (s : S) (us vs : List (Request V)) : B.run s (us ++ vs) = B.run (B.run s us) vs :=
  List.foldl_append ..

@[simp]
theorem run_singleton (s : S) (r : Request V) : B.run s [r] = B.next s r := rfl

theorem pops_append (s : S) (us vs : List (Request V)) :
    B.pops s (us ++ vs) = B.pops s us ++ B.pops (B.run s us) vs := by
  induction us generalizing s with
  | nil => rfl
  | cons r us ih =>
      rw [List.cons_append, pops, pops, ih, List.append_assoc]
      rfl

/-- `holds s q`: the state holds the values `q`, the one to come out next first.
A value that is taken in is put behind them; it may come out in the same cycle. -/
structure Fifo (B : Buffer S V) (depth : Nat) (holds : S → List V → Prop) : Prop where
  reset : ∀ s r, holds (B.reset s r) []
  bounded : ∀ s q, holds s q → q.length ≤ depth
  step : ∀ s r q, holds s q →
    ∃ q', holds (B.next s r) q' ∧ q ++ (B.pushed s r).toList = (B.popped s r).toList ++ q'

/-- What comes out of a run followed by what is left is what was there followed
by what came in. -/
theorem Fifo.run {depth : Nat} {holds : S → List V → Prop} (fifo : B.Fifo depth holds) :
    ∀ (rs : List (Request V)) (s : S) (q : List V), holds s q →
      ∃ q', holds (B.run s rs) q' ∧ q ++ B.pushes s rs = B.pops s rs ++ q' := by
  intro rs
  induction rs with
  | nil =>
      intro s q held
      refine ⟨q, held, ?_⟩
      rw [pushes, pops, List.append_nil, List.nil_append]
  | cons r rs ih =>
      intro s q held
      obtain ⟨q₁, held₁, step⟩ := fifo.step s r q held
      obtain ⟨q', held', rest⟩ := ih (B.next s r) q₁ held₁
      refine ⟨q', held', ?_⟩
      calc q ++ B.pushes s (r :: rs)
          = (q ++ (B.pushed s r).toList) ++ B.pushes (B.next s r) rs := by
            rw [pushes, List.append_assoc]
        _ = (B.popped s r).toList ++ (q₁ ++ B.pushes (B.next s r) rs) := by
            rw [step, List.append_assoc]
        _ = B.pops s (r :: rs) ++ q' := by rw [rest, pops, List.append_assoc]

theorem Fifo.run_reset {depth : Nat} {holds : S → List V → Prop} (fifo : B.Fifo depth holds)
    (s : S) (r : Request V) (rs : List (Request V)) :
    ∃ q, holds (B.run (B.reset s r) rs) q ∧ q.length ≤ depth ∧
      B.pushes (B.reset s r) rs = B.pops (B.reset s r) rs ++ q := by
  obtain ⟨q, held, law⟩ := fifo.run rs (B.reset s r) [] (fifo.reset s r)
  exact ⟨q, held, fifo.bounded _ q held, law⟩

structure ShowsNext (B : Buffer S V) (holds : S → List V → Prop) : Prop where
  popAck : ∀ s r q, holds s q → (B.respond s r).popAck = decide (0 < q.length)
  dataOut : ∀ s r r', (B.respond s r).dataOut = (B.respond s r').dataOut

section ShowsNext
variable {depth : Nat} {holds : S → List V → Prop} {s : S} {q : List V} (shows : B.ShowsNext holds)
  (fifo : B.Fifo depth holds) (held : holds s q)
include shows held

theorem ShowsNext.popped (r : Request V) :
    B.popped s r = if r.popReq && decide (0 < q.length) then some (B.respond s r).dataOut else none := by
  rw [Buffer.popped, shows.popAck s r q held]

include fifo

theorem ShowsNext.front (r : Request V) {x : V} {rest : List V} (values : q = x :: rest) :
    (B.respond s r).dataOut = x := by
  obtain ⟨q', -, law⟩ := fifo.step s ⟨x, false, true⟩ q held
  rw [shows.popped held, values] at law
  rw [shows.dataOut s r ⟨x, false, true⟩]
  exact (List.cons.inj law).1.symm

theorem ShowsNext.next (r : Request V) :
    holds (B.next s r) ((if r.popReq then q.tail else q) ++ (B.pushed s r).toList) := by
  obtain ⟨q', held', law⟩ := fifo.step s r q held
  rw [shows.popped held] at law
  cases pop : r.popReq with
  | false =>
      rw [pop] at law
      rw [if_neg Bool.false_ne_true, law]
      exact held'
  | true =>
      rw [pop] at law
      cases q with
      | nil =>
          rw [if_pos rfl, List.tail_nil, law]
          exact held'
      | cons x rest =>
          have same : rest ++ (B.pushed s r).toList = q' := (List.cons.inj law).2
          rw [if_pos rfl, List.tail_cons, same]
          exact held'

end ShowsNext

end Buffer

end Ahir.Hardware
