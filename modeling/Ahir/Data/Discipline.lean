import Mathlib.Data.List.Basic
import Mathlib.Tactic

/-!
# Queues and stacks

What is stored in a queue or in a stack and delivered from it, one value after
the other.  A log of it is replayed on a list that begins with the value to come
out next.
-/

set_option autoImplicit false

namespace Ahir.Data

inductive Transfer (V : Type) where
  | stored (v : V)
  | delivered (v : V)
  deriving DecidableEq

variable {V : Type}

/-- A value is put at the end of a queue, or on the top of a stack. -/
def put (lifo : Bool) (q : List V) (v : V) : List V := if lifo then v :: q else q ++ [v]

/-- The log on a queue or a stack, as long as each value that is delivered is the
one that comes out next. -/
def replay [DecidableEq V] (lifo : Bool) : List V → List (Transfer V) → Option (List V)
  | q, [] => some q
  | q, .stored v :: log => replay lifo (put lifo q v) log
  | [], .delivered _ :: _ => none
  | next :: q, .delivered v :: log => if next = v then replay lifo q log else none

def storedIn : List (Transfer V) → List V
  | [] => []
  | .stored v :: log => v :: storedIn log
  | .delivered _ :: log => storedIn log

def deliveredIn : List (Transfer V) → List V
  | [] => []
  | .stored _ :: log => deliveredIn log
  | .delivered v :: log => v :: deliveredIn log

@[simp]
theorem put_length (lifo : Bool) (q : List V) (v : V) : (put lifo q v).length = q.length + 1 := by
  cases lifo <;> simp [put]

theorem foldl_put (lifo : Bool) (vs q : List V) :
    vs.foldl (put lifo) q = if lifo then vs.reverse ++ q else q ++ vs := by
  induction vs generalizing q with
  | nil => cases lifo <;> simp
  | cons v vs ih =>
      rw [List.foldl_cons, ih]
      cases lifo <;> simp [put]

section Replay
variable [DecidableEq V] {lifo : Bool}

theorem replay_append (log log' : List (Transfer V)) (q : List V) :
    replay lifo q (log ++ log') = (replay lifo q log).bind fun q' => replay lifo q' log' := by
  induction log generalizing q with
  | nil => rfl
  | cons transfer log ih =>
      cases transfer with
      | stored v => exact ih (put lifo q v)
      | delivered v =>
          cases q with
          | nil => rfl
          | cons next q =>
              simp only [List.cons_append, replay]
              split_ifs
              · exact ih q
              · rfl

theorem replay_stored (vs q : List V) :
    replay lifo q (vs.map .stored) = some (vs.foldl (put lifo) q) := by
  induction vs generalizing q with
  | nil => rfl
  | cons v vs ih => exact ih (put lifo q v)

theorem replay_delivered (vs q : List V) : replay lifo (vs ++ q) (vs.map .delivered) = some q := by
  induction vs with
  | nil => rfl
  | cons v vs ih => simpa [replay] using ih

theorem replay_length {log : List (Transfer V)} : ∀ {q q' : List V}, replay lifo q log = some q' →
    q.length + (storedIn log).length = (deliveredIn log).length + q'.length := by
  induction log with
  | nil =>
      intro q q' replayed
      obtain rfl : q = q' := Option.some.inj replayed
      simp [storedIn, deliveredIn]
  | cons transfer log ih =>
      intro q q' replayed
      cases transfer with
      | stored v =>
          have rest := ih (q := put lifo q v) replayed
          rw [put_length] at rest
          simp only [storedIn, deliveredIn, List.length_cons]
          omega
      | delivered v =>
          cases q with
          | nil => cases replayed
          | cons next q =>
              simp only [replay] at replayed
              split_ifs at replayed
              have rest := ih replayed
              simp only [storedIn, deliveredIn, List.length_cons]
              omega

/-- What went into a queue is what came out of it, followed by what is left. -/
theorem replay_queue {log : List (Transfer V)} : ∀ {q q' : List V}, replay false q log = some q' →
    q ++ storedIn log = deliveredIn log ++ q' := by
  induction log with
  | nil =>
      intro q q' replayed
      obtain rfl : q = q' := Option.some.inj replayed
      simp [storedIn, deliveredIn]
  | cons transfer log ih =>
      intro q q' replayed
      cases transfer with
      | stored v => simpa [put, storedIn, deliveredIn] using ih (q := put false q v) replayed
      | delivered v =>
          cases q with
          | nil => cases replayed
          | cons next q =>
              simp only [replay] at replayed
              split_ifs at replayed with same
              rw [deliveredIn, storedIn, same, List.cons_append, ih replayed, List.cons_append]

end Replay

end Ahir.Data
