import Mathlib.Data.List.Basic
import Mathlib.Order.Basic

/-!
# Queues merged by time

Requests of several kinds go into one queue a kind, and the least head is taken.  When no
request comes after a later one, and the least of those present enters a queue, what is
taken is in the order of time.
-/

set_option autoImplicit false

namespace Ahir.Run
variable {Kind Time : Type} [Preorder Time]

/-- The queues, what has been taken, the requests that have come but are in no queue yet, and
all that have come. -/
structure TimeMerge (Kind Time : Type) where
  queue : Kind → List Time
  taken : List Time
  waits : Kind → Time → Prop
  seen : Time → Prop

namespace TimeMerge

structure Ordered (m : TimeMerge Kind Time) : Prop where
  taken : m.taken.Pairwise (· ≤ ·)
  queue : ∀ k, (m.queue k).Pairwise (· ≤ ·)
  takenSeen : ∀ t ∈ m.taken, m.seen t
  queueSeen : ∀ k, ∀ t ∈ m.queue k, m.seen t
  takenQueue : ∀ x ∈ m.taken, ∀ k, ∀ t ∈ m.queue k, x ≤ t
  takenWaits : ∀ x ∈ m.taken, ∀ k t, m.waits k t → x ≤ t
  queueWaits : ∀ k, ∀ x ∈ m.queue k, ∀ t, m.waits k t → x ≤ t
  occupied : ∀ k t, m.waits k t → m.queue k ≠ []

/-- A cycle in which these requests are present, `push` go into the queues and `next` are
taken out of them. -/
structure Step (m m' : TimeMerge Kind Time) (present : Kind → Time → Prop) (push : Kind → List Time)
    (next : List Time) : Prop where
  /-- What has not been there before is no earlier than all that has. -/
  arrives : ∀ k t, present k t → m.waits k t ∨ ∀ x, m.seen x → x ≤ t
  pushes : ∀ k, (push k).Pairwise (· ≤ ·) ∧ ∀ t ∈ push k, present k t ∧ ∀ u, present k u → t ≤ u
  takes : next.Pairwise (· ≤ ·) ∧ ∀ t ∈ next, (∃ k, t ∈ m.queue k) ∧ ∀ k u, (m.queue k).head? = some u → t ≤ u
  queue : ∀ k, m'.queue k <:+ m.queue k ++ push k
  taken : m'.taken = m.taken ++ next
  seen : ∀ t, m.seen t ∨ (∃ k, present k t) → m'.seen t
  waits : ∀ k t, m'.waits k t → present k t
  occupied : ∀ k t, m'.waits k t → m'.queue k ≠ []

section Step
variable {m m' : TimeMerge Kind Time} {present : Kind → Time → Prop} {push : Kind → List Time} {next : List Time}

theorem Ordered.head_le (ordered : m.Ordered) {k : Kind} {u t : Time} (head : (m.queue k).head? = some u)
    (member : t ∈ m.queue k) : u ≤ t := by
  have sorted := ordered.queue k
  cases found : m.queue k with
  | nil =>
      rw [found] at member
      exact absurd member List.not_mem_nil
  | cons first rest =>
      rw [found] at head member sorted
      obtain rfl : first = u := Option.some.inj head
      rcases List.mem_cons.mp member with rfl | later
      · exact le_refl _
      · exact (List.pairwise_cons.mp sorted).1 t later

theorem Ordered.taken_le_present (ordered : m.Ordered) (step : m.Step m' present push next) {x t : Time} {k : Kind}
    (member : x ∈ m.taken) (isPresent : present k t) : x ≤ t := by
  rcases step.arrives k t isPresent with waits | later
  · exact ordered.takenWaits x member k t waits
  · exact later x (ordered.takenSeen x member)

theorem Ordered.queue_le_present (ordered : m.Ordered) (step : m.Step m' present push next) {x t : Time} {k : Kind}
    (member : x ∈ m.queue k) (isPresent : present k t) : x ≤ t := by
  rcases step.arrives k t isPresent with waits | later
  · exact ordered.queueWaits k x member t waits
  · exact later x (ordered.queueSeen k x member)

theorem Ordered.next_le_queue (ordered : m.Ordered) (step : m.Step m' present push next) {x t : Time} {k : Kind}
    (member : x ∈ next) (queued : t ∈ m.queue k) : x ≤ t := by
  obtain ⟨head, isHead⟩ := Option.isSome_iff_exists.mp (List.isSome_head?.mpr (List.ne_nil_of_mem queued))
  exact le_trans ((step.takes.2 x member).2 k head isHead) (ordered.head_le isHead queued)

/-- A request of another kind that is present has been there before, and then its queue has a
head, or it is late. -/
theorem Ordered.next_le_present (ordered : m.Ordered) (step : m.Step m' present push next) {x t : Time} {k : Kind}
    (member : x ∈ next) (isPresent : present k t) : x ≤ t := by
  rcases step.arrives k t isPresent with waits | later
  · obtain ⟨head, isHead⟩ := List.exists_mem_of_ne_nil _ (ordered.occupied k t waits)
    exact le_trans (ordered.next_le_queue step member isHead) (ordered.queueWaits k head isHead t waits)
  · obtain ⟨⟨j, queued⟩, -⟩ := step.takes.2 x member
    exact later x (ordered.queueSeen j x queued)

theorem Ordered.step (ordered : m.Ordered) (step : m.Step m' present push next) : m'.Ordered := by
  have queued : ∀ {k t}, t ∈ m'.queue k → t ∈ m.queue k ∨ t ∈ push k := fun member =>
    List.mem_append.mp ((step.queue _).subset member)
  have isPresent : ∀ {k t}, t ∈ push k → present k t := fun member => ((step.pushes _).2 _ member).1
  constructor
  · rw [step.taken, List.pairwise_append]
    refine ⟨ordered.taken, step.takes.1, fun x member t later => ?_⟩
    obtain ⟨⟨k, queued⟩, -⟩ := step.takes.2 t later
    exact ordered.takenQueue x member k t queued
  · intro k
    refine List.Pairwise.sublist (step.queue k).sublist (List.pairwise_append.mpr ⟨ordered.queue k, (step.pushes k).1, ?_⟩)
    exact fun x member t new => ordered.queue_le_present step member (isPresent new)
  · intro t member
    rw [step.taken] at member
    rcases List.mem_append.mp member with before | new
    · exact step.seen t (Or.inl (ordered.takenSeen t before))
    · obtain ⟨⟨k, queued⟩, -⟩ := step.takes.2 t new
      exact step.seen t (Or.inl (ordered.queueSeen k t queued))
  · intro k t member
    rcases queued member with before | new
    · exact step.seen t (Or.inl (ordered.queueSeen k t before))
    · exact step.seen t (Or.inr ⟨k, isPresent new⟩)
  · intro x member k t member'
    rw [step.taken] at member
    rcases List.mem_append.mp member with before | new <;> rcases queued member' with there | pushed
    · exact ordered.takenQueue x before k t there
    · exact ordered.taken_le_present step before (isPresent pushed)
    · exact ordered.next_le_queue step new there
    · exact ordered.next_le_present step new (isPresent pushed)
  · intro x member k t waits
    rw [step.taken] at member
    rcases List.mem_append.mp member with before | new
    · exact ordered.taken_le_present step before (step.waits k t waits)
    · exact ordered.next_le_present step new (step.waits k t waits)
  · intro k x member t waits
    rcases queued member with before | new
    · exact ordered.queue_le_present step before (step.waits k t waits)
    · exact ((step.pushes k).2 x new).2 t (step.waits k t waits)
  · exact step.occupied

end Step

end TimeMerge

end Ahir.Run
