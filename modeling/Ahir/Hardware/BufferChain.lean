import Ahir.Hardware.Buffer

/-!
# Buffers in a row

A buffer whose outputs depend on its state only can hand its values on to another
buffer.  The two of them are a queue when each is, and what is in them comes out when it
is taken for long enough.
-/

set_option autoImplicit false

namespace Ahir.Hardware.Buffer
variable {S T V : Type}

def Registered (B : Buffer S V) : Prop := ∀ s r r', B.respond s r = B.respond s r'

def Forward (B : Buffer S V) : Prop := ∀ s r popReq, B.respond s ⟨r.dataIn, r.pushReq, popReq⟩ = B.respond s r

theorem Registered.forward {B : Buffer S V} (registered : B.Registered) : B.Forward :=
  fun s r popReq => registered s ⟨r.dataIn, r.pushReq, popReq⟩ r

section Chain
variable (B : Buffer S V) (C : Buffer T V)

def second (s : S) (r : Request V) : Request V := ⟨(B.respond s r).dataOut, (B.respond s r).popAck, r.popReq⟩

def first (s : S × T) (r : Request V) : Request V :=
  ⟨r.dataIn, r.pushReq, (C.respond s.2 (B.second s.1 r)).pushAck⟩

def chain : Buffer (S × T) V where
  reset := fun s r => (B.reset s.1 (B.first C s r), C.reset s.2 (B.second s.1 r))
  respond := fun s r =>
    { dataOut := (C.respond s.2 (B.second s.1 r)).dataOut
      pushAck := (B.respond s.1 r).pushAck
      popAck := (C.respond s.2 (B.second s.1 r)).popAck }
  next := fun s r => (B.next s.1 (B.first C s r), C.next s.2 (B.second s.1 r))

variable {B C}

theorem Forward.chain_pushed (forward : B.Forward) (s : S × T) (r : Request V) :
    (B.chain C).pushed s r = B.pushed s.1 (B.first C s r) := by
  have same : B.respond s.1 (B.first C s r) = B.respond s.1 r := forward s.1 r _
  unfold pushed
  rw [same]
  rfl

theorem Forward.second_pushed (forward : B.Forward) (s : S × T) (r : Request V) :
    C.pushed s.2 (B.second s.1 r) = B.popped s.1 (B.first C s r) := by
  have same : B.respond s.1 (B.first C s r) = B.respond s.1 r := forward s.1 r _
  unfold pushed popped
  rw [same, Bool.and_comm]
  rfl

theorem Forward.chain_fifo (forward : B.Forward) {m n : Nat} {holdsB : S → List V → Prop} {holdsC : T → List V → Prop}
    (fifoB : B.Fifo m holdsB) (fifoC : C.Fifo n holdsC) :
    (B.chain C).Fifo (m + n) fun s q => ∃ p p', holdsB s.1 p ∧ holdsC s.2 p' ∧ q = p' ++ p := by
  refine ⟨fun s r => ⟨[], [], fifoB.reset _ _, fifoC.reset _ _, rfl⟩, ?_, ?_⟩
  · rintro s q ⟨p, p', heldB, heldC, rfl⟩
    rw [List.length_append, Nat.add_comm]
    exact Nat.add_le_add (fifoB.bounded _ _ heldB) (fifoC.bounded _ _ heldC)
  · rintro s r q ⟨p, p', heldB, heldC, rfl⟩
    obtain ⟨p₁, nextB, lawB⟩ := fifoB.step s.1 (B.first C s r) p heldB
    obtain ⟨p₁', nextC, lawC⟩ := fifoC.step s.2 (B.second s.1 r) p' heldC
    refine ⟨p₁' ++ p₁, ⟨p₁, p₁', nextB, nextC, rfl⟩, ?_⟩
    calc p' ++ p ++ ((B.chain C).pushed s r).toList
        = p' ++ ((B.popped s.1 (B.first C s r)).toList ++ p₁) := by
          rw [forward.chain_pushed, List.append_assoc, lawB]
      _ = (p' ++ (C.pushed s.2 (B.second s.1 r)).toList) ++ p₁ := by
          rw [forward.second_pushed, List.append_assoc]
      _ = (C.popped s.2 (B.second s.1 r)).toList ++ (p₁' ++ p₁) := by rw [lawC, List.append_assoc]
      _ = ((B.chain C).popped s r).toList ++ (p₁' ++ p₁) := rfl

theorem chain_pushed (registered : B.Registered) (s : S × T) (r : Request V) :
    (B.chain C).pushed s r = B.pushed s.1 (B.first C s r) :=
  registered.forward.chain_pushed s r

theorem second_pushed (registered : B.Registered) (s : S × T) (r : Request V) :
    C.pushed s.2 (B.second s.1 r) = B.popped s.1 (B.first C s r) :=
  registered.forward.second_pushed s r

theorem chain_fifo (registered : B.Registered) {m n : Nat} {holdsB : S → List V → Prop} {holdsC : T → List V → Prop}
    (fifoB : B.Fifo m holdsB) (fifoC : C.Fifo n holdsC) :
    (B.chain C).Fifo (m + n) fun s q => ∃ p p', holdsB s.1 p ∧ holdsC s.2 p' ∧ q = p' ++ p :=
  registered.forward.chain_fifo fifoB fifoC

end Chain

section Bypass

/-- Whether a value is offered: one that is there, or one that comes in and passes
by.  An empty buffer has room. -/
structure Offers (B : Buffer S V) (holds : S → List V → Prop) : Prop where
  popAck : ∀ s r q, holds s q → ((B.respond s r).popAck = true ↔ q ≠ [] ∨ r.pushReq = true)
  room : ∀ s r, holds s [] → (B.respond s r).pushAck = true

variable {B : Buffer S V} {C : Buffer T V} {holdsB : S → List V → Prop} {holdsC : T → List V → Prop}

theorem chain_offers (offersB : B.Offers holdsB) (offersC : C.Offers holdsC) :
    (B.chain C).Offers fun s q => ∃ p p', holdsB s.1 p ∧ holdsC s.2 p' ∧ q = p' ++ p := by
  refine ⟨?_, ?_⟩
  · rintro s r q ⟨p, p', heldB, heldC, rfl⟩
    apply (offersC.popAck s.2 (B.second s.1 r) p' heldC).trans
    have first := offersB.popAck s.1 r p heldB
    rw [second, first, ← or_assoc, ne_eq, ne_eq, ne_eq, List.append_eq_nil_iff, not_and_or]
  · rintro s r ⟨p, p', heldB, heldC, empty⟩
    obtain ⟨rfl, rfl⟩ := List.append_eq_nil_iff.mp empty.symm
    exact offersB.room s.1 r heldB

/-- The states of a row of buffers of the same kind, one more than the number. -/
def Row (S : Type) : Nat → Type
  | 0 => S
  | n + 1 => S × Row S n

/-- The first of the row takes in what comes. -/
def row (B : Buffer S V) : (n : Nat) → Buffer (Row S n) V
  | 0 => B
  | n + 1 => B.chain (row B n)

def RowHolds (holds : S → List V → Prop) : (n : Nat) → Row S n → List V → Prop
  | 0, s, q => holds s q
  | n + 1, s, q => ∃ p p', holds s.1 p ∧ RowHolds holds n s.2 p' ∧ q = p' ++ p

theorem row_fifo (forward : B.Forward) {m : Nat} (fifo : B.Fifo m holdsB) :
    ∀ n, (B.row n).Fifo ((n + 1) * m) (RowHolds holdsB n) := by
  intro n
  induction n with
  | zero =>
      rw [Nat.zero_add, Nat.one_mul]
      exact fifo
  | succ n ih =>
      have law := forward.chain_fifo fifo ih
      rw [Nat.add_comm m, ← Nat.succ_mul] at law
      exact law

theorem row_offers (offers : B.Offers holdsB) : ∀ n, (B.row n).Offers (RowHolds holdsB n)
  | 0 => offers
  | n + 1 => chain_offers offers (row_offers offers n)

end Bypass

section Drains

/-- While values are taken from it, the work left to do in a buffer sinks; a value that
comes in brings `cost` with it. -/
structure Drains (B : Buffer S V) (holds : S → List V → Prop) (work : S → Nat) (cost : Nat) : Prop where
  room : ∀ s r, holds s [] → r.popReq = true → (B.respond s r).pushAck = true
  keeps : ∀ s r q, holds s q → r.popReq = true → work (B.next s r) ≤ work s + cost * (B.pushed s r).toList.length
  sinks : ∀ s r q, holds s q → r.popReq = true → q ≠ [] →
    work (B.next s r) < work s + cost * (B.pushed s r).toList.length

variable {B : Buffer S V} {C : Buffer T V} {holds : S → List V → Prop} {holdsC : T → List V → Prop}
  {depth cost : Nat} {work : S → Nat} {workC : T → Nat}

theorem pushes_of_no_request : ∀ (rs : List (Request V)) (s : S), (∀ r ∈ rs, r.pushReq = false) → B.pushes s rs = [] := by
  intro rs
  induction rs with
  | nil => intro _ _; rfl
  | cons r rs ih =>
      intro s none
      have nothing : B.pushed s r = Option.none := by
        rw [pushed, none r List.mem_cons_self, Bool.false_and, if_neg Bool.false_ne_true]
      rw [pushes, nothing, ih _ fun r' mem => none r' (List.mem_cons_of_mem _ mem)]
      rfl

theorem Drains.pops (fifo : B.Fifo depth holds) (drains : B.Drains holds work cost) :
    ∀ (rs : List (Request V)) (s : S) (q : List V), holds s q →
      (∀ r ∈ rs, r.pushReq = false ∧ r.popReq = true) → work s ≤ rs.length → B.pops s rs = q := by
  intro rs
  induction rs with
  | nil =>
      intro s q held _ done
      cases q with
      | nil => rfl
      | cons v q =>
          have sinks := drains.sinks s ⟨v, false, true⟩ (v :: q) held rfl (List.cons_ne_nil _ _)
          have nothing : B.pushed s ⟨v, false, true⟩ = none := rfl
          rw [nothing, Option.toList_none, List.length_nil, Nat.mul_zero, Nat.add_zero] at sinks
          exact absurd (sinks.trans_le done) (Nat.not_lt_zero _)
  | cons r rs ih =>
      intro s q held idle enough
      have noPush : ∀ r' ∈ r :: rs, r'.pushReq = false := fun r' mem => (idle r' mem).1
      by_cases nothing : q = []
      · obtain ⟨_, _, law⟩ := fifo.run (r :: rs) s q held
        rw [pushes_of_no_request _ _ noPush, nothing, List.append_nil] at law
        rw [nothing]
        exact (List.append_eq_nil_iff.mp law.symm).1
      · obtain ⟨q', held', law⟩ := fifo.step s r q held
        have sinks := drains.sinks s r q held (idle r List.mem_cons_self).2 nothing
        have noPushed : B.pushed s r = none := by
          rw [pushed, noPush r List.mem_cons_self, Bool.false_and, if_neg Bool.false_ne_true]
        rw [noPushed, Option.toList_none, List.length_nil, Nat.mul_zero, Nat.add_zero] at sinks
        rw [noPushed, Option.toList_none, List.append_nil] at law
        rw [List.length_cons] at enough
        rw [Buffer.pops, ih _ q' held' (fun r' mem => idle r' (List.mem_cons_of_mem _ mem)) (by omega), law]

theorem chain_drains (registered : B.Registered) (fifo : B.Fifo depth holds) (drains : C.Drains holdsC workC cost)
    {count : S → Nat} (counts : ∀ s q, holds s q → count s = q.length)
    (room : ∀ s r, holds s [] → (B.respond s r).pushAck = true)
    (offers : ∀ s r q, holds s q → q ≠ [] → (B.respond s r).popAck = true) :
    (B.chain C).Drains (fun s q => ∃ p p', holds s.1 p ∧ holdsC s.2 p' ∧ q = p' ++ p)
      (fun s => (cost + 1) * count s.1 + workC s.2) (cost + 1) := by
  -- what the first buffer passes on brings less to the second one than it takes away
  have counted (s : S × T) (r : Request V) (p : List V) (held : holds s.1 p) :
      count (B.next s.1 (B.first C s r)) + (C.pushed s.2 (B.second s.1 r)).toList.length =
        count s.1 + ((B.chain C).pushed s r).toList.length := by
    obtain ⟨p', held', law⟩ := fifo.step s.1 (B.first C s r) p held
    have length := congrArg List.length law
    rw [List.length_append, List.length_append] at length
    rw [counts _ _ held', counts _ _ held, chain_pushed registered, second_pushed registered]
    omega
  have scaled (s : S × T) (r : Request V) (p : List V) (held : holds s.1 p) :
      (cost + 1) * count (B.next s.1 (B.first C s r)) + cost * (C.pushed s.2 (B.second s.1 r)).toList.length +
          (C.pushed s.2 (B.second s.1 r)).toList.length =
        (cost + 1) * count s.1 + (cost + 1) * ((B.chain C).pushed s r).toList.length := by
    rw [← Nat.mul_add, ← counted s r p held]
    ring
  refine ⟨?_, ?_, ?_⟩
  · rintro s r ⟨p, p', heldB, _, empty⟩ _
    obtain ⟨rfl, rfl⟩ := List.append_eq_nil_iff.mp empty.symm
    exact room s.1 r heldB
  · rintro s r q ⟨p, p', heldB, heldC, rfl⟩ pop
    have keeps := drains.keeps s.2 (B.second s.1 r) p' heldC pop
    have sum := scaled s r p heldB
    change (cost + 1) * count (B.next s.1 (B.first C s r)) + workC (C.next s.2 (B.second s.1 r)) ≤ _
    omega
  · rintro s r q ⟨p, p', heldB, heldC, rfl⟩ pop occupied
    have sum := scaled s r p heldB
    change (cost + 1) * count (B.next s.1 (B.first C s r)) + workC (C.next s.2 (B.second s.1 r)) < _
    by_cases behind : p' = []
    · have ahead : p ≠ [] := by
        rintro rfl
        exact occupied (by rw [behind, List.append_nil])
      have passes : C.pushed s.2 (B.second s.1 r) = some (B.respond s.1 r).dataOut := by
        have accepts := drains.room s.2 (B.second s.1 r) (behind ▸ heldC) pop
        rw [pushed, accepts, Bool.and_true]
        exact if_pos (offers s.1 r p heldB ahead)
      have keeps := drains.keeps s.2 (B.second s.1 r) p' heldC pop
      rw [passes, Option.toList_some, List.length_singleton] at keeps sum
      omega
    · have sinks := drains.sinks s.2 (B.second s.1 r) p' heldC pop behind
      omega

end Drains

end Ahir.Hardware.Buffer
