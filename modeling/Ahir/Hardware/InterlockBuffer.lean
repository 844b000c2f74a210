import Ahir.Hardware.SplitOperatorShared

/-!
# Interlock buffers

`InterlockBuffer` puts the state machine of a receive buffer before an unload buffer, so
that there are pulses on both sides.  `UnsharedOperatorWithBuffering` is an operator with
an interlock buffer behind it; whether an operator is shared cannot be told from its results.
-/

set_option autoImplicit false

namespace Ahir.Hardware
open Ahir.Data Ahir.Run

namespace Buffer
variable {S V : Type}

structure Carries (B : Buffer S V) (capacity : Nat) (holds : S → Option V → List V → Prop) : Prop where
  reset : ∀ s r, holds (B.reset s r) none []
  bounded : ∀ s pending q, holds s pending q → q.length ≤ capacity
  step : ∀ s r pending q, holds s pending q → Awaits pending r →
    ∃ q', holds (B.next s r) (B.nextPending pending s r) q' ∧ q ++ requested r = B.pulsed s r ++ q'

end Buffer

open ReceiveBuffer in
theorem receiver_carries {S V : Type} {B : Buffer S V} {capacity : Nat} {holds : S → List V → Prop}
    (unloads : B.Unloads capacity holds) : (receiver B).Carries (capacity + 1) (Holds holds) := by
  refine ⟨?_, ?_, ?_⟩
  · intro s r
    exact ⟨by simp [receiver, Busy], [], unloads.reset _ _, rfl⟩
  · rintro s pending q ⟨-, words, held, rfl⟩
    have := unloads.bounded _ _ held
    have := Option.length_toList_le (o := pending)
    rw [List.length_append]
    omega
  · rintro s r pending q ⟨busy, words, held, rfl⟩ awaits
    obtain ⟨words', held', law⟩ := unloads.step s.queue (pipeRequest s r) words held
    exact ⟨_, ⟨busy.next awaits, words', held', rfl⟩, busy.step awaits law⟩

/-! ### Words that are converted on their way -/

namespace Converted
variable {S U V W : Type} (B : Buffer S V) (before : U → V) (after : V → W)

def request (r : Request U) : Request V := { dataIn := before r.dataIn, pushReq := r.pushReq, popReq := r.popReq }

/-- A run keeps the word that is pending, as it came in. -/
def turn (s : S × Option U) (r : Request U) : S × Option U :=
  (B.next s.1 (request before r),
    if (B.respond s.1 (request before r)).pushAck then none else if r.pushReq then some r.dataIn else s.2)

def Obeys (s : S × Option U) (r : Request U) : Prop := ∀ x ∈ s.2, r.pushReq = false ∧ r.dataIn = x

def delivered (s : S × Option U) (r : Request U) : List W := (B.pulsed s.1 (request before r)).map after

instance decidableObeys [DecidableEq U] (s : S × Option U) (r : Request U) : Decidable (Obeys s r) :=
  inferInstanceAs (Decidable (∀ x ∈ s.2, _))

variable {B}

theorem conserves {capacity : Nat} {holds : S → Option V → List V → Prop} (carries : B.Carries capacity holds) :
    Conserves (turn B before) Obeys (fun _ r => (Buffer.requested r).map fun x => after (before x))
      (delivered B before after)
      (fun s q => ∃ words, holds s.1 (s.2.map before) words ∧ q = words.map after) := by
  refine ⟨?_⟩
  rintro s r q ⟨words, held, rfl⟩ obeys
  have awaits : Buffer.Awaits (s.2.map before) (request before r) := by
    intro y waiting
    obtain ⟨x, pending, rfl⟩ := Option.map_eq_some_iff.mp waiting
    exact ⟨(obeys x pending).1, congrArg before (obeys x pending).2⟩
  obtain ⟨words', held', law⟩ := carries.step s.1 (request before r) (s.2.map before) words held awaits
  have pending : (turn B before s r).2.map before = B.nextPending (s.2.map before) s.1 (request before r) := by
    unfold turn Buffer.nextPending
    cases (B.respond s.1 (request before r)).pushAck <;> cases push : r.pushReq <;> simp [request, push]
  have requested : Buffer.requested (request before r) = (Buffer.requested r).map before := by
    unfold Buffer.requested
    cases push : r.pushReq <;> simp [request, push]
  refine ⟨words'.map after, ⟨words', pending ▸ held', rfl⟩, ?_⟩
  rw [delivered, ← List.map_append, ← law, List.map_append, requested, List.map_map]
  rfl

theorem run_law {capacity : Nat} {holds : S → Option V → List V → Prop} (carries : B.Carries capacity holds) (s : S)
    (r : Request V) {is : List (Request U)} (obeys : Allowed (turn B before) Obeys (B.reset s r, none) is) :
    ∃ coming : List W, coming.length ≤ capacity ∧ (is.flatMap Buffer.requested).map (fun x => after (before x)) =
      collect (turn B before) (delivered B before after) (B.reset s r, none) is ++ coming := by
  obtain ⟨_, ⟨words, held, rfl⟩, law⟩ := (conserves before after carries).run is (B.reset s r, none) []
    ⟨[], carries.reset s r, rfl⟩ obeys
  have inputs := collect_of_inputs (turn B before) (fun r => (Buffer.requested r).map fun x => after (before x))
    (B.reset s r, none) is
  rw [inputs, List.nil_append] at law
  refine ⟨words.map after, ?_, ?_⟩
  · rw [List.length_map]
    exact carries.bounded _ _ _ held
  · rw [List.map_flatMap]
    exact law

end Converted

/-! ### The buffer -/

structure InterlockGenerics where
  bufferSize : Nat
  positive : 0 < bufferSize := by decide
  flowThrough : Bool := false
  cutThrough : Bool := false
  inPhi : Bool := false
  bypassFlag : Bool := false

def throughWires {w : Nat} : Buffer Unit (BitVec w) where
  reset := fun s _ => s
  respond := fun _ r => { dataOut := r.dataIn, pushAck := r.pushReq, popAck := r.popReq }
  next := fun s _ => s

namespace InterlockBuffer
variable {inDataWidth outDataWidth : Nat}

def unloadGenerics (g : InterlockGenerics) : UnloadGenerics where
  bufferSize := g.bufferSize
  useUnloadRegister := !globalUseOptimizedUnloadBuffer && !g.cutThrough
  useSafeMode := g.inPhi
  bypassFlag := g.bypassFlag

/-- The process that loads the buffer is that of a receive buffer. -/
def buf (collide : BitVec (min inDataWidth outDataWidth)) (g : InterlockGenerics) :
    Clocked (BitVec (min inDataWidth outDataWidth)) :=
  if g.flowThrough then ⟨Unit, throughWires⟩
  else
    let buffer := unloadBuffer collide (unloadGenerics g)
    ⟨ReceiveState buffer.State, receiver buffer.buffer⟩

def bufWriteData (writeData : BitVec inDataWidth) : BitVec (min inDataWidth outDataWidth) := writeData.setWidth _

def readData (bufReadData : BitVec (min inDataWidth outDataWidth)) : BitVec outDataWidth :=
  bufReadData.setWidth outDataWidth

theorem buf_carries (collide : BitVec (min inDataWidth outDataWidth)) {g : InterlockGenerics}
    (buffered : g.flowThrough = false) : ∃ holds, (buf collide g).buffer.Carries (g.bufferSize + 3) holds := by
  obtain ⟨holds, unloads⟩ := unloadBuffer_unloads collide (g := unloadGenerics g) rfl
  rw [buf, if_neg (ne_true_of_eq_false buffered)]
  exact ⟨_, receiver_carries unloads⟩

/-- On the way through the narrower of the two widths nothing is lost that is read. -/
theorem readData_bufWriteData (x : BitVec inDataWidth) :
    readData (bufWriteData x : BitVec (min inDataWidth outDataWidth)) = x.setWidth outDataWidth := by
  refine BitVec.eq_of_getLsbD_eq fun i below => ?_
  simp only [readData, bufWriteData, BitVec.getLsbD_setWidth]
  by_cases inside : i < inDataWidth
  · simp [below, inside]
  · simp [BitVec.getLsbD_of_ge x i (Nat.le_of_not_lt inside)]

/-- The state after the reset, in which nothing is pending. -/
def first (collide : BitVec (min inDataWidth outDataWidth)) (g : InterlockGenerics) (s : (buf collide g).State)
    (r : Request (BitVec inDataWidth)) : (buf collide g).State × Option (BitVec inDataWidth) :=
  ((buf collide g).buffer.reset s (Converted.request bufWriteData r), none)

end InterlockBuffer

open InterlockBuffer Converted in
/-- From the reset on, in every run, the words that are read are those that were written, cut or filled up with
zeros to the width of the output, in that order; the last of them are still to come. -/
theorem interlockBuffer_carries {inDataWidth outDataWidth : Nat} (collide : BitVec (min inDataWidth outDataWidth))
    (g : InterlockGenerics) (buffered : g.flowThrough = false) (s : (buf collide g).State)
    (r : Request (BitVec inDataWidth)) (is : List (Request (BitVec inDataWidth)))
    (obeys : Allowed (turn (buf collide g).buffer bufWriteData) Obeys (first collide g s r) is) :
    ∃ coming : List (BitVec outDataWidth), coming.length ≤ g.bufferSize + 3 ∧
      (is.flatMap Buffer.requested).map (fun x => x.setWidth outDataWidth) =
        collect (turn (buf collide g).buffer bufWriteData) (delivered (buf collide g).buffer bufWriteData readData)
          (first collide g s r) is ++ coming := by
  obtain ⟨holds, carries⟩ := buf_carries collide buffered
  obtain ⟨coming, few, law⟩ := run_law bufWriteData readData carries s (request bufWriteData r) obeys
  refine ⟨coming, few, ?_⟩
  simp only [readData_bufWriteData] at law
  exact law

open InterlockBuffer Converted in
/-- A word is written, and read four bits wide: through a register, and with cut-through and bypass without one. -/
theorem interlockBuffer_carries_four :
    let g : InterlockGenerics := { bufferSize := 2 }
    let s : (buf (0 : BitVec (min 8 4)) g).State :=
      ⟨⟨(⟨fun _ => 0, 0, 0, .emptyState⟩ : RingState 4), (⟨.idle, false, 0⟩ : UnloadRegister 4)⟩, .idle⟩
    let g' : InterlockGenerics := { bufferSize := 1, cutThrough := true, bypassFlag := true }
    let s' : (buf (0 : BitVec (min 8 4)) g').State :=
      ⟨(⟨(⟨false, 0⟩ : SlotState 4), ⟨.idle, false⟩⟩ : UnloadBuffer.State UnloadBuffer.UnloadFsmRegs 4 1), .idle⟩
    let r : Request (BitVec 8) := ⟨0, false, false⟩
    let is : List (Request (BitVec 8)) := [⟨0xab, true, false⟩, ⟨0, false, true⟩, ⟨0, false, false⟩]
    let read := collect (turn (buf 0 g).buffer bufWriteData) (delivered (buf 0 g).buffer bufWriteData readData)
      (first 0 g s r) is
    let read' := collect (turn (buf 0 g').buffer bufWriteData) (delivered (buf 0 g').buffer bufWriteData readData)
      (first 0 g' s' r) is
    (read = [(0xb : BitVec 4)] ∧ read' = [(0xb : BitVec 4)]) ∧
      (∃ coming : List (BitVec 4), coming.length ≤ 5 ∧
        (is.flatMap Buffer.requested).map (fun x => x.setWidth 4) = read ++ coming) ∧
      ∃ coming : List (BitVec 4), coming.length ≤ 4 ∧
        (is.flatMap Buffer.requested).map (fun x => x.setWidth 4) = read' ++ coming := by
  intro g s g' s' r is read read'
  exact ⟨⟨by decide +kernel, by decide +kernel⟩, interlockBuffer_carries 0 g rfl s r is (by decide +kernel),
    interlockBuffer_carries 0 g' rfl s' r is (by decide +kernel)⟩

/-! ### Operators that are not shared -/

structure UnsharedGenerics where
  buffering : Nat
  positive : 0 < buffering := by decide
  flowThrough : Bool := false

namespace UnsharedOperatorWithBuffering
variable {iwidth owidth : Nat} (collide : BitVec (min owidth owidth)) (g : UnsharedGenerics)
  (operate : BitVec iwidth → BitVec owidth)

/-- `ilb`, which gets the result as it comes from the operator, or the wires in its place. -/
def ilb : Clocked (BitVec (min owidth owidth)) :=
  if g.flowThrough then ⟨Unit, throughWires⟩
  else InterlockBuffer.buf collide { bufferSize := g.buffering, positive := g.positive }

theorem ilb_carries {g : UnsharedGenerics} (buffered : g.flowThrough = false) :
    ∃ holds, (ilb collide g).buffer.Carries (g.buffering + 3) holds := by
  rw [ilb, if_neg (ne_true_of_eq_false buffered)]
  exact InterlockBuffer.buf_carries collide rfl

def writeData (dataL : BitVec iwidth) : BitVec (min owidth owidth) := InterlockBuffer.bufWriteData (operate dataL)

def turn : (ilb collide g).State × Option (BitVec iwidth) → Request (BitVec iwidth) →
    (ilb collide g).State × Option (BitVec iwidth) :=
  Converted.turn (ilb collide g).buffer (writeData operate)

def delivered : (ilb collide g).State × Option (BitVec iwidth) → Request (BitVec iwidth) → List (BitVec owidth) :=
  Converted.delivered (ilb collide g).buffer (writeData operate) InterlockBuffer.readData

def first (s : (ilb collide g).State) (r : Request (BitVec iwidth)) :
    (ilb collide g).State × Option (BitVec iwidth) :=
  ((ilb collide g).buffer.reset s (Converted.request (writeData operate) r), none)

variable {g} in
theorem run_law (buffered : g.flowThrough = false) (s : (ilb collide g).State) (r : Request (BitVec iwidth))
    {is : List (Request (BitVec iwidth))}
    (obeys : Allowed (turn collide g operate) Converted.Obeys (first collide g operate s r) is) :
    ∃ coming : List (BitVec owidth), coming.length ≤ g.buffering + 3 ∧ (is.flatMap Buffer.requested).map operate =
      collect (turn collide g operate) (delivered collide g operate) (first collide g operate s r) is ++ coming := by
  obtain ⟨holds, carries⟩ := ilb_carries collide buffered
  obtain ⟨coming, few, law⟩ := Converted.run_law (writeData operate) InterlockBuffer.readData carries s
    (Converted.request (writeData operate) r) obeys
  refine ⟨coming, few, ?_⟩
  have same : (fun x => InterlockBuffer.readData (writeData operate x)) = operate := by
    funext x
    rw [writeData, InterlockBuffer.readData_bufWriteData, BitVec.setWidth_eq]
  rw [same] at law
  exact law

end UnsharedOperatorWithBuffering

/-! ### Sharing -/

section Sharing
variable {n iwidth owidth : Nat} (g : SharedGenerics n) (u : UnsharedGenerics)
  (operate : BitVec iwidth → BitVec owidth)

/-- A requester that gives the same operands to a shared operator and to one of its own cannot tell them apart
by the results: those that the one has delivered are the first of those that the other has, and what the one
is behind is not more than it can hold. -/
theorem sharing_preserves_results (collideIn : BitVec iwidth) (collideOut : BitVec owidth)
    (collide : BitVec (min owidth owidth)) (s : SharedState (g.rxBuf collideIn) (g.ub collideOut))
    (i : SharedRequests n iwidth) (is : List (SharedRequests n iwidth))
    (shared : Allowed (SplitOperatorShared.turn g.noArbitration operate) (SplitOperatorShared.Obeys g.noArbitration)
      (g.first collideIn collideOut operate s i) is)
    (buffered : u.flowThrough = false) (t : (UnsharedOperatorWithBuffering.ilb collide u).State) (r : Request (BitVec iwidth))
    (js : List (Request (BitVec iwidth)))
    (unshared : Allowed (UnsharedOperatorWithBuffering.turn collide u operate) Converted.Obeys
      (UnsharedOperatorWithBuffering.first collide u operate t r) js)
    (R : Fin n) (same : is.flatMap (SplitOperatorShared.requested R) = js.flatMap Buffer.requested) :
    let ours := collect (SplitOperatorShared.turn g.noArbitration operate)
      (fun s i => SplitOperatorShared.delivered g.noArbitration operate R s.1 i)
      (g.first collideIn collideOut operate s i) is
    let theirs := collect (UnsharedOperatorWithBuffering.turn collide u operate)
      (UnsharedOperatorWithBuffering.delivered collide u operate)
      (UnsharedOperatorWithBuffering.first collide u operate t r) js
    (ours <+: theirs ∧
        theirs.length ≤ ours.length + (g.detailedBufferingPerInput R + g.detailedBufferingPerOutput R + 4)) ∨
      (theirs <+: ours ∧ ours.length ≤ theirs.length + (u.buffering + 3)) := by
  intro ours theirs
  obtain ⟨⟨operands, results, input, output, law⟩, -⟩ := g.run_law collideIn collideOut operate s i shared R
  obtain ⟨coming, few, law'⟩ := UnsharedOperatorWithBuffering.run_law collide operate buffered t r unshared
  rw [same, law'] at law
  have total : theirs.length + coming.length = ours.length + (results.length + operands.length) := by
    have lengths := congrArg List.length law
    rwa [List.length_append, List.length_append, List.length_append, List.length_map] at lengths
  have before : ours <+: theirs ++ coming := ⟨_, law.symm⟩
  rcases List.prefix_or_prefix_of_prefix before (List.prefix_append theirs coming) with first | first
  · refine Or.inl ⟨first, ?_⟩
    omega
  · refine Or.inr ⟨first, ?_⟩
    omega

/-- The first of two requesters, and the same operand given alone. -/
theorem sharing_preserves_results_two :
    let g : SharedGenerics 2 := { detailedBufferingPerInput := fun _ => 1, detailedBufferingPerOutput := fun _ => 1 }
    let u : UnsharedGenerics := { buffering := 1 }
    let increment : BitVec 8 → BitVec 8 := fun x => x + 1
    let s : SharedState (g.rxBuf (0 : BitVec 8)) (g.ub (0 : BitVec 8)) :=
      { imux := { rxBuf := fun _ => ⟨(⟨false, 0⟩ : SlotState 8), .idle⟩, reqInRegister := fun _ => false }
        odemux := fun _ => ⟨(), (⟨.idle, false, 0⟩ : UnloadRegister 8)⟩ }
    let t : (UnsharedOperatorWithBuffering.ilb (0 : BitVec (min 8 8)) u).State :=
      ⟨⟨(), (⟨.idle, false, 0⟩ : UnloadRegister 8)⟩, .idle⟩
    let both : SharedRequests 2 8 := ⟨fun _ => true, fun I => if I = 0 then 10 else 20, fun _ => true⟩
    let none : SharedRequests 2 8 := ⟨fun _ => false, fun _ => 0, fun _ => false⟩
    let is := [both, none, none, none]
    let js : List (Request (BitVec 8)) := [⟨10, true, true⟩, ⟨10, false, false⟩]
    let ours := collect (SplitOperatorShared.turn false increment)
      (fun s i => SplitOperatorShared.delivered false increment 0 s.1 i) (g.first 0 0 increment s both) is
    let theirs := collect (UnsharedOperatorWithBuffering.turn 0 u increment)
      (UnsharedOperatorWithBuffering.delivered 0 u increment)
      (UnsharedOperatorWithBuffering.first 0 u increment t ⟨0, false, false⟩) js
    theirs = [11] ∧ ((ours <+: theirs ∧ theirs.length ≤ ours.length + 6) ∨
      (theirs <+: ours ∧ ours.length ≤ theirs.length + 4)) := by
  intro g u increment s t both none is js ours theirs
  exact ⟨by decide +kernel, sharing_preserves_results g u increment 0 0 0 s both is (by decide +kernel) rfl t
    ⟨0, false, false⟩ js (by decide +kernel) 0 (by decide +kernel)⟩

end Sharing

end Ahir.Hardware
