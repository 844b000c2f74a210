import Ahir.Hardware.IoPorts

/-!
# From operators to operators through a pipe

The modules that write to a pipe have output ports at it, and those that read from it
have input ports, each for several operators.  Every word that an operator gives is handed
over to one operator, once; the words pass the pipe in the order in which they left the ports.
-/

set_option autoImplicit false

namespace Ahir.Hardware
open Ahir.Data Ahir.Run
variable {numWrites numReads w : Nat}

structure ChannelGenerics (numWrites numReads : Nat) where
  pipe : PipeGenerics
  writers : Fin numWrites → Nat
  readers : Fin numReads → Nat
  inputBuffering : (P : Fin numWrites) → Fin (writers P) → Nat
  fullRate : Fin numWrites → Bool := fun _ => false
  writersNoArbitration : Fin numWrites → Bool := fun _ => false
  readersNoArbitration : Fin numReads → Bool := fun _ => false

namespace ChannelGenerics

def rxB (g : ChannelGenerics numWrites numReads) (collide : BitVec w) (P : Fin numWrites) (A : Fin (g.writers P)) :
    Clocked (BitVec w) := receiveBuffer collide (g.inputBuffering P A) (g.fullRate P)

def ulReg (g : ChannelGenerics numWrites numReads) (Q : Fin numReads) : ClockedControl w :=
  InputPortRevised.ulReg (g.readers Q) false

end ChannelGenerics

structure ChannelState (g : ChannelGenerics numWrites numReads) (collide : BitVec w) where
  outputPorts : (P : Fin numWrites) → InputMuxState (g.rxB collide P)
  pipe : PipeState (pipeQueue collide g.pipe).State numWrites
  inputPorts : (Q : Fin numReads) → Fin (g.readers Q) → (g.ulReg Q : ClockedControl w).Registers

structure ChannelRequests (g : ChannelGenerics numWrites numReads) (w : Nat) where
  sample : (P : Fin numWrites) → InputMuxRequests (g.writers P) w
  updateReq : (Q : Fin numReads) → Fin (g.readers Q) → Bool

namespace PipeChannel
variable {g : ChannelGenerics numWrites numReads} {collide : BitVec w} (s : ChannelState g collide)
  (i : ChannelRequests g w)

def pipeInputs : PipeInputs numReads numWrites w where
  readReq := fun Q => InputPortRevised.oreq (g.readersNoArbitration Q) (s.inputPorts Q) (i.updateReq Q)
  writeReq := fun P => OutputPortRevised.oreq (g.writersNoArbitration P) (s.outputPorts P) (i.sample P)
  writeData := fun P => OutputPortRevised.odata (g.writersNoArbitration P) (s.outputPorts P) (i.sample P)

def writeAck (P : Fin numWrites) : Bool := PipeBase.writeAck (pipeQueue collide g.pipe).buffer s.pipe (pipeInputs s i) P

def readAck (Q : Fin numReads) : Bool := PipeBase.readAck (pipeQueue collide g.pipe).buffer s.pipe (pipeInputs s i) Q

def readData (Q : Fin numReads) : BitVec w :=
  PipeBase.readData (pipeQueue collide g.pipe).buffer s.pipe (pipeInputs s i) Q

def next : ChannelState g collide where
  outputPorts := fun P =>
    OutputPortRevised.next (g.writersNoArbitration P) (s.outputPorts P) (i.sample P) (writeAck s i P)
  pipe := PipeBase.next (pipeQueue collide g.pipe).buffer s.pipe (pipeInputs s i)
  inputPorts := fun Q =>
    InputPortRevised.next (g.readersNoArbitration Q) (s.inputPorts Q) (i.updateReq Q) (readAck s i Q) (readData s i Q)

def reset : ChannelState g collide where
  outputPorts := fun P =>
    OutputPortRevised.reset (g.writersNoArbitration P) (s.outputPorts P) (i.sample P) (writeAck s i P)
  pipe := PipeBase.reset (pipeQueue collide g.pipe).buffer s.pipe (pipeInputs s i)
  inputPorts := fun _ => InputPortRevised.reset

def sampleAck (P : Fin numWrites) : Fin (g.writers P) → Bool :=
  OutputPortRevised.sampleAck (g.writersNoArbitration P) (s.outputPorts P) (i.sample P) (writeAck s i P)

/-! ### Runs -/

def Pending (g : ChannelGenerics numWrites numReads) (w : Nat) : Type :=
  (P : Fin numWrites) → Fin (g.writers P) → Option (BitVec w)

def turn (s : ChannelState g collide × Pending g w) (i : ChannelRequests g w) : ChannelState g collide × Pending g w :=
  (next s.1 i, fun P A =>
    if sampleAck s.1 i P A then none
    else if (i.sample P).reqL A then some ((i.sample P).dataL A) else s.2 P A)

/-- A writer gives no pulse, and keeps its word, until it is acknowledged; and at a port without arbitration
no two operators write, or read, at once. -/
structure Obeys (s : ChannelState g collide × Pending g w) (i : ChannelRequests g w) : Prop where
  waits : ∀ P A, ∀ x ∈ s.2 P A, (i.sample P).reqL A = false ∧ (i.sample P).dataL A = x
  aloneWriting : ∀ P, g.writersNoArbitration P = true → ∀ A B,
    InputMuxWithBuffering.reqFromRx (s.1.outputPorts P) (i.sample P) A = true →
    InputMuxWithBuffering.reqFromRx (s.1.outputPorts P) (i.sample P) B = true → A = B
  aloneReading : ∀ Q, g.readersNoArbitration Q = true → ∀ A B,
    InputPortRevised.hasRoom (s.1.inputPorts Q) (i.updateReq Q) A = true →
    InputPortRevised.hasRoom (s.1.inputPorts Q) (i.updateReq Q) B = true → A = B

instance decidableObeys (s : ChannelState g collide × Pending g w) (i : ChannelRequests g w) : Decidable (Obeys s i) :=
  decidable_of_iff ((∀ P A, ∀ x ∈ s.2 P A, (i.sample P).reqL A = false ∧ (i.sample P).dataL A = x) ∧
    (∀ P, g.writersNoArbitration P = true → ∀ A B,
      InputMuxWithBuffering.reqFromRx (s.1.outputPorts P) (i.sample P) A = true →
      InputMuxWithBuffering.reqFromRx (s.1.outputPorts P) (i.sample P) B = true → A = B) ∧
    ∀ Q, g.readersNoArbitration Q = true → ∀ A B,
      InputPortRevised.hasRoom (s.1.inputPorts Q) (i.updateReq Q) A = true →
      InputPortRevised.hasRoom (s.1.inputPorts Q) (i.updateReq Q) B = true → A = B)
    ⟨fun all => ⟨all.1, all.2.1, all.2.2⟩, fun obeys => ⟨obeys.waits, obeys.aloneWriting, obeys.aloneReading⟩⟩

def tagged {α : Type} {k : Nat} {m : Fin k → Nat} (f : (P : Fin k) → Fin (m P) → List α) :
    List ((Σ P : Fin k, Fin (m P)) × α) :=
  (List.finRange k).flatMap fun P => (List.finRange (m P)).flatMap fun A => (f P A).map fun x => (⟨P, A⟩, x)

/-- The words of `a` in a list with the words of all. -/
def wordsOf {α K : Type} [DecidableEq K] (a : K) (l : List (K × α)) : List α :=
  (l.filter fun x => decide (x.1 = a)).map Prod.snd

/-- The words for which the operator gives a pulse. -/
def requested (P : Fin numWrites) (A : Fin (g.writers P)) (i : ChannelRequests g w) : List (BitVec w) :=
  if (i.sample P).reqL A then [(i.sample P).dataL A] else []

def sentBy (P : Fin numWrites) (A : Fin (g.writers P)) : List (BitVec w) :=
  OutputPortRevised.sentBy (g.writersNoArbitration P) (s.outputPorts P) (i.sample P) (writeAck s i P) A

def sent : List ((Σ P : Fin numWrites, Fin (g.writers P)) × BitVec w) := tagged (sentBy s i)

def takenBy (Q : Fin numReads) (A : Fin (g.readers Q)) : List (BitVec w) :=
  InputPortRevised.takenBy (g.readersNoArbitration Q) (s.inputPorts Q) (i.updateReq Q) (readAck s i Q) (readData s i Q)
    A

/-- The words that come to the input ports, with the operators that take them. -/
def taken : List ((Σ Q : Fin numReads, Fin (g.readers Q)) × BitVec w) := tagged (takenBy s i)

def deliveredTo (Q : Fin numReads) (A : Fin (g.readers Q)) : List (BitVec w) :=
  InputPortRevised.deliveredTo (g.readersNoArbitration Q) (s.inputPorts Q) (i.updateReq Q) (readAck s i Q)
    (readData s i Q) A

/-! ### One operator among all -/

variable {α : Type} {k : Nat}

theorem flatMap_ite {β : Type} (l : List β) (p : β → Bool) (f : β → α) :
    (l.flatMap fun x => if p x then [f x] else []) = (l.filter p).map f := by
  induction l with
  | nil => rfl
  | cons x l ih =>
      rw [List.flatMap_cons, ih]
      cases isP : p x <;> simp [isP]

theorem wordsOf_append {K : Type} [DecidableEq K] (a : K) (xs ys : List (K × α)) :
    wordsOf a (xs ++ ys) = wordsOf a xs ++ wordsOf a ys := by
  rw [wordsOf, List.filter_append, List.map_append]
  rfl

theorem wordsOf_tagged {m : Fin k → Nat} (f : (P : Fin k) → Fin (m P) → List α) (P : Fin k) (A : Fin (m P)) :
    wordsOf ⟨P, A⟩ (tagged f) = f P A := by
  rw [wordsOf, tagged, List.filter_flatMap, flatMap_chosen (K := P), List.filter_flatMap, flatMap_chosen (K := A)]
  · simp [List.filter_map, Function.comp_def]
  · intro B other
    simp [List.filter_map, Function.comp_def, other]
  · intro R other
    rw [List.filter_eq_nil_iff]
    intro x member
    obtain ⟨B, -, member⟩ := List.mem_flatMap.mp member
    obtain ⟨y, -, rfl⟩ := List.mem_map.mp member
    simp [other]

theorem map_snd_tagged {m : Fin k → Nat} (f : (P : Fin k) → Fin (m P) → List α) :
    (tagged f).map Prod.snd = (List.finRange k).flatMap fun P => (List.finRange (m P)).flatMap (f P) := by
  simp [tagged, List.map_flatMap, Function.comp_def]

/-! ### What a channel holds -/

variable {s : ChannelState g collide} {i : ChannelRequests g w}
  {holdsRx : (P : Fin numWrites) → (A : Fin (g.writers P)) → (g.rxB collide P A).State → Option (BitVec w) →
    List (BitVec w) → Prop}
  {holdsQ : (pipeQueue collide g.pipe).State → List (BitVec w) → Prop}
  {holdsU : (Q : Fin numReads) → (g.ulReg Q : ClockedControl w).Registers → List (BitVec w) → Prop}

/-- Every part holds some words; what was left behind, or presented to the pipe, is still there. -/
structure Consistent
    (holdsRx : (P : Fin numWrites) → (A : Fin (g.writers P)) → (g.rxB collide P A).State → Option (BitVec w) →
      List (BitVec w) → Prop)
    (holdsQ : (pipeQueue collide g.pipe).State → List (BitVec w) → Prop)
    (holdsU : (Q : Fin numReads) → (g.ulReg Q : ClockedControl w).Registers → List (BitVec w) → Prop)
    (s : ChannelState g collide × Pending g w) : Prop where
  writers : ∀ P A, ∃ q, holdsRx P A ((s.1.outputPorts P).rxBuf A) (s.2 P A) q
  latched : ∀ P, g.writers P ≠ 1 → ∀ A, (s.1.outputPorts P).reqInRegister A = true →
    ∀ r, ((g.rxB collide P A).buffer.respond ((s.1.outputPorts P).rxBuf A) r).popAck = true
  pipe : ∃ q, holdsQ s.1.pipe.queue q
  kept : numWrites ≠ 1 → ∀ P, s.1.pipe.reqInRegister P = true → OutputPortRevised.Standing (s.1.outputPorts P)
  readers : ∀ Q A, ∃ q, holdsU Q (s.1.inputPorts Q A) q

theorem Consistent.asked {s : ChannelState g collide × Pending g w} (consistent : Consistent holdsRx holdsQ holdsU s)
    (obeys : Obeys s i) (several : numWrites ≠ 1) (P : Fin numWrites) (kept : s.1.pipe.reqInRegister P = true) :
    (pipeInputs s.1 i).writeReq P = true :=
  OutputPortRevised.oreq_of_standing (fun several A left => consistent.latched P several A left _)
    (obeys.aloneWriting P) (consistent.kept several P kept)

section Runs
variable {capacity : Nat} {buffering : (P : Fin numWrites) → Fin (g.writers P) → Nat}
  (receives : ∀ P A, (g.rxB collide P A).buffer.Receives (buffering P A) (holdsRx P A))
  (fifo : (pipeQueue collide g.pipe).buffer.Fifo capacity holdsQ)
  (handsOn : ∀ Q, HandsOn (g.ulReg Q : ClockedControl w).control (holdsU Q))
include receives fifo handsOn

theorem Consistent.turn {s : ChannelState g collide × Pending g w} (consistent : Consistent holdsRx holdsQ holdsU s)
    (obeys : Obeys s i) : Consistent holdsRx holdsQ holdsU (turn s i) := by
  have latched (P : Fin numWrites) : g.writers P ≠ 1 → ∀ A, (s.1.outputPorts P).reqInRegister A = true →
      InputMuxWithBuffering.reqFromRx (s.1.outputPorts P) (i.sample P) A = true :=
    fun several A left => consistent.latched P several A left _
  refine ⟨fun P A => ?_, fun P several A left r => ?_, ?_, fun several P left => ?_, fun Q A => ?_⟩
  · obtain ⟨q, held⟩ := consistent.writers P A
    obtain ⟨q', held', -⟩ := (receives P A).step ((s.1.outputPorts P).rxBuf A)
      (OutputPortRevised.rxRequest (g.writersNoArbitration P) (s.1.outputPorts P) (i.sample P) (writeAck s.1 i P) A)
      (s.2 P A) q held (obeys.waits P A)
    exact ⟨q', held'⟩
  · exact OutputPortRevised.left_next (receives P) (latched P) several left r
  · obtain ⟨q, held⟩ := consistent.pipe
    obtain ⟨q', held', -⟩ := fifo.step s.1.pipe.queue (PipeBase.queueRequest s.1.pipe (pipeInputs s.1 i)) q held
    exact ⟨q', held'⟩
  · -- the request that the pipe keeps was not acknowledged, and the port repeats it
    have unanswered := PipeBase.next_register several (consistent.asked obeys several) left
    rw [PipeBase.unanswered, Bool.and_eq_true, Bool.not_eq_true'] at unanswered
    have refused : writeAck s.1 i P = false := unanswered.2
    show OutputPortRevised.Standing (OutputPortRevised.next (g.writersNoArbitration P) (s.1.outputPorts P) (i.sample P)
      (writeAck s.1 i P))
    rw [refused]
    exact OutputPortRevised.Standing.next (receives P) (latched P) (obeys.aloneWriting P) unanswered.1
  · obtain ⟨q, held⟩ := consistent.readers Q A
    obtain ⟨q', held', -⟩ := InputPortRevised.handed (g.readersNoArbitration Q) (i.updateReq Q)
      (handsOn Q) held (readAck s.1 i Q) (readData s.1 i Q)
    exact ⟨q', held'⟩

omit fifo handsOn in
/-- The words that leave the output ports are those that the pipe takes in. -/
theorem sent_words {s : ChannelState g collide × Pending g w} (consistent : Consistent holdsRx holdsQ holdsU s)
    (obeys : Obeys s i) : (sent s.1 i).map Prod.snd = ((pipeQueue collide g.pipe).buffer.pushed s.1.pipe.queue
      (PipeBase.queueRequest s.1.pipe (pipeInputs s.1 i))).toList := by
  have port (P : Fin numWrites) : (List.finRange (g.writers P)).flatMap (sentBy s.1 i P) =
      if (pipeInputs s.1 i).writeReq P && writeAck s.1 i P then [(pipeInputs s.1 i).writeData P] else [] :=
    OutputPortRevised.sent_eq (receives P) (fun several A left => consistent.latched P several A left _)
      (obeys.aloneWriting P) (writeAck s.1 i P)
  rw [sent, map_snd_tagged, ← PipeBase.written_eq (consistent.asked obeys), PipeBase.written, List.map_map]
  simp only [port]
  exact flatMap_ite _ _ _

omit receives fifo in
/-- The words that come to the input ports are those that the pipe hands out. -/
theorem taken_words {s : ChannelState g collide × Pending g w} (obeys : Obeys s i) :
    (taken s.1 i).map Prod.snd = ((pipeQueue collide g.pipe).buffer.popped s.1.pipe.queue
      (PipeBase.queueRequest s.1.pipe (pipeInputs s.1 i))).toList := by
  have port (Q : Fin numReads) : (List.finRange (g.readers Q)).flatMap (takenBy s.1 i Q) =
      if (pipeInputs s.1 i).readReq Q && readAck s.1 i Q then [readData s.1 i Q] else [] :=
    InputPortRevised.taken_eq (handsOn Q) (obeys.aloneReading Q) (readAck s.1 i Q) (readData s.1 i Q)
  rw [taken, map_snd_tagged, ← PipeBase.read_eq, PipeBase.read, List.map_map]
  simp only [port]
  exact flatMap_ite _ _ _

theorem conserves_writer (P : Fin numWrites) (A : Fin (g.writers P)) :
    Conserves PipeChannel.turn Obeys (fun _ i => requested P A i) (fun s i => sentBy s.1 i P A)
      (fun s q => Consistent holdsRx holdsQ holdsU s ∧ holdsRx P A ((s.1.outputPorts P).rxBuf A) (s.2 P A) q) := by
  refine ⟨?_⟩
  rintro s i q ⟨consistent, held⟩ obeys
  obtain ⟨q', held', law⟩ := (receives P A).step ((s.1.outputPorts P).rxBuf A)
    (OutputPortRevised.rxRequest (g.writersNoArbitration P) (s.1.outputPorts P) (i.sample P) (writeAck s.1 i P) A)
    (s.2 P A) q held (obeys.waits P A)
  exact ⟨q', ⟨consistent.turn receives fifo handsOn obeys, held'⟩, law⟩

theorem conserves_pipe : Conserves PipeChannel.turn Obeys (fun s i => (sent s.1 i).map Prod.snd)
    (fun s i => (taken s.1 i).map Prod.snd)
    (fun s q => Consistent holdsRx holdsQ holdsU s ∧ holdsQ s.1.pipe.queue q) := by
  refine ⟨?_⟩
  rintro s i q ⟨consistent, held⟩ obeys
  obtain ⟨q', held', law⟩ := fifo.step s.1.pipe.queue (PipeBase.queueRequest s.1.pipe (pipeInputs s.1 i)) q held
  refine ⟨q', ⟨consistent.turn receives fifo handsOn obeys, held'⟩, ?_⟩
  rw [sent_words receives consistent obeys, taken_words handsOn obeys]
  exact law

theorem conserves_reader (Q : Fin numReads) (A : Fin (g.readers Q)) :
    Conserves PipeChannel.turn Obeys (fun s i => takenBy s.1 i Q A) (fun s i => deliveredTo s.1 i Q A)
      (fun s q => Consistent holdsRx holdsQ holdsU s ∧ holdsU Q (s.1.inputPorts Q A) q) := by
  refine ⟨?_⟩
  rintro s i q ⟨consistent, held⟩ obeys
  obtain ⟨q', held', law⟩ := InputPortRevised.handed (g.readersNoArbitration Q) (i.updateReq Q)
    (handsOn Q) held (readAck s.1 i Q) (readData s.1 i Q)
  exact ⟨q', ⟨consistent.turn receives fifo handsOn obeys, held'⟩, law⟩

end Runs

/-! ### A channel -/

def first (s : ChannelState g collide) (i : ChannelRequests g w) : ChannelState g collide × Pending g w :=
  (reset s i, fun _ _ => none)

theorem consistent_first {capacity : Nat} {buffering : (P : Fin numWrites) → Fin (g.writers P) → Nat}
    (receives : ∀ P A, (g.rxB collide P A).buffer.Receives (buffering P A) (holdsRx P A))
    (fifo : (pipeQueue collide g.pipe).buffer.Fifo capacity holdsQ)
    (handsOn : ∀ Q, HandsOn (g.ulReg Q : ClockedControl w).control (holdsU Q)) (s : ChannelState g collide)
    (i : ChannelRequests g w) : Consistent holdsRx holdsQ holdsU (first s i) where
  writers P A := ⟨[], (receives P A).reset _ _⟩
  latched _ _ _ left := absurd left Bool.false_ne_true
  pipe := ⟨[], fifo.reset _ _⟩
  kept _ _ left := absurd left Bool.false_ne_true
  readers Q _ := ⟨[], (handsOn Q).reset⟩

theorem wordsOf_collect {S I : Type} (next : S → I → S) {m : Fin k → Nat}
    (f : S → I → (P : Fin k) → Fin (m P) → List α) (P : Fin k) (A : Fin (m P)) (s : S) (is : List I) :
    wordsOf ⟨P, A⟩ (collect next (fun s i => tagged (f s i)) s is) = collect next (fun s i => f s i P A) s is := by
  rw [map_collect next (wordsOf _) rfl (wordsOf_append _)]
  simp only [wordsOf_tagged]

end PipeChannel

open PipeChannel in
/-- The words of each operator leave its port in order, but for those that wait there; the words that the operators
of all output ports have sent are those that the operators of all input ports have taken, in order, but for those
in the pipe; and what an operator takes is handed over to it in order, but for one word. -/
theorem pipeChannel_delivers (collide : BitVec w) (g : ChannelGenerics numWrites numReads)
    (queue : g.pipe.lifoMode = false) (s : ChannelState g collide) (i : ChannelRequests g w)
    (is : List (ChannelRequests g w)) (obeys : Allowed turn Obeys (first s i) is) :
    let sentList := collect turn (fun s i => sent s.1 i) (first s i) is
    let takenList := collect turn (fun s i => taken s.1 i) (first s i) is
    (∀ P A, ∃ waiting : List (BitVec w), waiting.length ≤ g.inputBuffering P A + 2 ∧
      is.flatMap (requested P A) = wordsOf ⟨P, A⟩ sentList ++ waiting) ∧
    (∃ inside : List (BitVec w), inside.length ≤ g.pipe.depth + 1 ∧
      sentList.map Prod.snd = takenList.map Prod.snd ++ inside) ∧
    ∀ Q A, ∃ waiting : List (BitVec w), waiting.length ≤ 1 ∧
      wordsOf ⟨Q, A⟩ takenList = collect turn (fun s i => deliveredTo s.1 i Q A) (first s i) is ++ waiting := by
  intro sentList takenList
  choose holdsRx receives using fun P A => receiveBuffer_receives collide (g.inputBuffering P A) (g.fullRate P)
  obtain ⟨holdsQ, fifo⟩ := pipeQueue_isFifo collide queue
  choose holdsU handsOn using fun Q => unloadRegister_handsOn (w := w) (decide (g.readers Q = 1))
  have consistent := consistent_first receives fifo handsOn s i
  refine ⟨fun P A => ?_, ?_, fun Q A => ?_⟩
  · obtain ⟨waiting, ⟨-, held⟩, law⟩ := (conserves_writer receives fifo handsOn P A).run is (first s i) []
      ⟨consistent, (receives P A).reset _ _⟩ obeys
    refine ⟨waiting, (receives P A).bounded _ _ _ held, ?_⟩
    rw [List.nil_append, collect_of_inputs] at law
    rw [law]
    exact congrArg (· ++ waiting) (wordsOf_collect turn (fun s i => sentBy s.1 i) P A (first s i) is).symm
  · obtain ⟨inside, ⟨-, held⟩, law⟩ := (conserves_pipe receives fifo handsOn).run is (first s i) []
      ⟨consistent, fifo.reset _ _⟩ obeys
    refine ⟨inside, fifo.bounded _ _ held, ?_⟩
    rw [PipeBase.collect_map, PipeBase.collect_map]
    exact law
  · obtain ⟨waiting, ⟨-, held⟩, law⟩ := (conserves_reader receives fifo handsOn Q A).run is (first s i) []
      ⟨consistent, (handsOn Q).reset⟩ obeys
    refine ⟨waiting, (handsOn Q).bounded _ _ held, ?_⟩
    rw [List.nil_append] at law
    exact (wordsOf_collect turn (fun s i => takenBy s.1 i) Q A (first s i) is).trans law

open PipeChannel in
/-- Two writers at once, and a reader that asks twice. -/
theorem pipeChannel_delivers_two :
    let g : ChannelGenerics 2 1 :=
      { pipe := { depth := 2 }, writers := fun _ => 1, readers := fun _ => 1, inputBuffering := fun _ _ => 1 }
    let s : ChannelState g (0 : BitVec 8) :=
      { outputPorts := fun _ =>
          { rxBuf := fun _ => ⟨(⟨false, 0⟩ : SlotState 8), .idle⟩, reqInRegister := fun _ => false }
        pipe := { queue := (⟨fun _ => 0, 0, 0, .emptyState⟩ : RingState 8), reqInRegister := fun _ => false }
        inputPorts := fun _ _ => (⟨.idle, 0⟩ : BypassRegister FsmStateBypass 8) }
    let both : ChannelRequests g 8 :=
      ⟨fun P => ⟨fun _ => true, fun _ => if P = 0 then 10 else 20⟩, fun _ _ => true⟩
    let none : ChannelRequests g 8 :=
      ⟨fun P => ⟨fun _ => false, fun _ => if P = 0 then 10 else 20⟩, fun _ _ => true⟩
    let is := [both, none, none, none, none]
    let sentList := collect turn (fun s i => sent s.1 i) (first s both) is
    let takenList := collect turn (fun s i => taken s.1 i) (first s both) is
    takenList = [(⟨0, 0⟩, 20), (⟨0, 0⟩, 10)] ∧
      (∀ P A, ∃ waiting : List (BitVec 8), waiting.length ≤ 3 ∧
        is.flatMap (requested P A) = wordsOf ⟨P, A⟩ sentList ++ waiting) ∧
      (∃ inside : List (BitVec 8), inside.length ≤ 3 ∧ sentList.map Prod.snd = takenList.map Prod.snd ++ inside) ∧
      ∀ Q A, ∃ waiting : List (BitVec 8), waiting.length ≤ 1 ∧
        wordsOf ⟨Q, A⟩ takenList = collect turn (fun s i => deliveredTo s.1 i Q A) (first s both) is ++ waiting := by
  intro g s both none is sentList takenList
  exact ⟨by decide +kernel, pipeChannel_delivers 0 g rfl s both is (by decide +kernel)⟩

end Ahir.Hardware
