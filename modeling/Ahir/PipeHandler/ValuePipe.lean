import Ahir.PipeHandler.PipeRec

/-!
# Values of several words

`WRITE_BURST__` and `READ_BURST__` move the words of a value with as many calls of
the pipe handler as it takes; other threads may get the mutex between the calls.
-/

set_option autoImplicit false

namespace Ahir.PipeHandler
open Ahir.Data

/-- How a value is sent: as `count` words, at least one. -/
structure Coding (Val V : Type) where
  count : Nat
  words : Val → List V
  ofWords : List V → Val
  count_pos : 0 < count
  words_length : ∀ v, (words v).length = count
  ofWords_words : ∀ v, ofWords (words v) = v

/-- What a thread is doing.  A reader has taken `consumed` of the words in its
buffer from the pipe. -/
inductive Task (Val V : Type) where
  | idle
  | writing (v : Val) (wordsWritten : Nat)
  | reading (buf : List V) (consumed : Nat)

structure PipeUsers (T Val V : Type) where
  pipe : PipeRec V
  task : T → Task Val V

/-- A thread begins to write or to read a value, or makes the next call. -/
inductive Action (T Val : Type) where
  | beginWrite (t : T) (v : Val)
  | beginRead (t : T)
  | call (t : T)

/-- A value was written, or was read and took so many words from the pipe. -/
inductive ValueEvent (Val : Type) where
  | wrote (v : Val)
  | read (v : Val) (consumed : Nat)
  deriving DecidableEq

namespace PipeUsers
variable {T Val V : Type} [DecidableEq T] [Zero V] (code : Coding Val V) (s : PipeUsers T Val V)

def setTask (pipe : PipeRec V) (t : T) (task : Task Val V) : PipeUsers T Val V :=
  { pipe := pipe, task := Function.update s.task t task }

/-- A turn of the loop of `WRITE_BURST__`. -/
def callWrite (t : T) (v : Val) (wordsWritten : Nat) : PipeUsers T Val V × List (ValueEvent Val) :=
  let payload := (code.words v).drop wordsWritten
  let wordsWritten' := wordsWritten + s.pipe.writeCount payload.length
  if wordsWritten' = code.count then (s.setTask (s.pipe.writeToPipe payload) t .idle, [.wrote v])
  else (s.setTask (s.pipe.writeToPipe payload) t (.writing v wordsWritten'), [])

/-- A turn of the loop of `READ_BURST__`. -/
def callRead (t : T) (buf : List V) (consumed : Nat) : PipeUsers T Val V × List (ValueEvent Val) :=
  let (words, pipe) := s.pipe.readFromPipeBase true (code.count - buf.length)
  let buf' := buf ++ words
  let consumed' := consumed + (s.pipe.numberOfEntries - pipe.numberOfEntries)
  if buf'.length = code.count then (s.setTask pipe t .idle, [.read (code.ofWords buf') consumed'])
  else (s.setTask pipe t (.reading buf' consumed'), [])

def step : Action T Val → PipeUsers T Val V × List (ValueEvent Val)
  | .beginWrite t v =>
      match s.task t with
      | .idle => (s.setTask s.pipe t (.writing v 0), [])
      | _ => (s, [])
  | .beginRead t =>
      match s.task t with
      | .idle => (s.setTask s.pipe t (.reading [] 0), [])
      | _ => (s, [])
  | .call t =>
      match s.task t with
      | .idle => (s, [])
      | .writing v wordsWritten => s.callWrite code t v wordsWritten
      | .reading buf consumed => s.callRead code t buf consumed

def run (actions : List (Action T Val)) : PipeUsers T Val V :=
  actions.foldl (fun s a => (s.step code a).1) s

def events : PipeUsers T Val V → List (Action T Val) → List (ValueEvent Val)
  | _, [] => []
  | s, a :: actions => (s.step code a).2 ++ events (s.step code a).1 actions

end PipeUsers

def valueLog {Val : Type} : List (ValueEvent Val) → List (Transfer Val)
  | [] => []
  | .wrote v :: events => .stored v :: valueLog events
  | .read v consumed :: events =>
      if consumed = 0 then valueLog events else .delivered v :: valueLog events

section Bursts
variable {V : Type} [Zero V] {p : PipeRec V} {q : List V}

omit [Zero V] in
theorem PipeRec.Holds.writeToPipe (holds : p.Holds q) (payload : List V)
    (room : q.length + payload.length ≤ p.pipeDepth) :
    p.writeCount payload.length = payload.length ∧
      (p.writeToPipe payload).Holds (if p.isLifoMode then payload.reverse ++ q else q ++ payload) ∧
      p.Same (p.writeToPipe payload) := by
  have whole : p.writeCount payload.length = payload.length := by
    have entries := holds.entries
    unfold PipeRec.writeCount PipeRec.available
    rw [if_pos (by omega)]
  obtain ⟨holds', same⟩ := holds.pushLoop payload room
  rw [foldl_put] at holds'
  refine ⟨whole, ?_, ?_⟩ <;> rw [PipeRec.writeToPipe, whole, List.take_length]
  · exact holds'
  · exact same

omit [Zero V] in
theorem PipeRec.Holds.writeToPipe_full (holds : p.Holds q) (full : q.length = p.pipeDepth) (payload : List V) :
    p.writeCount payload.length = 0 ∧ p.writeToPipe payload = p := by
  have none : p.writeCount payload.length = 0 := by
    have entries := holds.entries
    unfold PipeRec.writeCount PipeRec.available
    split_ifs <;> omega
  refine ⟨none, ?_⟩
  rw [PipeRec.writeToPipe, none, List.take_zero, List.foldl_nil]

theorem PipeRec.Holds.readFromPipeBase {words : List V} (holds : p.Holds (words ++ q)) :
    (p.readFromPipeBase true words.length).1 = words ∧
      (p.readFromPipeBase true words.length).2.Holds q ∧
      p.Same (p.readFromPipeBase true words.length).2 := by
  have count : p.readCount words.length = words.length := by
    have entries := holds.entries
    rw [List.length_append] at entries
    rw [PipeRec.readCount, if_pos (by omega)]
  have read : p.readFromPipeBase true words.length = PipeRec.readLoop true words.length p := by
    rw [PipeRec.readFromPipeBase, PipeRec.readsZero, count, decide_eq_false (Nat.lt_irrefl _), Bool.and_false,
      if_neg Bool.false_ne_true]
  rw [read]
  exact holds.popLoop

theorem PipeRec.Holds.readFromPipeBase_empty (holds : p.Holds []) {requested : Nat} (positive : 0 < requested) :
    p.readFromPipeBase true requested =
      (if p.pipeMode = .fifoNonBlockRead then List.replicate requested 0 else [], p) := by
  have entries : p.numberOfEntries = 0 := holds.entries
  have count : p.readCount requested = 0 := by
    unfold PipeRec.readCount
    split_ifs <;> omega
  rw [PipeRec.readFromPipeBase, PipeRec.readsZero, count, decide_eq_true positive, Bool.and_true]
  by_cases nonBlock : p.pipeMode = .fifoNonBlockRead
  · rw [if_pos (decide_eq_true nonBlock), if_pos nonBlock]
  · rw [if_neg (by simpa using nonBlock), if_neg nonBlock]
    rfl

end Bursts

namespace PipeUsers
variable {T Val V : Type} [DecidableEq T] [Zero V] {code : Coding Val V}

/-- In a stack the words of a value come out the last one first. -/
def Symmetric (code : Coding Val V) (lifo : Bool) (v : Val) : Prop :=
  lifo = true → (code.words v).reverse = code.words v

/-- The pipe holds whole values, the next one first, and has room for whole values
only; no thread is in the middle of one. -/
structure Whole (code : Coding Val V) (s : PipeUsers T Val V) (vs : List Val) : Prop where
  holds : s.pipe.Holds (vs.flatMap code.words)
  room : code.count ∣ s.pipe.pipeDepth
  symmetric : ∀ v ∈ vs, Symmetric code s.pipe.isLifoMode v
  tasks : ∀ t, s.task t = .idle ∨ s.task t = .reading [] 0 ∨
    ∃ v, s.task t = .writing v 0 ∧ Symmetric code s.pipe.isLifoMode v

omit [Zero V] in
theorem length_words (vs : List Val) : (vs.flatMap code.words).length = code.count * vs.length := by
  induction vs with
  | nil => rfl
  | cons v vs ih =>
      rw [List.flatMap_cons, List.length_append, ih, code.words_length, List.length_cons, Nat.mul_succ,
        Nat.add_comm]

variable {s : PipeUsers T Val V} {vs : List Val}

omit [Zero V] in
theorem Whole.setTask_same (whole : Whole code s vs) (t : T) {task : Task Val V}
    (fresh : task = .idle ∨ task = .reading [] 0 ∨
      ∃ v, task = .writing v 0 ∧ Symmetric code s.pipe.isLifoMode v) :
    Whole code (s.setTask s.pipe t task) vs := by
  refine ⟨whole.holds, whole.room, whole.symmetric, fun t' => ?_⟩
  by_cases same : t' = t
  · rw [same]
    simpa [setTask] using fresh
  · simpa [setTask, same] using whole.tasks t'

omit [Zero V] in
/-- A thread that is done, and has put whole values in or taken them. -/
theorem Whole.setTask_idle (whole : Whole code s vs) (t : T) {pipe : PipeRec V} {vs' : List Val}
    (same : s.pipe.Same pipe) (holds : pipe.Holds (vs'.flatMap code.words))
    (symmetric : ∀ v ∈ vs', Symmetric code s.pipe.isLifoMode v) :
    Whole code (s.setTask pipe t .idle) vs' := by
  refine ⟨holds, ?_, ?_, fun t' => ?_⟩
  · change code.count ∣ pipe.pipeDepth
    rw [same.depth]
    exact whole.room
  · change ∀ v ∈ vs', Symmetric code pipe.isLifoMode v
    rw [same.lifo]
    exact symmetric
  · change _ ∨ _ ∨ ∃ v, _ ∧ Symmetric code pipe.isLifoMode v
    rw [same.lifo]
    by_cases equal : t' = t
    · exact Or.inl (by simp [setTask, equal])
    · simpa [setTask, equal] using whole.tasks t'

/-- A read takes all words of a value, or none where it does not block. -/
def ReadsWhole (code : Coding Val V) (mode : PipeMode) : ValueEvent Val → Prop
  | .wrote _ => True
  | .read v consumed =>
      consumed = code.count ∨
        consumed = 0 ∧ mode = .fifoNonBlockRead ∧ v = code.ofWords (List.replicate code.count 0)

variable [DecidableEq Val]

structure Moves (code : Coding Val V) (s : PipeUsers T Val V) (vs : List Val)
    (result : PipeUsers T Val V × List (ValueEvent Val)) (vs' : List Val) : Prop where
  whole : Whole code result.1 vs'
  replayed : replay s.pipe.isLifoMode vs (valueLog result.2) = some vs'
  reads : ∀ e ∈ result.2, ReadsWhole code s.pipe.pipeMode e
  same : s.pipe.Same result.1.pipe

theorem Moves.stays {t : T} {task : Task Val V} (whole : Whole code s vs)
    (fresh : task = .idle ∨ task = .reading [] 0 ∨
      ∃ v, task = .writing v 0 ∧ Symmetric code s.pipe.isLifoMode v) :
    Moves code s vs (s.setTask s.pipe t task, []) vs :=
  ⟨whole.setTask_same t fresh, rfl, fun e member => absurd member (by simp), PipeRec.Same.refl _⟩

theorem Whole.callWrite (whole : Whole code s vs) (t : T) {v : Val}
    (symmetric : Symmetric code s.pipe.isLifoMode v) :
    ∃ vs', Moves code s vs (s.callWrite code t v 0) vs' := by
  obtain ⟨depth, room⟩ := whole.room
  have bounded := whole.holds.bounded
  have positive := code.count_pos
  rw [length_words, room] at bounded
  have fits := Nat.le_of_mul_le_mul_left bounded positive
  have length := code.words_length v
  unfold PipeUsers.callWrite
  simp only [List.drop_zero, Nat.zero_add]
  rcases Nat.lt_or_eq_of_le fits with free | full
  · obtain ⟨written, holds, same⟩ := whole.holds.writeToPipe (code.words v) (by
      rw [length_words, length, room, ← Nat.mul_succ]
      exact Nat.mul_le_mul_left _ free)
    rw [written, length, if_pos rfl]
    refine ⟨put s.pipe.isLifoMode vs v, whole.setTask_idle t same ?_ ?_, rfl, ?_, same⟩
    · cases lifo : s.pipe.isLifoMode with
      | false => simpa [put, lifo] using holds
      | true => simpa [put, lifo, symmetric lifo] using holds
    · intro v' member
      have either : v' = v ∨ v' ∈ vs := by
        unfold put at member
        split_ifs at member <;> simp at member <;> tauto
      rcases either with rfl | old
      · exact symmetric
      · exact whole.symmetric v' old
    · intro e member
      obtain rfl : e = .wrote v := List.mem_singleton.mp member
      exact trivial
  · obtain ⟨none, unchanged⟩ := whole.holds.writeToPipe_full (by rw [length_words, room, full]) (code.words v)
    rw [none, unchanged, if_neg (by omega)]
    exact ⟨vs, Moves.stays whole (Or.inr (Or.inr ⟨v, rfl, symmetric⟩))⟩

theorem Whole.callRead (whole : Whole code s vs) (t : T) :
    ∃ vs', Moves code s vs (s.callRead code t [] 0) vs' := by
  have positive := code.count_pos
  unfold PipeUsers.callRead
  simp only [List.length_nil, Nat.sub_zero, List.nil_append, Nat.zero_add]
  cases vs with
  | nil =>
      rw [PipeRec.Holds.readFromPipeBase_empty whole.holds positive]
      by_cases nonBlock : s.pipe.pipeMode = .fifoNonBlockRead
      · simp only [if_pos nonBlock, List.length_replicate, if_true, Nat.sub_self]
        refine ⟨[], whole.setTask_same t (Or.inl rfl), rfl, ?_, PipeRec.Same.refl _⟩
        intro e member
        obtain rfl := List.mem_singleton.mp member
        exact Or.inr ⟨rfl, nonBlock, rfl⟩
      · simp only [if_neg nonBlock, List.length_nil, if_neg positive.ne, Nat.sub_self]
        exact ⟨[], Moves.stays whole (Or.inr (Or.inl rfl))⟩
  | cons v vs =>
      have before := whole.holds
      have entries := before.entries
      rw [length_words, List.length_cons] at entries
      rw [List.flatMap_cons] at before
      obtain ⟨words, holds, same⟩ := before.readFromPipeBase
      rw [code.words_length] at words holds same
      have entries' := holds.entries
      rw [length_words] at entries'
      have taken : s.pipe.numberOfEntries - (s.pipe.readFromPipeBase true code.count).2.numberOfEntries =
          code.count := by
        rw [entries, entries', Nat.mul_succ]
        omega
      rw [taken, words, code.words_length, if_pos rfl, code.ofWords_words]
      refine ⟨vs, whole.setTask_idle t same holds fun v' member => whole.symmetric v' (List.mem_cons_of_mem v member),
        ?_, ?_, same⟩
      · simp [valueLog, positive.ne', replay]
      · intro e member
        obtain rfl := List.mem_singleton.mp member
        exact Or.inl rfl

theorem Whole.step (whole : Whole code s vs) (a : Action T Val)
    (symmetric : ∀ t v, a = .beginWrite t v → Symmetric code s.pipe.isLifoMode v) :
    ∃ vs', Moves code s vs (s.step code a) vs' := by
  have nothing : Moves code s vs (s, []) vs :=
    ⟨whole, rfl, fun e member => absurd member (by simp), PipeRec.Same.refl _⟩
  cases a with
  | beginWrite t v =>
      simp only [PipeUsers.step]
      split
      · exact ⟨vs, Moves.stays whole (Or.inr (Or.inr ⟨v, rfl, symmetric t v rfl⟩))⟩
      · exact ⟨vs, nothing⟩
  | beginRead t =>
      simp only [PipeUsers.step]
      split
      · exact ⟨vs, Moves.stays whole (Or.inr (Or.inl rfl))⟩
      · exact ⟨vs, nothing⟩
  | call t =>
      simp only [PipeUsers.step]
      rcases whole.tasks t with idle | reading | ⟨v, writing, symmetricV⟩
      · rw [idle]
        exact ⟨vs, nothing⟩
      · rw [reading]
        exact whole.callRead t
      · rw [writing]
        exact whole.callWrite t symmetricV

omit [DecidableEq Val] in
theorem valueLog_append (es fs : List (ValueEvent Val)) : valueLog (es ++ fs) = valueLog es ++ valueLog fs := by
  induction es with
  | nil => rfl
  | cons e es ih =>
      cases e with
      | wrote v => simp [valueLog, ih]
      | read v consumed =>
          simp only [List.cons_append, valueLog]
          split_ifs <;> simp [ih]

theorem Whole.run (actions : List (Action T Val)) : ∀ {s : PipeUsers T Val V} {vs : List Val},
    Whole code s vs → (∀ t v, .beginWrite t v ∈ actions → Symmetric code s.pipe.isLifoMode v) →
    ∃ vs', Moves code s vs (s.run code actions, s.events code actions) vs' := by
  induction actions with
  | nil =>
      intro s vs whole _
      exact ⟨vs, whole, rfl, fun e member => absurd member (by simp [events]), PipeRec.Same.refl _⟩
  | cons a actions ih =>
      intro s vs whole symmetric
      obtain ⟨vs₁, first⟩ := whole.step a fun t v equal => symmetric t v (by simp [equal])
      obtain ⟨vs', rest⟩ := ih first.whole fun t v member => by
        rw [first.same.lifo]
        exact symmetric t v (List.mem_cons_of_mem a member)
      refine ⟨vs', rest.whole, ?_, ?_, first.same.trans rest.same⟩
      · change replay _ vs (valueLog ((s.step code a).2 ++ (s.step code a).1.events code actions)) = _
        rw [valueLog_append, replay_append, first.replayed, Option.bind_some, ← first.same.lifo]
        exact rest.replayed
      · intro e member
        change e ∈ (s.step code a).2 ++ (s.step code a).1.events code actions at member
        rcases List.mem_append.mp member with now | later
        · exact first.reads e now
        · have := rest.reads e later
          rwa [first.same.mode] at this

end PipeUsers

end Ahir.PipeHandler
