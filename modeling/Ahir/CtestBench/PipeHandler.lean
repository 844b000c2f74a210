import Ahir.Data.Ring
import Ahir.Data.Discipline
import Mathlib.Data.BitVec

/-!
# The pipe handler of the test bench

The server that keeps pipes for a test bench and serves the jobs that its clients
send.  `is_port` is not set: the pipes are those that `add_pipe` makes for
`registerpipe.fifo` and `registerpipe.lifo`.
-/

set_option autoImplicit false

namespace Ahir.CtestBench
open Ahir.Data

abbrev Byte := BitVec 8

abbrev Word := List Byte

/-- The values of `word_length`; another one stops the program. -/
inductive WordLength where
  | w8 | w16 | w32 | w64
  deriving DecidableEq

def WordLength.bytes : WordLength → Nat
  | .w8 => 1
  | .w16 => 2
  | .w32 => 4
  | .w64 => 8

def WordLength.bits (n : WordLength) : Nat := 8 * n.bytes

structure PipeRec where
  pipeDepth : Nat
  pipeWidth : Nat
  readPointer : Int
  writePointer : Int
  numberOfEntries : Nat
  lifoMode : Bool
  buffer : Int → Byte

namespace PipeRec
variable (p : PipeRec)

/-- `buffer.ptr##n[i]` -/
def load (n : WordLength) (i : Int) : Word :=
  (List.range n.bytes).map fun j : Nat => p.buffer (i * n.bytes + j)

/-- The memory after `buffer.ptr##n[i] = x`. -/
def store (n : WordLength) (i : Int) (x : Word) : Int → Byte := fun a =>
  if i * n.bytes ≤ a ∧ a < (i + 1) * n.bytes then x.getD (a - i * n.bytes).toNat 0 else p.buffer a

/-- `__EMPTY` -/
def isEmpty : Bool := decide (p.numberOfEntries = 0)

/-- `__FULL` -/
def isFull : Bool := decide (p.numberOfEntries = p.pipeDepth)

def incr (x : Int) : Int := if x = p.pipeDepth - 1 then 0 else x + 1

/-- `POP`, and the word it hands out. -/
def pop (n : WordLength) : Option Word × PipeRec :=
  if 0 < p.numberOfEntries then
    (some (p.load n p.readPointer),
      if p.lifoMode then
        { p with
          writePointer := p.writePointer - 1
          readPointer := if p.writePointer - 1 > 0 then p.writePointer - 1 - 1 else 0
          numberOfEntries := p.numberOfEntries - 1 }
      else
        { p with
          readPointer := p.incr p.readPointer
          numberOfEntries := p.numberOfEntries - 1 })
  else (none, p)

/-- `PUSH`; its guard is the width. -/
def push (n : WordLength) (x : Word) : PipeRec :=
  if p.numberOfEntries < p.pipeWidth then
    { p with
      numberOfEntries := p.numberOfEntries + 1
      buffer := p.store n p.writePointer x
      writePointer := p.incr p.writePointer
      readPointer := if p.lifoMode then p.incr p.writePointer - 1 else p.readPointer }
  else p

end PipeRec

/-- `buffer` has a word for every number below `words_requested`. -/
structure PipeJob where
  pipeName : String
  wordLength : WordLength
  wordsRequested : Nat
  wordsServed : Nat
  index : Nat
  readWriteBar : Bool
  isBurstAccess : Bool
  buffer : Nat → Word
  length_buffer : ∀ k, (buffer k).length = wordLength.bytes

/-- One turn of a loop of `process_job`: the pipe and the job before it, and the word that
`log_file` shows. -/
structure Step where
  pipe : PipeRec
  job : PipeJob
  word : Word

def Step.transfer (s : Step) : Transfer Word :=
  if s.job.readWriteBar then .delivered s.word else .stored s.word

def canServe (p : PipeRec) (job : PipeJob) : Bool :=
  decide (job.wordsServed < job.wordsRequested) && !(if job.readWriteBar then p.isEmpty else p.isFull)

theorem PipeRec.length_load (p : PipeRec) (n : WordLength) (i : Int) : (p.load n i).length = n.bytes := by
  rw [load, List.length_map, List.length_range]

def servedWord (p : PipeRec) (job : PipeJob) : Word :=
  if job.readWriteBar then p.load job.wordLength p.readPointer else job.buffer job.wordsServed

theorem length_servedWord (p : PipeRec) (job : PipeJob) : (servedWord p job).length = job.wordLength.bytes := by
  unfold servedWord
  split
  · exact p.length_load _ _
  · exact job.length_buffer _

def serveWord (p : PipeRec) (job : PipeJob) : PipeRec × PipeJob :=
  (if job.readWriteBar then (p.pop job.wordLength).2 else p.push job.wordLength (servedWord p job),
    { job with
      wordsServed := job.wordsServed + 1
      buffer := Function.update job.buffer job.wordsServed (servedWord p job)
      length_buffer := by
        intro k
        by_cases here : k = job.wordsServed
        · rw [here, Function.update_self, length_servedWord]
        · rw [Function.update_of_ne here, job.length_buffer] })

/-- A loop of `process_job`, for at most as many turns as there are words to serve. -/
def processLoop : Nat → PipeRec → PipeJob → PipeRec × PipeJob × List Step
  | 0, p, job => (p, job, [])
  | n + 1, p, job =>
      if canServe p job then
        let (p₁, job₁) := serveWord p job
        let (p₂, job₂, steps) := processLoop n p₁ job₁
        (p₂, job₂, ⟨p, job, servedWord p job⟩ :: steps)
      else (p, job, [])

def processJob (p : PipeRec) (job : PipeJob) : PipeRec × PipeJob × List Step :=
  processLoop (job.wordsRequested - job.wordsServed) p job

abbrev Pipes := String → Option PipeRec

/-- The first loop of `execute_jobs`. -/
def processJobs : Pipes → List PipeJob → Pipes × List PipeJob × List Step
  | pipes, [] => (pipes, [], [])
  | pipes, job :: rest =>
      match pipes job.pipeName with
      | none =>
          let (pipes', rest', steps) := processJobs pipes rest
          (pipes', job :: rest', steps)
      | some p =>
          let (p', job', steps) := processJob p job
          let (pipes', rest', steps') := processJobs (Function.update pipes job.pipeName (some p')) rest
          (pipes', job' :: rest', steps ++ steps')

/-- `responses` are the jobs that `send_job_response` has answered. -/
structure Handler where
  pipes : Pipes
  activeJobs : List PipeJob
  finishedJobs : List PipeJob
  freeJobIndex : Nat
  responses : List PipeJob
  log : List Step

def PipeJob.isServed (job : PipeJob) : Bool := decide (job.wordsServed = job.wordsRequested)

namespace Handler

/-- A pass of `execute_jobs`: the jobs are processed, and those that are served moved. -/
def pass (h : Handler) : Handler × List Step :=
  let (pipes, jobs, steps) := processJobs h.pipes h.activeJobs
  ({ h with
      pipes := pipes
      activeJobs := jobs.filter fun job => !job.isServed
      finishedJobs := h.finishedJobs ++ jobs.filter PipeJob.isServed
      log := h.log ++ steps }, steps)

/-- `execute_jobs`; `none` when it has not returned after so many passes. -/
def executeJobs : Nat → Handler → Option Handler
  | 0, _ => none
  | n + 1, h => if h.pass.2.isEmpty then some h.pass.1 else executeJobs n h.pass.1

end Handler

/-- What a client asks for.  The memory that is allocated has some contents. -/
inductive Request where
  | registerPipe (pipeName : String) (depth width : Nat) (lifoMode : Bool) (memory : Int → Byte)
  | job (readWriteBar isBurstAccess : Bool) (pipeName : String) (wordLength : WordLength) (wordsRequested : Nat)
      (buffer : Nat → Word) (length_buffer : ∀ k, (buffer k).length = wordLength.bytes)

namespace Handler

def addPipe (h : Handler) (pipeName : String) (depth width : Nat) (lifoMode : Bool) (memory : Int → Byte) : Handler :=
  match h.pipes pipeName with
  | some _ => h
  | none =>
      { h with
        pipes := Function.update h.pipes pipeName (some
          { pipeDepth := depth, pipeWidth := width, readPointer := 0, writePointer := 0, numberOfEntries := 0,
            lifoMode := lifoMode, buffer := memory }) }

def addJob (h : Handler) (readWriteBar isBurstAccess : Bool) (pipeName : String) (wordLength : WordLength)
    (wordsRequested : Nat) (buffer : Nat → Word) (length_buffer : ∀ k, (buffer k).length = wordLength.bytes) :
    Handler :=
  match h.pipes pipeName with
  | none => h
  | some _ =>
      { h with
        freeJobIndex := h.freeJobIndex + 1
        activeJobs := h.activeJobs ++
          [{ pipeName := pipeName, wordLength := wordLength, wordsRequested := wordsRequested, wordsServed := 0,
             index := h.freeJobIndex, readWriteBar := readWriteBar, isBurstAccess := isBurstAccess, buffer := buffer,
             length_buffer := length_buffer }] }

def parseAndAddJob (h : Handler) : Request → Handler
  | .registerPipe pipeName depth width lifoMode memory => h.addPipe pipeName depth width lifoMode memory
  | .job readWriteBar isBurstAccess pipeName wordLength wordsRequested buffer length_buffer =>
      h.addJob readWriteBar isBurstAccess pipeName wordLength wordsRequested buffer length_buffer

/-- `send_responses`, to the sockets that can be written to. -/
def sendResponses (h : Handler) (canWrite : PipeJob → Bool) : Handler :=
  { h with
    responses := h.responses ++ h.finishedJobs.filter canWrite
    finishedJobs := h.finishedJobs.filter fun job => !canWrite job }

def wordsWaiting (jobs : List PipeJob) : Nat := (jobs.map fun job => job.wordsRequested - job.wordsServed).sum

/-- A turn of `start_listening`, with a message if there is one. -/
def turn (h : Handler) (request : Option Request) (canWrite : PipeJob → Bool) : Option Handler :=
  match request with
  | none => some (h.sendResponses canWrite)
  | some request =>
      let h' := h.parseAndAddJob request
      (h'.executeJobs (wordsWaiting h'.activeJobs + 1)).map fun h'' => h''.sendResponses canWrite

def start : Handler := ⟨fun _ => none, [], [], 0, [], []⟩

def run : List (Option Request × (PipeJob → Bool)) → Handler → Option Handler
  | [], h => some h
  | (request, canWrite) :: turns, h => (h.turn request canWrite).bind (run turns)

end Handler
end Ahir.CtestBench
