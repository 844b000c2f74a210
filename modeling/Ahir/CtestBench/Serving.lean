import Ahir.CtestBench.PipeWords

/-!
# Jobs in service

What holds while `execute_jobs` goes over the active jobs: `done` are those it has
processed in the pass, `todo` those it has not.
-/

set_option autoImplicit false

namespace Ahir.CtestBench
open Ahir.Data

def SameQueue (a b : PipeJob) : Prop := a.pipeName = b.pipeName ∧ a.readWriteBar = b.readWriteBar

structure SameJob (a b : PipeJob) : Prop where
  index : a.index = b.index
  queue : SameQueue a b
  wordLength : a.wordLength = b.wordLength
  wordsRequested : a.wordsRequested = b.wordsRequested

def transfersOn (pipeName : String) (log : List Step) : List (Transfer Word) :=
  (log.filter fun s => s.job.pipeName = pipeName).map Step.transfer

def wordsOf (index : Nat) (log : List Step) : List Word :=
  (log.filter fun s => s.job.index = index).map Step.word

def PipeJob.IsWaiting (job : PipeJob) : Prop := job.wordsServed < job.wordsRequested

instance (job : PipeJob) : Decidable job.IsWaiting := Nat.decLt _ _

theorem transfersOn_append (q : String) (log log' : List Step) :
    transfersOn q (log ++ log') = transfersOn q log ++ transfersOn q log' := by
  rw [transfersOn, List.filter_append, List.map_append]
  rfl

theorem wordsOf_append (i : Nat) (log log' : List Step) : wordsOf i (log ++ log') = wordsOf i log ++ wordsOf i log' := by
  rw [wordsOf, List.filter_append, List.map_append]
  rfl

theorem SameQueue.symm {a b : PipeJob} (same : SameQueue a b) : SameQueue b a := ⟨same.1.symm, same.2.symm⟩

theorem processLoop_of_serves {p : PipeRec} {job : PipeJob} (n : Nat) (serves : canServe p job = true) :
    processLoop (n + 1) p job =
      ((processLoop n (serveWord p job).1 (serveWord p job).2).1,
        (processLoop n (serveWord p job).1 (serveWord p job).2).2.1,
        ⟨p, job, servedWord p job⟩ :: (processLoop n (serveWord p job).1 (serveWord p job).2).2.2) := by
  rw [processLoop, if_pos serves]

theorem processLoop_of_stopped {p : PipeRec} {job : PipeJob} (n : Nat) (stopped : canServe p job = false) :
    processLoop n p job = (p, job, []) := by
  cases n with
  | zero => rfl
  | succ n => rw [processLoop, if_neg (Bool.eq_false_iff.mp stopped)]

theorem processJobs_of_none {pipes : Pipes} {job : PipeJob} (rest : List PipeJob) (none : pipes job.pipeName = none) :
    processJobs pipes (job :: rest) =
      ((processJobs pipes rest).1, job :: (processJobs pipes rest).2.1, (processJobs pipes rest).2.2) := by
  rw [processJobs, none]

theorem processJobs_of_some {pipes : Pipes} {job : PipeJob} {p : PipeRec} (rest : List PipeJob)
    (found : pipes job.pipeName = some p) :
    processJobs pipes (job :: rest) =
      ((processJobs (Function.update pipes job.pipeName (some (processJob p job).1)) rest).1,
        (processJob p job).2.1 ::
          (processJobs (Function.update pipes job.pipeName (some (processJob p job).1)) rest).2.1,
        (processJob p job).2.2 ++
          (processJobs (Function.update pipes job.pipeName (some (processJob p job).1)) rest).2.2) := by
  rw [processJobs, found]

/-- A pipe that one job waits for does not serve another one of the queue. -/
theorem canServe_of_sameQueue {p : PipeRec} {a b : PipeJob} (same : SameQueue a b) (waiting : a.IsWaiting)
    (blocked : canServe p a = false) : canServe p b = false := by
  unfold canServe at blocked ⊢
  rw [decide_eq_true (show a.wordsServed < a.wordsRequested from waiting), Bool.true_and] at blocked
  rw [← same.2, blocked, Bool.and_false]

theorem isWaiting_of_canServe {p : PipeRec} {job : PipeJob} (serves : canServe p job = true) : job.IsWaiting :=
  decide_eq_true_iff.mp (Bool.and_eq_true_iff.mp serves).1

structure Serving (lengths : String → WordLength) (pipes : Pipes) (free : Nat) (others done todo : List PipeJob)
    (log : List Step) : Prop where
  inside : ∀ s ∈ log, s.InsideBuffer
  held : ∀ q p, pipes q = some p →
    ∃ words, p.Holds (lengths q) words ∧ replay p.lifoMode [] (transfersOn q log) = some words
  registered : ∀ j ∈ others ++ done ++ todo, (pipes j.pipeName).isSome
  owner : ∀ s ∈ log, ∃ j ∈ others ++ done ++ todo, SameJob s.job j
  counted : ∀ j ∈ others ++ done ++ todo, wordsOf j.index log = (List.range j.wordsServed).map j.buffer
  bounded : ∀ j ∈ others ++ done ++ todo, j.wordsServed ≤ j.wordsRequested
  unique : ((others ++ done ++ todo).map PipeJob.index).Nodup
  fresh : ∀ j ∈ others ++ done ++ todo, j.index < free
  ordered : log.Pairwise fun s t => SameQueue s.job t.job → s.job.index ≤ t.job.index
  behind : ∀ j ∈ done ++ todo, j.IsWaiting → ∀ s ∈ log, SameQueue s.job j → s.job.index ≤ j.index
  arrival : ((done ++ todo).map PipeJob.index).Pairwise (· < ·)
  kinds : ∀ a b c, List.Sublist [a, b, c] ((done ++ todo).map fun j => (j.pipeName, j.readWriteBar)) →
    a.1 = b.1 → b.1 = c.1 → a.2 = b.2
  blocked : ∀ i ∈ done, i.IsWaiting → ∀ k ∈ todo, SameQueue i k → ∀ p, pipes i.pipeName = some p →
    canServe p i = false

section Word
variable {lengths : String → WordLength} {pipes : Pipes} {free : Nat} {others done rest : List PipeJob}
  {log : List Step} {p : PipeRec} {j : PipeJob}

theorem mem_replaced {x j' : PipeJob} (mem : x ∈ others ++ done ++ j' :: rest) :
    x = j' ∨ x ∈ others ++ done ++ rest := by
  simp only [List.mem_append, List.mem_cons] at mem ⊢
  tauto

theorem mem_kept {x : PipeJob} (j : PipeJob) (mem : x ∈ others ++ done ++ rest) : x ∈ others ++ done ++ j :: rest := by
  simp only [List.mem_append, List.mem_cons] at mem ⊢
  tauto

theorem Serving.index_ne (serving : Serving lengths pipes free others done (j :: rest) log) {x : PipeJob}
    (mem : x ∈ others ++ done ++ rest) : x.index ≠ j.index := by
  have unique := serving.unique
  rw [List.map_append, List.map_cons, List.nodup_middle, ← List.map_append, List.nodup_cons] at unique
  intro eq
  exact unique.1 (eq ▸ List.mem_map_of_mem mem)

/-- No processed job of the queue waits when a later one can be served. -/
theorem Serving.not_waiting (serving : Serving lengths pipes free others done (j :: rest) log)
    (found : pipes j.pipeName = some p) (serves : canServe p j = true) {i : PipeJob} (mem : i ∈ done)
    (same : SameQueue i j) : ¬ i.IsWaiting := by
  intro waiting
  have blocked := serving.blocked i mem waiting j List.mem_cons_self same p (same.1 ▸ found)
  rw [canServe_of_sameQueue same waiting blocked] at serves
  exact Bool.false_ne_true serves

/-- The pipe that serves the word holds what the transfers leave; the others are as before. -/
theorem Serving.word_held (serving : Serving lengths pipes free others done (j :: rest) log)
    {words words' : List Word} (replayed : replay p.lifoMode [] (transfersOn j.pipeName log) = some words)
    (transferred : replay p.lifoMode words [(⟨p, j, servedWord p j⟩ : Step).transfer] = some words')
    (holds' : (serveWord p j).1.Holds (lengths j.pipeName) words') (q : String) (p' : PipeRec)
    (eq : Function.update pipes j.pipeName (some (serveWord p j).1) q = some p') :
    ∃ words, p'.Holds (lengths q) words ∧
      replay p'.lifoMode [] (transfersOn q (log ++ [⟨p, j, servedWord p j⟩])) = some words := by
  rw [transfersOn_append]
  by_cases here : q = j.pipeName
  · rw [here, Function.update_self] at eq
    obtain rfl := Option.some.inj eq
    refine ⟨words', by rwa [here], ?_⟩
    rw [PipeRec.serveWord_same.1, replay_append, here, replayed, Option.bind_some]
    simpa [transfersOn] using transferred
  · rw [Function.update_of_ne here] at eq
    obtain ⟨others, holdsOthers, replayedOthers⟩ := serving.held q p' eq
    refine ⟨others, holdsOthers, ?_⟩
    simpa [transfersOn, Ne.symm here] using replayedOthers

theorem Serving.word_registered (serving : Serving lengths pipes free others done (j :: rest) log) (x : PipeJob)
    (mem : x ∈ others ++ done ++ (serveWord p j).2 :: rest) :
    (Function.update pipes j.pipeName (some (serveWord p j).1) x.pipeName).isSome := by
  by_cases here : x.pipeName = j.pipeName
  · rw [here, Function.update_self]
    rfl
  · rw [Function.update_of_ne here]
    rcases mem_replaced mem with rfl | old
    · exact absurd rfl here
    · exact serving.registered x (mem_kept j old)

theorem sameJob_replaced (p : PipeRec) {a x : PipeJob} (mem : x ∈ others ++ done ++ j :: rest) (same : SameJob a x) :
    ∃ y ∈ others ++ done ++ (serveWord p j).2 :: rest, SameJob a y := by
  rcases mem_replaced mem with rfl | old
  · exact ⟨(serveWord p x).2, by simp, ⟨same.index, same.queue, same.wordLength, same.wordsRequested⟩⟩
  · exact ⟨x, mem_kept _ old, same⟩

/-- The word is the next one in the buffer of its job, and no word of another job. -/
theorem Serving.word_counted (serving : Serving lengths pipes free others done (j :: rest) log) (x : PipeJob)
    (mem : x ∈ others ++ done ++ (serveWord p j).2 :: rest) :
    wordsOf x.index (log ++ [⟨p, j, servedWord p j⟩]) = (List.range x.wordsServed).map x.buffer := by
  rw [wordsOf_append]
  rcases mem_replaced mem with rfl | old
  · have before := serving.counted j (by simp)
    rw [show (serveWord p j).2.index = j.index from rfl, before]
    simp only [serveWord, List.range_succ, List.map_append, List.map_cons, List.map_nil, Function.update_self]
    congr 1
    · refine List.map_congr_left fun k mem => ?_
      rw [Function.update_of_ne (List.mem_range.mp mem).ne]
    · simp [wordsOf]
  · rw [← serving.counted x (mem_kept j old)]
    simp [wordsOf, (serving.index_ne old).symm]

theorem Serving.word_behind (serving : Serving lengths pipes free others done (j :: rest) log)
    (found : pipes j.pipeName = some p) (serves : canServe p j = true) (x : PipeJob)
    (memX : x ∈ done ++ (serveWord p j).2 :: rest) (waitingX : x.IsWaiting) (s : Step)
    (mem : s ∈ log ++ [⟨p, j, servedWord p j⟩]) (sameQueue : SameQueue s.job x) : s.job.index ≤ x.index := by
  have waiting := isWaiting_of_canServe serves
  rcases List.mem_append.mp mem with old | new
  · rcases List.mem_append.mp memX with inDone | inTodo
    · exact serving.behind x (by simp [inDone]) waitingX s old sameQueue
    rcases List.mem_cons.mp inTodo with rfl | inRest
    · exact serving.behind j (by simp) waiting s old sameQueue
    · exact serving.behind x (by simp [inRest]) waitingX s old sameQueue
  · obtain rfl := List.mem_singleton.mp new
    rcases List.mem_append.mp memX with inDone | inTodo
    · exact absurd waitingX (serving.not_waiting found serves inDone sameQueue.symm)
    rcases List.mem_cons.mp inTodo with rfl | inRest
    · exact le_refl _
    · have arrival := serving.arrival
      rw [List.map_append, List.map_cons] at arrival
      have later := (List.pairwise_cons.mp (List.pairwise_append.mp arrival).2.1).1
      exact (later _ (List.mem_map_of_mem inRest)).le

/-- A processed job that waits is not on the pipe that was served, which would else have three
jobs of both kinds. -/
theorem Serving.word_blocked (serving : Serving lengths pipes free others done (j :: rest) log)
    (found : pipes j.pipeName = some p) (serves : canServe p j = true) (i : PipeJob) (memI : i ∈ done)
    (waitingI : i.IsWaiting) (k : PipeJob) (memK : k ∈ (serveWord p j).2 :: rest) (sameQueue : SameQueue i k)
    (q : PipeRec) (eq : Function.update pipes j.pipeName (some (serveWord p j).1) i.pipeName = some q) :
    canServe q i = false := by
  have elsewhere : i.pipeName ≠ j.pipeName := by
    intro here
    refine serving.not_waiting found serves memI ⟨here, ?_⟩ waitingI
    rcases List.mem_cons.mp memK with rfl | inRest
    · exact sameQueue.2
    · refine serving.kinds (i.pipeName, i.readWriteBar) (j.pipeName, j.readWriteBar) (k.pipeName, k.readWriteBar) ?_
        here (here.symm.trans sameQueue.1)
      have jobs : List.Sublist ([i] ++ j :: [k]) (done ++ j :: rest) :=
        (List.singleton_sublist.mpr memI).append ((List.singleton_sublist.mpr inRest).cons_cons j)
      exact jobs.map fun j => (j.pipeName, j.readWriteBar)
  rw [Function.update_of_ne elsewhere] at eq
  rcases List.mem_cons.mp memK with rfl | inRest
  · exact absurd sameQueue.1 elsewhere
  · exact serving.blocked i memI waitingI k (List.mem_cons_of_mem _ inRest) sameQueue q eq

theorem Serving.word (serving : Serving lengths pipes free others done (j :: rest) log)
    (found : pipes j.pipeName = some p) (serves : canServe p j = true)
    (fits : (⟨p, j, servedWord p j⟩ : Step).Fits lengths) :
    Serving lengths (Function.update pipes j.pipeName (some (serveWord p j).1)) free others done ((serveWord p j).2 :: rest)
      (log ++ [⟨p, j, servedWord p j⟩]) := by
  have waiting := isWaiting_of_canServe serves
  have jobMem : j ∈ others ++ done ++ j :: rest := by simp
  obtain ⟨words, holds, replayed⟩ := serving.held _ _ found
  rw [← fits.1] at holds
  obtain ⟨words', transferred, holds', inside⟩ := holds.transfer fits serves
  rw [fits.1] at holds'
  refine ⟨?inside, serving.word_held replayed transferred holds', serving.word_registered, ?owner, serving.word_counted,
    ?bounded, ?unique, ?fresh, ?ordered, serving.word_behind found serves, ?arrival, ?kinds,
    serving.word_blocked found serves⟩
  case inside =>
    intro s mem
    rcases List.mem_append.mp mem with old | new
    · exact serving.inside s old
    · obtain rfl := List.mem_singleton.mp new
      exact inside
  case owner =>
    intro s mem
    rcases List.mem_append.mp mem with old | new
    · obtain ⟨x, memX, sameX⟩ := serving.owner s old
      exact sameJob_replaced p memX sameX
    · obtain rfl := List.mem_singleton.mp new
      exact sameJob_replaced p jobMem ⟨rfl, ⟨rfl, rfl⟩, rfl, rfl⟩
  case bounded =>
    intro x mem
    rcases mem_replaced mem with rfl | old
    · exact waiting
    · exact serving.bounded x (mem_kept j old)
  case unique =>
    have unique := serving.unique
    rwa [List.map_append, List.map_cons] at unique ⊢
  case fresh =>
    intro x mem
    rcases mem_replaced mem with rfl | old
    · exact serving.fresh j jobMem
    · exact serving.fresh x (mem_kept j old)
  case ordered =>
    rw [List.pairwise_append]
    refine ⟨serving.ordered, List.pairwise_singleton _ _, fun s mem t memT sameQueue => ?_⟩
    obtain rfl := List.mem_singleton.mp memT
    exact serving.behind j (by simp) waiting s mem sameQueue
  case arrival =>
    have arrival := serving.arrival
    rwa [List.map_append, List.map_cons] at arrival ⊢
  case kinds =>
    have kinds := serving.kinds
    rwa [List.map_append, List.map_cons] at kinds ⊢

/-- Jobs that are grouped in another way, with some of them no longer active. -/
theorem Serving.regroup {todo others' done' todo' : List PipeJob}
    (serving : Serving lengths pipes free others done todo log)
    (perm : (others' ++ done' ++ todo').Perm (others ++ done ++ todo))
    (active : List.Sublist (done' ++ todo') (done ++ todo))
    (blocked : ∀ i ∈ done', i.IsWaiting → ∀ k ∈ todo', SameQueue i k → ∀ p, pipes i.pipeName = some p →
      canServe p i = false) : Serving lengths pipes free others' done' todo' log where
  inside := serving.inside
  held := serving.held
  registered j mem := serving.registered j (perm.mem_iff.mp mem)
  owner s mem := by
    obtain ⟨j, memJ, same⟩ := serving.owner s mem
    exact ⟨j, perm.mem_iff.mpr memJ, same⟩
  counted j mem := serving.counted j (perm.mem_iff.mp mem)
  bounded j mem := serving.bounded j (perm.mem_iff.mp mem)
  unique := (perm.map PipeJob.index).nodup_iff.mpr serving.unique
  fresh j mem := serving.fresh j (perm.mem_iff.mp mem)
  ordered := serving.ordered
  behind j mem := serving.behind j (active.subset mem)
  arrival := serving.arrival.sublist (active.map PipeJob.index)
  kinds a b c sub := serving.kinds a b c (sub.trans (active.map fun j => (j.pipeName, j.readWriteBar)))
  blocked := blocked

/-- The first job is done for the pass when its loop has stopped. -/
theorem Serving.next (serving : Serving lengths pipes free others done (j :: rest) log)
    (stopped : ∀ p, pipes j.pipeName = some p → canServe p j = false) :
    Serving lengths pipes free others (done ++ [j]) rest log := by
  refine serving.regroup (List.Perm.of_eq (by simp)) (by simp) ?_
  intro i memI waiting k memK sameQueue p found
  rcases List.mem_append.mp memI with old | new
  · exact serving.blocked i old waiting k (List.mem_cons_of_mem _ memK) sameQueue p found
  · obtain rfl := List.mem_singleton.mp new
    exact stopped p found

theorem processLoop_waits (n : Nat) (p : PipeRec) (job : PipeJob) (enough : job.wordsRequested ≤ job.wordsServed + n) :
    canServe (processLoop n p job).1 (processLoop n p job).2.1 = false := by
  induction n generalizing p job with
  | zero =>
      have served : ¬ job.wordsServed < job.wordsRequested := by omega
      rw [processLoop, canServe, decide_eq_false served, Bool.false_and]
  | succ n ih =>
      cases serves : canServe p job with
      | true =>
          rw [processLoop_of_serves n serves]
          exact ih _ _ (by simp only [serveWord]; omega)
      | false =>
          rw [processLoop_of_stopped _ serves]
          exact serves

theorem Serving.loop (n : Nat) : ∀ {pipes : Pipes} {j : PipeJob} {p : PipeRec} {log : List Step},
    Serving lengths pipes free others done (j :: rest) log → pipes j.pipeName = some p →
    (∀ s ∈ (processLoop n p j).2.2, s.Fits lengths) →
    (processLoop n p j).2.1.pipeName = j.pipeName ∧
      Serving lengths (Function.update pipes j.pipeName (some (processLoop n p j).1)) free others done
        ((processLoop n p j).2.1 :: rest) (log ++ (processLoop n p j).2.2) := by
  induction n with
  | zero =>
      intro pipes j p log serving found _
      rw [processLoop]
      refine ⟨rfl, ?_⟩
      rwa [← found, Function.update_eq_self, List.append_nil]
  | succ n ih =>
      intro pipes j p log serving found fits
      cases serves : canServe p j with
      | true =>
          rw [processLoop_of_serves n serves] at fits ⊢
          have first := serving.word found serves (fits _ List.mem_cons_self)
          have later := ih first (by rw [show (serveWord p j).2.pipeName = j.pipeName from rfl, Function.update_self])
            fun s mem => fits s (List.mem_cons_of_mem _ mem)
          refine ⟨later.1, ?_⟩
          have result := later.2
          rwa [show (serveWord p j).2.pipeName = j.pipeName from rfl, Function.update_idem, List.append_assoc,
            List.singleton_append] at result
      | false =>
          rw [processLoop_of_stopped _ serves]
          refine ⟨rfl, ?_⟩
          rwa [← found, Function.update_eq_self, List.append_nil]

theorem Serving.job (serving : Serving lengths pipes free others done (j :: rest) log) (found : pipes j.pipeName = some p)
    (fits : ∀ s ∈ (processJob p j).2.2, s.Fits lengths) :
    Serving lengths (Function.update pipes j.pipeName (some (processJob p j).1)) free others (done ++ [(processJob p j).2.1]) rest
      (log ++ (processJob p j).2.2) := by
  obtain ⟨name, after⟩ := serving.loop _ found fits
  refine after.next fun q eq => ?_
  rw [show (processLoop (j.wordsRequested - j.wordsServed) p j).2.1.pipeName = j.pipeName from name,
    Function.update_self] at eq
  obtain rfl := Option.some.inj eq
  exact processLoop_waits _ _ _ (by omega)

theorem Serving.jobs : ∀ {todo done : List PipeJob} {pipes : Pipes} {log : List Step},
    Serving lengths pipes free others done todo log → (∀ s ∈ (processJobs pipes todo).2.2, s.Fits lengths) →
    Serving lengths (processJobs pipes todo).1 free others (done ++ (processJobs pipes todo).2.1) []
      (log ++ (processJobs pipes todo).2.2) := by
  intro todo
  induction todo with
  | nil =>
      intro done pipes log serving _
      simpa [processJobs] using serving
  | cons j rest ih =>
      intro done pipes log serving fits
      obtain ⟨p, found⟩ := Option.isSome_iff_exists.mp (serving.registered j (by simp))
      rw [processJobs_of_some rest found] at fits ⊢
      have first := serving.job found fun s mem => fits s (List.mem_append_left _ mem)
      have later := ih first fun s mem => fits s (List.mem_append_right _ mem)
      simpa using later

theorem Serving.sweep {jobs : List PipeJob} (serving : Serving lengths pipes free others jobs [] log) :
    Serving lengths pipes free (others ++ jobs.filter PipeJob.isServed) [] (jobs.filter fun job => !job.isServed) log := by
  refine serving.regroup ?_ ?_ (by simp)
  · simpa using (List.filter_append_perm PipeJob.isServed jobs).append_left others
  · simp

end Word

/-! ### Passes -/

theorem processLoop_waiting (n : Nat) (p : PipeRec) (job : PipeJob) :
    (processLoop n p job).2.1.wordsRequested - (processLoop n p job).2.1.wordsServed +
      (processLoop n p job).2.2.length = job.wordsRequested - job.wordsServed := by
  induction n generalizing p job with
  | zero => rfl
  | succ n ih =>
      cases serves : canServe p job with
      | true =>
          have waiting : job.wordsServed < job.wordsRequested := isWaiting_of_canServe serves
          have later := ih (serveWord p job).1 (serveWord p job).2
          rw [show (serveWord p job).2.wordsRequested = job.wordsRequested from rfl,
            show (serveWord p job).2.wordsServed = job.wordsServed + 1 from rfl] at later
          rw [processLoop_of_serves n serves, List.length_cons]
          dsimp only
          omega
      | false =>
          rw [processLoop_of_stopped _ serves]
          rfl

theorem wordsWaiting_cons (job : PipeJob) (jobs : List PipeJob) :
    Handler.wordsWaiting (job :: jobs) = job.wordsRequested - job.wordsServed + Handler.wordsWaiting jobs := rfl

theorem processJobs_waiting (pipes : Pipes) (jobs : List PipeJob) :
    Handler.wordsWaiting (processJobs pipes jobs).2.1 + (processJobs pipes jobs).2.2.length =
      Handler.wordsWaiting jobs := by
  induction jobs generalizing pipes with
  | nil => rfl
  | cons j rest ih =>
      cases found : pipes j.pipeName with
      | none =>
          rw [processJobs_of_none rest found, wordsWaiting_cons, wordsWaiting_cons, ← ih pipes]
          exact Nat.add_assoc _ _ _
      | some p =>
          have first := processLoop_waiting (j.wordsRequested - j.wordsServed) p j
          have later := ih (Function.update pipes j.pipeName (some (processJob p j).1))
          rw [processJobs_of_some rest found, wordsWaiting_cons, wordsWaiting_cons, List.length_append]
          rw [← processJob] at first
          omega

theorem wordsWaiting_filter (jobs : List PipeJob) :
    Handler.wordsWaiting (jobs.filter fun job => !job.isServed) = Handler.wordsWaiting jobs := by
  induction jobs with
  | nil => rfl
  | cons j rest ih =>
      cases served : j.isServed with
      | true =>
          have all : j.wordsServed = j.wordsRequested := of_decide_eq_true served
          rw [List.filter_cons_of_neg (by simp [served]), wordsWaiting_cons, ih]
          omega
      | false => rw [List.filter_cons_of_pos (by simp [served]), wordsWaiting_cons, wordsWaiting_cons, ih]

theorem processJobs_idle : ∀ {jobs : List PipeJob} {pipes : Pipes}, (processJobs pipes jobs).2.2 = [] →
    (processJobs pipes jobs).1 = pipes ∧ (processJobs pipes jobs).2.1 = jobs ∧
      ∀ j ∈ jobs, ∀ p, pipes j.pipeName = some p → canServe p j = false := by
  intro jobs
  induction jobs with
  | nil => exact fun _ => ⟨rfl, rfl, by simp⟩
  | cons j rest ih =>
      intro pipes idle
      cases found : pipes j.pipeName with
      | none =>
          rw [processJobs_of_none rest found] at idle ⊢
          obtain ⟨samePipes, sameJobs, stopped⟩ := ih idle
          refine ⟨samePipes, by rw [sameJobs], fun x mem q eq => ?_⟩
          rcases List.mem_cons.mp mem with rfl | inRest
          · rw [found] at eq
            cases eq
          · exact stopped x inRest q eq
      | some p =>
          rw [processJobs_of_some rest found] at idle ⊢
          obtain ⟨first, later⟩ := List.append_eq_nil_iff.mp idle
          have stoppedJob : canServe p j = false := by
            by_contra serves
            have waiting : j.wordsServed < j.wordsRequested := isWaiting_of_canServe ((Bool.not_eq_false _).mp serves)
            obtain ⟨n, more⟩ := Nat.exists_eq_succ_of_ne_zero (Nat.sub_pos_of_lt waiting).ne'
            rw [processJob, more, processLoop_of_serves n ((Bool.not_eq_false _).mp serves)] at first
            cases first
          have same : processJob p j = (p, j, []) := processLoop_of_stopped _ stoppedJob
          rw [same, ← found, Function.update_eq_self] at later
          obtain ⟨samePipes, sameJobs, stopped⟩ := ih later
          rw [same, ← found, Function.update_eq_self]
          refine ⟨samePipes, by rw [sameJobs], fun x mem q eq => ?_⟩
          rcases List.mem_cons.mp mem with rfl | inRest
          · rw [found] at eq
            obtain rfl := Option.some.inj eq
            exact stoppedJob
          · exact stopped x inRest q eq

end Ahir.CtestBench
