import Ahir.CtestBench.Serving

/-!
# Serving the jobs of the clients

Runs of the server: whatever its clients ask for, `execute_jobs` returns; and as long
as the words fit, what it has served is served correctly.
-/

set_option autoImplicit false

namespace Ahir.CtestBench
open Ahir.Data

namespace Handler
variable {lengths : String → WordLength} {h h' : Handler}

def jobs (h : Handler) : List PipeJob := h.responses ++ h.finishedJobs ++ h.activeJobs

structure Quiet (h : Handler) : Prop where
  waiting : ∀ j ∈ h.activeJobs, j.IsWaiting
  stopped : ∀ j ∈ h.activeJobs, ∀ p, h.pipes j.pipeName = some p → canServe p j = false

def InService (lengths : String → WordLength) (h : Handler) : Prop :=
  Serving lengths h.pipes h.freeJobIndex (h.responses ++ h.finishedJobs) [] h.activeJobs h.log

theorem pass_log (h : Handler) : h.pass.1.log = h.log ++ h.pass.2 := rfl

theorem InService.pass (serving : h.InService lengths) (fits : ∀ s ∈ h.pass.2, s.Fits lengths) : h.pass.1.InService lengths := by
  have processed := serving.jobs fits
  rw [List.nil_append] at processed
  have swept := processed.sweep
  rwa [List.append_assoc] at swept

theorem pass_waiting (h : Handler) :
    wordsWaiting h.pass.1.activeJobs + h.pass.2.length = wordsWaiting h.activeJobs := by
  have processed := processJobs_waiting h.pipes h.activeJobs
  rw [← wordsWaiting_filter] at processed
  exact processed

theorem InService.quiet (serving : h.InService lengths) (idle : h.pass.2 = []) : h.pass.1.Quiet := by
  obtain ⟨samePipes, sameJobs, stopped⟩ := processJobs_idle idle
  have active : h.pass.1.activeJobs = h.activeJobs.filter fun job => !job.isServed := by
    show (processJobs h.pipes h.activeJobs).2.1.filter _ = _
    rw [sameJobs]
  have pipes : h.pass.1.pipes = h.pipes := samePipes
  refine ⟨fun j mem => ?_, fun j mem p found => ?_⟩
  · rw [active] at mem
    obtain ⟨old, unserved⟩ := List.mem_filter.mp mem
    have bound := serving.bounded j (by simp [old])
    have ne : j.wordsServed ≠ j.wordsRequested := by simpa [PipeJob.isServed] using unserved
    exact lt_of_le_of_ne bound ne
  · rw [active] at mem
    exact stopped j (List.mem_filter.mp mem).1 p (pipes ▸ found)

/-- `execute_jobs` returns, and how many passes it might have made does not matter. -/
theorem executeJobs_returns (h : Handler) : ∃ h', ∀ n, wordsWaiting h.activeJobs < n → h.executeJobs n = some h' := by
  induction waiting : wordsWaiting h.activeJobs using Nat.strong_induction_on generalizing h with
  | _ m ih =>
      by_cases idle : h.pass.2.isEmpty
      · refine ⟨h.pass.1, fun n more => ?_⟩
        obtain ⟨n, rfl⟩ := Nat.exists_eq_succ_of_ne_zero (Nat.ne_zero_of_lt more)
        rw [executeJobs, if_pos idle]
      · have less := h.pass_waiting
        have some : 0 < h.pass.2.length := List.length_pos_iff.mpr fun eq => idle (List.isEmpty_iff.mpr eq)
        obtain ⟨h', result⟩ := ih _ (by omega) h.pass.1 rfl
        refine ⟨h', fun n more => ?_⟩
        obtain ⟨n, rfl⟩ := Nat.exists_eq_succ_of_ne_zero (Nat.ne_zero_of_lt more)
        rw [executeJobs, if_neg idle]
        exact result n (by omega)

theorem executeJobs_log (n : Nat) : ∀ {h : Handler}, h.executeJobs n = some h' → h.log <+: h'.log := by
  induction n with
  | zero => exact fun eq => by cases eq
  | succ n ih =>
      intro h eq
      rw [executeJobs] at eq
      have first : h.log <+: h.pass.1.log := ⟨h.pass.2, rfl⟩
      split at eq
      · obtain rfl := Option.some.inj eq
        exact first
      · exact first.trans (ih eq)

theorem InService.executeJobs (n : Nat) : ∀ {h : Handler}, h.InService lengths → h.executeJobs n = some h' →
    (∀ s ∈ h'.log, s.Fits lengths) → h'.InService lengths ∧ h'.Quiet := by
  induction n with
  | zero => exact fun _ eq => by cases eq
  | succ n ih =>
      intro h serving eq fits
      have fitsPass : h.pass.1.log <+: h'.log → ∀ s ∈ h.pass.2, s.Fits lengths := fun pre s mem =>
        fits s (pre.subset (by rw [pass_log]; exact List.mem_append_right _ mem))
      rw [Handler.executeJobs] at eq
      split at eq
      · next idle =>
          obtain rfl := Option.some.inj eq
          exact ⟨serving.pass (fitsPass (List.prefix_refl _)), serving.quiet (List.isEmpty_iff.mp idle)⟩
      · exact ih (serving.pass (fitsPass (executeJobs_log n eq))) eq fits

end Handler

def Request.WellFormed : Request → Prop
  | .registerPipe _ depth _ _ _ => 0 < depth
  | .job _ _ _ _ _ _ _ => True

namespace Handler
variable {lengths : String → WordLength} {h h' : Handler}

theorem InService.addPipe (serving : h.InService lengths) (pipeName : String) {depth : Nat} (pos : 0 < depth) (width : Nat)
    (lifoMode : Bool) (memory : Int → Byte) : (h.addPipe pipeName depth width lifoMode memory).InService lengths := by
  unfold Handler.addPipe
  split
  · exact serving
  · next none =>
      have other {j : PipeJob} (mem : j ∈ h.responses ++ h.finishedJobs ++ [] ++ h.activeJobs) :
          j.pipeName ≠ pipeName := by
        intro eq
        have registered := serving.registered j mem
        rw [eq, none] at registered
        cases registered
      have untouched : transfersOn pipeName h.log = [] := by
        refine List.map_eq_nil_iff.mpr (List.filter_eq_nil_iff.mpr fun s mem => ?_)
        obtain ⟨j, memJ, same⟩ := serving.owner s mem
        rw [decide_eq_true_iff, same.queue.1]
        exact other memJ
      refine { serving with held := ?_, registered := ?_, blocked := by simp }
      · intro q p found
        dsimp only at found ⊢
        by_cases here : q = pipeName
        · rw [here, Function.update_self] at found
          obtain rfl := Option.some.inj found
          refine ⟨[], ⟨pos, Nat.zero_le _, fun _ => ⟨0, pos, rfl, ?_, rfl⟩, fun _ => ⟨rfl, fun _ => ⟨rfl, ?_⟩⟩⟩, ?_⟩
          · simp
          · simp
          · rw [here, untouched, replay]
        · rw [Function.update_of_ne here] at found
          exact serving.held q p found
      · intro j mem
        dsimp only
        rw [Function.update_of_ne (other mem)]
        exact serving.registered j mem

theorem InService.index_lt (serving : h.InService lengths) {s : Step} (mem : s ∈ h.log) : s.job.index < h.freeJobIndex := by
  obtain ⟨j, memJ, same⟩ := serving.owner s mem
  rw [same.index]
  exact serving.fresh j memJ

theorem InService.same_kind (serving : h.InService lengths) (quiet : h.Quiet) {a b : PipeJob} (memA : a ∈ h.activeJobs)
    (memB : b ∈ h.activeJobs) (same : a.pipeName = b.pipeName) : a.readWriteBar = b.readWriteBar := by
  obtain ⟨p, found⟩ := Option.isSome_iff_exists.mp (serving.registered a (by simp [memA]))
  obtain ⟨words, holds, _⟩ := serving.held _ p found
  have stops {j : PipeJob} (mem : j ∈ h.activeJobs) (name : h.pipes j.pipeName = some p) :
      (if j.readWriteBar then p.isEmpty else p.isFull) = true := by
    have stopped := quiet.stopped j mem p name
    rw [canServe, decide_eq_true (show j.wordsServed < j.wordsRequested from quiet.waiting j mem), Bool.true_and] at stopped
    exact Bool.not_eq_false' .. ▸ stopped
  have pos := holds.depth_pos
  have stopA := stops memA found
  have stopB := stops memB (same ▸ found)
  unfold PipeRec.isEmpty PipeRec.isFull at stopA stopB
  cases kindA : a.readWriteBar <;> cases kindB : b.readWriteBar <;> simp [kindA, kindB] at stopA stopB ⊢ <;> omega

/-- Of three entries at most one is behind a point, so two are in front of it. -/
theorem mem_front_of_short {α : Type} {front back : List α} {a b c : α} (split : [a, b, c] = front ++ back)
    (short : back.length ≤ 1) : a ∈ front ∧ b ∈ front := by
  cases front with
  | nil =>
      rw [List.nil_append] at split
      rw [← split] at short
      exact absurd short (by simp)
  | cons x front =>
      obtain ⟨rfl, rest⟩ := List.cons.inj split
      cases front with
      | nil =>
          have rest : [b, c] = back := rest
          rw [← rest] at short
          exact absurd short (by simp)
      | cons y front =>
          obtain ⟨rfl, _⟩ := List.cons.inj rest
          exact ⟨by simp, by simp⟩

theorem InService.addJob (serving : h.InService lengths) (quiet : h.Quiet) (readWriteBar isBurstAccess : Bool)
    (pipeName : String) (wordLength : WordLength) (wordsRequested : Nat) (buffer : Nat → Word)
    (length_buffer : ∀ k, (buffer k).length = wordLength.bytes) :
    (h.addJob readWriteBar isBurstAccess pipeName wordLength wordsRequested buffer length_buffer).InService lengths := by
  unfold Handler.addJob
  split
  · exact serving
  · next p found =>
      have cases {j new : PipeJob} (mem : j ∈ h.responses ++ h.finishedJobs ++ [] ++ (h.activeJobs ++ [new])) :
          j ∈ h.responses ++ h.finishedJobs ++ [] ++ h.activeJobs ∨ j = new := by
        rw [← List.append_assoc] at mem
        exact (List.mem_append.mp mem).imp_right List.mem_singleton.mp
      refine { inside := serving.inside, held := serving.held, registered := fun j mem => ?_, owner := fun s mem => ?_,
               counted := fun j mem => ?_, bounded := fun j mem => ?_, unique := ?_, fresh := fun j mem => ?_,
               ordered := serving.ordered, behind := fun j mem _ s memS _ => ?_, arrival := ?_, kinds := ?_,
               blocked := by simp }
      · rcases cases mem with old | rfl
        · exact serving.registered j old
        · rw [found]
          rfl
      · obtain ⟨j, memJ, same⟩ := serving.owner s mem
        exact ⟨j, by rw [← List.append_assoc]; exact List.mem_append_left _ memJ, same⟩
      · rcases cases mem with old | rfl
        · exact serving.counted j old
        · refine List.map_eq_nil_iff.mpr (List.filter_eq_nil_iff.mpr fun s memS => ?_)
          rw [decide_eq_true_iff]
          exact (serving.index_lt memS).ne
      · rcases cases mem with old | rfl
        · exact serving.bounded j old
        · exact Nat.zero_le _
      · rw [← List.append_assoc, List.map_append, List.nodup_append]
        refine ⟨serving.unique, List.nodup_singleton _, fun i memI k memK => ?_⟩
        obtain ⟨j, memJ, rfl⟩ := List.mem_map.mp memI
        obtain rfl := List.mem_singleton.mp memK
        exact (serving.fresh j memJ).ne
      · rcases cases mem with old | rfl
        · exact Nat.lt_succ_of_lt (serving.fresh j old)
        · exact Nat.lt_succ_self _
      · rw [List.nil_append] at mem
        rcases List.mem_append.mp mem with old | new
        · exact serving.behind j old (quiet.waiting j old) s memS ‹_›
        · obtain rfl := List.mem_singleton.mp new
          exact (serving.index_lt memS).le
      · rw [List.nil_append, List.map_append, List.pairwise_append]
        refine ⟨serving.arrival, List.pairwise_singleton _ _, fun i memI k memK => ?_⟩
        obtain ⟨j, memJ, rfl⟩ := List.mem_map.mp memI
        obtain rfl := List.mem_singleton.mp memK
        exact serving.fresh j (by simp [memJ])
      · -- of three jobs at most the last is the new one
        intro a b c sub sameAB _
        rw [List.nil_append, List.map_append] at sub
        obtain ⟨front, back, split, subFront, subBack⟩ := List.sublist_append_iff.mp sub
        have short : back.length ≤ 1 := subBack.length_le
        have members := mem_front_of_short split short
        obtain ⟨j, memJ, rfl⟩ := List.mem_map.mp (subFront.subset members.1)
        obtain ⟨k, memK, rfl⟩ := List.mem_map.mp (subFront.subset members.2)
        exact serving.same_kind quiet memJ memK sameAB

theorem InService.sendResponses (serving : h.InService lengths) (canWrite : PipeJob → Bool) :
    (h.sendResponses canWrite).InService lengths := by
  refine serving.regroup ?_ (List.Sublist.refl _) (by simp)
  have answered := (List.filter_append_perm canWrite h.finishedJobs).append_left h.responses
  simpa [Handler.sendResponses] using answered.append_right h.activeJobs

theorem Quiet.sendResponses (quiet : h.Quiet) (canWrite : PipeJob → Bool) : (h.sendResponses canWrite).Quiet :=
  ⟨quiet.waiting, quiet.stopped⟩

theorem parseAndAddJob_log (h : Handler) (request : Request) : (h.parseAndAddJob request).log = h.log := by
  cases request <;> simp only [parseAndAddJob, addPipe, addJob] <;> split <;> rfl

theorem turn_log {request : Option Request} {canWrite : PipeJob → Bool} (eq : h.turn request canWrite = some h') :
    h.log <+: h'.log := by
  cases request with
  | none =>
      obtain rfl := Option.some.inj eq
      exact List.prefix_refl _
  | some request =>
      obtain ⟨h'', executed, rfl⟩ := Option.map_eq_some_iff.mp eq
      have log := executeJobs_log _ executed
      rwa [parseAndAddJob_log] at log

theorem turn_atRest {request : Option Request} {canWrite : PipeJob → Bool} (serving : h.InService lengths) (quiet : h.Quiet)
    (wellFormed : ∀ r ∈ request, r.WellFormed) (eq : h.turn request canWrite = some h')
    (fits : ∀ s ∈ h'.log, s.Fits lengths) : h'.InService lengths ∧ h'.Quiet := by
  cases request with
  | none =>
      obtain rfl := Option.some.inj eq
      exact ⟨serving.sendResponses canWrite, quiet.sendResponses canWrite⟩
  | some request =>
      obtain ⟨h'', executed, rfl⟩ := Option.map_eq_some_iff.mp eq
      have asked : (h.parseAndAddJob request).InService lengths := by
        have sized := wellFormed request rfl
        cases request with
        | registerPipe pipeName depth width lifoMode memory => exact serving.addPipe _ sized _ _ _
        | job readWriteBar isBurstAccess pipeName wordLength wordsRequested buffer length_buffer =>
            exact serving.addJob quiet _ _ _ _ _ _ _
      obtain ⟨serving', quiet'⟩ := asked.executeJobs _ executed fits
      exact ⟨serving'.sendResponses canWrite, quiet'.sendResponses canWrite⟩

theorem run_log {turns : List (Option Request × (PipeJob → Bool))} : ∀ {h : Handler}, run turns h = some h' →
    h.log <+: h'.log := by
  induction turns with
  | nil =>
      intro h eq
      obtain rfl := Option.some.inj eq
      exact List.prefix_refl _
  | cons turn turns ih =>
      intro h eq
      obtain ⟨h₁, first, later⟩ := Option.bind_eq_some_iff.mp eq
      exact (turn_log first).trans (ih later)

theorem run_atRest {turns : List (Option Request × (PipeJob → Bool))} : ∀ {h : Handler}, h.InService lengths → h.Quiet →
    (∀ t ∈ turns, ∀ r ∈ t.1, r.WellFormed) → run turns h = some h' → (∀ s ∈ h'.log, s.Fits lengths) →
    h'.InService lengths ∧ h'.Quiet := by
  induction turns with
  | nil =>
      intro h serving quiet _ eq _
      obtain rfl := Option.some.inj eq
      exact ⟨serving, quiet⟩
  | cons turn turns ih =>
      intro h serving quiet wellFormed eq fits
      obtain ⟨h₁, first, later⟩ := Option.bind_eq_some_iff.mp eq
      obtain ⟨serving', quiet'⟩ := turn_atRest serving quiet (wellFormed turn List.mem_cons_self) first fun s mem =>
        fits s ((run_log later).subset mem)
      exact ih serving' quiet' (fun t mem => wellFormed t (List.mem_cons_of_mem _ mem)) later fits

theorem run_returns (turns : List (Option Request × (PipeJob → Bool))) : ∀ h : Handler, ∃ h', run turns h = some h' := by
  induction turns with
  | nil => exact fun h => ⟨h, rfl⟩
  | cons turn turns ih =>
      intro h
      obtain ⟨request, canWrite⟩ := turn
      have first : ∃ h₁, h.turn request canWrite = some h₁ := by
        cases request with
        | none => exact ⟨_, rfl⟩
        | some request =>
            obtain ⟨h₁, executed⟩ := (h.parseAndAddJob request).executeJobs_returns
            refine ⟨h₁.sendResponses canWrite, ?_⟩
            rw [turn, executed _ (Nat.lt_succ_self _)]
            rfl
      obtain ⟨h₁, first⟩ := first
      obtain ⟨h', later⟩ := ih h₁
      exact ⟨h', by rw [run, first]; exact later⟩

theorem start_inService (lengths : String → WordLength) : start.InService lengths ∧ start.Quiet := by
  refine ⟨⟨?_, ?_, ?_, ?_, ?_, ?_, ?_, ?_, ?_, ?_, ?_, ?_, ?_⟩, ⟨?_, ?_⟩⟩ <;> simp [start]

end Handler

/-- The jobs are served correctly.  Each word is transferred inside the buffer; what was
counted as written is stored until it is delivered, in the order of the pipe; each transfer
is counted by one job, and the jobs of a queue take their turns as they arrived.  No active
job can go on. -/
structure Served (h : Handler) : Prop where
  inside : ∀ s ∈ h.log, s.InsideBuffer
  delivered : ∀ q p, h.pipes q = some p → ∃ words, words.length = p.numberOfEntries ∧
    replay p.lifoMode [] (transfersOn q h.log) = some words
  counted : ∀ j ∈ h.jobs, wordsOf j.index h.log = (List.range j.wordsServed).map j.buffer
  owner : ∀ s ∈ h.log, ∃! j, j ∈ h.jobs ∧ SameJob s.job j
  ordered : h.log.Pairwise fun s t => SameQueue s.job t.job → s.job.index ≤ t.job.index
  behind : ∀ j ∈ h.activeJobs, ∀ s ∈ h.log, SameQueue s.job j → s.job.index ≤ j.index
  quiescent : ∀ j ∈ h.activeJobs, j.IsWaiting ∧ ∀ p, h.pipes j.pipeName = some p →
    if j.readWriteBar then p.numberOfEntries = 0 else p.numberOfEntries = p.pipeDepth

namespace Handler
variable {lengths : String → WordLength} {h : Handler}

theorem InService.served (serving : h.InService lengths) (quiet : h.Quiet) : Served h := by
  have jobs : h.responses ++ h.finishedJobs ++ [] ++ h.activeJobs = h.jobs := by rw [List.append_nil, Handler.jobs]
  refine ⟨serving.inside, fun q p found => ?_, fun j mem => ?_, fun s mem => ?_, serving.ordered, fun j mem s memS => ?_,
    fun j mem => ⟨quiet.waiting j mem, fun p found => ?_⟩⟩
  · obtain ⟨words, holds, replayed⟩ := serving.held q p found
    exact ⟨words, holds.length, replayed⟩
  · exact serving.counted j (jobs ▸ mem)
  · obtain ⟨j, memJ, same⟩ := serving.owner s mem
    refine ⟨j, ⟨jobs ▸ memJ, same⟩, fun k both => ?_⟩
    exact List.inj_on_of_nodup_map serving.unique (jobs ▸ both.1) memJ (both.2.index.symm.trans same.index)
  · exact serving.behind j (by simpa using mem) (quiet.waiting j mem) s memS
  · have stopped := quiet.stopped j mem p found
    rw [canServe, decide_eq_true (show j.wordsServed < j.wordsRequested from quiet.waiting j mem), Bool.true_and] at stopped
    cases kind : j.readWriteBar <;> simpa [kind, PipeRec.isEmpty, PipeRec.isFull] using stopped

/-- Whatever clients ask for, `execute_jobs` returns; and in a run in which every word fits,
the jobs are served correctly. -/
theorem jobs_served (turns : List (Option Request × (PipeJob → Bool)))
    (wellFormed : ∀ t ∈ turns, ∀ r ∈ t.1, r.WellFormed) :
    (∀ h : Handler, ∃ h', ∀ n, wordsWaiting h.activeJobs < n → h.executeJobs n = some h') ∧
      ∃ h, run turns start = some h ∧
        ∀ lengths : String → WordLength, (∀ s ∈ h.log, s.Fits lengths) → Served h := by
  refine ⟨executeJobs_returns, ?_⟩
  obtain ⟨h, returned⟩ := run_returns turns start
  refine ⟨h, returned, fun lengths fits => ?_⟩
  have atStart := start_inService lengths
  obtain ⟨serving, quiet⟩ := run_atRest atStart.1 atStart.2 wellFormed returned fits
  exact serving.served quiet

/-- A read of three bytes that waits, and a write of three into a pipe of two. -/
theorem jobs_served_three :
    let turns : List (Option Request × (PipeJob → Bool)) :=
      [(some (.registerPipe "p" 2 8 false fun _ => 0), fun _ => true),
        (some (.job true true "p" .w8 3 (fun _ => [0]) fun _ => rfl), fun _ => true),
        (some (.job false true "p" .w8 3 (fun k => [BitVec.ofNat 8 k]) fun _ => rfl), fun _ => true)]
    ∃ h, run turns start = some h ∧ Served h ∧ h.log.length = 6 := by
  intro turns
  have fits : ((run turns start).map fun h => (decide (∀ s ∈ h.log, s.Fits fun _ => .w8), h.log.length)) = some (true, 6) := by
    decide +kernel
  obtain ⟨h, returned, served⟩ := (jobs_served turns (by
    intro t mem r memR
    simp only [turns, List.mem_cons, List.not_mem_nil, or_false] at mem
    rcases mem with rfl | rfl | rfl <;> obtain rfl := Option.some.inj memR
    · exact Nat.two_pos
    · trivial
    · trivial)).2
  rw [returned] at fits
  have both := Prod.mk.inj (Option.some.inj fits)
  exact ⟨h, returned, served _ (of_decide_eq_true both.1), both.2⟩

/-- Nine bytes are counted as written into a pipe that is eight bits wide and holds eight of
them, and a stack of one byte is read in front of its buffer. -/
theorem not_jobs_served :
    let queue : List (Option Request × (PipeJob → Bool)) :=
      [(some (.registerPipe "p" 9 8 false fun _ => 0), fun _ => true),
        (some (.job false true "p" .w8 9 (fun k => [BitVec.ofNat 8 k]) fun _ => rfl), fun _ => true)]
    let stack : List (Option Request × (PipeJob → Bool)) :=
      [(some (.registerPipe "p" 1 8 true fun _ => 0), fun _ => true),
        (some (.job false false "p" .w8 1 (fun _ => [7]) fun _ => rfl), fun _ => true),
        (some (.job true false "p" .w8 1 (fun _ => [0]) fun _ => rfl), fun _ => true)]
    ((run queue start).map fun h => (h.responses.map PipeJob.wordsServed, (h.pipes "p").map PipeRec.numberOfEntries)) =
        some ([9], some 8) ∧
      ((run stack start).map fun h => h.log.map Step.pointer) = some [0, -1] ∧
      ¬ ∀ turns : List (Option Request × (PipeJob → Bool)), (∀ t ∈ turns, ∀ r ∈ t.1, r.WellFormed) →
        ∃ h, run turns start = some h ∧ Served h := by
  intro queue stack
  have entries : ((run queue start).map fun h =>
      ((h.pipes "p").map PipeRec.numberOfEntries, transfersOn "p" h.log)) =
        some (some 8, (List.range 9).map fun k => .stored [BitVec.ofNat 8 k]) := by decide +kernel
  refine ⟨by decide +kernel, by decide +kernel, fun alwaysServed => ?_⟩
  obtain ⟨h, returned, served⟩ := alwaysServed queue (by
    intro t mem r memR
    simp only [queue, List.mem_cons, List.not_mem_nil, or_false] at mem
    rcases mem with rfl | rfl <;> obtain rfl := Option.some.inj memR
    · exact Nat.succ_pos _
    · trivial)
  rw [returned] at entries
  obtain ⟨occupied, stored⟩ := Prod.mk.inj (Option.some.inj entries)
  obtain ⟨p, found, count⟩ := Option.map_eq_some_iff.mp occupied
  obtain ⟨words, length, replayed⟩ := served.delivered "p" p found
  have conserved := replay_length replayed
  rw [stored, length, count] at conserved
  revert conserved
  decide

end Handler
end Ahir.CtestBench
