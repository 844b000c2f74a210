import Ahir.BitVectors.Values
import Ahir.PipeHandler.BitVectorPipe

/-!
# Matching RTL and Aa pipes

An RTL thread reaches a pipe by probing a matcher until it has the acknowledge; a thread of
the matcher reads or writes the pipe.  The two threads are interleaved step by step.  A
transfer is one step: the pipes pass whole vectors.
-/

set_option autoImplicit false

namespace Ahir.RtlMatcher
open Ahir.Data Ahir.BitVectors

variable {w : Nat}

/-- The bit vectors of the width of the pipe. -/
def Vec (w : Nat) : Type := { x : BitVector // x.width = w }

instance : DecidableEq (Vec w) := inferInstanceAs (DecidableEq { x : BitVector // x.width = w })

abbrev Words (w : Nat) : Type := List (BitVec (PipeHandler.wordSize w))

def wordsValue (words : Words w) : BitVec w := lowBits w (bitAt (PipeHandler.BitVector.ofPayload words).byteArray)

namespace Vec

def value (x : Vec w) : BitVec w := x.1.residue w

/-- `bit_vector_bitcast_to_bit_vector` -/
def bitcast (dest src : Vec w) : Vec w := ⟨BitVector.cast false dest.1 src.1, (BitVector.width_cast _ _ _).trans dest.2⟩

/-- `init_bit_vector` with the width of another vector. -/
def init (x : Vec w) : Vec w := ⟨x.1.clear, x.2⟩

theorem length_bytes (x : Vec w) : x.1.bytes.length = PipeHandler.nBytes w := by
  rw [x.1.length_bytes, x.2]
  rfl

/-- `write_bit_vector_to_pipe` -/
def payload (x : Vec w) : Words w := PipeHandler.BitVector.payload ⟨x.1.bytes, x.length_bytes⟩

/-- `read_bit_vector_from_pipe` -/
def read (x : Vec w) (words : Words w) : Vec w :=
  ⟨{ x.1.clear with
      bytes := (PipeHandler.BitVector.ofPayload words : PipeHandler.BitVector w).byteArray
      length_bytes := by
        rw [PipeHandler.BitVector.size]
        exact congrArg nbytes x.2.symm }, x.2⟩

theorem value_bitcast (dest src : Vec w) : (dest.bitcast src).value = src.value := by
  refine lowBits_congr fun i below => ?_
  refine (BitVector.cast_spec false dest.1 src.1 (by rw [dest.2]; exact below)).1.trans (if_pos ?_)
  rw [src.2]
  exact below

theorem wordsValue_payload (x : Vec w) : wordsValue x.payload = x.value := by
  rw [wordsValue, payload, PipeHandler.BitVector.ofPayload_payload]
  rfl

theorem value_read (x : Vec w) (words : Words w) : (x.read words).value = wordsValue words := rfl

end Vec

/-! ### The two threads -/

inductive PipeMatcherState where
  | idle | access | done
  deriving DecidableEq

/-- Where the RTL thread is in `probeMatcher`. -/
inductive ProbePoint where
  | outside | getState | getValue | setIdle | assignValue | setAccess
  deriving DecidableEq

/-- Where the thread of the matcher is; in `fetchFromPipe` and in `sendToPipe` it has `tmp_val`. -/
inductive TransferPoint (w : Nat) where
  | getState
  | readPipe
  | assignValue (tmpVal : Vec w)
  | getValue
  | writePipe (tmpVal : Vec w)
  | setDone

structure Matching (w : Nat) where
  value : Vec w
  state : PipeMatcherState
  probe : ProbePoint
  /-- the arguments of the probe -/
  req : Bool
  accessVal : Vec w
  /-- the last probe had a request and no acknowledge -/
  waiting : Bool
  transfer : TransferPoint w
  pipe : List (Words w)
  /-- the values of the acknowledged accesses -/
  acknowledged : List (BitVec w)
  /-- what the matcher has written to the pipe or read from it -/
  transferred : List (BitVec w)
  /-- what the Aa side has read from the pipe or written to it -/
  aaSide : List (BitVec w)

inductive Action (w : Nat) where
  | callProbe (req : Bool) (accessVal : Vec w)
  | probe
  | transfer
  | aaWrite (words : Words w)
  | aaRead

namespace Matching
variable (writeFlag : Bool) (depth : Nat) (s : Matching w)

/-- The RTL thread holds its request, and the value to be written, until it has the acknowledge. -/
def callProbe (req : Bool) (accessVal : Vec w) : Option (Matching w) :=
  if s.probe = .outside ∧ (s.waiting = true → req = true ∧ (writeFlag = true → accessVal = s.accessVal)) then
    some { s with probe := .getState, req := req, accessVal := accessVal }
  else none

/-- The caller has a zero for the acknowledge that `probeMatcher` does not assign. -/
def probeStep : Option (Matching w) :=
  match s.probe with
  | .outside => none
  | .getState =>
      match s.state with
      | .done =>
          if s.req then some { s with probe := if writeFlag then .setIdle else .getValue }
          else some { s with probe := .outside, waiting := s.req }
      | .access => some { s with probe := .outside, waiting := s.req }
      | .idle =>
          if s.req then some { s with probe := if writeFlag then .assignValue else .setAccess }
          else some { s with probe := .outside, waiting := s.req }
  | .getValue => some { s with probe := .setIdle, accessVal := s.accessVal.bitcast s.value }
  | .setIdle =>
      some { s with
        probe := .outside, state := .idle, waiting := false
        acknowledged := s.acknowledged ++ [s.accessVal.value] }
  | .assignValue => some { s with probe := .setAccess, value := s.value.bitcast s.accessVal }
  | .setAccess => some { s with probe := .outside, state := .access, waiting := s.req }

/-- `Rtl2AaPipeTransferMatcher` for a pipe that the RTL side writes, `Aa2RtlPipeTransferMatcher`
for one that it reads.  The accesses to the pipe block. -/
def transferStep : Option (Matching w) :=
  match s.transfer with
  | .getState =>
      if s.state = .access then some { s with transfer := if writeFlag then .getValue else .readPipe } else some s
  | .readPipe =>
      match s.pipe with
      | [] => none
      | words :: rest =>
          some { s with
            transfer := .assignValue (s.value.init.read words), pipe := rest
            transferred := s.transferred ++ [wordsValue words] }
  | .assignValue tmpVal => some { s with transfer := .setDone, value := s.value.bitcast tmpVal }
  | .getValue => some { s with transfer := .writePipe (s.value.init.bitcast s.value) }
  | .writePipe tmpVal =>
      if s.pipe.length < depth then
        some { s with
          transfer := .setDone, pipe := s.pipe ++ [tmpVal.payload]
          transferred := s.transferred ++ [wordsValue tmpVal.payload] }
      else none
  | .setDone => some { s with transfer := .getState, state := .done }

def aaWrite (words : Words w) : Option (Matching w) :=
  if writeFlag = false ∧ s.pipe.length < depth then
    some { s with pipe := s.pipe ++ [words], aaSide := s.aaSide ++ [wordsValue words] }
  else none

def aaRead : Option (Matching w) :=
  match writeFlag, s.pipe with
  | true, words :: rest => some { s with pipe := rest, aaSide := s.aaSide ++ [wordsValue words] }
  | _, _ => none

def step : Action w → Option (Matching w)
  | .callProbe req accessVal => s.callProbe writeFlag req accessVal
  | .probe => s.probeStep writeFlag
  | .transfer => s.transferStep writeFlag depth
  | .aaWrite words => s.aaWrite writeFlag depth words
  | .aaRead => s.aaRead writeFlag

/-- A schedule of the threads, none of whose steps is blocked. -/
def run : Matching w → List (Action w) → Option (Matching w)
  | s, [] => some s
  | s, a :: rest => (s.step writeFlag depth a).bind fun s' => run s' rest

/-- The record that `makePipeMatcher` sets up, and threads that have not begun. The function has no
return statement; its callers take what it allocates for its result. -/
def start (value accessVal : Vec w) : Matching w where
  value := value
  state := .idle
  probe := .outside
  req := false
  accessVal := accessVal
  waiting := false
  transfer := .getState
  pipe := []
  acknowledged := []
  transferred := []
  aaSide := []

/-! ### What holds in every interleaving -/

/-- Only the RTL thread leaves the states idle and done, and only the thread of the matcher
leaves the state access. -/
def Phase (writeFlag : Bool) (s : Matching w) : Prop :=
  match s.state with
  | .idle => s.transfer = .getState ∧ s.waiting = false ∧
      match s.probe with
      | .outside | .getState => True
      | .assignValue => s.req = true ∧ writeFlag = true
      | .setAccess => s.req = true ∧ (writeFlag = true → s.value.value = s.accessVal.value)
      | .getValue | .setIdle => False
  | .access => (s.waiting = true ∧ s.req = true ∧ (s.probe = .outside ∨ s.probe = .getState) ∧
        (writeFlag = true → s.value.value = s.accessVal.value)) ∧
      match s.transfer with
      | .getState | .setDone => True
      | .readPipe | .assignValue _ => writeFlag = false
      | .getValue => writeFlag = true
      | .writePipe tmpVal => writeFlag = true ∧ tmpVal.value = s.value.value
  | .done => (s.transfer = .getState ∧ s.waiting = true ∧ s.req = true ∧
        (writeFlag = true → s.value.value = s.accessVal.value)) ∧
      match s.probe with
      | .outside | .getState => True
      | .getValue => writeFlag = false
      | .setIdle => s.accessVal.value = s.value.value
      | .assignValue | .setAccess => False

def pending (s : Matching w) : List (BitVec w) :=
  match s.transfer with
  | .assignValue tmpVal => [tmpVal.value]
  | .setDone => [s.value.value]
  | _ => if s.state = .done then [s.value.value] else []

/-- The pipe has what the one side has written and the other has not read. -/
def Carried (writeFlag : Bool) (s : Matching w) : Prop :=
  if writeFlag then s.transferred = s.aaSide ++ s.pipe.map wordsValue
  else s.aaSide = s.transferred ++ s.pipe.map wordsValue

structure Inv (writeFlag : Bool) (s : Matching w) : Prop where
  phase : s.Phase writeFlag
  account : s.transferred = s.acknowledged ++ s.pending
  carried : s.Carried writeFlag

variable {writeFlag depth s} {s' : Matching w}

theorem inv_start (value accessVal : Vec w) : (start value accessVal).Inv writeFlag := by
  refine ⟨⟨rfl, rfl, trivial⟩, rfl, ?_⟩
  cases writeFlag <;> rfl

theorem Inv.callProbe (inv : s.Inv writeFlag) {request : Bool} {newVal : Vec w}
    (stepped : s.callProbe writeFlag request newVal = some s') : s'.Inv writeFlag := by
  obtain ⟨phase, account, carried⟩ := inv
  obtain ⟨value, state, probe, req, accessVal, waiting, transfer, pipe, acknowledged, transferred, aaSide⟩ := s
  unfold Matching.callProbe at stepped
  split at stepped
  next allowed =>
    obtain ⟨-, holds⟩ := allowed
    obtain rfl := Option.some.inj stepped
    refine ⟨?_, account, carried⟩
    cases state with
    | idle => exact ⟨phase.1, phase.2.1, trivial⟩
    | access =>
        obtain ⟨⟨waits, -, -, same⟩, point⟩ := phase
        obtain ⟨held, kept⟩ := holds waits
        exact ⟨⟨waits, held, Or.inr rfl, fun write => (same write).trans (congrArg Vec.value (kept write).symm)⟩, point⟩
    | done =>
        obtain ⟨⟨rest, waits, -, same⟩, -⟩ := phase
        obtain ⟨held, kept⟩ := holds waits
        exact ⟨⟨rest, waits, held, fun write => (same write).trans (congrArg Vec.value (kept write).symm)⟩, trivial⟩
  next => cases stepped

theorem Inv.probeStep (inv : s.Inv writeFlag) (stepped : s.probeStep writeFlag = some s') : s'.Inv writeFlag := by
  obtain ⟨phase, account, carried⟩ := inv
  obtain ⟨value, state, probe, req, accessVal, waiting, transfer, pipe, acknowledged, transferred, aaSide⟩ := s
  cases probe with
  | outside => cases stepped
  | getState =>
      cases state with
      | idle =>
          obtain ⟨rfl, rfl, -⟩ := phase
          cases req with
          | false =>
              obtain rfl := Option.some.inj stepped
              exact ⟨⟨rfl, rfl, trivial⟩, account, carried⟩
          | true =>
              obtain rfl := Option.some.inj stepped
              refine ⟨?_, account, carried⟩
              cases writeFlag with
              | true => exact ⟨rfl, rfl, rfl, rfl⟩
              | false => exact ⟨rfl, rfl, rfl, fun never => Bool.noConfusion never⟩
      | access =>
          obtain ⟨⟨-, rfl, -, same⟩, point⟩ := phase
          obtain rfl := Option.some.inj stepped
          exact ⟨⟨⟨rfl, rfl, Or.inl rfl, same⟩, point⟩, account, carried⟩
      | done =>
          obtain ⟨⟨rfl, rfl, rfl, same⟩, -⟩ := phase
          obtain rfl := Option.some.inj stepped
          refine ⟨?_, account, carried⟩
          cases writeFlag with
          | true => exact ⟨⟨rfl, rfl, rfl, same⟩, (same rfl).symm⟩
          | false => exact ⟨⟨rfl, rfl, rfl, same⟩, rfl⟩
  | getValue =>
      cases state with
      | idle => exact phase.2.2.elim
      | access => rcases phase.1.2.2.1 with never | never <;> cases never
      | done =>
          obtain ⟨⟨rfl, rfl, rfl, -⟩, rfl⟩ := phase
          obtain rfl := Option.some.inj stepped
          exact ⟨⟨⟨rfl, rfl, rfl, fun never => Bool.noConfusion never⟩, accessVal.value_bitcast value⟩, account, carried⟩
  | setIdle =>
      cases state with
      | idle => exact phase.2.2.elim
      | access => rcases phase.1.2.2.1 with never | never <;> cases never
      | done =>
          obtain ⟨⟨rfl, rfl, rfl, -⟩, same⟩ := phase
          obtain rfl := Option.some.inj stepped
          have delivered : transferred = acknowledged ++ [accessVal.value] := by
            rw [show accessVal.value = value.value from same]
            exact account
          exact ⟨⟨rfl, rfl, trivial⟩, delivered.trans (List.append_nil _).symm, carried⟩
  | assignValue =>
      cases state with
      | idle =>
          obtain ⟨rfl, rfl, rfl, -⟩ := phase
          obtain rfl := Option.some.inj stepped
          exact ⟨⟨rfl, rfl, rfl, fun _ => value.value_bitcast accessVal⟩, account, carried⟩
      | access => rcases phase.1.2.2.1 with never | never <;> cases never
      | done => exact phase.2.elim
  | setAccess =>
      cases state with
      | idle =>
          obtain ⟨rfl, rfl, rfl, same⟩ := phase
          obtain rfl := Option.some.inj stepped
          exact ⟨⟨⟨rfl, rfl, Or.inl rfl, same⟩, trivial⟩, account, carried⟩
      | access => rcases phase.1.2.2.1 with never | never <;> cases never
      | done => exact phase.2.elim

/-- The thread of the matcher is at rest unless it has been asked for an access. -/
theorem Phase.access (phase : s.Phase writeFlag) (busy : s.transfer ≠ .getState) : s.state = .access := by
  unfold Phase at phase
  cases state : s.state with
  | idle =>
      rw [state] at phase
      exact absurd phase.1 busy
  | access => rfl
  | done =>
      rw [state] at phase
      exact absurd phase.1.1 busy

theorem Inv.transferStep (inv : s.Inv writeFlag) (stepped : s.transferStep writeFlag depth = some s') :
    s'.Inv writeFlag := by
  have busy := inv.phase.access
  obtain ⟨phase, account, carried⟩ := inv
  obtain ⟨value, state, probe, req, accessVal, waiting, transfer, pipe, acknowledged, transferred, aaSide⟩ := s
  cases transfer with
  | getState =>
      cases state with
      | idle =>
          obtain rfl := Option.some.inj stepped
          exact ⟨phase, account, carried⟩
      | access =>
          obtain rfl := Option.some.inj stepped
          obtain ⟨asked, -⟩ := phase
          cases writeFlag with
          | true => exact ⟨⟨asked, rfl⟩, account, carried⟩
          | false => exact ⟨⟨asked, rfl⟩, account, carried⟩
      | done =>
          obtain rfl := Option.some.inj stepped
          exact ⟨phase, account, carried⟩
  | readPipe =>
      obtain rfl : state = .access := busy nofun
      obtain ⟨asked, rfl⟩ := phase
      cases pipe with
      | nil => cases stepped
      | cons words rest =>
          obtain rfl := Option.some.inj stepped
          refine ⟨⟨asked, rfl⟩, ?_, ?_⟩
          · rw [show transferred = acknowledged ++ [] from account, List.append_nil, ← value.init.value_read words]
            rfl
          · exact (show aaSide = transferred ++ (words :: rest).map wordsValue from carried).trans
              (List.append_cons _ _ _)
  | assignValue tmpVal =>
      obtain rfl : state = .access := busy nofun
      obtain ⟨⟨waits, asked, point, -⟩, rfl⟩ := phase
      obtain rfl := Option.some.inj stepped
      refine ⟨⟨⟨waits, asked, point, fun never => Bool.noConfusion never⟩, trivial⟩, ?_, carried⟩
      exact account.trans (congrArg (fun v => acknowledged ++ [v]) (value.value_bitcast tmpVal).symm)
  | getValue =>
      obtain rfl : state = .access := busy nofun
      obtain ⟨asked, rfl⟩ := phase
      obtain rfl := Option.some.inj stepped
      exact ⟨⟨asked, rfl, value.init.value_bitcast value⟩, account, carried⟩
  | writePipe tmpVal =>
      obtain rfl : state = .access := busy nofun
      obtain ⟨asked, rfl, same⟩ := phase
      have sent : wordsValue tmpVal.payload = value.value := tmpVal.wordsValue_payload.trans same
      simp only [Matching.transferStep] at stepped
      split at stepped
      next =>
        obtain rfl := Option.some.inj stepped
        refine ⟨⟨asked, trivial⟩, ?_, ?_⟩
        · rw [show transferred = acknowledged ++ [] from account, List.append_nil, sent]
          rfl
        · have before : transferred = aaSide ++ pipe.map wordsValue := carried
          change transferred ++ [wordsValue tmpVal.payload] = aaSide ++ (pipe ++ [tmpVal.payload]).map wordsValue
          rw [before, List.map_append, List.append_assoc]
          rfl
      next => cases stepped
  | setDone =>
      obtain rfl : state = .access := busy nofun
      obtain ⟨⟨waits, asked, point, same⟩, -⟩ := phase
      obtain rfl := Option.some.inj stepped
      refine ⟨⟨⟨rfl, waits, asked, same⟩, ?_⟩, account, carried⟩
      rcases point with rfl | rfl
      · trivial
      · trivial

theorem Inv.aaWrite (inv : s.Inv writeFlag) {words : Words w} (stepped : s.aaWrite writeFlag depth words = some s') :
    s'.Inv writeFlag := by
  unfold Matching.aaWrite at stepped
  split at stepped
  next allowed =>
    obtain ⟨rfl, -⟩ := allowed
    obtain rfl := Option.some.inj stepped
    refine ⟨inv.phase, inv.account, ?_⟩
    have before : s.aaSide = s.transferred ++ s.pipe.map wordsValue := inv.carried
    change s.aaSide ++ [wordsValue words] = s.transferred ++ (s.pipe ++ [words]).map wordsValue
    rw [before, List.map_append, List.append_assoc]
    rfl
  next => cases stepped

theorem Inv.aaRead (inv : s.Inv writeFlag) (stepped : s.aaRead writeFlag = some s') : s'.Inv writeFlag := by
  obtain ⟨phase, account, carried⟩ := inv
  obtain ⟨value, state, probe, req, accessVal, waiting, transfer, pipe, acknowledged, transferred, aaSide⟩ := s
  cases writeFlag with
  | false => cases stepped
  | true =>
      cases pipe with
      | nil => cases stepped
      | cons words rest =>
          obtain rfl := Option.some.inj stepped
          refine ⟨phase, account, ?_⟩
          exact (show transferred = aaSide ++ (words :: rest).map wordsValue from carried).trans (List.append_cons _ _ _)

theorem Inv.step {a : Action w} (inv : s.Inv writeFlag) (stepped : s.step writeFlag depth a = some s') :
    s'.Inv writeFlag := by
  cases a with
  | callProbe req accessVal => exact inv.callProbe stepped
  | probe => exact inv.probeStep stepped
  | transfer => exact inv.transferStep stepped
  | aaWrite words => exact inv.aaWrite stepped
  | aaRead => exact inv.aaRead stepped

theorem Inv.run (actions : List (Action w)) :
    ∀ {s : Matching w}, s.Inv writeFlag → s.run writeFlag depth actions = some s' → s'.Inv writeFlag := by
  induction actions with
  | nil =>
      intro s inv ran
      obtain rfl := Option.some.inj ran
      exact inv
  | cons a actions ih =>
      intro s inv ran
      obtain ⟨next, stepped, rest⟩ := Option.bind_eq_some_iff.mp ran
      exact ih (inv.step stepped) rest

/-! ### A request comes to its acknowledge -/

/-- The two threads can go on, without the Aa side, to one more acknowledge. -/
def Completes (writeFlag : Bool) (depth : Nat) (s : Matching w) : Prop :=
  ∃ actions s', (∀ a ∈ actions, ∀ words, a ≠ .aaWrite words ∧ a ≠ .aaRead) ∧
    s.run writeFlag depth actions = some s' ∧ s'.acknowledged.length = s.acknowledged.length + 1

theorem Completes.step {a : Action w} (completes : s'.Completes writeFlag depth)
    (stepped : s.step writeFlag depth a = some s') (own : ∀ words, a ≠ .aaWrite words ∧ a ≠ .aaRead)
    (same : s'.acknowledged = s.acknowledged) : s.Completes writeFlag depth := by
  obtain ⟨actions, last, others, ran, one⟩ := completes
  refine ⟨a :: actions, last, List.forall_mem_cons.mpr ⟨own, others⟩, ?_, same ▸ one⟩
  rw [run, stepped]
  exact ran

theorem completes_setIdle (point : s.probe = .setIdle) : s.Completes writeFlag depth := by
  refine ⟨[.probe], { s with
    probe := .outside, state := .idle, waiting := false
    acknowledged := s.acknowledged ++ [s.accessVal.value] }, ?_, ?_, List.length_append⟩
  · simp
  · simp only [run, Matching.step, Matching.probeStep, point, Option.bind_some]

theorem completes_getValue (point : s.probe = .getValue) : s.Completes writeFlag depth := by
  have stepped : s.step writeFlag depth .probe =
      some { s with probe := .setIdle, accessVal := s.accessVal.bitcast s.value } := by
    simp only [Matching.step, Matching.probeStep, point]
  exact (completes_setIdle rfl).step stepped (fun _ => ⟨nofun, nofun⟩) rfl

theorem completes_getState (point : s.probe = .getState) (state : s.state = .done) (request : s.req = true) :
    s.Completes writeFlag depth := by
  have stepped : s.step writeFlag depth .probe =
      some { s with probe := if writeFlag then .setIdle else .getValue } := by
    simp only [Matching.step, Matching.probeStep, point, state, request, if_true]
  cases writeFlag with
  | true => exact (completes_setIdle rfl).step stepped (fun _ => ⟨nofun, nofun⟩) rfl
  | false => exact (completes_getValue rfl).step stepped (fun _ => ⟨nofun, nofun⟩) rfl

theorem Inv.completes_done (inv : s.Inv writeFlag) (state : s.state = .done) : s.Completes writeFlag depth := by
  have phase := inv.phase
  unfold Phase at phase
  rw [state] at phase
  obtain ⟨⟨-, -, request, -⟩, point⟩ := phase
  cases probe : s.probe with
  | outside =>
      have stepped : s.step writeFlag depth (.callProbe true s.accessVal) = some { s with probe := .getState, req := true } :=
        if_pos ⟨probe, fun _ => ⟨rfl, fun _ => rfl⟩⟩
      have asked : ({ s with probe := .getState, req := true } : Matching w).Completes writeFlag depth :=
        completes_getState rfl state rfl
      exact asked.step stepped (fun _ => ⟨nofun, nofun⟩) rfl
  | getState => exact completes_getState probe state request
  | getValue => exact completes_getValue probe
  | setIdle => exact completes_setIdle probe
  | assignValue =>
      rw [probe] at point
      exact point.elim
  | setAccess =>
      rw [probe] at point
      exact point.elim

theorem Inv.completes_setDone (inv : s.Inv writeFlag) (point : s.transfer = .setDone) : s.Completes writeFlag depth := by
  have stepped : s.step writeFlag depth .transfer = some { s with transfer := .getState, state := .done } := by
    simp only [Matching.step, Matching.transferStep, point]
  exact ((inv.step stepped).completes_done rfl).step stepped (fun _ => ⟨nofun, nofun⟩) rfl

theorem Inv.completes_assignValue (inv : s.Inv writeFlag) {tmpVal : Vec w} (point : s.transfer = .assignValue tmpVal) :
    s.Completes writeFlag depth := by
  have stepped : s.step writeFlag depth .transfer =
      some { s with transfer := .setDone, value := s.value.bitcast tmpVal } := by
    simp only [Matching.step, Matching.transferStep, point]
  exact ((inv.step stepped).completes_setDone rfl).step stepped (fun _ => ⟨nofun, nofun⟩) rfl

theorem Inv.completes_readPipe (inv : s.Inv writeFlag) (point : s.transfer = .readPipe) (some : s.pipe ≠ []) :
    s.Completes writeFlag depth := by
  obtain ⟨words, rest, split⟩ := List.exists_cons_of_ne_nil some
  have stepped : s.step writeFlag depth .transfer = Option.some { s with
      transfer := .assignValue (s.value.init.read words), pipe := rest
      transferred := s.transferred ++ [wordsValue words] } := by
    simp only [Matching.step, Matching.transferStep, point, split]
  exact ((inv.step stepped).completes_assignValue rfl).step stepped (fun _ => ⟨nofun, nofun⟩) rfl

theorem Inv.completes_writePipe (inv : s.Inv writeFlag) {tmpVal : Vec w} (point : s.transfer = .writePipe tmpVal)
    (room : s.pipe.length < depth) : s.Completes writeFlag depth := by
  have stepped : s.step writeFlag depth .transfer = some { s with
      transfer := .setDone, pipe := s.pipe ++ [tmpVal.payload]
      transferred := s.transferred ++ [wordsValue tmpVal.payload] } := by
    simp only [Matching.step, Matching.transferStep, point, if_pos room]
  exact ((inv.step stepped).completes_setDone rfl).step stepped (fun _ => ⟨nofun, nofun⟩) rfl

theorem Inv.completes_getValue (inv : s.Inv writeFlag) (point : s.transfer = .getValue)
    (room : s.pipe.length < depth) : s.Completes writeFlag depth := by
  have stepped : s.step writeFlag depth .transfer =
      some { s with transfer := .writePipe (s.value.init.bitcast s.value) } := by
    simp only [Matching.step, Matching.transferStep, point]
  exact ((inv.step stepped).completes_writePipe rfl room).step stepped (fun _ => ⟨nofun, nofun⟩) rfl

/-- The pipe has room for what is written, or something to be read. -/
def Ready (writeFlag : Bool) (depth : Nat) (s : Matching w) : Prop :=
  if writeFlag then s.pipe.length < depth else s.pipe ≠ []

theorem Inv.completes (inv : s.Inv writeFlag) (waits : s.waiting = true)
    (ready : s.pending = [] → s.Ready writeFlag depth) : s.Completes writeFlag depth := by
  have phase := inv.phase
  unfold Phase at phase
  cases state : s.state with
  | idle =>
      rw [state] at phase
      rw [phase.2.1] at waits
      cases waits
  | done => exact inv.completes_done state
  | access =>
      rw [state] at phase
      obtain ⟨-, mode⟩ := phase
      cases point : s.transfer with
      | setDone => exact inv.completes_setDone point
      | assignValue tmpVal => exact inv.completes_assignValue point
      | readPipe =>
          rw [point] at mode
          obtain rfl : writeFlag = false := mode
          exact inv.completes_readPipe point (ready (by simp [pending, point, state]))
      | getValue =>
          rw [point] at mode
          obtain rfl : writeFlag = true := mode
          exact inv.completes_getValue point (ready (by simp [pending, point, state]))
      | writePipe tmpVal =>
          rw [point] at mode
          obtain ⟨rfl, -⟩ : writeFlag = true ∧ _ := mode
          exact inv.completes_writePipe point (ready (by simp [pending, point, state]))
      | getState =>
          have stepped : s.step writeFlag depth .transfer =
              some { s with transfer := if writeFlag then .getValue else .readPipe } := by
            simp only [Matching.step, Matching.transferStep, point, state, if_true]
          have usable := ready (by simp [pending, point, state])
          cases writeFlag with
          | true =>
              exact ((inv.step stepped).completes_getValue rfl usable).step stepped (fun _ => ⟨nofun, nofun⟩) rfl
          | false =>
              exact ((inv.step stepped).completes_readPipe rfl usable).step stepped (fun _ => ⟨nofun, nofun⟩) rfl

theorem length_pending (s : Matching w) : s.pending.length ≤ 1 := by
  unfold pending
  split
  · exact Nat.le_refl 1
  · exact Nat.le_refl 1
  · split <;> simp

/-- Nothing is pending between the acknowledge of one access and the request for another. -/
theorem Inv.pending_of_not_waiting (inv : s.Inv writeFlag) (rests : s.waiting = false) : s.pending = [] := by
  have phase := inv.phase
  unfold Phase at phase
  cases state : s.state with
  | idle =>
      rw [state] at phase
      simp [pending, phase.1, state]
  | access =>
      rw [state] at phase
      rw [phase.1.1] at rests
      cases rests
  | done =>
      rw [state] at phase
      rw [phase.1.2.1] at rests
      cases rests

/-- What has been written and not acknowledged is what the RTL side holds. -/
theorem Inv.mem_pending (inv : s.Inv true) {v : BitVec w} (member : v ∈ s.pending) : v = s.accessVal.value := by
  have phase := inv.phase
  unfold Phase at phase
  cases state : s.state with
  | idle =>
      rw [state] at phase
      simp [pending, phase.1, state] at member
  | access =>
      rw [state] at phase
      obtain ⟨⟨-, -, -, same⟩, mode⟩ := phase
      cases point : s.transfer with
      | setDone =>
          rw [pending, point] at member
          exact (List.mem_singleton.mp member).trans (same rfl)
      | assignValue tmpVal =>
          rw [point] at mode
          cases mode
      | getState => simp [pending, point, state] at member
      | readPipe => simp [pending, point, state] at member
      | getValue => simp [pending, point, state] at member
      | writePipe tmpVal => simp [pending, point, state] at member
  | done =>
      rw [state] at phase
      obtain ⟨⟨rest, -, -, same⟩, -⟩ := phase
      rw [pending, rest, state] at member
      exact (List.mem_singleton.mp member).trans (same rfl)

end Matching

open Matching

/-- In every interleaving the values transferred are those acknowledged, in order, and at
most one more, of the request that is held; what is between the matcher and the Aa side is
in the pipe.  A request that is held comes to its acknowledge when the pipe is ready. -/
theorem matcher_transfers_once (writeFlag : Bool) (depth : Nat) (value accessVal : Vec w) (actions : List (Action w))
    (s : Matching w) (ran : (start value accessVal).run writeFlag depth actions = some s) :
    s.transferred = s.acknowledged ++ s.pending ∧ s.pending.length ≤ 1 ∧ (s.waiting = false → s.pending = []) ∧
      (if writeFlag then s.transferred = s.aaSide ++ s.pipe.map wordsValue
        else s.aaSide = s.transferred ++ s.pipe.map wordsValue) ∧
      (writeFlag = true → ∀ v ∈ s.pending, v = s.accessVal.value) ∧
      (s.waiting = true → (s.pending = [] → s.Ready writeFlag depth) → s.Completes writeFlag depth) := by
  have inv : s.Inv writeFlag := Inv.run actions (inv_start value accessVal) ran
  refine ⟨inv.account, s.length_pending, inv.pending_of_not_waiting, inv.carried, fun write v member => ?_, inv.completes⟩
  subst write
  exact inv.mem_pending member

/-- The request stays high over the acknowledge, with another value: it is one more access. -/
theorem matcher_transfers_once_two :
    let vec : Byte → Vec 8 := fun byte => ⟨⟨8, [byte], [0], rfl, rfl, by decide⟩, rfl⟩
    let access : Byte → List (Action 8) := fun byte =>
      [.callProbe true (vec byte), .probe, .probe, .probe, .transfer, .callProbe true (vec byte), .transfer, .probe,
        .transfer, .transfer, .callProbe true (vec byte), .probe, .probe]
    ∃ s, (start (vec 0) (vec 0)).run true 2 (access 3 ++ access 5 ++ [.aaRead]) = some s ∧
      s.acknowledged = [3, 5] ∧ s.aaSide = [3] ∧ s.transferred = s.acknowledged ++ s.pending := by
  intro vec access
  have values : ((start (vec 0) (vec 0)).run true 2 (access 3 ++ access 5 ++ [.aaRead])).map
      (fun s => (s.acknowledged, s.aaSide)) = some ([3, 5], [3]) := by decide
  obtain ⟨s, ran, logs⟩ := Option.map_eq_some_iff.mp values
  exact ⟨s, ran, congrArg Prod.fst logs, congrArg Prod.snd logs, (matcher_transfers_once true 2 _ _ _ s ran).1⟩

end Ahir.RtlMatcher
