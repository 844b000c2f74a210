import Mathlib.Data.BitVec
import Ahir.Run.RegisterFile

/-!
# The register bank

`register_bank` is the memory subsystem for few storage locations.  Every load port and
every store port completes one request before it accepts the next; of the stores to one
register the port of lowest index is accepted.
-/

set_option autoImplicit false

namespace Ahir.Hardware.RegisterBank
open Ahir.Run

structure Generics where
  numLoads : Nat
  numStores : Nat
  addrWidth : Nat
  dataWidth : Nat
  tagWidth : Nat
  numRegisters : Nat
  enoughAddressBits : numRegisters ≤ 2 ^ addrWidth

variable {g : Generics}

structure State (g : Generics) where
  registerArray : Nat → BitVec g.dataWidth
  lcAckFlag : Nat → Bool
  lcDataOut : Nat → BitVec g.dataWidth
  lcTagOut : Nat → BitVec g.tagWidth
  scAckFlag : Nat → Bool
  scTagOut : Nat → BitVec g.tagWidth

structure Cycle (g : Generics) where
  lrAddrIn : Nat → BitVec g.addrWidth
  lrTagIn : Nat → BitVec g.tagWidth
  lrReqIn : Nat → Bool
  lcReqIn : Nat → Bool
  srAddrIn : Nat → BitVec g.addrWidth
  srDataIn : Nat → BitVec g.dataWidth
  srTagIn : Nat → BitVec g.tagWidth
  srReqIn : Nat → Bool
  scReqIn : Nat → Bool

structure Vars (g : Generics) where
  scAckSet : Nat → Bool
  scTagOut : Nat → BitVec g.tagWidth
  registerArray : Nat → BitVec g.dataWidth

namespace State
variable (s : State g) (c : Cycle g)

/-- `ack_var` of a load port -/
def lrAckOut (port : Nat) : Bool := c.lrReqIn port && !s.lcAckFlag port

def ready (port : Nat) : Bool := c.srReqIn port && !s.scAckFlag port

/-- The port at which the loop over `W` exits; `sr_pending(REG)` is still low before it. -/
def winner (reg : Nat) : Option Nat :=
  (List.range g.numStores).find? fun port => s.ready c port && decide (c.srAddrIn port = BitVec.ofNat g.addrWidth reg)

/-- A turn of the loop over `REG`. -/
def writeRegister (vars : Vars g) (reg : Nat) : Vars g :=
  match s.winner c reg with
  | none => vars
  | some port =>
      { scAckSet := Function.update vars.scAckSet port true
        scTagOut := Function.update vars.scTagOut port (c.srTagIn port)
        registerArray := Function.update vars.registerArray reg (c.srDataIn port) }

def writes : Vars g :=
  (List.range g.numRegisters).foldl (s.writeRegister c) ⟨fun _ => false, s.scTagOut, s.registerArray⟩

def srAckOut (port : Nat) : Bool := (s.writes c).scAckSet port

def edge (reset : Bool) : State g where
  registerArray := (s.writes c).registerArray
  lcAckFlag := fun port =>
    if reset then false
    else if s.lrAckOut c port then true
    else if s.lcAckFlag port && c.lcReqIn port then false
    else s.lcAckFlag port
  lcDataOut := fun port =>
    if s.lrAckOut c port then s.registerArray (c.lrAddrIn port).toNat else s.lcDataOut port
  lcTagOut := fun port => if s.lrAckOut c port then c.lrTagIn port else s.lcTagOut port
  scAckFlag := fun port =>
    if s.srAckOut c port then true
    else if reset || s.scAckFlag port && c.scReqIn port then false
    else s.scAckFlag port
  scTagOut := (s.writes c).scTagOut

def run (s : State g) (cs : List (Cycle g)) : State g := cs.foldl (fun s c => s.edge c false) s

/-! ### The stores of a cycle -/

theorem winner_eq_some {reg port : Nat} : s.winner c reg = some port ↔
    port < g.numStores ∧ s.ready c port = true ∧ c.srAddrIn port = BitVec.ofNat g.addrWidth reg ∧
      ∀ lower < port, s.ready c lower = true → c.srAddrIn lower ≠ BitVec.ofNat g.addrWidth reg := by
  unfold winner
  simp only [List.find?_range_eq_some, Bool.and_eq_true, decide_eq_true_eq, List.mem_range, Bool.not_eq_true',
    Bool.and_eq_false_iff, decide_eq_false_iff_not]
  constructor
  · rintro ⟨⟨isReady, address⟩, isPort, first⟩
    refine ⟨isPort, isReady, address, fun lower below readyLower => ?_⟩
    rcases first lower below with notReady | other
    · rw [readyLower] at notReady
      cases notReady
    · exact other
  · rintro ⟨isPort, isReady, address, first⟩
    refine ⟨⟨isReady, address⟩, isPort, fun lower below => ?_⟩
    cases readyLower : s.ready c lower with
    | false => exact Or.inl rfl
    | true => exact Or.inr (first lower below readyLower)

structure Written (n : Nat) (vars : Vars g) : Prop where
  scAckSet : ∀ port, vars.scAckSet port = true ↔ ∃ reg < n, s.winner c reg = some port
  scTagOut : ∀ port, vars.scTagOut port = if vars.scAckSet port then c.srTagIn port else s.scTagOut port
  registerArray : ∀ reg, vars.registerArray reg =
    if reg < n then ((s.winner c reg).map c.srDataIn).getD (s.registerArray reg) else s.registerArray reg

theorem written (n : Nat) :
    s.Written c n ((List.range n).foldl (s.writeRegister c) ⟨fun _ => false, s.scTagOut, s.registerArray⟩) := by
  induction n with
  | zero =>
      refine ⟨fun port => ⟨fun set => Bool.noConfusion set, ?_⟩, fun port => rfl, fun reg => rfl⟩
      rintro ⟨reg, below, -⟩
      exact absurd below (Nat.not_lt_zero reg)
  | succ n ih =>
      rw [List.range_succ, List.foldl_append, List.foldl_cons, List.foldl_nil]
      generalize (List.range n).foldl (s.writeRegister c) _ = vars at ih
      cases won : s.winner c n with
      | none =>
          have same : s.writeRegister c vars n = vars := by rw [writeRegister, won]
          rw [same]
          refine ⟨fun port => (ih.scAckSet port).trans ⟨?_, ?_⟩, ih.scTagOut, fun reg => ?_⟩
          · rintro ⟨reg, below, wins⟩
            exact ⟨reg, by omega, wins⟩
          · rintro ⟨reg, below, wins⟩
            rcases Nat.lt_succ_iff_lt_or_eq.mp below with before | rfl
            · exact ⟨reg, before, wins⟩
            · rw [won] at wins
              cases wins
          · rw [ih.registerArray]
            by_cases before : reg < n
            · rw [if_pos before, if_pos (by omega)]
            · rw [if_neg before]
              by_cases last : reg = n
              · rw [last, if_pos (Nat.lt_succ_self n), won]
                rfl
              · rw [if_neg (by omega)]
      | some port =>
          have turn : s.writeRegister c vars n =
              { scAckSet := Function.update vars.scAckSet port true
                scTagOut := Function.update vars.scTagOut port (c.srTagIn port)
                registerArray := Function.update vars.registerArray n (c.srDataIn port) } := by
            rw [writeRegister, won]
          rw [turn]
          refine ⟨fun other => ?_, fun other => ?_, fun reg => ?_⟩
          · by_cases same : other = port
            · subst same
              exact ⟨fun _ => ⟨n, Nat.lt_succ_self n, won⟩, fun _ => Function.update_self _ _ _⟩
            · change Function.update vars.scAckSet port true other = true ↔ _
              rw [Function.update_of_ne same, ih.scAckSet]
              constructor
              · rintro ⟨reg, below, wins⟩
                exact ⟨reg, by omega, wins⟩
              · rintro ⟨reg, below, wins⟩
                rcases Nat.lt_succ_iff_lt_or_eq.mp below with before | rfl
                · exact ⟨reg, before, wins⟩
                · rw [won] at wins
                  exact absurd (Option.some.inj wins).symm same
          · by_cases same : other = port
            · subst same
              simp only [Function.update_self, if_true]
            · simp only [Function.update_of_ne same]
              exact ih.scTagOut other
          · by_cases last : reg = n
            · subst last
              simp only [Function.update_self, if_pos (Nat.lt_succ_self _), won, Option.map_some, Option.getD_some]
            · simp only [Function.update_of_ne last, ih.registerArray]
              by_cases before : reg < n
              · rw [if_pos before, if_pos (by omega)]
              · rw [if_neg before, if_neg (by omega)]

theorem eq_ofNat_iff (address : BitVec g.addrWidth) {reg : Nat} (inside : reg < g.numRegisters) :
    address = BitVec.ofNat g.addrWidth reg ↔ address.toNat = reg := by
  rw [← BitVec.toNat_inj, BitVec.toNat_ofNat, Nat.mod_eq_of_lt (inside.trans_le g.enoughAddressBits)]

/-- Of the ready ports that store to one register the lowest is accepted. -/
theorem srAckOut_iff (port : Nat) : s.srAckOut c port = true ↔
    port < g.numStores ∧ s.ready c port = true ∧ (c.srAddrIn port).toNat < g.numRegisters ∧
      ∀ lower < port, s.ready c lower = true → c.srAddrIn lower ≠ c.srAddrIn port := by
  refine ((s.written c g.numRegisters).scAckSet port).trans ⟨?_, ?_⟩
  · rintro ⟨reg, inside, wins⟩
    obtain ⟨isPort, isReady, address, first⟩ := (s.winner_eq_some c).mp wins
    have number := (eq_ofNat_iff _ inside).mp address
    exact ⟨isPort, isReady, number.symm ▸ inside, fun lower below readyLower => address.symm ▸ first lower below readyLower⟩
  · rintro ⟨isPort, isReady, inside, first⟩
    have address := (eq_ofNat_iff (c.srAddrIn port) inside).mpr rfl
    exact ⟨_, inside, (s.winner_eq_some c).mpr
      ⟨isPort, isReady, address, fun lower below readyLower => address ▸ first lower below readyLower⟩⟩

theorem srAckOut_unique {p q : Nat} (ackP : s.srAckOut c p = true) (ackQ : s.srAckOut c q = true)
    (same : c.srAddrIn p = c.srAddrIn q) : p = q := by
  obtain ⟨-, readyP, -, firstP⟩ := (s.srAckOut_iff c p).mp ackP
  obtain ⟨-, readyQ, -, firstQ⟩ := (s.srAckOut_iff c q).mp ackQ
  rcases Nat.lt_trichotomy p q with below | rfl | above
  · exact absurd same (firstQ p below readyP)
  · rfl
  · exact absurd same.symm (firstP q above readyQ)

/-- A ready store is accepted, or one of a lower port to the same register is. -/
theorem srAckOut_some (port : Nat) (isPort : port < g.numStores) (isReady : s.ready c port = true)
    (inside : (c.srAddrIn port).toNat < g.numRegisters) :
    ∃ p ≤ port, s.srAckOut c p = true ∧ c.srAddrIn p = c.srAddrIn port := by
  induction port using Nat.strong_induction_on with
  | _ port ih =>
      by_cases first : ∀ lower < port, s.ready c lower = true → c.srAddrIn lower ≠ c.srAddrIn port
      · exact ⟨port, Nat.le_refl _, (s.srAckOut_iff c port).mpr ⟨isPort, isReady, inside, first⟩, rfl⟩
      · push Not at first
        obtain ⟨lower, below, readyLower, same⟩ := first
        obtain ⟨p, within, accepted, address⟩ := ih lower below (by omega) readyLower (same ▸ inside)
        exact ⟨p, by omega, accepted, address.trans same⟩

/-! ### The accesses of a cycle -/

def loadRequest (port : Nat) : Option (Nat × BitVec g.tagWidth) :=
  if s.lrAckOut c port then some ((c.lrAddrIn port).toNat, c.lrTagIn port) else none

def storeRequest (port : Nat) : Option (Nat × BitVec g.dataWidth × BitVec g.tagWidth) :=
  if s.srAckOut c port then some ((c.srAddrIn port).toNat, c.srDataIn port, c.srTagIn port) else none

def accesses : List (Access (BitVec g.dataWidth) (BitVec g.tagWidth)) :=
  Access.loads g.numLoads (s.loadRequest c) ++ Access.stores g.numStores (s.storeRequest c)

theorem storeRequest_eq_some {port : Nat} {x : Nat × BitVec g.dataWidth × BitVec g.tagWidth} :
    s.storeRequest c port = some x ↔
      s.srAckOut c port = true ∧ ((c.srAddrIn port).toNat, c.srDataIn port, c.srTagIn port) = x := by
  unfold storeRequest
  cases s.srAckOut c port <;> simp

theorem registerArray_edge (reset : Bool) :
    (s.edge c reset).registerArray = (s.accesses c).foldl Access.perform s.registerArray := by
  have free : ∀ p q x y, s.storeRequest c p = some x → s.storeRequest c q = some y → x.1 = y.1 → p = q := by
    intro p q x y askedP askedQ same
    obtain ⟨ackP, rfl⟩ := (s.storeRequest_eq_some c).mp askedP
    obtain ⟨ackQ, rfl⟩ := (s.storeRequest_eq_some c).mp askedQ
    exact s.srAckOut_unique c ackP ackQ (BitVec.eq_of_toNat_eq same)
  funext reg
  rw [accesses, List.foldl_append, Access.perform_loads]
  refine ((s.written c g.numRegisters).registerArray reg).trans ?_
  cases wins : s.winner c reg with
  | none =>
      rw [Option.map_none, Option.getD_none, ite_self]
      refine (Access.perform_stores_other _ fun port _ x asked => ?_).symm
      obtain ⟨accepted, rfl⟩ := (s.storeRequest_eq_some c).mp asked
      rintro rfl
      obtain ⟨isPort, isReady, inside, first⟩ := (s.srAckOut_iff c port).mp accepted
      have address := (eq_ofNat_iff (c.srAddrIn port) inside).mpr rfl
      have won := (s.winner_eq_some c).mpr
        ⟨isPort, isReady, address, fun lower below readyLower => address ▸ first lower below readyLower⟩
      rw [wins] at won
      cases won
  | some port =>
      by_cases inside : reg < g.numRegisters
      · have accepted : s.srAckOut c port = true := ((s.written c g.numRegisters).scAckSet port).mpr ⟨reg, inside, wins⟩
        obtain ⟨isPort, -, address, -⟩ := (s.winner_eq_some c).mp wins
        have asked := (s.storeRequest_eq_some c).mpr ⟨accepted, rfl⟩
        have stored := Access.perform_stores_at s.registerArray free isPort asked
        rw [(eq_ofNat_iff _ inside).mp address] at stored
        rw [if_pos inside, stored]
        rfl
      · rw [if_neg inside]
        refine (Access.perform_stores_other _ fun port _ x asked => ?_).symm
        obtain ⟨accepted, rfl⟩ := (s.storeRequest_eq_some c).mp asked
        rintro rfl
        exact inside ((s.srAckOut_iff c port).mp accepted).2.2.1

/-! ### Completions -/

def pendingLoad (port : Nat) : List (BitVec g.dataWidth × BitVec g.tagWidth) :=
  if s.lcAckFlag port then [(s.lcDataOut port, s.lcTagOut port)] else []

def loadTaken (port : Nat) : List (BitVec g.dataWidth × BitVec g.tagWidth) :=
  if s.lcAckFlag port && c.lcReqIn port then [(s.lcDataOut port, s.lcTagOut port)] else []

def pendingStore (port : Nat) : List (BitVec g.tagWidth) := if s.scAckFlag port then [s.scTagOut port] else []

def storeTaken (port : Nat) : List (BitVec g.tagWidth) :=
  if s.scAckFlag port && c.scReqIn port then [s.scTagOut port] else []

theorem pendingLoad_step {port : Nat} (isPort : port < g.numLoads) :
    s.pendingLoad port ++ Access.answers port s.registerArray (s.accesses c) =
      s.loadTaken c port ++ (s.edge c false).pendingLoad port := by
  have answer : Access.answers port s.registerArray (s.accesses c) =
      ((s.loadRequest c port).map fun x => (s.registerArray x.1, x.2)).toList := by
    rw [accesses, Access.answers_append, Access.answers_loads _ _ isPort, Access.answers_stores, List.append_nil]
  rw [answer]
  cases flag : s.lcAckFlag port <;> cases ask : c.lrReqIn port <;> cases take : c.lcReqIn port <;>
    simp [pendingLoad, loadTaken, loadRequest, edge, lrAckOut, flag, ask, take]

theorem not_srAckOut_of_pending {port : Nat} (flag : s.scAckFlag port = true) : s.srAckOut c port = false := by
  refine Bool.eq_false_iff.mpr fun accepted => ?_
  have isReady := ((s.srAckOut_iff c port).mp accepted).2.1
  rw [ready, flag, Bool.not_true, Bool.and_false] at isReady
  cases isReady

theorem confirmations_accesses {port : Nat} (isPort : port < g.numStores) :
    Access.confirmations port (s.accesses c) = if s.srAckOut c port then [c.srTagIn port] else [] := by
  rw [accesses, Access.confirmations_append, Access.confirmations_loads, List.nil_append,
    Access.confirmations_stores _ isPort, storeRequest]
  cases s.srAckOut c port <;> rfl

theorem pendingStore_step {port : Nat} (isPort : port < g.numStores) :
    s.pendingStore port ++ Access.confirmations port (s.accesses c) =
      s.storeTaken c port ++ (s.edge c false).pendingStore port := by
  have tag : (s.edge c false).scTagOut port = if s.srAckOut c port then c.srTagIn port else s.scTagOut port :=
    (s.written c g.numRegisters).scTagOut port
  rw [s.confirmations_accesses c isPort, pendingStore, pendingStore, tag]
  cases flag : s.scAckFlag port with
  | false => cases accepted : s.srAckOut c port <;> simp [storeTaken, edge, flag, accepted]
  | true =>
      have refused := s.not_srAckOut_of_pending c flag
      cases take : c.scReqIn port <;> simp [storeTaken, edge, flag, refused, take]

/-! ### Runs -/

/-- The accesses that are accepted in a run, cycle by cycle, in each the loads before the stores. -/
def history : State g → List (Cycle g) → List (Access (BitVec g.dataWidth) (BitVec g.tagWidth))
  | _, [] => []
  | s, c :: cs => s.accesses c ++ history (s.edge c false) cs

def loadsTaken (port : Nat) : State g → List (Cycle g) → List (BitVec g.dataWidth × BitVec g.tagWidth)
  | _, [] => []
  | s, c :: cs => s.loadTaken c port ++ loadsTaken port (s.edge c false) cs

def storesTaken (port : Nat) : State g → List (Cycle g) → List (BitVec g.tagWidth)
  | _, [] => []
  | s, c :: cs => s.storeTaken c port ++ storesTaken port (s.edge c false) cs

theorem registerArray_run (cs : List (Cycle g)) :
    ∀ s : State g, (s.run cs).registerArray = (s.history cs).foldl Access.perform s.registerArray := by
  induction cs with
  | nil => exact fun _ => rfl
  | cons c cs ih =>
      intro s
      rw [history, List.foldl_append, ← s.registerArray_edge c false]
      exact ih (s.edge c false)

theorem loads_run {port : Nat} (isPort : port < g.numLoads) (cs : List (Cycle g)) :
    ∀ s : State g, s.pendingLoad port ++ Access.answers port s.registerArray (s.history cs) =
      s.loadsTaken port cs ++ (s.run cs).pendingLoad port := by
  induction cs with
  | nil => exact fun s => List.append_nil _
  | cons c cs ih =>
      intro s
      calc s.pendingLoad port ++ Access.answers port s.registerArray (s.history (c :: cs))
          = (s.pendingLoad port ++ Access.answers port s.registerArray (s.accesses c)) ++
              Access.answers port (s.edge c false).registerArray ((s.edge c false).history cs) := by
            rw [history, Access.answers_append, registerArray_edge, List.append_assoc]
        _ = s.loadTaken c port ++ ((s.edge c false).loadsTaken port cs ++ ((s.edge c false).run cs).pendingLoad port) := by
            rw [s.pendingLoad_step c isPort, List.append_assoc, ih (s.edge c false)]
        _ = s.loadsTaken port (c :: cs) ++ (s.run (c :: cs)).pendingLoad port := (List.append_assoc _ _ _).symm

theorem stores_run {port : Nat} (isPort : port < g.numStores) (cs : List (Cycle g)) :
    ∀ s : State g, s.pendingStore port ++ Access.confirmations port (s.history cs) =
      s.storesTaken port cs ++ (s.run cs).pendingStore port := by
  induction cs with
  | nil => exact fun s => List.append_nil _
  | cons c cs ih =>
      intro s
      calc s.pendingStore port ++ Access.confirmations port (s.history (c :: cs))
          = (s.pendingStore port ++ Access.confirmations port (s.accesses c)) ++
              Access.confirmations port ((s.edge c false).history cs) := by
            rw [history, Access.confirmations_append, List.append_assoc]
        _ = s.storeTaken c port ++ ((s.edge c false).storesTaken port cs ++ ((s.edge c false).run cs).pendingStore port) := by
            rw [s.pendingStore_step c isPort, List.append_assoc, ih (s.edge c false)]
        _ = s.storesTaken port (c :: cs) ++ (s.run (c :: cs)).pendingStore port := (List.append_assoc _ _ _).symm

/-- A completed load is offered with its data and tag until it is taken. -/
theorem load_held {port : Nat} (pending : s.lcAckFlag port = true) (waits : c.lcReqIn port = false) :
    (s.edge c false).lcAckFlag port = true ∧ (s.edge c false).lcDataOut port = s.lcDataOut port ∧
      (s.edge c false).lcTagOut port = s.lcTagOut port := by
  simp [edge, lrAckOut, pending, waits]

theorem store_held {port : Nat} (pending : s.scAckFlag port = true) (waits : c.scReqIn port = false) :
    (s.edge c false).scAckFlag port = true ∧ (s.edge c false).scTagOut port = s.scTagOut port := by
  have refused := s.not_srAckOut_of_pending c pending
  have tag := (s.written c g.numRegisters).scTagOut port
  constructor
  · simp [edge, refused, pending, waits]
  · exact tag.trans (if_neg (Bool.eq_false_iff.mp refused))

end State

structure CycleLaw (s : State g) (c : Cycle g) : Prop where
  lowest : ∀ port, s.srAckOut c port = true ↔
    port < g.numStores ∧ s.ready c port = true ∧ (c.srAddrIn port).toNat < g.numRegisters ∧
      ∀ lower < port, s.ready c lower = true → c.srAddrIn lower ≠ c.srAddrIn port
  one : ∀ p q, s.srAckOut c p = true → s.srAckOut c q = true → c.srAddrIn p = c.srAddrIn q → p = q
  served : ∀ port < g.numStores, s.ready c port = true → (c.srAddrIn port).toNat < g.numRegisters →
    ∃ p ≤ port, s.srAckOut c p = true ∧ c.srAddrIn p = c.srAddrIn port
  pending : ∀ port, (s.lcAckFlag port = true → s.lrAckOut c port = false) ∧
    (s.scAckFlag port = true → s.srAckOut c port = false)
  loadHeld : ∀ port, s.lcAckFlag port = true → c.lcReqIn port = false →
    (s.edge c false).lcAckFlag port = true ∧ (s.edge c false).lcDataOut port = s.lcDataOut port ∧
      (s.edge c false).lcTagOut port = s.lcTagOut port
  storeHeld : ∀ port, s.scAckFlag port = true → c.scReqIn port = false →
    (s.edge c false).scAckFlag port = true ∧ (s.edge c false).scTagOut port = s.scTagOut port

theorem cycleLaw (s : State g) (c : Cycle g) : CycleLaw s c where
  lowest := s.srAckOut_iff c
  one := fun _ _ => s.srAckOut_unique c
  served := s.srAckOut_some c
  pending := fun port => ⟨fun flag => by rw [State.lrAckOut, flag, Bool.not_true, Bool.and_false],
    s.not_srAckOut_of_pending c⟩
  loadHeld := fun _ => s.load_held c
  storeHeld := fun _ => s.store_held c

/-- From a reset on, the bank behaves as a register file that performs the accepted accesses
one after another; the stores of the cycle of the reset count too. -/
theorem registerBank_linearizable (g : Generics) (s : State g) (c : Cycle g) (cs : List (Cycle g)) :
    let start := s.edge c true
    (start.run cs).registerArray = (s.accesses c ++ start.history cs).foldl Access.perform s.registerArray ∧
    (∀ port < g.numLoads, Access.answers port start.registerArray (start.history cs) =
      start.loadsTaken port cs ++ (start.run cs).pendingLoad port) ∧
    (∀ port < g.numStores, Access.confirmations port (s.accesses c ++ start.history cs) =
      start.storesTaken port cs ++ (start.run cs).pendingStore port) ∧
    ∀ next, CycleLaw (start.run cs) next := by
  intro start
  refine ⟨?_, fun port isPort => start.loads_run isPort cs, fun port isPort => ?_, fun next => cycleLaw _ next⟩
  · rw [List.foldl_append, ← s.registerArray_edge c true]
    exact State.registerArray_run cs start
  · have atReset : Access.confirmations port (s.accesses c) = start.pendingStore port := by
      have tag : start.scTagOut port = if s.srAckOut c port then c.srTagIn port else s.scTagOut port :=
        (s.written c g.numRegisters).scTagOut port
      have flag : start.scAckFlag port = s.srAckOut c port := by
        change (if s.srAckOut c port then true else if true || _ then false else _) = _
        cases s.srAckOut c port <;> rfl
      rw [s.confirmations_accesses c isPort, State.pendingStore, tag, flag]
      cases s.srAckOut c port <;> rfl
    rw [Access.confirmations_append, atReset]
    exact start.stores_run isPort cs

/-- Two ports store to register 1 at once, and it is loaded in every cycle in which the
port is free. -/
theorem registerBank_linearizable_conflict :
    let g : Generics := ⟨1, 2, 1, 8, 4, 2, by decide⟩
    let s : State g := ⟨fun _ => 0, fun _ => false, fun _ => 0, fun _ => 0, fun _ => false, fun _ => 0⟩
    let idle : Cycle g :=
      ⟨fun _ => 1, fun _ => 3, fun _ => false, fun _ => true, fun _ => 1, fun _ => 0, fun _ => 0, fun _ => false, fun _ => true⟩
    let busy : Cycle g := { idle with
      lrReqIn := fun _ => true, srReqIn := fun _ => true
      srDataIn := fun port => if port = 0 then 5 else 6, srTagIn := fun port => if port = 0 then 1 else 2 }
    let start := s.edge idle true
    let cs := [busy, busy, busy, idle]
    start.loadsTaken 0 cs = [(0, 3), (6, 3)] ∧
      Access.confirmations 1 (s.accesses idle ++ start.history cs) =
        start.storesTaken 1 cs ++ (start.run cs).pendingStore 1 := by
  intro g s idle busy start cs
  exact ⟨by decide, (registerBank_linearizable g s idle cs).2.2.1 1 (by decide)⟩

end Ahir.Hardware.RegisterBank
