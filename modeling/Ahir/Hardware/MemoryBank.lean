import Ahir.Data.Bits
import Ahir.Hardware.QueueBase

/-!
# The bank of the unordered memory

`memory_bank` takes loads and stores in turn, one in a cycle, and holds each
result until it is accepted.  Its storage is an array of base banks, `memory_bank_base`:
the rows divide the addresses and the columns the bits of a word.
-/

set_option autoImplicit false

namespace Ahir.Hardware.MemoryBank
open Ahir.Data

/-! ### Base banks -/

structure BaseBank (addrWidth dataWidth : Nat) where
  memArray : BitVec addrWidth → BitVec dataWidth
  addrReg : BitVec addrWidth
  rdEnableReg : Bool
  readDataReg : BitVec dataWidth

namespace BaseBank
variable {addrWidth dataWidth : Nat}

def readData (s : BaseBank addrWidth dataWidth) : BitVec dataWidth := s.memArray s.addrReg

def dataout (s : BaseBank addrWidth dataWidth) : BitVec dataWidth :=
  if s.rdEnableReg then s.readData else s.readDataReg

def next (s : BaseBank addrWidth dataWidth) (datain : BitVec dataWidth) (addrin : BitVec addrWidth)
    (enable writebar : Bool) : BaseBank addrWidth dataWidth where
  memArray := if enable && !writebar then Function.update s.memArray addrin datain else s.memArray
  addrReg := addrin
  rdEnableReg := enable && writebar
  readDataReg := if s.rdEnableReg then s.readData else s.readDataReg

def reset (s : BaseBank addrWidth dataWidth) (datain : BitVec dataWidth) (addrin : BitVec addrWidth)
    (enable writebar : Bool) : BaseBank addrWidth dataWidth :=
  { s.next datain addrin enable writebar with rdEnableReg := false }

end BaseBank

structure Widths where
  addr : Nat
  data : Nat
  baseAddr : Nat
  baseData : Nat
  baseData_pos : 0 < baseData

namespace Widths
variable (g : Widths)

/-- `bank_array_width` -/
def arrayWidth : Nat := ceil g.data g.baseData

/-- `bank_array_height` -/
def arrayHeight : Nat := 2 ^ (g.addr - g.baseAddr)

def row (addrIn : BitVec g.addr) : Nat :=
  if 1 < g.arrayHeight then (addrIn.extractLsb' g.baseAddr (g.addr - g.baseAddr)).toNat else 0

def baseAddrIn (addrIn : BitVec g.addr) : BitVec g.baseAddr := addrIn.setWidth g.baseAddr

/-- `data_in_array` of a column, from the padded word. -/
def column (dataIn : BitVec g.data) (col : Nat) : BitVec g.baseData :=
  (dataIn.setWidth (g.arrayWidth * g.baseData)).extractLsb' (col * g.baseData) g.baseData

def word (columns : Nat → BitVec g.baseData) : BitVec g.data :=
  lowBits g.data fun i => (columns (i / g.baseData)).getLsbD (i % g.baseData)

end Widths

variable {g : Widths}

structure Base (g : Widths) where
  banks : Nat → Nat → BaseBank g.baseAddr g.baseData
  enableArrayReg : Nat → Nat → Bool
  writeBarReg : Bool

namespace Base

/-- `enable_array`: with one row the enable is not decoded. -/
def enableArray (addrIn : BitVec g.addr) (enable : Bool) (row : Nat) : Bool :=
  if 1 < g.arrayHeight then enable && decide (row = g.row addrIn) else enable

def next (s : Base g) (dataIn : BitVec g.data) (addrIn : BitVec g.addr) (enable writeBar : Bool) : Base g where
  banks := fun row col => (s.banks row col).next (g.column dataIn col) (g.baseAddrIn addrIn)
    (enableArray addrIn enable row) writeBar
  enableArrayReg := fun row _ => enableArray addrIn enable row
  writeBarReg := writeBar

/-- The clock edge while the reset is asserted, which does not keep a store out. -/
def reset (s : Base g) (dataIn : BitVec g.data) (addrIn : BitVec g.addr) (enable writeBar : Bool) : Base g where
  banks := fun row col => (s.banks row col).reset (g.column dataIn col) (g.baseAddrIn addrIn)
    (enableArray addrIn enable row) writeBar
  enableArrayReg := fun _ _ => false
  writeBarReg := false

/-- `padded_data_out` of a column: the last row that was read decides. -/
def columnOut (s : Base g) (col : Nat) : BitVec g.baseData :=
  (List.range g.arrayHeight).foldl
    (fun out row => if s.enableArrayReg row col && s.writeBarReg then (s.banks row col).dataout else out) 0

def dataOut (s : Base g) : BitVec g.data := g.word s.columnOut

def contents (s : Base g) (addr : BitVec g.addr) : BitVec g.data :=
  g.word fun col => (s.banks (g.row addr) col).memArray (g.baseAddrIn addr)

end Base

/-! ### The array is one memory -/

namespace Widths

theorem word_column (dataIn : BitVec g.data) : g.word (g.column dataIn) = dataIn := by
  refine lowBits_eq fun i inside => ?_
  have pos := g.baseData_pos
  have division := Nat.div_add_mod i g.baseData
  have fits : i < g.arrayWidth * g.baseData := lt_of_lt_of_le inside (le_ceil_mul g.data pos)
  rw [column, BitVec.getLsbD_extractLsb', BitVec.getLsbD_setWidth, Nat.mul_comm (i / g.baseData), division,
    decide_eq_true (Nat.mod_lt i pos), decide_eq_true fits, Bool.true_and, Bool.true_and]

theorem row_lt (addrIn : BitVec g.addr) : g.row addrIn < g.arrayHeight := by
  unfold row
  split_ifs with tall
  · exact BitVec.isLt _
  · exact Nat.two_pow_pos _

theorem eq_of_row_eq {a b : BitVec g.addr} (rows : g.row a = g.row b) (bases : g.baseAddrIn a = g.baseAddrIn b) :
    a = b := by
  have low := congrArg BitVec.toNat bases
  unfold baseAddrIn at low
  rw [BitVec.toNat_setWidth, BitVec.toNat_setWidth] at low
  apply BitVec.eq_of_toNat_eq
  unfold row arrayHeight at rows
  split_ifs at rows with tall
  · have wide : g.baseAddr < g.addr := by
      by_contra narrow
      rw [Nat.sub_eq_zero_of_le (by omega), pow_zero] at tall
      omega
    rw [BitVec.extractLsb'_toNat, BitVec.extractLsb'_toNat, Nat.shiftRight_eq_div_pow, Nat.shiftRight_eq_div_pow] at rows
    have high : ∀ x : BitVec g.addr, x.toNat / 2 ^ g.baseAddr < 2 ^ (g.addr - g.baseAddr) := by
      intro x
      rw [Nat.div_lt_iff_lt_mul (Nat.two_pow_pos _), ← Nat.pow_add, Nat.sub_add_cancel (by omega)]
      exact x.isLt
    rw [Nat.mod_eq_of_lt (high a), Nat.mod_eq_of_lt (high b)] at rows
    rw [← Nat.div_add_mod a.toNat (2 ^ g.baseAddr), ← Nat.div_add_mod b.toNat (2 ^ g.baseAddr), rows, low]
  · have narrow : g.addr ≤ g.baseAddr := by
      by_contra wide
      exact tall (Nat.one_lt_two_pow (by omega))
    have small : ∀ x : BitVec g.addr, x.toNat < 2 ^ g.baseAddr := fun x =>
      lt_of_lt_of_le x.isLt (Nat.pow_le_pow_right (by omega) narrow)
    rwa [Nat.mod_eq_of_lt (small a), Nat.mod_eq_of_lt (small b)] at low

end Widths

namespace Base

theorem enableArray_eq (addrIn : BitVec g.addr) (enable : Bool) {row : Nat} (inside : row < g.arrayHeight) :
    enableArray addrIn enable row = (enable && decide (row = g.row addrIn)) := by
  unfold enableArray
  split_ifs with tall
  · rfl
  · have first : row = 0 := by omega
    rw [first, Widths.row, if_neg tall, decide_eq_true rfl, Bool.and_true]

theorem contents_next (s : Base g) (dataIn : BitVec g.data) (addrIn : BitVec g.addr) (enable writeBar : Bool) :
    (s.next dataIn addrIn enable writeBar).contents =
      if enable && !writeBar then Function.update s.contents addrIn dataIn else s.contents := by
  funext addr
  unfold contents next BaseBank.next
  simp only
  rw [enableArray_eq addrIn enable (Widths.row_lt addr)]
  by_cases stores : (enable && !writeBar) = true
  · obtain ⟨isEnabled, isWrite⟩ := Bool.and_eq_true_iff.mp stores
    rw [if_pos stores, isEnabled, Bool.true_and, isWrite]
    by_cases here : addr = addrIn
    · subst here
      simp only [decide_true, Bool.and_true, if_true, Function.update_self]
      exact Widths.word_column dataIn
    · rw [Function.update_of_ne here]
      by_cases sameRow : g.row addr = g.row addrIn
      · have otherBase : g.baseAddrIn addr ≠ g.baseAddrIn addrIn := fun same => here (Widths.eq_of_row_eq sameRow same)
        simp only [sameRow, decide_true, Bool.and_true, if_true, Function.update_of_ne otherBase]
      · simp only [decide_eq_false sameRow, Bool.false_and, Bool.false_eq_true, if_false]
  · rw [if_neg stores]
    have keeps : ((enable && decide (g.row addr = g.row addrIn)) && !writeBar) = false := by
      rw [Bool.and_right_comm, Bool.eq_false_of_not_eq_true stores, Bool.false_and]
    simp only [keeps, Bool.false_eq_true, if_false]

/-- Of the rows of which one was read the loop takes that one. -/
theorem foldl_row {α : Type} (value : Nat → α) (row : Nat) (out : α) : ∀ n,
    (List.range n).foldl (fun out r => if r = row then value r else out) out =
      if row < n then value row else out := by
  intro n
  induction n with
  | zero => rfl
  | succ n ih =>
      rw [List.range_succ, List.foldl_append, ih]
      simp only [List.foldl_cons, List.foldl_nil]
      by_cases here : n = row
      · rw [if_pos here, if_pos (by omega), here]
      · rw [if_neg here]
        by_cases earlier : row < n
        · rw [if_pos earlier, if_pos (by omega)]
        · rw [if_neg earlier, if_neg (by omega)]

/-- In the cycle after a load the bank gives the word that was there. -/
theorem dataOut_next (s : Base g) (dataIn : BitVec g.data) (addrIn : BitVec g.addr) :
    (s.next dataIn addrIn true true).dataOut = s.contents addrIn := by
  unfold dataOut contents
  congr 1
  funext col
  have selects : ∀ out : BitVec g.baseData, ∀ row ∈ List.range g.arrayHeight,
      (if (s.next dataIn addrIn true true).enableArrayReg row col && (s.next dataIn addrIn true true).writeBarReg then
        ((s.next dataIn addrIn true true).banks row col).dataout else out) =
      if row = g.row addrIn then (s.banks row col).memArray (g.baseAddrIn addrIn) else out := by
    intro out row member
    simp only [next, Bool.and_true]
    rw [enableArray_eq addrIn true (List.mem_range.mp member), Bool.true_and]
    by_cases here : row = g.row addrIn
    · simp [here, BaseBank.dataout, BaseBank.next, BaseBank.readData]
    · simp [here]
  unfold columnOut
  rw [List.foldl_ext _ _ _ selects, foldl_row, if_pos (Widths.row_lt addrIn)]

end Base

/-! ### The array over a run -/

/-- The inputs of a cycle of `memory_bank_base`. -/
structure BaseCycle (g : Widths) where
  dataIn : BitVec g.data
  addrIn : BitVec g.addr
  enable : Bool
  writeBar : Bool

namespace BaseCycle

def writes (c : BaseCycle g) : Bool := c.enable && !c.writeBar

/-- The word of the last cycle that writes to an address. -/
def lastWritten (addr : BitVec g.addr) (cs : List (BaseCycle g)) : Option (BitVec g.data) :=
  (cs.reverse.find? fun c => c.writes && decide (c.addrIn = addr)).map fun c => c.dataIn

theorem lastWritten_append (addr : BitVec g.addr) (cs : List (BaseCycle g)) (c : BaseCycle g) :
    lastWritten addr (cs ++ [c]) =
      if c.writes && decide (c.addrIn = addr) then some c.dataIn else lastWritten addr cs := by
  unfold lastWritten
  rw [List.reverse_append, List.reverse_singleton, List.singleton_append, List.find?_cons]
  cases c.writes && decide (c.addrIn = addr) <;> rfl

end BaseCycle

namespace Base

def run (s : Base g) (cs : List (BaseCycle g)) : Base g :=
  cs.foldl (fun s c => s.next c.dataIn c.addrIn c.enable c.writeBar) s

/-- A run leaves at each address the last word that was written to it. -/
theorem contents_run (s : Base g) (cs : List (BaseCycle g)) (addr : BitVec g.addr) :
    (s.run cs).contents addr = (BaseCycle.lastWritten addr cs).getD (s.contents addr) := by
  induction cs using List.reverseRecOn with
  | nil => rfl
  | append_singleton cs c ih =>
      have asks : (c.enable && !c.writeBar) = c.writes := rfl
      rw [run, List.foldl_append, List.foldl_cons, List.foldl_nil, contents_next, BaseCycle.lastWritten_append, asks]
      cases c.writes with
      | false => exact ih
      | true =>
          rw [if_pos rfl, Bool.true_and]
          by_cases here : c.addrIn = addr
          · subst here
            rw [Function.update_self, decide_eq_true rfl, if_pos rfl, Option.getD_some]
          · rw [Function.update_of_ne (Ne.symm here), decide_eq_false here, if_neg Bool.false_ne_true]
            exact ih

/-- The array is a flat memory: one cycle after a read it gives the last word that was
written to the address, and a write changes the word of one address. -/
theorem refines_flat_memory (s : Base g) (cs : List (BaseCycle g)) (dataIn : BitVec g.data) (addr : BitVec g.addr) :
    ((s.run cs).next dataIn addr true true).dataOut = (BaseCycle.lastWritten addr cs).getD (s.contents addr) ∧
      ((s.run cs).next dataIn addr true false).contents = Function.update (s.run cs).contents addr dataIn := by
  rw [dataOut_next, contents_run, contents_next]
  exact ⟨rfl, rfl⟩

end Base

/-! ### The bank -/

inductive FsmState where
  | idle | rdone | wdone
  deriving DecidableEq

/-- The registers of `memory_bank`. -/
structure State (g : Widths) (readTag writeTag : Nat) where
  fsmState : FsmState
  readEnableBaseRegistered : Bool
  readTagOut : BitVec readTag
  writeTagOut : BitVec writeTag
  readDataBaseReg : BitVec g.data
  base : Base g

structure Cycle (g : Widths) (readTag writeTag : Nat) where
  writeData : BitVec g.data
  writeAddr : BitVec g.addr
  writeTag : BitVec writeTag
  writeEnable : Bool
  writeResultAccept : Bool
  readAddr : BitVec g.addr
  readTag : BitVec readTag
  readEnable : Bool
  readResultAccept : Bool

namespace State
variable {readTag writeTag : Nat} (s : State g readTag writeTag) (c : Cycle g readTag writeTag)

/-- Without time stamps `write_has_priority` is `write_enable`. -/
def writeActive : Bool := c.writeEnable && c.readEnable && c.writeEnable || c.writeEnable && !c.readEnable

def readActive : Bool := c.writeEnable && c.readEnable && !c.writeEnable || !c.writeEnable && c.readEnable

def ready : Bool :=
  match s.fsmState with
  | .idle => true
  | .rdone => c.readResultAccept
  | .wdone => c.writeResultAccept

/-- `we_base`, which is `write_ack`. -/
def writeAck : Bool := s.ready c && writeActive c

/-- `re_base`, which is `read_ack`. -/
def readAck : Bool := s.ready c && !writeActive c && readActive c

def readResultReady : Bool := decide (s.fsmState = .rdone)

def writeResultReady : Bool := decide (s.fsmState = .wdone)

def nextFsmState : FsmState :=
  if s.ready c then
    if writeActive c then .wdone else if readActive c then .rdone else .idle
  else s.fsmState

def addrBase : BitVec g.addr := if s.writeAck c then c.writeAddr else if s.readAck c then c.readAddr else 0

def enableSig : Bool := s.writeAck c || s.readAck c

/-- `read_data`, past the bypass register in the cycle after the access. -/
def readData : BitVec g.data := if s.readEnableBaseRegistered then s.base.dataOut else s.readDataBaseReg

def next : State g readTag writeTag where
  fsmState := s.nextFsmState c
  readEnableBaseRegistered := s.readAck c
  readTagOut := if s.enableSig c && s.readAck c then c.readTag else s.readTagOut
  writeTagOut := if s.enableSig c && !s.readAck c then c.writeTag else s.writeTagOut
  readDataBaseReg := if s.readEnableBaseRegistered then s.base.dataOut else s.readDataBaseReg
  base := s.base.next c.writeData (s.addrBase c) (s.enableSig c) (s.readAck c)

def reset : State g readTag writeTag where
  fsmState := .idle
  readEnableBaseRegistered := false
  readTagOut := 0
  writeTagOut := 0
  readDataBaseReg := if s.readEnableBaseRegistered then s.base.dataOut else s.readDataBaseReg
  base := s.base.reset c.writeData (s.addrBase c) (s.enableSig c) (s.readAck c)

def pendingLoad : List (BitVec readTag × BitVec g.data) :=
  if s.readResultReady then [(s.readTagOut, s.readData)] else []

def pendingStore : List (BitVec writeTag) := if s.writeResultReady then [s.writeTagOut] else []

def performedLoad : List (BitVec readTag × BitVec g.data) :=
  if s.readAck c then [(c.readTag, s.base.contents c.readAddr)] else []

def performedStore : List (BitVec writeTag) := if s.writeAck c then [c.writeTag] else []

def takenLoad : List (BitVec readTag × BitVec g.data) :=
  if s.readResultReady && c.readResultAccept then [(s.readTagOut, s.readData)] else []

def takenStore : List (BitVec writeTag) := if s.writeResultReady && c.writeResultAccept then [s.writeTagOut] else []

/-! ### One cycle -/

variable {s c}

theorem not_both : ¬ (s.readAck c = true ∧ s.writeAck c = true) := by
  unfold readAck writeAck
  cases s.ready c <;> cases writeActive c <;> simp

theorem contents_next : (s.next c).base.contents =
    if s.writeAck c then Function.update s.base.contents c.writeAddr c.writeData else s.base.contents := by
  simp only [next, Base.contents_next]
  cases writes : s.writeAck c
  · have keeps : (s.enableSig c && !s.readAck c) = false := by
      rw [enableSig, writes, Bool.false_or, Bool.and_not_self]
    rw [if_neg (by rw [keeps]; exact Bool.false_ne_true), if_neg Bool.false_ne_true]
  · have reads : s.readAck c = false := Bool.eq_false_of_not_eq_true fun reads => not_both ⟨reads, writes⟩
    simp [enableSig, addrBase, writes, reads]

/-- The word that is given out is that of the last load, however long it waits. -/
theorem readData_next : (s.next c).readData = if s.readAck c then s.base.contents c.readAddr else s.readData := by
  unfold readData next
  simp only
  cases reads : s.readAck c
  · rfl
  · have writes : s.writeAck c = false := Bool.eq_false_of_not_eq_true fun writes => not_both ⟨reads, writes⟩
    simp [enableSig, addrBase, writes, reads, Base.dataOut_next]

theorem loads_step : s.pendingLoad ++ s.performedLoad c = s.takenLoad c ++ (s.next c).pendingLoad := by
  unfold pendingLoad performedLoad takenLoad
  rw [readData_next]
  cases fsm : s.fsmState <;> cases read : c.readResultAccept <;> cases write : c.writeResultAccept <;>
    cases active : writeActive c <;> cases reads : readActive c <;>
    simp [readResultReady, next, nextFsmState, enableSig, readAck, writeAck, ready, fsm, read, write, active, reads]

theorem stores_step : s.pendingStore ++ s.performedStore c = s.takenStore c ++ (s.next c).pendingStore := by
  unfold pendingStore performedStore takenStore
  cases fsm : s.fsmState <;> cases read : c.readResultAccept <;> cases write : c.writeResultAccept <;>
    cases active : writeActive c <;> cases reads : readActive c <;>
    simp [writeResultReady, next, nextFsmState, enableSig, readAck, writeAck, ready, fsm, read, write, active, reads]

end State

end Ahir.Hardware.MemoryBank
