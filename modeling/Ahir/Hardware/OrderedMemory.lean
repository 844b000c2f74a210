import Ahir.Hardware.MemoryBank
import Ahir.Hardware.PipelinedMux
import Ahir.Hardware.TimeStamp

/-!
# The strictly ordered memory subsystem

`memory_subsystem_core` takes the load and the store with the smallest stamps into a queue
each, and the bank performs the one of the two oldest whose stamp is smaller.
-/

set_option autoImplicit false

namespace Ahir.Hardware.OrderedMemory
open TimeStamp (isGreaterThan)

/-- `IsGreaterThan` asserts that a stamp has more than two bits. -/
structure Generics where
  numLoads : Nat
  numStores : Nat
  addrWidth : Nat
  dataWidth : Nat
  tagWidth : Nat
  timeStampWidth : Nat
  data_pos : 0 < dataWidth
  wide : 2 < timeStampWidth

namespace Generics
variable (g : Generics)

/-- `c_load_port_id_width` -/
def loadPortIdWidth : Nat := max 1 (PipelinedMux.ceilLog g.numLoads 2)

def storePortIdWidth : Nat := max 1 (PipelinedMux.ceilLog g.numStores 2)

abbrev bank : MemoryBank.Widths := ⟨g.addrWidth, g.dataWidth, g.addrWidth, g.dataWidth, g.data_pos⟩

/-- The width of the words in `lrr`. -/
abbrev lrrWidth : Nat := g.timeStampWidth + g.loadPortIdWidth + g.addrWidth + g.tagWidth

abbrev srrWidth : Nat := g.timeStampWidth + g.storePortIdWidth + g.addrWidth + g.dataWidth + g.tagWidth

end Generics

variable {g : Generics}

structure State (g : Generics) where
  lrr : QueueState g.lrrWidth 2
  srr : QueueState g.srrWidth 2
  bank : MemoryBank.State g.bank (g.tagWidth + g.loadPortIdWidth) (g.tagWidth + g.storePortIdWidth)

/-- The inputs of a cycle.  A stamp is the low bits of a time. -/
structure Cycle (g : Generics) where
  lrAddrIn : Nat → BitVec g.addrWidth
  lrTagIn : Nat → BitVec g.tagWidth
  lrTime : Nat → Nat
  lrReqIn : Nat → Bool
  lcReqIn : Nat → Bool
  srAddrIn : Nat → BitVec g.addrWidth
  srDataIn : Nat → BitVec g.dataWidth
  srTagIn : Nat → BitVec g.tagWidth
  srTime : Nat → Nat
  srReqIn : Nat → Bool
  scReqIn : Nat → Bool

namespace Cycle
variable (c : Cycle g)

def lrTimeStampIn (i : Nat) : BitVec g.timeStampWidth := BitVec.ofNat _ (c.lrTime i)

def srTimeStampIn (i : Nat) : BitVec g.timeStampWidth := BitVec.ofNat _ (c.srTime i)

end Cycle

/-! ### Stage 1 -/

/-- A turn of the loop over the ports, from the port that the variables are those of. -/
def chooseSmaller {w : Nat} (reqIn : Nat → Bool) (timeStampIn : Nat → BitVec w) (chosen : Option Nat) (i : Nat) : Option Nat :=
  if reqIn i then
    match chosen with
    | none => some i
    | some j => if isGreaterThan (timeStampIn j) (timeStampIn i) then some i else some j
  else chosen

def smallest {w : Nat} (reqIn : Nat → Bool) (timeStampIn : Nat → BitVec w) (ports : Nat) : Option Nat :=
  (List.range ports).foldl (chooseSmaller reqIn timeStampIn) none

namespace Cycle
variable (c : Cycle g)

def loadSelected : Option Nat := smallest c.lrReqIn c.lrTimeStampIn g.numLoads

def storeSelected : Option Nat := smallest c.srReqIn c.srTimeStampIn g.numStores

def loadWord (i : Nat) : BitVec g.lrrWidth :=
  c.lrTimeStampIn i ++ BitVec.ofNat g.loadPortIdWidth i ++ c.lrAddrIn i ++ c.lrTagIn i

def storeWord (i : Nat) : BitVec g.srrWidth :=
  c.srTimeStampIn i ++ BitVec.ofNat g.storePortIdWidth i ++ c.srAddrIn i ++ c.srDataIn i ++ c.srTagIn i

/-- The inputs of `lrr`; its data are zero when nothing is selected. -/
def lrrRequest (acceptedRepeated : Bool) : Request (BitVec g.lrrWidth) where
  dataIn := (c.loadSelected.map c.loadWord).getD 0
  pushReq := c.loadSelected.isSome
  popReq := acceptedRepeated

def srrRequest (acceptedRepeated : Bool) : Request (BitVec g.srrWidth) where
  dataIn := (c.storeSelected.map c.storeWord).getD 0
  pushReq := c.storeSelected.isSome
  popReq := acceptedRepeated

end Cycle

/-! ### Stage 2 -/

/-- `write_has_priority` of `memory_bank_revised` -/
def writeHasPriority {w : Nat} (writeTimeStamp readTimeStamp : BitVec w) (writeEnable readEnable : Bool) : Bool :=
  if writeEnable && readEnable then !isGreaterThan writeTimeStamp readTimeStamp
  else if writeEnable then true
  else if readEnable then false
  else true

namespace State
variable (s : State g) (c : Cycle g)

/-- The outputs of `lrr`, which do not depend on the request to pop. -/
def lrrResponse : Response (BitVec g.lrrWidth) := (queueBase 2).respond s.lrr (c.lrrRequest false)

def srrResponse : Response (BitVec g.srrWidth) := (queueBase 2).respond s.srr (c.srrRequest false)

/-- `load_request_time_stamp_repeated`, and so on. -/
def readTimeStamp : BitVec g.timeStampWidth :=
  (s.lrrResponse c).dataOut.extractLsb' (g.loadPortIdWidth + g.addrWidth + g.tagWidth) g.timeStampWidth

def readPortId : BitVec g.loadPortIdWidth := (s.lrrResponse c).dataOut.extractLsb' (g.addrWidth + g.tagWidth) g.loadPortIdWidth

def readAddr : BitVec g.addrWidth := (s.lrrResponse c).dataOut.extractLsb' g.tagWidth g.addrWidth

def readTag : BitVec g.tagWidth := (s.lrrResponse c).dataOut.extractLsb' 0 g.tagWidth

def writeTimeStamp : BitVec g.timeStampWidth :=
  (s.srrResponse c).dataOut.extractLsb' (g.storePortIdWidth + g.addrWidth + g.dataWidth + g.tagWidth) g.timeStampWidth

def writePortId : BitVec g.storePortIdWidth :=
  (s.srrResponse c).dataOut.extractLsb' (g.addrWidth + g.dataWidth + g.tagWidth) g.storePortIdWidth

def writeAddr : BitVec g.addrWidth := (s.srrResponse c).dataOut.extractLsb' (g.dataWidth + g.tagWidth) g.addrWidth

def writeData : BitVec g.dataWidth := (s.srrResponse c).dataOut.extractLsb' g.tagWidth g.dataWidth

def writeTag : BitVec g.tagWidth := (s.srrResponse c).dataOut.extractLsb' 0 g.tagWidth

def writePriority : Bool :=
  writeHasPriority (s.writeTimeStamp c) (s.readTimeStamp c) (s.srrResponse c).popAck (s.lrrResponse c).popAck

def writeActive : Bool :=
  (s.srrResponse c).popAck && (s.lrrResponse c).popAck && s.writePriority c ||
    (s.srrResponse c).popAck && !(s.lrrResponse c).popAck

def readActive : Bool :=
  (s.srrResponse c).popAck && (s.lrrResponse c).popAck && !s.writePriority c ||
    !(s.srrResponse c).popAck && (s.lrrResponse c).popAck

/-- `read_port_id_out` -/
def loadCompleteId : BitVec g.loadPortIdWidth := s.bank.readTagOut.extractLsb' 0 g.loadPortIdWidth

def loadCompleteTag : BitVec g.tagWidth := s.bank.readTagOut.extractLsb' g.loadPortIdWidth g.tagWidth

def storeCompleteId : BitVec g.storePortIdWidth := s.bank.writeTagOut.extractLsb' 0 g.storePortIdWidth

def storeCompleteTag : BitVec g.tagWidth := s.bank.writeTagOut.extractLsb' g.storePortIdWidth g.tagWidth

def loadCompleteAccept : Bool :=
  (List.range g.numLoads).any fun i => decide (s.loadCompleteId = BitVec.ofNat _ i) && c.lcReqIn i

def storeCompleteAccept : Bool :=
  (List.range g.numStores).any fun i => decide (s.storeCompleteId = BitVec.ofNat _ i) && c.scReqIn i

/-- The inputs of `memory_bank_revised`: it is `memory_bank` but for the choice between the
two requests, and keeps the port id beside the tag. -/
def bankCycle : MemoryBank.Cycle g.bank (g.tagWidth + g.loadPortIdWidth) (g.tagWidth + g.storePortIdWidth) where
  writeData := s.writeData c
  writeAddr := s.writeAddr c
  writeTag := s.writeTag c ++ s.writePortId c
  writeEnable := s.writeActive c
  writeResultAccept := s.storeCompleteAccept c
  readAddr := s.readAddr c
  readTag := s.readTag c ++ s.readPortId c
  readEnable := s.readActive c
  readResultAccept := s.loadCompleteAccept c

/-- `load_request_accepted_repeated` -/
def readAck : Bool := s.bank.readAck (s.bankCycle c)

def writeAck : Bool := s.bank.writeAck (s.bankCycle c)

def reset : State g where
  lrr := (queueBase 2).reset s.lrr (c.lrrRequest (s.readAck c))
  srr := (queueBase 2).reset s.srr (c.srrRequest (s.writeAck c))
  bank := s.bank.reset (s.bankCycle c)

def next : State g where
  lrr := (queueBase 2).next s.lrr (c.lrrRequest (s.readAck c))
  srr := (queueBase 2).next s.srr (c.srrRequest (s.writeAck c))
  bank := s.bank.next (s.bankCycle c)

def run (s : State g) (cs : List (Cycle g)) : State g := cs.foldl next s

def contents : BitVec g.addrWidth → BitVec g.dataWidth := s.bank.base.contents

/-! ### The ports -/

def lrAckOut (i : Nat) : Bool :=
  match c.loadSelected with
  | none => false
  | some j => (s.lrrResponse c).pushAck && decide (BitVec.ofNat g.loadPortIdWidth j = BitVec.ofNat g.loadPortIdWidth i)

def srAckOut (i : Nat) : Bool :=
  match c.storeSelected with
  | none => false
  | some j => (s.srrResponse c).pushAck && decide (BitVec.ofNat g.storePortIdWidth j = BitVec.ofNat g.storePortIdWidth i)

def lcAckOut (i : Nat) : Bool := s.bank.readResultReady && decide (s.loadCompleteId = BitVec.ofNat _ i)

def scAckOut (i : Nat) : Bool := s.bank.writeResultReady && decide (s.storeCompleteId = BitVec.ofNat _ i)

end State

end Ahir.Hardware.OrderedMemory
