import Ahir.Hardware.MemoryBank
import Ahir.Hardware.MuxTree
import Ahir.Hardware.PipelinedDemux

/-!
# The unordered memory subsystem

`UnorderedMemorySubsystem` has a multiplexer for its load ports and one for its
store ports, the bank, and a de-multiplexer for each kind of result.
-/

set_option autoImplicit false

namespace Ahir.Hardware.UnorderedMemory

structure Generics where
  numLoads : Nat
  numStores : Nat
  addrWidth : Nat
  dataWidth : Nat
  tagWidth : Nat
  muxDegree : Nat
  baseBankAddrWidth : Nat
  baseBankDataWidth : Nat
  loads_pos : 0 < numLoads
  stores_pos : 0 < numStores
  degree_ge : 2 ≤ muxDegree
  baseData_pos : 0 < baseBankDataWidth

/-- Entry `i` of the port ids: `IncrementSLV` of the one before. -/
def portIdGen (w : Nat) : Nat → BitVec w
  | 0 => 0#w
  | i + 1 => portIdGen w i + 1#w

def portIdWidth (ports : Nat) : Nat := max 1 (PipelinedMux.ceilLog ports 2)

namespace Generics
variable (g : Generics)

abbrev bank : MemoryBank.Widths := ⟨g.addrWidth, g.dataWidth, g.baseBankAddrWidth, g.baseBankDataWidth, g.baseData_pos⟩

abbrev rmux : PipelinedMux.Generics := ⟨g.numLoads, g.muxDegree, g.loads_pos, g.degree_ge⟩

abbrev wmux : PipelinedMux.Generics := ⟨g.numStores, g.muxDegree, g.stores_pos, g.degree_ge⟩

def loadPortIdWidth : Nat := portIdWidth g.numLoads

def storePortIdWidth : Nat := portIdWidth g.numStores

abbrev rdMuxDataWidth : Nat := g.addrWidth + g.tagWidth + g.loadPortIdWidth

abbrev wrMuxDataWidth : Nat := g.addrWidth + g.dataWidth + g.tagWidth + g.storePortIdWidth

end Generics

variable {g : Generics}

structure State (g : Generics) where
  rmux : PipelinedMux.State g.rdMuxDataWidth
  wmux : PipelinedMux.State g.wrMuxDataWidth
  bank : MemoryBank.State g.bank (g.tagWidth + g.loadPortIdWidth) (g.tagWidth + g.storePortIdWidth)
  rdDemux : PipelinedDemux.State (g.dataWidth + g.tagWidth)
  wrDemux : PipelinedDemux.State g.tagWidth

structure Cycle (g : Generics) where
  lrAddrIn : Nat → BitVec g.addrWidth
  lrTagIn : Nat → BitVec g.tagWidth
  lrReqIn : Nat → Bool
  lcReqIn : Nat → Bool
  srAddrIn : Nat → BitVec g.addrWidth
  srDataIn : Nat → BitVec g.dataWidth
  srTagIn : Nat → BitVec g.tagWidth
  srReqIn : Nat → Bool
  scReqIn : Nat → Bool

namespace State
variable (s : State g) (c : Cycle g)

def rdMuxCycle (ack : Bool) : PipelinedMux.Cycle g.rdMuxDataWidth where
  mergeDataIn := fun i => c.lrAddrIn i ++ c.lrTagIn i ++ portIdGen g.loadPortIdWidth i
  mergeReqIn := c.lrReqIn
  mergeAckIn := ack

def wrMuxCycle (ack : Bool) : PipelinedMux.Cycle g.wrMuxDataWidth where
  mergeDataIn := fun i => c.srAddrIn i ++ c.srDataIn i ++ c.srTagIn i ++ portIdGen g.storePortIdWidth i
  mergeReqIn := c.srReqIn
  mergeAckIn := ack

/-- `rd_mux_data_out`, which does not depend on the acknowledge. -/
def rdMuxDataOut : BitVec g.rdMuxDataWidth := PipelinedMux.mergeDataOut g.rmux s.rmux (rdMuxCycle c false)

def wrMuxDataOut : BitVec g.wrMuxDataWidth := PipelinedMux.mergeDataOut g.wmux s.wmux (wrMuxCycle c false)

def rdDemuxCycle : PipelinedDemux.Cycle (g.dataWidth + g.tagWidth) g.loadPortIdWidth where
  dataIn := s.bank.readData ++ s.bank.readTagOut.extractLsb' g.loadPortIdWidth g.tagWidth
  selIn := s.bank.readTagOut.extractLsb' 0 g.loadPortIdWidth
  reqIn := s.bank.readResultReady
  ackIn := c.lcReqIn

def wrDemuxCycle : PipelinedDemux.Cycle g.tagWidth g.storePortIdWidth where
  dataIn := s.bank.writeTagOut.extractLsb' g.storePortIdWidth g.tagWidth
  selIn := s.bank.writeTagOut.extractLsb' 0 g.storePortIdWidth
  reqIn := s.bank.writeResultReady
  ackIn := c.scReqIn

def bankCycle : MemoryBank.Cycle g.bank (g.tagWidth + g.loadPortIdWidth) (g.tagWidth + g.storePortIdWidth) where
  writeData := (s.wrMuxDataOut c).extractLsb' (g.wrMuxDataWidth - g.addrWidth - g.dataWidth) g.dataWidth
  writeAddr := (s.wrMuxDataOut c).extractLsb' (g.wrMuxDataWidth - g.addrWidth) g.addrWidth
  writeTag := (s.wrMuxDataOut c).extractLsb' 0 (g.tagWidth + g.storePortIdWidth)
  writeEnable := PipelinedMux.mergeReqOut g.wmux s.wmux (wrMuxCycle c false)
  writeResultAccept := PipelinedDemux.ackOut g.numStores s.wrDemux (s.wrDemuxCycle c)
  readAddr := (s.rdMuxDataOut c).extractLsb' (g.rdMuxDataWidth - g.addrWidth) g.addrWidth
  readTag := (s.rdMuxDataOut c).extractLsb' 0 (g.tagWidth + g.loadPortIdWidth)
  readEnable := PipelinedMux.mergeReqOut g.rmux s.rmux (rdMuxCycle c false)
  readResultAccept := PipelinedDemux.ackOut g.numLoads s.rdDemux (s.rdDemuxCycle c)

def rdMuxInputs : PipelinedMux.Cycle g.rdMuxDataWidth := rdMuxCycle c (s.bank.readAck (s.bankCycle c))

def wrMuxInputs : PipelinedMux.Cycle g.wrMuxDataWidth := wrMuxCycle c (s.bank.writeAck (s.bankCycle c))

def reset : State g where
  rmux := PipelinedMux.reset g.rmux s.rmux (s.rdMuxInputs c)
  wmux := PipelinedMux.reset g.wmux s.wmux (s.wrMuxInputs c)
  bank := s.bank.reset (s.bankCycle c)
  rdDemux := PipelinedDemux.reset s.rdDemux (s.rdDemuxCycle c)
  wrDemux := PipelinedDemux.reset s.wrDemux (s.wrDemuxCycle c)

def next : State g where
  rmux := PipelinedMux.next g.rmux s.rmux (s.rdMuxInputs c)
  wmux := PipelinedMux.next g.wmux s.wmux (s.wrMuxInputs c)
  bank := s.bank.next (s.bankCycle c)
  rdDemux := PipelinedDemux.next s.rdDemux (s.rdDemuxCycle c)
  wrDemux := PipelinedDemux.next s.wrDemux (s.wrDemuxCycle c)

def run (s : State g) (cs : List (Cycle g)) : State g := cs.foldl next s

def contents : BitVec g.addrWidth → BitVec g.dataWidth := s.bank.base.contents

end State

/-! ### What is seen of a run -/

/-- An access of the bank; a load with the word that was there. -/
inductive Access (g : Generics) where
  | load (port : Nat) (addr : BitVec g.addrWidth) (tag : BitVec g.tagWidth) (word : BitVec g.dataWidth)
  | store (port : Nat) (addr : BitVec g.addrWidth) (data : BitVec g.dataWidth) (tag : BitVec g.tagWidth)

namespace State
variable (s : State g) (c : Cycle g)

def acceptedLoad (i : Nat) : List (BitVec g.addrWidth × BitVec g.tagWidth) :=
  if c.lrReqIn i && PipelinedMux.ack g.rmux s.rmux (s.rdMuxInputs c) 0 i then [(c.lrAddrIn i, c.lrTagIn i)] else []

def acceptedStore (i : Nat) : List (BitVec g.addrWidth × BitVec g.dataWidth × BitVec g.tagWidth) :=
  if c.srReqIn i && PipelinedMux.ack g.wmux s.wmux (s.wrMuxInputs c) 0 i then
    [(c.srAddrIn i, c.srDataIn i, c.srTagIn i)]
  else []

/-- What the bank does in the cycle: the port is the one in the tag that it is given. -/
def performed : List (Access g) :=
  let b := s.bankCycle c
  if s.bank.writeAck b then
    [.store (b.writeTag.extractLsb' 0 g.storePortIdWidth).toNat b.writeAddr b.writeData
      (b.writeTag.extractLsb' g.storePortIdWidth g.tagWidth)]
  else if s.bank.readAck b then
    [.load (b.readTag.extractLsb' 0 g.loadPortIdWidth).toNat b.readAddr
      (b.readTag.extractLsb' g.loadPortIdWidth g.tagWidth) (s.contents b.readAddr)]
  else []

/-- The completion that a load port takes, as `lc_data_out` and `lc_tag_out`. -/
def completedLoad (i : Nat) : List (BitVec g.dataWidth × BitVec g.tagWidth) :=
  (PipelinedDemux.completed s.rdDemux (s.rdDemuxCycle c) i).toList.map fun x =>
    (x.extractLsb' g.tagWidth g.dataWidth, x.extractLsb' 0 g.tagWidth)

def completedStore (i : Nat) : List (BitVec g.tagWidth) :=
  (PipelinedDemux.completed s.wrDemux (s.wrDemuxCycle c) i).toList

def trace {α : Type} (seen : State g → Cycle g → List α) : State g → List (Cycle g) → List α
  | _, [] => []
  | s, c :: cs => seen s c ++ trace seen (s.next c) cs

end State

namespace Access

/-- The request of a load of port `i`. -/
def loadRequest (i : Nat) : Access g → Option (BitVec g.addrWidth × BitVec g.tagWidth)
  | .load port addr tag _ => if port = i then some (addr, tag) else none
  | .store .. => none

def storeRequest (i : Nat) : Access g → Option (BitVec g.addrWidth × BitVec g.dataWidth × BitVec g.tagWidth)
  | .load .. => none
  | .store port addr data tag => if port = i then some (addr, data, tag) else none

/-- The completion that a load of port `i` should have. -/
def loadResult (i : Nat) : Access g → Option (BitVec g.dataWidth × BitVec g.tagWidth)
  | .load port _ tag word => if port = i then some (word, tag) else none
  | .store .. => none

def storeResult (i : Nat) : Access g → Option (BitVec g.tagWidth)
  | .load .. => none
  | .store port _ _ tag => if port = i then some tag else none

def apply (memory : BitVec g.addrWidth → BitVec g.dataWidth) : Access g → BitVec g.addrWidth → BitVec g.dataWidth
  | .load .. => memory
  | .store _ addr data _ => Function.update memory addr data

/-- Every load of a sequence of accesses has the word that was there. -/
def Reads : (BitVec g.addrWidth → BitVec g.dataWidth) → List (Access g) → Prop
  | _, [] => True
  | memory, .load _ addr _ word :: rest => word = memory addr ∧ Reads memory rest
  | memory, .store _ addr data _ :: rest => Reads (Function.update memory addr data) rest

end Access

end Ahir.Hardware.UnorderedMemory
