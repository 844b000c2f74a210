import Mathlib.Tactic
import Ahir.Data.CInt
import Ahir.DataPath.SlotRegistry

/-!
# Ports of memory spaces and pipes

A data path registers its operator groups with the memory spaces and pipes they
access.  The slices of a port are printed three times: for a group within the
ports of its module, for a module within the signals of the memory space or
pipe, and for these signals themselves.
-/

set_option autoImplicit false

namespace Ahir.DataPath

/-- The text of a slice: `name(index)`, or `name(high downto low)`. -/
inductive PortSection where
  | bit (name : String) (index : Int)
  | range (name : String) (high low : Int)
deriving DecidableEq

namespace PortSection

def name : PortSection → String
  | bit name _ => name
  | range name _ _ => name

def high : PortSection → Int
  | bit _ index => index
  | range _ high _ => high

def low : PortSection → Int
  | bit _ index => index
  | range _ _ low => low

/-- The section of slots `hindex` to `lindex`. -/
def slots (name : String) (width : Nat) (hindex lindex : Int) : PortSection :=
  range name ((hindex + 1) * width - 1) (lindex * width)

end PortSection

inductive LoadOrStore where
  | load | store
deriving DecidableEq

inductive MemoryPort where
  | lrReq | lrAck | lrAddr | lrTag | lcReq | lcAck | lcData | lcTag
  | srReq | srAck | srAddr | srData | srTag | scReq | scAck | scTag
deriving DecidableEq

namespace MemoryPort

def pid : MemoryPort → String
  | lrReq => "lr_req" | lrAck => "lr_ack" | lrAddr => "lr_addr" | lrTag => "lr_tag"
  | lcReq => "lc_req" | lcAck => "lc_ack" | lcData => "lc_data" | lcTag => "lc_tag"
  | srReq => "sr_req" | srAck => "sr_ack" | srAddr => "sr_addr" | srData => "sr_data" | srTag => "sr_tag"
  | scReq => "sc_req" | scAck => "sc_ack" | scTag => "sc_tag"

def loadOrStore : MemoryPort → LoadOrStore
  | lrReq | lrAck | lrAddr | lrTag | lcReq | lcAck | lcData | lcTag => .load
  | srReq | srAck | srAddr | srData | srTag | scReq | scAck | scTag => .store

/-- The `pid` has `req` or `ack` in it. -/
def isHandshake : MemoryPort → Bool
  | lrReq | lrAck | lcReq | lcAck | srReq | srAck | scReq | scAck => true
  | _ => false

end MemoryPort

variable {M : Type} [LinearOrder M]

/-- `_max_tag_map[m]` becomes the larger of its value and `n`. -/
def raiseMaxTag (m : M) (n : Nat) : List (M × Nat) → List (M × Nat)
  | [] => [(m, n)]
  | (k, u) :: rest =>
      if k < m then (k, u) :: raiseMaxTag m n rest
      else if k = m then (k, max u n) :: rest
      else (m, n) :: (k, u) :: rest

structure VcMemorySpace (M : Type) where
  vhdlId : String
  wordSize : Nat
  addressWidth : Nat
  orderedFlag : Bool
  loads : SlotRegistry M
  stores : SlotRegistry M
  maxTagMap : List (M × Nat)

namespace VcMemorySpace

def registerLoadGroup (ms : VcMemorySpace M) (m : M) (gId numReqs : Nat) : VcMemorySpace M :=
  { ms with loads := ms.loads.register m gId, maxTagMap := raiseMaxTag m numReqs ms.maxTagMap }

def registerStoreGroup (ms : VcMemorySpace M) (m : M) (gId numReqs : Nat) : VcMemorySpace M :=
  { ms with stores := ms.stores.register m gId, maxTagMap := raiseMaxTag m numReqs ms.maxTagMap }

def deregisterLoadsAndStores (ms : VcMemorySpace M) (m : M) : VcMemorySpace M :=
  { ms with
    loads := ms.loads.deregister m
    stores := ms.stores.deregister m
    maxTagMap := ms.maxTagMap.filter fun e => e.1 ≠ m }

omit [LinearOrder M] in
def registry (ms : VcMemorySpace M) : LoadOrStore → SlotRegistry M
  | .load => ms.loads
  | .store => ms.stores

section Printing
omit [LinearOrder M]

/-- `Get_Tag_Length`, which is `CeilLog2` of the tags that are needed. -/
def getTagLength (ms : VcMemorySpace M) : Nat := Data.bitLength (ms.maxTagMap.foldl (fun tags e => max tags e.2) 0)

def calculateTimeStampWidth (ms : VcMemorySpace M) : Nat :=
  if ms.orderedFlag ∧ ms.loads.count > 0 ∧ ms.stores.count > 0 then
    Nat.log2 (ms.stores.count + ms.loads.count).toNat + 16
  else 0

def portWidth (ms : VcMemorySpace M) : MemoryPort → Nat
  | .lrAddr | .srAddr => ms.addressWidth
  | .lcData | .srData => ms.wordSize
  | .lrTag | .srTag => ms.getTagLength + ms.calculateTimeStampWidth
  | .lcTag | .scTag => ms.getTagLength
  | _ => 1

def getVHDLMemoryInterfacePortName (ms : VcMemorySpace M) (port : MemoryPort) : String :=
  ms.vhdlId ++ "_" ++ port.pid

def interfaceSignal (ms : VcMemorySpace M) (port : MemoryPort) : PortSection :=
  .range (ms.getVHDLMemoryInterfacePortName port) ((ms.registry port.loadOrStore).count * ms.portWidth port - 1) 0

def getAggregateSection (ms : VcMemorySpace M) (port : MemoryPort) (hindex lindex : Int) : PortSection :=
  .slots (ms.getVHDLMemoryInterfacePortName port) (ms.portWidth port) hindex lindex

/-- The port of a module with `numReqs` groups. -/
def interfacePort (ms : VcMemorySpace M) (port : MemoryPort) (numReqs : Nat) : PortSection :=
  .range (ms.getVHDLMemoryInterfacePortName port) (numReqs * ms.portWidth port - 1) 0

end Printing

def getVHDLMemoryInterfacePortSection (ms : VcMemorySpace M) (m : M) (port : MemoryPort) (idx : Nat) :
    Option PortSection := do
  let groups ← (ms.registry port.loadOrStore).groupMap.lookup m
  let down ← downIndex groups idx
  if port.isHandshake then some (.bit (ms.getVHDLMemoryInterfacePortName port) down)
  else some (.slots (ms.getVHDLMemoryInterfacePortName port) (ms.portWidth port) down down)

end VcMemorySpace

inductive ReadOrWrite where
  | read | write
deriving DecidableEq

inductive PipePort where
  | readReq | readAck | readData | writeReq | writeAck | writeData
deriving DecidableEq

namespace PipePort

def pid : PipePort → String
  | readReq => "read_req" | readAck => "read_ack" | readData => "read_data"
  | writeReq => "write_req" | writeAck => "write_ack" | writeData => "write_data"

def readOrWrite : PipePort → ReadOrWrite
  | readReq | readAck | readData => .read
  | writeReq | writeAck | writeData => .write

def isHandshake : PipePort → Bool
  | readData | writeData => false
  | _ => true

end PipePort

structure VcPipe (M : Type) where
  id : String
  width : Nat
  p2p : Bool
  reads : SlotRegistry M
  writes : SlotRegistry M

namespace VcPipe

def registerPipeRead (p : VcPipe M) (m : M) (idx : Nat) : VcPipe M :=
  let reads := p.reads.register m idx
  { p with reads := reads, p2p := p.p2p && !decide (reads.count > 1) }

def registerPipeWrite (p : VcPipe M) (m : M) (idx : Nat) : VcPipe M :=
  let writes := p.writes.register m idx
  { p with writes := writes, p2p := p.p2p && !decide (writes.count > 1) }

def deregisterPipeAccesses (p : VcPipe M) (m : M) : VcPipe M :=
  { p with reads := p.reads.deregister m, writes := p.writes.deregister m }

section Printing
omit [LinearOrder M]

def registry (p : VcPipe M) : ReadOrWrite → SlotRegistry M
  | .read => p.reads
  | .write => p.writes

def portWidth (p : VcPipe M) (port : PipePort) : Nat := if port.isHandshake then 1 else p.width

def getVHDLPipeInterfacePortName (p : VcPipe M) (port : PipePort) : String := p.id ++ "_pipe_" ++ port.pid

def interfaceSignal (p : VcPipe M) (port : PipePort) : PortSection :=
  .range (p.getVHDLPipeInterfacePortName port) ((p.registry port.readOrWrite).count * p.portWidth port - 1) 0

def getPipeAggregateSection (p : VcPipe M) (port : PipePort) (hindex lindex : Int) : PortSection :=
  .slots (p.getVHDLPipeInterfacePortName port) (p.portWidth port) hindex lindex

def interfacePort (p : VcPipe M) (port : PipePort) (numReqs : Nat) : PortSection :=
  .range (p.getVHDLPipeInterfacePortName port) (numReqs * p.portWidth port - 1) 0

/-- The slice of a group; here the groups are those that the data path has noted. -/
def getVHDLIOportInterfacePortSection (p : VcPipe M) (groups : List Nat) (port : PipePort) (idx : Nat) :
    Option PortSection := do
  let down ← downIndex groups idx
  if port.isHandshake then some (.bit (p.getVHDLPipeInterfacePortName port) down)
  else some (.slots (p.getVHDLPipeInterfacePortName port) p.width down down)

end Printing

end VcPipe

/-- An operator group of a data path, of operators that access `object`. -/
structure OperatorGroup (S : Type) where
  object : S
  numReqs : Nat
deriving DecidableEq

/-- The groups of a data path, of the loads, stores, inports and outports. -/
structure DataPathGroups (M S P : Type) where
  parent : M
  loadGroups : List (OperatorGroup S)
  storeGroups : List (OperatorGroup S)
  inportGroups : List (OperatorGroup P)
  outportGroups : List (OperatorGroup P)

structure SharedObjects (M S P : Type) where
  memorySpaces : S → VcMemorySpace M
  pipes : P → VcPipe M

inductive Site (S P : Type) where
  | memory (s : S) (side : LoadOrStore)
  | pipe (p : P) (side : ReadOrWrite)

section Register
variable {S R : Type} [DecidableEq S]

def registerFrom (register : R → Nat → Nat → R) : Nat → List (OperatorGroup S) → (S → R) → S → R
  | _, [], objects => objects
  | idx, g :: rest, objects =>
      registerFrom register (idx + 1) rest
        (Function.update objects g.object (register (objects g.object) idx g.numReqs))

end Register

section System
variable {S P : Type} [DecidableEq S] [DecidableEq P]

namespace DataPathGroups

/-- The registrations at the end of `Compute_Maximal_Groups`. -/
def computeMaximalGroups (dp : DataPathGroups M S P) (objects : SharedObjects M S P) : SharedObjects M S P :=
  let loaded := registerFrom (fun ms idx n => ms.registerLoadGroup dp.parent idx n) 0 dp.loadGroups
    objects.memorySpaces
  let stored := registerFrom (fun ms idx n => ms.registerStoreGroup dp.parent idx n) 0 dp.storeGroups loaded
  let read := registerFrom (fun p idx _ => p.registerPipeRead dp.parent idx) 0 dp.inportGroups objects.pipes
  let written := registerFrom (fun p idx _ => p.registerPipeWrite dp.parent idx) 0 dp.outportGroups read
  { memorySpaces := stored, pipes := written }

/-- The groups for a site; these are also the vectors of `_inport_group_map` and
`_outport_group_map`, and their number is that of the requests of the module's ports. -/
def groups (dp : DataPathGroups M S P) : Site S P → List Nat
  | .memory s .load => groupsFrom (fun g => g.object = s) 0 dp.loadGroups
  | .memory s .store => groupsFrom (fun g => g.object = s) 0 dp.storeGroups
  | .pipe p .read => groupsFrom (fun g => g.object = p) 0 dp.inportGroups
  | .pipe p .write => groupsFrom (fun g => g.object = p) 0 dp.outportGroups

end DataPathGroups

namespace SharedObjects

def registry (objects : SharedObjects M S P) : Site S P → SlotRegistry M
  | .memory s side => (objects.memorySpaces s).registry side
  | .pipe p side => (objects.pipes p).registry side

/-- A module is detached from the objects it accesses; the others do not have it. -/
def detach (objects : SharedObjects M S P) (m : M) : SharedObjects M S P :=
  { memorySpaces := fun s => (objects.memorySpaces s).deregisterLoadsAndStores m
    pipes := fun p => (objects.pipes p).deregisterPipeAccesses m }

end SharedObjects

/-- The shared objects after some data paths have registered their groups, and
the data paths that are still attached. -/
inductive Elaborates : SharedObjects M S P → List (DataPathGroups M S P) → Prop where
  | start (objects : SharedObjects M S P) (fresh : ∀ site, objects.registry site = .empty) : Elaborates objects []
  | compute (objects : SharedObjects M S P) (dps : List (DataPathGroups M S P)) (dp : DataPathGroups M S P)
      (before : Elaborates objects dps) (new : ∀ other ∈ dps, other.parent ≠ dp.parent) :
      Elaborates (dp.computeMaximalGroups objects) (dp :: dps)
  | detach (objects : SharedObjects M S P) (dps : List (DataPathGroups M S P)) (m : M)
      (before : Elaborates objects dps) :
      Elaborates (objects.detach m) (dps.filter fun dp => dp.parent ≠ m)

/-- The slice `formal` of a module's port is mapped, with the port, to one slot of the
signal that has a slot for every group. -/
structure Denotes (formal port actual signal : PortSection) (width : Nat) (slot : Int) : Prop where
  names : formal.name = port.name ∧ actual.name = signal.name
  within : port.low ≤ formal.low ∧ formal.high ≤ port.high
  mapped : actual.high - actual.low = port.high - port.low
  inside : signal.low ≤ actual.low ∧ actual.high ≤ signal.high
  low : actual.low + (formal.low - port.low) = slot * width
  high : actual.low + (formal.high - port.low) = (slot + 1) * width - 1

section Register
variable {R : Type} {register : R → Nat → Nat → R} {groups : List (OperatorGroup S)} {objects : S → R} {s : S}

theorem registry_registerFrom {m : M} (registry : R → SlotRegistry M)
    (keeps : ∀ r idx n, registry (register r idx n) = (registry r).register m idx) (i : Nat) :
    registry (registerFrom register i groups objects s) =
      SlotRegistry.registerGroups (fun g => g.object = s) m i groups (registry (objects s)) := by
  induction groups generalizing i objects with
  | nil => rfl
  | cons g rest ih =>
      rw [registerFrom, ih, SlotRegistry.registerGroups]
      by_cases same : g.object = s
      · subst same
        rw [Function.update_self, keeps]
        simp
      · rw [Function.update_of_ne (Ne.symm same)]
        simp [same]

omit [LinearOrder M] in
theorem registry_registerFrom_other (registry : R → SlotRegistry M)
    (keeps : ∀ r idx n, registry (register r idx n) = registry r) (i : Nat) :
    registry (registerFrom register i groups objects s) = registry (objects s) := by
  induction groups generalizing i objects with
  | nil => rfl
  | cons g rest ih =>
      rw [registerFrom, ih]
      by_cases same : g.object = s
      · subst same
        rw [Function.update_self, keeps]
      · rw [Function.update_of_ne (Ne.symm same)]

end Register

structure Kept (r : SlotRegistry M) (dps : List (DataPathGroups M S P)) (groups : DataPathGroups M S P → List Nat) :
    Prop where
  formed : r.Formed
  attached : ∀ dp ∈ dps, r.vector dp.parent = groups dp
  others : ∀ m, (∀ dp ∈ dps, dp.parent ≠ m) → r.vector m = []

section Elaboration
variable {objects : SharedObjects M S P} {dps : List (DataPathGroups M S P)} {dp : DataPathGroups M S P}
  {site : Site S P}

theorem registry_computeMaximalGroups (formed : (objects.registry site).Formed)
    (fresh : (objects.registry site).vector dp.parent = []) :
    ((dp.computeMaximalGroups objects).registry site).Formed ∧ ∀ m,
      ((dp.computeMaximalGroups objects).registry site).vector m =
        if m = dp.parent then dp.groups site else (objects.registry site).vector m := by
  have none : ∀ k ∈ (objects.registry site).vector dp.parent, k < 0 := by
    rw [fresh]
    exact fun k isGroup => absurd isGroup List.not_mem_nil
  have all : ∀ {A : Type} (on : A → Bool) (groups : List A),
      (SlotRegistry.registerGroups on dp.parent 0 groups (objects.registry site)).Formed ∧ ∀ m,
        (SlotRegistry.registerGroups on dp.parent 0 groups (objects.registry site)).vector m =
          if m = dp.parent then groupsFrom on 0 groups else (objects.registry site).vector m := by
    intro A on groups
    have spec := @SlotRegistry.registerGroups_spec M _ _ dp.parent A on groups 0 formed none
    rwa [fresh, List.nil_append] at spec
  cases site with
  | memory s side =>
      cases side with
      | load =>
          have same : (dp.computeMaximalGroups objects).registry (.memory s .load) =
              .registerGroups (fun g => g.object = s) dp.parent 0 dp.loadGroups (objects.registry (.memory s .load)) := by
            apply (registry_registerFrom_other VcMemorySpace.loads ?_ 0).trans (registry_registerFrom VcMemorySpace.loads ?_ 0)
            · intros
              rfl
            · intros
              rfl
          rw [same]
          exact all _ dp.loadGroups
      | store =>
          have same : (dp.computeMaximalGroups objects).registry (.memory s .store) =
              .registerGroups (fun g => g.object = s) dp.parent 0 dp.storeGroups
                (objects.registry (.memory s .store)) := by
            apply (registry_registerFrom VcMemorySpace.stores ?_ 0).trans
            · congr 1
              apply registry_registerFrom_other VcMemorySpace.stores
              intros
              rfl
            · intros
              rfl
          rw [same]
          exact all _ dp.storeGroups
  | pipe p side =>
      cases side with
      | read =>
          have same : (dp.computeMaximalGroups objects).registry (.pipe p .read) =
              .registerGroups (fun g => g.object = p) dp.parent 0 dp.inportGroups (objects.registry (.pipe p .read)) := by
            apply (registry_registerFrom_other VcPipe.reads ?_ 0).trans (registry_registerFrom VcPipe.reads ?_ 0)
            · intros
              rfl
            · intros
              rfl
          rw [same]
          exact all _ dp.inportGroups
      | write =>
          have same : (dp.computeMaximalGroups objects).registry (.pipe p .write) =
              .registerGroups (fun g => g.object = p) dp.parent 0 dp.outportGroups
                (objects.registry (.pipe p .write)) := by
            apply (registry_registerFrom VcPipe.writes ?_ 0).trans
            · congr 1
              apply registry_registerFrom_other VcPipe.writes
              intros
              rfl
            · intros
              rfl
          rw [same]
          exact all _ dp.outportGroups

theorem Elaborates.kept (run : Elaborates objects dps) :
    (dps.Pairwise fun dp other => dp.parent ≠ other.parent) ∧
      ∀ site, Kept (objects.registry site) dps fun dp => dp.groups site := by
  induction run with
  | start objects fresh =>
      refine ⟨List.Pairwise.nil, fun site => ?_⟩
      rw [fresh site]
      exact ⟨SlotRegistry.formed_empty, fun dp none => absurd none List.not_mem_nil, fun m _ => rfl⟩
  | compute objects dps dp before new ih =>
      refine ⟨List.pairwise_cons.mpr ⟨fun other isOther => (new other isOther).symm, ih.1⟩, fun site => ?_⟩
      have kept := ih.2 site
      obtain ⟨formed, vectors⟩ := registry_computeMaximalGroups kept.formed (kept.others dp.parent new)
      refine ⟨formed, ?_, ?_⟩
      · intro other isOther
        rw [vectors]
        rcases List.mem_cons.mp isOther with rfl | old
        · exact if_pos rfl
        · rw [if_neg (new other old)]
          exact kept.attached other old
      · intro m absent
        rw [vectors, if_neg (Ne.symm (absent dp List.mem_cons_self))]
        exact kept.others m fun other isOther => absent other (List.mem_cons_of_mem _ isOther)
  | detach objects dps m before ih =>
      refine ⟨ih.1.filter _, fun site => ?_⟩
      have kept := ih.2 site
      have detached : (objects.detach m).registry site = (objects.registry site).deregister m := by
        cases site with
        | memory s side => cases side <;> rfl
        | pipe p side => cases side <;> rfl
      rw [detached]
      refine ⟨kept.formed.deregister m, ?_, ?_⟩
      · intro dp isAttached
        obtain ⟨old, other⟩ := List.mem_filter.mp isAttached
        rw [SlotRegistry.vector_deregister, if_neg (of_decide_eq_true other)]
        exact kept.attached dp old
      · intro m' absent
        rw [SlotRegistry.vector_deregister]
        by_cases same : m' = m
        · exact if_pos same
        · rw [if_neg same]
          apply kept.others
          intro dp old isParent
          exact absent dp (List.mem_filter.mpr ⟨old, decide_eq_true (isParent ▸ same)⟩) isParent

end Elaboration

end System

section Slices
variable {name : String} {width n : Nat} {hindex lindex down count : Int}

/-- The slice of a group at its place in the section of the module is the slice of the slot. -/
theorem denotes_slots (low : 0 ≤ lindex) (high : hindex < count) (length : hindex + 1 - lindex = n) (least : 0 ≤ down)
    (most : down < n) :
    Denotes (.slots name width down down) (.range name (n * width - 1) 0) (.slots name width hindex lindex)
      (.range name (count * width - 1) 0) width (lindex + down) := by
  obtain rfl : hindex = lindex + n - 1 := by omega
  have widths : (0 : Int) ≤ width := Int.natCast_nonneg width
  refine ⟨⟨rfl, rfl⟩, ⟨?_, ?_⟩, ?_, ⟨?_, ?_⟩, ?_, ?_⟩ <;> simp only [PortSection.slots, PortSection.high, PortSection.low]
  · exact Int.mul_nonneg least widths
  · have bound : (down + 1) * width ≤ n * width := Int.mul_le_mul_of_nonneg_right (by omega) widths
    omega
  · ring
  · exact Int.mul_nonneg low widths
  · have bound : (lindex + n - 1 + 1) * width ≤ count * width := Int.mul_le_mul_of_nonneg_right (by omega) widths
    omega
  · ring
  · ring

theorem denotes_bit (low : 0 ≤ lindex) (high : hindex < count) (length : hindex + 1 - lindex = n) (least : 0 ≤ down)
    (most : down < n) :
    Denotes (.bit name down) (.range name (n * (1 : Nat) - 1) 0) (.slots name 1 hindex lindex)
      (.range name (count * (1 : Nat) - 1) 0) 1 (lindex + down) := by
  have bits := @denotes_slots name 1 n hindex lindex down count low high length least most
  refine ⟨bits.names, ?_, bits.mapped, bits.inside, ?_, ?_⟩
  · have within := bits.within
    simp only [PortSection.slots, PortSection.high, PortSection.low] at within ⊢
    omega
  · have isLow := bits.low
    simp only [PortSection.slots, PortSection.low] at isLow ⊢
    omega
  · have isHigh := bits.high
    simp only [PortSection.slots, PortSection.high, PortSection.low] at isHigh ⊢
    omega

end Slices

/-- The slices of the ports of a group, and of its module, meet at one slot. -/
def MemorySlot (ms : VcMemorySpace M) (m : M) (groups : List Nat) (side : LoadOrStore) (idx : Nat) (slot : Int) :
    Prop :=
  ∃ hindex lindex, (ms.registry side).getCallerModuleSection m = some (hindex, lindex) ∧
    lindex ≤ slot ∧ slot ≤ hindex ∧ ∀ port : MemoryPort, port.loadOrStore = side →
      ∃ formal, ms.getVHDLMemoryInterfacePortSection m port idx = some formal ∧
        Denotes formal (ms.interfacePort port groups.length) (ms.getAggregateSection port hindex lindex)
          (ms.interfaceSignal port) (ms.portWidth port) slot

def PipeSlot (p : VcPipe M) (m : M) (groups : List Nat) (side : ReadOrWrite) (idx : Nat) (slot : Int) : Prop :=
  ∃ hindex lindex, (p.registry side).getCallerModuleSection m = some (hindex, lindex) ∧
    lindex ≤ slot ∧ slot ≤ hindex ∧ ∀ port : PipePort, port.readOrWrite = side →
      ∃ formal, p.getVHDLIOportInterfacePortSection groups port idx = some formal ∧
        Denotes formal (p.interfacePort port groups.length) (p.getPipeAggregateSection port hindex lindex)
          (p.interfaceSignal port) (p.portWidth port) slot

section Groups
variable {r : SlotRegistry M} {m : M} {idx : Nat}

theorem SlotRegistry.Formed.place (formed : r.Formed) (isGroup : idx ∈ r.vector m) :
    r.groupMap.lookup m = some (r.vector m) ∧ ∃ hindex lindex down,
      r.getCallerModuleSection m = some (hindex, lindex) ∧ downIndex (r.vector m) idx = some down ∧
      r.slotOf m idx = some (lindex + down) ∧ 0 ≤ lindex ∧ hindex < r.count ∧
      hindex + 1 - lindex = (r.vector m).length ∧ 0 ≤ down ∧ down < (r.vector m).length := by
  have found : r.groupMap.lookup m = some (r.vector m) := by
    unfold SlotRegistry.vector at isGroup ⊢
    cases isEntry : r.groupMap.lookup m with
    | none =>
        rw [isEntry] at isGroup
        exact absurd isGroup List.not_mem_nil
    | some v => rfl
  have member := mem_of_lookup found
  obtain ⟨hindex, lindex, isSection, low, high, length⟩ := formed.assigned.sections m _ member
  have isDown := downIndex_of_mem isGroup
  have short := List.idxOf_lt_length_of_mem isGroup
  exact ⟨found, hindex, lindex, _, isSection, isDown, formed.slotOf_eq member isSection isDown, low, high, length,
    by omega, by omega⟩

theorem memorySlot_of_group {ms : VcMemorySpace M} {side : LoadOrStore} (formed : (ms.registry side).Formed)
    (isGroup : idx ∈ (ms.registry side).vector m) :
    ∃ slot, (ms.registry side).slotOf m idx = some slot ∧
      MemorySlot ms m ((ms.registry side).vector m) side idx slot := by
  obtain ⟨found, hindex, lindex, down, isSection, isDown, isSlot, low, high, length, least, most⟩ :=
    formed.place isGroup
  refine ⟨lindex + down, isSlot, hindex, lindex, isSection, by omega, by omega, ?_⟩
  rintro port rfl
  cases handshake : port.isHandshake with
  | true =>
      refine ⟨.bit (ms.getVHDLMemoryInterfacePortName port) down, ?_, ?_⟩
      · rw [VcMemorySpace.getVHDLMemoryInterfacePortSection, found]
        simp [isDown, handshake]
      · have unit : ms.portWidth port = 1 := by
          cases port <;> first | rfl | exact absurd handshake (by decide)
        unfold VcMemorySpace.interfacePort VcMemorySpace.getAggregateSection VcMemorySpace.interfaceSignal
        rw [unit]
        exact denotes_bit low high length least most
  | false =>
      refine ⟨.slots (ms.getVHDLMemoryInterfacePortName port) (ms.portWidth port) down down, ?_, ?_⟩
      · rw [VcMemorySpace.getVHDLMemoryInterfacePortSection, found]
        simp [isDown, handshake]
      · exact denotes_slots low high length least most

theorem pipeSlot_of_group {p : VcPipe M} {side : ReadOrWrite} (formed : (p.registry side).Formed)
    (isGroup : idx ∈ (p.registry side).vector m) :
    ∃ slot, (p.registry side).slotOf m idx = some slot ∧
      PipeSlot p m ((p.registry side).vector m) side idx slot := by
  obtain ⟨-, hindex, lindex, down, isSection, isDown, isSlot, low, high, length, least, most⟩ :=
    formed.place isGroup
  refine ⟨lindex + down, isSlot, hindex, lindex, isSection, by omega, by omega, ?_⟩
  rintro port rfl
  cases handshake : port.isHandshake with
  | true =>
      refine ⟨.bit (p.getVHDLPipeInterfacePortName port) down, ?_, ?_⟩
      · simp [VcPipe.getVHDLIOportInterfacePortSection, isDown, handshake]
      · have unit : p.portWidth port = 1 := by simp [VcPipe.portWidth, handshake]
        unfold VcPipe.interfacePort VcPipe.getPipeAggregateSection VcPipe.interfaceSignal
        rw [unit]
        exact denotes_bit low high length least most
  | false =>
      have data : p.portWidth port = p.width := by simp [VcPipe.portWidth, handshake]
      refine ⟨.slots (p.getVHDLPipeInterfacePortName port) (p.portWidth port) down down, ?_, ?_⟩
      · simp [VcPipe.getVHDLIOportInterfacePortSection, isDown, handshake, data]
      · exact denotes_slots low high length least most

theorem SlotRegistry.Formed.section_alone (formed : r.Formed) (isGroup : idx ∈ r.vector m)
    (alone : ∀ m', m' ≠ m → r.vector m' = []) : r.getCallerModuleSection m = some (r.count - 1, 0) := by
  obtain ⟨-, hindex, lindex, down, isSection, -, -, low, high, length, least, most⟩ := formed.place isGroup
  have owned : ∀ slot, 0 ≤ slot → slot < r.count → lindex ≤ slot ∧ slot ≤ hindex := by
    intro slot bottom top
    obtain ⟨⟨m', idx'⟩, ⟨has, isSlot⟩, -⟩ := formed.assigned.groups slot bottom top
    have own : m' = m := by
      by_contra other
      have isOther := (has_iff_vector formed).mp has
      rw [alone m' other] at isOther
      exact absurd isOther List.not_mem_nil
    subst own
    obtain ⟨slot', isSlot', hindex', lindex', isSection', bounds⟩ := formed.assigned.inside m' idx' has
    obtain rfl := Option.some.inj (isSlot.symm.trans isSlot')
    obtain ⟨rfl, rfl⟩ := Prod.mk.inj (Option.some.inj (isSection.symm.trans isSection'))
    exact bounds
  have first := owned 0 (le_refl 0) (by omega)
  have last := owned (r.count - 1) (by omega) (by omega)
  rw [isSection, show lindex = 0 by omega, show hindex = r.count - 1 by omega]

end Groups

section Main
variable {S P : Type} [DecidableEq S] [DecidableEq P]

/-- The slots are a bijection, and the slices printed for a group denote its slot;
where only one module has groups, as for an object inside it, its ports have all slots. -/
theorem portSlots_bijective {objects : SharedObjects M S P} {dps : List (DataPathGroups M S P)}
    (run : Elaborates objects dps) :
    (∀ site, (objects.registry site).Assigned ∧ ∀ m idx, (objects.registry site).Has m idx ↔
      ∃ dp ∈ dps, dp.parent = m ∧ idx ∈ dp.groups site) ∧
    (∀ dp ∈ dps, ∀ s side, ∀ idx ∈ dp.groups (.memory s side),
      ∃ slot, (objects.registry (.memory s side)).slotOf dp.parent idx = some slot ∧
        MemorySlot (objects.memorySpaces s) dp.parent (dp.groups (.memory s side)) side idx slot) ∧
    (∀ dp ∈ dps, ∀ p side, ∀ idx ∈ dp.groups (.pipe p side),
      ∃ slot, (objects.registry (.pipe p side)).slotOf dp.parent idx = some slot ∧
        PipeSlot (objects.pipes p) dp.parent (dp.groups (.pipe p side)) side idx slot) ∧
    ∀ dp ∈ dps, ∀ site, dp.groups site ≠ [] →
      (∀ other ∈ dps, other.parent ≠ dp.parent → other.groups site = []) →
      (objects.registry site).getCallerModuleSection dp.parent = some ((objects.registry site).count - 1, 0) := by
  obtain ⟨-, kept⟩ := run.kept
  refine ⟨?_, ?_, ?_, ?_⟩
  · intro site
    refine ⟨(kept site).formed.assigned, ?_⟩
    intro m idx
    rw [SlotRegistry.has_iff_vector (kept site).formed]
    constructor
    · intro isGroup
      by_contra absent
      rw [(kept site).others m (by
        intro dp isAttached isParent
        refine absent ⟨dp, isAttached, isParent, ?_⟩
        rwa [← (kept site).attached dp isAttached, isParent])] at isGroup
      exact absurd isGroup List.not_mem_nil
    · rintro ⟨dp, isAttached, rfl, isGroup⟩
      rwa [(kept site).attached dp isAttached]
  · intro dp isAttached s side idx isGroup
    have vector : ((objects.memorySpaces s).registry side).vector dp.parent = dp.groups (.memory s side) :=
      (kept (.memory s side)).attached dp isAttached
    have slot := memorySlot_of_group (kept (.memory s side)).formed (vector ▸ isGroup)
    rwa [vector] at slot
  · intro dp isAttached p side idx isGroup
    have vector : ((objects.pipes p).registry side).vector dp.parent = dp.groups (.pipe p side) :=
      (kept (.pipe p side)).attached dp isAttached
    have slot := pipeSlot_of_group (kept (.pipe p side)).formed (vector ▸ isGroup)
    rwa [vector] at slot
  · intro dp isAttached site occupied alone
    have vector := (kept site).attached dp isAttached
    obtain ⟨idx, isGroup⟩ := List.exists_mem_of_ne_nil _ occupied
    apply (kept site).formed.section_alone (vector ▸ isGroup)
    intro m other
    by_cases present : ∃ dp' ∈ dps, dp'.parent = m
    · obtain ⟨dp', isOther, rfl⟩ := present
      rw [(kept site).attached dp' isOther]
      exact alone dp' isOther other
    · exact (kept site).others m fun dp' isOther isParent => present ⟨dp', isOther, isParent⟩

def sharedLoads : List (DataPathGroups Nat Unit Empty) :=
  [{ parent := 1, loadGroups := [⟨(), 2⟩], storeGroups := [⟨(), 1⟩], inportGroups := [], outportGroups := [] },
    { parent := 0, loadGroups := [⟨(), 1⟩, ⟨(), 4⟩], storeGroups := [], inportGroups := [], outportGroups := [] }]

def unusedObjects : SharedObjects Nat Unit Empty :=
  { memorySpaces := fun _ => { vhdlId := "memory_space_0", wordSize := 8, addressWidth := 4, orderedFlag := true,
                               loads := .empty, stores := .empty, maxTagMap := [] }
    pipes := Empty.elim }

def sharedObjects : SharedObjects Nat Unit Empty :=
  sharedLoads.foldr DataPathGroups.computeMaximalGroups unusedObjects

theorem sharedObjects_elaborates : Elaborates sharedObjects sharedLoads := by
  refine .compute _ _ _ (.compute _ _ _ (.start _ ?_) ?_) ?_
  · rintro (⟨⟨⟩, side⟩ | ⟨p, -⟩)
    · cases side <;> rfl
    · exact p.elim
  · exact fun other none => absurd none List.not_mem_nil
  · intro other isOther
    obtain rfl := List.mem_singleton.mp isOther
    decide

theorem portSlots_sharedObjects :
    (sharedObjects.registry (.memory () .load)).Assigned ∧
      ∃ slot, (sharedObjects.registry (.memory () .load)).slotOf 0 1 = some slot ∧
        MemorySlot (sharedObjects.memorySpaces ()) 0 [0, 1] .load 1 slot := by
  have slots := portSlots_bijective sharedObjects_elaborates
  refine ⟨(slots.1 (.memory () .load)).1, ?_⟩
  exact slots.2.1 _ (List.mem_cons_of_mem _ List.mem_cons_self) () .load 1
    (List.mem_cons_of_mem 0 List.mem_cons_self)

example : (sharedObjects.memorySpaces ()).getVHDLMemoryInterfacePortSection 0 .lcData 0 =
    some (.range "memory_space_0_lc_data" 15 8) := by rfl

end Main

end Ahir.DataPath
