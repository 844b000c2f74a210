import Mathlib.Data.List.Induction
import Ahir.HierSys.InstanceGraph

/-!
# The hardware and the software side

`Partition_Flat_Graph` puts a leaf on the hardware side when one of the named strings starts
its hierarchical name.
-/

set_option autoImplicit false

namespace Ahir.HierSys

def matchPrefix (entireName : String) (prefixes : List String) : Bool :=
  prefixes.any fun start =>
    decide (start.toList.length ≤ entireName.toList.length) &&
      entireName.toList.take start.toList.length == start.toList

theorem matchPrefix_iff (entireName : String) (prefixes : List String) :
    matchPrefix entireName prefixes = true ↔ ∃ start ∈ prefixes, start.toList <+: entireName.toList := by
  rw [matchPrefix, List.any_eq_true]
  refine exists_congr fun start => and_congr_right fun _ => ?_
  rw [Bool.and_eq_true, decide_eq_true_iff, beq_iff_eq, List.prefix_iff_eq_take]
  constructor
  · exact fun both => both.2.symm
  · exact fun same => ⟨by rw [same]; exact List.length_take_le' _ _, same.symm⟩

/-- The instance is one of the named ones or lies below one. -/
def Named (hw : List String) (path : Path) : Prop := ∃ above, above ≠ [] ∧ above <+: path ∧ hierarchicalName above ∈ hw

def directory (path : Path) : List Char := path.flatMap fun id => id.toList ++ ['/']

/-- One of the strings ends inside an identifier on the path. -/
def StopsInside (hw : List String) (path : Path) : Prop :=
  ∃ start ∈ hw, ∃ dir id rest, path = dir ++ id :: rest ∧
    ∃ part, part <+: id.toList ∧ part ≠ id.toList ∧ start.toList = directory dir ++ part

theorem hierarchicalName_concat {path : Path} (above : path ≠ []) (id : String) :
    hierarchicalName (path ++ [id]) = hierarchicalName path ++ "/" ++ id := by
  cases path with
  | nil => exact absurd rfl above
  | cons top ids => exact List.foldl_append

theorem hierarchicalName_toList (dir : Path) (id : String) :
    (hierarchicalName (dir ++ [id])).toList = directory dir ++ id.toList := by
  induction dir using List.reverseRecOn generalizing id with
  | nil => rfl
  | append_singleton dir last ih =>
      rw [hierarchicalName_concat (by simp), String.toList_append, String.toList_append, ih, directory, directory,
        List.flatMap_append]
      simp

/-- A string that starts the characters of a path ends with an identifier or inside one. -/
theorem ends_of_starts {start : List Char} : ∀ {path : Path} {id : String}, start <+: directory path ++ id.toList →
    (∃ dir last rest, path ++ [id] = dir ++ last :: rest ∧ start = directory dir ++ last.toList) ∨
      ∃ dir last rest, path ++ [id] = dir ++ last :: rest ∧
        ∃ part, part <+: last.toList ∧ part ≠ last.toList ∧ start = directory dir ++ part := by
  intro path
  induction path generalizing start with
  | nil =>
      intro id starts
      by_cases whole : start = id.toList
      · exact Or.inl ⟨[], id, [], rfl, whole⟩
      · exact Or.inr ⟨[], id, [], rfl, start, starts, whole, rfl⟩
  | cons first path ih =>
      intro id starts
      have split : directory (first :: path) ++ id.toList = first.toList ++ '/' :: (directory path ++ id.toList) := by
        simp [directory]
      rw [split] at starts
      rcases List.prefix_or_prefix_of_prefix starts (List.prefix_append first.toList _) with inside | ⟨more, rfl⟩
      · by_cases whole : start = first.toList
        · exact Or.inl ⟨[], first, path ++ [id], rfl, whole⟩
        · exact Or.inr ⟨[], first, path ++ [id], rfl, start, inside, whole, rfl⟩
      · rw [List.prefix_append_right_inj] at starts
        cases more with
        | nil => exact Or.inl ⟨[], first, path ++ [id], rfl, List.append_nil _⟩
        | cons c more =>
            obtain ⟨rfl, inner⟩ := List.cons_prefix_cons.mp starts
            rcases ih inner with ⟨dir, last, rest, same, ends⟩ | ⟨dir, last, rest, same, part, inside, short, ends⟩
            · exact Or.inl ⟨first :: dir, last, rest, congrArg (first :: ·) same, by simp [directory, ends]⟩
            · exact Or.inr ⟨first :: dir, last, rest, congrArg (first :: ·) same, part, inside, short, by simp [directory, ends]⟩

theorem starts_hierarchicalName (dir : Path) (last : String) (rest : Path) :
    directory dir ++ last.toList <+: (hierarchicalName (dir ++ last :: rest)).toList := by
  rcases List.eq_nil_or_concat rest with rfl | ⟨middle, id, rfl⟩
  · exact (hierarchicalName_toList dir last).symm ▸ List.prefix_refl _
  · have regroup : dir ++ last :: (middle ++ [id]) = (dir ++ last :: middle) ++ [id] := by simp
    rw [List.concat_eq_append, regroup, hierarchicalName_toList, directory, directory, List.flatMap_append]
    exact ⟨'/' :: (directory middle ++ id.toList), by simp [directory]⟩

/-- The comparison of the strings finds the named instances and the strings that end inside an
identifier. -/
theorem matchPrefix_hierarchicalName (hw : List String) {path : Path} (isPath : path ≠ []) :
    matchPrefix (hierarchicalName path) hw = true ↔ Named hw path ∨ StopsInside hw path := by
  rw [matchPrefix_iff]
  constructor
  · rintro ⟨start, named, starts⟩
    obtain ⟨dir, id, rfl⟩ := (List.eq_nil_or_concat path).resolve_left isPath
    rw [List.concat_eq_append, hierarchicalName_toList] at starts
    rw [List.concat_eq_append]
    rcases ends_of_starts starts with ⟨above, last, rest, same, ends⟩ | ⟨above, last, rest, same, part, inside, short, ends⟩
    · left
      refine ⟨above ++ [last], by simp, ⟨rest, by rw [same]; simp⟩, ?_⟩
      rw [← hierarchicalName_toList] at ends
      exact String.toList_inj.mp ends ▸ named
    · exact Or.inr ⟨start, named, above, last, rest, same, part, inside, short, ends⟩
  · rintro (⟨above, nonempty, ⟨rest, rfl⟩, named⟩ | ⟨start, named, dir, id, rest, rfl, part, inside, -, ends⟩)
    · obtain ⟨dir, last, rfl⟩ := (List.eq_nil_or_concat above).resolve_left nonempty
      refine ⟨_, named, ?_⟩
      rw [List.concat_eq_append, hierarchicalName_toList, List.append_assoc]
      exact starts_hierarchicalName dir last rest
    · refine ⟨start, named, ?_⟩
      rw [ends]
      exact ((List.prefix_append_right_inj _).mpr inside).trans (starts_hierarchicalName dir id rest)

namespace FlatLeafGraph
variable (g : FlatLeafGraph)

/-- The entries of both maps that belong to one side. -/
def side (keep : Path → Bool) (instances : List Path) : FlatLeafGraph where
  flatPipes p := ((g.driven p).filter keep).isSome || ((g.driving p).filter keep).isSome
  instances := instances
  driven p := (g.driven p).filter keep
  driving p := (g.driving p).filter keep

/-- `Partition_Flat_Graph`, the software side first; what is not an instance in hardware goes
to the software side. -/
def partitionFlatGraph (hw : List String) : FlatLeafGraph × FlatLeafGraph :=
  let isInstance : Path → Bool := fun ig => !ig.dropLast.isEmpty
  let hwInstances := g.instances.filter fun ig => isInstance ig && matchPrefix (hierarchicalName ig) hw
  let swInstances := g.instances.filter fun ig => isInstance ig && !matchPrefix (hierarchicalName ig) hw
  (g.side (fun ig => !hwInstances.contains ig) swInstances, g.side hwInstances.contains hwInstances)

/-- The pipe leaves this side: it is driven here and nothing here reads it. -/
def Sends (p : PipeInstance) (driver : Path) : Prop :=
  g.flatPipes p = true ∧ g.driving p = some driver ∧ g.driven p = none

def Receives (p : PipeInstance) (reader : Path) : Prop :=
  g.flatPipes p = true ∧ g.driving p = none ∧ g.driven p = some reader

variable {g}

theorem mem_swInstances {hw : List String} {ig : Path} : ig ∈ (g.partitionFlatGraph hw).1.instances ↔
    ig ∈ g.instances ∧ ig.dropLast ≠ [] ∧ matchPrefix (hierarchicalName ig) hw = false := by
  simp [partitionFlatGraph, side]

theorem mem_hwInstances {hw : List String} {ig : Path} : ig ∈ (g.partitionFlatGraph hw).2.instances ↔
    ig ∈ g.instances ∧ ig.dropLast ≠ [] ∧ matchPrefix (hierarchicalName ig) hw = true := by
  simp [partitionFlatGraph, side]

theorem not_mem_hwInstances {hw : List String} {ig : Path} (software : ig ∈ (g.partitionFlatGraph hw).1.instances) :
    ig ∉ (g.partitionFlatGraph hw).2.instances := fun hardware => by
  have no := (mem_swInstances.mp software).2.2
  rw [(mem_hwInstances.mp hardware).2.2] at no
  cases no

/-- A pipe with its driver on one side and its reader on the other goes from that side to the
other. -/
theorem sends_receives {p : PipeInstance} {driver reader : Path} (driving : g.driving p = some driver)
    (driven : g.driven p = some reader) (keep : Path → Bool) (here : keep driver = true) (there : keep reader = false)
    (instances others : List Path) :
    (g.side keep instances).Sends p driver ∧ (g.side (fun ig => !keep ig) others).Receives p reader := by
  simp [Sends, Receives, side, driving, driven, here, there]

theorem hw_sends {hw : List String} {p : PipeInstance} {driver reader : Path} (driving : g.driving p = some driver)
    (driven : g.driven p = some reader) (here : driver ∈ (g.partitionFlatGraph hw).2.instances)
    (there : reader ∈ (g.partitionFlatGraph hw).1.instances) :
    (g.partitionFlatGraph hw).2.Sends p driver ∧ (g.partitionFlatGraph hw).1.Receives p reader :=
  sends_receives driving driven _ (List.contains_iff_mem.mpr here)
    (Bool.eq_false_iff.mpr fun found => not_mem_hwInstances there (List.contains_iff_mem.mp found)) _ _

theorem sw_sends {hw : List String} {p : PipeInstance} {driver reader : Path} (driving : g.driving p = some driver)
    (driven : g.driven p = some reader) (here : driver ∈ (g.partitionFlatGraph hw).1.instances)
    (there : reader ∈ (g.partitionFlatGraph hw).2.instances) :
    (g.partitionFlatGraph hw).1.Sends p driver ∧ (g.partitionFlatGraph hw).2.Receives p reader := by
  have kept : (g.partitionFlatGraph hw).2.instances.contains reader = true := List.contains_iff_mem.mpr there
  have other : (g.partitionFlatGraph hw).2.instances.contains driver = false :=
    Bool.eq_false_iff.mpr fun found => not_mem_hwInstances here (List.contains_iff_mem.mp found)
  have both := sends_receives driving driven (fun ig => !(g.partitionFlatGraph hw).2.instances.contains ig)
    (by rw [other]; rfl) (by rw [kept]; rfl) (g.partitionFlatGraph hw).1.instances (g.partitionFlatGraph hw).2.instances
  simp only [Bool.not_not] at both
  exact both

end FlatLeafGraph

namespace Hierarchy
variable (h : Hierarchy)

/-- The connectivity is built, and the flattening and the partition are exact. -/
structure Exact (hw : List String) : Prop where
  connected : h.connectivity.isSome = true
  roots : ∀ n ∈ h.leaves, ∀ m ∈ h.leaves, ∀ p ∈ n.inst.ports, ∀ q ∈ m.inst.ports,
    (h.roots ⟨n.path, p⟩ = h.roots ⟨m.path, q⟩ ↔ Relation.EqvGen h.Maps ⟨n.path, p⟩ ⟨m.path, q⟩)
  leaf : ∀ n ∈ h.leaves, n.path ∈ h.flat.instances
  reader : ∀ n ∈ h.leaves, ∀ r, h.Reads n r → h.flat.driven r = some n.path
  driver : ∀ n ∈ h.leaves, ∀ r, h.Drives n r → h.flat.driving r = some n.path
  placed : ∀ n ∈ h.leaves, n.isTop = false → (n.path ∈ (h.flat.partitionFlatGraph hw).2.instances ↔ Named hw n.path)
  out : ∀ a ∈ h.leaves, ∀ b ∈ h.leaves, ∀ r, h.Drives a r → h.Reads b r →
    a.path ∈ (h.flat.partitionFlatGraph hw).2.instances → b.path ∈ (h.flat.partitionFlatGraph hw).1.instances →
      (h.flat.partitionFlatGraph hw).2.Sends r a.path ∧ (h.flat.partitionFlatGraph hw).1.Receives r b.path
  into : ∀ a ∈ h.leaves, ∀ b ∈ h.leaves, ∀ r, h.Drives a r → h.Reads b r →
    a.path ∈ (h.flat.partitionFlatGraph hw).1.instances → b.path ∈ (h.flat.partitionFlatGraph hw).2.instances →
      (h.flat.partitionFlatGraph hw).1.Sends r a.path ∧ (h.flat.partitionFlatGraph hw).2.Receives r b.path

variable {h} {n : Node}

theorem inPipes_subset (i : Instance) : i.inPipes ⊆ i.ports := List.subset_append_left _ _

theorem outPipes_subset (i : Instance) : i.outPipes ⊆ i.ports := List.subset_append_right _ _

theorem mem_hwInstances_iff {hw : List String} (leaf : n ∈ h.leaves) (inner : n.isTop = false) :
    n.path ∈ (h.flat.partitionFlatGraph hw).2.instances ↔ Named hw n.path ∨ StopsInside hw n.path := by
  have recorded : n.path ∈ h.flat.instances := by
    rw [flat_instances]
    exact List.mem_map_of_mem leaf
  have below : n.path.dropLast ≠ [] := by
    rw [Node.path, List.dropLast_concat]
    exact fun top => by simp [Node.isTop, top] at inner
  have isPath : n.path ≠ [] := by simp [Node.path]
  rw [FlatLeafGraph.mem_hwInstances, matchPrefix_hierarchicalName hw isPath]
  exact ⟨fun all => all.2.2, fun found => ⟨recorded, below, found⟩⟩

/-- Flattening and partition are exact just when no default clock or reset is a port of its own
instance, no two leaves read one pipe, no two drive one, and no named string ends inside an
identifier on the way to a leaf that no name covers. -/
theorem partition_exact_iff (h : Hierarchy) (hw : List String) : h.Exact hw ↔
    (∀ n ∈ h.nodes, ¬ n.AsksRoot "clk" Instance.defaultClock ∧ ¬ n.AsksRoot "reset" Instance.defaultReset) ∧
      (∀ n ∈ h.leaves, ∀ m ∈ h.leaves, h.Shared Instance.inPipes n m → n.path = m.path) ∧
        (∀ n ∈ h.leaves, ∀ m ∈ h.leaves, h.Shared Instance.outPipes n m → n.path = m.path) ∧
          ∀ n ∈ h.leaves, n.isTop = false → StopsInside hw n.path → Named hw n.path := by
  rw [← recorded_iff (records_driven h.roots) inPipes_subset, ← recorded_iff (records_driving h.roots) outPipes_subset,
    nodes, ← h.graph.buildConnectivity_isSome [] none none fun below => absurd rfl below, ← connectivity]
  constructor
  · intro exact
    exact ⟨exact.connected, exact.reader, exact.driver, fun n leaf inner stops =>
      (exact.placed n leaf inner).mp ((mem_hwInstances_iff leaf inner).mpr (Or.inr stops))⟩
  · rintro ⟨connected, reader, driver, whole⟩
    refine ⟨connected, ?_, ?_, reader, driver, ?_, ?_, ?_⟩
    · intro n leaf m leaf' p port q port'
      exact roots_eq_iff (List.mem_of_mem_filter leaf) (List.mem_append_left _ port) (List.mem_of_mem_filter leaf')
        (List.mem_append_left _ port')
    · intro n leaf
      rw [flat_instances]
      exact List.mem_map_of_mem leaf
    · intro n leaf inner
      rw [mem_hwInstances_iff leaf inner]
      exact ⟨fun either => either.elim id (whole n leaf inner), Or.inl⟩
    · intro a leaf b leaf' r drives reads here there
      exact FlatLeafGraph.hw_sends (driver a leaf r drives) (reader b leaf' r reads) here there
    · intro a leaf b leaf' r drives reads here there
      exact FlatLeafGraph.sw_sends (driver a leaf r drives) (reader b leaf' r reads) here there

def pair : Hierarchy where
  top := ⟨"top", ["cmd"], [], ["samples"], id, "clk", "reset"⟩
  children := .cons ⟨"dsp", ["cmd"], ["samples"], [], id, "clk", "reset"⟩ .nil
    (.cons ⟨"dsp2", ["samples"], [], [], id, "clk", "reset"⟩ .nil .nil)
  accepted := by
    simp [Forest.Accepted, Forest.ids, Instance.pipes, Instance.ports]

theorem pair_not_exact : ¬ pair.Exact ["top/dsp"] := by
  intro exact
  have leaf : (⟨["top"], ⟨"dsp2", ["samples"], [], [], id, "clk", "reset"⟩, true⟩ : Node) ∈ pair.leaves := by
    simp [leaves, nodes, graph, pair, Forest.nodes, Forest.isNil]
  -- `dsp` starts `dsp2`
  have stops : StopsInside ["top/dsp"] ["top", "dsp2"] :=
    ⟨"top/dsp", List.mem_singleton_self _, ["top"], "dsp2", [], rfl, "dsp".toList, by decide, by decide, by decide⟩
  obtain ⟨above, nonempty, starts, named⟩ := (exact.placed _ leaf rfl).mp ((mem_hwInstances_iff leaf rfl).mpr (Or.inr stops))
  obtain ⟨rest, rfl, rfl | rfl⟩ : ∃ rest, above = "top" :: rest ∧ (rest = [] ∨ rest = ["dsp2"]) := by
    simpa [Node.path, List.prefix_cons_iff, nonempty] using starts
  · exact absurd named (by decide)
  · exact absurd named (by decide)

end Hierarchy

end Ahir.HierSys
