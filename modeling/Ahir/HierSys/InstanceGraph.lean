import Mathlib.Logic.Relation
import Mathlib.Logic.Function.Basic
import Mathlib.Data.List.Nodup

/-!
# The instance graph of a system

A node of the graph is an instance of a system; its ports are mapped to pipes of the node
above it.  `Set_Root_Pipes` follows the port maps up to the pipe that all of them stand
for, and `Build_Flat_Leaf_Graph` notes which leaf reads and which drives such a pipe.
-/

set_option autoImplicit false

namespace Ahir.HierSys

/-- An instance with the pipes of its system; `getActual` is the port map.  Where the instance
maps no clock or reset, the default is `clk` or `reset`. -/
structure Instance where
  id : String
  inPipes : List String
  outPipes : List String
  internalPipes : List String
  getActual : String → String
  defaultClock : String
  defaultReset : String

def Instance.ports (i : Instance) : List String := i.inPipes ++ i.outPipes

def Instance.pipes (i : Instance) : List String := i.ports ++ i.internalPipes

/-- The `_child_nodes` of a node, each with its own. -/
inductive Forest where
  | nil
  | cons (head : Instance) (children : Forest) (siblings : Forest)

abbrev Path := List String

structure PipeInstance where
  node : Path
  pipe : String
  deriving DecidableEq

structure Node where
  parent : Path
  inst : Instance
  isLeaf : Bool

def Node.path (n : Node) : Path := n.parent ++ [n.inst.id]

def Node.isTop (n : Node) : Bool := n.parent.isEmpty

namespace Forest

def isNil : Forest → Bool
  | nil => true
  | cons _ _ _ => false

def ids : Forest → List String
  | nil => []
  | cons head _ siblings => head.id :: siblings.ids

/-- The nodes below `parent`, each before its children. -/
def nodes (parent : Path) : Forest → List Node
  | nil => []
  | cons head children siblings =>
      ⟨parent, head, children.isNil⟩ :: (children.nodes (parent ++ [head.id]) ++ siblings.nodes parent)

/-- What the checks accept below a system with these pipes: the instances of a system have
names of their own, and ports are mapped to pipes. -/
def Accepted (pipes : List String) : Forest → Prop
  | nil => True
  | cons head children siblings =>
      (head.id ∉ siblings.ids ∧ ∀ p ∈ head.ports, head.getActual p ∈ pipes) ∧
        children.Accepted head.pipes ∧ siblings.Accepted pipes

end Forest

/-- `Hierarchical_Name`: a node adds its identifier to the name of the node above. -/
def hierarchicalName : Path → String
  | [] => ""
  | top :: ids => ids.foldl (fun name id => name ++ "/" ++ id) top

abbrev RootMap := PipeInstance → Option PipeInstance

/-! ### Default clocks and resets -/

/-- `Find_Default_Flat_Clock` with `standard` the name `clk`, `Find_Default_Flat_Reset` with
`reset`; `above` is the answer of the node above.  It is asserted that a port has a root. -/
def Node.findDefaultFlat (n : Node) (standard : String) (default : Instance → String) (root : RootMap)
    (above : Option String) : Option String :=
  if n.isTop then some standard
  else if default n.inst = standard then above
  else if default n.inst ∈ n.inst.inPipes then
    (root ⟨n.path, default n.inst⟩).map fun ripp => hierarchicalName ripp.node ++ "/" ++ ripp.pipe
  else some (default n.inst)

/-- `Build_Connectivity`: each node gets a default clock and reset after its children.  The root
pipes are not set yet. -/
def Forest.buildConnectivity (parent : Path) (clockAbove resetAbove : Option String) :
    Forest → Option (List (Path × String × String))
  | nil => some []
  | cons head children siblings =>
      let n : Node := ⟨parent, head, children.isNil⟩
      let clock := n.findDefaultFlat "clk" Instance.defaultClock (fun _ => none) clockAbove
      let reset := n.findDefaultFlat "reset" Instance.defaultReset (fun _ => none) resetAbove
      (children.buildConnectivity n.path clock reset).bind fun below =>
        clock.bind fun defClk => reset.bind fun defReset =>
          (siblings.buildConnectivity parent clockAbove resetAbove).map fun others =>
            below ++ (n.path, defClk, defReset) :: others

/-- The default is the name of a port of the instance itself. -/
def Node.AsksRoot (n : Node) (standard : String) (default : Instance → String) : Prop :=
  n.isTop = false ∧ default n.inst ≠ standard ∧ default n.inst ∈ n.inst.inPipes

theorem Node.findDefaultFlat_isSome (n : Node) (standard : String) (default : Instance → String) (above : Option String) :
    (n.findDefaultFlat standard default (fun _ => none) above).isSome = true ↔
      (n.isTop = false → default n.inst = standard → above.isSome = true) ∧ ¬ n.AsksRoot standard default := by
  unfold findDefaultFlat AsksRoot
  cases top : n.isTop with
  | true => simp
  | false =>
      rw [if_neg Bool.false_ne_true]
      by_cases same : default n.inst = standard
      · simp [same]
      · rw [if_neg same]
        by_cases port : default n.inst ∈ n.inst.inPipes
        · simp [same, port]
        · simp [same, port]

/-- The connectivity is built when no default is a port of its own instance. -/
theorem Forest.buildConnectivity_isSome (f : Forest) : ∀ (parent : Path) (clockAbove resetAbove : Option String),
    (parent ≠ [] → clockAbove.isSome = true ∧ resetAbove.isSome = true) →
      ((f.buildConnectivity parent clockAbove resetAbove).isSome = true ↔ ∀ n ∈ f.nodes parent,
        ¬ n.AsksRoot "clk" Instance.defaultClock ∧ ¬ n.AsksRoot "reset" Instance.defaultReset) := by
  induction f with
  | nil => simp [buildConnectivity, nodes]
  | cons head children siblings ihChildren ihSiblings =>
      intro parent clockAbove resetAbove above
      let n : Node := ⟨parent, head, children.isNil⟩
      have inner : n.isTop = false → parent ≠ [] := fun inner top => by simp [n, Node.isTop, top] at inner
      have clock := n.findDefaultFlat_isSome "clk" Instance.defaultClock clockAbove
      have reset := n.findDefaultFlat_isSome "reset" Instance.defaultReset resetAbove
      rw [and_iff_right fun below _ => (above (inner below)).1] at clock
      rw [and_iff_right fun below _ => (above (inner below)).2] at reset
      rw [nodes, List.forall_mem_cons, List.forall_mem_append, ← clock, ← reset,
        ← ihSiblings parent clockAbove resetAbove above]
      cases foundClock : n.findDefaultFlat "clk" Instance.defaultClock (fun _ => none) clockAbove with
      | none => simp [buildConnectivity, n, foundClock]
      | some defClk =>
          cases foundReset : n.findDefaultFlat "reset" Instance.defaultReset (fun _ => none) resetAbove with
          | none => simp [buildConnectivity, n, foundClock, foundReset]
          | some defReset =>
              rw [← ihChildren (parent ++ [head.id]) (some defClk) (some defReset) fun _ => ⟨rfl, rfl⟩]
              simp only [buildConnectivity, n, foundClock, foundReset, Option.bind_some, Node.path]
              cases children.buildConnectivity (parent ++ [head.id]) (some defClk) (some defReset) <;> simp

/-! ### Root pipes -/

namespace Node
variable (n : Node)

def ownRoots (pipes : List String) (root : RootMap) : RootMap :=
  pipes.foldl (fun root p => Function.update root ⟨n.path, p⟩ (some ⟨n.path, p⟩)) root

/-- The arcs of `Build_Connectivity` that have an actual pipe. -/
def portRoots (root : RootMap) : RootMap :=
  n.inst.ports.foldl (fun root p => Function.update root ⟨n.path, p⟩ (root ⟨n.parent, n.inst.getActual p⟩)) root

/-- `Set_Root_Pipes` without the child nodes. -/
def setRoots (root : RootMap) : RootMap :=
  if n.isTop then n.ownRoots n.inst.internalPipes (n.ownRoots n.inst.ports root)
  else n.portRoots (n.ownRoots n.inst.internalPipes root)

end Node

def Forest.setRootPipes (parent : Path) : Forest → RootMap → RootMap
  | nil, root => root
  | cons head children siblings, root =>
      siblings.setRootPipes parent
        (children.setRootPipes (parent ++ [head.id]) (Node.setRoots ⟨parent, head, children.isNil⟩ root))

namespace Node
variable (n : Node) (root : RootMap)

theorem ownRoots_of_ne (pipes : List String) {q : PipeInstance} (other : q.node ≠ n.path) :
    n.ownRoots pipes root q = root q := by
  unfold ownRoots
  induction pipes generalizing root with
  | nil => rfl
  | cons p pipes ih =>
      rw [List.foldl_cons, ih]
      exact Function.update_of_ne (fun same => other (congrArg PipeInstance.node same)) _ _

theorem ownRoots_path (pipes : List String) (p : String) :
    n.ownRoots pipes root ⟨n.path, p⟩ = if p ∈ pipes then some ⟨n.path, p⟩ else root ⟨n.path, p⟩ := by
  unfold ownRoots
  induction pipes generalizing root with
  | nil => rfl
  | cons a pipes ih =>
      rw [List.foldl_cons, ih]
      by_cases later : p ∈ pipes
      · rw [if_pos later, if_pos (List.mem_cons_of_mem _ later)]
      · rw [if_neg later]
        by_cases here : p = a
        · subst here
          rw [if_pos List.mem_cons_self, Function.update_self]
        · rw [if_neg (by simp [here, later]), Function.update_of_ne (by simp [here])]

theorem parent_ne_path : n.parent ≠ n.path := fun same => by
  have length := congrArg List.length same
  rw [path, List.length_append, List.length_singleton] at length
  omega

theorem portRoots_of_ne {q : PipeInstance} (other : q.node ≠ n.path) : n.portRoots root q = root q := by
  unfold portRoots
  induction n.inst.ports generalizing root with
  | nil => rfl
  | cons p ports ih =>
      rw [List.foldl_cons, ih]
      exact Function.update_of_ne (fun same => other (congrArg PipeInstance.node same)) _ _

theorem portRoots_path (p : String) : n.portRoots root ⟨n.path, p⟩ =
    if p ∈ n.inst.ports then root ⟨n.parent, n.inst.getActual p⟩ else root ⟨n.path, p⟩ := by
  unfold portRoots
  induction n.inst.ports generalizing root with
  | nil => rfl
  | cons a ports ih =>
      have above : ∀ b, Function.update root ⟨n.path, a⟩ (root ⟨n.parent, n.inst.getActual a⟩) ⟨n.parent, b⟩ =
          root ⟨n.parent, b⟩ := fun b =>
        Function.update_of_ne (fun same => n.parent_ne_path (congrArg PipeInstance.node same)) _ _
      rw [List.foldl_cons, ih, above]
      by_cases later : p ∈ ports
      · rw [if_pos later, if_pos (List.mem_cons_of_mem _ later)]
      · rw [if_neg later]
        by_cases here : p = a
        · subst here
          rw [if_pos List.mem_cons_self, Function.update_self]
        · rw [if_neg (by simp [here, later]), Function.update_of_ne (by simp [here])]

theorem setRoots_of_ne {q : PipeInstance} (other : q.node ≠ n.path) : n.setRoots root q = root q := by
  unfold setRoots
  split
  · rw [ownRoots_of_ne _ _ _ other, ownRoots_of_ne _ _ _ other]
  · rw [portRoots_of_ne _ _ other, ownRoots_of_ne _ _ _ other]

/-- A port has the root of the pipe above, any other pipe is its own root. -/
theorem setRoots_path {p : String} (isPipe : p ∈ n.inst.pipes) : n.setRoots root ⟨n.path, p⟩ =
    if p ∈ n.inst.ports ∧ n.isTop = false then root ⟨n.parent, n.inst.getActual p⟩ else some ⟨n.path, p⟩ := by
  unfold setRoots
  cases top : n.isTop with
  | true =>
      rw [if_pos rfl, if_neg (by simp), ownRoots_path, ownRoots_path]
      rcases List.mem_append.mp isPipe with port | internal
      · rw [if_pos port, ite_self]
      · rw [if_pos internal]
  | false =>
      rw [if_neg Bool.false_ne_true, portRoots_path]
      by_cases port : p ∈ n.inst.ports
      · rw [if_pos port, if_pos ⟨port, rfl⟩, ownRoots_of_ne _ _ _ n.parent_ne_path]
      · rw [if_neg port, if_neg fun both => port both.1, ownRoots_path, if_pos ((List.mem_append.mp isPipe).resolve_left port)]

end Node

namespace Forest
variable {parent : Path} {f : Forest}

/-- The paths that start with a child node of `parent`. -/
def Below (parent : Path) (f : Forest) (x : Path) : Prop := ∃ id ∈ f.ids, parent ++ [id] <+: x

theorem not_below_parent : ¬ f.Below parent parent := by
  rintro ⟨id, -, starts⟩
  have length := starts.length_le
  rw [List.length_append, List.length_singleton] at length
  omega

theorem prefix_of_below {x : Path} (below : f.Below parent x) : parent <+: x := by
  obtain ⟨id, -, starts⟩ := below
  exact (List.prefix_append _ _).trans starts

theorem not_below_of_starts {id : String} (fresh : id ∉ f.ids) {x : Path} (starts : parent ++ [id] <+: x) :
    ¬ f.Below parent x := by
  rintro ⟨other, member, startsOther⟩
  have same : parent ++ [id] = parent ++ [other] :=
    (List.prefix_of_prefix_length_le starts startsOther (by simp)).eq_of_length (by simp)
  rw [List.append_cancel_left_eq, List.singleton_inj] at same
  exact fresh (same ▸ member)

theorem below_nodes : ∀ {parent : Path} {n : Node}, n ∈ f.nodes parent →
    f.Below parent n.path ∧ (n.parent = parent ∨ f.Below parent n.parent) := by
  induction f with
  | nil => exact fun member => absurd member List.not_mem_nil
  | cons head children siblings ihChildren ihSiblings =>
      intro parent n member
      have first : ∀ {x}, parent ++ [head.id] <+: x → (cons head children siblings).Below parent x :=
        fun starts => ⟨head.id, List.mem_cons_self, starts⟩
      rcases List.mem_cons.mp member with rfl | member
      · exact ⟨first (List.prefix_refl _), Or.inl rfl⟩
      rcases List.mem_append.mp member with inner | later
      · obtain ⟨path, up⟩ := ihChildren inner
        refine ⟨first (prefix_of_below path), Or.inr (first ?_)⟩
        rcases up with same | below
        · exact same ▸ List.prefix_refl _
        · exact prefix_of_below below
      · obtain ⟨⟨id, isId, starts⟩, up⟩ := ihSiblings later
        refine ⟨⟨id, List.mem_cons_of_mem _ isId, starts⟩, up.imp_right ?_⟩
        rintro ⟨id', isId', starts'⟩
        exact ⟨id', List.mem_cons_of_mem _ isId', starts'⟩

theorem setRootPipes_of_not_below : ∀ {parent : Path} {root : RootMap} {q : PipeInstance}, ¬ f.Below parent q.node →
    f.setRootPipes parent root q = root q := by
  induction f with
  | nil => exact fun _ => rfl
  | cons head children siblings ihChildren ihSiblings =>
      intro parent root q outside
      have outsideHead : ¬ parent ++ [head.id] <+: q.node := fun starts => outside ⟨head.id, List.mem_cons_self, starts⟩
      rw [setRootPipes, ihSiblings, ihChildren, Node.setRoots_of_ne]
      · exact fun same => outsideHead (same ▸ List.prefix_refl _)
      · exact fun below => outsideHead (prefix_of_below below)
      · rintro ⟨id, isId, starts⟩
        exact outside ⟨id, List.mem_cons_of_mem _ isId, starts⟩

/-- In the map that comes out, every pipe has the root that its node gives it. -/
theorem setRootPipes_nodes : ∀ {parent : Path} {pipes : List String} (root : RootMap), f.Accepted pipes →
    ∀ n ∈ f.nodes parent, ∀ p ∈ n.inst.pipes, f.setRootPipes parent root ⟨n.path, p⟩ =
      if p ∈ n.inst.ports ∧ n.isTop = false then f.setRootPipes parent root ⟨n.parent, n.inst.getActual p⟩
      else some ⟨n.path, p⟩ := by
  induction f with
  | nil => exact fun _ _ _ member => absurd member List.not_mem_nil
  | cons head children siblings ihChildren ihSiblings =>
      intro parent pipes root accepted n member p isPipe
      obtain ⟨⟨fresh, -⟩, acceptedChildren, acceptedSiblings⟩ := accepted
      -- what has been set at or below the head is kept
      have kept : ∀ {root : RootMap} {q : PipeInstance}, parent ++ [head.id] <+: q.node →
          siblings.setRootPipes parent root q = root q :=
        fun starts => setRootPipes_of_not_below (not_below_of_starts fresh starts)
      rw [setRootPipes]
      rcases List.mem_cons.mp member with rfl | member
      · have outside : ¬ children.Below (parent ++ [head.id]) parent := fun below => by
          have length := (prefix_of_below below).length_le
          rw [List.length_append, List.length_singleton] at length
          omega
        have above : ∀ (root : RootMap) (b : String), siblings.setRootPipes parent
            (children.setRootPipes (parent ++ [head.id]) root) ⟨parent, b⟩ = root ⟨parent, b⟩ := fun root b =>
          (setRootPipes_of_not_below (q := ⟨parent, b⟩) not_below_parent).trans
            (setRootPipes_of_not_below (q := ⟨parent, b⟩) outside)
        rw [kept (List.prefix_refl _), above, Node.setRoots_of_ne _ _ (Node.parent_ne_path ⟨parent, head, children.isNil⟩)]
        exact (setRootPipes_of_not_below (q := ⟨parent ++ [head.id], p⟩) not_below_parent).trans
          (Node.setRoots_path ⟨parent, head, children.isNil⟩ root isPipe)
      rcases List.mem_append.mp member with inner | later
      · obtain ⟨path, up⟩ := below_nodes inner
        have starts : parent ++ [head.id] <+: n.parent := by
          rcases up with same | below
          · exact same ▸ List.prefix_refl _
          · exact prefix_of_below below
        rw [kept (prefix_of_below path), kept starts]
        exact ihChildren _ acceptedChildren n inner p isPipe
      · exact ihSiblings _ acceptedSiblings n later p isPipe

/-- The ports of a node are mapped to pipes of the node above. -/
theorem actual_mem : ∀ {parent : Path} {pipes : List String}, f.Accepted pipes → ∀ n ∈ f.nodes parent,
    (n.parent = parent ∧ ∀ p ∈ n.inst.ports, n.inst.getActual p ∈ pipes) ∨
      ∃ m ∈ f.nodes parent, m.path = n.parent ∧ ∀ p ∈ n.inst.ports, n.inst.getActual p ∈ m.inst.pipes := by
  induction f with
  | nil => exact fun _ _ member => absurd member List.not_mem_nil
  | cons head children siblings ihChildren ihSiblings =>
      intro parent pipes accepted n member
      obtain ⟨⟨-, mapped⟩, acceptedChildren, acceptedSiblings⟩ := accepted
      rcases List.mem_cons.mp member with rfl | member
      · exact Or.inl ⟨rfl, mapped⟩
      rcases List.mem_append.mp member with inner | later
      · right
        rcases ihChildren acceptedChildren n inner with ⟨up, isPipe⟩ | ⟨m, isNode, up, isPipe⟩
        · exact ⟨_, List.mem_cons_self, up.symm, isPipe⟩
        · exact ⟨m, List.mem_cons_of_mem _ (List.mem_append_left _ isNode), up, isPipe⟩
      · rcases ihSiblings acceptedSiblings n later with up | ⟨m, isNode, up⟩
        · exact Or.inl up
        · exact Or.inr ⟨m, List.mem_cons_of_mem _ (List.mem_append_right _ isNode), up⟩

end Forest

/-! ### Chains of port maps -/

structure Hierarchy where
  top : Instance
  children : Forest
  accepted : children.Accepted top.pipes

namespace Hierarchy
variable (h : Hierarchy)

def graph : Forest := .cons h.top h.children .nil

def nodes : List Node := h.graph.nodes []

/-- `Build_Connectivity` of the whole graph. -/
def connectivity : Option (List (Path × String × String)) := h.graph.buildConnectivity [] none none

/-- `Set_Root_Pipes` of the whole graph. -/
def roots : RootMap := h.graph.setRootPipes [] fun _ => none

def Maps (a b : PipeInstance) : Prop :=
  ∃ n ∈ h.nodes, n.isTop = false ∧ ∃ p ∈ n.inst.ports, a = ⟨n.path, p⟩ ∧ b = ⟨n.parent, n.inst.getActual p⟩

theorem accepted_graph : h.graph.Accepted (h.top.ports.map h.top.getActual) :=
  ⟨⟨List.not_mem_nil, fun _ port => List.mem_map_of_mem port⟩, h.accepted, trivial⟩

variable {h} {n : Node} {p : String}

theorem roots_node (isNode : n ∈ h.nodes) (isPipe : p ∈ n.inst.pipes) : h.roots ⟨n.path, p⟩ =
    if p ∈ n.inst.ports ∧ n.isTop = false then h.roots ⟨n.parent, n.inst.getActual p⟩ else some ⟨n.path, p⟩ :=
  Forest.setRootPipes_nodes _ h.accepted_graph n isNode p isPipe

theorem roots_eq_of_connected {a b : PipeInstance} (connected : Relation.EqvGen h.Maps a b) : h.roots a = h.roots b := by
  induction connected with
  | rel a b maps =>
      obtain ⟨n, isNode, inner, p, port, rfl, rfl⟩ := maps
      rw [roots_node isNode (List.mem_append_left _ port), if_pos ⟨port, inner⟩]
  | refl a => rfl
  | symm a b _ ih => exact ih.symm
  | trans a b c _ _ first second => exact first.trans second

/-- Every pipe has a root, at the end of a chain of port maps. -/
theorem exists_root (length : Nat) : ∀ n ∈ h.nodes, n.path.length = length → ∀ p ∈ n.inst.pipes,
    ∃ r, h.roots ⟨n.path, p⟩ = some r ∧ Relation.EqvGen h.Maps ⟨n.path, p⟩ r := by
  induction length using Nat.strongRecOn with
  | _ length ih =>
      intro n isNode long p isPipe
      have root := roots_node isNode isPipe
      by_cases mapped : p ∈ n.inst.ports ∧ n.isTop = false
      · rw [if_pos mapped] at root
        obtain ⟨port, inner⟩ := mapped
        obtain ⟨m, isAbove, up, actual⟩ : ∃ m ∈ h.nodes, m.path = n.parent ∧
            ∀ p ∈ n.inst.ports, n.inst.getActual p ∈ m.inst.pipes := by
          rcases Forest.actual_mem h.accepted_graph n isNode with ⟨top, -⟩ | above
          · rw [Node.isTop, top] at inner
            cases inner
          · exact above
        have shorter : m.path.length < length := by
          rw [up, ← long, Node.path, List.length_append, List.length_singleton]
          omega
        obtain ⟨r, found, chain⟩ := ih _ shorter m isAbove rfl _ (actual p port)
        rw [up] at found chain
        exact ⟨r, root.trans found, .trans _ _ _ (.rel _ _ ⟨n, isNode, inner, p, port, rfl, rfl⟩) chain⟩
      · rw [if_neg mapped] at root
        exact ⟨_, root, .refl _⟩

/-- Two pipes have the same root just when chains of port maps connect them. -/
theorem roots_eq_iff {m : Node} {q : String} (isNode : n ∈ h.nodes) (isPipe : p ∈ n.inst.pipes) (isNode' : m ∈ h.nodes)
    (isPipe' : q ∈ m.inst.pipes) :
    h.roots ⟨n.path, p⟩ = h.roots ⟨m.path, q⟩ ↔ Relation.EqvGen h.Maps ⟨n.path, p⟩ ⟨m.path, q⟩ := by
  constructor
  · intro same
    obtain ⟨r, found, chain⟩ := exists_root _ n isNode rfl p isPipe
    obtain ⟨r', found', chain'⟩ := exists_root _ m isNode' rfl q isPipe'
    rw [found, found', Option.some.injEq] at same
    subst same
    exact .trans _ _ _ chain (.symm _ _ chain')
  · exact roots_eq_of_connected

end Hierarchy

/-! ### The leaves -/

/-- Maps from a root pipe to the leaf that reads it (`_driven_instance_map`) and to the leaf
that drives it. -/
structure FlatLeafGraph where
  flatPipes : PipeInstance → Bool
  instances : List Path
  driven : PipeInstance → Option Path
  driving : PipeInstance → Option Path

namespace Node
variable (n : Node) (root : RootMap)

/-- `_root_actual_pipe`, or the pipe itself at the top; it is asserted that there is one. -/
def rootActual (p : String) : Option PipeInstance := if n.isTop then some ⟨n.path, p⟩ else root ⟨n.path, p⟩

def enter (state : (PipeInstance → Bool) × (PipeInstance → Option Path)) (p : String) :
    (PipeInstance → Bool) × (PipeInstance → Option Path) :=
  match n.rootActual root p with
  | none => state
  | some r => (Function.update state.1 r true, Function.update state.2 r (some n.path))

/-- `Build_Flat_Leaf_Graph` without the child nodes. -/
def addTo (g : FlatLeafGraph) : FlatLeafGraph :=
  if n.isLeaf then
    let ins := n.inst.inPipes.foldl (n.enter root) (g.flatPipes, g.driven)
    let outs := n.inst.outPipes.foldl (n.enter root) (ins.1, g.driving)
    { flatPipes := outs.1, instances := g.instances ++ [n.path], driven := ins.2, driving := outs.2 }
  else g

/-- Some of the pipes have the root `r`. -/
def Touches (pipes : List String) (r : PipeInstance) : Prop := ∃ p ∈ pipes, n.rootActual root p = some r

theorem foldl_enter (pipes : List String) (state : (PipeInstance → Bool) × (PipeInstance → Option Path)) (r : PipeInstance) :
    (n.Touches root pipes r → (pipes.foldl (n.enter root) state).2 r = some n.path) ∧
      (¬ n.Touches root pipes r → (pipes.foldl (n.enter root) state).2 r = state.2 r) := by
  induction pipes generalizing state with
  | nil => exact ⟨fun ⟨_, member, _⟩ => absurd member List.not_mem_nil, fun _ => rfl⟩
  | cons p pipes ih =>
      obtain ⟨touched, untouched⟩ := ih (n.enter root state p)
      have split : n.Touches root (p :: pipes) r ↔ n.rootActual root p = some r ∨ n.Touches root pipes r := by
        simp [Touches]
      rw [List.foldl_cons, split]
      by_cases later : n.Touches root pipes r
      · exact ⟨fun _ => touched later, fun neither => absurd (Or.inr later) neither⟩
      rw [untouched later, enter]
      cases found : n.rootActual root p with
      | none => exact ⟨fun either => absurd (either.resolve_right later) (by simp), fun _ => rfl⟩
      | some r' =>
          by_cases same : r' = r
          · subst same
            exact ⟨fun _ => Function.update_self _ _ _, fun neither => absurd (Or.inl rfl) neither⟩
          · refine ⟨fun either => absurd (Option.some.inj (either.resolve_right later)) same, fun _ => ?_⟩
            exact Function.update_of_ne (fun eq => same eq.symm) _ _

end Node

def Forest.buildFlatLeafGraph (root : RootMap) (parent : Path) : Forest → FlatLeafGraph → FlatLeafGraph
  | nil, g => g
  | cons head children siblings, g =>
      siblings.buildFlatLeafGraph root parent
        (children.buildFlatLeafGraph root (parent ++ [head.id]) (Node.addTo ⟨parent, head, children.isNil⟩ root g))

theorem Forest.buildFlatLeafGraph_eq (root : RootMap) (parent : Path) (f : Forest) (g : FlatLeafGraph) :
    f.buildFlatLeafGraph root parent g = (f.nodes parent).foldl (fun g n => n.addTo root g) g := by
  induction f generalizing parent g with
  | nil => rfl
  | cons head children siblings ihChildren ihSiblings =>
      rw [buildFlatLeafGraph, ihChildren, ihSiblings, nodes, List.foldl_cons, List.foldl_append]

theorem Node.addTo_of_not_leaf {n : Node} (inner : ¬ n.isLeaf = true) (root : RootMap) (g : FlatLeafGraph) : n.addTo root g = g :=
  if_neg inner

theorem Node.addTo_instances (n : Node) (root : RootMap) (g : FlatLeafGraph) :
    (n.addTo root g).instances = g.instances ++ ([n].filter (·.isLeaf)).map Node.path := by
  unfold addTo
  cases leaf : n.isLeaf <;> simp [leaf]

theorem instances_foldl (root : RootMap) (nodes : List Node) (g : FlatLeafGraph) :
    (nodes.foldl (fun g n => n.addTo root g) g).instances = g.instances ++ (nodes.filter (·.isLeaf)).map Node.path := by
  induction nodes generalizing g with
  | nil => exact (List.append_nil _).symm
  | cons n nodes ih =>
      rw [List.foldl_cons, ih, Node.addTo_instances, List.append_assoc, ← List.map_append, ← List.filter_append]
      rfl

structure Records (root : RootMap) (ports : Instance → List String)
    (field : FlatLeafGraph → PipeInstance → Option Path) : Prop where
  touched : ∀ n : Node, n.isLeaf = true → ∀ g r, n.Touches root (ports n.inst) r → field (n.addTo root g) r = some n.path
  untouched : ∀ n : Node, n.isLeaf = true → ∀ g r, ¬ n.Touches root (ports n.inst) r → field (n.addTo root g) r = field g r

theorem records_driven (root : RootMap) : Records root Instance.inPipes FlatLeafGraph.driven where
  touched n leaf g r touches := by
    rw [Node.addTo, if_pos leaf]
    exact (n.foldl_enter root n.inst.inPipes _ r).1 touches
  untouched n leaf g r none := by
    rw [Node.addTo, if_pos leaf]
    exact (n.foldl_enter root n.inst.inPipes _ r).2 none

theorem records_driving (root : RootMap) : Records root Instance.outPipes FlatLeafGraph.driving where
  touched n leaf g r touches := by
    rw [Node.addTo, if_pos leaf]
    exact (n.foldl_enter root n.inst.outPipes _ r).1 touches
  untouched n leaf g r none := by
    rw [Node.addTo, if_pos leaf]
    exact (n.foldl_enter root n.inst.outPipes _ r).2 none

/-- After the nodes, a root pipe that leaves touch is mapped to one of them. -/
theorem Records.foldl {root : RootMap} {ports : Instance → List String} {field : FlatLeafGraph → PipeInstance → Option Path}
    (records : Records root ports field) (r : PipeInstance) (nodes : List Node) (g : FlatLeafGraph) :
    (field (nodes.foldl (fun g n => n.addTo root g) g) r = field g r ∧
        ∀ n ∈ nodes, n.isLeaf = true → ¬ n.Touches root (ports n.inst) r) ∨
      ∃ n ∈ nodes, n.isLeaf = true ∧ n.Touches root (ports n.inst) r ∧
        field (nodes.foldl (fun g n => n.addTo root g) g) r = some n.path := by
  induction nodes generalizing g with
  | nil => exact Or.inl ⟨rfl, fun _ member => absurd member List.not_mem_nil⟩
  | cons n nodes ih =>
      rw [List.foldl_cons]
      rcases ih (n.addTo root g) with ⟨kept, none⟩ | ⟨m, member, found⟩
      · rw [kept]
        by_cases here : n.isLeaf = true ∧ n.Touches root (ports n.inst) r
        · exact Or.inr ⟨n, List.mem_cons_self, here.1, here.2, records.touched n here.1 g r here.2⟩
        · left
          constructor
          · by_cases leaf : n.isLeaf = true
            · exact records.untouched n leaf g r fun touches => here ⟨leaf, touches⟩
            · rw [Node.addTo_of_not_leaf leaf]
          · intro m member leaf touches
            rcases List.mem_cons.mp member with rfl | later
            · exact here ⟨leaf, touches⟩
            · exact none m later leaf touches
      · exact Or.inr ⟨m, List.mem_cons_of_mem _ member, found⟩

namespace Hierarchy
variable (h : Hierarchy)

def leaves : List Node := h.nodes.filter (·.isLeaf)

/-- `Build_Flat_Leaf_Graph` of the whole graph. -/
def flat : FlatLeafGraph :=
  h.graph.buildFlatLeafGraph h.roots [] ⟨fun _ => false, [], fun _ => none, fun _ => none⟩

theorem flat_instances : h.flat.instances = h.leaves.map Node.path := by
  rw [flat, Forest.buildFlatLeafGraph_eq, instances_foldl]
  rfl

/-- A port of the leaf stands for the root pipe. -/
def Reads (n : Node) (r : PipeInstance) : Prop := n.Touches h.roots n.inst.inPipes r

def Drives (n : Node) (r : PipeInstance) : Prop := n.Touches h.roots n.inst.outPipes r

/-- Ports of the two leaves that chains of port maps connect. -/
def Shared (ports : Instance → List String) (n m : Node) : Prop :=
  ∃ p ∈ ports n.inst, ∃ q ∈ ports m.inst, Relation.EqvGen h.Maps ⟨n.path, p⟩ ⟨m.path, q⟩

variable {h} {n m : Node}

theorem rootActual_eq {p : String} (isNode : n ∈ h.nodes) (isPipe : p ∈ n.inst.pipes) :
    n.rootActual h.roots p = h.roots ⟨n.path, p⟩ := by
  rw [Node.rootActual]
  cases top : n.isTop with
  | true => rw [if_pos rfl, roots_node isNode isPipe, if_neg fun both => by simp [top] at both]
  | false => rw [if_neg Bool.false_ne_true]

/-- Two leaves have ports with one root just when chains of port maps connect such ports. -/
theorem shared_iff {ports : Instance → List String} (arePorts : ∀ i, ports i ⊆ i.ports) (isNode : n ∈ h.nodes)
    (isNode' : m ∈ h.nodes) : h.Shared ports n m ↔
      ∃ r, n.Touches h.roots (ports n.inst) r ∧ m.Touches h.roots (ports m.inst) r := by
  have isPipe : ∀ {i : Instance} {p}, p ∈ ports i → p ∈ i.pipes := fun port => List.mem_append_left _ (arePorts _ port)
  constructor
  · rintro ⟨p, port, q, port', connected⟩
    obtain ⟨r, found, -⟩ := exists_root _ n isNode rfl p (isPipe port)
    refine ⟨r, ⟨p, port, (rootActual_eq isNode (isPipe port)).trans found⟩, q, port', ?_⟩
    rw [rootActual_eq isNode' (isPipe port'), ← roots_eq_of_connected connected, found]
  · rintro ⟨r, ⟨p, port, found⟩, q, port', found'⟩
    rw [rootActual_eq isNode (isPipe port)] at found
    rw [rootActual_eq isNode' (isPipe port')] at found'
    exact ⟨p, port, q, port', (roots_eq_iff isNode (isPipe port) isNode' (isPipe port')).mp (found.trans found'.symm)⟩

/-- A map has every leaf under its root pipes just when no two leaves share one. -/
theorem recorded_iff {ports : Instance → List String} {field : FlatLeafGraph → PipeInstance → Option Path}
    (records : Records h.roots ports field) (arePorts : ∀ i, ports i ⊆ i.ports) :
    (∀ n ∈ h.leaves, ∀ r, n.Touches h.roots (ports n.inst) r → field h.flat r = some n.path) ↔
      ∀ n ∈ h.leaves, ∀ m ∈ h.leaves, h.Shared ports n m → n.path = m.path := by
  constructor
  · intro recorded n leaf m leaf' shared
    obtain ⟨r, touches, touches'⟩ := (shared_iff arePorts (List.mem_of_mem_filter leaf) (List.mem_of_mem_filter leaf')).mp shared
    exact Option.some.inj ((recorded n leaf r touches).symm.trans (recorded m leaf' r touches'))
  · intro single n leaf r touches
    have run := records.foldl r h.nodes ⟨fun _ => false, [], fun _ => none, fun _ => none⟩
    obtain ⟨isNode, isLeaf⟩ := List.mem_filter.mp leaf
    rw [flat, Forest.buildFlatLeafGraph_eq]
    rcases run with ⟨-, none⟩ | ⟨m, isNode', isLeaf', touches', found⟩
    · exact absurd touches (none n isNode isLeaf)
    · have shared := (shared_iff arePorts isNode isNode').mpr ⟨r, touches, touches'⟩
      exact found.trans (congrArg some (single n leaf m (List.mem_filter.mpr ⟨isNode', isLeaf'⟩) shared).symm)

end Hierarchy

end Ahir.HierSys
