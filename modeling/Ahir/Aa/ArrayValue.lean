import Ahir.Aa.StorageType

/-!
# Values of constant arrays

`AaArrayValue` and `AaRecordValue` hold the values of their elements one after the other,
filled by `Eat` from a list of literals.  `Get_Element` looks one up; where it looks is
compared with the row-major order.
-/

set_option autoImplicit false

namespace Ahir.Aa
open Ahir.Data

/-- A value; of a scalar the literal that it was set to last. -/
inductive AaValue where
  | scalar (width : Nat) (literal : Option String)
  | array (dimensions : List Nat) (valueVector : List AaValue)
  | record (valueVector : List AaValue)

namespace AaValue

mutual

/-- `Make_Aa_Value` of a type. -/
def make : StorageType → AaValue
  | .scalar width => .scalar width none
  | .array dims t => .array dims (List.replicate dims.prod (make t))
  | .record ts => .record (makeAll ts)

def makeAll : List StorageType → List AaValue
  | [] => []
  | t :: ts => make t :: makeAll ts

end

mutual

/-- `Eat`, which for a scalar asserts that there is a literal. -/
def eat : AaValue → Nat → List String → Option (AaValue × Nat)
  | .scalar width _, initId, literals => literals[initId]?.map fun literal => (.scalar width (some literal), initId + 1)
  | .array dims values, initId, literals =>
      (eatAll values initId literals).map fun eaten => (.array dims eaten.1, eaten.2)
  | .record values, initId, literals => (eatAll values initId literals).map fun eaten => (.record eaten.1, eaten.2)

/-- The loop over `_value_vector`. -/
def eatAll : List AaValue → Nat → List String → Option (List AaValue × Nat)
  | [], initId, _ => some ([], initId)
  | value :: values, initId, literals =>
      (eat value initId literals).bind fun first =>
        (eatAll values first.2 literals).map fun rest => (first.1 :: rest.1, rest.2)

end

/-- `Make_Aa_Value` of a type and literals.  The constructors from literals eat element by
element, to the same effect. -/
def makeFrom (t : StorageType) (literals : List String) : Option AaValue := (eat (make t) 0 literals).map Prod.fst

/-- The position that the loop of `Get_Element` computes: the last index, and each other one
times the dimension behind it. -/
def elementIndex (dims indices : List Nat) : Nat :=
  ((List.range (indices.length - 1)).map (· + 1)).reverse.foldl
    (fun index idx => index + dims.getD idx 0 * indices.getD (idx - 1) 0) (indices.getD (indices.length - 1) 0)

mutual

/-- `Get_Element`: the indices past the dimensions are for the element. -/
def getElement : AaValue → List Nat → Option AaValue
  | .scalar _ _, _ => none
  | .array dims values, indices =>
      if (indices.take dims.length).length = 0 then none
      else pick values (elementIndex dims (indices.take dims.length)) (indices.drop dims.length)
  | .record _, [] => none
  | .record values, field :: succIndices => pick values field succIndices

/-- The element of `_value_vector`, or its element. -/
def pick : List AaValue → Nat → List Nat → Option AaValue
  | [], _, _ => none
  | value :: _, 0, succIndices => if succIndices.length > 0 then getElement value succIndices else some value
  | _ :: values, index + 1, succIndices => pick values index succIndices

end

theorem pick_eq (values : List AaValue) (index : Nat) (succIndices : List Nat) : pick values index succIndices =
    values[index]?.bind fun value => if succIndices.length > 0 then value.getElement succIndices else some value := by
  induction values generalizing index with
  | nil => rfl
  | cons value values ih =>
      cases index with
      | zero => rfl
      | succ index => exact ih index

/-! ### Where the literals are -/

abbrev leaves (t : StorageType) : Nat := t.size fun _ => 1

mutual

def laidOut : StorageType → List String → AaValue
  | .scalar width, literals => .scalar width literals.head?
  | .array dims t, literals =>
      .array dims ((List.range dims.prod).map fun k => laidOut t (literals.drop (k * leaves t)))
  | .record ts, literals => .record (laidOutAll ts literals)

def laidOutAll : List StorageType → List String → List AaValue
  | [], _ => []
  | t :: ts, literals => laidOut t literals :: laidOutAll ts (literals.drop (leaves t))

end

theorem getElem?_laidOutAll {ts : List StorageType} {literals : List String} {i : Nat} (inside : i < ts.length) :
    (laidOutAll ts literals)[i]? =
      some (laidOut ts[i] (literals.drop (StorageType.sizes (fun _ => 1) (ts.take i)))) := by
  induction ts generalizing literals i with
  | nil => exact absurd inside (Nat.not_lt_zero i)
  | cons t ts ih =>
      cases i with
      | zero => rfl
      | succ i =>
          rw [laidOutAll, List.getElem?_cons_succ, ih (Nat.lt_of_succ_lt_succ inside), List.drop_drop,
            List.take_succ_cons, StorageType.sizes, List.getElem_cons_succ]

section Eat
variable {literals : List String}

theorem eatAll_replicate {t : StorageType} {value : AaValue} (each : ∀ initId, initId + leaves t ≤ literals.length →
    eat value initId literals = some (laidOut t (literals.drop initId), initId + leaves t)) (n : Nat) :
    ∀ initId, initId + n * leaves t ≤ literals.length → eatAll (List.replicate n value) initId literals =
      some ((List.range n).map fun k => laidOut t ((literals.drop initId).drop (k * leaves t)), initId + n * leaves t) := by
  induction n with
  | zero => intro initId _; rw [Nat.zero_mul]; rfl
  | succ n ih =>
      intro initId enough
      rw [Nat.succ_mul] at enough
      have next : initId + leaves t + n * leaves t = initId + (n + 1) * leaves t := by rw [Nat.succ_mul]; omega
      rw [List.replicate_succ, eatAll, each initId (by omega), Option.bind_some, ih (initId + leaves t) (by omega),
        Option.map_some, List.range_succ_eq_map, List.map_cons, List.map_map, next, Nat.zero_mul, List.drop_zero]
      have rest : ((fun k => laidOut t ((literals.drop initId).drop (k * leaves t))) ∘ Nat.succ) =
          fun k => laidOut t ((literals.drop (initId + leaves t)).drop (k * leaves t)) := by
        funext k
        rw [Function.comp_apply, List.drop_drop, List.drop_drop, Nat.succ_mul, Nat.add_right_comm, Nat.add_assoc]
      rw [rest]

theorem eatAll_makeAll {ts : List StorageType} (each : ∀ t ∈ ts, ∀ initId, initId + leaves t ≤ literals.length →
    eat (make t) initId literals = some (laidOut t (literals.drop initId), initId + leaves t)) :
    ∀ initId, initId + StorageType.sizes (fun _ => 1) ts ≤ literals.length → eatAll (makeAll ts) initId literals =
      some (laidOutAll ts (literals.drop initId), initId + StorageType.sizes (fun _ => 1) ts) := by
  induction ts with
  | nil => exact fun _ _ => rfl
  | cons t ts ih =>
      intro initId enough
      change initId + (leaves t + StorageType.sizes (fun _ => 1) ts) ≤ literals.length at enough
      rw [makeAll, eatAll, each t List.mem_cons_self initId (by omega), Option.bind_some,
        ih (fun t member => each t (List.mem_cons_of_mem _ member)) (initId + leaves t) (by omega), Option.map_some,
        laidOutAll, List.drop_drop, StorageType.sizes, Nat.add_assoc]

theorem eat_make (t : StorageType) : ∀ initId, initId + leaves t ≤ literals.length →
    eat (make t) initId literals = some (laidOut t (literals.drop initId), initId + leaves t) := by
  induction t using StorageType.induction with
  | scalar width =>
      intro initId enough
      have inside : initId < literals.length := enough
      rw [make, eat, List.getElem?_eq_getElem inside, Option.map_some, laidOut, List.head?_drop,
        List.getElem?_eq_getElem inside]
      rfl
  | array dims t ih =>
      intro initId enough
      have size : leaves (.array dims t) = dims.prod * leaves t := Nat.mul_comm _ _
      rw [size] at enough
      rw [make, eat, eatAll_replicate ih dims.prod initId enough, Option.map_some, laidOut, size]
  | record ts ih =>
      intro initId enough
      rw [make, eat, eatAll_makeAll ih initId enough]
      rfl

theorem makeFrom_eq {t : StorageType} (enough : leaves t ≤ literals.length) :
    makeFrom t literals = some (laidOut t literals) := by
  rw [makeFrom, eat_make t 0 (by omega), Option.map_some, List.drop_zero]

end Eat

/-! ### Paths -/

inductive Level where
  | indices (indices : List Nat)
  | field (field : Nat)

def flat : List Level → List Nat
  | [] => []
  | .indices indices :: levels => indices ++ flat levels
  | .field field :: levels => field :: flat levels

/-- The sub-object that a path leads to, and the number of scalars before it, if the elements
of arrays lie at these positions. -/
def reach (position : List Nat → List Nat → Nat) : StorageType → List Level → Option (StorageType × Nat)
  | t, [] => some (t, 0)
  | .array dims t, .indices indices :: levels =>
      if InRange dims indices then
        (reach position t levels).map fun r => (r.1, position dims indices * leaves t + r.2)
      else none
  | .record ts, .field field :: levels =>
      ts[field]?.bind fun t =>
        (reach position t levels).map fun r => (r.1, StorageType.sizes (fun _ => 1) (ts.take field) + r.2)
  | _, _ => none

/-! ### Positions -/

theorem foldl_add_eq (f : Nat → Nat) (l : List Nat) (start : Nat) :
    l.foldl (fun index idx => index + f idx) start = start + (l.map f).sum := by
  induction l generalizing start with
  | nil => rfl
  | cons x l ih => rw [List.foldl_cons, ih, List.map_cons, List.sum_cons, Nat.add_assoc]

theorem elementIndex_eq (dims indices : List Nat) : elementIndex dims indices =
    ((List.range (indices.length - 1)).map fun k => dims.getD (k + 1) 0 * indices.getD k 0).sum +
      indices.getD (indices.length - 1) 0 := by
  rw [elementIndex, foldl_add_eq, List.map_reverse, List.sum_reverse, List.map_map, Nat.add_comm]
  rfl

theorem elementIndex_single (dims : List Nat) (i : Nat) : elementIndex dims [i] = i := rfl

theorem elementIndex_cons (d d' i i' : Nat) (dims indices : List Nat) : elementIndex (d :: d' :: dims) (i :: i' :: indices) =
    d' * i + elementIndex (d' :: dims) (i' :: indices) := by
  have length : (i :: i' :: indices).length - 1 = indices.length + 1 := rfl
  rw [elementIndex_eq, elementIndex_eq, length, List.range_succ_eq_map, List.map_cons, List.sum_cons, List.map_map,
    Nat.add_assoc]
  rfl

def PlainIndices : List Nat → List Nat → Prop
  | _ :: d' :: dims, i :: indices => (i = 0 ∨ dims.prod = 1) ∧ PlainIndices (d' :: dims) indices
  | _, _ => True

theorem elementIndex_le {dims indices : List Nat} (inRange : InRange dims indices) (some : dims ≠ []) :
    elementIndex dims indices ≤ rowMajor dims indices ∧
      (elementIndex dims indices = rowMajor dims indices ↔ PlainIndices dims indices) := by
  induction inRange with
  | nil => exact absurd rfl some
  | @cons i d indices dims inside rest ih =>
      cases rest with
      | nil => simp [elementIndex_single, rowMajor, PlainIndices]
      | @cons i' d' indices dims inside' rest =>
          obtain ⟨le, same⟩ := ih (List.cons_ne_nil _ _)
          have pos : 0 < d' := Nat.zero_lt_of_lt inside'
          have prod : 0 < dims.prod := InRange.prod_pos rest
          have first : d' * i ≤ i * (d' :: dims).prod := by
            rw [List.prod_cons, Nat.mul_comm d' i, ← Nat.mul_assoc]
            exact Nat.le_mul_of_pos_right _ prod
          have firstSame : d' * i = i * (d' :: dims).prod ↔ i = 0 ∨ dims.prod = 1 := by
            rw [List.prod_cons, Nat.mul_comm d' i, ← Nat.mul_assoc]
            constructor
            · intro product
              rcases Nat.eq_zero_or_pos i with zero | posI
              · exact .inl zero
              · have one : i * d' * 1 = i * d' * dims.prod := by rwa [Nat.mul_one]
                exact .inr (Nat.eq_of_mul_eq_mul_left (Nat.mul_pos posI pos) one).symm
            · rintro (rfl | one)
              · rw [Nat.zero_mul, Nat.zero_mul]
              · rw [one, Nat.mul_one]
          have whole : rowMajor (d :: d' :: dims) (i :: i' :: indices) =
              i * (d' :: dims).prod + rowMajor (d' :: dims) (i' :: indices) := rfl
          rw [elementIndex_cons, whole, PlainIndices, ← same, ← firstSame]
          omega

def Plain : StorageType → List Level → Prop
  | .array dims t, .indices indices :: levels => PlainIndices dims indices ∧ Plain t levels
  | .record ts, .field field :: levels => ∀ t ∈ ts[field]?, Plain t levels
  | _, _ => True

section Reach
variable {t t' : StorageType} {levels : List Level} {off off' : Nat}

/-- What the first level of a path selects, and the rest of the path in it. -/
theorem reach_cons {position : List Nat → List Nat → Nat} {level : Level}
    (reached : reach position t (level :: levels) = some (t', off)) :
    (∃ dims s indices rest, t = .array dims s ∧ level = .indices indices ∧ InRange dims indices ∧
      reach position s levels = some (t', rest) ∧ off = position dims indices * leaves s + rest) ∨
    ∃ ts field rest, ∃ inside : field < ts.length, t = .record ts ∧ level = .field field ∧
      reach position ts[field] levels = some (t', rest) ∧ off = StorageType.sizes (fun _ => 1) (ts.take field) + rest := by
  cases t with
  | scalar width => exact absurd reached (by simp [reach])
  | array dims s =>
      cases level with
      | field field => exact absurd reached (by simp [reach])
      | indices indices =>
          rw [reach] at reached
          split_ifs at reached with inRange
          obtain ⟨⟨_, rest⟩, below, same⟩ := Option.map_eq_some_iff.mp reached
          obtain ⟨rfl, rfl⟩ := Prod.mk.inj same
          exact .inl ⟨dims, s, indices, rest, rfl, rfl, inRange, below, rfl⟩
  | record ts =>
      cases level with
      | indices indices => exact absurd reached (by simp [reach])
      | field field =>
          obtain ⟨s, isField, found⟩ := Option.bind_eq_some_iff.mp reached
          obtain ⟨⟨_, rest⟩, below, same⟩ := Option.map_eq_some_iff.mp found
          obtain ⟨rfl, rfl⟩ := Prod.mk.inj same
          obtain ⟨inside, rfl⟩ := List.getElem?_eq_some_iff.mp isField
          exact .inr ⟨ts, field, rest, inside, rfl, rfl, below, rfl⟩

theorem reach_add_le : ∀ {levels : List Level} {t : StorageType} {off : Nat}, reach rowMajor t levels = some (t', off) →
    off + leaves t' ≤ leaves t := by
  intro levels
  induction levels with
  | nil =>
      intro t off reached
      obtain ⟨rfl, rfl⟩ := Prod.mk.inj (Option.some.inj reached)
      exact le_of_eq (Nat.zero_add _)
  | cons level levels ih =>
      intro t off reached
      rcases reach_cons reached with ⟨dims, s, indices, rest, rfl, rfl, inRange, below, rfl⟩ |
        ⟨ts, field, rest, inside, rfl, rfl, below, rfl⟩
      · have inner : rest + leaves t' ≤ leaves s := ih below
        calc rowMajor dims indices * leaves s + rest + leaves t'
            ≤ rowMajor dims indices * leaves s + leaves s := by omega
          _ = (rowMajor dims indices + 1) * leaves s := by rw [Nat.succ_mul]
          _ ≤ dims.prod * leaves s := Nat.mul_le_mul_right _ (rowMajor_lt inRange)
          _ = leaves (.array dims s) := Nat.mul_comm _ _
      · have inner : rest + leaves t' ≤ leaves ts[field] := ih below
        have ends : StorageType.sizes (fun _ => 1) (ts.take field) + leaves ts[field] ≤ leaves (.record ts) :=
          StorageType.sizes_take_add inside
        omega

theorem flat_ne_nil {position : List Nat → List Nat → Nat} {level : Level} (formed : t.WellFormed)
    (reached : reach position t (level :: levels) = some (t', off)) : flat (level :: levels) ≠ [] := by
  rcases reach_cons reached with ⟨dims, s, indices, _, rfl, rfl, inRange, _, _⟩ | ⟨_, field, _, _, rfl, rfl, _, _⟩
  · intro empty
    rw [(List.append_eq_nil_iff.mp empty).1] at inRange
    exact formed.1 (List.length_eq_zero_iff.mp inRange.length_eq.symm)
  · exact List.cons_ne_nil _ _

theorem element_laidOut : ∀ {levels : List Level} {t : StorageType} {off : Nat} {literals : List String},
    t.WellFormed → reach elementIndex t levels = some (t', off) →
      (if (flat levels).length > 0 then getElement (laidOut t literals) (flat levels) else some (laidOut t literals)) =
        some (laidOut t' (literals.drop off)) := by
  intro levels
  induction levels with
  | nil =>
      intro t off literals _ reached
      obtain ⟨rfl, rfl⟩ := Prod.mk.inj (Option.some.inj reached)
      rfl
  | cons level levels ih =>
      intro t off literals formed reached
      rw [if_pos (List.length_pos_iff.mpr (flat_ne_nil formed reached))]
      rcases reach_cons reached with ⟨dims, s, indices, rest, rfl, rfl, inRange, below, rfl⟩ |
        ⟨ts, field, rest, inside, rfl, rfl, below, rfl⟩
      · have length := inRange.length_eq
        have nonempty : ¬ indices.length = 0 := by
          rw [length]
          exact mt List.length_eq_zero_iff.mp formed.1
        have inside : elementIndex dims indices < dims.prod :=
          lt_of_le_of_lt (elementIndex_le inRange formed.1).1 (rowMajor_lt inRange)
        rw [flat, laidOut, getElement, List.take_left' length, List.drop_left' length, if_neg nonempty, pick_eq,
          List.getElem?_map, List.getElem?_range inside, Option.map_some, Option.bind_some, ih formed.2.2 below,
          List.drop_drop]
      · have formedField := StorageType.allWellFormed_iff.mp formed.2 _ (List.getElem_mem inside)
        rw [flat, laidOut, getElement, pick_eq, getElem?_laidOutAll inside, Option.bind_some, ih formedField below,
          List.drop_drop]

/-- The types on a path do not depend on the positions, and the computed offset is never behind the one
in row-major order. -/
theorem reach_elementIndex : ∀ {levels : List Level} {t : StorageType} {off : Nat}, t.WellFormed →
    reach rowMajor t levels = some (t', off) → ∃ computed, reach elementIndex t levels = some (t', computed) ∧
      computed ≤ off ∧ (computed = off ↔ Plain t levels) := by
  intro levels
  induction levels with
  | nil =>
      intro t off _ reached
      refine ⟨off, ?_, Nat.le_refl _, fun _ => by cases t <;> trivial, fun _ => rfl⟩
      rw [← reached]
      cases t <;> rfl
  | cons level levels ih =>
      intro t off formed reached
      rcases reach_cons reached with ⟨dims, s, indices, rest, rfl, rfl, inRange, below, rfl⟩ |
        ⟨ts, field, rest, inside, rfl, rfl, below, rfl⟩
      · obtain ⟨computed, found, le, same⟩ := ih formed.2.2 below
        obtain ⟨leIndex, sameIndex⟩ := elementIndex_le inRange formed.1
        have pos : 0 < leaves s := StorageType.size_pos (fun _ => Nat.one_pos) formed.2.2
        have leProduct := Nat.mul_le_mul_right (leaves s) leIndex
        have sameProduct : elementIndex dims indices * leaves s = rowMajor dims indices * leaves s ↔
            PlainIndices dims indices := by
          rw [Nat.mul_left_inj (Nat.ne_of_gt pos)]
          exact sameIndex
        refine ⟨elementIndex dims indices * leaves s + computed, ?_, by omega, ?_⟩
        · rw [reach, if_pos inRange, found]
          rfl
        · rw [Plain, ← sameProduct, ← same]
          omega
      · have formedField := StorageType.allWellFormed_iff.mp formed.2 _ (List.getElem_mem inside)
        have isField : ts[field]? = some ts[field] := List.getElem?_eq_getElem inside
        obtain ⟨computed, found, le, same⟩ := ih formedField below
        refine ⟨StorageType.sizes (fun _ => 1) (ts.take field) + computed, ?_, by omega, ?_⟩
        · rw [reach, isField, Option.bind_some, found]
          rfl
        · have plain : Plain (.record ts) (.field field :: levels) ↔ Plain ts[field] levels := by
            rw [Plain, isField]
            exact ⟨fun all => all _ rfl, fun plain t is => Option.some.inj is ▸ plain⟩
          rw [plain, ← same]
          omega

theorem reach_formed {position : List Nat → List Nat → Nat} : ∀ {levels : List Level} {t : StorageType} {off : Nat},
    t.WellFormed → reach position t levels = some (t', off) → t'.WellFormed := by
  intro levels
  induction levels with
  | nil =>
      intro t off formed reached
      obtain ⟨rfl, rfl⟩ := Prod.mk.inj (Option.some.inj reached)
      exact formed
  | cons level levels ih =>
      intro t off formed reached
      rcases reach_cons reached with ⟨dims, s, indices, rest, rfl, rfl, inRange, below, rfl⟩ |
        ⟨ts, field, rest, inside, rfl, rfl, below, rfl⟩
      · exact ih formed.2.2 below
      · exact ih (StorageType.allWellFormed_iff.mp formed.2 _ (List.getElem_mem inside)) below

end Reach

/-! ### What `Get_Element` finds -/

def firstLiteral : AaValue → Option String
  | .scalar _ literal => literal
  | .array _ [] => none
  | .array _ (value :: _) => firstLiteral value
  | .record [] => none
  | .record (value :: _) => firstLiteral value

theorem firstLiteral_laidOut {t : StorageType} (formed : t.WellFormed) : ∀ literals : List String,
    firstLiteral (laidOut t literals) = literals.head? := by
  induction t using StorageType.induction with
  | scalar width => exact fun _ => rfl
  | array dims t ih =>
      intro literals
      obtain ⟨n, some⟩ := Nat.exists_eq_succ_of_ne_zero (Nat.ne_of_gt formed.2.1)
      rw [laidOut, some, List.range_succ_eq_map, List.map_cons, firstLiteral, Nat.zero_mul, List.drop_zero]
      exact ih formed.2.2 literals
  | record ts ih =>
      intro literals
      cases ts with
      | nil => exact absurd rfl formed.1
      | cons t ts => exact ih t List.mem_cons_self formed.2.1 literals

/-- In a value made from literals, `Get_Element` finds at a path what the literals from there on make. -/
def Finds (t : StorageType) (levels : List Level) (t' : StorageType) (off : Nat) : Prop :=
  ∀ literals : List String, leaves t ≤ literals.length →
    ∃ value, makeFrom t literals = some value ∧ value.getElement (flat levels) = makeFrom t' (literals.drop off)

def letters (n : Nat) : List String := (List.range n).map fun k => String.ofList (List.replicate k 'a')

theorem getElem?_letters_inj {n i j : Nat} (insideI : i < n) (insideJ : j < n) (same : (letters n)[i]? = (letters n)[j]?) :
    i = j := by
  rw [letters, List.getElem?_map, List.getElem?_map, List.getElem?_range insideI, List.getElem?_range insideJ] at same
  have lengths := congrArg (fun s : Option String => (s.getD "").length) same
  simpa using lengths

/-- `Get_Element` finds the element in row-major order exactly when every array on the path has plain indices. -/
theorem getElement_finds_iff (t t' : StorageType) (levels : List Level) (off : Nat) (formed : t.WellFormed)
    (nonempty : levels ≠ []) (reached : reach rowMajor t levels = some (t', off)) :
    Finds t levels t' off ↔ Plain t levels := by
  obtain ⟨computed, found, le, same⟩ := reach_elementIndex formed reached
  have ends := reach_add_le reached
  have pos : 0 < leaves t' := StorageType.size_pos (fun _ => Nat.one_pos) (reach_formed formed reached)
  have flatNonempty : 0 < (flat levels).length := by
    obtain ⟨level, rest, rfl⟩ := List.exists_cons_of_ne_nil nonempty
    exact List.length_pos_iff.mpr (flat_ne_nil formed found)
  have gets : ∀ literals, getElement (laidOut t literals) (flat levels) = some (laidOut t' (literals.drop computed)) := by
    intro literals
    have element : (if (flat levels).length > 0 then getElement (laidOut t literals) (flat levels)
        else some (laidOut t literals)) = some (laidOut t' (literals.drop computed)) := element_laidOut formed found
    rwa [if_pos flatNonempty] at element
  have makes : ∀ literals : List String, leaves t ≤ literals.length →
      makeFrom t' (literals.drop off) = some (laidOut t' (literals.drop off)) := by
    intro literals enough
    exact makeFrom_eq (by rw [List.length_drop]; omega)
  rw [← same]
  constructor
  · intro finds
    have enough : leaves t ≤ (letters (leaves t)).length := by rw [letters, List.length_map, List.length_range]
    obtain ⟨value, made, gotten⟩ := finds (letters (leaves t)) enough
    rw [makeFrom_eq enough] at made
    obtain rfl := Option.some.inj made
    rw [gets, makes _ enough] at gotten
    have first := congrArg firstLiteral (Option.some.inj gotten)
    rw [firstLiteral_laidOut (reach_formed formed reached), firstLiteral_laidOut (reach_formed formed reached),
      List.head?_drop, List.head?_drop] at first
    exact getElem?_letters_inj (by omega) (by omega) first
  · rintro rfl literals enough
    exact ⟨_, makeFrom_eq enough, by rw [gets, makes literals enough]⟩

/-- A record of a flag and an array `[2][3]` of bytes: the last byte. -/
theorem getElement_finds_matrix :
    Finds (.record [.scalar 1, .array [2, 3] (.scalar 8)]) [.field 1, .indices [1, 2]] (.scalar 8) 6 := by
  have formed : StorageType.WellFormed (.record [.scalar 1, .array [2, 3] (.scalar 8)]) := by
    simp [StorageType.WellFormed, StorageType.AllWellFormed]
  exact (getElement_finds_iff _ _ _ _ formed (List.cons_ne_nil _ _) rfl).mpr (by simp [Plain, PlainIndices])

/-- An array `[2][2][2]` of bytes: `[1][0][0]` is the fifth byte, and what is found is the third one, which
is that of `[0][1][0]`. -/
theorem getElement_not_finds_cube :
    reach rowMajor (.array [2, 2, 2] (.scalar 8)) [.indices [1, 0, 0]] = some (.scalar 8, 4) ∧
      ¬ Finds (.array [2, 2, 2] (.scalar 8)) [.indices [1, 0, 0]] (.scalar 8) 4 ∧
      elementIndex [2, 2, 2] [1, 0, 0] = elementIndex [2, 2, 2] [0, 1, 0] := by
  refine ⟨rfl, fun finds => ?_, rfl⟩
  obtain ⟨value, made, gotten⟩ := finds ["0", "1", "2", "3", "4", "5", "6", "7"] (by decide)
  obtain rfl := Option.some.inj made
  have literals := AaValue.scalar.inj (Option.some.inj gotten)
  exact absurd (Option.some.inj literals.2) (by decide)

end AaValue
end Ahir.Aa
