import Ahir.Data.RowMajor
import Mathlib.Data.List.TakeWhile

/-!
# Initialization of global objects

The statements that initialize the integers of a global object in the generated C.  The
elements of an array are found by a counter with a digit for each dimension, the first
dimension the fastest.
-/

set_option autoImplicit false

namespace Ahir.Aa.Global
open Ahir.Data

/-- The type of an object; `other` are the scalars that are not integers. -/
inductive ObjectType where
  | integer (size : Nat)
  | other
  | array (dimension : List Nat) (elementType : ObjectType)
  | record (elementTypes : List ObjectType)

inductive ObjectType.Inhabited : ObjectType → Prop where
  | integer (size : Nat) : Inhabited (.integer size)
  | other : Inhabited .other
  | array {dims : List Nat} {t : ObjectType} (positive : ∀ d ∈ dims, 1 ≤ d) (element : Inhabited t) :
      Inhabited (.array dims t)
  | record {ts : List ObjectType} (elements : ∀ t ∈ ts, Inhabited t) : Inhabited (.record ts)

def intToStr (x : Nat) : List Char := Nat.toDigits 10 x

def initStatement (objName : List Char) (size : Nat) : List Char :=
  "init_static_bit_vector(&(".toList ++ objName ++ "), ".toList ++ intToStr size ++ ");".toList

def indexText (elementIndexing : List Nat) : List Char :=
  elementIndexing.flatMap fun i => "[".toList ++ intToStr i ++ "]".toList

def fieldText (D : Nat) : List Char := ".f_".toList ++ intToStr D

def maximalElementReached : List Nat → List Nat → Bool
  | d :: dims, i :: elementIndexing => if i < d - 1 then false else maximalElementReached dims elementIndexing
  | _, _ => true

/-- The loop that increments, with its `carry`. -/
def increment : Bool → List Nat → List Nat → List Nat
  | carry, d :: dims, i :: elementIndexing =>
      if carry then
        if i + 1 = d then 0 :: increment true dims elementIndexing else (i + 1) :: increment false dims elementIndexing
      else i :: increment false dims elementIndexing
  | _, _, elementIndexing => elementIndexing

/-- The turns of `while(1)`, at most `fuel`; `print` is the call for an element. -/
def printElements (print : List Char → Option (List (List Char))) (objName : List Char) (dims : List Nat) :
    Nat → List Nat → Option (List (List Char))
  | 0, _ => none
  | fuel + 1, elementIndexing =>
      (print (objName ++ indexText elementIndexing)).bind fun lines =>
        if maximalElementReached dims elementIndexing then some lines
        else (printElements print objName dims fuel (increment true dims elementIndexing)).map (lines ++ ·)

mutual

/-- `Print_C_Global_Initialization`; none when a loop has more turns than `fuel`. -/
def printCGlobalInitialization (fuel : Nat) : ObjectType → List Char → Option (List (List Char))
  | .integer size, objName => some [initStatement objName size]
  | .other, _ => some []
  | .array dims et, objName =>
      printElements (printCGlobalInitialization fuel et) objName dims fuel (dims.map fun _ => 0)
  | .record ets, objName => printFields fuel ets 0 objName

/-- The loop over the elements of a record, from `D` on. -/
def printFields (fuel : Nat) : List ObjectType → Nat → List Char → Option (List (List Char))
  | [], _, _ => some []
  | et :: ets, D, objName =>
      (printCGlobalInitialization fuel et (objName ++ fieldText D)).bind fun lines =>
        (printFields fuel ets (D + 1) objName).map (lines ++ ·)

end

section Counter
variable {dims indices : List Nat}

theorem increment_false (dims indices : List Nat) : increment false dims indices = indices := by
  induction dims generalizing indices with
  | nil => cases indices <;> rfl
  | cons d dims ih =>
      cases indices with
      | nil => rfl
      | cons i indices =>
          rw [increment, if_neg Bool.false_ne_true, ih]

theorem maximalElementReached_iff (inRange : InRange dims indices) :
    maximalElementReached dims indices = true ↔ columnMajor dims indices + 1 = dims.prod := by
  induction inRange with
  | nil => exact ⟨fun _ => rfl, fun _ => rfl⟩
  | @cons i d indices dims inside rest ih =>
      have below := columnMajor_lt rest
      rw [maximalElementReached, columnMajor, List.prod_cons]
      have step : d * (columnMajor dims indices + 1) ≤ d * dims.prod := Nat.mul_le_mul_left _ below
      rw [Nat.mul_add, Nat.mul_one] at step
      split
      · refine ⟨fun eq => absurd eq Bool.false_ne_true, fun eq => ?_⟩
        omega
      · have last : i + 1 = d := by omega
        rw [ih]
        constructor
        · intro eq
          rw [← eq, Nat.mul_add, Nat.mul_one]
          omega
        · intro eq
          refine Nat.eq_of_mul_eq_mul_left (show 0 < d by omega) ?_
          rw [Nat.mul_add, Nat.mul_one]
          omega

theorem increment_spec (inRange : InRange dims indices) (more : columnMajor dims indices + 1 < dims.prod) :
    InRange dims (increment true dims indices) ∧
      columnMajor dims (increment true dims indices) = columnMajor dims indices + 1 := by
  induction inRange with
  | nil => exact absurd more (lt_irrefl 1)
  | @cons i d indices dims inside rest ih =>
      rw [columnMajor, List.prod_cons] at more
      rw [increment, if_pos rfl]
      by_cases full : i + 1 = d
      · have goesOn : columnMajor dims indices + 1 < dims.prod := by
          refine Nat.lt_of_mul_lt_mul_left (a := d) ?_
          rw [Nat.mul_add, Nat.mul_one]
          omega
        obtain ⟨inRange, next⟩ := ih goesOn
        rw [if_pos full]
        refine ⟨.cons (Nat.zero_lt_of_lt inside) inRange, ?_⟩
        rw [columnMajor, columnMajor, next, Nat.mul_add, Nat.mul_one]
        omega
      · rw [if_neg full, increment_false]
        refine ⟨.cons (by omega) rest, ?_⟩
        rw [columnMajor, columnMajor]
        omega

theorem inRange_zeros (positive : ∀ d ∈ dims, 1 ≤ d) :
    InRange dims (dims.map fun _ => 0) ∧ columnMajor dims (dims.map fun _ => 0) = 0 := by
  induction dims with
  | nil => exact ⟨.nil, rfl⟩
  | cons d dims ih =>
      obtain ⟨inRange, zero⟩ := ih fun d' mem => positive d' (List.mem_cons_of_mem _ mem)
      refine ⟨.cons (positive d List.mem_cons_self) inRange, ?_⟩
      rw [List.map_cons, columnMajor, zero, Nat.mul_zero]

/-- The turns from a position on take the positions behind it one after the other. -/
theorem printElements_from (n : Nat) (inRange : InRange dims indices) (left : columnMajor dims indices + n = dims.prod) :
    ∃ visited : List (List Nat), (∀ js ∈ visited, InRange dims js) ∧
      visited.map (columnMajor dims) = List.range' (columnMajor dims indices) n ∧
      ∀ (print : List Char → Option (List (List Char))) (lines : List Char → List (List Char)) (objName : List Char)
        (fuel : Nat), (∀ name, print name = some (lines name)) → n ≤ fuel →
          printElements print objName dims fuel indices =
            some (visited.flatMap fun js => lines (objName ++ indexText js)) := by
  induction n generalizing indices with
  | zero => exact absurd left (Nat.ne_of_lt (columnMajor_lt inRange))
  | succ n ih =>
      by_cases last : n = 0
      · subst last
        refine ⟨[indices], fun js mem => ?_, rfl, fun print lines objName fuel prints enough => ?_⟩
        · rwa [List.mem_singleton.mp mem]
        · obtain ⟨fuel, rfl⟩ := Nat.exists_eq_add_of_le' enough
          rw [printElements, prints, Option.bind_some, if_pos ((maximalElementReached_iff inRange).mpr left),
            List.flatMap_cons, List.flatMap_nil, List.append_nil]
      · obtain ⟨inRange', next⟩ := increment_spec inRange (by omega)
        obtain ⟨visited, all, positions, printed⟩ := ih inRange' (by omega)
        refine ⟨indices :: visited, List.forall_mem_cons.mpr ⟨inRange, all⟩, ?_,
          fun print lines objName fuel prints enough => ?_⟩
        · rw [List.map_cons, positions, next, List.range'_succ]
        · obtain ⟨fuel, rfl⟩ := Nat.exists_eq_add_of_le' (Nat.le_trans (Nat.le_add_left 1 n) enough)
          have goesOn : ¬ maximalElementReached dims indices = true := by
            rw [maximalElementReached_iff inRange]
            omega
          rw [printElements, prints, Option.bind_some, if_neg goesOn, printed print lines objName fuel prints (by omega),
            Option.map_some, List.flatMap_cons]

theorem printElements_zeros (positive : ∀ d ∈ dims, 1 ≤ d) :
    ∃ visited : List (List Nat), visited.Nodup ∧ (∀ js, js ∈ visited ↔ InRange dims js) ∧
      ∀ (print : List Char → Option (List (List Char))) (lines : List Char → List (List Char)) (objName : List Char)
        (fuel : Nat), (∀ name, print name = some (lines name)) → dims.prod ≤ fuel →
          printElements print objName dims fuel (dims.map fun _ => 0) =
            some (visited.flatMap fun js => lines (objName ++ indexText js)) := by
  obtain ⟨zeros, start⟩ := inRange_zeros positive
  obtain ⟨visited, inRange, positions, printed⟩ := printElements_from dims.prod zeros (by rw [start, Nat.zero_add])
  rw [start, ← List.range_eq_range'] at positions
  obtain ⟨nodup, all⟩ := exhausts_of_columnMajor inRange positions
  exact ⟨visited, nodup, all, printed⟩

end Counter

section Leaves

inductive Step where
  | element (indices : List Nat)
  | field (D : Nat)

def Step.text : Step → List Char
  | .element indices => indexText indices
  | .field D => fieldText D

/-- How C refers to a part of an object. -/
def reference (path : List Step) : List Char := path.flatMap Step.text

inductive IsLeaf : ObjectType → List Step → Nat → Prop where
  | integer (size : Nat) : IsLeaf (.integer size) [] size
  | element {dims indices : List Nat} {t : ObjectType} {path : List Step} {size : Nat}
      (inRange : InRange dims indices) (leaf : IsLeaf t path size) :
      IsLeaf (.array dims t) (.element indices :: path) size
  | field {ts : List ObjectType} {D : Nat} {t : ObjectType} {path : List Step} {size : Nat} (isElement : ts[D]? = some t)
      (leaf : IsLeaf t path size) : IsLeaf (.record ts) (.field D :: path) size

def leafStatement (objName : List Char) (leaf : List Step × Nat) : List Char :=
  initStatement (objName ++ reference leaf.1) leaf.2

structure Enumerates (leaves : List (List Step × Nat)) (isLeaf : List Step → Nat → Prop) : Prop where
  nodup : leaves.Nodup
  mem_iff : ∀ path size, (path, size) ∈ leaves ↔ isLeaf path size

def under (leaves : List (List Step × Nat)) (step : Step) : List (List Step × Nat) :=
  leaves.map fun leaf => (step :: leaf.1, leaf.2)

theorem mem_under {leaves : List (List Step × Nat)} {step : Step} {path : List Step} {size : Nat} :
    (path, size) ∈ under leaves step ↔ ∃ rest, path = step :: rest ∧ (rest, size) ∈ leaves := by
  constructor
  · intro mem
    obtain ⟨⟨rest, size'⟩, isLeaf, same⟩ := List.mem_map.mp mem
    obtain ⟨rfl, rfl⟩ := Prod.mk.inj same
    exact ⟨rest, rfl, isLeaf⟩
  · rintro ⟨rest, rfl, isLeaf⟩
    exact List.mem_map.mpr ⟨(rest, size), isLeaf, rfl⟩

theorem map_leafStatement_under (objName : List Char) (leaves : List (List Step × Nat)) (step : Step) :
    (under leaves step).map (leafStatement objName) = leaves.map (leafStatement (objName ++ step.text)) := by
  rw [under, List.map_map]
  refine List.map_congr_left fun leaf _ => ?_
  rw [Function.comp_apply, leafStatement, leafStatement, reference, List.flatMap_cons, ← List.append_assoc]
  rfl

theorem disjoint_under {leaves leaves' : List (List Step × Nat)} {step step' : Step} (ne : step ≠ step') :
    List.Disjoint (under leaves step) (under leaves' step') := by
  rintro ⟨path, size⟩ mem mem'
  obtain ⟨_, rfl, -⟩ := mem_under.mp mem
  obtain ⟨_, same, -⟩ := mem_under.mp mem'
  exact ne (List.cons.inj same).1

theorem nodup_under {leaves : List (List Step × Nat)} (nodup : leaves.Nodup) (step : Step) :
    (under leaves step).Nodup := by
  refine nodup.map fun leaf leaf' same => ?_
  obtain ⟨tail, size⟩ := Prod.mk.inj same
  exact Prod.ext (List.cons.inj tail).2 size

def Prints (t : ObjectType) (leaves : List (List Step × Nat)) : Prop :=
  ∃ n, ∀ fuel, n ≤ fuel → ∀ objName, printCGlobalInitialization fuel t objName = some (leaves.map (leafStatement objName))

theorem prints_array {dims : List Nat} {t : ObjectType} (positive : ∀ d ∈ dims, 1 ≤ d)
    (element : ∃ leaves, Enumerates leaves (IsLeaf t) ∧ Prints t leaves) :
    ∃ leaves, Enumerates leaves (IsLeaf (.array dims t)) ∧ Prints (.array dims t) leaves := by
  obtain ⟨leaves, enumerates, n, prints⟩ := element
  obtain ⟨visited, nodup, all, printed⟩ := printElements_zeros positive
  refine ⟨(visited.map Step.element).flatMap (under leaves), ⟨?_, fun path size => ?_⟩, max n dims.prod,
    fun fuel enough objName => ?_⟩
  · have different : (visited.map Step.element).Nodup := nodup.map fun _ _ same => Step.element.inj same
    rw [List.nodup_flatMap]
    exact ⟨fun step _ => nodup_under enumerates.nodup step, different.imp disjoint_under⟩
  · rw [List.mem_flatMap]
    constructor
    · rintro ⟨step, taken, mem⟩
      obtain ⟨indices, isVisited, rfl⟩ := List.mem_map.mp taken
      obtain ⟨rest, rfl, isLeaf⟩ := mem_under.mp mem
      exact .element ((all indices).mp isVisited) ((enumerates.mem_iff rest size).mp isLeaf)
    · intro leaf
      cases leaf with
      | @element _ indices _ path _ inRange leaf =>
          refine ⟨.element indices, List.mem_map.mpr ⟨indices, (all indices).mpr inRange, rfl⟩, ?_⟩
          exact mem_under.mpr ⟨path, rfl, (enumerates.mem_iff path size).mpr leaf⟩
  · rw [printCGlobalInitialization, printed _ (fun name => leaves.map (leafStatement name)) objName fuel
      (prints fuel (by omega)) (by omega), List.flatMap_map, List.map_flatMap]
    refine congrArg some (List.flatMap_congr fun indices _ => ?_)
    exact (map_leafStatement_under objName leaves (.element indices)).symm

/-- The leaves in the elements from `D` on. -/
def IsFieldLeaf (ts : List ObjectType) (D : Nat) (path : List Step) (size : Nat) : Prop :=
  ∃ k t rest, ts[k]? = some t ∧ path = .field (D + k) :: rest ∧ IsLeaf t rest size

theorem isFieldLeaf_cons (t : ObjectType) (ts : List ObjectType) (D : Nat) (path : List Step) (size : Nat) :
    IsFieldLeaf (t :: ts) D path size ↔
      (∃ rest, path = .field D :: rest ∧ IsLeaf t rest size) ∨ IsFieldLeaf ts (D + 1) path size := by
  constructor
  · rintro ⟨k, t', rest, isElement, eq, leaf⟩
    cases k with
    | zero =>
        obtain rfl := Option.some.inj isElement
        exact .inl ⟨rest, eq, leaf⟩
    | succ k => exact .inr ⟨k, t', rest, isElement, by rw [eq, Nat.add_right_comm, Nat.add_assoc], leaf⟩
  · rintro (⟨rest, eq, leaf⟩ | ⟨k, t', rest, isElement, eq, leaf⟩)
    · exact ⟨0, t, rest, rfl, eq, leaf⟩
    · exact ⟨k + 1, t', rest, isElement, by rw [eq, Nat.add_right_comm, Nat.add_assoc], leaf⟩

theorem prints_fields (ts : List ObjectType) (D : Nat)
    (elements : ∀ t ∈ ts, ∃ leaves, Enumerates leaves (IsLeaf t) ∧ Prints t leaves) :
    ∃ leaves, Enumerates leaves (IsFieldLeaf ts D) ∧
      ∃ n, ∀ fuel, n ≤ fuel → ∀ objName, printFields fuel ts D objName = some (leaves.map (leafStatement objName)) := by
  induction ts generalizing D with
  | nil =>
      refine ⟨[], ⟨List.nodup_nil, fun path size => ⟨fun mem => absurd mem List.not_mem_nil, ?_⟩⟩, 0, fun _ _ _ => rfl⟩
      rintro ⟨k, t, rest, isElement, -⟩
      cases isElement
  | cons t ts ih =>
      obtain ⟨first, enumFirst, n, printFirst⟩ := elements t List.mem_cons_self
      obtain ⟨others, enumOthers, m, printOthers⟩ := ih (D + 1) fun t' mem => elements t' (List.mem_cons_of_mem _ mem)
      refine ⟨under first (.field D) ++ others, ⟨List.Nodup.append ?_ enumOthers.nodup ?_, fun path size => ?_⟩,
        max n m, fun fuel enough objName => ?_⟩
      · exact nodup_under enumFirst.nodup (.field D)
      · rintro ⟨path, size⟩ mem mem'
        obtain ⟨rest, rfl, -⟩ := mem_under.mp mem
        obtain ⟨k, _, _, _, eq, _⟩ := (enumOthers.mem_iff _ _).mp mem'
        have later : D = D + 1 + k := Step.field.inj (List.cons.inj eq).1
        omega
      · rw [List.mem_append, mem_under, enumOthers.mem_iff, isFieldLeaf_cons]
        simp only [enumFirst.mem_iff]
      · rw [printFields, printFirst fuel (by omega), Option.bind_some, printOthers fuel (by omega), Option.map_some,
          List.map_append, map_leafStatement_under]
        rfl

theorem prints_record {ts : List ObjectType}
    (elements : ∀ t ∈ ts, ∃ leaves, Enumerates leaves (IsLeaf t) ∧ Prints t leaves) :
    ∃ leaves, Enumerates leaves (IsLeaf (.record ts)) ∧ Prints (.record ts) leaves := by
  obtain ⟨leaves, enumerates, printed⟩ := prints_fields ts 0 elements
  refine ⟨leaves, ⟨enumerates.nodup, fun path size => (enumerates.mem_iff path size).trans ⟨?_, fun leaf => ?_⟩⟩, printed⟩
  · rintro ⟨k, t, rest, isElement, rfl, leaf⟩
    rw [Nat.zero_add]
    exact .field isElement leaf
  · cases leaf with
    | @field _ D t path _ isElement leaf => exact ⟨D, t, path, isElement, by rw [Nat.zero_add], leaf⟩

theorem exists_leaves {t : ObjectType} (inhabited : t.Inhabited) :
    ∃ leaves, Enumerates leaves (IsLeaf t) ∧ Prints t leaves := by
  induction inhabited with
  | integer size =>
      refine ⟨[([], size)], ⟨List.nodup_singleton _, fun path size' => ?_⟩, 0, fun fuel _ objName => ?_⟩
      · rw [List.mem_singleton]
        constructor
        · intro same
          obtain ⟨rfl, rfl⟩ := Prod.mk.inj same
          exact .integer _
        · intro leaf
          cases leaf
          rfl
      · rw [printCGlobalInitialization, List.map_singleton, leafStatement, reference, List.flatMap_nil, List.append_nil]
  | other =>
      refine ⟨[], ⟨List.nodup_nil, fun path size => ⟨fun mem => absurd mem List.not_mem_nil, fun leaf => ?_⟩⟩, 0,
        fun _ _ _ => by rw [printCGlobalInitialization, List.map_nil]⟩
      cases leaf
  | array positive _ ih => exact prints_array positive ih
  | record _ ih => exact prints_record ih

end Leaves

section Text

theorem takeWhile_append_of_ends {p : Char → Bool} {front rest : List Char} (all : ∀ c ∈ front, p c = true)
    (ends : ∀ c ∈ rest.head?, p c = false) : (front ++ rest).takeWhile p = front := by
  rw [List.takeWhile_append_of_pos all]
  cases rest with
  | nil => rw [List.takeWhile_nil, List.append_nil]
  | cons c rest =>
      rw [List.takeWhile_cons_of_neg (by rw [ends c rfl]; exact Bool.false_ne_true), List.append_nil]

/-- A front that ends where a property does can be told from what is behind it. -/
theorem front_inj {p : Char → Bool} {front front' rest rest' : List Char} (all : ∀ c ∈ front, p c = true)
    (all' : ∀ c ∈ front', p c = true) (ends : ∀ c ∈ rest.head?, p c = false) (ends' : ∀ c ∈ rest'.head?, p c = false)
    (same : front ++ rest = front' ++ rest') : front = front' ∧ rest = rest' := by
  have fronts := congrArg (List.takeWhile p) same
  rw [takeWhile_append_of_ends all ends, takeWhile_append_of_ends all' ends'] at fronts
  subst fronts
  exact ⟨rfl, List.append_cancel_left same⟩

theorem isDigit_of_mem_intToStr {n : Nat} {c : Char} (mem : c ∈ intToStr n) : c.isDigit = true :=
  Nat.isDigit_of_mem_toDigits (by decide) (by decide) mem

theorem intToStr_inj {n n' : Nat} {rest rest' : List Char} (ends : ∀ c ∈ rest.head?, c.isDigit = false)
    (ends' : ∀ c ∈ rest'.head?, c.isDigit = false) (same : intToStr n ++ rest = intToStr n' ++ rest') :
    n = n' ∧ rest = rest' := by
  obtain ⟨digits, rests⟩ := front_inj (fun _ => isDigit_of_mem_intToStr) (fun _ => isDigit_of_mem_intToStr) ends ends' same
  have numbers := congrArg (fun text => Nat.ofDigitChars 10 text 0) digits
  refine ⟨?_, rests⟩
  rwa [intToStr, intToStr, Nat.ofDigitChars_ten_toDigits, Nat.ofDigitChars_ten_toDigits] at numbers

theorem indexText_cons (i : Nat) (indices : List Nat) (rest : List Char) :
    indexText (i :: indices) ++ rest = '[' :: (intToStr i ++ (']' :: (indexText indices ++ rest))) := by
  simp [indexText]

theorem indexText_inj {indices indices' : List Nat} (length : indices.length = indices'.length) {rest rest' : List Char}
    (same : indexText indices ++ rest = indexText indices' ++ rest') : indices = indices' ∧ rest = rest' := by
  induction indices generalizing indices' with
  | nil =>
      obtain rfl := List.length_eq_zero_iff.mp length.symm
      exact ⟨rfl, same⟩
  | cons i indices ih =>
      cases indices' with
      | nil => exact absurd length (Nat.succ_ne_zero _)
      | cons i' indices' =>
          rw [indexText_cons, indexText_cons] at same
          have bracket : ∀ text : List Char, ∀ c ∈ (']' :: text).head?, c.isDigit = false := by
            intro text c isHead
            obtain rfl := Option.some.inj isHead
            rfl
          obtain ⟨rfl, tails⟩ := intToStr_inj (bracket _) (bracket _) (List.cons.inj same).2
          obtain ⟨rfl, rests⟩ := ih (Nat.succ.inj length) (List.cons.inj tails).2
          exact ⟨rfl, rests⟩

theorem fieldText_append (D : Nat) (rest : List Char) : fieldText D ++ rest = '.' :: 'f' :: '_' :: (intToStr D ++ rest) := by
  simp [fieldText]

theorem reference_cons (step : Step) (path : List Step) : reference (step :: path) = step.text ++ reference path :=
  List.flatMap_cons

theorem head_reference {t : ObjectType} {path : List Step} {size : Nat} (leaf : IsLeaf t path size) :
    ∀ c ∈ (reference path).head?, c.isDigit = false := by
  induction leaf with
  | integer size => exact fun c isHead => absurd isHead (by simp [reference])
  | @element dims indices t path size inRange leaf ih =>
      rw [reference_cons, Step.text]
      cases indices with
      | nil => exact ih
      | cons i indices =>
          rw [indexText_cons]
          intro c isHead
          obtain rfl := Option.some.inj isHead
          rfl
  | field isElement leaf ih =>
      rw [reference_cons, Step.text, fieldText_append]
      intro c isHead
      obtain rfl := Option.some.inj isHead
      rfl

theorem reference_inj {t : ObjectType} {path path' : List Step} {size size' : Nat} (leaf : IsLeaf t path size)
    (leaf' : IsLeaf t path' size') (same : reference path = reference path') : path = path' ∧ size = size' := by
  induction leaf generalizing path' with
  | integer size =>
      cases leaf'
      exact ⟨rfl, rfl⟩
  | @element dims indices t path size inRange leaf ih =>
      cases leaf' with
      | @element _ indices' _ path' _ inRange' leaf' =>
          rw [reference_cons, reference_cons] at same
          obtain ⟨rfl, rest⟩ := indexText_inj (inRange.length_eq.trans inRange'.length_eq.symm) same
          obtain ⟨rfl, sizes⟩ := ih leaf' rest
          exact ⟨rfl, sizes⟩
  | @field ts D t path size isElement leaf ih =>
      cases leaf' with
      | @field _ D' t' path' _ isElement' leaf' =>
          rw [reference_cons, reference_cons, Step.text, Step.text, fieldText_append, fieldText_append] at same
          have numbers := (List.cons.inj (List.cons.inj (List.cons.inj same).2).2).2
          obtain ⟨rfl, rest⟩ := intToStr_inj (head_reference leaf) (head_reference leaf') numbers
          obtain rfl : t = t' := Option.some.inj (isElement.symm.trans isElement')
          obtain ⟨rfl, sizes⟩ := ih leaf' rest
          exact ⟨rfl, sizes⟩

theorem parenless_reference (path : List Step) : ∀ c ∈ reference path, (c != ')') = true := by
  have digit : ∀ n, ∀ c ∈ intToStr n, (c != ')') = true := by
    intro n c mem
    rw [bne_iff_ne]
    rintro rfl
    exact absurd (isDigit_of_mem_intToStr mem) (by decide)
  intro c mem
  obtain ⟨step, -, memText⟩ := List.mem_flatMap.mp mem
  cases step with
  | element indices =>
      obtain ⟨i, -, memIndex⟩ := List.mem_flatMap.mp memText
      simp only [List.mem_append] at memIndex
      obtain (opens | number) | closes := memIndex
      · obtain rfl := List.mem_singleton.mp opens
        rfl
      · exact digit i c number
      · obtain rfl := List.mem_singleton.mp closes
        rfl
  | field D =>
      rw [Step.text, fieldText, List.mem_append] at memText
      obtain name | number := memText
      · have letters : c = '.' ∨ c = 'f' ∨ c = '_' := by simpa using name
        obtain rfl | rfl | rfl := letters
        all_goals rfl
      · exact digit D c number

theorem initStatement_eq (objName cref : List Char) (size : Nat) :
    initStatement (objName ++ cref) size =
      "init_static_bit_vector(&(".toList ++ (objName ++ (cref ++ ')' :: (',' :: ' ' :: (intToStr size ++ [')', ';'])))) := by
  have comma : "), ".toList = [')', ',', ' '] := rfl
  have close : ");".toList = [')', ';'] := rfl
  unfold initStatement
  generalize "init_static_bit_vector(&(".toList = opening
  simp only [comma, close, List.append_assoc, List.cons_append, List.nil_append]

theorem leafStatement_inj {t : ObjectType} (objName : List Char) {leaf leaf' : List Step × Nat}
    (isLeaf : IsLeaf t leaf.1 leaf.2) (isLeaf' : IsLeaf t leaf'.1 leaf'.2)
    (same : leafStatement objName leaf = leafStatement objName leaf') : leaf = leaf' := by
  have ends : ∀ (text : List Char), ∀ c ∈ (')' :: text).head?, (c != ')') = false := by
    intro text c isHead
    obtain rfl := Option.some.inj isHead
    rfl
  rw [leafStatement, leafStatement, initStatement_eq, initStatement_eq] at same
  have behind := List.append_cancel_left (List.append_cancel_left same)
  obtain ⟨references, -⟩ := front_inj (parenless_reference _) (parenless_reference _) (ends _) (ends _) behind
  obtain ⟨paths, sizes⟩ := reference_inj isLeaf isLeaf' references
  exact Prod.ext paths sizes

end Text

/-- The call returns, and what it prints is one statement for each integer of the object, none of them twice. -/
structure InitializedOnce (t : ObjectType) (objName : List Char) (lines : List (List Char)) : Prop where
  returns : ∃ n, ∀ fuel, n ≤ fuel → printCGlobalInitialization fuel t objName = some lines
  leaves : ∃ leaves, Enumerates leaves (IsLeaf t) ∧ lines = leaves.map (leafStatement objName)
  nodup : lines.Nodup

theorem exists_initializedOnce {t : ObjectType} (inhabited : t.Inhabited) (objName : List Char) :
    ∃ lines, InitializedOnce t objName lines := by
  obtain ⟨leaves, enumerates, n, prints⟩ := exists_leaves inhabited
  refine ⟨leaves.map (leafStatement objName), ⟨n, fun fuel enough => prints fuel enough objName⟩,
    ⟨leaves, enumerates, rfl⟩, enumerates.nodup.map_on fun leaf mem leaf' mem' same => ?_⟩
  exact leafStatement_inj objName ((enumerates.mem_iff _ _).mp mem) ((enumerates.mem_iff _ _).mp mem') same

theorem exists_initializedOnce_record :
    ∃ lines, InitializedOnce (.record [.array [2, 3] (.integer 8), .integer 5]) ['x'] lines := by
  have matrix : ObjectType.Inhabited (.array [2, 3] (.integer 8)) := .array (by decide) (.integer 8)
  apply exists_initializedOnce
  apply ObjectType.Inhabited.record
  intro t mem
  rw [List.mem_cons, List.mem_singleton] at mem
  obtain rfl | rfl := mem
  · exact matrix
  · exact .integer 5

end Ahir.Aa.Global
