import Ahir.Rtl.VhdlExpression

/-!
# The split statement of the rtl language

`rtlSplitStatement` assigns slices of its source to its targets, the first target the
topmost one.  Where the fields of the source lie is compared with the slices.
-/

set_option autoImplicit false

namespace Ahir.Rtl
open Ahir.Data Ahir.BitVectors

/-- The indices `H` and `L` of the slices that the loop of the constructor makes. -/
def splitIndices : Int → List Nat → List (Int × Int)
  | _, [] => []
  | H, size :: sizes =>
      let L := H - size + 1
      (H, L) :: splitIndices (L - 1) sizes

def sizes (targets : List RtlType) : List Nat := targets.map RtlType.width

/-- `_sources`: the loop starts at the size of the source. -/
def splitSources (src : Expression) (targets : List RtlType) : List Expression :=
  (splitIndices src.type.width (sizes targets)).map fun s => .slice src s.1.toNat s.2.toNat

/-- The slices that the loop would make if it started at the topmost bit of the source. -/
def fieldSources (src : Expression) (targets : List RtlType) : List Expression :=
  (splitIndices (src.type.width - 1) (sizes targets)).map fun s => .slice src s.1.toNat s.2.toNat

/-- The lowest bit of the field of target `k`: the targets after it lie below. -/
def fieldLow (targets : List RtlType) (k : Nat) : Nat := (sizes (targets.drop (k + 1))).sum

/-- The bits of expressions one after the other, those of the first on top. -/
def joinBits (objects : String → BitVector) : List Expression → Nat → Bool
  | [], _ => false
  | e :: rest, i =>
      let below := (rest.map fun e => e.type.width).sum
      if i < below then joinBits objects rest i else e.bits objects (i - below)

structure Partitions (src : Expression) (targets : List RtlType) (sources : List Expression) : Prop where
  inside : ∀ e ∈ sources, e.WellTyped
  fields : ∀ k (isTarget : k < targets.length), ∃ e, sources[k]? = some e ∧ e.type.width = targets[k].width ∧
    ∀ objects, ∀ i < targets[k].width, e.bits objects i = src.bits objects (i + fieldLow targets k)
  whole : ∀ objects, ∀ i < src.type.width, joinBits objects sources i = src.bits objects i

theorem length_splitIndices (H : Int) (sizes : List Nat) : (splitIndices H sizes).length = sizes.length := by
  induction sizes generalizing H with
  | nil => rfl
  | cons size sizes ih => exact congrArg Nat.succ (ih _)

theorem getElem?_splitIndices {H : Int} {sizes : List Nat} {top : Nat} (total : H + 1 = top + sizes.sum) {k : Nat}
    (isTarget : k < sizes.length) : (splitIndices H sizes)[k]? =
      some ((top : Int) + (sizes.drop (k + 1)).sum + sizes[k] - 1, (top : Int) + (sizes.drop (k + 1)).sum) := by
  induction sizes generalizing H k with
  | nil => exact absurd isTarget (Nat.not_lt_zero _)
  | cons size sizes ih =>
      rw [List.sum_cons, Nat.cast_add] at total
      cases k with
      | zero =>
          have rest : ((size :: sizes).drop (0 + 1)).sum = sizes.sum := rfl
          simp only [splitIndices, List.getElem?_cons_zero, List.getElem_cons_zero, rest]
          congr 2 <;> omega
      | succ k =>
          simp only [splitIndices, List.getElem?_cons_succ, List.drop_succ_cons, List.getElem_cons_succ]
          exact ih (by omega) (Nat.lt_of_succ_lt_succ isTarget)

section Slices
variable {src : Expression} {targets : List RtlType} (fill : (sizes targets).sum = src.type.width)
include fill

theorem getElem?_slices {H : Int} {top : Nat} (start : H + 1 = top + src.type.width) {k : Nat}
    (isTarget : k < targets.length) :
    ((splitIndices H (sizes targets)).map fun s => Expression.slice src s.1.toNat s.2.toNat)[k]? =
      some (.slice src (top + fieldLow targets k + targets[k].width - 1) (top + fieldLow targets k)) := by
  have isSize : k < (sizes targets).length := by rwa [sizes, List.length_map]
  have width : (sizes targets)[k] = targets[k].width := List.getElem_map _
  have low : ((sizes targets).drop (k + 1)).sum = fieldLow targets k := by rw [fieldLow, sizes, sizes, List.map_drop]
  have total : H + 1 = top + (sizes targets).sum := by rwa [fill]
  rw [List.getElem?_map, getElem?_splitIndices total isSize, Option.map_some, width, low]
  congr 2
  omega

theorem splitSources_above {k : Nat} (isTarget : k < targets.length) : (splitSources src targets)[k]? =
    some (.slice src (1 + fieldLow targets k + targets[k].width - 1) (1 + fieldLow targets k)) :=
  getElem?_slices fill (by omega) isTarget

theorem fieldSources_at {k : Nat} (isTarget : k < targets.length) : (fieldSources src targets)[k]? =
    some (.slice src (0 + fieldLow targets k + targets[k].width - 1) (0 + fieldLow targets k)) :=
  getElem?_slices fill (by omega) isTarget

theorem fieldLow_zero (isTarget : 0 < targets.length) : fieldLow targets 0 + targets[0].width = src.type.width := by
  rw [← fill]
  cases targets with
  | nil => exact absurd isTarget (Nat.lt_irrefl 0)
  | cons target rest => exact Nat.add_comm _ _

end Slices

/-- The fields below a target and the target itself are inside the source. -/
theorem fieldLow_add_le (targets : List RtlType) {k : Nat} (isTarget : k < targets.length) :
    fieldLow targets k + targets[k].width ≤ (sizes targets).sum := by
  induction targets generalizing k with
  | nil => exact absurd isTarget (Nat.not_lt_zero _)
  | cons target rest ih =>
      cases k with
      | zero => exact le_of_eq (Nat.add_comm _ _)
      | succ k => exact le_trans (ih (Nat.lt_of_succ_lt_succ isTarget)) (Nat.le_add_left _ _)

section Join
variable (src : Expression)

def slicesFrom (H : Int) (widths : List Nat) : List Expression :=
  (splitIndices H widths).map fun s => .slice src s.1.toNat s.2.toNat

theorem slicesFrom_cons {H : Int} {w : Nat} {widths : List Nat} (pos : 0 < w) (total : H + 1 = (w :: widths).sum) :
    slicesFrom src H (w :: widths) =
      .slice src (widths.sum + w - 1) widths.sum :: slicesFrom src (widths.sum - 1) widths := by
  rw [List.sum_cons, Nat.cast_add] at total
  have high : H.toNat = widths.sum + w - 1 := by omega
  have low : H - w + 1 = widths.sum := by omega
  simp only [slicesFrom, splitIndices, List.map_cons, high, low, Int.toNat_natCast]

theorem sum_slicesFrom {H : Int} {widths : List Nat} (pos : ∀ w ∈ widths, 0 < w) (total : H + 1 = widths.sum) :
    ((slicesFrom src H widths).map fun e => e.type.width).sum = widths.sum := by
  induction widths generalizing H with
  | nil => rfl
  | cons w widths ih =>
      have posW := pos w List.mem_cons_self
      have rest := ih (H := widths.sum - 1) (fun w member => pos w (List.mem_cons_of_mem _ member)) (by omega)
      have width : (Expression.slice src (widths.sum + w - 1) widths.sum).type.width = w := by
        change widths.sum + w - 1 - widths.sum + 1 = w
        omega
      rw [slicesFrom_cons src posW total, List.map_cons, List.sum_cons, rest, width, List.sum_cons]

theorem joinBits_slicesFrom (objects : String → BitVector) {H : Int} {widths : List Nat} (pos : ∀ w ∈ widths, 0 < w)
    (total : H + 1 = widths.sum) {i : Nat} (inside : i < widths.sum) :
    joinBits objects (slicesFrom src H widths) i = src.bits objects i := by
  induction widths generalizing H with
  | nil => exact absurd inside (Nat.not_lt_zero i)
  | cons w widths ih =>
      have posRest : ∀ w ∈ widths, 0 < w := fun w member => pos w (List.mem_cons_of_mem _ member)
      have next : (widths.sum : Int) - 1 + 1 = widths.sum := by omega
      rw [slicesFrom_cons src (pos w List.mem_cons_self) total, joinBits, sum_slicesFrom src posRest next]
      by_cases below : i < widths.sum
      · rw [if_pos below]
        exact ih posRest next below
      · rw [if_neg below]
        change src.bits objects (i - widths.sum + widths.sum) = src.bits objects i
        rw [Nat.sub_add_cancel (by omega)]

end Join

/-- What the statement is for: from the topmost bit on the loop makes a partition. -/
theorem fieldSources_partitions {src : Expression} {targets : List RtlType} (typed : src.WellTyped)
    (fill : (sizes targets).sum = src.type.width) (pos : ∀ t ∈ targets, 0 < t.width) :
    Partitions src targets (fieldSources src targets) := by
  have posSizes : ∀ w ∈ sizes targets, 0 < w := by
    intro w member
    obtain ⟨t, isTarget, rfl⟩ := List.mem_map.mp member
    exact pos t isTarget
  have length : (fieldSources src targets).length = targets.length := by
    rw [fieldSources, List.length_map, length_splitIndices, sizes, List.length_map]
  refine ⟨fun e member => ?_, fun k isTarget => ?_, fun objects i inside => ?_⟩
  · obtain ⟨k, isSource, rfl⟩ := List.mem_iff_getElem.mp member
    have isTarget : k < targets.length := length ▸ isSource
    have source := Option.some.inj ((List.getElem?_eq_getElem isSource).symm.trans (fieldSources_at fill isTarget))
    have posK := pos _ (List.getElem_mem isTarget)
    have top := fieldLow_add_le targets isTarget
    rw [source]
    exact ⟨typed, by omega, by omega⟩
  · have posK := pos _ (List.getElem_mem isTarget)
    refine ⟨_, fieldSources_at fill isTarget, ?_, fun objects i inside => ?_⟩
    · change 0 + fieldLow targets k + targets[k].width - 1 - (0 + fieldLow targets k) + 1 = targets[k].width
      omega
    · rw [Nat.zero_add]
      rfl
  · exact joinBits_slicesFrom src objects posSizes (by omega) (fill ▸ inside)

/-- What `bit_vector_slice` asserts. -/
def sliceAsserts (srcWidth destWidth lowIndex : Nat) : Prop := lowIndex + destWidth ≤ srcWidth

theorem vhdlValue_slice_above {id : String} {type : RtlType} {high low : Nat} {objects : String → BitVector}
    (fits : (Expression.object id type).Fits objects) (above : type.width ≤ high) :
    (Expression.slice (.object id type) high low).vhdlValue objects = none := by
  have outside : ¬ (0 ≤ low ∧ low ≤ high ∧ high < 0 + (objects id).width) := by
    rw [fits.1]
    omega
  simp only [Expression.vhdlValue, Vhdl.ofExpression, Option.map_some, Option.bind_some, Vhdl.eval, Vhdl.isPrefix,
    if_true, VhdlValue.slice, if_neg outside, Option.bind_none]

/-- A source that its targets fill is never partitioned.  The first slice has an index above
those of the source: `bit_vector_slice` stops at its assertion, and the VHDL text of a slice
of an object has no value. -/
theorem splitStatement_not_partitions (src : Expression) (targets : List RtlType) (typed : src.WellTyped)
    (fill : (sizes targets).sum = src.type.width) :
    ¬ Partitions src targets (splitSources src targets) ∧
      ∃ high low, (splitSources src targets)[0]? = some (.slice src high low) ∧
        ¬ sliceAsserts src.type.width (high - low + 1) low ∧
        ∀ id type objects, src = .object id type → src.Fits objects →
          (Expression.slice src high low).vhdlValue objects = none := by
  have pos := Expression.width_pos typed
  have isTarget : 0 < targets.length := by
    by_contra none
    have empty : targets = [] := List.length_eq_zero_iff.mp (by omega)
    rw [empty] at fill
    exact absurd fill.symm (Nat.ne_of_gt pos)
  have first := splitSources_above fill isTarget
  have top := fieldLow_zero fill isTarget
  refine ⟨fun partitions => ?_, _, _, first, fun asserted => ?_, fun id type objects object fits => ?_⟩
  · have inside := (partitions.inside _ (List.mem_of_getElem? first)).2.2
    omega
  · unfold sliceAsserts at asserted
    omega
  · subst object
    change _ = type.width at top
    exact vhdlValue_slice_above fits (by omega)

/-- A word that is split into a byte and two halves of one. -/
theorem splitStatement_not_partitions_word :
    ¬ Partitions (.object "a" ⟨false, 16⟩) [⟨false, 8⟩, ⟨false, 4⟩, ⟨true, 4⟩]
      (splitSources (.object "a" ⟨false, 16⟩) [⟨false, 8⟩, ⟨false, 4⟩, ⟨true, 4⟩]) :=
  (splitStatement_not_partitions (.object "a" ⟨false, 16⟩) [⟨false, 8⟩, ⟨false, 4⟩, ⟨true, 4⟩] (Nat.succ_pos 15) rfl).1

/-- A byte that is split into its halves: `(a[8:5], a[4:1])`. -/
theorem splitStatement_not_partitions_byte : let a : Expression := .object "a" ⟨false, 8⟩
    let halves : List RtlType := [⟨false, 4⟩, ⟨false, 4⟩]
    a.WellTyped ∧ (sizes halves).sum = a.type.width ∧
      splitSources a halves = [.slice a 8 5, .slice a 4 1] ∧ ¬ Partitions a halves (splitSources a halves) := by
  intro a halves
  have sources : splitSources a halves = [.slice a 8 5, .slice a 4 1] := rfl
  refine ⟨Nat.succ_pos 7, rfl, sources, fun partitions => ?_⟩
  have inside := partitions.inside (.slice a 8 5) (by rw [sources]; exact List.mem_cons_self)
  exact absurd inside.2.2 (Nat.lt_irrefl 8)

end Ahir.Rtl
