import Mathlib.Tactic

/-!
# Matrices of bits as vectors

The conversions between a matrix and the vector of its words.  Both give their arguments
indices that go down to 0, so a value is given by its elements from the left one on; a
vector or a matrix is indexed from its right end.
-/

set_option autoImplicit false

namespace Ahir.Hardware.Matrix

inductive StdLogic where
  | U | X | zero | one | Z | W | L | H | dontCare
  deriving DecidableEq

@[ext]
structure StdLogicArray2D where
  columns : Nat
  rows : List (List StdLogic)
  length_row : ∀ row ∈ rows, row.length = columns

/-- `lx(I,J)` -/
def StdLogicArray2D.lx (x : StdLogicArray2D) (I J : Nat) : Option StdLogic := (x.rows.reverse[I]?).bind (·.reverse[J]?)

/-- `ret_var(i) := value`, where `ret_var` is kept from its right end on; none when `i` is out of range. -/
def assign (retVar : List StdLogic) (i : Nat) (value : StdLogic) : Option (List StdLogic) :=
  if i < retVar.length then some (retVar.set i value) else none

/-- `for I in lx'range(1) loop for J in lx'range(2) loop`, with both ranges down to 0. -/
def loops (rows columns : Nat) : List (Nat × Nat) :=
  (List.range rows).reverse.flatMap fun I => (List.range columns).reverse.map fun J => (I, J)

/-- `To_SLV`; the stride of its rows is the number of rows. -/
def toSLV (x : StdLogicArray2D) : Option (List StdLogic) :=
  ((loops x.rows.length x.columns).foldlM
    (fun retVar p => (x.lx p.1 p.2).bind (assign retVar (p.1 * x.rows.length + p.2)))
    (List.replicate (x.rows.length * x.columns) .U)).map List.reverse

/-- A row of `ret_var`. -/
def rowOf (inp : List StdLogic) (wordSize I : Nat) : Option (List StdLogic) :=
  (List.range wordSize).reverse.mapM fun J => inp.reverse[I * wordSize + J]?

theorem length_of_mapM {α β : Type} {f : α → Option β} {l : List α} {l' : List β} (result : l.mapM f = some l') :
    l'.length = l.length := by
  induction l generalizing l' with
  | nil =>
      rw [List.mapM_nil] at result
      rw [← Option.some.inj result]
      rfl
  | cons a l ih =>
      rw [List.mapM_cons] at result
      obtain ⟨b, _, rest⟩ := Option.bind_eq_some_iff.mp result
      obtain ⟨bs, isTail, eq⟩ := Option.bind_eq_some_iff.mp rest
      rw [← Option.some.inj eq, List.length_cons, ih isTail, List.length_cons]

theorem getElem?_mapM {α β : Type} {f : α → Option β} {l : List α} {l' : List β} (result : l.mapM f = some l') (k : Nat) :
    l'[k]? = l[k]?.bind f := by
  induction l generalizing l' k with
  | nil =>
      rw [List.mapM_nil] at result
      rw [← Option.some.inj result]
      rfl
  | cons a l ih =>
      rw [List.mapM_cons] at result
      obtain ⟨b, first, rest⟩ := Option.bind_eq_some_iff.mp result
      obtain ⟨bs, isTail, eq⟩ := Option.bind_eq_some_iff.mp rest
      rw [← Option.some.inj eq]
      cases k with
      | zero => exact first.symm
      | succ k => exact ih isTail k

theorem exists_mapM {α β : Type} {f : α → Option β} {l : List α} (all : ∀ a ∈ l, (f a).isSome) :
    ∃ l', l.mapM f = some l' := by
  induction l with
  | nil => exact ⟨[], rfl⟩
  | cons a l ih =>
      obtain ⟨b, first⟩ := Option.isSome_iff_exists.mp (all a List.mem_cons_self)
      obtain ⟨bs, rest⟩ := ih fun a' mem => all a' (List.mem_cons_of_mem _ mem)
      refine ⟨b :: bs, ?_⟩
      rw [List.mapM_cons, first, rest]
      rfl

/-- `To_StdLogicArray2D`: every element of `ret_var` is assigned once.  It divides by the size of a word. -/
def toStdLogicArray2D (inp : List StdLogic) (wordSize : Nat) : Option StdLogicArray2D :=
  if wordSize = 0 then none
  else
    match isRows : (List.range (inp.length / wordSize)).reverse.mapM (rowOf inp wordSize) with
    | none => none
    | some rows => some
        { columns := wordSize
          rows := rows
          length_row := by
            intro row mem
            obtain ⟨k, inside, rfl⟩ := List.mem_iff_getElem.mp mem
            have isRow := getElem?_mapM isRows k
            rw [List.getElem?_eq_getElem inside] at isRow
            obtain ⟨I, _, result⟩ := Option.bind_eq_some_iff.mp isRow.symm
            rw [length_of_mapM result, List.length_reverse, List.length_range] }

section Rows

theorem getElem?_reverse_mapM {α β : Type} {f : α → Option β} {l : List α} {l' : List β}
    (result : l.reverse.mapM f = some l') (k : Nat) : l'.reverse[k]? = l[k]?.bind f := by
  have length := length_of_mapM result
  rw [List.length_reverse] at length
  by_cases inside : k < l.length
  · rw [List.getElem?_reverse (by omega), getElem?_mapM result, List.getElem?_reverse (by omega), length]
    rw [show l.length - 1 - (l.length - 1 - k) = k by omega]
  · rw [List.getElem?_eq_none (by rw [List.length_reverse]; omega), List.getElem?_eq_none (by omega)]
    rfl

theorem lx_isSome (x : StdLogicArray2D) {I J : Nat} (isRow : I < x.rows.length) (isColumn : J < x.columns) :
    (x.lx I J).isSome := by
  have inside : I < x.rows.reverse.length := by rwa [List.length_reverse]
  have width := x.length_row _ (List.mem_reverse.mp (List.getElem_mem inside))
  rw [StdLogicArray2D.lx, List.getElem?_eq_getElem inside, Option.bind_some, Option.isSome_iff_exists]
  exact ⟨_, List.getElem?_eq_getElem (by rw [List.length_reverse, width]; exact isColumn)⟩

theorem ext_lx {x y : StdLogicArray2D} (columns : x.columns = y.columns) (rows : x.rows.length = y.rows.length)
    (same : ∀ I < x.rows.length, ∀ J < x.columns, x.lx I J = y.lx I J) : x = y := by
  refine StdLogicArray2D.ext columns (List.reverse_inj.mp (List.ext_getElem (by simpa using rows) fun I isX isY => ?_))
  have widthX := x.length_row _ (List.mem_reverse.mp (List.getElem_mem isX))
  have widthY := y.length_row _ (List.mem_reverse.mp (List.getElem_mem isY))
  refine List.reverse_inj.mp (List.ext_getElem? fun J => ?_)
  rw [List.length_reverse] at isX isY
  by_cases inside : J < x.columns
  · have entry := same I isX J inside
    rw [StdLogicArray2D.lx, StdLogicArray2D.lx, List.getElem?_eq_getElem (by rwa [List.length_reverse]),
      List.getElem?_eq_getElem (by rwa [List.length_reverse])] at entry
    exact entry
  · rw [List.getElem?_eq_none (by rw [List.length_reverse]; omega),
      List.getElem?_eq_none (by rw [List.length_reverse]; omega)]

/-- Words of a positive size are cut out of the vector, none beyond its end. -/
theorem toStdLogicArray2D_spec (inp : List StdLogic) {wordSize : Nat} (pos : 0 < wordSize) :
    ∃ m, toStdLogicArray2D inp wordSize = some m ∧ m.columns = wordSize ∧ m.rows.length = inp.length / wordSize ∧
      ∀ I < inp.length / wordSize, ∀ J < wordSize, m.lx I J = inp.reverse[I * wordSize + J]? := by
  have reads : ∀ I < inp.length / wordSize, ∃ row, rowOf inp wordSize I = some row := by
    intro I isRow
    apply exists_mapM
    intro J mem
    rw [List.mem_reverse, List.mem_range] at mem
    have whole : (I + 1) * wordSize ≤ inp.length := (Nat.le_div_iff_mul_le pos).mp isRow
    rw [Nat.add_mul, Nat.one_mul] at whole
    rw [List.getElem?_eq_getElem (by rw [List.length_reverse]; omega)]
    rfl
  obtain ⟨rows, isRows⟩ := exists_mapM (f := rowOf inp wordSize) (l := (List.range (inp.length / wordSize)).reverse)
    fun I mem => by
      rw [List.mem_reverse, List.mem_range] at mem
      obtain ⟨row, isRow⟩ := reads I mem
      rw [isRow]
      rfl
  unfold toStdLogicArray2D
  rw [if_neg pos.ne']
  split
  · next none => rw [isRows] at none; cases none
  · next rows' isRows' =>
      refine ⟨_, rfl, rfl, ?_, fun I isRow J isColumn => ?_⟩
      · rw [length_of_mapM isRows', List.length_reverse, List.length_range]
      · obtain ⟨row, found⟩ := reads I isRow
        rw [StdLogicArray2D.lx, getElem?_reverse_mapM isRows', List.getElem?_range isRow, Option.bind_some, found,
          Option.bind_some, getElem?_reverse_mapM found, List.getElem?_range isColumn, Option.bind_some]

end Rows

section Loops
variable {rows columns : Nat}

theorem mem_loops {p : Nat × Nat} : p ∈ loops rows columns ↔ p.1 < rows ∧ p.2 < columns := by
  unfold loops
  simp only [List.mem_flatMap, List.mem_reverse, List.mem_range, List.mem_map]
  constructor
  · rintro ⟨I, isRow, J, isColumn, rfl⟩
    exact ⟨isRow, isColumn⟩
  · rintro ⟨isRow, isColumn⟩
    exact ⟨p.1, isRow, p.2, isColumn, rfl⟩

theorem nodup_loops : (loops rows columns).Nodup := by
  unfold loops
  rw [List.nodup_flatMap]
  refine ⟨fun I _ => ?_, ?_⟩
  · exact (List.nodup_reverse.mpr List.nodup_range).map fun _ _ same => (Prod.mk.inj same).2
  · refine (List.nodup_reverse.mpr List.nodup_range).imp fun ne p mem mem' => ?_
    obtain ⟨_, _, rfl⟩ := List.mem_map.mp mem
    obtain ⟨_, _, same⟩ := List.mem_map.mp mem'
    exact ne (Prod.mk.inj same).1.symm

variable {value : Nat × Nat → Option StdLogic} {place : Nat × Nat → Nat}

/-- Assignments that go through were all in range, and leave what they do not name. -/
theorem foldlM_assign_frame {l : List (Nat × Nat)} {retVar retVar' : List StdLogic}
    (result : l.foldlM (fun retVar p => (value p).bind (assign retVar (place p))) retVar = some retVar') :
    retVar'.length = retVar.length ∧ (∀ p ∈ l, place p < retVar.length) ∧
      ∀ k, (∀ p ∈ l, place p ≠ k) → retVar'[k]? = retVar[k]? := by
  induction l generalizing retVar with
  | nil =>
      obtain rfl := Option.some.inj result
      exact ⟨rfl, fun _ mem => absurd mem List.not_mem_nil, fun _ _ => rfl⟩
  | cons p l ih =>
      rw [List.foldlM_cons] at result
      obtain ⟨middle, first, rest⟩ := Option.bind_eq_some_iff.mp result
      obtain ⟨v, -, assigned⟩ := Option.bind_eq_some_iff.mp first
      unfold assign at assigned
      split at assigned
      · next inside =>
          obtain rfl := Option.some.inj assigned
          obtain ⟨length, inRange, frame⟩ := ih rest
          rw [List.length_set] at length inRange
          refine ⟨length, List.forall_mem_cons.mpr ⟨inside, inRange⟩, fun k other => ?_⟩
          obtain ⟨ne, others⟩ := List.forall_mem_cons.mp other
          rw [frame k others, List.getElem?_set_ne ne]
      · cases assigned

theorem foldlM_assign {l : List (Nat × Nat)} {retVar : List StdLogic} (different : (l.map place).Nodup)
    (inRange : ∀ p ∈ l, place p < retVar.length) (values : ∀ p ∈ l, (value p).isSome) :
    ∃ retVar', l.foldlM (fun retVar p => (value p).bind (assign retVar (place p))) retVar = some retVar' ∧
      ∀ p ∈ l, retVar'[place p]? = value p := by
  induction l generalizing retVar with
  | nil => exact ⟨retVar, rfl, fun _ mem => absurd mem List.not_mem_nil⟩
  | cons p l ih =>
      obtain ⟨inside, inRange⟩ := List.forall_mem_cons.mp inRange
      obtain ⟨isValue, values⟩ := List.forall_mem_cons.mp values
      obtain ⟨v, isV⟩ := Option.isSome_iff_exists.mp isValue
      rw [List.map_cons, List.nodup_cons] at different
      have still : ∀ q ∈ l, place q < (retVar.set (place p) v).length := by rwa [List.length_set]
      obtain ⟨retVar', rest, holds⟩ := ih different.2 still values
      refine ⟨retVar', ?_, List.forall_mem_cons.mpr ⟨?_, holds⟩⟩
      · rw [List.foldlM_cons, isV, Option.bind_some, assign, if_pos inside]
        exact rest
      · have frame := (foldlM_assign_frame rest).2.2 (place p) fun q mem same =>
          different.1 (List.mem_map.mpr ⟨q, mem, same⟩)
        rw [frame, List.getElem?_set_self inside, isV]

end Loops

theorem place_lt {rows columns I J : Nat} (isRow : I < rows) (isColumn : J < columns) :
    I * columns + J < rows * columns := by
  have : (I + 1) * columns ≤ rows * columns := Nat.mul_le_mul_right _ isRow
  rw [Nat.add_mul, Nat.one_mul] at this
  omega

theorem place_inj {columns I J I' J' : Nat} (isColumn : J < columns) (isColumn' : J' < columns)
    (same : I * columns + J = I' * columns + J') : I = I' ∧ J = J' := by
  have pos : 0 < columns := Nat.zero_lt_of_lt isColumn
  have row : ∀ K L, L < columns → (K * columns + L) / columns = K := by
    intro K L below
    rw [Nat.mul_comm, Nat.mul_add_div pos, Nat.div_eq_of_lt below, Nat.add_zero]
  have rows : I = I' := by rw [← row I J isColumn, same, row I' J' isColumn']
  subst rows
  exact ⟨rfl, Nat.add_left_cancel same⟩

/-- Where the number of rows may stand for that of the columns, the words stand one after the other. -/
theorem toSLV_of_stride (m : StdLogicArray2D) (stride : m.rows.length ≤ 1 ∨ m.rows.length = m.columns) :
    ∃ v, toSLV m = some v ∧ v.length = m.rows.length * m.columns ∧
      ∀ I < m.rows.length, ∀ J < m.columns, v.reverse[I * m.columns + J]? = m.lx I J := by
  have place : ∀ p ∈ loops m.rows.length m.columns, p.1 * m.rows.length + p.2 = p.1 * m.columns + p.2 := by
    intro p mem
    obtain ⟨isRow, -⟩ := mem_loops.mp mem
    cases stride with
    | inl one => rw [show p.1 = 0 by omega, Nat.zero_mul, Nat.zero_mul]
    | inr square => rw [square]
  have different : ((loops m.rows.length m.columns).map fun p => p.1 * m.rows.length + p.2).Nodup := by
    refine nodup_loops.map_on fun p mem q mem' same => ?_
    rw [place p mem, place q mem'] at same
    obtain ⟨rows, columns⟩ := place_inj (mem_loops.mp mem).2 (mem_loops.mp mem').2 same
    exact Prod.ext rows columns
  have inRange : ∀ p ∈ loops m.rows.length m.columns,
      p.1 * m.rows.length + p.2 < (List.replicate (m.rows.length * m.columns) StdLogic.U).length := by
    intro p mem
    rw [place p mem, List.length_replicate]
    exact place_lt (mem_loops.mp mem).1 (mem_loops.mp mem).2
  have values : ∀ p ∈ loops m.rows.length m.columns, (m.lx p.1 p.2).isSome := fun p mem =>
    lx_isSome m (mem_loops.mp mem).1 (mem_loops.mp mem).2
  obtain ⟨retVar, result, holds⟩ := foldlM_assign different inRange values
  refine ⟨retVar.reverse, ?_, ?_, fun I isRow J isColumn => ?_⟩
  · rw [toSLV, result, Option.map_some]
  · rw [List.length_reverse, (foldlM_assign_frame result).1, List.length_replicate]
  · have mem : (I, J) ∈ loops m.rows.length m.columns := mem_loops.mpr ⟨isRow, isColumn⟩
    have here := holds (I, J) mem
    rw [place (I, J) mem] at here
    rw [List.reverse_reverse]
    exact here

/-- A result of `To_SLV` has been written at every place that it indexes, and nowhere else. -/
theorem toSLV_written {m : StdLogicArray2D} {v : List StdLogic} (result : toSLV m = some v) :
    (∀ I < m.rows.length, ∀ J < m.columns, I * m.rows.length + J < m.rows.length * m.columns) ∧
      ∀ k < m.rows.length * m.columns, (∀ I < m.rows.length, ∀ J < m.columns, I * m.rows.length + J ≠ k) →
        v.reverse[k]? = some .U := by
  obtain ⟨retVar, loop, rfl⟩ := Option.map_eq_some_iff.mp result
  obtain ⟨-, inRange, frame⟩ := foldlM_assign_frame loop
  rw [List.length_replicate] at inRange
  refine ⟨fun I isRow J isColumn => inRange (I, J) (mem_loops.mpr ⟨isRow, isColumn⟩), fun k inside other => ?_⟩
  rw [List.reverse_reverse, frame k fun p mem => other p.1 (mem_loops.mp mem).1 p.2 (mem_loops.mp mem).2,
    List.getElem?_replicate, if_pos inside]

structure Inverse (rows columns : Nat) : Prop where
  vector : ∀ v : List StdLogic, v.length = rows * columns → (toStdLogicArray2D v columns).bind toSLV = some v
  matrix : ∀ m : StdLogicArray2D, m.rows.length = rows → m.columns = columns →
    (toSLV m).bind (toStdLogicArray2D · columns) = some m

/-- When the last place is in range and is reached, the stride is right or does not matter. -/
theorem stride_of_reached {rows columns : Nat} (pos : 0 < columns)
    (inRange : ∀ I < rows, ∀ J < columns, I * rows + J < rows * columns)
    (reached : ∃ I < rows, ∃ J < columns, I * rows + J = rows * columns - 1) : rows ≤ 1 ∨ rows = columns := by
  by_contra rectangular
  obtain ⟨many, ne⟩ := not_or.mp rectangular
  obtain ⟨r, rfl⟩ : ∃ r, rows = r + 2 := ⟨rows - 2, by omega⟩
  obtain ⟨c, rfl⟩ : ∃ c, columns = c + 1 := ⟨columns - 1, by omega⟩
  have size : (r + 2) * (c + 1) = (r + 1) * (c + 1) + c + 1 := by ring
  have last := inRange (r + 1) (by omega) c (by omega)
  have fits : (r + 1) * (r + 2) ≤ (r + 1) * (c + 1) := by omega
  have short : r + 2 ≤ c + 1 := Nat.le_of_mul_le_mul_left fits (Nat.succ_pos r)
  obtain ⟨I, isRow, J, isColumn, same⟩ := reached
  have low : I * (r + 2) ≤ (r + 1) * (r + 2) := Nat.mul_le_mul_right _ (by omega)
  have less : (r + 1) * (r + 2) < (r + 1) * (c + 1) := Nat.mul_lt_mul_of_pos_left (by omega) (Nat.succ_pos r)
  omega

/-- A vector of ones that comes back has been written up to its last place. -/
theorem stride_of_inverse {rows columns : Nat} (pos : 0 < columns) (inverse : Inverse rows columns) :
    rows ≤ 1 ∨ rows = columns := by
  by_cases none : rows = 0
  · exact .inl (by omega)
  let ones : List StdLogic := List.replicate (rows * columns) .one
  have length : ones.length = rows * columns := List.length_replicate
  obtain ⟨m, isMatrix, width, height, -⟩ := toStdLogicArray2D_spec ones pos
  rw [length, Nat.mul_div_cancel _ pos] at height
  have back := inverse.vector ones length
  rw [isMatrix, Option.bind_some] at back
  obtain ⟨inRange, unwritten⟩ := toSLV_written back
  rw [width, height] at inRange unwritten
  refine stride_of_reached pos inRange ?_
  by_contra missed
  have inside : rows * columns - 1 < rows * columns :=
    Nat.sub_one_lt (Nat.mul_pos (Nat.pos_of_ne_zero none) pos).ne'
  have undefined := unwritten _ inside fun I isRow J isColumn same => missed ⟨I, isRow, J, isColumn, same⟩
  have one : ones.reverse[rows * columns - 1]? = some .one := by
    rw [List.reverse_replicate, List.getElem?_replicate, if_pos inside]
  exact absurd (undefined.symm.trans one) (by simp)

section Stride
variable {rows columns : Nat} (pos : 0 < columns) (stride : rows ≤ 1 ∨ rows = columns)
include pos stride

theorem vector_back (v : List StdLogic) (length : v.length = rows * columns) :
    (toStdLogicArray2D v columns).bind toSLV = some v := by
  obtain ⟨m, isMatrix, width, height, cut⟩ := toStdLogicArray2D_spec v pos
  rw [length, Nat.mul_div_cancel _ pos] at height cut
  obtain ⟨w, isVector, length', joined⟩ := toSLV_of_stride m (by rwa [height, width])
  rw [isMatrix, Option.bind_some, isVector]
  refine congrArg some (List.reverse_inj.mp (List.ext_getElem? fun k => ?_))
  by_cases inside : k < rows * columns
  · have isRow : k / columns < rows := (Nat.div_lt_iff_lt_mul pos).mpr inside
    have isColumn := Nat.mod_lt k pos
    have position : k / columns * columns + k % columns = k := by rw [Nat.mul_comm]; exact Nat.div_add_mod k columns
    have entry := joined (k / columns) (by rwa [height]) (k % columns) (by rwa [width])
    rwa [width, cut _ isRow _ isColumn, position] at entry
  · rw [List.getElem?_eq_none (by rw [List.length_reverse, length', height, width]; omega),
      List.getElem?_eq_none (by rw [List.length_reverse]; omega)]

theorem matrix_back (m : StdLogicArray2D) (height : m.rows.length = rows) (width : m.columns = columns) :
    (toSLV m).bind (toStdLogicArray2D · columns) = some m := by
  obtain ⟨v, isVector, length, joined⟩ := toSLV_of_stride m (by rwa [height, width])
  obtain ⟨m', isMatrix, width', height', cut⟩ := toStdLogicArray2D_spec v pos
  rw [height, width] at length joined
  rw [length, Nat.mul_div_cancel _ pos] at height' cut
  rw [isVector, Option.bind_some, isMatrix]
  refine congrArg some (ext_lx (width'.trans width.symm) (height'.trans height.symm) fun I isRow J isColumn => ?_)
  rw [height'] at isRow
  rw [width'] at isColumn
  rw [cut I isRow J isColumn, joined I isRow J isColumn]

end Stride

/-- The rows are laid out with the stride of the columns, so only square matrices and single rows come back. -/
theorem inverse_iff (rows columns : Nat) :
    Inverse rows columns ↔ 0 < columns ∧ (rows ≤ 1 ∨ rows = columns) := by
  constructor
  · intro inverse
    have pos : 0 < columns := by
      by_contra zero
      obtain rfl : columns = 0 := by omega
      exact absurd (inverse.vector [] rfl) (by simp [toStdLogicArray2D])
    exact ⟨pos, stride_of_inverse pos inverse⟩
  · rintro ⟨pos, stride⟩
    exact ⟨vector_back pos stride, matrix_back pos stride⟩

/-- Two rows of three bits come back with a bit lost, and three rows of two bits run out of range. -/
theorem not_inverse :
    (toStdLogicArray2D [.one, .one, .one, .one, .one, .one] 3).bind toSLV = some [.U, .one, .one, .one, .one, .one] ∧
      (toStdLogicArray2D [.one, .one, .one, .one, .one, .one] 2).bind toSLV = none ∧ ¬ Inverse 2 3 := by
  have lost : (toStdLogicArray2D [.one, .one, .one, .one, .one, .one] 3).bind toSLV =
      some [.U, .one, .one, .one, .one, .one] := by decide +kernel
  refine ⟨lost, by decide +kernel, fun inverse => ?_⟩
  have kept := inverse.vector [.one, .one, .one, .one, .one, .one] rfl
  rw [lost] at kept
  exact absurd kept (by decide)

end Ahir.Hardware.Matrix
