import Ahir.Data.Bits
import Ahir.Hardware.QueueBase
import Ahir.Run.Pipeline

/-!
# The array multiplier

A square of cells multiplies chunks, one row of it in each cycle, and a row of adders
brings together what the last row leaves.
-/

set_option autoImplicit false

namespace Ahir.Hardware.UnsignedMultiplier
open Ahir.Data Ahir.Run
variable {n c t : Nat}

/-- The outputs `SD` and `DiagOut`. -/
structure Cell (c : Nat) where
  sd : BitVec c
  diagOut : BitVec c

def multiplierCell (mt mr st diagIn : BitVec c) : Cell c :=
  let w := diagIn.setWidth (c + 1) + st.setWidth (c + 1)
  let tmp := mt.setWidth (2 * c) * mr.setWidth (2 * c) + w.setWidth (2 * c)
  ⟨tmp.extractLsb' c c, tmp.setWidth c⟩

/-- The outputs `SDiagOut` and `SL`. -/
structure Adder (c : Nat) where
  sDiagOut : BitVec c
  sl : BitVec 2

def sumCell (ignoreDiag ignoreRight : Bool) (su sDiagIn : BitVec c) (sr : BitVec 2) : Adder c :=
  let x := su.setWidth (c + 2)
  let y := sr.setWidth (c + 2)
  let z := sDiagIn.setWidth (c + 2)
  let sum :=
    if !(ignoreDiag || ignoreRight) then x + y + z
    else if ignoreDiag && ignoreRight then x
    else if ignoreDiag && !ignoreRight then x + y
    else x + z
  ⟨sum.setWidth c, sum.extractLsb' c 2⟩

/-- The product of two digits and two more digits fit into two digits. -/
theorem multiplierCell_spec (pos : 0 < c) (mt mr st diagIn : BitVec c) :
    2 ^ c * (multiplierCell mt mr st diagIn).sd.toNat + (multiplierCell mt mr st diagIn).diagOut.toNat =
      mt.toNat * mr.toNat + diagIn.toNat + st.toNat := by
  have double : 2 ^ (2 * c) = 2 ^ c * 2 ^ c := by rw [Nat.two_mul, Nat.pow_add]
  have next : 2 ^ (c + 1) = 2 * 2 ^ c := Nat.pow_succ'
  have two : 2 ≤ 2 ^ c := Nat.le_self_pow pos.ne' 2
  have fits : mt.toNat * mr.toNat + (diagIn.toNat + st.toNat) < 2 ^ c * 2 ^ c := by
    have product : mt.toNat * mr.toNat ≤ (2 ^ c - 1) * (2 ^ c - 1) :=
      Nat.mul_le_mul (Nat.le_sub_one_of_lt mt.isLt) (Nat.le_sub_one_of_lt mr.isLt)
    have square : (2 ^ c - 1) * (2 ^ c - 1) + 2 * (2 ^ c - 1) + 1 = 2 ^ c * 2 ^ c := by
      obtain ⟨b, eq⟩ : ∃ b, 2 ^ c = b + 1 := ⟨2 ^ c - 1, by omega⟩
      rw [eq, Nat.add_sub_cancel]
      ring
    have := mt.isLt
    have := diagIn.isLt
    have := st.isLt
    omega
  have summands : (diagIn.setWidth (c + 1) + st.setWidth (c + 1)).toNat = diagIn.toNat + st.toNat := by
    have := diagIn.isLt
    have := st.isLt
    rw [BitVec.toNat_add, BitVec.toNat_setWidth, BitVec.toNat_setWidth, next, Nat.mod_eq_of_lt (a := diagIn.toNat) (by omega),
      Nat.mod_eq_of_lt (a := st.toNat) (by omega), Nat.mod_eq_of_lt (by omega)]
  have small (x : Nat) (below : x < 2 ^ c) : x < 2 ^ c * 2 ^ c := by nlinarith
  have total : (mt.setWidth (2 * c) * mr.setWidth (2 * c) +
      (diagIn.setWidth (c + 1) + st.setWidth (c + 1)).setWidth (2 * c)).toNat =
      mt.toNat * mr.toNat + (diagIn.toNat + st.toNat) := by
    rw [BitVec.toNat_add, BitVec.toNat_mul, BitVec.toNat_setWidth _ mt, BitVec.toNat_setWidth _ mr, BitVec.toNat_setWidth,
      summands, double, Nat.mod_eq_of_lt (small _ mt.isLt), Nat.mod_eq_of_lt (small _ mr.isLt), ← Nat.add_mod,
      Nat.mod_eq_of_lt fits]
  unfold multiplierCell
  dsimp only
  rw [BitVec.extractLsb'_toNat, BitVec.toNat_setWidth, total, Nat.shiftRight_eq_div_pow,
    Nat.mod_eq_of_lt ((Nat.div_lt_iff_lt_mul (Nat.two_pow_pos c)).mpr fits), Nat.div_add_mod, Nat.add_assoc]

theorem sumCell_spec {ignoreDiag ignoreRight : Bool} {su sDiagIn : BitVec c} {sr : BitVec 2}
    (diag : ignoreDiag = true → sDiagIn = 0#c) (right : ignoreRight = true → sr = 0#2) :
    2 ^ c * (sumCell ignoreDiag ignoreRight su sDiagIn sr).sl.toNat +
        (sumCell ignoreDiag ignoreRight su sDiagIn sr).sDiagOut.toNat =
      su.toNat + sDiagIn.toNat + sr.toNat := by
  have four : 2 ^ (c + 2) = 4 * 2 ^ c := by rw [Nat.pow_add, Nat.mul_comm]
  have one : 1 ≤ 2 ^ c := Nat.one_le_two_pow
  have lessU := su.isLt
  have lessD := sDiagIn.isLt
  have lessR : sr.toNat < 4 := sr.isLt
  have x : (su.setWidth (c + 2)).toNat = su.toNat := by rw [BitVec.toNat_setWidth, Nat.mod_eq_of_lt (by omega)]
  have y : (sr.setWidth (c + 2)).toNat = sr.toNat := by rw [BitVec.toNat_setWidth, Nat.mod_eq_of_lt (by omega)]
  have z : (sDiagIn.setWidth (c + 2)).toNat = sDiagIn.toNat := by rw [BitVec.toNat_setWidth, Nat.mod_eq_of_lt (by omega)]
  -- every variant of the sum is the sum of all three
  have ofTotal (sum : BitVec (c + 2)) (total : sum.toNat = su.toNat + sDiagIn.toNat + sr.toNat) :
      2 ^ c * (sum.extractLsb' c 2).toNat + (sum.setWidth c).toNat = su.toNat + sDiagIn.toNat + sr.toNat := by
    have carry : sum.toNat / 2 ^ c < 2 ^ 2 := (Nat.div_lt_iff_lt_mul (Nat.two_pow_pos c)).mpr (by omega)
    rw [BitVec.extractLsb'_toNat, BitVec.toNat_setWidth, Nat.shiftRight_eq_div_pow, Nat.mod_eq_of_lt carry,
      Nat.div_add_mod, total]
  unfold sumCell
  dsimp only
  cases ignoreDiag with
  | false =>
      cases ignoreRight with
      | false =>
          refine ofTotal _ ?_
          rw [if_pos (by decide), BitVec.toNat_add, BitVec.toNat_add, x, y, z,
            Nat.mod_eq_of_lt (a := su.toNat + sr.toNat) (by omega), Nat.mod_eq_of_lt (by omega)]
          omega
      | true =>
          have noCarry : sr.toNat = 0 := by rw [right rfl]; rfl
          refine ofTotal _ ?_
          rw [if_neg (by decide), if_neg (by decide), if_neg (by decide), BitVec.toNat_add, x, z,
            Nat.mod_eq_of_lt (by omega)]
          omega
  | true =>
      have noDiag : sDiagIn.toNat = 0 := by rw [diag rfl]; exact BitVec.toNat_zero
      cases ignoreRight with
      | false =>
          refine ofTotal _ ?_
          rw [if_neg (by decide), if_neg (by decide), if_pos (by decide), BitVec.toNat_add, x, y,
            Nat.mod_eq_of_lt (by omega)]
          omega
      | true =>
          have noCarry : sr.toNat = 0 := by rw [right rfl]; rfl
          refine ofTotal _ ?_
          rw [if_neg (by decide), if_pos (by decide), x]
          omega

structure Input (n t : Nat) where
  slvL : BitVec n
  slvR : BitVec n
  inRdy : Bool
  tagIn : BitVec t

namespace Input

/-- Chunk `k` of the padded operand. -/
def lChunk (c : Nat) (i : Input n t) (k : Nat) : BitVec c := (i.slvL.setWidth (ceil n c * c)).extractLsb' (k * c) c
def rChunk (c : Nat) (i : Input n t) (k : Nat) : BitVec c := (i.slvR.setWidth (ceil n c * c)).extractLsb' (k * c) c

end Input

/-- The registers, by row and column of the cells. Those of delay lines and of the tags are
numbered from zero. Rows and columns from `NumChunks` on do not exist: nothing reads them. -/
structure State (c t : Nat) where
  rDelay : Nat → Nat → BitVec c
  md : Nat → Nat → BitVec c
  cells : Nat → Nat → Cell c
  suDelay : Nat → Nat → BitVec c
  sDiagDelay : Nat → Nat → BitVec c
  adders : Nat → Adder c
  rightColumn : Nat → Nat → BitVec c
  bottomRow : Nat → Nat → BitVec c
  tagArray : Nat → BitVec t
  rdyArray : Nat → Bool

section Signals
variable (numChunks : Nat) (s : State c t) (i : Input n t)

/-- `MR`, which passes through the cells of a row without delay (`ML`). -/
def mr (row : Nat) : Nat → BitVec c
  | 0 => delayed (i.rChunk c row) (s.rDelay row) row
  | col + 1 => mr row col

def mt (row col : Nat) : BitVec c :=
  match row with
  | 0 => i.lChunk c col
  | above + 1 => s.md above col

def st (row col : Nat) : BitVec c :=
  match row with
  | 0 => 0#c
  | above + 1 => (s.cells above col).sd

def diagIn (row col : Nat) : BitVec c :=
  match row with
  | 0 => 0#c
  | above + 1 => if col = numChunks - 1 then 0#c else (s.cells above (col + 1)).diagOut

def su (col : Nat) : BitVec c := delayed (s.cells (numChunks - 1) col).sd (s.suDelay col) col

def sDiagIn (col : Nat) : BitVec c :=
  if col = numChunks - 1 then 0#c
  else delayed (s.cells (numChunks - 1) (col + 1)).diagOut (s.sDiagDelay col) col

def sr : Nat → BitVec 2
  | 0 => 0#2
  | right + 1 => (s.adders right).sl

def resultArray (k : Nat) : BitVec c :=
  if k < numChunks then delayed (s.cells k 0).diagOut (s.rightColumn k) (2 * numChunks - 1 - k)
  else if k = 2 * numChunks - 1 then (s.adders (numChunks - 1)).sDiagOut
  else delayed (s.adders (k - numChunks)).sDiagOut (s.bottomRow (k - numChunks)) (numChunks - (k - numChunks + 1))

theorem mr_eq (row col : Nat) : mr s i row col = delayed (i.rChunk c row) (s.rDelay row) row := by
  induction col with
  | zero => rfl
  | succ col ih => exact ih

end Signals

/-- A clock cycle that is not stalled and without reset. -/
def step (s : State c t) (i : Input n t) : State c t where
  rDelay row := delayed (i.rChunk c row) (s.rDelay row)
  md row col := mt s i row col
  cells row col := multiplierCell (mt s i row col) (mr s i row col) (st s row col) (diagIn (ceil n c) s row col)
  suDelay col := delayed (s.cells (ceil n c - 1) col).sd (s.suDelay col)
  sDiagDelay col := delayed (s.cells (ceil n c - 1) (col + 1)).diagOut (s.sDiagDelay col)
  adders col := sumCell (decide (col = ceil n c - 1)) (decide (col = 0)) (su (ceil n c) s col)
    (sDiagIn (ceil n c) s col) (sr s col)
  rightColumn row := delayed (s.cells row 0).diagOut (s.rightColumn row)
  bottomRow col := delayed (s.adders col).sDiagOut (s.bottomRow col)
  tagArray := delayed i.tagIn s.tagArray
  rdyArray := delayed i.inRdy s.rdyArray

def result (n : Nat) (s : State c t) : BitVec (2 * n) :=
  (lowBits (2 * ceil n c * c) fun k => (resultArray (ceil n c) s (k / c)).getLsbD (k % c)).setWidth (2 * n)

section Operation
variable (c) (i : Input n t)

def cellOf : Nat → Nat → Cell c
  | 0, col => multiplierCell (i.lChunk c col) (i.rChunk c 0) 0#c 0#c
  | row + 1, col => multiplierCell (i.lChunk c col) (i.rChunk c (row + 1)) (cellOf row col).sd
      (if col = ceil n c - 1 then 0#c else (cellOf row (col + 1)).diagOut)

def diagOf (col : Nat) : BitVec c := if col = ceil n c - 1 then 0#c else (cellOf c i (ceil n c - 1) (col + 1)).diagOut

def adderOf : Nat → Adder c
  | 0 => sumCell (decide (0 = ceil n c - 1)) true (cellOf c i (ceil n c - 1) 0).sd (diagOf c i 0) 0#2
  | col + 1 => sumCell (decide (col + 1 = ceil n c - 1)) false (cellOf c i (ceil n c - 1) (col + 1)).sd
      (diagOf c i (col + 1)) (adderOf col).sl

/-- Where an operation is when it has entered `k` cycles ago. -/
structure At (k : Nat) (s : State c t) : Prop where
  rDelay : ∀ row j, j + 1 = k → s.rDelay row j = i.rChunk c row
  md : ∀ row col, row + 1 = k → s.md row col = i.lChunk c col
  cells : ∀ row col, row + 1 = k → s.cells row col = cellOf c i row col
  suDelay : ∀ col j, ceil n c + j + 1 = k → s.suDelay col j = (cellOf c i (ceil n c - 1) col).sd
  sDiagDelay : ∀ col j, ceil n c + j + 1 = k → s.sDiagDelay col j = (cellOf c i (ceil n c - 1) (col + 1)).diagOut
  adders : ∀ col, ceil n c + col + 1 = k → s.adders col = adderOf c i col
  rightColumn : ∀ row j, row + j + 2 = k → s.rightColumn row j = (cellOf c i row 0).diagOut
  bottomRow : ∀ col j, ceil n c + col + j + 2 = k → s.bottomRow col j = (adderOf c i col).sDiagOut
  tagArray : ∀ j, j + 1 = k → s.tagArray j = i.tagIn
  rdyArray : ∀ j, j + 1 = k → s.rdyArray j = i.inRdy

theorem at_enters (chunks : 0 < ceil n c) (s : State c t) : At c i 1 (step s i) where
  rDelay row j age := by
    obtain rfl : j = 0 := by omega
    rfl
  md row col age := by
    obtain rfl : row = 0 := by omega
    rfl
  cells row col age := by
    obtain rfl : row = 0 := by omega
    show multiplierCell (i.lChunk c col) (mr s i 0 col) 0#c 0#c = _
    rw [mr_eq]
    rfl
  suDelay col j age := by omega
  sDiagDelay col j age := by omega
  adders col age := by omega
  rightColumn row j age := by omega
  bottomRow col j age := by omega
  tagArray j age := by
    obtain rfl : j = 0 := by omega
    rfl
  rdyArray j age := by
    obtain rfl : j = 0 := by omega
    rfl

theorem at_goes (k : Nat) (s : State c t) (later : Input n t) (pos : 0 < k) (at_ : At c i k s) :
    At c i (k + 1) (step s later) where
  rDelay row j age := by
    obtain ⟨j, rfl⟩ := Nat.exists_eq_succ_of_ne_zero (show j ≠ 0 by omega)
    exact at_.rDelay row j (by omega)
  md row col age := by
    obtain ⟨row, rfl⟩ := Nat.exists_eq_succ_of_ne_zero (show row ≠ 0 by omega)
    exact at_.md row col (by omega)
  cells row col age := by
    obtain ⟨row, rfl⟩ := Nat.exists_eq_succ_of_ne_zero (show row ≠ 0 by omega)
    have right : mr s later (row + 1) col = i.rChunk c (row + 1) :=
      (mr_eq s later (row + 1) col).trans (at_.rDelay (row + 1) row (by omega))
    show multiplierCell (s.md row col) (mr s later (row + 1) col) (s.cells row col).sd
      (if col = ceil n c - 1 then 0#c else (s.cells row (col + 1)).diagOut) = _
    rw [right, at_.md row col (by omega), at_.cells row col (by omega), at_.cells row (col + 1) (by omega)]
    rfl
  suDelay col j age := by
    cases j with
    | zero => exact congrArg Cell.sd (at_.cells _ col (by omega))
    | succ j => exact at_.suDelay col j (by omega)
  sDiagDelay col j age := by
    cases j with
    | zero => exact congrArg Cell.diagOut (at_.cells _ (col + 1) (by omega))
    | succ j => exact at_.sDiagDelay col j (by omega)
  adders col age := by
    have sum : su (ceil n c) s col = (cellOf c i (ceil n c - 1) col).sd := by
      cases col with
      | zero => exact congrArg Cell.sd (at_.cells _ 0 (by omega))
      | succ col => exact at_.suDelay (col + 1) col (by omega)
    have diag : sDiagIn (ceil n c) s col = diagOf c i col := by
      unfold sDiagIn diagOf
      by_cases left : col = ceil n c - 1
      · rw [if_pos left, if_pos left]
      · rw [if_neg left, if_neg left]
        cases col with
        | zero => exact congrArg Cell.diagOut (at_.cells _ 1 (by omega))
        | succ col => exact at_.sDiagDelay (col + 1) col (by omega)
    show sumCell _ _ (su (ceil n c) s col) (sDiagIn (ceil n c) s col) (sr s col) = _
    rw [sum, diag]
    cases col with
    | zero => rfl
    | succ col =>
        rw [show sr s (col + 1) = (adderOf c i col).sl from congrArg Adder.sl (at_.adders col (by omega))]
        rfl
  rightColumn row j age := by
    cases j with
    | zero => exact congrArg Cell.diagOut (at_.cells row 0 (by omega))
    | succ j => exact at_.rightColumn row j (by omega)
  bottomRow col j age := by
    cases j with
    | zero => exact congrArg Adder.sDiagOut (at_.adders col (by omega))
    | succ j => exact at_.bottomRow col j (by omega)
  tagArray j age := by
    obtain ⟨j, rfl⟩ := Nat.exists_eq_succ_of_ne_zero (show j ≠ 0 by omega)
    exact at_.tagArray j (by omega)
  rdyArray j age := by
    obtain ⟨j, rfl⟩ := Nat.exists_eq_succ_of_ne_zero (show j ≠ 0 by omega)
    exact at_.rdyArray j (by omega)

theorem resultArray_eq {s : State c t} (at_ : At c i (2 * ceil n c) s) {k : Nat} (below : k < 2 * ceil n c) :
    resultArray (ceil n c) s k =
      if k < ceil n c then (cellOf c i k 0).diagOut else (adderOf c i (k - ceil n c)).sDiagOut := by
  unfold resultArray
  by_cases low : k < ceil n c
  · rw [if_pos low, if_pos low, show 2 * ceil n c - 1 - k = 2 * ceil n c - 2 - k + 1 by omega]
    exact at_.rightColumn k (2 * ceil n c - 2 - k) (by omega)
  · rw [if_neg low, if_neg low]
    by_cases last : k = 2 * ceil n c - 1
    · rw [if_pos last, show k - ceil n c = ceil n c - 1 by omega]
      exact congrArg Adder.sDiagOut (at_.adders (ceil n c - 1) (by omega))
    · rw [if_neg last, show ceil n c - (k - ceil n c + 1) = ceil n c - (k - ceil n c + 2) + 1 by omega]
      exact at_.bottomRow (k - ceil n c) (ceil n c - (k - ceil n c + 2)) (by omega)

def passed (row col : Nat) : Nat :=
  (cellOf c i row col).sd.toNat + (if col = ceil n c - 1 then 0#c else (cellOf c i row (col + 1)).diagOut).toNat

def rowSum (row : Nat) : Nat := ∑ col ∈ Finset.range (ceil n c), passed c i row col * (2 ^ c) ^ col

theorem sum_diagonal {chunks : Nat} (pos : 0 < chunks) (b : Nat) (digits : Nat → BitVec c) :
    ∑ col ∈ Finset.range chunks, (digits col).toNat * b ^ col =
      (digits 0).toNat +
        b * ∑ col ∈ Finset.range chunks, (if col = chunks - 1 then 0#c else digits (col + 1)).toNat * b ^ col := by
  obtain ⟨m, rfl⟩ := Nat.exists_eq_succ_of_ne_zero pos.ne'
  have kept : ∑ col ∈ Finset.range m, (if col = m then 0#c else digits (col + 1)).toNat * b ^ col =
      ∑ col ∈ Finset.range m, (digits (col + 1)).toNat * b ^ col := by
    refine Finset.sum_congr rfl fun col mem => ?_
    rw [if_neg (Finset.mem_range.mp mem).ne]
  rw [Nat.succ_eq_add_one, Nat.add_sub_cancel, Finset.sum_range_succ', Finset.sum_range_succ, kept, if_pos rfl,
    BitVec.toNat_zero, Nat.zero_mul, Nat.add_zero, Nat.pow_zero, Nat.mul_one, Nat.add_comm, Finset.mul_sum]
  refine congrArg (_ + ·) (Finset.sum_congr rfl fun col _ => ?_)
  rw [Nat.pow_succ]
  ring

theorem l_digits (pos : 0 < c) : ∑ col ∈ Finset.range (ceil n c), (i.lChunk c col).toNat * (2 ^ c) ^ col = i.slvL.toNat := by
  refine (toNat_eq_digits pos (i.slvL.setWidth (ceil n c * c))).symm.trans ?_
  rw [BitVec.toNat_setWidth, Nat.mod_eq_of_lt (i.slvL.isLt.trans_le (Nat.pow_le_pow_right two_pos (le_ceil_mul n pos)))]

theorem r_digits (pos : 0 < c) : ∑ row ∈ Finset.range (ceil n c), (i.rChunk c row).toNat * (2 ^ c) ^ row = i.slvR.toNat := by
  refine (toNat_eq_digits pos (i.slvR.setWidth (ceil n c * c))).symm.trans ?_
  rw [BitVec.toNat_setWidth, Nat.mod_eq_of_lt (i.slvR.isLt.trans_le (Nat.pow_le_pow_right two_pos (le_ceil_mul n pos)))]

/-- A row of cells that receives `above` adds its part of the product. -/
theorem row_sum (pos : 0 < c) (chunks : 0 < ceil n c) (row : Nat) (above : Nat → Nat)
    (cell : ∀ col, 2 ^ c * (cellOf c i row col).sd.toNat + (cellOf c i row col).diagOut.toNat =
      (i.lChunk c col).toNat * (i.rChunk c row).toNat + above col) :
    (cellOf c i row 0).diagOut.toNat + 2 ^ c * rowSum c i row =
      i.slvL.toNat * (i.rChunk c row).toNat + ∑ col ∈ Finset.range (ceil n c), above col * (2 ^ c) ^ col := by
  have split : 2 ^ c * rowSum c i row =
      2 ^ c * (∑ col ∈ Finset.range (ceil n c), (cellOf c i row col).sd.toNat * (2 ^ c) ^ col) +
      2 ^ c * ∑ col ∈ Finset.range (ceil n c),
        (if col = ceil n c - 1 then 0#c else (cellOf c i row (col + 1)).diagOut).toNat * (2 ^ c) ^ col := by
    rw [← Nat.mul_add, ← Finset.sum_add_distrib]
    refine congrArg _ (Finset.sum_congr rfl fun col _ => Nat.add_mul _ _ _)
  have diagonal := sum_diagonal c chunks (2 ^ c) fun col => (cellOf c i row col).diagOut
  calc (cellOf c i row 0).diagOut.toNat + 2 ^ c * rowSum c i row
      = 2 ^ c * (∑ col ∈ Finset.range (ceil n c), (cellOf c i row col).sd.toNat * (2 ^ c) ^ col) +
        ∑ col ∈ Finset.range (ceil n c), (cellOf c i row col).diagOut.toNat * (2 ^ c) ^ col := by
          rw [split, diagonal]
          omega
    _ = ∑ col ∈ Finset.range (ceil n c), ((i.lChunk c col).toNat * (i.rChunk c row).toNat + above col) * (2 ^ c) ^ col := by
          rw [Finset.mul_sum, ← Finset.sum_add_distrib]
          refine Finset.sum_congr rfl fun col _ => ?_
          rw [← cell col]
          ring
    _ = _ := by
          rw [← l_digits c i pos, Finset.sum_mul, ← Finset.sum_add_distrib]
          refine Finset.sum_congr rfl fun col _ => ?_
          ring

/-- The rows so far have multiplied by the chunks that they have received. -/
theorem rows_sum (pos : 0 < c) (chunks : 0 < ceil n c) (row : Nat) :
    ∑ k ∈ Finset.range (row + 1), (cellOf c i k 0).diagOut.toNat * (2 ^ c) ^ k + (2 ^ c) ^ (row + 1) * rowSum c i row =
      i.slvL.toNat * ∑ k ∈ Finset.range (row + 1), (i.rChunk c k).toNat * (2 ^ c) ^ k := by
  induction row with
  | zero =>
      have first := row_sum c i pos chunks 0 (fun _ => 0) fun col => by
        rw [cellOf, multiplierCell_spec pos, BitVec.toNat_zero, Nat.add_zero]
      simp only [Nat.zero_mul, Finset.sum_const_zero, Nat.add_zero] at first
      rw [Finset.sum_range_one, Finset.sum_range_one, Nat.pow_zero, Nat.mul_one, Nat.mul_one, Nat.zero_add, Nat.pow_one, first]
  | succ row ih =>
      have next := row_sum c i pos chunks (row + 1) (passed c i row) fun col => by
        rw [cellOf, multiplierCell_spec pos]
        unfold passed
        omega
      have scaled := congrArg ((2 ^ c) ^ (row + 1) * ·) next
      rw [← show rowSum c i row = ∑ col ∈ Finset.range (ceil n c), passed c i row col * (2 ^ c) ^ col from rfl] at scaled
      rw [Finset.sum_range_succ, Finset.sum_range_succ _ (row + 1), Nat.mul_add, ← ih]
      rw [Nat.pow_succ (2 ^ c) (row + 1)]
      linarith

theorem adders_sum (col : Nat) :
    ∑ k ∈ Finset.range (col + 1), (adderOf c i k).sDiagOut.toNat * (2 ^ c) ^ k +
        (2 ^ c) ^ (col + 1) * (adderOf c i col).sl.toNat =
      ∑ k ∈ Finset.range (col + 1), passed c i (ceil n c - 1) k * (2 ^ c) ^ k := by
  have diag (k : Nat) : decide (k = ceil n c - 1) = true → diagOf c i k = 0#c := fun last => if_pos (of_decide_eq_true last)
  induction col with
  | zero =>
      have first := @sumCell_spec c _ true (cellOf c i (ceil n c - 1) 0).sd _ 0#2 (diag 0) fun _ => rfl
      rw [Finset.sum_range_one, Finset.sum_range_one, Nat.pow_zero, Nat.mul_one, Nat.mul_one, Nat.zero_add, Nat.pow_one]
      exact (Nat.add_comm _ _).trans first
  | succ col ih =>
      have next : 2 ^ c * (adderOf c i (col + 1)).sl.toNat + (adderOf c i (col + 1)).sDiagOut.toNat =
          passed c i (ceil n c - 1) (col + 1) + (adderOf c i col).sl.toNat :=
        sumCell_spec (diag (col + 1)) fun absurd => Bool.noConfusion absurd
      have scaled := congrArg ((2 ^ c) ^ (col + 1) * ·) next
      rw [Finset.sum_range_succ, Finset.sum_range_succ _ (col + 1), ← ih, Nat.pow_succ (2 ^ c) (col + 1)]
      linarith

theorem digits_eq (pos : 0 < c) (chunks : 0 < ceil n c) :
    ∑ k ∈ Finset.range (2 * ceil n c),
        (if k < ceil n c then (cellOf c i k 0).diagOut else (adderOf c i (k - ceil n c)).sDiagOut).toNat * (2 ^ c) ^ k =
      i.slvL.toNat * i.slvR.toNat := by
  have rows := rows_sum c i pos chunks (ceil n c - 1)
  have adders := adders_sum c i (ceil n c - 1)
  rw [Nat.sub_add_cancel chunks] at rows adders
  rw [r_digits c i pos] at rows
  have halves : ∑ k ∈ Finset.range (2 * ceil n c),
        (if k < ceil n c then (cellOf c i k 0).diagOut else (adderOf c i (k - ceil n c)).sDiagOut).toNat * (2 ^ c) ^ k =
      ∑ k ∈ Finset.range (ceil n c), (cellOf c i k 0).diagOut.toNat * (2 ^ c) ^ k +
        (2 ^ c) ^ ceil n c * ∑ k ∈ Finset.range (ceil n c), (adderOf c i k).sDiagOut.toNat * (2 ^ c) ^ k := by
    rw [Nat.two_mul, Finset.sum_range_add, Finset.mul_sum]
    refine congrArg₂ (· + ·) (Finset.sum_congr rfl fun k mem => ?_) (Finset.sum_congr rfl fun k _ => ?_)
    · rw [if_pos (Finset.mem_range.mp mem)]
    · rw [if_neg (by omega), Nat.add_sub_cancel_left, Nat.pow_add]
      ring
  have total : i.slvL.toNat * i.slvR.toNat =
      (∑ k ∈ Finset.range (ceil n c), (cellOf c i k 0).diagOut.toNat * (2 ^ c) ^ k +
        (2 ^ c) ^ ceil n c * ∑ k ∈ Finset.range (ceil n c), (adderOf c i k).sDiagOut.toNat * (2 ^ c) ^ k) +
      (2 ^ c) ^ ceil n c * (2 ^ c) ^ ceil n c * (adderOf c i (ceil n c - 1)).sl.toNat := by
    rw [← rows, show rowSum c i (ceil n c - 1) = _ from adders.symm]
    ring
  -- the last adder has nothing to pass on
  have bound : (2 : Nat) ^ n ≤ (2 ^ c) ^ ceil n c := by
    rw [← Nat.pow_mul, Nat.mul_comm]
    exact Nat.pow_le_pow_right two_pos (le_ceil_mul n pos)
  have less : i.slvL.toNat * i.slvR.toNat < (2 ^ c) ^ ceil n c * (2 ^ c) ^ ceil n c :=
    Nat.mul_lt_mul'' (i.slvL.isLt.trans_le bound) (i.slvR.isLt.trans_le bound)
  have noCarry : (adderOf c i (ceil n c - 1)).sl.toNat = 0 := by
    by_contra carry
    have one : (2 ^ c) ^ ceil n c * (2 ^ c) ^ ceil n c ≤
        (2 ^ c) ^ ceil n c * (2 ^ c) ^ ceil n c * (adderOf c i (ceil n c - 1)).sl.toNat :=
      Nat.le_mul_of_pos_right _ (Nat.pos_of_ne_zero carry)
    omega
  rw [halves, total, noCarry, Nat.mul_zero, Nat.add_zero]

theorem result_eq (pos : 0 < c) (chunks : 0 < ceil n c) {s : State c t} (at_ : At c i (2 * ceil n c) s) :
    (result n s).toNat = i.slvL.toNat * i.slvR.toNat := by
  have less : i.slvL.toNat * i.slvR.toNat < 2 ^ (2 * n) := by
    rw [Nat.two_mul, Nat.pow_add]
    exact Nat.mul_lt_mul'' i.slvL.isLt i.slvR.isLt
  have digits : ∑ k ∈ Finset.range (2 * ceil n c), (resultArray (ceil n c) s k).toNat * (2 ^ c) ^ k =
      i.slvL.toNat * i.slvR.toNat := by
    rw [← digits_eq c i pos chunks]
    refine Finset.sum_congr rfl fun k mem => ?_
    rw [resultArray_eq c i at_ (Finset.mem_range.mp mem)]
  unfold result
  rw [BitVec.toNat_setWidth, toNat_lowBits_digits pos, digits, Nat.mod_eq_of_lt less]

end Operation

theorem cells_exact (pos : 0 < c) (s : State c t) (i : Input n t) (row col : Nat) :
    2 ^ c * ((step s i).cells row col).sd.toNat + ((step s i).cells row col).diagOut.toNat =
      (mt s i row col).toNat * (mr s i row col).toNat + (diagIn (ceil n c) s row col).toNat + (st s row col).toNat :=
  multiplierCell_spec pos _ _ _ _

theorem adders_exact (s : State c t) (i : Input n t) (col : Nat) :
    2 ^ c * ((step s i).adders col).sl.toNat + ((step s i).adders col).sDiagOut.toNat =
      (su (ceil n c) s col).toNat + (sDiagIn (ceil n c) s col).toNat + (sr s col).toNat := by
  refine sumCell_spec (fun last => if_pos (of_decide_eq_true last)) fun first => ?_
  obtain rfl : col = 0 := of_decide_eq_true first
  rfl

/-- In every run, with every stall, the product of an operation comes out with its tag and
its ready flag when twice as many cycles as there are chunks have not been stalled. -/
theorem result_product (pos : 0 < c) (width : 0 < n) (s : State c t) (before after : List (Bool × Input n t))
    (i : Input n t) (cycles : (entered after).length + 1 = 2 * ceil n c) {s' : State c t}
    (run : s' = runStalling step s (before ++ (false, i) :: after)) :
    (result n s').toNat = i.slvL.toNat * i.slvR.toNat ∧
      s'.tagArray (2 * ceil n c - 1) = i.tagIn ∧ s'.rdyArray (2 * ceil n c - 1) = i.inRdy ∧
      ∀ (later : Input n t) (row col : Nat),
        2 ^ c * ((step s' later).cells row col).sd.toNat + ((step s' later).cells row col).diagOut.toNat =
            (mt s' later row col).toNat * (mr s' later row col).toNat + (diagIn (ceil n c) s' row col).toNat +
              (st s' row col).toNat ∧
          2 ^ c * ((step s' later).adders col).sl.toNat + ((step s' later).adders col).sDiagOut.toNat =
            (su (ceil n c) s' col).toNat + (sDiagIn (ceil n c) s' col).toNat + (sr s' col).toNat := by
  have chunks : 0 < ceil n c := Nat.pos_of_mul_pos_right (width.trans_le (le_ceil_mul n pos))
  have at_ : At c i (2 * ceil n c) s' := by
    rw [run, runStalling_append, runStalling_eq step _ (_ :: after), entered_cons_false, ← cycles]
    exact @follow _ _ step (At c i) i (at_enters c i chunks) (at_goes c i) _ _
  exact ⟨result_eq c i pos chunks at_, at_.tagArray _ (by omega), at_.rdyArray _ (by omega),
    fun later row col => ⟨cells_exact pos s' later row col, adders_exact s' later col⟩⟩

/-- Operands of five bits in chunks of two, with a stall on the way. -/
theorem result_product_five :
    (result 5 (runStalling step (⟨fun _ _ => 0#2, fun _ _ => 0#2, fun _ _ => ⟨0#2, 0#2⟩, fun _ _ => 0#2, fun _ _ => 0#2,
        fun _ => ⟨0#2, 0#2⟩, fun _ _ => 0#2, fun _ _ => 0#2, fun _ => 0#3, fun _ => false⟩ : State 2 3)
      ([] ++ (false, ⟨29#5, 23#5, true, 6#3⟩) :: ((true, ⟨0#5, 0#5, false, 0#3⟩) ::
        List.replicate 5 (false, ⟨31#5, 31#5, false, 1#3⟩))))).toNat = 29 * 23 :=
  (result_product (by decide) (by decide) _ [] _ _ (by decide) rfl).1

end Ahir.Hardware.UnsignedMultiplier
