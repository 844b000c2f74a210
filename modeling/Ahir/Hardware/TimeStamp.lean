import Ahir.Data.Bits

/-!
# Time stamps

Stamps count modulo a power of two, and `IsGreaterThan` compares the two top bits in a
cycle.  `Select_Best_Index` looks for a valid input with the least stamp, half by half.
-/

set_option autoImplicit false

namespace Ahir.Hardware.TimeStamp
open Ahir.Data

variable {w d : Nat}

/-- `lx(1 to 2)` -/
def topBits (x : BitVec w) : BitVec 2 := x.extractLsb' (w - 2) 2

/-- A turn of the loop, from `ret_val` and `still_equal`. -/
def compareBit (x y : BitVec w) (state : Bool × Bool) (i : Nat) : Bool × Bool :=
  let (retVal, stillEqual) := state
  if stillEqual && x.getLsbD i && !y.getLsbD i then (true, false)
  else if stillEqual && (!x.getLsbD i && y.getLsbD i) then (retVal, false)
  else (retVal, stillEqual)

/-- `IsGreaterThan`; `lx(3)` and on are the bits from `w - 3` down. -/
def isGreaterThan (x y : BitVec w) : Bool :=
  let lx := topBits x
  let ly := topBits y
  if lx = 0 ∧ ly = 3 ∨ lx = 1 ∧ ly = 0 ∨ lx = 2 ∧ ly = 1 ∨ lx = 3 ∧ ly = 2 then true
  else if lx = ly then ((List.range (w - 2)).reverse.foldl (compareBit x y) (false, true)).1
  else false

theorem compareBits_settled (x y : BitVec w) (retVal : Bool) (positions : List Nat) :
    positions.foldl (compareBit x y) (retVal, false) = (retVal, false) := by
  induction positions with
  | nil => rfl
  | cons i positions ih => exact ih

theorem compareBits_eq (x y : BitVec w) (n : Nat) :
    ((List.range n).reverse.foldl (compareBit x y) (false, true)).1 =
      decide ((lowBits n y.getLsbD).toNat < (lowBits n x.getLsbD).toNat) := by
  induction n with
  | zero =>
      have empty : ∀ z : BitVec 0, z.toNat = 0 := fun z => Nat.lt_one_iff.mp z.isLt
      rw [empty, empty]
      rfl
  | succ n ih =>
      have lessX : (lowBits n x.getLsbD).toNat < 2 ^ n := BitVec.isLt _
      have lessY : (lowBits n y.getLsbD).toNat < 2 ^ n := BitVec.isLt _
      rw [List.range_succ, List.reverse_append, List.reverse_singleton, List.singleton_append, List.foldl_cons,
        toNat_lowBits_succ, toNat_lowBits_succ]
      cases bitX : x.getLsbD n with
      | false =>
          cases bitY : y.getLsbD n with
          | false =>
              have undecided : compareBit x y (false, true) n = (false, true) := by simp [compareBit, bitX, bitY]
              rw [undecided, ih, Bool.toNat_false, Nat.mul_zero, Nat.zero_add, Nat.zero_add]
          | true =>
              have less : compareBit x y (false, true) n = (false, false) := by simp [compareBit, bitX, bitY]
              rw [less, compareBits_settled, Bool.toNat_false, Bool.toNat_true]
              exact (decide_eq_false (by omega)).symm
      | true =>
          cases bitY : y.getLsbD n with
          | false =>
              have greater : compareBit x y (false, true) n = (true, false) := by simp [compareBit, bitX, bitY]
              rw [greater, compareBits_settled, Bool.toNat_false, Bool.toNat_true]
              exact (decide_eq_true (by omega)).symm
          | true =>
              have undecided : compareBit x y (false, true) n = (false, true) := by simp [compareBit, bitX, bitY]
              rw [undecided, ih, Bool.toNat_true]
              exact decide_eq_decide.mpr (by omega)

/-! ### Stamps of times -/

theorem topBits_ofNat (wide : 2 < w) (t : Nat) : topBits (BitVec.ofNat w t) = BitVec.ofNat 2 (t / 2 ^ (w - 2)) := by
  have power : 2 ^ w = 2 ^ (w - 2) * 2 ^ 2 := by rw [← Nat.pow_add, Nat.sub_add_cancel (by omega)]
  refine BitVec.eq_of_toNat_eq ?_
  rw [topBits, BitVec.extractLsb'_toNat, BitVec.toNat_ofNat, BitVec.toNat_ofNat, Nat.shiftRight_eq_div_pow, power,
    Nat.mod_mul_right_div_self, Nat.mod_mod]

theorem lowBits_ofNat (t : Nat) : (lowBits (w - 2) (BitVec.ofNat w t).getLsbD).toNat = t % 2 ^ (w - 2) := by
  have low : lowBits (w - 2) (BitVec.ofNat w t).getLsbD = BitVec.ofNat (w - 2) t := by
    refine lowBits_eq fun i below => ?_
    rw [BitVec.getLsbD_ofNat, BitVec.getLsbD_ofNat, decide_eq_true below, decide_eq_true (by omega)]
  rw [low, BitVec.toNat_ofNat]

/-- Stamps of times that are at most a quarter of the range apart compare as the times. -/
theorem isGreaterThan_ofNat (wide : 2 < w) {t₁ t₂ : Nat} (near₁ : t₁ ≤ t₂ + 2 ^ (w - 2)) (near₂ : t₂ ≤ t₁ + 2 ^ (w - 2)) :
    isGreaterThan (BitVec.ofNat w t₁) (BitVec.ofNat w t₂) = true ↔ t₂ < t₁ := by
  have pos : 0 < 2 ^ (w - 2) := Nat.two_pow_pos _
  have division₁ := Nat.div_add_mod t₁ (2 ^ (w - 2))
  have division₂ := Nat.div_add_mod t₂ (2 ^ (w - 2))
  have less₁ := Nat.mod_lt t₁ pos
  have less₂ := Nat.mod_lt t₂ pos
  unfold isGreaterThan
  dsimp only
  rw [topBits_ofNat wide, topBits_ofNat wide, compareBits_eq, lowBits_ofNat, lowBits_ofNat]
  generalize t₁ / 2 ^ (w - 2) = a at *
  generalize t₂ / 2 ^ (w - 2) = b at *
  generalize 2 ^ (w - 2) = quarter at *
  rcases Nat.lt_trichotomy a b with behind | same | ahead
  · -- the next quarter is that of the other time
    have next : b = a + 1 := by
      by_contra farther
      have : quarter * (a + 2) ≤ quarter * b := Nat.mul_le_mul_left _ (by omega)
      rw [Nat.mul_add] at this
      omega
    have order : ∀ z : BitVec 2, ¬ (z = 0 ∧ z + 1 = 3 ∨ z = 1 ∧ z + 1 = 0 ∨ z = 2 ∧ z + 1 = 1 ∨ z = 3 ∧ z + 1 = 2) ∧
        z ≠ z + 1 := by decide
    have step : BitVec.ofNat 2 b = BitVec.ofNat 2 a + 1 := by rw [next, BitVec.ofNat_add]; rfl
    have later : quarter * (a + 1) = quarter * b := by rw [next]
    rw [Nat.mul_add] at later
    rw [step, if_neg (order _).1, if_neg (order _).2]
    exact ⟨fun never => absurd never Bool.false_ne_true, fun less => by omega⟩
  · subst same
    have order : ∀ z : BitVec 2, ¬ (z = 0 ∧ z = 3 ∨ z = 1 ∧ z = 0 ∨ z = 2 ∧ z = 1 ∨ z = 3 ∧ z = 2) := by decide
    rw [if_neg (order _), if_pos rfl, decide_eq_true_iff]
    omega
  · have next : a = b + 1 := by
      by_contra farther
      have : quarter * (b + 2) ≤ quarter * a := Nat.mul_le_mul_left _ (by omega)
      rw [Nat.mul_add] at this
      omega
    have order : ∀ z : BitVec 2, z + 1 = 0 ∧ z = 3 ∨ z + 1 = 1 ∧ z = 0 ∨ z + 1 = 2 ∧ z = 1 ∨ z + 1 = 3 ∧ z = 2 := by decide
    have step : BitVec.ofNat 2 a = BitVec.ofNat 2 b + 1 := by rw [next, BitVec.ofNat_add]; rfl
    have later : quarter * (b + 1) = quarter * a := by rw [next]
    rw [Nat.mul_add] at later
    rw [step, if_pos (order _)]
    exact ⟨fun _ => by omega, fun _ => rfl⟩

/-! ### The selection -/

/-- The slices of `time_stamp_vector`, `data_vector` and `valid_vector` of one index. -/
structure Entry (w d : Nat) where
  timeStamp : BitVec w
  data : BitVec d
  valid : Bool

structure Best (w d : Nat) where
  timeStamp : BitVec w
  data : BitVec d
  selVector : List Bool
  validFlag : Bool

/-- `Select_Best_Index`; there are no vectors of length zero. -/
def selectBestIndex : List (Entry w d) → Best w d
  | [] => ⟨0, 0, [], false⟩
  | [x] => ⟨x.timeStamp, x.data, [x.valid], x.valid⟩
  | [x, y] =>
      if x.valid && y.valid then
        if isGreaterThan x.timeStamp y.timeStamp then ⟨y.timeStamp, y.data, [false, true], true⟩
        else ⟨x.timeStamp, x.data, [true, false], true⟩
      else if x.valid then ⟨x.timeStamp, x.data, [true, false], true⟩
      else if y.valid then ⟨y.timeStamp, y.data, [false, true], true⟩
      else ⟨x.timeStamp, x.data, [false, false], false⟩
  | x :: y :: z :: rest =>
      let vector := x :: y :: z :: rest
      let midPoint := vector.length / 2
      let u := selectBestIndex (vector.take midPoint)
      let h := selectBestIndex (vector.drop midPoint)
      let lower := List.replicate u.selVector.length false
      let upper := List.replicate h.selVector.length false
      if u.validFlag && h.validFlag then
        if isGreaterThan h.timeStamp u.timeStamp then ⟨u.timeStamp, u.data, u.selVector ++ upper, true⟩
        else ⟨h.timeStamp, h.data, lower ++ h.selVector, true⟩
      else if h.validFlag then ⟨h.timeStamp, h.data, lower ++ h.selVector, true⟩
      else if u.validFlag then ⟨u.timeStamp, u.data, u.selVector ++ upper, true⟩
      else ⟨x.timeStamp, x.data, u.selVector ++ h.selVector, false⟩
termination_by entries => entries.length
decreasing_by
  all_goals
    simp only [List.length_take, List.length_drop, List.length_cons]
    omega

/-- The selector of index `i` among `n`. -/
def oneHot (n i : Nat) : List Bool := (List.replicate n false).set i true

/-- The outputs are those of a valid entry of least time, if there is a valid one. -/
structure Picks (entries : List (Entry w d)) (time : Nat → Nat) (best : Best w d) : Prop where
  none : best.validFlag = false →
    (∀ x ∈ entries, x.valid = false) ∧ best.selVector = List.replicate entries.length false
  one : best.validFlag = true → ∃ i x, entries[i]? = some x ∧ x.valid = true ∧
    best.timeStamp = x.timeStamp ∧ best.data = x.data ∧ best.selVector = oneHot entries.length i ∧
      ∀ j y, entries[j]? = some y → y.valid = true → time i ≤ time j

/-- The stamps of the valid entries are those of times within a quarter of the range. -/
structure Stamped (entries : List (Entry w d)) (time : Nat → Nat) : Prop where
  stamp : ∀ i x, entries[i]? = some x → x.valid = true → x.timeStamp = BitVec.ofNat w (time i)
  near : ∀ i x j y, entries[i]? = some x → x.valid = true → entries[j]? = some y → y.valid = true →
    time i ≤ time j + 2 ^ (w - 2)

section
variable {entries lower upper : List (Entry w d)} {time : Nat → Nat}

theorem Stamped.isGreaterThan_iff (stamped : Stamped entries time) (wide : 2 < w) {i j : Nat} {x y : Entry w d}
    (atX : entries[i]? = some x) (validX : x.valid = true) (atY : entries[j]? = some y) (validY : y.valid = true) :
    isGreaterThan x.timeStamp y.timeStamp = true ↔ time j < time i := by
  rw [stamped.stamp i x atX validX, stamped.stamp j y atY validY]
  exact isGreaterThan_ofNat wide (stamped.near i x j y atX validX atY validY) (stamped.near j y i x atY validY atX validX)

/-- An entry goes before another that is found later, or not found earlier. -/
theorem Stamped.le_of_order (stamped : Stamped entries time) (wide : 2 < w) {i j : Nat} {x y : Entry w d}
    (atX : entries[i]? = some x) (validX : x.valid = true) (atY : entries[j]? = some y) (validY : y.valid = true)
    (order : isGreaterThan y.timeStamp x.timeStamp = true ∨ isGreaterThan x.timeStamp y.timeStamp = false) :
    time i ≤ time j := by
  rcases order with greater | notGreater
  · exact Nat.le_of_lt ((stamped.isGreaterThan_iff wide atY validY atX validX).mp greater)
  · exact Nat.not_lt.mp (mt (stamped.isGreaterThan_iff wide atX validX atY validY).mpr (Bool.eq_false_iff.mp notGreater))

theorem Picks.length {best : Best w d} (picks : Picks entries time best) : best.selVector.length = entries.length := by
  cases flag : best.validFlag with
  | false => rw [(picks.none flag).2, List.length_replicate]
  | true =>
      obtain ⟨i, x, -, -, -, -, sel, -⟩ := picks.one flag
      rw [sel, oneHot, List.length_set, List.length_replicate]

theorem Stamped.of_append_left (stamped : Stamped (lower ++ upper) time) : Stamped lower time := by
  have within : ∀ i x, lower[i]? = some x → (lower ++ upper)[i]? = some x := fun i x found => by
    rw [List.getElem?_append_left (List.getElem?_eq_some_iff.mp found).1, found]
  exact ⟨fun i x found => stamped.stamp i x (within i x found),
    fun i x j y found valid found' => stamped.near i x j y (within i x found) valid (within j y found')⟩

theorem Stamped.of_append_right (stamped : Stamped (lower ++ upper) time) :
    Stamped upper fun i => time (lower.length + i) := by
  have within : ∀ i x, upper[i]? = some x → (lower ++ upper)[lower.length + i]? = some x := fun i x found => by
    rw [List.getElem?_append_right (Nat.le_add_right _ _), Nat.add_sub_cancel_left, found]
  exact ⟨fun i x found => stamped.stamp _ x (within i x found),
    fun i x j y found valid found' => stamped.near _ x _ y (within i x found) valid (within j y found')⟩

theorem oneHot_append_right {i : Nat} (m : Nat) {n : Nat} (inside : i < n) :
    oneHot n i ++ List.replicate m false = oneHot (n + m) i := by
  rw [oneHot, oneHot, List.replicate_add, List.set_append_left _ _ (by rwa [List.length_replicate])]

theorem oneHot_append_left (i m n : Nat) : List.replicate n false ++ oneHot m i = oneHot (n + m) (n + i) := by
  rw [oneHot, oneHot, List.replicate_add, List.set_append_right _ _ (by rw [List.length_replicate]; omega),
    List.length_replicate, Nat.add_sub_cancel_left]

theorem getElem?_halves {j : Nat} {y : Entry w d} (found : (lower ++ upper)[j]? = some y) :
    lower[j]? = some y ∨ ∃ k, j = lower.length + k ∧ upper[k]? = some y := by
  by_cases inside : j < lower.length
  · exact Or.inl (by rwa [List.getElem?_append_left inside] at found)
  · rw [List.getElem?_append_right (by omega)] at found
    exact Or.inr ⟨j - lower.length, by omega, found⟩

section Halves
variable {u h : Best w d} (wide : 2 < w) (stamped : Stamped (lower ++ upper) time) (picksU : Picks lower time u)
  (picksH : Picks upper (fun i => time (lower.length + i)) h)
include wide stamped picksU picksH

/-- The choice of the lower half stays when nothing valid in the upper half is found earlier. -/
theorem Picks.lower_wins (valid : u.validFlag = true)
    (order : h.validFlag = true →
      isGreaterThan h.timeStamp u.timeStamp = true ∨ isGreaterThan u.timeStamp h.timeStamp = false) :
    Picks (lower ++ upper) time ⟨u.timeStamp, u.data, u.selVector ++ List.replicate h.selVector.length false, true⟩ := by
  refine ⟨fun never => Bool.noConfusion never, fun _ => ?_⟩
  obtain ⟨i, x, found, validX, stamp, data, sel, first⟩ := picksU.one valid
  obtain ⟨inside, -⟩ := List.getElem?_eq_some_iff.mp found
  have atX : (lower ++ upper)[i]? = some x := by rw [List.getElem?_append_left inside, found]
  refine ⟨i, x, atX, validX, stamp, data, ?_, fun j y atY validY => ?_⟩
  · rw [sel, picksH.length, oneHot_append_right _ inside, List.length_append]
  rcases getElem?_halves atY with low | ⟨k, rfl, high⟩
  · exact first j y low validY
  · cases flag : h.validFlag with
    | false =>
        have invalid := (picksH.none flag).1 y (List.mem_of_getElem? high)
        rw [validY] at invalid
        cases invalid
    | true =>
        obtain ⟨m, z, foundZ, validZ, stampZ, -, -, firstZ⟩ := picksH.one flag
        have atZ : (lower ++ upper)[lower.length + m]? = some z := by
          rw [List.getElem?_append_right (Nat.le_add_right _ _), Nat.add_sub_cancel_left, foundZ]
        have before := order flag
        rw [stamp, stampZ] at before
        exact (stamped.le_of_order wide atX validX atZ validZ before).trans (firstZ k y high validY)

theorem Picks.upper_wins (valid : h.validFlag = true)
    (order : u.validFlag = true →
      isGreaterThan u.timeStamp h.timeStamp = true ∨ isGreaterThan h.timeStamp u.timeStamp = false) :
    Picks (lower ++ upper) time ⟨h.timeStamp, h.data, List.replicate u.selVector.length false ++ h.selVector, true⟩ := by
  refine ⟨fun never => Bool.noConfusion never, fun _ => ?_⟩
  obtain ⟨i, x, found, validX, stamp, data, sel, first⟩ := picksH.one valid
  have atX : (lower ++ upper)[lower.length + i]? = some x := by
    rw [List.getElem?_append_right (Nat.le_add_right _ _), Nat.add_sub_cancel_left, found]
  refine ⟨lower.length + i, x, atX, validX, stamp, data, ?_, fun j y atY validY => ?_⟩
  · rw [sel, picksU.length, oneHot_append_left, List.length_append]
  rcases getElem?_halves atY with low | ⟨k, rfl, high⟩
  · cases flag : u.validFlag with
    | false =>
        have invalid := (picksU.none flag).1 y (List.mem_of_getElem? low)
        rw [validY] at invalid
        cases invalid
    | true =>
        obtain ⟨m, z, foundZ, validZ, stampZ, -, -, firstZ⟩ := picksU.one flag
        have atZ : (lower ++ upper)[m]? = some z := by
          rw [List.getElem?_append_left (List.getElem?_eq_some_iff.mp foundZ).1, foundZ]
        have before := order flag
        rw [stamp, stampZ] at before
        exact (stamped.le_of_order wide atX validX atZ validZ before).trans (firstZ j y low validY)
  · exact first k y high validY

omit wide stamped in
theorem Picks.none_wins (stamp : BitVec w) (data : BitVec d) (invalidU : u.validFlag = false)
    (invalidH : h.validFlag = false) :
    Picks (lower ++ upper) time ⟨stamp, data, u.selVector ++ h.selVector, false⟩ := by
  refine ⟨fun _ => ⟨fun x member => ?_, ?_⟩, fun never => Bool.noConfusion never⟩
  · rcases List.mem_append.mp member with low | high
    · exact (picksU.none invalidU).1 x low
    · exact (picksH.none invalidH).1 x high
  · rw [(picksU.none invalidU).2, (picksH.none invalidH).2, List.length_append, List.replicate_add]

end Halves

theorem picks_singleton (x : Entry w d) (time : Nat → Nat) :
    Picks [x] time ⟨x.timeStamp, x.data, [x.valid], x.valid⟩ := by
  refine ⟨fun invalid => ⟨fun y member => ?_, ?_⟩, fun valid => ⟨0, x, rfl, valid, rfl, rfl, ?_, fun j y atY _ => ?_⟩⟩
  · rwa [List.mem_singleton.mp member]
  · exact congrArg (fun b => [b]) invalid
  · exact congrArg (fun b => [b]) valid
  · obtain ⟨inside, -⟩ := List.getElem?_eq_some_iff.mp atY
    rw [Nat.lt_one_iff.mp inside]

theorem picks_selectBestIndex (wide : 2 < w) (entries : List (Entry w d)) :
    ∀ time : Nat → Nat, Stamped entries time → Picks entries time (selectBestIndex entries) := by
  fun_induction selectBestIndex entries with
  | case1 =>
      intro time _
      exact ⟨fun _ => ⟨fun x member => absurd member List.not_mem_nil, rfl⟩, fun never => Bool.noConfusion never⟩
  | case2 x => exact fun time _ => picks_singleton x time
  | case3 x y both greater =>
      intro time stamped
      have pair : Stamped ([x] ++ [y]) time := stamped
      obtain ⟨_, validY⟩ := Bool.and_eq_true_iff.mp both
      have won := Picks.upper_wins wide pair (picks_singleton x time)
        (picks_singleton y _) validY fun _ => Or.inl greater
      rw [validY] at won
      exact won
  | case4 x y both notGreater =>
      intro time stamped
      have pair : Stamped ([x] ++ [y]) time := stamped
      obtain ⟨validX, _⟩ := Bool.and_eq_true_iff.mp both
      have won := Picks.lower_wins wide pair (picks_singleton x time)
        (picks_singleton y _) validX fun _ => Or.inr (Bool.eq_false_iff.mpr notGreater)
      rw [validX] at won
      exact won
  | case5 x y notBoth validX =>
      intro time stamped
      have pair : Stamped ([x] ++ [y]) time := stamped
      have won := Picks.lower_wins wide pair (picks_singleton x time)
        (picks_singleton y _) validX fun validY => absurd (Bool.and_eq_true_iff.mpr ⟨validX, validY⟩) notBoth
      rw [validX] at won
      exact won
  | case6 x y notBoth invalidX validY =>
      intro time stamped
      have pair : Stamped ([x] ++ [y]) time := stamped
      have won := Picks.upper_wins wide pair (picks_singleton x time)
        (picks_singleton y _) validY fun validX => absurd validX invalidX
      rw [validY] at won
      exact won
  | case7 x y notBoth invalidX invalidY =>
      intro time stamped
      have flagX : x.valid = false := Bool.eq_false_iff.mpr invalidX
      have flagY : y.valid = false := Bool.eq_false_iff.mpr invalidY
      have none := Picks.none_wins (picks_singleton x time)
        (picks_singleton y fun i => time (1 + i)) x.timeStamp x.data flagX flagY
      rw [flagX, flagY] at none
      exact none
  | case8 x y z rest vector midPoint u h upper both greater ihU ihH =>
      intro time stamped
      rw [← List.take_append_drop midPoint (x :: y :: z :: rest)] at stamped ⊢
      obtain ⟨validU, _⟩ := Bool.and_eq_true_iff.mp both
      exact Picks.lower_wins wide stamped (ihU _ stamped.of_append_left) (ihH _ stamped.of_append_right) validU
        fun _ => Or.inl greater
  | case9 x y z rest vector midPoint u h lower both notGreater ihU ihH =>
      intro time stamped
      rw [← List.take_append_drop midPoint (x :: y :: z :: rest)] at stamped ⊢
      obtain ⟨_, validH⟩ := Bool.and_eq_true_iff.mp both
      exact Picks.upper_wins wide stamped (ihU _ stamped.of_append_left) (ihH _ stamped.of_append_right) validH
        fun _ => Or.inr (Bool.eq_false_iff.mpr notGreater)
  | case10 x y z rest vector midPoint u h lower notBoth validH ihU ihH =>
      intro time stamped
      rw [← List.take_append_drop midPoint (x :: y :: z :: rest)] at stamped ⊢
      exact Picks.upper_wins wide stamped (ihU _ stamped.of_append_left) (ihH _ stamped.of_append_right) validH
        fun validU => absurd (Bool.and_eq_true_iff.mpr ⟨validU, validH⟩) notBoth
  | case11 x y z rest vector midPoint u h upper notBoth invalidH validU ihU ihH =>
      intro time stamped
      rw [← List.take_append_drop midPoint (x :: y :: z :: rest)] at stamped ⊢
      exact Picks.lower_wins wide stamped (ihU _ stamped.of_append_left) (ihH _ stamped.of_append_right) validU
        fun validH => absurd validH invalidH
  | case12 x y z rest vector midPoint u h notBoth invalidH invalidU ihU ihH =>
      intro time stamped
      rw [← List.take_append_drop midPoint (x :: y :: z :: rest)] at stamped ⊢
      exact Picks.none_wins (ihU _ stamped.of_append_left) (ihH _ stamped.of_append_right) _ _
        (Bool.eq_false_iff.mpr invalidU) (Bool.eq_false_iff.mpr invalidH)

theorem Picks.validFlag_iff {best : Best w d} (picks : Picks entries time best) :
    best.validFlag = true ↔ ∃ x ∈ entries, x.valid = true := by
  constructor
  · intro valid
    obtain ⟨i, x, found, validX, -⟩ := picks.one valid
    exact ⟨x, List.mem_of_getElem? found, validX⟩
  · rintro ⟨x, member, validX⟩
    by_contra invalid
    have none := (picks.none (Bool.eq_false_iff.mpr invalid)).1 x member
    rw [validX] at none
    cases none

end

/-- Within a quarter of the range the comparison of stamps is that of times, and the
selection is a valid entry of least time with its stamp and its data. -/
theorem timeStamps_select (wide : 2 < w) :
    (∀ t₁ t₂ : Nat, t₁ ≤ t₂ + 2 ^ (w - 2) → t₂ ≤ t₁ + 2 ^ (w - 2) →
      (isGreaterThan (BitVec.ofNat w t₁) (BitVec.ofNat w t₂) = true ↔ t₂ < t₁)) ∧
    ∀ (entries : List (Entry w d)) (time : Nat → Nat), Stamped entries time →
      ((selectBestIndex entries).validFlag = true ↔ ∃ x ∈ entries, x.valid = true) ∧
        Picks entries time (selectBestIndex entries) := by
  refine ⟨fun t₁ t₂ near₁ near₂ => isGreaterThan_ofNat wide near₁ near₂, fun entries time stamped => ?_⟩
  have picks := picks_selectBestIndex wide entries time stamped
  exact ⟨picks.validFlag_iff, picks⟩

/-- Stamp 1 is that of time 9, and later than the stamp of time 7. -/
theorem timeStamps_select_wrapped :
    let entries : List (Entry 3 4) := [⟨1, 10, true⟩, ⟨0, 11, false⟩, ⟨7, 12, true⟩]
    let time : Nat → Nat := fun i => if i = 0 then 9 else 7
    (isGreaterThan (BitVec.ofNat 3 9) (BitVec.ofNat 3 7) = true ↔ 7 < 9) ∧
      Picks entries time (selectBestIndex entries) := by
  intro entries time
  obtain ⟨compares, selects⟩ := timeStamps_select (w := 3) (d := 4) (by decide)
  refine ⟨compares 9 7 (by decide) (by decide), (selects entries time ⟨?_, ?_⟩).2⟩
  · intro i x found valid
    match i with
    | 0 =>
        obtain rfl := Option.some.inj found
        exact (by decide : (1 : BitVec 3) = BitVec.ofNat 3 9)
    | 1 =>
        obtain rfl := Option.some.inj found
        cases valid
    | 2 =>
        obtain rfl := Option.some.inj found
        exact (by decide : (7 : BitVec 3) = BitVec.ofNat 3 7)
    | i + 3 => cases found
  · intro i x j y _ _ _ _
    have upper : time i ≤ 9 := by
      change (if i = 0 then 9 else 7) ≤ 9
      split_ifs <;> decide
    have lower : 7 ≤ time j := by
      change 7 ≤ if j = 0 then 9 else 7
      split_ifs <;> decide
    have quarter : 2 ^ (3 - 2) = 2 := rfl
    omega

end Ahir.Hardware.TimeStamp
