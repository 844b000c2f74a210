import Mathlib

/-!
# Layout of a memory space

`Coalesce_Storage` puts the storage objects that one pointer may reach into one
memory space.  Its word is to be a common divisor of the widths of all accesses; the
objects get consecutive ranges of word addresses.
-/

set_option autoImplicit false

namespace Ahir.Aa

structure StorageObject where
  size : Nat
  accessWidths : List Nat
  dvd_size : ∀ w ∈ accessWidths, w ∣ size

structure StorageClass where
  objects : List StorageObject
  dereferenceWidths : List Nat

/-- A sum of two `int`s that are not negative. -/
def intAdd (x y : Nat) : Option Nat := if x + y < 2 ^ 31 then some (x + y) else none

/-- The loop of `nAddressBits`; `T` can be doubled `left` times more before it overflows. -/
def addressBitsLoop (n : Nat) : Nat → Nat → Nat → Option Nat
  | 0, t, bits => if t < n then none else some bits
  | left + 1, t, bits => if t < n then addressBitsLoop n left (2 * t) (bits + 1) else some bits

def nAddressBits (n : Nat) : Option Nat :=
  if 0 < n then (addressBitsLoop n 30 1 0).map fun bits => if bits = 0 then 1 else bits
  else some 1

/-- `GCD` over the ordered set; a division by zero stops the program. -/
def gcdSet : List Nat → Option Nat
  | [] => some 0
  | l :: rest => do
      let r ← gcdSet rest
      if 0 < r then
        if l = 0 then none
        else if r % l = 0 then some l
        else some (r % l)
      else some l

structure MemorySpace where
  totalSize : Nat
  wordSize : Nat
  addressWidth : Nat
  maxAccessWidth : Nat
  baseAddresses : List Nat

namespace StorageClass
variable (s : StorageClass)

def widths : List Nat := s.objects.flatMap StorageObject.accessWidths ++ s.dereferenceWidths

/-- The set of `int`, in its order. -/
def lauSet : List Nat := s.widths.dedup.insertionSort (· ≤ ·)

def totalBits : Option Nat := s.objects.foldlM (fun total u => intAdd total u.size) 0

def assignBases (wordSize : Nat) : Nat → List StorageObject → List Nat
  | _, [] => []
  | base, u :: rest => base :: assignBases wordSize (base + u.size / wordSize) rest

/-- The part of `Coalesce_Storage` for one memory space. -/
def coalesce : Option MemorySpace := do
  let total ← s.totalBits
  if s.lauSet = [] then
    let addressWidth ← nAddressBits total
    some ⟨total, 1, addressWidth, 1, assignBases 1 0 s.objects⟩
  else
    let wordSize ← gcdSet s.lauSet
    if wordSize = 0 then none
    else
      let addressWidth ← nAddressBits (total / wordSize)
      some ⟨total / wordSize, wordSize, addressWidth, s.lauSet.getLastD 0, assignBases wordSize 0 s.objects⟩

def placed (m : MemorySpace) : List (StorageObject × Nat) := s.objects.zip m.baseAddresses

end StorageClass

def MemorySpace.range (m : MemorySpace) (p : StorageObject × Nat) : Set Nat :=
  Set.Ico p.2 (p.2 + p.1.size / m.wordSize)

structure LayoutSound (s : StorageClass) (m : MemorySpace) : Prop where
  wordSize_dvd : ∀ w ∈ s.widths, m.wordSize ∣ w
  every_object : m.baseAddresses.length = s.objects.length
  disjoint : (s.placed m).Pairwise fun p q => Disjoint (m.range p) (m.range q)
  complete : ∀ p ∈ s.placed m, p.1.size ≤ p.1.size / m.wordSize * m.wordSize
  capacity : ∀ p ∈ s.placed m, ∀ a ∈ m.range p, a < m.totalSize
  address : ∀ p ∈ s.placed m, ∀ a ∈ m.range p, a < 2 ^ m.addressWidth

/-- The greatest common divisor of the widths; a bit when there is no access. -/
def StorageClass.unit (s : StorageClass) : Nat :=
  if s.widths = [] then 1 else s.widths.foldr Nat.gcd 0

/-- The largest width less one, modulo the next one, and so on to the smallest. -/
def remainderChain : List Nat → Nat
  | [] => 0
  | [l] => l - 1
  | l :: rest => remainderChain rest % l

structure Admissible (s : StorageClass) : Prop where
  width_pos : ∀ w ∈ s.widths, 0 < w
  remainder : remainderChain s.lauSet + 1 = s.unit
  dvd_idle : ∀ u ∈ s.objects, u.accessWidths = [] → s.unit ∣ u.size
  total_lt : (s.objects.map StorageObject.size).sum < 2 ^ 31
  words_le : (s.objects.map StorageObject.size).sum / s.unit ≤ 2 ^ 30

section AddressBits

theorem addressBitsLoop_eq (n left bits : Nat) :
    (∀ k, addressBitsLoop n left (2 ^ bits) bits = some k → n ≤ 2 ^ k) ∧
      ((addressBitsLoop n left (2 ^ bits) bits).isSome = true ↔ n ≤ 2 ^ (left + bits)) := by
  induction left generalizing bits with
  | zero =>
      rw [addressBitsLoop, Nat.zero_add]
      split
      · next lt => exact ⟨fun k none => absurd none (by simp), by simp; omega⟩
      · next ge => exact ⟨fun k some => by cases some; omega, by simp; omega⟩
  | succ left ih =>
      rw [addressBitsLoop]
      split
      · next lt =>
          rw [show 2 * 2 ^ bits = 2 ^ (bits + 1) by ring, show left + 1 + bits = left + (bits + 1) by ring]
          exact ih (bits + 1)
      · next ge =>
          have le : 2 ^ bits ≤ 2 ^ (left + 1 + bits) := Nat.pow_le_pow_right (by omega) (by omega)
          exact ⟨fun k some => by cases some; omega, by simp; omega⟩

theorem nAddressBits_eq (n : Nat) :
    (∀ k, nAddressBits n = some k → n ≤ 2 ^ k) ∧ ((nAddressBits n).isSome = true ↔ n ≤ 2 ^ 30) := by
  obtain ⟨enough, some⟩ := addressBitsLoop_eq n 30 0
  rw [Nat.pow_zero] at enough some
  unfold nAddressBits
  split
  · refine ⟨fun k eq => ?_, by rw [Option.isSome_map]; exact some⟩
    obtain ⟨bits, found, eq⟩ := Option.map_eq_some_iff.mp eq
    have le := enough bits found
    split at eq
    · next zero => subst eq zero; omega
    · next _ => subst eq; exact le
  · next zero => exact ⟨fun k eq => by cases eq; omega, by simp; omega⟩

end AddressBits

section Gcd

theorem remainder_succ (r l : Nat) (pos : 0 < l) :
    (if (r + 1) % l = 0 then l else (r + 1) % l) = r % l + 1 := by
  have below := Nat.mod_lt r pos
  have step : (r + 1) % l = (r % l + 1) % l := by rw [Nat.mod_add_mod]
  rw [step]
  by_cases top : r % l + 1 = l
  · rw [top, Nat.mod_self, if_pos rfl]
  · rw [Nat.mod_eq_of_lt (by omega), if_neg (by omega)]

theorem gcdSet_eq (l : Nat) (rest : List Nat) (pos : ∀ w ∈ l :: rest, 0 < w) :
    gcdSet (l :: rest) = some (remainderChain (l :: rest) + 1) := by
  induction rest generalizing l with
  | nil =>
      have := pos l List.mem_cons_self
      simp [gcdSet, remainderChain]
      omega
  | cons l' rest ih =>
      have own := pos l List.mem_cons_self
      have chain : remainderChain (l :: l' :: rest) = remainderChain (l' :: rest) % l := rfl
      rw [gcdSet, ih l' fun w mem => pos w (List.mem_cons_of_mem _ mem), Option.bind_eq_bind, Option.bind_some,
        if_pos (by omega), if_neg (by omega), chain, ← remainder_succ _ l own]
      split <;> rfl

theorem dvd_gcdSet {d : Nat} {ws : List Nat} (dvd : ∀ w ∈ ws, d ∣ w) {r : Nat} (eq : gcdSet ws = some r) : d ∣ r := by
  induction ws generalizing r with
  | nil =>
      cases eq
      exact dvd_zero d
  | cons l rest ih =>
      have own := dvd l List.mem_cons_self
      rw [gcdSet] at eq
      obtain ⟨r', found, eq⟩ := Option.bind_eq_some_iff.mp eq
      have below := ih (fun w mem => dvd w (List.mem_cons_of_mem _ mem)) found
      split at eq
      · split at eq
        · cases eq
        · split at eq <;> cases eq
          · exact own
          · exact (Nat.dvd_mod_iff own).mpr below
      · cases eq
        exact own

theorem gcdSet_of_zero_mem {ws : List Nat} (sorted : ws.Pairwise (· < ·)) (zero : 0 ∈ ws) {r : Nat}
    (eq : gcdSet ws = some r) : r = 0 := by
  cases ws with
  | nil => exact absurd zero List.not_mem_nil
  | cons l rest =>
      have first : l = 0 := by
        rcases List.mem_cons.mp zero with eq | mem
        · exact eq.symm
        · exact absurd (List.rel_of_pairwise_cons sorted mem) (by omega)
      rw [gcdSet] at eq
      obtain ⟨r', _, eq⟩ := Option.bind_eq_some_iff.mp eq
      rw [if_pos first] at eq
      split at eq <;> cases eq
      exact first

theorem dvd_foldr_gcd {d : Nat} {ws : List Nat} : d ∣ ws.foldr Nat.gcd 0 ↔ ∀ w ∈ ws, d ∣ w := by
  induction ws with
  | nil => simp
  | cons l rest ih => rw [List.foldr_cons, Nat.dvd_gcd_iff, ih, List.forall_mem_cons]

end Gcd

namespace StorageClass
variable {s : StorageClass}

theorem mem_lauSet (w : Nat) : w ∈ s.lauSet ↔ w ∈ s.widths := by
  unfold lauSet
  rw [List.mem_insertionSort, List.mem_dedup]

theorem sorted_lauSet : s.lauSet.Pairwise (· < ·) := by
  have sorted := List.pairwise_insertionSort (· ≤ ·) s.widths.dedup
  have nodup : s.lauSet.Nodup := (List.perm_insertionSort (· ≤ ·) s.widths.dedup).nodup_iff.mpr (List.nodup_dedup _)
  exact (List.Pairwise.and sorted nodup).imp fun pair => lt_of_le_of_ne pair.1 pair.2

theorem lauSet_eq_nil : s.lauSet = [] ↔ s.widths = [] := by
  rw [List.eq_nil_iff_forall_not_mem, List.eq_nil_iff_forall_not_mem]
  simp only [mem_lauSet]

theorem foldlM_intAdd (objects : List StorageObject) {total : Nat} (lt : total < 2 ^ 31) :
    objects.foldlM (fun total u => intAdd total u.size) total =
      if total + (objects.map StorageObject.size).sum < 2 ^ 31 then
        some (total + (objects.map StorageObject.size).sum) else none := by
  induction objects generalizing total with
  | nil =>
      rw [List.map_nil, List.sum_nil, Nat.add_zero, if_pos lt]
      rfl
  | cons u rest ih =>
      rw [List.foldlM_cons, List.map_cons, List.sum_cons, intAdd]
      split
      · next fits => rw [Option.bind_eq_bind, Option.bind_some, ih fits, Nat.add_assoc]
      · next excess =>
          rw [if_neg (by omega)]
          rfl

theorem totalBits_eq_some (total : Nat) :
    s.totalBits = some total ↔
      (s.objects.map StorageObject.size).sum < 2 ^ 31 ∧ (s.objects.map StorageObject.size).sum = total := by
  unfold totalBits
  rw [foldlM_intAdd s.objects (by decide), Nat.zero_add]
  split
  · next lt => exact ⟨fun eq => ⟨lt, Option.some.inj eq⟩, fun both => congrArg some both.2⟩
  · next ge => exact ⟨fun eq => absurd eq (by simp), fun both => absurd both.1 ge⟩

theorem length_assignBases (wordSize base : Nat) (objects : List StorageObject) :
    (assignBases wordSize base objects).length = objects.length := by
  induction objects generalizing base with
  | nil => rfl
  | cons u rest ih => rw [assignBases, List.length_cons, List.length_cons, ih]

/-- The ranges lie one after the other, and the quotients do not exceed that of the sum. -/
theorem assignBases_bounds (wordSize base : Nat) (objects : List StorageObject) :
    ∀ p ∈ objects.zip (assignBases wordSize base objects),
      base ≤ p.2 ∧ p.2 + p.1.size / wordSize ≤ base + (objects.map StorageObject.size).sum / wordSize := by
  induction objects generalizing base with
  | nil => exact fun p mem => absurd mem List.not_mem_nil
  | cons u rest ih =>
      have quotients : u.size / wordSize + (rest.map StorageObject.size).sum / wordSize ≤
          (u.size + (rest.map StorageObject.size).sum) / wordSize := Nat.div_add_div_le_add_div
      intro p mem
      rw [assignBases, List.zip_cons_cons, List.mem_cons] at mem
      rw [List.map_cons, List.sum_cons]
      rcases mem with rfl | mem
      · exact ⟨le_rfl, Nat.add_le_add_left (le_trans (Nat.le_add_right _ _) quotients) base⟩
      · obtain ⟨lower, upper⟩ := ih (base + u.size / wordSize) p mem
        refine ⟨le_trans (Nat.le_add_right _ _) lower, le_trans upper ?_⟩
        rw [Nat.add_assoc]
        exact Nat.add_le_add_left quotients base

theorem assignBases_disjoint (m : MemorySpace) (base : Nat) (objects : List StorageObject) :
    (objects.zip (assignBases m.wordSize base objects)).Pairwise fun p q => Disjoint (m.range p) (m.range q) := by
  induction objects generalizing base with
  | nil => exact List.Pairwise.nil
  | cons u rest ih =>
      rw [assignBases, List.zip_cons_cons]
      refine List.Pairwise.cons (fun q mem => ?_) (ih _)
      have above := (assignBases_bounds m.wordSize _ rest q mem).1
      rw [Set.disjoint_left]
      intro a first second
      unfold MemorySpace.range at first second
      rw [Set.mem_Ico] at first second
      dsimp only at first
      omega

/-- A layout whose bases are assigned in order and whose address width is that of
`nAddressBits` fails only by its word size. -/
theorem layoutSound_iff {m : MemorySpace} (bases : m.baseAddresses = assignBases m.wordSize 0 s.objects)
    (total : m.totalSize = (s.objects.map StorageObject.size).sum / m.wordSize)
    (address : nAddressBits m.totalSize = some m.addressWidth) :
    LayoutSound s m ↔ (∀ w ∈ s.widths, m.wordSize ∣ w) ∧ ∀ u ∈ s.objects, m.wordSize ∣ u.size := by
  have length : m.baseAddresses.length = s.objects.length := by rw [bases, length_assignBases]
  have enough := (nAddressBits_eq m.totalSize).1 _ address
  have below : ∀ p ∈ s.placed m, ∀ a ∈ m.range p, a < m.totalSize := by
    intro p mem a inside
    unfold placed at mem
    rw [bases] at mem
    have bound := (assignBases_bounds m.wordSize 0 s.objects p mem).2
    unfold MemorySpace.range at inside
    rw [Set.mem_Ico] at inside
    omega
  constructor
  · intro sound
    refine ⟨sound.wordSize_dvd, fun u mem => ?_⟩
    obtain ⟨i, inside, rfl⟩ := List.mem_iff_getElem.mp mem
    have pair : (s.objects[i], m.baseAddresses[i]) ∈ s.placed m := by
      unfold placed
      rw [← List.getElem_zip (h := by rw [List.length_zip, length, min_self]; exact inside)]
      exact List.getElem_mem _
    have complete := sound.complete _ pair
    have parts := Nat.div_add_mod' s.objects[i].size m.wordSize
    dsimp only at complete
    exact Nat.dvd_of_mod_eq_zero (by omega)
  · rintro ⟨dvdWidths, dvdSizes⟩
    refine ⟨dvdWidths, length, ?_, fun p mem => ?_, below, fun p mem a inside => ?_⟩
    · unfold placed
      rw [bases]
      exact assignBases_disjoint m 0 s.objects
    · exact (Nat.div_mul_cancel (dvdSizes p.1 (List.of_mem_zip mem).1)).ge
    · exact lt_of_lt_of_le (below p mem a inside) enough

def wordSize (s : StorageClass) : Option Nat :=
  if s.lauSet = [] then some 1
  else (gcdSet s.lauSet).bind fun wordSize => if wordSize = 0 then none else some wordSize

theorem wordSize_eq_some (word : Nat) :
    s.wordSize = some word ↔ (∀ w ∈ s.widths, 0 < w) ∧ remainderChain s.lauSet + 1 = word := by
  unfold wordSize
  by_cases pos : ∀ w ∈ s.widths, 0 < w
  · have posSet : ∀ w ∈ s.lauSet, 0 < w := fun w mem => pos w ((mem_lauSet w).mp mem)
    cases set : s.lauSet with
    | nil =>
        rw [if_pos rfl, Option.some.injEq]
        exact (and_iff_right pos).symm
    | cons l rest =>
        rw [set] at posSet
        rw [if_neg (by simp), gcdSet_eq l rest posSet, Option.bind_some, if_neg (by omega), Option.some.injEq]
        exact (and_iff_right pos).symm
  · refine ⟨fun eq => ?_, fun both => absurd both.1 pos⟩
    obtain ⟨w, mem, zero⟩ : ∃ w ∈ s.widths, w = 0 := by
      push Not at pos
      obtain ⟨w, mem, le⟩ := pos
      exact ⟨w, mem, by omega⟩
    rw [zero, ← mem_lauSet] at mem
    rw [if_neg (List.ne_nil_of_mem mem)] at eq
    obtain ⟨r, found, eq⟩ := Option.bind_eq_some_iff.mp eq
    rw [gcdSet_of_zero_mem sorted_lauSet mem found, if_pos rfl] at eq
    cases eq

theorem coalesce_eq_some (m : MemorySpace) (coalesced : s.coalesce = some m) :
    s.wordSize = some m.wordSize ∧ (s.objects.map StorageObject.size).sum < 2 ^ 31 ∧
      m.totalSize = (s.objects.map StorageObject.size).sum / m.wordSize ∧
      nAddressBits m.totalSize = some m.addressWidth ∧ m.baseAddresses = assignBases m.wordSize 0 s.objects := by
  unfold coalesce at coalesced
  obtain ⟨total, totalEq, coalesced⟩ := Option.bind_eq_some_iff.mp coalesced
  obtain ⟨lt, rfl⟩ := (totalBits_eq_some total).mp totalEq
  unfold wordSize
  split at coalesced
  · next empty =>
      obtain ⟨bits, bitsEq, coalesced⟩ := Option.bind_eq_some_iff.mp coalesced
      cases coalesced
      rw [if_pos empty]
      exact ⟨rfl, lt, (Nat.div_one _).symm, bitsEq, rfl⟩
  · next nonempty =>
      obtain ⟨word, wordEq, coalesced⟩ := Option.bind_eq_some_iff.mp coalesced
      split at coalesced
      · cases coalesced
      · next nonzero =>
          obtain ⟨bits, bitsEq, coalesced⟩ := Option.bind_eq_some_iff.mp coalesced
          cases coalesced
          rw [if_neg nonempty, wordEq, Option.bind_some, if_neg nonzero]
          exact ⟨rfl, lt, rfl, bitsEq, rfl⟩

theorem coalesce_isSome {word : Nat} (wordEq : s.wordSize = some word)
    (lt : (s.objects.map StorageObject.size).sum < 2 ^ 31)
    (le : (s.objects.map StorageObject.size).sum / word ≤ 2 ^ 30) : ∃ m, s.coalesce = some m := by
  have total := (totalBits_eq_some _).mpr ⟨lt, rfl⟩
  obtain ⟨bits, bitsEq⟩ := Option.isSome_iff_exists.mp ((nAddressBits_eq _).2.mpr le)
  unfold coalesce
  rw [total, Option.bind_eq_bind, Option.bind_some]
  unfold wordSize at wordEq
  split at wordEq
  · next empty =>
      cases wordEq
      rw [Nat.div_one] at bitsEq
      rw [if_pos empty, bitsEq]
      exact ⟨_, rfl⟩
  · next nonempty =>
      obtain ⟨word', gcd, wordEq⟩ := Option.bind_eq_some_iff.mp wordEq
      split at wordEq
      · cases wordEq
      · next nonzero =>
          cases wordEq
          rw [if_neg nonempty, gcd, Option.bind_some, if_neg nonzero, bitsEq]
          exact ⟨_, rfl⟩

theorem dvd_unit {d : Nat} (dvd : ∀ w ∈ s.widths, d ∣ w) (accessed : s.widths ≠ []) : d ∣ s.unit := by
  unfold unit
  rw [if_neg accessed]
  exact dvd_foldr_gcd.mpr dvd

theorem unit_dvd {w : Nat} (mem : w ∈ s.widths) : s.unit ∣ w := by
  unfold unit
  rw [if_neg (List.ne_nil_of_mem mem)]
  exact dvd_foldr_gcd.mp dvd_rfl w mem

theorem wordSize_eq_unit {word : Nat} (eq : s.wordSize = some word) (dvd : ∀ w ∈ s.widths, word ∣ w) :
    word = s.unit := by
  by_cases accessed : s.widths = []
  · unfold wordSize at eq
    rw [if_pos (lauSet_eq_nil.mpr accessed)] at eq
    unfold unit
    rw [if_pos accessed]
    exact (Option.some.inj eq).symm
  · refine Nat.dvd_antisymm (dvd_unit dvd accessed) ?_
    unfold wordSize at eq
    rw [if_neg (mt lauSet_eq_nil.mp accessed)] at eq
    obtain ⟨word', gcd, eq⟩ := Option.bind_eq_some_iff.mp eq
    split at eq
    · cases eq
    · cases eq
      exact dvd_gcdSet (fun w mem => unit_dvd ((mem_lauSet w).mp mem)) gcd

/-- The layout of a memory space is as asked exactly for the admissible storage. -/
theorem layout_sound (s : StorageClass) :
    (∃ m, s.coalesce = some m ∧ LayoutSound s m) ↔ Admissible s := by
  constructor
  · rintro ⟨m, coalesced, sound⟩
    obtain ⟨wordEq, lt, total, address, bases⟩ := coalesce_eq_some m coalesced
    obtain ⟨dvdWidths, dvdSizes⟩ := (layoutSound_iff bases total address).mp sound
    have word := wordSize_eq_unit wordEq dvdWidths
    obtain ⟨pos, chain⟩ := (wordSize_eq_some _).mp wordEq
    have words : m.totalSize ≤ 2 ^ 30 := (nAddressBits_eq _).2.mp (by rw [address]; rfl)
    refine ⟨pos, chain.trans word, fun u mem _ => ?_, lt, ?_⟩
    · rw [← word]
      exact dvdSizes u mem
    · rwa [← word, ← total]
  · intro admissible
    have wordEq := (wordSize_eq_some s.unit).mpr ⟨admissible.width_pos, admissible.remainder⟩
    obtain ⟨m, coalesced⟩ := coalesce_isSome wordEq admissible.total_lt admissible.words_le
    obtain ⟨wordEq', _, total, address, bases⟩ := coalesce_eq_some m coalesced
    have word : m.wordSize = s.unit := Option.some.inj (wordEq'.symm.trans wordEq)
    refine ⟨m, coalesced, (layoutSound_iff bases total address).mpr ⟨fun w mem => ?_, fun u mem => ?_⟩⟩
    · rw [word]
      exact unit_dvd mem
    · rw [word]
      cases accesses : u.accessWidths with
      | nil => exact admissible.dvd_idle u mem accesses
      | cons w rest =>
          have own : w ∈ u.accessWidths := by
            rw [accesses]
            exact List.mem_cons_self
          have access : w ∈ s.widths := List.mem_append_left _ (List.mem_flatMap.mpr ⟨u, mem, own⟩)
          exact (unit_dvd access).trans (u.dvd_size w own)

/-- Objects of six and of ten bits: the word is of four. -/
theorem layout_not_sound :
    let six : StorageObject := ⟨6, [6], by decide⟩
    let ten : StorageObject := ⟨10, [10], by decide⟩
    let s : StorageClass := ⟨[six, ten], []⟩
    (s.coalesce.map fun m => m.wordSize) = some 4 ∧ ¬ ∃ m, s.coalesce = some m ∧ LayoutSound s m := by
  intro six ten s
  refine ⟨by decide, ?_⟩
  rintro ⟨m, coalesced, sound⟩
  have word : s.wordSize = some 4 := by decide
  have four : 4 = m.wordSize := Option.some.inj (word.symm.trans (coalesce_eq_some m coalesced).1)
  have dvd : m.wordSize ∣ 6 := sound.wordSize_dvd 6 (by decide)
  rw [← four] at dvd
  exact absurd dvd (by decide)

end StorageClass
end Ahir.Aa
