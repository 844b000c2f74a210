import Ahir.Hardware.QueueBase

/-!
# The operator package

The procedures that an instance of an operator executes at run time, and the one that
is chosen for each operation of a program.
-/

set_option autoImplicit false

namespace Ahir.Hardware.OperatorPackage
variable {m n : Nat}

inductive Operation where
  | or | and | nor | nand | xor | xnor
  | shl | shr | rol | ror
  | plus | minus | div | mul
  | equal | notEqual | less | lessEqual | greater | greaterEqual
  | concat | bitsel
  deriving DecidableEq

/-- A `std_logic_vector` of some length. -/
abbrev Vector := Σ w : Nat, BitVec w

/-- `To_Unsigned` of the lowest bits of a vector. -/
def toUnsigned (w : Nat) (inp : BitVec n) : BitVec (min w n) := inp.setWidth (min w n)

def apConcat (l : BitVec m) (r : BitVec n) : BitVec (m + n) := l ++ r

def apBitsel (l : BitVec m) (r : BitVec n) : BitVec 1 :=
  let tempInt := (toUnsigned (ceilLog2 m) r).toNat
  (List.range m).foldl (fun result i => if i = tempInt then BitVec.ofBool (l.getLsbD i) else result)
    (BitVec.ofBool false)

def apIntNot (l : BitVec n) : BitVec n := ~~~l
def apIntAdd (l r : BitVec n) : BitVec n := l + r
def apIntSub (l r : BitVec n) : BitVec n := l - r
def apIntAnd (l r : BitVec n) : BitVec n := l &&& r
def apIntNand (l r : BitVec n) : BitVec n := ~~~(l &&& r)
def apIntOr (l r : BitVec n) : BitVec n := l ||| r
def apIntNor (l r : BitVec n) : BitVec n := ~~~(l ||| r)
def apIntXor (l r : BitVec n) : BitVec n := l ^^^ r
def apIntXnor (l r : BitVec n) : BitVec n := ~~~(l ^^^ r)

def apIntMul (l r : BitVec n) : BitVec n := (l.setWidth (n + n) * r.setWidth (n + n)).setWidth n

/-- The positions by which a vector of `m` bits is shifted. -/
def shiftAmount (m : Nat) (r : BitVec n) : Nat := (toUnsigned (ceilLog2 m + 1) r).toNat

def apIntSHL (l : BitVec m) (r : BitVec n) : BitVec m := l <<< shiftAmount m r
def apIntLSHR (l : BitVec m) (r : BitVec n) : BitVec m := l >>> shiftAmount m r
def apIntASHR (l : BitVec m) (r : BitVec n) : BitVec m := l.sshiftRight (shiftAmount m r)
def apIntROL (l : BitVec m) (r : BitVec n) : BitVec m := l.rotateLeft (shiftAmount m r)
def apIntROR (l : BitVec m) (r : BitVec n) : BitVec m := l.rotateRight (shiftAmount m r)

def apIntEq (l r : BitVec n) : BitVec 1 := BitVec.ofBool (l == r)
def apIntNe (l r : BitVec n) : BitVec 1 := BitVec.ofBool !(l == r)
def apIntUgt (l r : BitVec n) : BitVec 1 := BitVec.ofBool (r.ult l)
def apIntUge (l r : BitVec n) : BitVec 1 := BitVec.ofBool (r.ule l)
def apIntUlt (l r : BitVec n) : BitVec 1 := BitVec.ofBool (l.ult r)
def apIntUle (l r : BitVec n) : BitVec 1 := BitVec.ofBool (l.ule r)
def apIntSgt (l r : BitVec n) : BitVec 1 := BitVec.ofBool (r.slt l)
def apIntSge (l r : BitVec n) : BitVec 1 := BitVec.ofBool (r.sle l)
def apIntSlt (l r : BitVec n) : BitVec 1 := BitVec.ofBool (l.slt r)
def apIntSle (l r : BitVec n) : BitVec 1 := BitVec.ofBool (l.sle r)

def ofOneLength (f : {k : Nat} → BitVec k → BitVec k → Vector) (l : BitVec m) (r : BitVec n) : Option Vector :=
  if same : n = m then some (f l (r.cast same)) else none

/-- The procedure of an operation, the signed one where the operands are signed and there
is one; a division has none. -/
def twoInputOperation (op : Operation) (signed : Bool) (l : BitVec m) (r : BitVec n) : Option Vector :=
  match op with
  | .or => ofOneLength (fun l r => ⟨_, apIntOr l r⟩) l r
  | .and => ofOneLength (fun l r => ⟨_, apIntAnd l r⟩) l r
  | .nor => ofOneLength (fun l r => ⟨_, apIntNor l r⟩) l r
  | .nand => ofOneLength (fun l r => ⟨_, apIntNand l r⟩) l r
  | .xor => ofOneLength (fun l r => ⟨_, apIntXor l r⟩) l r
  | .xnor => ofOneLength (fun l r => ⟨_, apIntXnor l r⟩) l r
  | .shl => some ⟨_, apIntSHL l r⟩
  | .shr => some ⟨_, if signed then apIntASHR l r else apIntLSHR l r⟩
  | .rol => some ⟨_, apIntROL l r⟩
  | .ror => some ⟨_, apIntROR l r⟩
  | .plus => ofOneLength (fun l r => ⟨_, apIntAdd l r⟩) l r
  | .minus => ofOneLength (fun l r => ⟨_, apIntSub l r⟩) l r
  | .div => none
  | .mul => ofOneLength (fun l r => ⟨_, apIntMul l r⟩) l r
  | .equal => ofOneLength (fun l r => ⟨_, apIntEq l r⟩) l r
  | .notEqual => ofOneLength (fun l r => ⟨_, apIntNe l r⟩) l r
  | .less => ofOneLength (fun l r => ⟨_, if signed then apIntSlt l r else apIntUlt l r⟩) l r
  | .lessEqual => ofOneLength (fun l r => ⟨_, if signed then apIntSle l r else apIntUle l r⟩) l r
  | .greater => ofOneLength (fun l r => ⟨_, if signed then apIntSgt l r else apIntUgt l r⟩) l r
  | .greaterEqual => ofOneLength (fun l r => ⟨_, if signed then apIntSge l r else apIntUge l r⟩) l r
  | .concat => some ⟨_, apConcat l r⟩
  | .bitsel => some ⟨_, apBitsel l r⟩

theorem toNat_toUnsigned {w : Nat} {inp : BitVec n} (fits : inp.toNat < 2 ^ w) :
    (toUnsigned w inp).toNat = inp.toNat := by
  unfold toUnsigned
  rw [BitVec.toNat_setWidth]
  have both : inp.toNat < 2 ^ min w n := by
    rcases Nat.le_total w n with le | le
    · rwa [Nat.min_eq_left le]
    · rw [Nat.min_eq_right le]
      exact inp.isLt
  exact Nat.mod_eq_of_lt both

theorem apIntMul_eq (l r : BitVec n) : apIntMul l r = l * r := by
  have le : n ≤ n + n := Nat.le_add_right n n
  unfold apIntMul
  rw [BitVec.setWidth_mul _ _ le, BitVec.setWidth_setWidth_of_le _ le, BitVec.setWidth_setWidth_of_le _ le,
    BitVec.setWidth_eq, BitVec.setWidth_eq]

theorem foldl_select (f : Nat → BitVec 1) (k : Nat) (start : BitVec 1) (i : Nat) :
    (List.range k).foldl (fun result j => if j = i then f j else result) start = if i < k then f i else start := by
  induction k with
  | zero => rfl
  | succ k ih =>
      rw [List.range_succ, List.foldl_append, ih, List.foldl_cons, List.foldl_nil]
      by_cases last : k = i
      · rw [if_pos last, if_pos (by omega), last]
      · rw [if_neg last]
        have : (i < k + 1) = (i < k) := by rw [eq_iff_iff]; omega
        simp only [this]

theorem apBitsel_eq {l : BitVec m} {r : BitVec n} (inside : r.toNat < m) :
    apBitsel l r = BitVec.ofBool (l.getLsbD r.toNat) := by
  have index : (toUnsigned (ceilLog2 m) r).toNat = r.toNat :=
    toNat_toUnsigned (inside.trans_le (le_two_pow_ceilLog2 m))
  unfold apBitsel
  dsimp only
  rw [index, foldl_select (fun j => BitVec.ofBool (l.getLsbD j)), if_pos inside]

/-- Vectors of one sign are ordered alike as signed and as unsigned ones. -/
theorem slt_of_sameSign {l r : BitVec n} (sameSign : l.msb = r.msb) : l.slt r = l.ult r := by
  rw [BitVec.slt_eq_ult, sameSign, bne_self_eq_false, Bool.false_xor]

theorem sle_of_sameSign {l r : BitVec n} (sameSign : l.msb = r.msb) : l.sle r = l.ule r := by
  rw [BitVec.sle_eq_ule, sameSign, bne_self_eq_false, Bool.false_xor]

end Ahir.Hardware.OperatorPackage
