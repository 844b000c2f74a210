import Mathlib.Data.Int.Bitwise
import Ahir.Value.Compare
import Ahir.Value.Rearrange

/-!
# Evaluation of constant expressions

The values of constants are objects of the classes of `rtlValue`; those of vectors
point to a `Value` of the library, and a copy points to the same one.  None of the
classes says its name in `Kind()`.
-/

set_option autoImplicit false

namespace Ahir.Rtl
open Ahir.Data Ahir.Value

inductive RtlOperation where
  | nop | not
  | or | and | xor | nor | nand | xnor
  | shl | shr | ror | rol
  | equal | notEqual | less | lessEqual | greater | greaterEqual
  | plus | minus | mul | div
  | concat | pow
  deriving DecidableEq

/-- An `rtlIntegerValue`, or an `rtlUnsignedValue` or `rtlSignedValue` with its pointer `_value`.
No operation looks at `_type`, which the constructor does not set. -/
inductive RtlValue where
  | integer (value : BitVec 32)
  | unsigned (value : Nat)
  | signed (value : Nat)
  deriving DecidableEq

namespace RtlValue

/-- `Kind()`, of the class `hierRoot`. -/
def kind (_ : RtlValue) : String := "hierRoot"

def is (v : RtlValue) (k : String) : Bool := k == v.kind

def pointer : RtlValue → Option Nat
  | integer _ => none
  | unsigned p => some p
  | signed p => some p

end RtlValue

/-- The objects of the classes of `rtlValue`, and those of the classes of `Value`. -/
structure Memory where
  objects : List RtlValue
  values : List Unsigned

/-- What a function that returns an `rtlValue*` leaves: without a return statement, nothing. -/
inductive Returned where
  | pointer (o : Nat)
  | null
  | nothing
  deriving DecidableEq

/-- The methods of `rtlIntegerValue`, as they are there, with shifts by amounts below 32;
the others are those of `rtlValue` and stop at an assertion. -/
def integerMethod : RtlOperation → Option (BitVec 32 → BitVec 32 → BitVec 32)
  | .and => some fun v other => v &&& other
  | .or => some fun v other => v ||| other
  | .xor => some fun v other => v ^^^ other
  | .nand => some fun v other => ~~~(v &&& other)
  | .nor => some fun v other => ~~~(v ||| other)
  | .xnor => some fun v other => ~~~(v ^^^ other)
  | .shl => some fun v other => v <<< other
  | .shr => some fun v other => v.sshiftRight other.toNat
  | .plus => some fun v other => v + other
  | .minus => some fun v other => v + other
  | .mul => some fun v other => v + other
  | _ => none

/-- The methods of `rtlUnsignedValue` with a second `Value`, and what they assert of its object;
`rtlSignedValue` has its own arithmetic. -/
def valueMethod (isSigned : Bool) : RtlOperation → Option (String × (Unsigned → Unsigned → Unsigned))
  | .and => some ("rtlUnsignedValue", Unsigned.and)
  | .or => some ("rtlUnsignedValue", Unsigned.or)
  | .xor => some ("rtlUnsignedValue", Unsigned.xor)
  | .nand => some ("rtlUnsignedValue", Unsigned.nand)
  | .nor => some ("rtlUnsignedValue", Unsigned.nor)
  | .xnor => some ("rtlUnsignedValue", Unsigned.xnor)
  | .plus => some (if isSigned then "rtlSignedValue" else "rtlUnsignedValue", Unsigned.add)
  | .minus => some (if isSigned then "rtlSignedValue" else "rtlUnsignedValue", Unsigned.subtract)
  | .mul =>
      if isSigned then some ("rtlSignedValue", fun u other => (u.multiply other).signExtend)
      else some ("rtlUnsignedValue", Unsigned.multiply)
  | .concat => some ("rtlUnsignedValue", Unsigned.concatenate)
  | _ => none

def shiftMethod (fuel : Nat) : RtlOperation → Option (Unsigned → Int → Option Unsigned)
  | .shl => some fun u amount => some (u.shiftLeft amount)
  | .shr => some fun u amount => some (u.shiftRight amount)
  | .rol => some fun u amount => u.rotateLeft fuel amount
  | .ror => some fun u amount => u.rotateRight fuel amount
  | _ => none

namespace Memory

def value (m : Memory) (o : Nat) : Option Unsigned := do
  let v ← m.objects[o]?
  let p ← v.pointer
  m.values[p]?

def setValue (m : Memory) (o : Nat) (u : Unsigned) : Option Memory := do
  let v ← m.objects[o]?
  let p ← v.pointer
  some { m with values := m.values.set p u }

def toInteger (m : Memory) (o : Nat) : Option Int := do
  match ← m.objects[o]? with
  | .integer v => some v.toInt
  | _ => (← m.value o).toInt

def copy (m : Memory) (o : Nat) : Option (Memory × Nat) := do
  let v ← m.objects[o]?
  some ({ m with objects := m.objects ++ [v] }, m.objects.length)

def operand (m : Memory) (className : String) (o : Nat) : Option Unsigned := do
  let v ← m.objects[o]?
  if v.is className then m.value o else none

def method (fuel : Nat) (op : RtlOperation) (this other : Nat) (m : Memory) : Option Memory := do
  match ← m.objects[this]? with
  | .integer v =>
      let update ← integerMethod op
      let amount ← m.toInteger other
      some { m with objects := m.objects.set this (.integer (update v (BitVec.ofInt 32 amount))) }
  | v =>
      let u ← m.value this
      match shiftMethod fuel op with
      | some shift => m.setValue this (← shift u (← m.toInteger other))
      | none =>
          let (className, update) ← valueMethod (v matches .signed _) op
          m.setValue this (update u (← m.operand className other))

/-- `Greater`, `Less` and `Equal`. -/
def comparison (op : RtlOperation) (this other : Nat) (m : Memory) : Option Bool := do
  match ← m.objects[this]?, op with
  | .integer v, .greater => some (decide (v.toInt > (← m.toInteger other)))
  | .integer v, .less => some (decide (v.toInt < (← m.toInteger other)))
  | .integer v, .equal => some (decide (v.toInt = (← m.toInteger other)))
  | .unsigned _, .greater => some ((← m.value this).greater (← m.operand "rtlUnsignedValue" other))
  | .unsigned _, .less => some ((← m.value this).lessThan (← m.operand "rtlUnsignedValue" other))
  | .signed _, .greater => some (Signed.greater (← m.value this) (← m.operand "rtlSignedValue" other))
  | .signed _, .less => some (Signed.lessThan (← m.value this) (← m.operand "rtlSignedValue" other))
  | _, .equal => some ((← m.value this).equal (← m.operand "rtlUnsignedValue" other))
  | _, _ => none

def predicate (op : RtlOperation) (this other : Nat) (m : Memory) : Option Bool :=
  match op with
  | .greaterEqual => (m.comparison .less this other).map (!·)
  | .lessEqual => (m.comparison .greater this other).map (!·)
  | .notEqual => (m.comparison .equal this other).map (!·)
  | op => m.comparison op this other

/-- `Resize(1)` and `Set_Bit(0, rv)`; an integer has neither. -/
def setResult (this : Nat) (rv : Bool) (m : Memory) : Option Memory := do
  let u ← m.value this
  m.setValue this ((u.resize 1 Nat.one_pos).setBit 0 rv)

def performUnaryOperation (op : RtlOperation) (o : Nat) (m : Memory) : Option (Memory × Returned) := do
  let v ← m.objects[o]?
  if op = .not ∧ v.is "rtlUnsignedValue" then
    let u ← m.value o
    some ({ objects := m.objects ++ [.unsigned m.values.length], values := m.values ++ [u.complement] },
      .pointer m.objects.length)
  else some (m, .null)

/-- `Perform_Binary_Operation`; after the `switch` the function ends. -/
def performBinaryOperation (fuel : Nat) (op : RtlOperation) (f s : Nat) (m : Memory) :
    Option (Memory × Returned) := do
  let (m, result) ← m.copy f
  match op with
  | .or | .and | .xor | .nor | .nand | .xnor | .shl | .shr | .ror | .rol | .plus | .minus | .mul | .concat =>
      some (← m.method fuel op result s, .nothing)
  | .equal | .notEqual | .less | .lessEqual | .greater | .greaterEqual =>
      some (← m.setResult result (← m.predicate op result s), .nothing)
  | .nop | .not | .div | .pow => some (m, .nothing)

end Memory

inductive Constant where
  | integer (value : Int)
  | unsigned (width : Nat) (value : BitVec width)
  | signed (width : Nat) (value : BitVec width)
  deriving DecidableEq

namespace Constant

def number : Constant → Int
  | integer v => v
  | unsigned _ x => x.toNat
  | signed _ x => x.toInt

def SameType : Constant → Constant → Prop
  | integer _, integer _ => True
  | unsigned m _, unsigned n _ => m = n
  | signed m _, signed n _ => m = n
  | _, _ => False

instance (a b : Constant) : Decidable (SameType a b) := by
  cases a <;> cases b <;> unfold SameType <;> infer_instance

/-- The constant of the type of `a` for a number, modulo `2^n` where the width is `n`. -/
def ofNumber (a : Constant) (v : Int) : Constant :=
  match a with
  | integer _ => integer v
  | unsigned n _ => unsigned n (BitVec.ofInt n v)
  | signed n _ => signed n (BitVec.ofInt n v)

def logical : RtlOperation → Option (Bool → Bool → Bool)
  | .or => some fun x y => x || y
  | .and => some fun x y => x && y
  | .xor => some fun x y => x ^^ y
  | .nor => some fun x y => !(x || y)
  | .nand => some fun x y => !(x && y)
  | .xnor => some fun x y => !(x ^^ y)
  | _ => none

def arithmetic : RtlOperation → Option (Int → Int → Int)
  | .plus => some fun x y => x + y
  | .minus => some fun x y => x - y
  | .mul => some fun x y => x * y
  | .div => some Int.tdiv
  | _ => none

def relation : RtlOperation → Option (Int → Int → Bool)
  | .equal => some fun x y => decide (x = y)
  | .notEqual => some fun x y => decide (x ≠ y)
  | .less => some fun x y => decide (x < y)
  | .lessEqual => some fun x y => decide (x ≤ y)
  | .greater => some fun x y => decide (x > y)
  | .greaterEqual => some fun x y => decide (x ≥ y)
  | _ => none

def bitwise (g : Bool → Bool → Bool) : Constant → Constant → Option Constant
  | integer v, integer w => some (integer (Int.bitwise g v w))
  | unsigned m x, unsigned _ y => some (unsigned m (lowBits m fun i => g (x.getLsbD i) (y.getLsbD i)))
  | signed m x, signed _ y => some (signed m (lowBits m fun i => g (x.getLsbD i) (y.getLsbD i)))
  | _, _ => none

def rotated (rotate : {n : Nat} → BitVec n → Nat → BitVec n) (amount : Nat) : Constant → Option Constant
  | integer _ => none
  | unsigned n x => some (unsigned n (rotate x amount))
  | signed n x => some (signed n (rotate x amount))

/-- The mathematical result of an operation with one operand. -/
def unary (op : RtlOperation) (a : Constant) : Option Constant :=
  match op with
  | .not => some (a.ofNumber (-a.number - 1))
  | _ => none

/-- The mathematical result of an operation with two operands, where there is one. -/
def binary (op : RtlOperation) (a b : Constant) : Option Constant :=
  match op with
  | .or | .and | .xor | .nor | .nand | .xnor => do
      let g ← logical op
      if a.SameType b then bitwise g a b else none
  | .plus | .minus | .mul | .div => do
      let g ← arithmetic op
      if a.SameType b ∧ (op = .div → b.number ≠ 0) then some (a.ofNumber (g a.number b.number)) else none
  | .equal | .notEqual | .less | .lessEqual | .greater | .greaterEqual => do
      let r ← relation op
      if a.SameType b then some (unsigned 1 (BitVec.ofBool (r a.number b.number))) else none
  | .shl => if b.number < 0 then none else some (a.ofNumber (a.number * 2 ^ b.number.toNat))
  | .shr => if b.number < 0 then none else some (a.ofNumber (a.number / 2 ^ b.number.toNat))
  | .rol => if b.number < 0 then none else rotated BitVec.rotateLeft b.number.toNat a
  | .ror => if b.number < 0 then none else rotated BitVec.rotateRight b.number.toNat a
  | .pow => if b.number < 0 then none else some (a.ofNumber (a.number ^ b.number.toNat))
  | .concat =>
      match a, b with
      | unsigned m x, unsigned n y => some (unsigned (m + n) (x ++ y))
      | signed m x, signed n y => some (signed (m + n) (x ++ y))
      | _, _ => none
  | .nop | .not => none

end Constant

namespace Memory

def constantAt (m : Memory) (o : Nat) : Option Constant := do
  match ← m.objects[o]? with
  | .integer v => some (.integer v.toInt)
  | .unsigned p => (m.values[p]?).map fun u => .unsigned u.width (u.residue u.width)
  | .signed p => (m.values[p]?).map fun u => .signed u.width (u.residue u.width)

/-- The evaluation returns a new object with the result, and the operands keep their values. -/
def Exact (m : Memory) (operands : List Nat) (result : Option Constant) (outcome : Option (Memory × Returned)) :
    Prop :=
  ∃ m' o c, outcome = some (m', .pointer o) ∧ m.objects.length ≤ o ∧ result = some c ∧ m'.constantAt o = some c ∧
    ∀ operand ∈ operands, m'.constantAt operand = m.constantAt operand

end Memory

inductive ConstantExpression where
  | constant (o : Nat)
  | unary (op : RtlOperation) (rest : ConstantExpression)
  | binary (op : RtlOperation) (first second : ConstantExpression)

namespace ConstantExpression

/-- `Evaluate`, with the value that it leaves; to read a pointer that was not returned is undefined. -/
def evaluate (fuel : Nat) : ConstantExpression → Memory → Option (Memory × Returned)
  | constant o, m => some (m, .pointer o)
  | unary op rest, m => do
      let (m, bv) ← rest.evaluate fuel m
      match bv with
      | .null => some (m, .null)
      | .pointer o => m.performUnaryOperation op o
      | .nothing => none
  | binary op first second, m => do
      let (m, fv) ← first.evaluate fuel m
      let (m, sv) ← second.evaluate fuel m
      match fv, sv with
      | .pointer f, .pointer s => m.performBinaryOperation fuel op f s
      | .null, _ => some (m, .null)
      | .pointer _, .null => some (m, .null)
      | _, _ => none

def constants : ConstantExpression → List Nat
  | constant o => [o]
  | unary _ rest => rest.constants
  | binary _ first second => first.constants ++ second.constants

def meaning (m : Memory) : ConstantExpression → Option Constant
  | constant o => m.constantAt o
  | unary op rest => do Constant.unary op (← rest.meaning m)
  | binary op first second => do Constant.binary op (← first.meaning m) (← second.meaning m)

def isOperation : ConstantExpression → Bool
  | constant _ => false
  | _ => true

end ConstantExpression

section Evaluation
variable {m m' : Memory} {op : RtlOperation} {o f s fuel : Nat} {v : RtlValue} {returned : Returned}

/-- The name that is asked for is not the one that `Kind()` has. -/
theorem RtlValue.is_unsigned (v : RtlValue) : v.is "rtlUnsignedValue" = false := by
  change ("rtlUnsignedValue" == "hierRoot") = false
  decide

namespace Memory

theorem performUnaryOperation_eq (isObject : m.objects[o]? = some v) :
    m.performUnaryOperation op o = some (m, .null) := by
  rw [performUnaryOperation, isObject]
  simp [v.is_unsigned]

theorem performUnaryOperation_returned (done : m.performUnaryOperation op o = some (m', returned)) :
    returned = .null := by
  cases isObject : m.objects[o]? with
  | none =>
      rw [performUnaryOperation, isObject] at done
      exact absurd done (by simp)
  | some v =>
      rw [performUnaryOperation_eq isObject] at done
      exact (Prod.mk.inj (Option.some.inj done)).2.symm

/-- What has happened when the `switch` is left: the method or the comparison was of the copy. -/
theorem performBinaryOperation_cases (done : m.performBinaryOperation fuel op f s = some (m', returned)) :
    returned = .nothing ∧ ∃ v, m.objects[f]? = some v ∧
      (method fuel op m.objects.length s { m with objects := m.objects ++ [v] } = some m' ∨
        (∃ rv, setResult m.objects.length rv { m with objects := m.objects ++ [v] } = some m') ∨
        m' = { m with objects := m.objects ++ [v] }) := by
  unfold performBinaryOperation copy at done
  cases isObject : m.objects[f]? with
  | none =>
      rw [isObject] at done
      exact absurd done (by simp)
  | some v =>
      rw [isObject] at done
      simp only [Option.bind_eq_bind, Option.bind_some] at done
      cases op
      case or | and | xor | nor | nand | xnor | shl | shr | ror | rol | plus | minus | mul | concat =>
        obtain ⟨after, isDone, same⟩ := Option.bind_eq_some_iff.mp done
        obtain ⟨rfl, rfl⟩ := Prod.mk.inj (Option.some.inj same)
        exact ⟨rfl, v, rfl, Or.inl isDone⟩
      case equal | notEqual | less | lessEqual | greater | greaterEqual =>
        obtain ⟨rv, -, isDone⟩ := Option.bind_eq_some_iff.mp done
        obtain ⟨after, isSet, same⟩ := Option.bind_eq_some_iff.mp isDone
        obtain ⟨rfl, rfl⟩ := Prod.mk.inj (Option.some.inj same)
        exact ⟨rfl, v, rfl, Or.inr (Or.inl ⟨rv, isSet⟩)⟩
      case nop | not | div | pow =>
        obtain ⟨rfl, rfl⟩ := Prod.mk.inj (Option.some.inj done)
        exact ⟨rfl, v, rfl, Or.inr (Or.inr rfl)⟩

/-- The objects of vectors stay as they are; a change is made in a `Value`. -/
theorem objects_setValue {u : Unsigned} (done : m.setValue o u = some m') : m'.objects = m.objects := by
  unfold setValue at done
  obtain ⟨v, -, found⟩ := Option.bind_eq_some_iff.mp done
  obtain ⟨p, -, isSet⟩ := Option.bind_eq_some_iff.mp found
  obtain rfl := Option.some.inj isSet
  rfl

theorem objects_setResult {rv : Bool} (done : m.setResult o rv = some m') : m'.objects = m.objects := by
  unfold setResult at done
  obtain ⟨u, -, isSet⟩ := Option.bind_eq_some_iff.mp done
  exact objects_setValue isSet

theorem objects_method {p : Nat} (isObject : m.objects[o]? = some v) (isVector : v.pointer = some p)
    (done : m.method fuel op o s = some m') : m'.objects = m.objects := by
  unfold method at done
  simp only [isObject, Option.bind_eq_bind, Option.bind_some] at done
  cases v with
  | integer => exact absurd isVector (by simp [RtlValue.pointer])
  | unsigned | signed =>
      obtain ⟨u, -, found⟩ := Option.bind_eq_some_iff.mp done
      cases isShift : shiftMethod fuel op with
      | some shift =>
          rw [isShift] at found
          obtain ⟨amount, -, found⟩ := Option.bind_eq_some_iff.mp found
          obtain ⟨shifted, -, isSet⟩ := Option.bind_eq_some_iff.mp found
          exact objects_setValue isSet
      | none =>
          rw [isShift] at found
          obtain ⟨update, -, found⟩ := Option.bind_eq_some_iff.mp found
          obtain ⟨other, -, isSet⟩ := Option.bind_eq_some_iff.mp found
          exact objects_setValue isSet

/-- The first operand has the value of the copy, whatever was done to that. -/
theorem performBinaryOperation_shares {p : Nat} (isObject : m.objects[f]? = some v) (isVector : v.pointer = some p)
    (done : m.performBinaryOperation fuel op f s = some (m', returned)) :
    m'.value f = m'.value m.objects.length := by
  obtain ⟨-, v', isObject', change⟩ := performBinaryOperation_cases done
  obtain rfl := Option.some.inj (isObject.symm.trans isObject')
  have last : (m.objects ++ [v])[m.objects.length]? = some v := List.getElem?_concat_length
  have objects : m'.objects = m.objects ++ [v] := by
    rcases change with method | ⟨rv, isSet⟩ | rfl
    · exact objects_method last isVector method
    · exact objects_setResult isSet
    · rfl
  have inside : f < m.objects.length := (List.getElem?_eq_some_iff.mp isObject).1
  unfold value
  rw [objects, last, List.getElem?_append_left inside, isObject]

end Memory

theorem ConstantExpression.evaluate_returned {e : ConstantExpression} (isOperation : e.isOperation = true)
    (done : e.evaluate fuel m = some (m', returned)) : returned ≠ .pointer o := by
  cases e with
  | constant => exact absurd isOperation (by simp [ConstantExpression.isOperation])
  | unary op rest =>
      obtain ⟨⟨m₁, bv⟩, -, performed⟩ := Option.bind_eq_some_iff.mp done
      cases bv with
      | null =>
          obtain ⟨rfl, rfl⟩ := Prod.mk.inj (Option.some.inj performed)
          simp
      | pointer operand =>
          rw [Memory.performUnaryOperation_returned performed]
          simp
      | nothing => exact absurd performed (by simp)
  | binary op first second =>
      obtain ⟨⟨m₁, fv⟩, -, rest⟩ := Option.bind_eq_some_iff.mp done
      obtain ⟨⟨m₂, sv⟩, -, performed⟩ := Option.bind_eq_some_iff.mp rest
      cases fv <;> cases sv <;> simp only [reduceCtorEq, Option.some.injEq, Prod.mk.injEq] at performed
      case pointer.pointer f s =>
        rw [(Memory.performBinaryOperation_cases performed).1]
        simp
      all_goals
        obtain ⟨-, rfl⟩ := performed
        simp

/-- No operation is evaluated as it should be: of one operand none is performed, and
of two none returns. -/
theorem constantEvaluation_never_exact (m : Memory) (fuel : Nat) :
    (∀ op o, ¬ m.Exact [o] (m.constantAt o >>= Constant.unary op) (m.performUnaryOperation op o)) ∧
    (∀ op f s, ¬ m.Exact [f, s] (do Constant.binary op (← m.constantAt f) (← m.constantAt s))
      (m.performBinaryOperation fuel op f s)) ∧
    ∀ e : ConstantExpression, e.isOperation = true → ¬ m.Exact e.constants (e.meaning m) (e.evaluate fuel m) := by
  refine ⟨?_, ?_, ?_⟩
  · rintro op o ⟨m', new, c, done, -⟩
    exact absurd (Memory.performUnaryOperation_returned done) (by simp)
  · rintro op f s ⟨m', new, c, done, -⟩
    exact absurd (Memory.performBinaryOperation_cases done).1 (by simp)
  · rintro e isOperation ⟨m', new, c, done, -⟩
    exact ConstantExpression.evaluate_returned isOperation done rfl

end Evaluation

/-- Two constants `0001` of four bits. -/
def twoConstants : Memory :=
  { objects := [.unsigned 0, .unsigned 1], values := [Unsigned.oneVal 4 (by decide), Unsigned.oneVal 4 (by decide)] }

/-- A shift of the first by the second has no value, and the first is 2 afterwards. -/
theorem shl_changes_constant :
    ¬ twoConstants.Exact [0, 1] (do Constant.binary .shl (← twoConstants.constantAt 0) (← twoConstants.constantAt 1))
      (twoConstants.performBinaryOperation 0 .shl 0 1) ∧
    twoConstants.constantAt 0 = some (.unsigned 4 1) ∧
    (twoConstants.performBinaryOperation 0 .shl 0 1).bind (fun after => after.1.constantAt 0) =
      some (.unsigned 4 2) := by
  refine ⟨?_, by decide +kernel, by decide +kernel⟩
  rintro ⟨m', o, c, done, -⟩
  exact absurd (Memory.performBinaryOperation_cases done).1 (by simp)

end Ahir.Rtl
