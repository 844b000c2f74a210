import Ahir.Rtl.Expression

/-!
# Expressions in VHDL

The VHDL text of an expression, as a tree, and its value under the packages that the text
uses.  A text that the language does not allow has none.
-/

set_option autoImplicit false

namespace Ahir.Rtl
open Ahir.Data Ahir.BitVectors

inductive VhdlInfix where
  | or | and | xor | concat | plus | minus | times | equal

inductive VhdlFunction where
  | toSlv | toUnsigned | toSigned | toInteger
  | shiftLeft | rotateLeft | rotateRight
  | areEqual | uLessThan | sLessThan | uLessEqual | sLessEqual | uGreaterThan | sGreaterThan
  | uGreaterEqual | sGreaterEqual
  deriving DecidableEq

/-- A text; `terminated` has a semicolon at its end. -/
inductive Vhdl where
  | string {n : Nat} (value : BitVec n)
  | integer (value : Nat)
  | name (id : String)
  | slice (base : Vhdl) (high low : Nat)
  | not (rest : Vhdl)
  | infixed (op : VhdlInfix) (first second : Vhdl)
  | call (function : VhdlFunction) (argument : Vhdl)
  | call2 (function : VhdlFunction) (first second : Vhdl)
  | mux2To1 (sel x y : Vhdl)
  | terminated (text : Vhdl)

namespace Vhdl

def numeric (conversion : VhdlFunction) (op : VhdlInfix) (first second : Vhdl) : Vhdl :=
  .call .toSlv (.infixed op (.call conversion first) (.call conversion second))

def shifted (function conversion : VhdlFunction) (first second : Vhdl) (size : Nat) : Vhdl :=
  .terminated (.call .toSlv (.call2 function (.call conversion first)
    (.call .toInteger (.call2 conversion second (.integer size)))))

/-- `rtlBinaryExpression::To_Vhdl_String`, where the type is that of the result; a division
stops the program. -/
def ofBinary (op : Operation) (type : RtlType) (first second : Vhdl) (size : Nat) : Option Vhdl :=
  match op with
  | .or => some (.infixed .or first second)
  | .and => some (.infixed .and first second)
  | .xor => some (.infixed .xor first second)
  | .nor => some (.not (.infixed .or first second))
  | .nand => some (.not (.infixed .and first second))
  | .xnor => some (.not (.infixed .xor first second))
  | .shl => some (shifted .shiftLeft .toUnsigned first second size)
  | .shr => some (shifted .shiftLeft (if type.signed then .toSigned else .toUnsigned) first second size)
  | .ror => some (shifted .rotateRight .toUnsigned first second size)
  | .rol => some (shifted .rotateLeft .toUnsigned first second size)
  | .equal => some (.call2 .areEqual first second)
  | .notEqual => some (.not (.call2 .areEqual first second))
  | .less => some (.call (if type.signed then .sLessThan else .uLessThan) (.infixed .equal first second))
  | .lessEqual => some (.call (if type.signed then .sLessEqual else .uLessEqual) (.infixed .equal first second))
  | .greater => some (.call (if type.signed then .sGreaterThan else .uGreaterThan) (.infixed .equal first second))
  | .greaterEqual => some (.call (if type.signed then .sGreaterEqual else .uGreaterEqual) (.infixed .equal first second))
  | .plus => some (numeric (if type.signed then .toSigned else .toUnsigned) .plus first second)
  | .minus => some (numeric (if type.signed then .toSigned else .toUnsigned) .minus first second)
  | .mul => some (numeric (if type.signed then .toSigned else .toUnsigned) .times first second)
  | .concat => some (.infixed .concat first second)
  | .div => none

/-- `To_Vhdl_String` -/
def ofExpression : Expression → Option Vhdl
  | .literal _ value => some (.string value)
  | .object id _ => some (.name id)
  | .slice base high low => (ofExpression base).map fun base => .slice base high low
  | .not rest => (ofExpression rest).map .not
  | .binary op first second =>
      (ofExpression first).bind fun f => (ofExpression second).bind fun s =>
        ofBinary op (inferType op first.type second.type) f s first.type.width
  | .ternary test ifTrue ifFalse =>
      (ofExpression test).bind fun t => (ofExpression ifTrue).bind fun x => (ofExpression ifFalse).map fun y =>
        .mux2To1 t x y

end Vhdl

/-- A value; of a vector whose indices go down also the lowest one is known. -/
inductive VhdlValue where
  | slv (n : Nat) (value : BitVec n) (lowest : Option Nat)
  | unsigned (n : Nat) (value : BitVec n)
  | signed (n : Nat) (value : BitVec n)
  | integer (value : Int)
  | boolean (value : Bool)

namespace VhdlValue

def logical (op : {n : Nat} → BitVec n → BitVec n → BitVec n) : VhdlValue → VhdlValue → Option VhdlValue
  | .slv m x _, .slv n y _ => if same : n = m then some (.slv m (op x (y.cast same)) none) else none
  | _, _ => none

/-- An operator of `numeric_std`, on operands that are extended to one length. -/
def arithmetic (op : {n : Nat} → BitVec n → BitVec n → BitVec n) (length : Nat → Nat → Nat) :
    VhdlValue → VhdlValue → Option VhdlValue
  | .unsigned m x, .unsigned n y => some (.unsigned (length m n) (op (x.setWidth (length m n)) (y.setWidth (length m n))))
  | .signed m x, .signed n y => some (.signed (length m n) (op (x.signExtend (length m n)) (y.signExtend (length m n))))
  | _, _ => none

def ofInfix : VhdlInfix → VhdlValue → VhdlValue → Option VhdlValue
  | .or => logical fun x y => x ||| y
  | .and => logical fun x y => x &&& y
  | .xor => logical fun x y => x ^^^ y
  | .plus => arithmetic (fun x y => x + y) max
  | .minus => arithmetic (fun x y => x - y) max
  | .times => arithmetic (fun x y => x * y) (· + ·)
  | .concat => fun
      | .slv m x _, .slv n y _ => some (.slv (m + n) (x ++ y) none)
      | _, _ => none
  | .equal => fun
      | .slv m x _, .slv n y _ => some (.boolean (if same : n = m then decide (x = y.cast same) else false))
      | _, _ => none

def ofCall : VhdlFunction → VhdlValue → Option VhdlValue
  | .toUnsigned, .slv n x _ => some (.unsigned n x)
  | .toSigned, .slv n x _ => some (.signed n x)
  | .toSlv, .unsigned n x => some (.slv n x none)
  | .toSlv, .signed n x => some (.slv n x none)
  | .toInteger, .unsigned _ x => some (.integer x.toNat)
  | .toInteger, .signed _ x => some (.integer x.toInt)
  | _, _ => none

def answer (b : Bool) : VhdlValue := .slv 1 (BitVec.ofBool b) (some 0)

def ofCall2 : VhdlFunction → VhdlValue → VhdlValue → Option VhdlValue
  | .areEqual, .slv m x _, .slv n y _ => some (answer (if same : n = m then decide (x = y.cast same) else false))
  | .uLessThan, .slv _ x _, .slv _ y _ => some (answer (decide (x.toNat < y.toNat)))
  | .uLessEqual, .slv _ x _, .slv _ y _ => some (answer (decide (x.toNat ≤ y.toNat)))
  | .uGreaterThan, .slv _ x _, .slv _ y _ => some (answer (decide (x.toNat > y.toNat)))
  | .uGreaterEqual, .slv _ x _, .slv _ y _ => some (answer (decide (x.toNat ≥ y.toNat)))
  | .sLessThan, .slv _ x _, .slv _ y _ => some (answer (decide (x.toInt < y.toInt)))
  | .sLessEqual, .slv _ x _, .slv _ y _ => some (answer (decide (x.toInt ≤ y.toInt)))
  | .sGreaterThan, .slv _ x _, .slv _ y _ => some (answer (decide (x.toInt > y.toInt)))
  | .sGreaterEqual, .slv _ x _, .slv _ y _ => some (answer (decide (x.toInt ≥ y.toInt)))
  | .shiftLeft, .unsigned n x, .integer (.ofNat k) => some (.unsigned n (x <<< k))
  | .shiftLeft, .signed n x, .integer (.ofNat k) => some (.signed n (x <<< k))
  | .rotateLeft, .unsigned n x, .integer (.ofNat k) => some (.unsigned n (x.rotateLeft k))
  | .rotateRight, .unsigned n x, .integer (.ofNat k) => some (.unsigned n (x.rotateRight k))
  | _, _, _ => none

/-- `Mux2To1`, which looks at the last bit of `sel`. -/
def mux2To1 : VhdlValue → VhdlValue → VhdlValue → Option VhdlValue
  | .slv _ sel _, .slv m x _, .slv n y _ =>
      if same : n = m then some (.slv m (if sel.getLsbD 0 then x else y.cast same) none) else none
  | _, _, _ => none

/-- A slice, within the indices of what it is taken of. -/
def slice (high low : Nat) : VhdlValue → Option VhdlValue
  | .slv n x (some lowest) =>
      if lowest ≤ low ∧ low ≤ high ∧ high < lowest + n then
        some (.slv (high - low + 1) (x.extractLsb' (low - lowest) (high - low + 1)) (some low))
      else none
  | _ => none

end VhdlValue

namespace Vhdl

def isPrefix : Vhdl → Bool
  | .name _ | .slice _ _ _ | .call _ _ | .call2 _ _ _ | .mux2To1 _ _ _ => true
  | .string _ | .integer _ | .not _ | .infixed _ _ _ | .terminated _ => false

def untyped : Vhdl → Bool
  | .string _ => true
  | .infixed .concat first second => first.untyped && second.untyped
  | _ => false

/-- The value of a text.  `To_Unsigned`, `To_Signed` and the other conversions take arrays of
several types, such as `ApInt` and `std_logic_vector`: an argument of no type of its own is
ambiguous. -/
@[simp]
def eval (objects : String → BitVector) : Vhdl → Option VhdlValue
  | .string value => some (.slv _ value none)
  | .integer value => some (.integer value)
  | .name id => some (.slv (objects id).width ((objects id).residue (objects id).width) (some 0))
  | .slice base high low => if base.isPrefix then (base.eval objects).bind (VhdlValue.slice high low) else none
  | .not rest =>
      (rest.eval objects).bind fun
        | .slv n x _ => some (.slv n (~~~x) none)
        | _ => none
  | .infixed op first second =>
      (first.eval objects).bind fun x => (second.eval objects).bind fun y => VhdlValue.ofInfix op x y
  | .call function argument =>
      if argument.untyped then none else (argument.eval objects).bind fun x => VhdlValue.ofCall function x
  | .call2 function first second =>
      (first.eval objects).bind fun x => (second.eval objects).bind fun y => VhdlValue.ofCall2 function x y
  | .mux2To1 sel x y =>
      (sel.eval objects).bind fun sel => (x.eval objects).bind fun x => (y.eval objects).bind fun y =>
        VhdlValue.mux2To1 sel x y
  | .terminated _ => none

end Vhdl

/-- The vector that the VHDL text of an expression stands for. -/
def Expression.vhdlValue (objects : String → BitVector) (e : Expression) : Option (Σ n : Nat, BitVec n) :=
  (Vhdl.ofExpression e).bind fun text => (text.eval objects).bind fun
    | .slv n x _ => some ⟨n, x⟩
    | _ => none

namespace Vhdl
variable {objects : String → BitVector}

/-- A text stands for a vector of some bits, with the indices that it should have where it
can be sliced. -/
structure Denotes (objects : String → BitVector) (text : Vhdl) (n : Nat) (f : Nat → Bool) (indexed : Bool) : Prop where
  value : ∃ lowest, text.eval objects = some (.slv n (lowBits n f) lowest) ∧ (indexed = true → lowest = some 0)
  isPrefix : indexed = true → text.isPrefix = true

theorem Denotes.congr {text : Vhdl} {n : Nat} {f g : Nat → Bool} {indexed : Bool}
    (denotes : Denotes objects text n f indexed) (same : ∀ k < n, f k = g k) : Denotes objects text n g indexed := by
  obtain ⟨lowest, value, indices⟩ := denotes.value
  exact ⟨⟨lowest, by rw [value, lowBits_congr same], indices⟩, denotes.isPrefix⟩

theorem Denotes.of_eval {text : Vhdl} {n : Nat} {f : Nat → Bool} (x : BitVec n) (lowest : Option Nat)
    (value : text.eval objects = some (.slv n x lowest)) (bits : lowBits n f = x) : Denotes objects text n f false :=
  ⟨⟨lowest, by rw [value, bits], fun no => absurd no Bool.false_ne_true⟩, fun no => absurd no Bool.false_ne_true⟩

section Operators
variable {first second : Vhdl} {n : Nat} {f g : Nat → Bool} {i j : Bool}

theorem eval_not (denotes : Denotes objects first n f i) : Denotes objects (.not first) n (fun k => !f k) false := by
  obtain ⟨lowest, value, _⟩ := denotes.value
  refine .of_eval (~~~lowBits n f) none (by rw [eval, value]; rfl) (lowBits_eq fun k below => ?_)
  rw [BitVec.getLsbD_not, getLsbD_lowBits, decide_eq_true below, Bool.true_and, Bool.true_and]

theorem eval_logical {op : VhdlInfix} {onVectors : {m : Nat} → BitVec m → BitVec m → BitVec m}
    (onBits : Bool → Bool → Bool) (same : VhdlValue.ofInfix op = VhdlValue.logical onVectors)
    (bitwise : ∀ x y : BitVec n, ∀ k < n, (onVectors x y).getLsbD k = onBits (x.getLsbD k) (y.getLsbD k))
    (denotesF : Denotes objects first n f i) (denotesG : Denotes objects second n g j) :
    Denotes objects (.infixed op first second) n (fun k => onBits (f k) (g k)) false := by
  obtain ⟨lowest, valueF, _⟩ := denotesF.value
  obtain ⟨lowest', valueG, _⟩ := denotesG.value
  refine .of_eval (onVectors (lowBits n f) (lowBits n g)) none ?_ (lowBits_eq fun k below => ?_)
  · rw [eval, valueF, valueG, Option.bind_some, Option.bind_some, same, VhdlValue.logical, dif_pos rfl]
    rfl
  · rw [bitwise _ _ _ below, getLsbD_lowBits, getLsbD_lowBits, decide_eq_true below, Bool.true_and, Bool.true_and]

theorem arithmetic_unsigned (op : {m : Nat} → BitVec m → BitVec m → BitVec m) (x y : BitVec n) :
    VhdlValue.arithmetic op max (.unsigned n x) (.unsigned n y) = some (.unsigned n (op x y)) := by
  have extended (m : Nat) (same : m = n) :
      VhdlValue.unsigned m (op (x.setWidth m) (y.setWidth m)) = .unsigned n (op x y) := by
    subst same
    rw [BitVec.setWidth_eq, BitVec.setWidth_eq]
  exact congrArg some (extended (max n n) (Nat.max_self n))

theorem arithmetic_signed (op : {m : Nat} → BitVec m → BitVec m → BitVec m) (x y : BitVec n) :
    VhdlValue.arithmetic op max (.signed n x) (.signed n y) = some (.signed n (op x y)) := by
  have extended (m : Nat) (same : m = n) :
      VhdlValue.signed m (op (x.signExtend m) (y.signExtend m)) = .signed n (op x y) := by
    subst same
    rw [BitVec.signExtend_eq, BitVec.signExtend_eq]
  exact congrArg some (extended (max n n) (Nat.max_self n))

/-- Sums and differences are those of vectors of one length, signed or not. -/
theorem eval_numeric {op : VhdlInfix} (onVectors : {m : Nat} → BitVec m → BitVec m → BitVec m) (signed : Bool)
    (same : VhdlValue.ofInfix op = VhdlValue.arithmetic onVectors max)
    (typedF : first.untyped = false) (typedG : second.untyped = false)
    (denotesF : Denotes objects first n f i) (denotesG : Denotes objects second n g j) :
    Denotes objects (numeric (if signed then .toSigned else .toUnsigned) op first second) n
      (onVectors (lowBits n f) (lowBits n g)).getLsbD false := by
  obtain ⟨lowest, valueF, _⟩ := denotesF.value
  obtain ⟨lowest', valueG, _⟩ := denotesG.value
  refine .of_eval (onVectors (lowBits n f) (lowBits n g)) none ?_ (lowBits_eq fun k below => rfl)
  have converted (function : VhdlFunction) :
      (Vhdl.infixed op (.call function first) (.call function second)).untyped = false := by
    cases op <;> rfl
  cases signed with
  | false =>
      rw [numeric, if_neg Bool.false_ne_true]
      simp only [eval, typedF, typedG, converted, Bool.false_eq_true, if_false, valueF, valueG, Option.bind_some, same,
        VhdlValue.ofCall, arithmetic_unsigned]
  | true =>
      rw [numeric, if_pos rfl]
      simp only [eval, typedF, typedG, converted, Bool.false_eq_true, if_false, valueF, valueG, Option.bind_some, same,
        VhdlValue.ofCall, arithmetic_signed]

theorem eval_areEqual (denotesF : Denotes objects first n f i) (denotesG : Denotes objects second n g j) :
    Denotes objects (.call2 .areEqual first second) 1
      (fun k => decide (k = 0) && decide (lowBits n f = lowBits n g)) true := by
  obtain ⟨lowest, valueF, _⟩ := denotesF.value
  obtain ⟨lowest', valueG, _⟩ := denotesG.value
  have answer : lowBits 1 (fun k => decide (k = 0) && decide (lowBits n f = lowBits n g)) =
      BitVec.ofBool (decide (lowBits n f = lowBits n g)) := by
    refine lowBits_eq fun k below => ?_
    obtain rfl : k = 0 := by omega
    cases decide (lowBits n f = lowBits n g) <;> rfl
  refine ⟨⟨some 0, ?_, fun _ => rfl⟩, fun _ => rfl⟩
  rw [eval, valueF, valueG, Option.bind_some, Option.bind_some, VhdlValue.ofCall2, dif_pos rfl, answer]
  rfl

theorem eval_concat {m : Nat} (denotesF : Denotes objects first m f i) (denotesG : Denotes objects second n g j) :
    Denotes objects (.infixed .concat first second) (m + n) (fun k => if k < n then g k else f (k - n)) false := by
  obtain ⟨lowest, valueF, _⟩ := denotesF.value
  obtain ⟨lowest', valueG, _⟩ := denotesG.value
  refine .of_eval (lowBits m f ++ lowBits n g) none ?_ (lowBits_eq fun k below => ?_)
  · rw [eval, valueF, valueG, Option.bind_some, Option.bind_some, VhdlValue.ofInfix]
  · rw [BitVec.getLsbD_append, getLsbD_lowBits, getLsbD_lowBits]
    by_cases low : k < n
    · rw [if_pos low, if_pos low, decide_eq_true low, Bool.true_and]
    · rw [if_neg low, if_neg low, decide_eq_true (show k - n < m by omega), Bool.true_and]

theorem eval_mux2To1 {sel : Vhdl} {h : Nat → Bool} {k : Bool} (denotesSel : Denotes objects sel 1 h k)
    (denotesF : Denotes objects first n f i) (denotesG : Denotes objects second n g j) :
    Denotes objects (.mux2To1 sel first second) n (fun k => if h 0 then f k else g k) false := by
  obtain ⟨lowest, valueSel, _⟩ := denotesSel.value
  obtain ⟨lowest', valueF, _⟩ := denotesF.value
  obtain ⟨lowest'', valueG, _⟩ := denotesG.value
  have bit : (lowBits 1 h).getLsbD 0 = h 0 := by rw [getLsbD_lowBits, decide_eq_true Nat.one_pos, Bool.true_and]
  refine .of_eval (if h 0 then lowBits n f else lowBits n g) none ?_ ?_
  · rw [eval, valueSel, valueF, valueG]
    simp only [Option.bind_some, VhdlValue.mux2To1, dite_true, bit]
    rfl
  · cases h 0 <;> rfl

theorem eval_slice {high low : Nat} {indexed : Bool} (denotes : Denotes objects first n f true)
    (le : low ≤ high) (inside : high < n) (from0 : indexed = true → low = 0) :
    Denotes objects (.slice first high low) (high - low + 1) (fun k => f (k + low)) indexed := by
  obtain ⟨lowest, value, indices⟩ := denotes.value
  obtain rfl := indices rfl
  have bits : (lowBits n f).extractLsb' low (high - low + 1) = lowBits (high - low + 1) fun k => f (k + low) := by
    refine (lowBits_eq fun k below => ?_).symm
    rw [BitVec.getLsbD_extractLsb', getLsbD_lowBits, decide_eq_true below, decide_eq_true (by omega), Bool.true_and,
      Bool.true_and, Nat.add_comm]
  refine ⟨⟨some low, ?_, fun yes => by rw [from0 yes]⟩, fun _ => rfl⟩
  rw [eval, if_pos (denotes.isPrefix rfl), value, Option.bind_some, VhdlValue.slice,
    if_pos ⟨Nat.zero_le _, le, by omega⟩, Nat.sub_zero, bits]

end Operators

theorem ofBinary_untyped {op : Operation} {type : RtlType} {first second text : Vhdl} {size : Nat}
    (printed : ofBinary op type first second size = some text) :
    text.untyped = (decide (op = .concat) && first.untyped && second.untyped) := by
  cases op with
  | div => exact absurd printed.symm (Option.some_ne_none text)
  | concat =>
      obtain rfl := Option.some.inj printed
      rfl
  | or | and | xor | nor | nand | xnor | plus | minus | mul | shl | shr | ror | rol | equal | notEqual | less
  | lessEqual | greater | greaterEqual =>
      obtain rfl := Option.some.inj printed
      rfl

theorem ofExpression_untyped {e : Expression} {text : Vhdl} (printed : ofExpression e = some text) :
    text.untyped = e.untyped := by
  induction e generalizing text with
  | literal type value | object id type =>
      obtain rfl := Option.some.inj printed
      rfl
  | slice base high low ih | not rest ih =>
      obtain ⟨t, -, rfl⟩ := Option.map_eq_some_iff.mp printed
      rfl
  | ternary test ifTrue ifFalse ihTest ihTrue ihFalse =>
      obtain ⟨t, -, printed⟩ := Option.bind_eq_some_iff.mp printed
      obtain ⟨x, -, printed⟩ := Option.bind_eq_some_iff.mp printed
      obtain ⟨y, -, rfl⟩ := Option.map_eq_some_iff.mp printed
      rfl
  | binary op first second ihFirst ihSecond =>
      obtain ⟨f, printedF, printed⟩ := Option.bind_eq_some_iff.mp printed
      obtain ⟨s, printedS, printed⟩ := Option.bind_eq_some_iff.mp printed
      rw [ofBinary_untyped printed, ihFirst printedF, ihSecond printedS]
      rfl

theorem ofBinary_denotes {op : Operation} (plain : op.plain = true) (type : RtlType) {first second : Vhdl} {m n : Nat}
    {f g : Nat → Bool} {i j : Bool} (size : Nat) (lengths : op ≠ .concat → n = m)
    (typed : op.numeric = true → first.untyped = false ∧ second.untyped = false)
    (denotesF : Denotes objects first m f i) (denotesG : Denotes objects second n g j) :
    ∃ text, ofBinary op type first second size = some text ∧
      Denotes objects text (inferType op ⟨type.signed, m⟩ ⟨type.signed, n⟩).width (meaning op m n f g)
        (decide (op = .equal)) := by
  by_cases concat : op = .concat
  · subst concat
    exact ⟨_, rfl, eval_concat denotesF denotesG⟩
  · obtain rfl := lengths concat
    cases op with
    | or => exact ⟨_, rfl, eval_logical Bool.or rfl (fun _ _ _ _ => BitVec.getLsbD_or) denotesF denotesG⟩
    | and => exact ⟨_, rfl, eval_logical Bool.and rfl (fun _ _ _ _ => BitVec.getLsbD_and) denotesF denotesG⟩
    | xor => exact ⟨_, rfl, eval_logical Bool.xor rfl (fun _ _ _ _ => BitVec.getLsbD_xor) denotesF denotesG⟩
    | nor => exact ⟨_, rfl, eval_not (eval_logical Bool.or rfl (fun _ _ _ _ => BitVec.getLsbD_or) denotesF denotesG)⟩
    | nand => exact ⟨_, rfl, eval_not (eval_logical Bool.and rfl (fun _ _ _ _ => BitVec.getLsbD_and) denotesF denotesG)⟩
    | xnor => exact ⟨_, rfl, eval_not (eval_logical Bool.xor rfl (fun _ _ _ _ => BitVec.getLsbD_xor) denotesF denotesG)⟩
    | plus => exact ⟨_, rfl, eval_numeric (fun x y => x + y) type.signed rfl (typed rfl).1 (typed rfl).2 denotesF denotesG⟩
    | minus => exact ⟨_, rfl, eval_numeric (fun x y => x - y) type.signed rfl (typed rfl).1 (typed rfl).2 denotesF denotesG⟩
    | equal => exact ⟨_, rfl, eval_areEqual denotesF denotesG⟩
    | notEqual =>
        refine ⟨_, rfl, (eval_not (eval_areEqual denotesF denotesG)).congr fun k below => ?_⟩
        obtain rfl : k = 0 := Nat.lt_one_iff.mp below
        rfl
    | concat => exact absurd rfl concat
    | mul | div | shl | shr | ror | rol | less | lessEqual | greater | greaterEqual =>
        exact absurd plain Bool.false_ne_true

theorem ofExpression_denotes {e : Expression} (typed : e.WellTyped) (plain : e.plain = true) (fits : e.Fits objects) :
    ∃ text, ofExpression e = some text ∧ Denotes objects text e.type.width (e.bits objects) e.sliceable := by
  induction e with
  | literal type value =>
      exact ⟨_, rfl, .of_eval value none rfl (lowBits_eq fun k below => rfl)⟩
  | object id type =>
      have width : (objects id).width = type.width := fits.1
      refine ⟨_, rfl, ⟨⟨some 0, ?_, fun _ => rfl⟩, fun _ => rfl⟩⟩
      rw [eval, Expression.type, ← width]
      rfl
  | slice base high low ih =>
      obtain ⟨plainBase, sliceable⟩ := (Bool.and_eq_true _ _).mp plain
      obtain ⟨text, printed, denotes⟩ := ih typed.1 plainBase fits
      rw [sliceable] at denotes
      refine ⟨.slice text high low, by rw [ofExpression, printed]; rfl, eval_slice denotes typed.2.1 typed.2.2 fun yes => ?_⟩
      exact of_decide_eq_true ((Bool.and_eq_true _ _).mp yes).2
  | not rest ih =>
      obtain ⟨text, printed, denotes⟩ := ih typed plain fits
      exact ⟨.not text, by rw [ofExpression, printed]; rfl, eval_not denotes⟩
  | binary op first second ihFirst ihSecond =>
      obtain ⟨plain, unambiguous⟩ := (Bool.and_eq_true _ _).mp plain
      obtain ⟨both, plainSecond⟩ := (Bool.and_eq_true _ _).mp plain
      obtain ⟨plainOp, plainFirst⟩ := (Bool.and_eq_true _ _).mp both
      obtain ⟨f, printedF, denotesF⟩ := ihFirst typed.1 plainFirst fits.1
      obtain ⟨s, printedS, denotesS⟩ := ihSecond typed.2.1 plainSecond fits.2
      obtain ⟨text, printed, denotes⟩ := ofBinary_denotes plainOp (inferType op first.type second.type)
        first.type.width (fun ne => (width_eq_of_inferAsserts plainOp ne typed.2.2).symm)
        (fun numeric => by
          rw [Expression.ambiguous, numeric, Bool.true_and, Bool.not_eq_true', Bool.or_eq_false_iff] at unambiguous
          rw [ofExpression_untyped printedF, ofExpression_untyped printedS]
          exact unambiguous) denotesF denotesS
      refine ⟨text, ?_, ?_⟩
      · rw [ofExpression, printedF, printedS]
        exact printed
      · have width : (inferType op ⟨(inferType op first.type second.type).signed, first.type.width⟩
            ⟨(inferType op first.type second.type).signed, second.type.width⟩).width =
            (inferType op first.type second.type).width := by
          cases op <;> rfl
        rw [width] at denotes
        exact denotes
  | ternary test ifTrue ifFalse ihTest ihTrue ihFalse =>
      obtain ⟨rest, one⟩ := (Bool.and_eq_true _ _).mp plain
      obtain ⟨both, plainFalse⟩ := (Bool.and_eq_true _ _).mp rest
      obtain ⟨plainTest, plainTrue⟩ := (Bool.and_eq_true _ _).mp both
      obtain ⟨t, printedT, denotesT⟩ := ihTest typed.1 plainTest fits.1
      obtain ⟨x, printedX, denotesX⟩ := ihTrue typed.2.1 plainTrue fits.2.1
      obtain ⟨y, printedY, denotesY⟩ := ihFalse typed.2.2.1 plainFalse fits.2.2
      rw [of_decide_eq_true one] at denotesT
      rw [← typed.2.2.2] at denotesY
      refine ⟨.mux2To1 t x y, ?_, eval_mux2To1 denotesT denotesX denotesY⟩
      rw [ofExpression, printedT, printedX, printedY]
      rfl

/-- The text of a shift, of a rotation or of a comparison by order is not VHDL, and a
division has none. -/
theorem eval_ofBinary_eq_none {op : Operation} (broken : op.broken = true) (type : RtlType) (first second : Vhdl)
    (size : Nat) : (ofBinary op type first second size).bind (eval objects) = none := by
  have comparison (function : VhdlFunction) (undefined : ∀ b, VhdlValue.ofCall function (.boolean b) = none) :
      eval objects (.call function (.infixed .equal first second)) = none := by
    simp only [eval]
    cases first.eval objects with
    | none => rfl
    | some x =>
        cases second.eval objects with
        | none => rfl
        | some y => cases x <;> cases y <;> first | rfl | exact undefined _
  have noCall (b : Bool) (signed unsigned : VhdlFunction) (s : ∀ b, VhdlValue.ofCall signed (.boolean b) = none)
      (u : ∀ b, VhdlValue.ofCall unsigned (.boolean b) = none) :
      ∀ b', VhdlValue.ofCall (if b then signed else unsigned) (.boolean b') = none := by
    cases b with
    | false => exact u
    | true => exact s
  cases op with
  | div | shl | shr | ror | rol => rfl
  | less => exact comparison _ (noCall _ _ _ (fun _ => rfl) fun _ => rfl)
  | lessEqual => exact comparison _ (noCall _ _ _ (fun _ => rfl) fun _ => rfl)
  | greater => exact comparison _ (noCall _ _ _ (fun _ => rfl) fun _ => rfl)
  | greaterEqual => exact comparison _ (noCall _ _ _ (fun _ => rfl) fun _ => rfl)
  | or | and | xor | nor | nand | xnor | plus | minus | mul | equal | notEqual | concat =>
      exact absurd broken Bool.false_ne_true

theorem eval_ofBinary_of_untyped {op : Operation} (numeric : op.numeric = true) (type : RtlType) {first second : Vhdl}
    (untyped : first.untyped = true ∨ second.untyped = true) (size : Nat) :
    (ofBinary op type first second size).bind (eval objects) = none := by
  have none (conversion : VhdlFunction) (o : VhdlInfix) :
      (Vhdl.numeric conversion o first second).eval objects = none := by
    rcases untyped with untyped | untyped
    · simp [Vhdl.numeric, eval, untyped]
    · simp [Vhdl.numeric, eval, untyped]
  cases op with
  | plus | minus | mul => exact none _ _
  | or | and | xor | nor | nand | xnor | div | shl | shr | ror | rol | equal | notEqual | less | lessEqual | greater
  | greaterEqual | concat => exact absurd numeric Bool.false_ne_true

theorem eval_ofBinary_of_none {first second : Vhdl} (missing : first.eval objects = none ∨ second.eval objects = none)
    (op : Operation) (type : RtlType) (size : Nat) : (ofBinary op type first second size).bind (eval objects) = none := by
  have infixed (o : VhdlInfix) : (Vhdl.infixed o first second).eval objects = none := by
    rcases missing with missing | missing <;> cases h : first.eval objects <;> simp_all [eval]
  have call2 (function : VhdlFunction) : (Vhdl.call2 function first second).eval objects = none := by
    rcases missing with missing | missing <;> cases h : first.eval objects <;> simp_all [eval]
  have numeric (conversion : VhdlFunction) (o : VhdlInfix) :
      (Vhdl.numeric conversion o first second).eval objects = none := by
    rcases missing with missing | missing
    · simp [Vhdl.numeric, eval, missing]
    · simp [Vhdl.numeric, eval, missing]
  have negated {text : Vhdl} (missing : text.eval objects = none) : (Vhdl.not text).eval objects = none := by
    rw [eval, missing]
    rfl
  have called (function : VhdlFunction) {text : Vhdl} (missing : text.eval objects = none) :
      (Vhdl.call function text).eval objects = none := by
    rw [eval, missing]
    exact ite_self none
  cases op with
  | div | shl | shr | ror | rol => rfl
  | or | and | xor | concat => exact infixed _
  | nor | nand | xnor => exact negated (infixed _)
  | equal => exact call2 _
  | notEqual => exact negated (call2 _)
  | plus | minus | mul => exact numeric _ _
  | less | lessEqual | greater | greaterEqual => exact called _ (infixed _)

/-- What a function of one argument returns has no indices that go down. -/
theorem eval_slice_call (function : VhdlFunction) (argument : Vhdl) (high low : Nat) :
    (Vhdl.slice (.call function argument) high low).eval objects = none := by
  have noIndices (v : VhdlValue) : (VhdlValue.ofCall function v).bind (VhdlValue.slice high low) = none := by
    cases function <;> cases v <;> rfl
  rw [eval, if_pos (show (Vhdl.call function argument).isPrefix = true from rfl), eval]
  split
  · rfl
  cases argument.eval objects with
  | none => rfl
  | some v => exact noIndices v

theorem eval_slice_of_not_isPrefix {text : Vhdl} (notPrefix : text.isPrefix = false) (high low : Nat) :
    (Vhdl.slice text high low).eval objects = none := by
  rw [eval, notPrefix, if_neg Bool.false_ne_true]

theorem eval_slice_of_unsliceable {e : Expression} (unsliceable : e.unsliceable = true) {text : Vhdl}
    (printed : ofExpression e = some text) (high low : Nat) : (Vhdl.slice text high low).eval objects = none := by
  cases e with
  | object id type => exact absurd unsliceable Bool.false_ne_true
  | slice base h l => exact absurd unsliceable Bool.false_ne_true
  | literal type value =>
      obtain rfl := Option.some.inj printed
      exact eval_slice_of_not_isPrefix rfl high low
  | not rest =>
      obtain ⟨t, _, rfl⟩ := Option.map_eq_some_iff.mp printed
      exact eval_slice_of_not_isPrefix rfl high low
  | ternary test ifTrue ifFalse =>
      obtain ⟨t, _, printed⟩ := Option.bind_eq_some_iff.mp printed
      obtain ⟨x, _, printed⟩ := Option.bind_eq_some_iff.mp printed
      obtain ⟨y, _, rfl⟩ := Option.map_eq_some_iff.mp printed
      have noIndices (sel x y : VhdlValue) : (VhdlValue.mux2To1 sel x y).bind (VhdlValue.slice high low) = none := by
        cases sel <;> cases x <;> cases y <;> try rfl
        simp only [VhdlValue.mux2To1]
        split <;> rfl
      rw [eval, if_pos (show (Vhdl.mux2To1 t x y).isPrefix = true from rfl), eval]
      cases t.eval objects <;> cases x.eval objects <;> cases y.eval objects <;> first | rfl | exact noIndices _ _ _
  | binary op first second =>
      obtain ⟨f, _, printed⟩ := Option.bind_eq_some_iff.mp printed
      obtain ⟨s, _, printed⟩ := Option.bind_eq_some_iff.mp printed
      cases op with
      | div => exact absurd printed.symm (Option.some_ne_none text)
      | equal => exact absurd unsliceable Bool.false_ne_true
      | or | and | xor | nor | nand | xnor | notEqual | concat | shl | shr | ror | rol =>
          obtain rfl := Option.some.inj printed
          exact eval_slice_of_not_isPrefix rfl high low
      | plus | minus | mul | less | lessEqual | greater | greaterEqual =>
          obtain rfl := Option.some.inj printed
          exact eval_slice_call _ _ high low

theorem eval_ofExpression_eq_none {e : Expression} (broken : e.broken = true) :
    (ofExpression e).bind (eval objects) = none := by
  induction e with
  | literal type value => exact absurd broken Bool.false_ne_true
  | object id type => exact absurd broken Bool.false_ne_true
  | slice base high low ih =>
      cases printed : ofExpression base with
      | none => rw [ofExpression, printed]; rfl
      | some text =>
          rw [ofExpression, printed, Option.map_some, Option.bind_some]
          rcases (Bool.or_eq_true _ _).mp broken with broken | unsliceable
          · have missing := ih broken
            rw [printed, Option.bind_some] at missing
            rw [eval, missing]
            split <;> rfl
          · exact eval_slice_of_unsliceable unsliceable printed high low
  | not rest ih =>
      have missing := ih broken
      cases printed : ofExpression rest with
      | none => rw [ofExpression, printed]; rfl
      | some text =>
          rw [printed, Option.bind_some] at missing
          rw [ofExpression, printed, Option.map_some, Option.bind_some, eval, missing]
          rfl
  | binary op first second ihFirst ihSecond =>
      rw [ofExpression]
      cases printedF : ofExpression first with
      | none => rfl
      | some f =>
          cases printedS : ofExpression second with
          | none => rfl
          | some s =>
              rw [printedF, Option.bind_some] at ihFirst
              rw [printedS, Option.bind_some] at ihSecond
              rcases (Bool.or_eq_true _ _).mp broken with broken | ambiguous
              swap
              · obtain ⟨numeric, untyped⟩ := (Bool.and_eq_true _ _).mp ambiguous
                rw [Bool.or_eq_true, ← ofExpression_untyped printedF, ← ofExpression_untyped printedS] at untyped
                exact eval_ofBinary_of_untyped numeric _ untyped _
              rcases (Bool.or_eq_true _ _).mp broken with either | second
              · rcases (Bool.or_eq_true _ _).mp either with op | first
                · exact eval_ofBinary_eq_none op _ f s _
                · exact eval_ofBinary_of_none (.inl (ihFirst first)) _ _ _
              · exact eval_ofBinary_of_none (.inr (ihSecond second)) _ _ _
  | ternary test ifTrue ifFalse ihTest ihTrue ihFalse =>
      rw [ofExpression]
      cases printedT : ofExpression test with
      | none => rfl
      | some t =>
          cases printedX : ofExpression ifTrue with
          | none => rfl
          | some x =>
              cases printedY : ofExpression ifFalse with
              | none => rfl
              | some y =>
                  rw [printedT, Option.bind_some] at ihTest
                  rw [printedX, Option.bind_some] at ihTrue
                  rw [printedY, Option.bind_some] at ihFalse
                  simp only [Option.bind_some, Option.map_some, eval]
                  rcases (Bool.or_eq_true _ _).mp broken with either | third
                  · rcases (Bool.or_eq_true _ _).mp either with first | second
                    · rw [ihTest first]
                      rfl
                    · rw [ihTrue second]
                      cases t.eval objects <;> rfl
                  · rw [ihFalse third]
                    cases t.eval objects <;> cases x.eval objects <;> rfl

end Vhdl

theorem Expression.vhdlValue_of_plain {objects : String → BitVector} {e : Expression} (typed : e.WellTyped)
    (plain : e.plain = true) (fits : e.Fits objects) :
    e.vhdlValue objects = some ⟨e.type.width, lowBits e.type.width (e.bits objects)⟩ := by
  obtain ⟨text, printed, denotes⟩ := Vhdl.ofExpression_denotes typed plain fits
  obtain ⟨lowest, value, _⟩ := denotes.value
  rw [vhdlValue, printed, Option.bind_some, value]
  rfl

theorem Expression.vhdlValue_of_broken {e : Expression} (broken : e.broken = true) (objects : String → BitVector) :
    e.vhdlValue objects = none := by
  have missing : (Vhdl.ofExpression e).bind (Vhdl.eval objects) = none := Vhdl.eval_ofExpression_eq_none broken
  unfold vhdlValue
  rw [← Option.bind_assoc, missing]
  rfl

end Ahir.Rtl
