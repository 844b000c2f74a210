import Ahir.BitVectors.Defined
import Ahir.Rtl.Expression

/-!
# Expressions in C

The C text of an expression is a list of statements that fill one bit vector after the
other; the last one has the value of the expression.
-/

set_option autoImplicit false

namespace Ahir.Rtl
open Ahir.Data Ahir.BitVectors

/-- A vector that the text names, `__sstate->id` or `__expr_index`. -/
inductive COperand where
  | object (id : String)
  | expr (index : Nat)

inductive CFunction where
  | bitVectorOr | bitVectorAnd | bitVectorXor | bitVectorNor | bitVectorNand | bitVectorXnor
  | bitVectorShl | bitVectorShr (signedFlag : Bool) | bitVectorRor | bitVectorRol
  | bitVectorEqual (signedFlag : Bool) | bitVectorNotEqual (signedFlag : Bool)
  | bitVectorLess (signedFlag : Bool) | bitVectorLessEqual (signedFlag : Bool)
  | bitVectorGreater (signedFlag : Bool) | bitVectorGreaterEqual (signedFlag : Bool)
  | bitVectorPlus | bitVectorMinus | bitVectorMul | bitVectorDiv
  | bitVectorConcatenate

/-- The library has no shift and no rotation under the names that are called. -/
def CFunction.library : CFunction → Option (BitVector → BitVector → BitVector → BitVector)
  | .bitVectorOr => some BitVector.or
  | .bitVectorAnd => some BitVector.and
  | .bitVectorXor => some BitVector.xor
  | .bitVectorNor => some BitVector.nor
  | .bitVectorNand => some BitVector.nand
  | .bitVectorXnor => some BitVector.xnor
  | .bitVectorShl | .bitVectorShr _ | .bitVectorRor | .bitVectorRol => none
  | .bitVectorEqual signedFlag => some (BitVector.equal signedFlag)
  | .bitVectorNotEqual signedFlag => some (BitVector.notEqual signedFlag)
  | .bitVectorLess signedFlag => some (BitVector.less signedFlag)
  | .bitVectorLessEqual signedFlag => some (BitVector.lessEqual signedFlag)
  | .bitVectorGreater signedFlag => some (BitVector.greater signedFlag)
  | .bitVectorGreaterEqual signedFlag => some (BitVector.greaterEqual signedFlag)
  | .bitVectorPlus => some BitVector.plus
  | .bitVectorMinus => some BitVector.minus
  | .bitVectorMul => some BitVector.mul
  | .bitVectorDiv => some BitVector.div
  | .bitVectorConcatenate => some BitVector.concatenate

/-- `Print_C_Binary_Operation`; the flag is that of the type of the target. -/
def CFunction.ofOperation (op : Operation) (targetType : RtlType) : CFunction :=
  match op with
  | .or => .bitVectorOr
  | .and => .bitVectorAnd
  | .xor => .bitVectorXor
  | .nor => .bitVectorNor
  | .nand => .bitVectorNand
  | .xnor => .bitVectorXnor
  | .shl => .bitVectorShl
  | .shr => .bitVectorShr targetType.signed
  | .ror => .bitVectorRor
  | .rol => .bitVectorRol
  | .equal => .bitVectorEqual targetType.signed
  | .notEqual => .bitVectorNotEqual targetType.signed
  | .less => .bitVectorLess targetType.signed
  | .lessEqual => .bitVectorLessEqual targetType.signed
  | .greater => .bitVectorGreater targetType.signed
  | .greaterEqual => .bitVectorGreaterEqual targetType.signed
  | .plus => .bitVectorPlus
  | .minus => .bitVectorMinus
  | .mul => .bitVectorMul
  | .div => .bitVectorDiv
  | .concat => .bitVectorConcatenate

inductive CStatement where
  | declare (index : Nat) (type : RtlType)
  | assignString (index : Nat) (init : List Char)
  | not (src : COperand) (index : Nat)
  | slice (src : COperand) (index low : Nat)
  | call (function : CFunction) (first second : COperand) (index : Nat)
  | select (signedFlag : Bool) (test : COperand) (index : Nat) (ifTrue ifFalse : COperand)

/-- The text `bit_vector_assign_string` is given, the top bit first. -/
def binaryString {n : Nat} (x : BitVec n) : List Char :=
  (List.range n).map fun i => if x.getLsbD (n - i - 1) then '1' else '0'

/-- `Print_C`, which gives the next vector a new index: the text, the vector with the
value, and the index that comes next. -/
def printC : Expression → Nat → List CStatement × COperand × Nat
  | .literal type value, k => ([.declare k type, .assignString k (binaryString value)], .expr k, k + 1)
  | .object id _, k => ([], .object id, k)
  | .slice base high low, k =>
      let (text, src, k) := printC base k
      (text ++ [.declare k ⟨false, high - low + 1⟩, .slice src k low], .expr k, k + 1)
  | .not rest, k =>
      let (text, src, k) := printC rest k
      (text ++ [.declare k rest.type, .not src k], .expr k, k + 1)
  | .binary op first second, k =>
      let (text, src, k) := printC first k
      let (text', src', k) := printC second k
      let type := inferType op first.type second.type
      (text ++ text' ++ [.declare k type, .call (.ofOperation op type) src src' k], .expr k, k + 1)
  | .ternary test ifTrue ifFalse, k =>
      let (text, src, k) := printC test k
      let (text', src', k) := printC ifTrue k
      let (text'', src'', k) := printC ifFalse k
      (text ++ text' ++ text'' ++ [.declare k ifTrue.type, .select test.type.signed src k src' src''], .expr k, k + 1)

structure CState where
  objects : String → BitVector
  exprs : Nat → Option BitVector

namespace CState
variable (s : CState)

def read : COperand → Option BitVector
  | .object id => some (s.objects id)
  | .expr index => s.exprs index

def set (index : Nat) (x : BitVector) : CState := { s with exprs := Function.update s.exprs index (some x) }

def write (index : Nat) (f : BitVector → BitVector) : Option CState := (s.exprs index).map fun t => s.set index (f t)

@[simp] theorem exprs_set_self (index : Nat) (x : BitVector) : (s.set index x).exprs index = some x :=
  Function.update_self ..

@[simp] theorem exprs_set_of_ne {index k : Nat} (ne : k ≠ index) (x : BitVector) :
    (s.set index x).exprs k = s.exprs k :=
  Function.update_of_ne ne ..

end CState

/-- The vector of width `w` that is zero. -/
def cleared (w : Nat) (pos : 0 < w) : BitVector :=
  ⟨w, List.replicate (nbytes w) 0#8, List.replicate (nbytes w) 0#8, List.length_replicate, List.length_replicate, pos⟩

/-- What static vectors hold when they are declared: random bytes at first, and then what
the last turn left there. -/
abbrev Leftovers := (index w : Nat) → 0 < w → { x : BitVector // x.width = w }

def CStatement.exec (left : Leftovers) : CStatement → CState → Option CState
  | .declare index type, s =>
      if pos : 0 < type.width then
        some (s.set index (if type.signed then cleared type.width pos else left index type.width pos))
      else none
  | .assignString index init, s => s.write index fun t => t.assignString init
  | .not src index, s => (s.read src).bind fun x => s.write index fun t => x.not t
  | .slice src index low, s => (s.read src).bind fun x => s.write index fun t => x.slice t low
  | .call function first second index, s =>
      function.library.bind fun f => (s.read first).bind fun x => (s.read second).bind fun y =>
        s.write index fun t => f x y t
  | .select signedFlag test index ifTrue ifFalse, s =>
      (s.read test).bind fun x =>
        (s.read (if BitVector.toUint64 signedFlag x ≠ 0 then ifTrue else ifFalse)).bind fun y =>
          s.write index fun t => BitVector.cast false t y

def execAll (left : Leftovers) : List CStatement → CState → Option CState
  | [], s => some s
  | statement :: text, s => (statement.exec left s).bind (execAll left text)

def Expression.cValue (left : Leftovers) (objects : String → BitVector) (e : Expression) : Option (Σ n : Nat, BitVec n) :=
  let (text, src, _) := printC e 0
  (execAll left text ⟨objects, fun _ => none⟩).bind fun s =>
    (s.read src).map fun x => ⟨x.width, x.residue x.width⟩

/-- The vector was there before the one with the index `k`. -/
def COperand.Before (k : Nat) : COperand → Prop
  | .object _ => True
  | .expr index => index < k

theorem COperand.Before.mono {src : COperand} {k k' : Nat} (before : src.Before k) (le : k ≤ k') : src.Before k' := by
  cases src with
  | object id => trivial
  | expr index => exact Nat.lt_of_lt_of_le before le

namespace CState
variable {s s' : CState}

structure Keeps (k : Nat) (s s' : CState) : Prop where
  objects : s'.objects = s.objects
  exprs : ∀ i < k, s'.exprs i = s.exprs i

theorem Keeps.trans {s'' : CState} {k k' : Nat} (first : Keeps k s s') (second : Keeps k' s' s'') (le : k ≤ k') :
    Keeps k s s'' :=
  ⟨second.objects.trans first.objects, fun i below => (second.exprs i (by omega)).trans (first.exprs i below)⟩

theorem Keeps.read {k : Nat} (keeps : Keeps k s s') {src : COperand} (before : src.Before k) : s'.read src = s.read src := by
  cases src with
  | object id => exact congrArg some (congrFun keeps.objects id)
  | expr index => exact keeps.exprs index before

theorem keeps_set (s : CState) (k : Nat) (x : BitVector) : Keeps k s (s.set k x) :=
  ⟨rfl, fun _ below => s.exprs_set_of_ne (by omega) x⟩

theorem set_set (s : CState) (k : Nat) (x y : BitVector) : (s.set k x).set k y = s.set k y := by
  simp [set]

theorem write_set (s : CState) (k : Nat) (t : BitVector) (f : BitVector → BitVector) :
    (s.set k t).write k f = some (s.set k (f t)) := by
  rw [write, exprs_set_self, Option.map_some, set_set]

end CState

section Execution
variable {left : Leftovers} {s s' : CState}

theorem execAll_append (text text' : List CStatement) (s : CState) :
    execAll left (text ++ text') s = (execAll left text s).bind (execAll left text') := by
  induction text generalizing s with
  | nil => rfl
  | cons statement text ih =>
      rw [List.cons_append, execAll, execAll, Option.bind_assoc]
      exact congrArg _ (funext ih)

theorem execAll_fill {k : Nat} {type : RtlType} {fill : CStatement} {n : Nat} {f : Nat → Bool} (pos : 0 < type.width)
    (filled : ∀ t : BitVector, t.width = type.width →
      ∃ x, fill.exec left (s.set k t) = some (s.set k x) ∧ x.Has n f) :
    ∃ x, execAll left [.declare k type, fill] s = some (s.set k x) ∧ x.Has n f := by
  let t := if type.signed then cleared type.width pos else (left k type.width pos).1
  have width : t.width = type.width := by
    cases signed : type.signed with
    | true => simp only [t, signed]; rfl
    | false => simp only [t, signed]; exact (left k type.width pos).2
  obtain ⟨x, exec, has⟩ := filled t width
  refine ⟨x, ?_, has⟩
  rw [execAll, CStatement.exec, dif_pos pos, Option.bind_some, execAll]
  exact (congrArg (fun o => Option.bind o (execAll left [])) exec).trans rfl

/-- A text computes a value into a vector: it begins with the index `k`. -/
structure Computes (left : Leftovers) (s : CState) (k : Nat) (printed : List CStatement × COperand × Nat) (n : Nat)
    (f : Nat → Bool) : Prop where
  le : k ≤ printed.2.2
  before : printed.2.1.Before printed.2.2
  runs : ∃ s', execAll left printed.1 s = some s' ∧ CState.Keeps k s s' ∧ ∃ x, s'.read printed.2.1 = some x ∧ x.Has n f

theorem Computes.fill {k k' : Nat} {text : List CStatement} {type : RtlType} {fill : CStatement} {n : Nat}
    {f : Nat → Bool} (le : k ≤ k') (ran : execAll left text s = some s') (keeps : CState.Keeps k s s')
    (pos : 0 < type.width) (filled : ∀ t : BitVector, t.width = type.width →
      ∃ x, fill.exec left (s'.set k' t) = some (s'.set k' x) ∧ x.Has n f) :
    Computes left s k (text ++ [.declare k' type, fill], .expr k', k' + 1) n f := by
  obtain ⟨x, exec, has⟩ := execAll_fill pos filled
  refine ⟨by dsimp only; omega, Nat.lt_succ_self k', s'.set k' x, ?_, keeps.trans (s'.keeps_set k' x) le, x,
    s'.exprs_set_self k' x, has⟩
  rw [execAll_append, ran, Option.bind_some, exec]

theorem ofOperation_has {op : Operation} (plain : op.plain = true) {first second : RtlType}
    (typed : inferAsserts op first second) {x y t : BitVector} {f g : Nat → Bool} (hasX : x.Has first.width f)
    (hasY : y.Has second.width g) (width : t.width = (inferType op first second).width) :
    ∃ F, (CFunction.ofOperation op (inferType op first second)).library = some F ∧
      (F x y t).Has (inferType op first second).width (meaning op first.width second.width f g) := by
  by_cases concat : op = .concat
  · subst concat
    exact ⟨_, rfl, hasX.concatenate hasY width⟩
  · have same := width_eq_of_inferAsserts plain concat typed
    rw [← same] at hasY
    cases op with
    | or => exact ⟨_, rfl, hasX.or hasY width⟩
    | and => exact ⟨_, rfl, hasX.and hasY width⟩
    | xor => exact ⟨_, rfl, hasX.xor hasY width⟩
    | nor => exact ⟨_, rfl, hasX.nor hasY width⟩
    | nand => exact ⟨_, rfl, hasX.nand hasY width⟩
    | xnor => exact ⟨_, rfl, hasX.xnor hasY width⟩
    | plus => exact ⟨_, rfl, hasX.plus hasY width⟩
    | minus => exact ⟨_, rfl, hasX.minus hasY width⟩
    | equal => exact ⟨_, rfl, hasX.equal hasY width⟩
    | notEqual => exact ⟨_, rfl, hasX.notEqual hasY width⟩
    | concat => exact absurd rfl concat
    | mul | div | shl | shr | ror | rol | less | lessEqual | greater | greaterEqual =>
        exact absurd plain Bool.false_ne_true

theorem binaryString_has {n : Nat} (value : BitVec n) {t : BitVector} (width : t.width = n) :
    (t.assignString (binaryString value)).Has n value.getLsbD := by
  have length : (binaryString value).length = t.width := by
    rw [binaryString, List.length_map, List.length_range, width]
  have has := BitVector.has_assignString length
  rw [width] at has
  refine has.congr fun i below => ?_
  have inside : n - i - 1 < (List.range n).length := by rw [List.length_range]; omega
  rw [binaryString, List.getD_eq_getElem?_getD, List.getElem?_map, List.getElem?_eq_getElem inside,
    List.getElem_range, Option.map_some, Option.getD_some, show n - (n - i - 1) - 1 = i by omega]
  cases value.getLsbD i <;> decide

theorem printC_computes {e : Expression} (typed : e.WellTyped) (plain : e.plain = true) (k : Nat) (s : CState)
    (fits : e.Fits s.objects) : Computes left s k (printC e k) e.type.width (e.bits s.objects) := by
  induction e generalizing k s with
  | literal type value =>
      show Computes left s k ([] ++ [.declare k type, .assignString k (binaryString value)], .expr k, k + 1) _ _
      refine Computes.fill le_rfl rfl ⟨rfl, fun _ _ => rfl⟩ typed fun t width => ?_
      exact ⟨_, CState.write_set s k t _, binaryString_has value width⟩
  | object id type =>
      exact ⟨le_rfl, trivial, s, rfl, ⟨rfl, fun _ _ => rfl⟩, _, rfl, fits.1, fun _ _ => rfl, fits.2⟩
  | slice base high low ih =>
      obtain ⟨le, before, s', ran, keeps, x, read, has⟩ := ih typed.1 ((Bool.and_eq_true _ _).mp plain).1 k s fits
      have inside : low + (high - low + 1) ≤ base.type.width := by
        have := typed.2
        omega
      refine Computes.fill le ran keeps (Nat.succ_pos _) fun t width => ⟨_, ?_, has.slice width inside⟩
      rw [CStatement.exec, (s'.keeps_set _ t).read before, read]
      exact CState.write_set s' _ t _
  | not rest ih =>
      obtain ⟨le, before, s', ran, keeps, x, read, has⟩ := ih typed plain k s fits
      refine Computes.fill le ran keeps (Expression.width_pos typed) fun t width => ⟨_, ?_, has.not width⟩
      rw [CStatement.exec, (s'.keeps_set _ t).read before, read]
      exact CState.write_set s' _ t _
  | binary op first second ihFirst ihSecond =>
      obtain ⟨plain, -⟩ := (Bool.and_eq_true _ _).mp plain
      obtain ⟨both, plainSecond⟩ := (Bool.and_eq_true _ _).mp plain
      obtain ⟨plainOp, plainFirst⟩ := (Bool.and_eq_true _ _).mp both
      obtain ⟨le, before, s', ran, keeps, x, read, has⟩ := ihFirst typed.1 plainFirst k s fits.1
      have fits' : second.Fits s'.objects := by rw [keeps.objects]; exact fits.2
      obtain ⟨le', before', s'', ran', keeps', y, read', has'⟩ := ihSecond typed.2.1 plainSecond (printC first k).2.2 s' fits'
      rw [keeps.objects] at has'
      have ranBoth : execAll left ((printC first k).1 ++ (printC second (printC first k).2.2).1) s = some s'' := by
        rw [execAll_append, ran, Option.bind_some, ran']
      have readX := (keeps'.read before).trans read
      refine Computes.fill (le.trans le') ranBoth (keeps.trans keeps' le) (Expression.width_pos typed) fun t width => ?_
      obtain ⟨F, library, result⟩ := ofOperation_has plainOp typed.2.2 has has' width
      refine ⟨_, ?_, result⟩
      rw [CStatement.exec, library, (s''.keeps_set _ t).read (before.mono le'), (s''.keeps_set _ t).read before', readX,
        read']
      exact CState.write_set s'' _ t _
  | ternary test ifTrue ifFalse ihTest ihTrue ihFalse =>
      obtain ⟨rest, one⟩ := (Bool.and_eq_true _ _).mp plain
      obtain ⟨both, plainFalse⟩ := (Bool.and_eq_true _ _).mp rest
      obtain ⟨plainTest, plainTrue⟩ := (Bool.and_eq_true _ _).mp both
      obtain ⟨le, before, s', ran, keeps, x, read, has⟩ := ihTest typed.1 plainTest k s fits.1
      have fits' : ifTrue.Fits s'.objects := by rw [keeps.objects]; exact fits.2.1
      obtain ⟨le', before', s'', ran', keeps', y, read', has'⟩ := ihTrue typed.2.1 plainTrue (printC test k).2.2 s' fits'
      have objects'' : s''.objects = s.objects := keeps'.objects.trans keeps.objects
      have fits'' : ifFalse.Fits s''.objects := by rw [objects'']; exact fits.2.2
      obtain ⟨le'', before'', s₃, ran'', keeps'', z, read'', has''⟩ := ihFalse typed.2.2.1 plainFalse
        (printC ifTrue (printC test k).2.2).2.2 s'' fits''
      rw [keeps.objects] at has'
      rw [objects'', ← typed.2.2.2] at has''
      rw [of_decide_eq_true one] at has
      have ranAll : execAll left ((printC test k).1 ++ (printC ifTrue (printC test k).2.2).1 ++
          (printC ifFalse (printC ifTrue (printC test k).2.2).2.2).1) s = some s₃ := by
        rw [execAll_append, execAll_append, ran, Option.bind_some, ran', Option.bind_some, ran'']
      have readX := (keeps''.read (before.mono le')).trans ((keeps'.read before).trans read)
      have readY := (keeps''.read before').trans read'
      refine Computes.fill ((le.trans le').trans le'') ranAll ((keeps.trans keeps' le).trans keeps'' (le.trans le'))
        (Expression.width_pos typed.2.1) fun t width => ?_
      have testX := has.toUint64_ne_zero test.type.signed
      have keepsSet := s₃.keeps_set (printC ifFalse (printC ifTrue (printC test k).2.2).2.2).2.2 t
      by_cases bit : test.bits s.objects 0 = true
      · refine ⟨_, ?_, (has'.cast width).congr fun i _ => (if_pos bit).symm⟩
        rw [CStatement.exec, keepsSet.read ((before.mono le').mono le''), readX, Option.bind_some, if_pos (testX.mpr bit),
          keepsSet.read (before'.mono le''), readY]
        exact CState.write_set s₃ _ t _
      · refine ⟨_, ?_, (has''.cast width).congr fun i _ => (if_neg bit).symm⟩
        rw [CStatement.exec, keepsSet.read ((before.mono le').mono le''), readX, Option.bind_some,
          if_neg (mt testX.mp bit), keepsSet.read before'', read'']
        exact CState.write_set s₃ _ t _

end Execution

/-- What the C text of a plain expression computes, whatever the vectors held before. -/
theorem Expression.cValue_of_plain (left : Leftovers) {objects : String → BitVector} {e : Expression}
    (typed : e.WellTyped) (plain : e.plain = true) (fits : e.Fits objects) :
    e.cValue left objects = some ⟨e.type.width, lowBits e.type.width (e.bits objects)⟩ := by
  have computes : Computes left ⟨objects, fun _ => none⟩ 0 (printC e 0) e.type.width (e.bits objects) :=
    printC_computes typed plain 0 _ fits
  obtain ⟨_, _, s', ran, _, x, read, has⟩ := computes
  have value : (⟨x.width, x.residue x.width⟩ : Σ n : Nat, BitVec n) =
      ⟨e.type.width, lowBits e.type.width (e.bits objects)⟩ := by
    rw [← has.residue, has.width]
  show (execAll left (printC e 0).1 _).bind _ = _
  rw [ran, Option.bind_some, read, Option.map_some, value]

end Ahir.Rtl
