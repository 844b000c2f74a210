import Mathlib.Tactic

/-!
# Datapath elements that may share hardware

`Is_Shareable_With` tells whether two elements of a data path may use one
operator.  Modules, memory spaces and pipes are named by their address.
-/

set_option autoImplicit false

namespace Ahir.DataPath

/-- The operations of a `vcBinarySplitOperator`. -/
inductive OpId where
  | plus | minus | mul | div
  | shl | shr | shra | rol | ror
  | ugt | uge | ult | ule | sgt | sge | slt | sle | eq | neq | unordered
  | bitsel | concat | or | and | xor | nor | nand | xnor
  deriving DecidableEq

structure MemorySpace where
  address : Nat
  addressWidth : Nat
  deriving DecidableEq

structure CalledModule where
  address : Nat
  volatileFlag : Bool
  operatorFlag : Bool
  deriving DecidableEq

/-- `vcType` for scalars.  There is one object for each type. -/
inductive VcType where
  | int (width : Nat)
  | pointer (memorySpace : MemorySpace)
  | float (characteristicWidth mantissaWidth : Nat)
  deriving DecidableEq

namespace VcType

def isInt : VcType → Bool
  | int _ => true
  | pointer _ => true
  | float _ _ => false

def size : VcType → Nat
  | int width => width
  | pointer memorySpace => memorySpace.addressWidth
  | float characteristicWidth mantissaWidth => characteristicWidth + mantissaWidth + 1

/-- The tests of `Check_If_Equivalent` on the types of two wires. -/
def agrees (t t' : VcType) : Bool :=
  decide (t.isInt = t'.isInt) && decide (t.size = t'.size) && (t.isInt || decide (t = t'))

/-- A pointer type counts as the integer type of its width. -/
def canonical : VcType → VcType
  | pointer memorySpace => int memorySpace.addressWidth
  | t => t

theorem agrees_iff {t t' : VcType} : t.agrees t' = true ↔ t.canonical = t'.canonical := by
  simp only [agrees, Bool.and_eq_true, Bool.or_eq_true, decide_eq_true_eq]
  cases t <;> cases t' <;> simp only [isInt, size, canonical] <;> grind

theorem isInt_canonical (t : VcType) : t.canonical.isInt = t.isInt := by
  cases t <;> rfl

end VcType

structure Wire where
  type : VcType
  value : Option (List Bool)
  value_width : ∀ bits, value = some bits → bits.length = type.size

def Wire.isConstant (w : Wire) : Bool := w.value.isSome

/-- The class of a `vcDatapathElement`, with what decides on sharing.  Elements
of the other classes are never grouped. -/
inductive DatapathClass where
  | unarySplitOperator
  | binarySplitOperator (opId : OpId) (x y z : Wire)
  | load (memorySpace : MemorySpace)
  | store (memorySpace : MemorySpace)
  | call (calledModule : CalledModule)
  | outport (pipe : Nat)
  | inport (pipe : Nat)
  | ungrouped

structure DatapathElement (E : Type) where
  cls : DatapathClass
  fullRate : Bool
  flowThrough : Bool
  reqs : List E
  acks : List E

def isTrivialOp : OpId → Bool
  | .bitsel | .concat | .or | .and | .xor | .nor | .nand | .xnor => true
  | _ => false

def isCompareOp : OpId → Bool
  | .ugt | .uge | .ult | .ule | .sgt | .sge | .slt | .sle | .eq | .neq | .unordered => true
  | _ => false

def isShiftOp : OpId → Bool
  | .shl | .shr | .shra | .rol | .ror => true
  | _ => false

def isIntAddOp (opId : OpId) (x : Wire) : Bool :=
  x.type.isInt && (decide (opId = .plus) || decide (opId = .minus))

def isPipelinedFloatOp (opId : OpId) : VcType → VcType → Bool
  | .float e1 f1, .float e2 f2 =>
      decide (e1 = e2) && decide (f1 = f2) &&
        (decide (e1 = 8) && decide (f1 = 23) || decide (e1 = 11) && decide (f1 = 52)) &&
        (decide (opId = .plus) || decide (opId = .minus) || decide (opId = .mul))
  | _, _ => false

def checkIfEquivalent : List Wire → List Wire → Bool
  | [], [] => true
  | w1 :: iw1, w2 :: iw2 =>
      w1.type.agrees w2.type && decide (w1.isConstant = w2.isConstant) && checkIfEquivalent iw1 iw2
  | _, _ => false

/-- The values of two constant wires are compared when they are of one kind. -/
def sameConstants (y y' : Wire) : Bool :=
  match y.value, y'.value with
  | some v, some v' => decide (y.type.isInt ≠ y'.type.isInt) || decide (v = v')
  | _, _ => true

namespace DatapathElement
variable {E : Type}

def isPipelinedOperator (this : DatapathElement E) : Bool :=
  match this.cls with
  | .binarySplitOperator opId x _ z => isPipelinedFloatOp opId x.type z.type
  | _ => false

/-- The end of `vcBinarySplitOperator::Is_Shareable_With`, for the same operation.
The result wires of both are appended to the operand lists, so the lists that
are to hold the result wires stay empty. -/
def operandsShareable (opId : OpId) (x y z x' y' z' : Wire) : Bool :=
  if isPipelinedFloatOp opId x.type z.type then
    decide (x.type = x'.type) && decide (z.type = z'.type)
  else if !checkIfEquivalent [x, y] [x', y'] then false
  else if !checkIfEquivalent [] [] then false
  else if y.isConstant && isShiftOp opId then false
  else if (y.isConstant || x.isConstant) && isIntAddOp opId x then false
  else sameConstants y y'

/-- `Is_Shareable_With`, of the class of `this`. -/
def isShareableWith (this other : DatapathElement E) : Bool :=
  match this.cls with
  | .binarySplitOperator opId x y z =>
      if isTrivialOp opId then false
      else if this.flowThrough || other.flowThrough then false
      else if isIntAddOp opId x then false
      else if isCompareOp opId then false
      else match other.cls with
        | .binarySplitOperator opId' x' y' z' =>
            decide (opId = opId') && operandsShareable opId x y z x' y' z'
        | _ => false
  | .load memorySpace =>
      match other.cls with
      | .load memorySpace' => decide (memorySpace = memorySpace')
      | _ => false
  | .store memorySpace =>
      match other.cls with
      | .store memorySpace' => decide (memorySpace = memorySpace')
      | _ => false
  | .call calledModule =>
      match other.cls with
      | .call calledModule' =>
          !calledModule.volatileFlag && !calledModule.operatorFlag &&
            !calledModule'.volatileFlag && !calledModule'.operatorFlag &&
            decide (calledModule = calledModule')
      | _ => false
  | .outport pipe =>
      match other.cls with
      | .outport pipe' => decide (pipe = pipe')
      | _ => false
  | .inport pipe =>
      match other.cls with
      | .inport pipe' => decide (pipe = pipe')
      | _ => false
  | .unarySplitOperator => false
  | .ungrouped => false

def SameOperandTypes (a b : DatapathElement E) : Prop :=
  match a.cls, b.cls with
  | .binarySplitOperator _ x y _, .binarySplitOperator _ x' y' _ =>
      x.type.agrees x'.type = true ∧ y.type.agrees y'.type = true
  | _, _ => True

def SameResultType (a b : DatapathElement E) : Prop :=
  match a.cls, b.cls with
  | .binarySplitOperator _ _ _ z, .binarySplitOperator _ _ _ z' => z.type.agrees z'.type = true
  | _, _ => True

def SameFunction (a b : DatapathElement E) : Prop :=
  match a.cls, b.cls with
  | .binarySplitOperator opId _ _ _, .binarySplitOperator opId' _ _ _ => opId = opId'
  | .load memorySpace, .load memorySpace' => memorySpace = memorySpace'
  | .store memorySpace, .store memorySpace' => memorySpace = memorySpace'
  | .call calledModule, .call calledModule' => calledModule = calledModule'
  | .outport pipe, .outport pipe' => pipe = pipe'
  | .inport pipe, .inport pipe' => pipe = pipe'
  | _, _ => False

/-- What `Is_Shareable_With` leaves out for operators: the type of the result,
and for pipelined ones that of the second operand. -/
def RestMatches (a b : DatapathElement E) : Prop :=
  match a.cls, b.cls with
  | .binarySplitOperator _ _ y z, .binarySplitOperator _ _ y' z' =>
      z.type.agrees z'.type = true ∧ (a.isPipelinedOperator = true → y.type.agrees y'.type = true)
  | _, _ => True

/-- What two elements must have in common to share an operator. -/
inductive SharingKey where
  | pipelined (opId : OpId) (operand second : VcType)
  | operator (opId : OpId) (x y z : VcType) (xConstant : Bool) (yValue : Option (List Bool))
  | load (memorySpace : MemorySpace)
  | store (memorySpace : MemorySpace)
  | call (calledModule : CalledModule)
  | outport (pipe : Nat)
  | inport (pipe : Nat)

def operatorKey (opId : OpId) (x y z : Wire) : Option SharingKey :=
  if isPipelinedFloatOp opId x.type z.type then some (.pipelined opId x.type y.type.canonical)
  else if y.isConstant && isShiftOp opId then none
  else some (.operator opId x.type.canonical y.type.canonical z.type.canonical x.isConstant y.value)

def sharingKey (a : DatapathElement E) : Option SharingKey :=
  match a.cls with
  | .binarySplitOperator opId x y z =>
      if isTrivialOp opId || a.flowThrough || isIntAddOp opId x || isCompareOp opId then none
      else operatorKey opId x y z
  | .load memorySpace => some (.load memorySpace)
  | .store memorySpace => some (.store memorySpace)
  | .call calledModule =>
      if calledModule.volatileFlag || calledModule.operatorFlag then none else some (.call calledModule)
  | .outport pipe => some (.outport pipe)
  | .inport pipe => some (.inport pipe)
  | .unarySplitOperator => none
  | .ungrouped => none

def SameKey (a b : DatapathElement E) : Prop := a.sharingKey = b.sharingKey ∧ a.sharingKey.isSome = true

variable {a b c : DatapathElement E}

theorem SameKey.symm (same : a.SameKey b) : b.SameKey a := ⟨same.1.symm, same.1 ▸ same.2⟩

theorem SameKey.trans (first : a.SameKey b) (second : b.SameKey c) : a.SameKey c :=
  ⟨first.1.trans second.1, first.2⟩

omit a b c in
theorem isPipelinedFloatOp_canonical (opId : OpId) (t t' : VcType) :
    isPipelinedFloatOp opId t.canonical t'.canonical = isPipelinedFloatOp opId t t' := by
  cases t <;> cases t' <;> rfl

theorem type_eq_of_isPipelinedFloatOp {opId : OpId} {t t' : VcType}
    (pipelined : isPipelinedFloatOp opId t t' = true) : t = t' := by
  cases t <;> cases t' <;> simp_all [isPipelinedFloatOp]

theorem isConstant_eq_of_value {y y' : Wire} (same : y.value = y'.value) : y.isConstant = y'.isConstant := by
  rw [Wire.isConstant, Wire.isConstant, same]

theorem sameConstants_iff {y y' : Wire} (types : y.type.canonical = y'.type.canonical) :
    y.isConstant = y'.isConstant ∧ sameConstants y y' = true ↔ y.value = y'.value := by
  have kinds : y.type.isInt = y'.type.isInt := by
    rw [← y.type.isInt_canonical, types, VcType.isInt_canonical]
  unfold Wire.isConstant sameConstants
  cases y.value <;> cases y'.value <;> simp [kinds]

/-- The tests on an operator that is not pipelined and no integer adder. -/
theorem operandsShareable_of_not_pipelined {opId : OpId} {x y z x' y' z' : Wire}
    (notAdd : isIntAddOp opId x = false) (plain : ¬ isPipelinedFloatOp opId x.type z.type = true) :
    operandsShareable opId x y z x' y' z' = true ↔
      (x.type.canonical = x'.type.canonical ∧ x.isConstant = x'.isConstant) ∧
        (y.type.canonical = y'.type.canonical ∧ y.value = y'.value) ∧
          ¬ (y.isConstant && isShiftOp opId) = true := by
  have tests : operandsShareable opId x y z x' y' z' = true ↔
      (x.type.canonical = x'.type.canonical ∧ x.isConstant = x'.isConstant) ∧
        (y.type.canonical = y'.type.canonical ∧ y.isConstant = y'.isConstant) ∧
          ¬ (y.isConstant && isShiftOp opId) = true ∧ sameConstants y y' = true := by
    simp only [operandsShareable, checkIfEquivalent, notAdd, if_neg plain, ← VcType.agrees_iff]
    simp
    grind
  rw [tests]
  constructor
  · rintro ⟨sameX, ⟨typeY, constantY⟩, noShift, value⟩
    exact ⟨sameX, ⟨typeY, (sameConstants_iff typeY).mp ⟨constantY, value⟩⟩, noShift⟩
  · rintro ⟨sameX, ⟨typeY, value⟩, noShift⟩
    obtain ⟨constantY, constants⟩ := (sameConstants_iff typeY).mpr value
    exact ⟨sameX, ⟨typeY, constantY⟩, noShift, constants⟩

theorem operandsShareable_iff {opId : OpId} {x y z x' y' z' : Wire} (notAdd : isIntAddOp opId x = false) :
    (operandsShareable opId x y z x' y' z' = true ∧ z.type.agrees z'.type = true ∧
      (isPipelinedFloatOp opId x.type z.type = true → y.type.agrees y'.type = true)) ↔
    operatorKey opId x y z = operatorKey opId x' y' z' ∧ (operatorKey opId x y z).isSome = true := by
  simp only [VcType.agrees_iff]
  by_cases pipelined : isPipelinedFloatOp opId x.type z.type = true
  · have oneType := type_eq_of_isPipelinedFloatOp pipelined
    rw [operandsShareable, if_pos pipelined, operatorKey, if_pos pipelined]
    simp only [Bool.and_eq_true, decide_eq_true_eq, Option.isSome_some, and_true, pipelined,
      forall_const]
    constructor
    · rintro ⟨⟨sameX, sameZ⟩, _, sameY⟩
      rw [operatorKey, ← sameX, ← sameZ, if_pos pipelined, sameY]
    · intro keys
      rw [operatorKey] at keys
      split_ifs at keys with pipelined'
      · obtain ⟨_, sameX, sameY⟩ := SharingKey.pipelined.inj (Option.some.inj keys)
        have sameZ : z.type = z'.type := by
          rw [← oneType, sameX, type_eq_of_isPipelinedFloatOp pipelined']
        exact ⟨⟨sameX, sameZ⟩, by rw [sameZ], sameY⟩
      · cases Option.some.inj keys
  · have other : x.type.canonical = x'.type.canonical → z.type.canonical = z'.type.canonical →
        ¬ isPipelinedFloatOp opId x'.type z'.type = true := by
      intro sameX sameZ
      rw [← isPipelinedFloatOp_canonical, ← sameX, ← sameZ, isPipelinedFloatOp_canonical]
      exact pipelined
    rw [operandsShareable_of_not_pipelined notAdd pipelined, operatorKey, if_neg pipelined]
    constructor
    · rintro ⟨⟨⟨typeX, constantX⟩, ⟨typeY, value⟩, noShift⟩, typeZ, _⟩
      have noShift' : ¬ (y'.isConstant && isShiftOp opId) = true := by
        rw [← isConstant_eq_of_value value]
        exact noShift
      rw [operatorKey, if_neg (other typeX typeZ), if_neg noShift, if_neg noShift', typeX, typeY, typeZ,
        constantX, value]
      exact ⟨rfl, rfl⟩
    · rintro ⟨keys, isKey⟩
      split_ifs at keys isKey with noShift
      · cases isKey
      · rw [operatorKey] at keys
        split_ifs at keys
        · cases Option.some.inj keys
        · obtain ⟨_, typeX, typeY, typeZ, constantX, value⟩ := SharingKey.operator.inj (Option.some.inj keys)
          exact ⟨⟨⟨typeX, constantX⟩, ⟨typeY, value⟩, noShift⟩, typeZ, fun h => absurd h pipelined⟩

theorem operatorKey_types {opId opId' : OpId} {x y z x' y' z' : Wire}
    (keys : operatorKey opId x y z = operatorKey opId' x' y' z')
    (isKey : (operatorKey opId x y z).isSome = true) :
    opId = opId' ∧ x.type.canonical = x'.type.canonical ∧ y.type.canonical = y'.type.canonical ∧
      z.type.canonical = z'.type.canonical ∧
        isPipelinedFloatOp opId x.type z.type = isPipelinedFloatOp opId' x'.type z'.type := by
  unfold operatorKey at keys isKey
  by_cases pipelined : isPipelinedFloatOp opId x.type z.type = true
  · by_cases pipelined' : isPipelinedFloatOp opId' x'.type z'.type = true
    · rw [if_pos pipelined, if_pos pipelined'] at keys
      obtain ⟨rfl, sameX, sameY⟩ := SharingKey.pipelined.inj (Option.some.inj keys)
      rw [pipelined, pipelined', ← type_eq_of_isPipelinedFloatOp pipelined,
        ← type_eq_of_isPipelinedFloatOp pipelined', sameX]
      exact ⟨rfl, rfl, sameY, rfl, rfl⟩
    · rw [if_pos pipelined, if_neg pipelined'] at keys
      split_ifs at keys
      cases Option.some.inj keys
  · rw [if_neg pipelined] at keys isKey
    split_ifs at keys isKey
    · cases isKey
    · cases Option.some.inj keys
    · next _ plain' _ =>
        obtain ⟨rfl, sameX, sameY, sameZ⟩ := SharingKey.operator.inj (Option.some.inj keys)
        refine ⟨rfl, sameX, sameY, sameZ.1, ?_⟩
        rw [Bool.not_eq_true] at pipelined plain'
        rw [pipelined, plain']

theorem isIntAddOp_canonical {opId : OpId} {x x' : Wire} (same : x.type.canonical = x'.type.canonical) :
    isIntAddOp opId x = isIntAddOp opId x' := by
  rw [isIntAddOp, isIntAddOp, ← VcType.isInt_canonical, same, VcType.isInt_canonical]

theorem isShareableWith_iff_operators {opId opId' : OpId} {x y z x' y' z' : Wire}
    (clsA : a.cls = .binarySplitOperator opId x y z) (clsB : b.cls = .binarySplitOperator opId' x' y' z') :
    a.isShareableWith b = true ∧ a.RestMatches b ↔ a.SameKey b := by
  simp only [isShareableWith, RestMatches, isPipelinedOperator, SameKey, sharingKey, clsA, clsB]
  by_cases unfit : (isTrivialOp opId || a.flowThrough || isIntAddOp opId x || isCompareOp opId) = true
  · rw [if_pos unfit]
    refine iff_of_false ?_ (by simp)
    simp only [Bool.or_eq_true] at unfit
    rintro ⟨shareable, _⟩
    split_ifs at shareable
    simp_all
  · rw [if_neg unfit]
    simp only [Bool.or_eq_true, not_or, Bool.not_eq_true] at unfit
    obtain ⟨⟨⟨noTrivial, noFlow⟩, noAdd⟩, noCompare⟩ := unfit
    simp only [noTrivial, noFlow, noAdd, noCompare, Bool.false_or, Bool.false_eq_true, if_false]
    constructor
    · rintro ⟨shareable, restZ, restY⟩
      split_ifs at shareable with noFlow'
      simp only [Bool.and_eq_true, decide_eq_true_eq] at shareable
      obtain ⟨rfl, shareable⟩ := shareable
      obtain ⟨keys, isKey⟩ := (operandsShareable_iff noAdd).mp ⟨shareable, restZ, restY⟩
      obtain ⟨_, sameX, _⟩ := operatorKey_types keys isKey
      rw [← isIntAddOp_canonical sameX, noAdd, if_neg (by simp [noTrivial, noCompare, noFlow'])]
      exact ⟨keys, isKey⟩
    · rintro ⟨keys, isKey⟩
      split_ifs at keys with unfit'
      · rw [keys] at isKey
        cases isKey
      · obtain ⟨rfl, sameX, _⟩ := operatorKey_types keys isKey
        obtain ⟨shareable, restZ, restY⟩ := (operandsShareable_iff noAdd).mpr ⟨keys, isKey⟩
        simp only [Bool.or_eq_true, not_or, Bool.not_eq_true] at unfit'
        rw [unfit'.1.1.2]
        simp only [Bool.false_eq_true, if_false, decide_true, Bool.true_and]
        exact ⟨shareable, restZ, restY⟩

/-- The kinds of keys that operators have. -/
def SharingKey.isOperator : SharingKey → Bool
  | .pipelined _ _ _ => true
  | .operator _ _ _ _ _ _ => true
  | _ => false

omit a b c in
theorem isOperator_of_operatorKey {opId : OpId} {x y z : Wire} {key : SharingKey}
    (isKey : operatorKey opId x y z = some key) : key.isOperator = true := by
  unfold operatorKey at isKey
  split_ifs at isKey
  · exact Option.some.inj isKey ▸ rfl
  · exact Option.some.inj isKey ▸ rfl

theorem sharingKey_of_operator {opId : OpId} {x y z : Wire} {key : SharingKey}
    (clsA : a.cls = .binarySplitOperator opId x y z) (isKey : a.sharingKey = some key) :
    operatorKey opId x y z = some key := by
  simp only [sharingKey, clsA] at isKey
  split_ifs at isKey
  exact isKey

/-- An operator has no key in common with an element of another class. -/
theorem SameKey.operator {opId : OpId} {x y z : Wire} (same : a.SameKey b)
    (clsA : a.cls = .binarySplitOperator opId x y z) :
    ∃ opId' x' y' z', b.cls = .binarySplitOperator opId' x' y' z' := by
  obtain ⟨key, isKey⟩ := Option.isSome_iff_exists.mp same.2
  have ofOperator := isOperator_of_operatorKey (sharingKey_of_operator clsA isKey)
  have isKey' : b.sharingKey = some key := same.1 ▸ isKey
  cases clsB : b.cls with
  | binarySplitOperator opId' x' y' z' => exact ⟨opId', x', y', z', rfl⟩
  | call calledModule =>
      simp only [sharingKey, clsB] at isKey'
      split_ifs at isKey'
      obtain rfl := Option.some.inj isKey'
      cases ofOperator
  | unarySplitOperator | ungrouped =>
      simp only [sharingKey, clsB] at isKey'
      cases isKey'
  | load memorySpace | store memorySpace | outport pipe | inport pipe =>
      simp only [sharingKey, clsB] at isKey'
      obtain rfl := Option.some.inj isKey'
      cases ofOperator

/-- Elements that are no operators are shared when they access the same. -/
theorem isShareableWith_iff_access (plain : ∀ opId x y z, a.cls ≠ .binarySplitOperator opId x y z)
    (plain' : ∀ opId x y z, b.cls ≠ .binarySplitOperator opId x y z) : a.isShareableWith b = true ↔ a.SameKey b := by
  cases clsA : a.cls with
  | binarySplitOperator opId x y z => exact absurd clsA (plain opId x y z)
  | call calledModule =>
      cases clsB : b.cls with
      | binarySplitOperator opId x y z => exact absurd clsB (plain' opId x y z)
      | call calledModule' =>
          simp only [isShareableWith, SameKey, sharingKey, clsA, clsB, Bool.and_eq_true, Bool.not_eq_true',
            decide_eq_true_eq]
          constructor
          · rintro ⟨⟨⟨⟨noVolatile, noOperator⟩, -⟩, -⟩, rfl⟩
            simp [noVolatile, noOperator]
          · rintro ⟨keys, isKey⟩
            split_ifs at keys isKey with unfit
            · cases isKey
            · obtain rfl := SharingKey.call.inj (Option.some.inj keys)
              simp only [Bool.or_eq_true, not_or, Bool.not_eq_true] at unfit
              exact ⟨⟨⟨unfit, unfit.1⟩, unfit.2⟩, rfl⟩
      | _ =>
          simp only [isShareableWith, SameKey, sharingKey, clsA, clsB]
          split_ifs <;> simp
  | _ =>
      cases clsB : b.cls with
      | binarySplitOperator opId x y z => exact absurd clsB (plain' opId x y z)
      | _ => simp [isShareableWith, SameKey, sharingKey, clsA, clsB]

theorem isShareableWith_iff : a.isShareableWith b = true ∧ a.RestMatches b ↔ a.SameKey b := by
  by_cases operatorA : ∃ opId x y z, a.cls = .binarySplitOperator opId x y z
  · obtain ⟨opId, x, y, z, clsA⟩ := operatorA
    by_cases operatorB : ∃ opId' x' y' z', b.cls = .binarySplitOperator opId' x' y' z'
    · obtain ⟨opId', x', y', z', clsB⟩ := operatorB
      exact isShareableWith_iff_operators clsA clsB
    · refine iff_of_false ?_ fun same => operatorB (same.operator clsA)
      rintro ⟨shareable, -⟩
      simp only [isShareableWith, clsA] at shareable
      split_ifs at shareable
      split at shareable
      · next clsB => exact operatorB ⟨_, _, _, _, clsB⟩
      · cases shareable
  · have rest : a.RestMatches b := by
      unfold RestMatches
      split
      · next clsA _ => exact absurd ⟨_, _, _, _, clsA⟩ operatorA
      · trivial
    by_cases operatorB : ∃ opId' x' y' z', b.cls = .binarySplitOperator opId' x' y' z'
    · obtain ⟨opId', x', y', z', clsB⟩ := operatorB
      refine iff_of_false ?_ fun same => operatorA (same.symm.operator clsB)
      rintro ⟨shareable, -⟩
      cases clsA : a.cls with
      | binarySplitOperator opId x y z => exact operatorA ⟨opId, x, y, z, clsA⟩
      | _ => simp [isShareableWith, clsA, clsB] at shareable
    · rw [and_iff_left rest]
      exact isShareableWith_iff_access (fun opId x y z clsA => operatorA ⟨opId, x, y, z, clsA⟩)
        fun opId x y z clsB => operatorB ⟨opId, x, y, z, clsB⟩

/-- Elements that are no operators and have one key are of one class and access the same. -/
theorem SameKey.cls_eq (same : a.SameKey b) (plain : ∀ opId x y z, a.cls ≠ .binarySplitOperator opId x y z) :
    a.cls = b.cls ∧ a.SameFunction b := by
  have plain' (opId : OpId) (x y z : Wire) : b.cls ≠ .binarySplitOperator opId x y z := by
    intro clsB
    obtain ⟨opId', x', y', z', clsA⟩ := same.symm.operator clsB
    exact plain opId' x' y' z' clsA
  have shareable := (isShareableWith_iff_access plain plain').mpr same
  cases clsA : a.cls with
  | binarySplitOperator opId x y z => exact absurd clsA (plain opId x y z)
  | call calledModule =>
      cases clsB : b.cls with
      | binarySplitOperator opId x y z => exact absurd clsB (plain' opId x y z)
      | call calledModule' =>
          simp only [isShareableWith, clsA, clsB, Bool.and_eq_true, decide_eq_true_eq] at shareable
          simp only [SameFunction, clsA, clsB, shareable.2, and_self]
      | _ => simp [isShareableWith, clsA, clsB] at shareable
  | _ =>
      cases clsB : b.cls with
      | binarySplitOperator opId x y z => exact absurd clsB (plain' opId x y z)
      | _ => simp_all [isShareableWith, SameFunction]

theorem SameKey.spec (same : a.SameKey b) :
    a.isShareableWith b = true ∧ a.SameFunction b ∧ a.SameOperandTypes b ∧ a.SameResultType b ∧
      a.isPipelinedOperator = b.isPipelinedOperator := by
  refine ⟨(isShareableWith_iff.mpr same).1, ?_⟩
  by_cases operatorA : ∃ opId x y z, a.cls = .binarySplitOperator opId x y z
  · obtain ⟨opId, x, y, z, clsA⟩ := operatorA
    obtain ⟨opId', x', y', z', clsB⟩ := same.operator clsA
    obtain ⟨key, isKey⟩ := Option.isSome_iff_exists.mp same.2
    have keyA := sharingKey_of_operator clsA isKey
    have keyB := sharingKey_of_operator clsB (same.1 ▸ isKey)
    obtain ⟨sameOp, sameX, sameY, sameZ, pipelined⟩ :=
      operatorKey_types (keyA.trans keyB.symm) (Option.isSome_iff_exists.mpr ⟨key, keyA⟩)
    simp only [SameFunction, SameOperandTypes, SameResultType, isPipelinedOperator, clsA, clsB, VcType.agrees_iff]
    exact ⟨sameOp, ⟨sameX, sameY⟩, sameZ, pipelined⟩
  · obtain ⟨sameCls, sameFunction⟩ := same.cls_eq fun opId x y z clsA => operatorA ⟨opId, x, y, z, clsA⟩
    refine ⟨sameFunction, ?_, ?_, ?_⟩
    · unfold SameOperandTypes
      split
      · next clsA _ => exact absurd ⟨_, _, _, _, clsA⟩ operatorA
      · trivial
    · unfold SameResultType
      split
      · next clsA _ => exact absurd ⟨_, _, _, _, clsA⟩ operatorA
      · trivial
    · rw [isPipelinedOperator, isPipelinedOperator, sameCls]

end DatapathElement

end Ahir.DataPath
