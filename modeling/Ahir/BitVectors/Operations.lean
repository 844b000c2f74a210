import Ahir.BitVectors.BitVector

/-!
# Operations on bit vectors

The operations write their result over a vector that they are given.  Logical and
arithmetic ones go over the bytes, the others set single bits.
-/

set_option autoImplicit false

namespace Ahir.BitVectors
open Ahir.Data

namespace BitVector

def hasUndefinedBit (x : BitVector) : Bool := (List.range x.width).any x.getUndefinedBit

def signBit (x : BitVector) : Bool := (x.getByte ((x.width - 1) / 8)).getLsbD ((x.width - 1) % 8)

/-- `bit_vector_set_undefined` -/
def setUndefined (x : BitVector) : BitVector := x.withBytes (fun _ => 255) fun _ => 255

def bytewise (value : Byte → Byte → Byte) (undefined : Byte → Byte → Byte → Byte → Byte)
    (r s t : BitVector) : BitVector :=
  (t.withBytes (fun i => value (r.getByte i) (s.getByte i))
    fun i => undefined (r.getByte i) (r.getUndefinedByte i) (s.getByte i) (s.getUndefinedByte i)).clearUnusedBits

def undefinedOr (rb urb sb usb : Byte) : Byte := urb &&& usb ||| urb &&& ~~~sb ||| usb &&& ~~~rb

def undefinedAnd (rb urb sb usb : Byte) : Byte := urb &&& usb ||| urb &&& sb ||| usb &&& rb

def undefinedXor (_ urb _ usb : Byte) : Byte := urb ||| usb

def or (r s t : BitVector) : BitVector := bytewise (fun rb sb => rb ||| sb) undefinedOr r s t
def nor (r s t : BitVector) : BitVector := bytewise (fun rb sb => ~~~(rb ||| sb)) undefinedOr r s t
def and (r s t : BitVector) : BitVector := bytewise (fun rb sb => rb &&& sb) undefinedAnd r s t
def nand (r s t : BitVector) : BitVector := bytewise (fun rb sb => ~~~(rb &&& sb)) undefinedAnd r s t
def xor (r s t : BitVector) : BitVector := bytewise (fun rb sb => rb ^^^ sb) undefinedXor r s t
def xnor (r s t : BitVector) : BitVector := bytewise (fun rb sb => ~~~(rb ^^^ sb)) undefinedXor r s t

def not (src dest : BitVector) : BitVector :=
  (dest.withBytes (fun i => ~~~src.getByte i) src.getUndefinedByte).clearUnusedBits

/-- The loop of a reduction over the bits below `n`: `val` and `uval`. -/
def reduceLoop (value : Bool → Bool → Bool) (undefined : Bool → Bool → Bool → Bool → Bool) (init : Bool)
    (src : BitVector) : Nat → Bool × Bool
  | 0 => (init, false)
  | n + 1 =>
      let (val, uval) := reduceLoop value undefined init src n
      let x := src.getBit n
      let ux := src.getUndefinedBit n
      (value val x, undefined val uval x ux)

def reduce (value : Bool → Bool → Bool) (undefined : Bool → Bool → Bool → Bool → Bool) (init : Bool)
    (src dest : BitVector) : BitVector :=
  let (val, uval) := reduceLoop value undefined init src src.width
  (dest.setBit 0 val).setUndefinedBit 0 uval

def reduceOr : BitVector → BitVector → BitVector :=
  reduce (fun val x => val || x) (fun val uval x ux => (!val && ux) || (!x && uval) || (ux && uval)) false

def reduceAnd : BitVector → BitVector → BitVector :=
  reduce (fun val x => val && x) (fun val uval x ux => (val && ux) || (x && uval) || (ux && uval)) true

def reduceXor : BitVector → BitVector → BitVector :=
  reduce (fun val x => val ^^ x) (fun _ uval _ ux => uval || ux) false

/-- `unpack_bit_vector_into_uint64`; the bytes there are not are those of the sign. -/
def unpack (signed : Bool) (x : BitVector) : BitVec 64 :=
  lowBits 64 fun k => if k / 8 < nbytes x.width then x.bit k else signed && x.signBit

def truncateUint64 (word : BitVec 64) (width : Nat) : BitVec 64 :=
  if width < 64 then word &&& ~~~(~~~(0 : BitVec 64) <<< width) else word

/-- `bit_vector_to_uint64` -/
def toUint64 (signed : Bool) (x : BitVector) : BitVec 64 :=
  if signed && x.signBit then unpack signed x else truncateUint64 (unpack signed x) x.width

/-- `pack_uint64_into_bit_vector`; at most eight bytes are written, and their flags cleared. -/
def pack (word : BitVec 64) (dest : BitVector) : BitVector :=
  (dest.withBytes (fun i => if i < 8 then word.extractLsb' (8 * i) 8 else dest.getByte i)
    fun i => if i < 8 then 0 else dest.getUndefinedByte i).clearUnusedBits

/-- `bit_vector_assign_string` -/
def assignString (dest : BitVector) (init : List Char) : BitVector :=
  if init.length = dest.width then
    (List.range dest.width).foldl
      (fun t i => t.setBit (dest.width - i - 1) (decide (init.getD i ' ' = '1'))) dest.clear
  else dest.clear

def decode (src dest : BitVector) : BitVector :=
  if src.hasUndefinedBit then dest.setUndefined
  else
    (List.range dest.width).foldl (fun t i => t.setBit i (decide ((toUint64 false src).toNat = i))) dest.clear

/-- `bit_vector_encode`; two bits that are set stop the program. -/
def encode (src dest : BitVector) : Option BitVector :=
  if src.hasUndefinedBit then some dest.setUndefined
  else
    let set := (List.range src.width).filter src.getBit
    if 1 < set.length then none
    else some (set.foldl (fun t i => pack (BitVec.ofNat 64 i) t) dest.clear)

/-- The loop of `bit_vector_priority_encode` over the bits below `n`, the top one first. -/
def priorityLoop (src dest : BitVector) : Nat → BitVector
  | 0 => dest
  | n + 1 => if src.getBit n then dest.setBit n true else priorityLoop src dest n

def priorityEncode (src dest : BitVector) : BitVector :=
  if src.hasUndefinedBit then dest.setUndefined
  else priorityLoop src dest.clear src.width

/-- The carry into byte `i` of a sum of byte arrays. -/
def byteCarry (op1 op2 : Nat → Byte) (carry : Nat) : Nat → Nat
  | 0 => carry
  | i + 1 => if 256 ≤ (op1 i).toNat + (op2 i).toNat + byteCarry op1 op2 carry i then 1 else 0

def byteSum (op1 op2 : Nat → Byte) (carry : Nat) (i : Nat) : Byte :=
  BitVec.ofNat 8 ((op1 i).toNat + (op2 i).toNat + byteCarry op1 op2 carry i)

def increment (s : BitVector) : BitVector :=
  (s.withBytes (byteSum s.getByte (fun _ => 0) 1) s.getUndefinedByte).clearUnusedBits

def plus (r s t : BitVector) : BitVector :=
  (t.withBytes (byteSum r.getByte s.getByte 0) fun i =>
    r.getUndefinedByte i ||| s.getUndefinedByte i).clearUnusedBits

def minus (r s t : BitVector) : BitVector :=
  let t := not s t
  (increment (plus r t t)).clearUnusedBits

def mul (r s t : BitVector) : BitVector := pack (toUint64 false r * toUint64 false s) t

/-- `bit_vector_div`; what is divided by zero is zero, with a message. -/
def div (r s t : BitVector) : BitVector := pack (toUint64 false r / toUint64 false s) t

def smul (r s t : BitVector) : BitVector := pack (toUint64 true r * toUint64 true s) t

/-- `bit_vector_sdiv`; the least integer divided by minus one stops the program. -/
def sdiv (r s t : BitVector) : Option BitVector :=
  let op1 := toUint64 true r
  let op2 := toUint64 true s
  if op1 = BitVec.intMin 64 ∧ op2 = -1 then none
  else some (pack (op1.sdiv op2) t)

/-- Copies `n` bits with their flags; bit `source J` goes to bit `target J`. -/
def copyLoop (r : BitVector) (source target : Nat → Nat) (t : BitVector) : Nat → BitVector
  | 0 => t
  | n + 1 =>
      ((copyLoop r source target t n).setBit (target n) (r.getBit (source n))).setUndefinedBit (target n)
        (r.getUndefinedBit (source n))

def bitsel (f s result : BitVector) : BitVector :=
  let bp := (toUint64 false s).toNat % 2 ^ 32
  (result.clear.setBit 0 (f.getBit bp)).setUndefinedBit 0 (f.getUndefinedBit bp)

def concatenate (f s result : BitVector) : BitVector :=
  copyLoop f id (fun J => J + s.width) (copyLoop s id id result.clear s.width) f.width

def slice (src dest : BitVector) (lowIndex : Nat) : BitVector :=
  copyLoop src (fun J => J + lowIndex) id dest.clear dest.width

def insert (src dest : BitVector) (lowIndex : Nat) : BitVector :=
  copyLoop src id (fun J => J + lowIndex) dest.clear src.width

/-- The shift amount is a `uint32_t`. -/
def shiftAmount (s : BitVector) : Nat := (toUint64 false s).toNat % 2 ^ 32

/-- What `bit_vector_shift_right` has in its result before it copies bits. -/
def shiftFill (signed : Bool) (r t : BitVector) : BitVector :=
  if signed && r.signBit then not t.clear t.clear else t.clear

def shiftRight (signed : Bool) (r s t : BitVector) : BitVector :=
  if s.shiftAmount < t.width then
    copyLoop r (fun J => J + s.shiftAmount) id (shiftFill signed r t) (t.width - s.shiftAmount)
  else shiftFill signed r t

def shiftLeft (r s t : BitVector) : BitVector :=
  if s.shiftAmount < t.width then
    copyLoop r id (fun J => J + s.shiftAmount) t.clear (r.width - s.shiftAmount)
  else t.clear

def rotateAmount (r s : BitVector) : Nat := (toUint64 false s).toNat % r.width

def rotateLeft (r s t : BitVector) : BitVector :=
  let amount := rotateAmount r s
  copyLoop r (fun I => if amount ≤ I then I - amount else I + r.width - amount) id t.clear r.width

def rotateRight (r s t : BitVector) : BitVector :=
  let amount := rotateAmount r s
  copyLoop r (fun I => (I + amount) % r.width) id t.clear r.width

inductive Compared where
  | isEqual
  | isGreater
  | isLess
  | isUndefined
  deriving DecidableEq

/-- The loop of `bit_vector_compare` over the bits below `n`, the top one first. -/
def compareLoop (r s : BitVector) : Nat → Compared
  | 0 => .isEqual
  | n + 1 =>
      if r.getBit n && !s.getBit n then .isGreater
      else if s.getBit n && !r.getBit n then .isLess
      else compareLoop r s n

def compare (signed : Bool) (r s : BitVector) : Compared :=
  if r.hasUndefinedBit || s.hasUndefinedBit then .isUndefined
  else if (signed && r.signBit) && !(signed && s.signBit) then .isLess
  else if !(signed && r.signBit) && (signed && s.signBit) then .isGreater
  else compareLoop r s r.width

/-- A comparison that sets its result for some answers and flags it for others. -/
def compareInto (holds flags : Compared → Bool) (signed : Bool) (r s t : BitVector) : BitVector :=
  let answer := compare signed r s
  if holds answer then t.clear.setBit 0 true
  else if flags answer then t.clear.setUndefinedBit 0 true
  else t.clear

def equal : Bool → BitVector → BitVector → BitVector → BitVector :=
  compareInto (fun c => decide (c = .isEqual)) fun _ => false

def notEqual : Bool → BitVector → BitVector → BitVector → BitVector :=
  compareInto (fun c => decide (c ≠ .isEqual)) fun _ => false

def less : Bool → BitVector → BitVector → BitVector → BitVector :=
  compareInto (fun c => decide (c = .isLess)) fun c => decide (c = .isUndefined)

def lessEqual : Bool → BitVector → BitVector → BitVector → BitVector :=
  compareInto (fun c => decide (c = .isLess ∨ c = .isEqual)) fun c => decide (c = .isUndefined)

def greater : Bool → BitVector → BitVector → BitVector → BitVector :=
  compareInto (fun c => decide (c = .isGreater)) fun c => decide (c = .isUndefined)

def greaterEqual : Bool → BitVector → BitVector → BitVector → BitVector :=
  compareInto (fun c => decide (c = .isGreater ∨ c = .isEqual)) fun c => decide (c = .isUndefined)

/-- `bit_vector_cast_to_bit_vector`; what is extended has the flag of the last bit copied. -/
def cast (signed : Bool) (dest src : BitVector) : BitVector :=
  let copied := copyLoop src id id dest.clear (min src.width dest.width)
  let undefFlag := src.getUndefinedBit (min src.width dest.width - 1)
  if signed && src.signBit then
    (List.range' src.width (dest.width + 1 - src.width)).foldl
      (fun t i => (t.setBit i true).setUndefinedBit i undefFlag) copied
  else copied

end BitVector

inductive Operation where
  | or | nor | and | nand | xor | xnor | not
  | reduceOr | reduceAnd | reduceXor | decode | encode | priorityEncode
  | increment | plus | minus | mul | div | smul | sdiv
  | bitsel | concatenate | slice (lowIndex : Nat) | insert (lowIndex : Nat)
  | shiftRight (signed : Bool) | shiftLeft | rotateLeft | rotateRight
  | equal (signed : Bool) | notEqual (signed : Bool) | less (signed : Bool) | lessEqual (signed : Bool)
  | greater (signed : Bool) | greaterEqual (signed : Bool)
  | cast (signed : Bool) | assignUint64 (word : BitVec 64) | assignString (init : List Char)
  deriving DecidableEq

/-- The result from the inputs `r` and `s`, written over `t`; operations of one input
have no `s`. -/
def Operation.apply (r s t : BitVector) : Operation → Option BitVector
  | .or => some (r.or s t)
  | .nor => some (r.nor s t)
  | .and => some (r.and s t)
  | .nand => some (r.nand s t)
  | .xor => some (r.xor s t)
  | .xnor => some (r.xnor s t)
  | .not => some (r.not t)
  | .reduceOr => some (r.reduceOr t)
  | .reduceAnd => some (r.reduceAnd t)
  | .reduceXor => some (r.reduceXor t)
  | .decode => some (r.decode t)
  | .encode => r.encode t
  | .priorityEncode => some (r.priorityEncode t)
  | .increment => some r.increment
  | .plus => some (r.plus s t)
  | .minus => some (r.minus s t)
  | .mul => some (r.mul s t)
  | .div => some (r.div s t)
  | .smul => some (r.smul s t)
  | .sdiv => r.sdiv s t
  | .bitsel => some (r.bitsel s t)
  | .concatenate => some (r.concatenate s t)
  | .slice lowIndex => some (r.slice t lowIndex)
  | .insert lowIndex => some (r.insert t lowIndex)
  | .shiftRight signed => some (BitVector.shiftRight signed r s t)
  | .shiftLeft => some (r.shiftLeft s t)
  | .rotateLeft => some (r.rotateLeft s t)
  | .rotateRight => some (r.rotateRight s t)
  | .equal signed => some (BitVector.equal signed r s t)
  | .notEqual signed => some (BitVector.notEqual signed r s t)
  | .less signed => some (BitVector.less signed r s t)
  | .lessEqual signed => some (BitVector.lessEqual signed r s t)
  | .greater signed => some (BitVector.greater signed r s t)
  | .greaterEqual signed => some (BitVector.greaterEqual signed r s t)
  | .cast signed => some (BitVector.cast signed t r)
  | .assignUint64 word => some (BitVector.pack word t)
  | .assignString init => some (t.assignString init)

end Ahir.BitVectors
