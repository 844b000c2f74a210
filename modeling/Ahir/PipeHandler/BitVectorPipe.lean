import Ahir.PipeHandler.ValuePipe

/-!
# Bit vectors in pipes

A bit vector whose width is that of a C integer is sent as one word, any other as
its bytes, from the least significant on.  The pipe is registered by the generated
code with room for `depth` values.
-/

set_option autoImplicit false

namespace Ahir.PipeHandler
open Ahir.Data

def isWordWidth (width : Nat) : Bool :=
  decide (width = 8) || decide (width = 16) || decide (width = 32) || decide (width = 64)

/-- `wsize` of `Print_C_Pipe_Registration`. -/
def wordSize (tsize : Nat) : Nat := if isWordWidth tsize then tsize else 8

/-- `nwords` of `Print_C_Pipe_Registration`. -/
def nWords (tsize : Nat) : Nat :=
  if tsize % wordSize tsize ≠ 0 then tsize / wordSize tsize + 1 else tsize / wordSize tsize

def nBytes (width : Nat) : Nat := if width % 8 = 0 then width / 8 else width / 8 + 1

/-- The registration that `Print_C_Pipe_Registration` prints, not for a signal. -/
def printCPipeRegistration (tsize : Nat) (depth : Int) (lifoMode noblockMode : Bool) :
    PipeRec (BitVec (wordSize tsize)) :=
  let correctedDepth := if depth ≤ 0 then 1 else depth
  registerPipe (nWords tsize * correctedDepth)
    (if lifoMode then .lifo else if noblockMode then .fifoNonBlockRead else .fifo)

structure BitVector (width : Nat) where
  byteArray : List (BitVec 8)
  size : byteArray.length = nBytes width
  deriving DecidableEq

namespace BitVector
variable {width : Nat}

def ofBytes (bytes : List (BitVec 8)) : BitVector width where
  byteArray := (bytes ++ List.replicate (nBytes width) 0).take (nBytes width)
  size := by simp

/-- `unpack_bit_vector_into_uint64`, without a sign. -/
def unpackIntoUint64 (bv : BitVector width) : Nat :=
  (bv.byteArray.take 8).foldr (fun byte word => byte.toNat + 256 * word) 0

/-- `bit_vector_to_uint64`, without a sign. -/
def toUint64 (bv : BitVector width) : Nat :=
  if width < 64 then bv.unpackIntoUint64 % 2 ^ width else bv.unpackIntoUint64

def bytesOf : Nat → Nat → List (BitVec 8)
  | 0, _ => []
  | n + 1, word => BitVec.ofNat 8 word :: bytesOf n (word / 256)

/-- `bit_vector_assign_uint64` of a cleared bit vector without unused bits. -/
def assignUint64 (word : Nat) : BitVector width := ofBytes (bytesOf 8 word)

/-- What `write_bit_vector_to_pipe` sends. -/
def payload (bv : BitVector width) : List (BitVec (wordSize width)) :=
  if isWordWidth width then [BitVec.ofNat (wordSize width) bv.toUint64]
  else bv.byteArray.map fun byte => byte.setWidth (wordSize width)

/-- What `read_bit_vector_from_pipe` makes of the words it reads. -/
def ofPayload (words : List (BitVec (wordSize width))) : BitVector width :=
  if isWordWidth width then assignUint64 (words.headD 0).toNat
  else ofBytes (words.map fun word => word.setWidth 8)

end BitVector

theorem isWordWidth_cases {width : Nat} (standard : isWordWidth width = true) :
    width = 8 ∨ width = 16 ∨ width = 32 ∨ width = 64 := by
  simpa [isWordWidth, or_assoc] using standard

/-- A word of the width of a C integer is one word, all of whose bytes are used. -/
theorem nWords_standard {width : Nat} (standard : isWordWidth width = true) :
    wordSize width = width ∧ nWords width = 1 ∧ nBytes width ≤ 8 ∧ 8 * nBytes width = width := by
  have size : wordSize width = width := if_pos standard
  rw [nWords, size]
  rcases isWordWidth_cases standard with rfl | rfl | rfl | rfl <;> decide

theorem nWords_bytes {width : Nat} (odd : isWordWidth width = false) :
    wordSize width = 8 ∧ nWords width = nBytes width := by
  have size : wordSize width = 8 := if_neg (by simp [odd])
  refine ⟨size, ?_⟩
  rw [nWords, size, nBytes]
  split_ifs <;> omega

theorem nWords_pos {width : Nat} (positive : 0 < width) : 0 < nWords width := by
  cases standard : isWordWidth width with
  | true => rw [(nWords_standard standard).2.1]; decide
  | false =>
      rw [(nWords_bytes standard).2, nBytes]
      split_ifs <;> omega

namespace BitVector

section Bytes

theorem bytesOf_length (n word : Nat) : (bytesOf n word).length = n := by
  induction n generalizing word with
  | zero => rfl
  | succ n ih => rw [bytesOf, List.length_cons, ih]

theorem take_bytesOf {n m : Nat} (fewer : n ≤ m) (word : Nat) : (bytesOf m word).take n = bytesOf n word := by
  induction n generalizing m word with
  | zero => rfl
  | succ n ih =>
      obtain ⟨m, rfl⟩ : ∃ k, m = k + 1 := ⟨m - 1, by omega⟩
      rw [bytesOf, bytesOf, List.take_succ_cons, ih (by omega)]

theorem bytesOf_foldr (bytes : List (BitVec 8)) :
    bytesOf bytes.length (bytes.foldr (fun byte word => byte.toNat + 256 * word) 0) = bytes := by
  induction bytes with
  | nil => rfl
  | cons byte bytes ih =>
      have bound := byte.isLt
      have low : BitVec.ofNat 8 (byte.toNat + 256 * bytes.foldr (fun byte word => byte.toNat + 256 * word) 0) =
          byte := by
        apply BitVec.eq_of_toNat_eq
        rw [BitVec.toNat_ofNat]
        omega
      have high : (byte.toNat + 256 * bytes.foldr (fun byte word => byte.toNat + 256 * word) 0) / 256 =
          bytes.foldr (fun byte word => byte.toNat + 256 * word) 0 := by omega
      rw [List.length_cons, List.foldr_cons, bytesOf, low, high, ih]

theorem foldr_lt (bytes : List (BitVec 8)) :
    bytes.foldr (fun byte word => byte.toNat + 256 * word) 0 < 2 ^ (8 * bytes.length) := by
  induction bytes with
  | nil => decide
  | cons byte bytes ih =>
      have bound := byte.isLt
      rw [List.foldr_cons, List.length_cons, Nat.mul_succ, Nat.pow_add]
      omega

end Bytes

variable {width : Nat}

theorem ofBytes_byteArray (bv : BitVector width) : ofBytes bv.byteArray = bv := by
  obtain ⟨bytes, size⟩ := bv
  simp only [ofBytes, mk.injEq]
  rw [← size, List.take_left]

theorem assignUint64_toUint64 (bv : BitVector width) (standard : isWordWidth width = true) :
    assignUint64 (BitVec.ofNat (wordSize width) bv.toUint64).toNat = bv := by
  obtain ⟨size, _, few, whole⟩ := nWords_standard standard
  have all : bv.byteArray.take 8 = bv.byteArray := List.take_of_length_le (by rw [bv.size]; exact few)
  have bound := foldr_lt bv.byteArray
  rw [bv.size, whole] at bound
  have same : (BitVec.ofNat (wordSize width) bv.toUint64).toNat =
      bv.byteArray.foldr (fun byte word => byte.toNat + 256 * word) 0 := by
    rw [BitVec.toNat_ofNat, size, toUint64, unpackIntoUint64, all]
    split_ifs
    · rw [Nat.mod_mod, Nat.mod_eq_of_lt bound]
    · exact Nat.mod_eq_of_lt bound
  rw [same]
  obtain ⟨bytes, length⟩ := bv
  simp only [assignUint64, ofBytes, mk.injEq]
  rw [List.take_append_of_le_length (by rw [bytesOf_length]; exact few), take_bytesOf few, ← length]
  exact bytesOf_foldr bytes

theorem payload_length (bv : BitVector width) : bv.payload.length = nWords width := by
  unfold payload
  cases standard : isWordWidth width with
  | true => exact (nWords_standard standard).2.1.symm
  | false =>
      rw [if_neg Bool.false_ne_true, List.length_map, bv.size, (nWords_bytes standard).2]

theorem ofPayload_payload (bv : BitVector width) : ofPayload bv.payload = bv := by
  unfold ofPayload payload
  cases standard : isWordWidth width with
  | true => exact assignUint64_toUint64 bv standard
  | false =>
      have size := (nWords_bytes standard).1
      have kept : (bv.byteArray.map fun byte => byte.setWidth (wordSize width)).map
          (fun word => word.setWidth 8) = bv.byteArray := by
        rw [List.map_map]
        apply List.map_id''
        intro byte
        apply BitVec.eq_of_toNat_eq
        have bound := byte.isLt
        simp only [Function.comp_apply, BitVec.toNat_setWidth, size]
        rw [Nat.mod_mod, Nat.mod_eq_of_lt bound]
      simp only [Bool.false_eq_true, if_false]
      rw [kept, ofBytes_byteArray]

theorem bytesOf_zero (n : Nat) : bytesOf n 0 = List.replicate n 0 := by
  induction n with
  | zero => rfl
  | succ n ih => rw [bytesOf, Nat.zero_div, ih, List.replicate_succ]; rfl

theorem ofPayload_zero : (ofPayload (List.replicate (nWords width) 0) : BitVector width) = ofBytes [] := by
  have zeros : ∀ n, (ofBytes (List.replicate n 0) : BitVector width) = ofBytes [] := by
    intro n
    simp only [ofBytes, mk.injEq, List.nil_append, List.take_replicate, Nat.min_self,
      List.replicate_append_replicate]
    congr 1
    omega
  unfold ofPayload
  cases standard : isWordWidth width with
  | true =>
      rw [(nWords_standard standard).2.1]
      simp only [if_true, List.replicate_one, List.headD_cons, assignUint64]
      have zero : (0 : BitVec (wordSize width)).toNat = 0 := by simp
      rw [zero, bytesOf_zero]
      exact zeros 8
  | false =>
      have zero : (0 : BitVec (wordSize width)).setWidth 8 = 0 := by simp
      simp only [Bool.false_eq_true, if_false, List.map_replicate, zero]
      exact zeros _

end BitVector

def bitVectorCoding (tsize : Nat) (positive : 0 < tsize) :
    Coding (BitVector tsize) (BitVec (wordSize tsize)) where
  count := nWords tsize
  words := BitVector.payload
  ofWords := BitVector.ofPayload
  count_pos := nWords_pos positive
  words_length := BitVector.payload_length
  ofWords_words := BitVector.ofPayload_payload

section Threads
variable {T : Type} [DecidableEq T] {tsize : Nat}

def registeredUsers (T : Type) (tsize : Nat) (depth : Int) (lifoMode noblockMode : Bool) :
    PipeUsers T (BitVector tsize) (BitVec (wordSize tsize)) where
  pipe := printCPipeRegistration tsize depth lifoMode noblockMode
  task := fun _ => .idle

theorem printCPipeRegistration_mode (depth : Int) (lifoMode noblockMode : Bool) :
    (printCPipeRegistration tsize depth lifoMode noblockMode).isLifoMode = lifoMode := by
  cases lifoMode <;> cases noblockMode <;> rfl

omit [DecidableEq T] in
theorem registeredUsers_whole (positive : 0 < tsize) (depth : Int) (lifoMode noblockMode : Bool) :
    PipeUsers.Whole (bitVectorCoding tsize positive) (registeredUsers T tsize depth lifoMode noblockMode) [] := by
  refine ⟨registerPipe_holds _ _, ?_, fun v member => absurd member (by simp), fun t => Or.inl rfl⟩
  simp only [registeredUsers, printCPipeRegistration, registerPipe, bitVectorCoding]
  have some := nWords_pos positive
  have deep : 0 < (if depth ≤ 0 then 1 else depth) := by split_ifs <;> omega
  rw [if_neg (by have := Int.mul_pos (Int.natCast_pos.mpr some) deep; omega), Int.toNat_mul (by omega) (by omega),
    Int.toNat_natCast]
  exact Dvd.intro _ rfl

/-- However the calls of the threads come one after the other, the pipe holds
whole values; those read are those written, in the order of a queue or of a stack,
as long as the words of every value that is written to a stack are the same in
both directions, as they are when it is one word.  A read takes all words of a
value, or it is a read that does not block, gives zero and takes none. -/
theorem bitVectors_pass_whole (positive : 0 < tsize) (depth : Int) (lifoMode noblockMode : Bool)
    {actions : List (Action T (BitVector tsize))}
    (symmetric : ∀ t v, .beginWrite t v ∈ actions → lifoMode = true → v.payload.reverse = v.payload) :
    let code := bitVectorCoding tsize positive
    let users := registeredUsers T tsize depth lifoMode noblockMode
    (∃ vs, replay lifoMode [] (valueLog (users.events code actions)) = some vs ∧
        (users.run code actions).pipe.numberOfEntries = nWords tsize * vs.length) ∧
      ∀ v consumed, .read v consumed ∈ users.events code actions →
        consumed = nWords tsize ∨
          consumed = 0 ∧ users.pipe.pipeMode = .fifoNonBlockRead ∧ v = BitVector.ofBytes [] := by
  intro code users
  have mode : users.pipe.isLifoMode = lifoMode := printCPipeRegistration_mode depth lifoMode noblockMode
  obtain ⟨vs, moves⟩ := (registeredUsers_whole (T := T) positive depth lifoMode noblockMode).run actions
    fun t v member lifo => symmetric t v member (mode ▸ lifo)
  refine ⟨⟨vs, ?_, ?_⟩, fun v consumed member => ?_⟩
  · rw [← mode]
    exact moves.replayed
  · have entries := moves.whole.holds.entries
    rwa [PipeUsers.length_words] at entries
  · rcases moves.reads _ member with whole | ⟨none, nonBlock, zero⟩
    · exact Or.inl whole
    · exact Or.inr ⟨none, nonBlock, zero.trans BitVector.ofPayload_zero⟩

end Threads

/-- Two threads write three bytes each to a queue that has room for one value. -/
theorem bitVectors_pass_whole_three :
    let first : BitVector 24 := ⟨[1, 2, 3], by decide⟩
    let second : BitVector 24 := ⟨[4, 5, 6], by decide⟩
    let code := bitVectorCoding 24 (by decide)
    let users := registeredUsers (Fin 3) 24 1 false false
    let actions : List (Action (Fin 3) (BitVector 24)) :=
      [.beginWrite 0 first, .beginWrite 1 second, .beginRead 2, .call 1, .call 0, .call 2, .call 0,
        .beginRead 2, .call 2]
    users.events code actions = [.wrote second, .read second 3, .wrote first, .read first 3] ∧
      ∃ vs, replay false [] (valueLog (users.events code actions)) = some vs ∧
        (users.run code actions).pipe.numberOfEntries = 3 * vs.length := by
  intro first second code users actions
  refine ⟨by decide, (bitVectors_pass_whole (by decide) 1 false false ?_).1⟩
  intro _ _ _ lifo
  cases lifo

/-- The bytes of a value come out of a stack the last one first. -/
theorem lifo_reverses_bytes :
    let value : BitVector 24 := ⟨[1, 2, 3], by decide⟩
    let code := bitVectorCoding 24 (by decide)
    let users := registeredUsers Unit 24 1 true false
    let actions : List (Action Unit (BitVector 24)) :=
      [.beginWrite () value, .call (), .beginRead (), .call ()]
    users.events code actions = [.wrote value, .read ⟨[3, 2, 1], by decide⟩ 3] ∧
      replay true [] (valueLog (users.events code actions)) = none := by
  decide

end Ahir.PipeHandler
