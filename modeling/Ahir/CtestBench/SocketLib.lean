import Ahir.CtestBench.PipeHandler
import Ahir.Data.WordArray
import Mathlib.Data.List.TakeWhile

/-!
# The payload of a message

A word goes over a socket as the characters of its bits, or in a payload of the
bytes of many words behind a header that ends with `#`.
-/

set_option autoImplicit false

namespace Ahir.CtestBench.SocketLib
open Ahir.Data

/-- What `strtok_r(str, " ", ..)` finds in a new string. -/
def strtok (str : List Char) : Option (List Char) :=
  match (str.dropWhile (· == ' ')).takeWhile (· != ' ') with
  | [] => none
  | c :: pstr => some (c :: pstr)

/-- The loop of `get_uint64_t` over what is left of the token, from its end. -/
def getLoop : Nat → BitVec 64 → List Char → BitVec 64
  | _, retVal, [] => retVal
  | pos, retVal, c :: rest =>
      let retVal := if c = '1' then retVal ||| (1 : BitVec 64) <<< pos else retVal
      if pos + 1 = 64 then retVal else getLoop (pos + 1) retVal rest

/-- `get_uint64_t`; for an empty string there is a message. -/
def getUint64 (str : List Char) : BitVec 64 :=
  match strtok str with
  | none => 0
  | some pstr => getLoop 0 0 pstr.reverse

/-- `get_uint8_t` and the like, by the length of the word. -/
def getUint (n : WordLength) (str : List Char) : BitVec n.bits := (getUint64 str).setWidth n.bits

def appendUint64Inner (str : List Char) (u : BitVec 64) (W : Nat) : List Char :=
  let tbuf := (List.range W).foldl
    (fun tbuf pos => if u.getLsbD pos then tbuf.set (W - 1 - pos) '1' else tbuf) (List.replicate W '0')
  str ++ tbuf

/-- `append_uint8_t` and the like. -/
def appendUint (n : WordLength) (str : List Char) (u : BitVec n.bits) : List Char :=
  appendUint64Inner str (u.setWidth 64) n.bits

abbrev Memory := Nat → Byte

/-- `*((uintN_t*) ptr)`, the lowest byte first. -/
def load (n : WordLength) (payload : Memory) (ptr : Nat) : BitVec n.bits :=
  lowBits n.bits fun i => (payload (ptr + i / 8)).getLsbD (i % 8)

/-- The memory after `*((uintN_t*) ptr) = x`. -/
def store (n : WordLength) (payload : Memory) (ptr : Nat) (x : BitVec n.bits) : Memory := fun a =>
  if ptr ≤ a ∧ a < ptr + n.bytes then x.extractLsb' (8 * (a - ptr)) 8 else payload a

def packValue (payload : Memory) (wlength : WordLength) (offset : Nat) (portValue : List Char) : Memory :=
  store wlength payload (offset * wlength.bits / 8) (getUint wlength portValue)

def unpackValue (payload : Memory) (wlength : WordLength) (offset : Nat) : List Char :=
  appendUint wlength [] (load wlength payload (offset * wlength.bits / 8))

def hash : Byte := 35

/-- `hash_pos`; none for the end of the string. -/
def hashPos : List Byte → Option Nat
  | [] => none
  | c :: rest => if c = hash then some 0 else if c = 0 then none else (hashPos rest).map (· + 1)

/-- `extract_payload`: the bytes that are copied, and how many the caller is told. -/
def extractPayload (receiveBuffer : List Byte) (maxN : Nat) : List Byte × Nat :=
  match hashPos receiveBuffer with
  | none => ([], 0)
  | some hashPos => ((receiveBuffer.drop (hashPos + 1)).take (maxN - (hashPos + 1)), maxN - (hashPos + 1))

def payloadLength (n : WordLength) (words : Nat) : Nat := words * n.bits / 8

def packAll (n : WordLength) (payload : Memory) (portValues : List (List Char)) : Memory :=
  (portValues.zipIdx).foldl (fun payload word => packValue payload n word.2 word.1) payload

def message (header : List Byte) (payload : Memory) (length : Nat) : List Byte :=
  header ++ hash :: (List.range length).map payload

def cString (str : List Char) : List Byte := str.map (fun c => BitVec.ofNat 8 c.toNat) ++ [0]

/-- `*(job->buffer.ptrN)` -/
def firstWord (job : PipeJob) : BitVec job.wordLength.bits := load job.wordLength (fun a => (job.buffer 0).getD a 0) 0

/-- `job->buffer.ptr8[a]`, also behind the words of the job. -/
def bufferByte (job : PipeJob) (a : Nat) : Byte := (job.buffer (a / job.wordLength.bytes)).getD (a % job.wordLength.bytes) 0

/-- What `send_and_close_connection` is given. -/
structure Response where
  sendBuffer : List Byte
  messageLength : Nat

/-- `ack_and_close_connection` -/
def ack (status : Bool) : Response := ⟨cString (if status then ['1'] else ['0']), 2⟩

/-- `send_job_response`.  Nothing is stored in `send_buffer` before the digits are appended
to it: it begins with some string. -/
def sendJobResponse (sendBuffer : List Char) (job : PipeJob) : Response :=
  if !job.readWriteBar then ack true
  else if !job.isBurstAccess then
    let sendBuffer := appendUint job.wordLength sendBuffer (firstWord job)
    ⟨cString sendBuffer, sendBuffer.length + 1⟩
  else
    let messageLength := job.wordLength.bits * job.wordsRequested
    ⟨(List.range messageLength).map (bufferByte job), messageLength⟩

/-- What the client of a job waits for: a status, the digits of a word or the words. -/
def responsePayload (job : PipeJob) : List Byte :=
  if !job.readWriteBar then cString ['1']
  else if !job.isBurstAccess then cString (appendUint job.wordLength [] (firstWord job))
  else (List.range job.wordsRequested).flatMap job.buffer

section Digits

theorem getElem?_appendUint64Inner (u : BitVec 64) (W k : Nat) (le : k ≤ W) (j : Nat) (inside : j < W) :
    ((List.range k).foldl (fun tbuf pos => if u.getLsbD pos then tbuf.set (W - 1 - pos) '1' else tbuf)
      (List.replicate W '0'))[j]? = some (if W - 1 - j < k ∧ u.getLsbD (W - 1 - j) then '1' else '0') := by
  induction k with
  | zero => simp [inside]
  | succ k ih =>
      have before := ih (by omega)
      rw [List.range_succ, List.foldl_append, List.foldl_cons, List.foldl_nil]
      by_cases here : W - 1 - j = k
      · have place : W - 1 - k = j := by omega
        rw [here]
        by_cases bit : u.getLsbD k = true
        · rw [if_pos bit, place, List.getElem?_set_self', before]
          simp [bit]
        · rw [if_neg bit, before, here]
          simp [bit]
      · have same : (W - 1 - j < k + 1) = (W - 1 - j < k) := by rw [eq_iff_iff]; omega
        simp only [same]
        rw [← before]
        split
        · rw [List.getElem?_set_ne (by omega)]
        · rfl

theorem appendUint64Inner_nil (u : BitVec 64) (W : Nat) :
    appendUint64Inner [] u W = (List.range W).reverse.map fun pos => if u.getLsbD pos then '1' else '0' := by
  have length (k : Nat) : ((List.range k).foldl
      (fun tbuf pos => if u.getLsbD pos then tbuf.set (W - 1 - pos) '1' else tbuf) (List.replicate W '0')).length = W := by
    induction k with
    | zero => simp
    | succ k ih =>
        rw [List.range_succ, List.foldl_append, List.foldl_cons, List.foldl_nil]
        split
        · rw [List.length_set, ih]
        · exact ih
  rw [appendUint64Inner, List.nil_append]
  refine List.ext_getElem? fun j => ?_
  by_cases inside : j < W
  · rw [getElem?_appendUint64Inner u W W le_rfl j inside, List.getElem?_map,
      List.getElem?_reverse (by rwa [List.length_range]), List.length_range, List.getElem?_range (by omega)]
    simp [show W - 1 - j < W by omega]
  · rw [List.getElem?_eq_none (by rw [length]; omega), List.getElem?_eq_none (by simp; omega)]

theorem strtok_of_blankless {str : List Char} (nonempty : str ≠ []) (blankless : ∀ c ∈ str, c ≠ ' ') :
    strtok str = some str := by
  obtain ⟨c, cs, rfl⟩ := List.exists_cons_of_ne_nil nonempty
  have first : (c == ' ') = false := beq_eq_false_iff_ne.mpr (blankless c List.mem_cons_self)
  have all : (c :: cs).takeWhile (· != ' ') = c :: cs :=
    List.takeWhile_eq_self_iff.mpr fun d mem => bne_iff_ne.mpr (blankless d mem)
  rw [strtok, List.dropWhile_cons_of_neg (by rw [first]; exact Bool.false_ne_true), all]

theorem getLsbD_getLoop (pos : Nat) (below : pos < 64) (retVal : BitVec 64) (cs : List Char) (i : Nat) (inside : i < 64) :
    (getLoop pos retVal cs).getLsbD i =
      (retVal.getLsbD i || (decide (pos ≤ i) && (cs[i - pos]? == some '1'))) := by
  induction cs generalizing pos retVal with
  | nil => simp [getLoop]
  | cons c cs ih =>
      have bit : (if c = '1' then retVal ||| (1 : BitVec 64) <<< pos else retVal).getLsbD i =
          (retVal.getLsbD i || (decide (pos = i) && (some c == some '1'))) := by
        split
        · next one =>
            rw [BitVec.getLsbD_or, one, getLsbD_one_shiftLeft inside]
            simp
        · next other =>
            rw [show (some c == some '1') = false by simpa using other, Bool.and_false, Bool.or_false]
      rw [getLoop]
      by_cases here : pos = i
      · subst here
        have now : (c :: cs)[pos - pos]? = some c := by rw [Nat.sub_self, List.getElem?_cons_zero]
        rw [decide_eq_true rfl, Bool.true_and] at bit
        rw [now, decide_eq_true le_rfl, Bool.true_and]
        split
        · exact bit
        · rw [ih (pos + 1) (by omega), bit, decide_eq_false (by omega), Bool.false_and, Bool.or_false]
      · rw [decide_eq_false here, Bool.false_and, Bool.or_false] at bit
        split
        · rw [bit, decide_eq_false (by omega), Bool.false_and, Bool.or_false]
        · rw [ih (pos + 1) (by omega), bit]
          by_cases later : pos ≤ i
          · rw [decide_eq_true later, decide_eq_true (by omega), show i - pos = (i - (pos + 1)) + 1 by omega,
              List.getElem?_cons_succ]
          · rw [decide_eq_false later, decide_eq_false (by omega), Bool.false_and, Bool.false_and]

theorem getUint_appendUint (n : WordLength) (u : BitVec n.bits) : getUint n (appendUint n [] u) = u := by
  have small : 0 < n.bits ∧ n.bits ≤ 64 := by cases n <;> decide
  have text := appendUint64Inner_nil (u.setWidth 64) n.bits
  have blankless : ∀ c ∈ appendUint n [] u, c ≠ ' ' := by
    intro c mem
    rw [appendUint, text] at mem
    obtain ⟨pos, -, rfl⟩ := List.mem_map.mp mem
    split <;> decide
  have nonempty : appendUint n [] u ≠ [] := by
    rw [appendUint, text]
    simp
    omega
  rw [getUint, getUint64, strtok_of_blankless nonempty blankless]
  refine BitVec.eq_of_getLsbD_eq fun i below => ?_
  have inside : i < 64 := by omega
  have bit : (u.setWidth 64).getLsbD i = u.getLsbD i := by
    rw [BitVec.getLsbD_setWidth, decide_eq_true inside, Bool.true_and]
  dsimp only
  rw [BitVec.getLsbD_setWidth, decide_eq_true below, Bool.true_and, getLsbD_getLoop 0 (by decide) _ _ i inside,
    appendUint, text, ← List.map_reverse, List.reverse_reverse, List.getElem?_map, Nat.sub_zero,
    List.getElem?_range below, Option.map_some, bit]
  cases u.getLsbD i <;> simp

end Digits

section Payload
variable {n : WordLength}

theorem bytes_pos (n : WordLength) : 0 < n.bytes := by cases n <;> decide

theorem ptr_eq (n : WordLength) (k : Nat) : k * n.bits / 8 = k * n.bytes := by
  rw [WordLength.bits, show k * (8 * n.bytes) = 8 * (k * n.bytes) by ring, Nat.mul_div_cancel_left _ (by decide)]

theorem payloadLength_eq (n : WordLength) (words : Nat) : payloadLength n words = words * n.bytes := ptr_eq n words

theorem load_congr {payload payload' : Memory} {ptr : Nat}
    (same : ∀ a, ptr ≤ a → a < ptr + n.bytes → payload a = payload' a) : load n payload ptr = load n payload' ptr := by
  refine lowBits_congr fun i below => ?_
  have byte : i / 8 < n.bytes := by rw [WordLength.bits] at below; omega
  rw [same _ (by omega) (by omega)]

theorem load_store (payload : Memory) (ptr : Nat) (x : BitVec n.bits) : load n (store n payload ptr x) ptr = x := by
  refine lowBits_eq fun i below => ?_
  have byte : i / 8 < n.bytes := by rw [WordLength.bits] at below; omega
  rw [store, if_pos (by omega), Nat.add_sub_cancel_left, BitVec.getLsbD_extractLsb',
    decide_eq_true (Nat.mod_lt i (by decide)), Bool.true_and, Nat.div_add_mod]

theorem load_store_of_ne (payload : Memory) {k l : Nat} (ne : k ≠ l) (x : BitVec n.bits) :
    load n (store n payload (k * n.bytes) x) (l * n.bytes) = load n payload (l * n.bytes) := by
  refine load_congr fun a lower upper => ?_
  rw [store, if_neg]
  rintro ⟨low, high⟩
  rcases Nat.lt_or_gt_of_ne ne with less | greater
  · have : (k + 1) * n.bytes ≤ l * n.bytes := Nat.mul_le_mul_right _ less
    have : (k + 1) * n.bytes = k * n.bytes + n.bytes := by ring
    omega
  · have : (l + 1) * n.bytes ≤ k * n.bytes := Nat.mul_le_mul_right _ greater
    have : (l + 1) * n.bytes = l * n.bytes + n.bytes := by ring
    omega

/-- The words stand one after the other; what is not written keeps what it was. -/
theorem load_foldl_packValue (payload : Memory) (portValues : List (List Char)) (start k : Nat) :
    load n ((portValues.zipIdx start).foldl (fun payload word => packValue payload n word.2 word.1) payload)
        (k * n.bytes) =
      if start ≤ k then ((portValues[k - start]?).map (getUint n)).getD (load n payload (k * n.bytes))
      else load n payload (k * n.bytes) := by
  induction portValues generalizing start payload with
  | nil => simp
  | cons portValue portValues ih =>
      rw [List.zipIdx_cons, List.foldl_cons, ih, packValue, ptr_eq]
      by_cases here : start = k
      · subst here
        rw [if_neg (by omega), if_pos le_rfl, load_store, Nat.sub_self]
        rfl
      · rw [load_store_of_ne payload here]
        by_cases later : start ≤ k
        · rw [if_pos (by omega), if_pos later, show k - start = (k - (start + 1)) + 1 by omega, List.getElem?_cons_succ]
        · rw [if_neg (by omega), if_neg later]

theorem hashPos_header {header : List Byte} (plain : ∀ c ∈ header, c ≠ hash ∧ c ≠ 0) (rest : List Byte) :
    hashPos (header ++ hash :: rest) = some header.length := by
  induction header with
  | nil => rw [List.nil_append, hashPos, if_pos rfl, List.length_nil]
  | cons c header ih =>
      obtain ⟨noHash, noEnd⟩ := plain c List.mem_cons_self
      rw [List.cons_append, hashPos, if_neg noHash, if_neg noEnd,
        ih fun d mem => plain d (List.mem_cons_of_mem _ mem), Option.map_some, List.length_cons]

theorem extractPayload_message {header : List Byte} (plain : ∀ c ∈ header, c ≠ hash ∧ c ≠ 0) (payload : Memory)
    (length : Nat) : extractPayload (message header payload length) (message header payload length).length =
      ((List.range length).map payload, length) := by
  have behind : (message header payload length).length - (header.length + 1) = length := by
    rw [message, List.length_append, List.length_cons, List.length_map, List.length_range]
    omega
  have bytes : (message header payload length).drop (header.length + 1) = (List.range length).map payload := by
    rw [message, List.drop_append, List.drop_of_length_le (by omega), List.nil_append, Nat.add_sub_cancel_left]
    rfl
  rw [extractPayload, message, hashPos_header plain, ← message]
  dsimp only
  rw [behind, bytes, List.take_of_length_le (by simp)]

theorem getUint_unpackValue {header : List Byte} (plain : ∀ c ∈ header, c ≠ hash ∧ c ≠ 0) (memory : Memory)
    (values : List (BitVec n.bits)) {k : Nat} {value : BitVec n.bits} (isWord : values[k]? = some value) :
    let payload := packAll n memory (values.map fun value => appendUint n [] value)
    let sent := message header payload (payloadLength n values.length)
    let received : Memory := fun a => (extractPayload sent sent.length).1.getD a 0
    getUint n (unpackValue received n k) = value := by
  intro payload sent received
  obtain ⟨inside, -⟩ := List.getElem?_eq_some_iff.mp isWord
  have copied : ∀ a < values.length * n.bytes, received a = payload a := by
    intro a below
    have bytes := extractPayload_message plain payload (payloadLength n values.length)
    have there : ((List.range (payloadLength n values.length)).map payload).getD a 0 = payload a := by
      rw [payloadLength_eq, List.getD_eq_getElem?_getD, List.getElem?_map, List.getElem?_range below]
      rfl
    rw [← there]
    exact congrArg (fun copied => copied.1.getD a 0) bytes
  have room : (k + 1) * n.bytes ≤ values.length * n.bytes := Nat.mul_le_mul_right _ inside
  have words : (k + 1) * n.bytes = k * n.bytes + n.bytes := by ring
  have stored := load_foldl_packValue (n := n) memory (values.map fun value => appendUint n [] value) 0 k
  rw [if_pos (Nat.zero_le k), Nat.sub_zero, List.getElem?_map, isWord] at stored
  rw [unpackValue, getUint_appendUint, ptr_eq, load_congr fun a _ upper => copied a (by omega)]
  refine stored.trans ?_
  exact getUint_appendUint n value

end Payload

structure PayloadRoundTrips (n : WordLength) (values : List (BitVec n.bits)) (header : List Byte) (memory : Memory) :
    Prop where
  length :
    let payload := packAll n memory (values.map fun value => appendUint n [] value)
    let sent := message header payload (payloadLength n values.length)
    (extractPayload sent sent.length).2 = payloadLength n values.length
  values :
    let payload := packAll n memory (values.map fun value => appendUint n [] value)
    let sent := message header payload (payloadLength n values.length)
    let received : Memory := fun a => (extractPayload sent sent.length).1.getD a 0
    ∀ k value, values[k]? = some value → getUint n (unpackValue received n k) = value

theorem payloadRoundTrips (n : WordLength) (values : List (BitVec n.bits)) {header : List Byte}
    (plain : ∀ c ∈ header, c ≠ hash ∧ c ≠ 0) (memory : Memory) : PayloadRoundTrips n values header memory :=
  ⟨congrArg Prod.snd (extractPayload_message plain _ _), fun _ _ isWord => getUint_unpackValue plain memory values isWord⟩

/-- The codec, and a response that is told to be as long as its payload. -/
structure RoundTrips (n : WordLength) (values : List (BitVec n.bits)) (sendBuffer : List Char) (job : PipeJob) : Prop where
  codec : ∀ (header : List Byte) (memory : Memory), (∀ c ∈ header, c ≠ hash ∧ c ≠ 0) →
    PayloadRoundTrips n values header memory
  response : (sendJobResponse sendBuffer job).messageLength = (responsePayload job).length

theorem length_words (job : PipeJob) :
    ((List.range job.wordsRequested).flatMap job.buffer).length = job.wordsRequested * job.wordLength.bytes := by
  rw [List.length_flatMap, List.map_congr_left fun k _ => job.length_buffer k, List.map_const', List.sum_replicate,
    List.length_range, smul_eq_mul]

theorem appendUint_eq (n : WordLength) (str : List Char) (u : BitVec n.bits) :
    appendUint n str u = str ++ appendUint n [] u := rfl

theorem length_cString (str : List Char) : (cString str).length = str.length + 1 := by
  rw [cString, List.length_append, List.length_map, List.length_singleton]

/-- The characters that the uninitialised buffer begins with are counted with the digits. -/
theorem response_single {job : PipeJob} (read : job.readWriteBar = true) (single : job.isBurstAccess = false)
    (sendBuffer : List Char) :
    (sendJobResponse sendBuffer job).messageLength = (responsePayload job).length ↔ sendBuffer = [] := by
  rw [sendJobResponse, responsePayload, read, single]
  simp only [Bool.not_true, Bool.not_false, Bool.false_eq_true, if_false, if_true]
  rw [length_cString, appendUint_eq, List.length_append, ← List.length_eq_zero_iff]
  omega

theorem response_burst {job : PipeJob} (read : job.readWriteBar = true) (burst : job.isBurstAccess = true)
    (sendBuffer : List Char) :
    (sendJobResponse sendBuffer job).messageLength = (responsePayload job).length ↔ job.wordsRequested = 0 := by
  have pos := bytes_pos job.wordLength
  rw [sendJobResponse, responsePayload, read, burst]
  simp only [Bool.not_true, Bool.false_eq_true, if_false]
  rw [length_words, WordLength.bits, Nat.mul_comm job.wordsRequested, Nat.mul_assoc]
  constructor
  · intro length
    by_contra nonempty
    have bytes : 0 < job.wordLength.bytes * job.wordsRequested := Nat.mul_pos pos (Nat.pos_of_ne_zero nonempty)
    omega
  · intro empty
    rw [empty, Nat.mul_zero, Nat.mul_zero]

theorem response_write {job : PipeJob} (write : job.readWriteBar = false) (sendBuffer : List Char) :
    (sendJobResponse sendBuffer job).messageLength = (responsePayload job).length := by
  rw [sendJobResponse, responsePayload, write]
  rfl

/-- A write is always answered as it should be, a burst of no words too, and a single read
when `send_buffer` happens to begin with the end of a string. -/
theorem roundTrips_iff (n : WordLength) (values : List (BitVec n.bits)) (sendBuffer : List Char) (job : PipeJob) :
    RoundTrips n values sendBuffer job ↔
      (job.readWriteBar = true → if job.isBurstAccess then job.wordsRequested = 0 else sendBuffer = []) := by
  have codec : RoundTrips n values sendBuffer job ↔
      (sendJobResponse sendBuffer job).messageLength = (responsePayload job).length :=
    ⟨RoundTrips.response, fun response => ⟨fun header memory plain => payloadRoundTrips n values plain memory, response⟩⟩
  rw [codec]
  cases kind : job.readWriteBar with
  | false => exact ⟨fun _ read => absurd read Bool.false_ne_true, fun _ => response_write kind sendBuffer⟩
  | true =>
      simp only [forall_const]
      cases access : job.isBurstAccess with
      | false =>
          rw [if_neg Bool.false_ne_true]
          exact response_single kind access sendBuffer
      | true =>
          rw [if_pos rfl]
          exact response_burst kind access sendBuffer

/-- One byte that is read in a burst is answered with eight. -/
theorem messageLength_byte :
    let job : PipeJob := ⟨"p", .w8, 1, 1, 0, true, true, fun _ => [7], fun _ => rfl⟩
    (sendJobResponse [] job).messageLength = 8 ∧ responsePayload job = [7] ∧
      ¬ RoundTrips .w8 [(7 : BitVec 8)] [] job := by
  intro job
  refine ⟨rfl, rfl, fun trips => ?_⟩
  exact absurd trips.response (by decide)

end Ahir.CtestBench.SocketLib
