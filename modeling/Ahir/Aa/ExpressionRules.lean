import Ahir.Aa.ExpressionText

/-!
# The rules for expressions

The rules that read an expression, and what they make of the text that is printed for one.
-/

set_option autoImplicit false

namespace Ahir.Aa.Text
open Ahir.Text
variable {L : Leaves}

section Rules

/-- A pair of the rule for bitmaps, put into the map at its destination. -/
def insertDestination (pair : Nat × Nat) : List (Nat × Nat) → List (Nat × Nat)
  | [] => [pair]
  | other :: others =>
      if pair.2 < other.2 then pair :: other :: others
      else if pair.2 = other.2 then pair :: others
      else other :: insertDestination pair others

theorem mem_insertDestination {pair p : Nat × Nat} {pairs : List (Nat × Nat)} (mem : p ∈ insertDestination pair pairs) :
    p = pair ∨ p ∈ pairs := by
  induction pairs with
  | nil => exact Or.inl (List.mem_singleton.mp mem)
  | cons other others ih =>
      unfold insertDestination at mem
      split at mem
      · exact List.mem_cons.mp mem
      · split at mem
        · exact (List.mem_cons.mp mem).imp_right (List.mem_cons_of_mem _)
        · rcases List.mem_cons.mp mem with rfl | later
          · exact Or.inr List.mem_cons_self
          · exact (ih later).imp_right (List.mem_cons_of_mem _)

theorem insertDestination_sorted (pair : Nat × Nat) {pairs : List (Nat × Nat)} (sorted : pairs.Pairwise (·.2 < ·.2)) :
    (insertDestination pair pairs).Pairwise (·.2 < ·.2) := by
  induction sorted with
  | nil => exact List.pairwise_singleton _ _
  | @cons other others first rest ih =>
      unfold insertDestination
      split
      · next less =>
          refine List.pairwise_cons.mpr ⟨fun p mem => ?_, List.pairwise_cons.mpr ⟨first, rest⟩⟩
          rcases List.mem_cons.mp mem with rfl | later
          · exact less
          · exact less.trans (first p later)
      · split
        · next same => exact List.pairwise_cons.mpr ⟨fun p mem => same ▸ first p mem, rest⟩
        · next notLess notSame =>
            refine List.pairwise_cons.mpr ⟨fun p mem => ?_, ih⟩
            rcases mem_insertDestination mem with rfl | later
            · omega
            · exact first p later

theorem insertDestination_last {pair : Nat × Nat} {pairs : List (Nat × Nat)} (greatest : ∀ p ∈ pairs, p.2 < pair.2) :
    insertDestination pair pairs = pairs ++ [pair] := by
  induction pairs with
  | nil => rfl
  | cons other others ih =>
      have less := greatest other List.mem_cons_self
      rw [insertDestination, if_neg (Nat.lt_asymm less), if_neg (Nat.ne_of_gt less),
        ih fun p mem => greatest p (List.mem_cons_of_mem _ mem)]
      rfl

def destinationMap (pairs : List (Nat × Nat)) : List (Nat × Nat) := pairs.foldl (fun map pair => insertDestination pair map) []

theorem foldl_insertDestination {map pairs : List (Nat × Nat)} (sorted : (map ++ pairs).Pairwise (·.2 < ·.2)) :
    pairs.foldl (fun map pair => insertDestination pair map) map = map ++ pairs := by
  induction pairs generalizing map with
  | nil => rw [List.foldl_nil, List.append_nil]
  | cons pair pairs ih =>
      have greatest : ∀ p ∈ map, p.2 < pair.2 := fun p mem =>
        (List.pairwise_append.mp sorted).2.2 p mem pair List.mem_cons_self
      rw [List.foldl_cons, insertDestination_last greatest, ih (by rwa [List.append_assoc]), List.append_assoc]
      rfl

theorem destinationMap_sorted (pairs : List (Nat × Nat)) : (destinationMap pairs).Pairwise (·.2 < ·.2) := by
  have all : ∀ map : List (Nat × Nat), map.Pairwise (·.2 < ·.2) →
      (pairs.foldl (fun map pair => insertDestination pair map) map).Pairwise (·.2 < ·.2) := by
    induction pairs with
    | nil => exact fun _ sorted => sorted
    | cons pair pairs ih => exact fun map sorted => ih _ (insertDestination_sorted pair sorted)
  exact all [] List.Pairwise.nil

def Bitmap.ofPairs (pairs : List (Nat × Nat)) : Option Bitmap :=
  if h : destinationMap pairs ≠ [] then some ⟨destinationMap pairs, h, destinationMap_sorted pairs⟩ else none

theorem Bitmap.ofPairs_pairs (bitmap : Bitmap) : Bitmap.ofPairs bitmap.pairs = some bitmap := by
  have same : destinationMap bitmap.pairs = bitmap.pairs := @foldl_insertDestination [] bitmap.pairs bitmap.sorted
  unfold Bitmap.ofPairs
  rw [dif_pos (by rw [same]; exact bitmap.nonempty)]
  obtain ⟨pairs, nonempty, sorted⟩ := bitmap
  simp only [same]

def parsePairs : List Token → List (Nat × Nat) × List Token
  | .uinteger sid :: .uinteger tid :: ts => ((atoi sid, atoi tid) :: (parsePairs ts).1, (parsePairs ts).2)
  | ts => ([], ts)

def unaryOperation : List Token → Option (UnaryOperation × List Token)
  | .not :: ts => some (.not, ts)
  | .decode :: ts => some (.decode, ts)
  | .encode :: ts => some (.encode, ts)
  | .priorityencode :: ts => some (.priorityencode, ts)
  | .bitreduce :: .or :: ts => some (.bitreduceor, ts)
  | .bitreduce :: .and :: ts => some (.bitreduceand, ts)
  | .bitreduce :: .xor :: ts => some (.bitreducexor, ts)
  | _ => none

/-- `aA_Binary_Op`. -/
def binaryOp : List Token → Option (BinaryOperation × List Token)
  | .or :: ts => some (.or, ts)
  | .and :: ts => some (.and, ts)
  | .nor :: ts => some (.nor, ts)
  | .nand :: ts => some (.nand, ts)
  | .xor :: ts => some (.xor, ts)
  | .xnor :: ts => some (.xnor, ts)
  | .shl :: ts => some (.shl, ts)
  | .shr :: ts => some (.shr, ts)
  | .rol :: ts => some (.rol, ts)
  | .ror :: ts => some (.ror, ts)
  | .plus :: ts => some (.plus, ts)
  | .minus :: ts => some (.minus, ts)
  | .div :: ts => some (.div, ts)
  | .mul :: ts => some (.mul, ts)
  | .equal :: ts => some (.equal, ts)
  | .notequal :: ts => some (.notequal, ts)
  | .less :: ts => some (.less, ts)
  | .lessequal :: ts => some (.lessequal, ts)
  | .greater :: ts => some (.greater, ts)
  | .greaterequal :: ts => some (.greaterequal, ts)
  | .bitsel :: ts => some (.bitsel, ts)
  | .concat :: ts => some (.concat, ts)
  | .unordered :: ts => some (.unordered, ts)
  | .power :: ts => some (.pow, ts)
  | _ => none

/-- `aA_Expression_Buffering_Spec`, where there is one. An expression is built with a buffering of 1. -/
def bufferingSpec : List Token → Option (Int × List Token)
  | .buffering :: ts => (integerParameter ts).map fun found => (Int.ofNat found.1, found.2)
  | ts => some (1, ts)

def closeExpression (expr : Int → AaExpression L) (ts : List Token) : Option (AaExpression L × List Token) := do
  let (buffering, ts) ← bufferingSpec ts
  let ts ← expect .rparen ts
  some (expr buffering, ts)

variable (expression : List Token → Option (AaExpression L × List Token))

def castExpression (bitCast : Bool) (ts : List Token) : Option (AaExpression L × List Token) := do
  let ts ← expect .lparen ts
  let (toType, ts) ← parseType ts.length ts
  let ts ← expect .rparen ts
  let (rest, ts) ← expression ts
  closeExpression (.typeCast bitCast toType rest) ts

def sliceExpression (ts : List Token) : Option (AaExpression L × List Token) := do
  let (rest, ts) ← expression ts
  let (hindex, ts) ← integerParameter ts
  let (lindex, ts) ← integerParameter ts
  if hindex < lindex then none
  else closeExpression (.slice ⟨hindex - lindex + 1, Nat.succ_pos _⟩ lindex rest) ts

def bitmapExpression (ts : List Token) : Option (AaExpression L × List Token) := do
  let (rest, ts) ← expression ts
  let bitmapVector ← Bitmap.ofPairs (parsePairs ts).1
  closeExpression (.bitmap bitmapVector rest) (parsePairs ts).2

def unaryExpression (operation : UnaryOperation) (ts : List Token) : Option (AaExpression L × List Token) := do
  let (rest, ts) ← expression ts
  closeExpression (.unary operation rest) ts

def binaryExpression (ts : List Token) : Option (AaExpression L × List Token) := do
  let (first, ts) ← expression ts
  let (opid, ts) ← binaryOp ts
  let (second, ts) ← expression ts
  closeExpression (.binary opid first second) ts

def ternaryExpression (ts : List Token) : Option (AaExpression L × List Token) := do
  let (test, ts) ← expression ts
  let (ifTrue, ts) ← expression ts
  let (ifFalse, ts) ← expression ts
  closeExpression (.ternary test ifTrue ifFalse) ts

/-- The arguments up to the parenthesis, not more of them than the first number. -/
def parseArguments : Nat → List Token → Option (Arguments L × List Token)
  | _, .rparen :: ts => some (.nil, ts)
  | 0, _ => none
  | n + 1, ts => do
      let (argument, ts) ← expression ts
      let (arguments, ts) ← parseArguments n ts
      some (.cons argument arguments, ts)

def functionCallExpression : List Token → Option (AaExpression L × List Token)
  | .simpleIdentifier fid :: .lparen :: ts => do
      let moduleIdentifier ← Identifier.ofText fid
      let (arguments, ts) ← parseArguments expression ts.length ts
      closeExpression (.functionCall moduleIdentifier arguments) ts
  | _ => none

/-- `aA_Expression`, in rules nested not deeper than the first argument. The rules that begin
with `$concat`, `$prioritymux`, `$excmux`, `$reduce`, `$zero` and `$one` build expressions of
the same kinds, which are never printed so. -/
def parseExpression (L : Leaves) : Nat → List Token → Option (AaExpression L × List Token)
  | 0, _ => none
  | fuel + 1, .lparen :: ts =>
      match ts with
      | .cast :: ts => castExpression (parseExpression L fuel) false ts
      | .bitcast :: ts => castExpression (parseExpression L fuel) true ts
      | .slice :: ts => sliceExpression (parseExpression L fuel) ts
      | .bitmap :: ts => bitmapExpression (parseExpression L fuel) ts
      | .mux :: ts => ternaryExpression (parseExpression L fuel) ts
      | .call :: ts => functionCallExpression (parseExpression L fuel) ts
      | ts =>
          match unaryOperation ts with
          | some (operation, ts) => unaryExpression (parseExpression L fuel) operation ts
          | none => binaryExpression (parseExpression L fuel) ts
  | _ + 1, ts => (L.parse ts).map fun found => (.leaf found.1, found.2)

def readExpression (L : Leaves) (text : List Char) : Option (AaExpression L) := do
  let ts ← lex munch text
  match parseExpression L ts.length ts with
  | some (expr, []) => some expr
  | _ => none

end Rules

section Reread

def rereadBuffering (buffering : Int) : Int := if 1 < buffering then buffering else 1

mutual

@[simp]
def AaExpression.reread : AaExpression L → Option (AaExpression L)
  | .leaf reference => some (.leaf reference)
  | .typeCast bitCast toType rest buffering => do
      let rest ← rest.reread
      some (.typeCast bitCast toType rest (rereadBuffering buffering))
  | .slice width lowIndex rest buffering => do
      let rest ← rest.reread
      if lowIndex < 0 then none else some (.slice width lowIndex rest (rereadBuffering buffering))
  | .bitmap bitmapVector rest buffering => do
      let rest ← rest.reread
      some (.bitmap bitmapVector rest (rereadBuffering buffering))
  | .unary operation rest buffering => do
      let rest ← rest.reread
      some (.unary operation rest (rereadBuffering buffering))
  | .binary operation first second buffering => do
      let first ← first.reread
      let second ← second.reread
      some (.binary operation first second (rereadBuffering buffering))
  | .ternary test ifTrue ifFalse buffering => do
      let test ← test.reread
      let ifTrue ← ifTrue.reread
      let ifFalse ← ifFalse.reread
      some (.ternary test ifTrue ifFalse (rereadBuffering buffering))
  | .functionCall moduleIdentifier arguments _ => do
      let arguments ← arguments.reread
      some (.functionCall moduleIdentifier arguments 1)

@[simp]
def Arguments.reread : Arguments L → Option (Arguments L)
  | .nil => some .nil
  | .cons argument arguments => do
      let argument ← argument.reread
      let arguments ← arguments.reread
      some (.cons argument arguments)

end

theorem bufferingSpec_rparen (rest : List Token) : bufferingSpec (.rparen :: rest) = some (1, .rparen :: rest) := rfl

theorem closeExpression_tokens (expr : Int → AaExpression L) (buffering : Int) (rest : List Token) :
    closeExpression expr (tokensOfClosing buffering ++ rest) = some (expr (rereadBuffering buffering), rest) := by
  unfold tokensOfClosing rereadBuffering
  split
  · next more =>
      have positive : ¬ buffering < 0 := by omega
      have same : Int.ofNat buffering.natAbs = buffering := by simp only [Int.ofNat_eq_natCast]; omega
      simp only [tokensOfInt, if_neg positive, List.cons_append, List.nil_append, closeExpression, bufferingSpec,
        integerParameter_digits, expect_cons, Option.map_some, Option.bind_eq_bind, Option.bind_some, same]
  · simp only [List.cons_append, List.nil_append, closeExpression, bufferingSpec_rparen, expect_cons, Option.bind_eq_bind,
      Option.bind_some]

theorem closing_head (buffering : Int) (rest : List Token) :
    ∃ token ts, tokensOfClosing buffering ++ rest = token :: ts ∧ (token = .buffering ∨ token = .rparen) := by
  unfold tokensOfClosing
  split
  · exact ⟨_, _, rfl, Or.inl rfl⟩
  · exact ⟨_, _, rfl, Or.inr rfl⟩

def startsExpression (token : Token) : Bool := token == .lparen || startsLeaf token

theorem AaExpression.tokens_eq (e : AaExpression L) : ∃ token ts, e.tokens = token :: ts ∧ startsExpression token = true := by
  cases e with
  | leaf reference =>
      obtain ⟨token, isHead, starts⟩ := L.starts reference
      refine ⟨token, _, (List.cons_head?_tail isHead).symm, ?_⟩
      rw [startsExpression, starts, Bool.or_true]
  | typeCast bitCast toType rest buffering => exact ⟨_, _, rfl, rfl⟩
  | slice width lowIndex rest buffering => exact ⟨_, _, rfl, rfl⟩
  | bitmap bitmapVector rest buffering => exact ⟨_, _, rfl, rfl⟩
  | unary operation rest buffering => exact ⟨_, _, rfl, rfl⟩
  | binary operation first second buffering => exact ⟨_, _, rfl, rfl⟩
  | ternary test ifTrue ifFalse buffering => exact ⟨_, _, rfl, rfl⟩
  | functionCall moduleIdentifier arguments buffering => exact ⟨_, _, rfl, rfl⟩

theorem AaExpression.noBracket (e : AaExpression L) (rest : List Token) : (e.tokens ++ rest).head? ≠ some .lbracket := by
  obtain ⟨token, ts, eq, starts⟩ := e.tokens_eq
  rw [eq]
  rintro isHead
  obtain rfl : token = .lbracket := Option.some.inj isHead
  exact absurd starts (by decide)

theorem noBracket_closing (buffering : Int) (rest : List Token) :
    (tokensOfClosing buffering ++ rest).head? ≠ some .lbracket := by
  obtain ⟨token, ts, eq, rfl | rfl⟩ := closing_head buffering rest
  · rw [eq]
    exact fun isHead => absurd (Option.some.inj isHead) (by decide)
  · rw [eq]
    exact fun isHead => absurd (Option.some.inj isHead) (by decide)

theorem noBracket_int (z : Int) (rest : List Token) : (tokensOfInt z ++ rest).head? ≠ some .lbracket := by
  unfold tokensOfInt
  split
  · exact fun isHead => absurd (Option.some.inj isHead) (by decide)
  · exact fun isHead => Token.noConfusion (Option.some.inj isHead)

theorem integerParameter_int (z : Int) (rest : List Token) :
    integerParameter (tokensOfInt z ++ rest) = if z < 0 then none else some (z.toNat, rest) := by
  unfold tokensOfInt
  split
  · rfl
  · next natural =>
      have same : z.natAbs = z.toNat := by omega
      rw [List.cons_append, List.nil_append, integerParameter_digits, same]

theorem parsePairs_tokens (pairs : List (Nat × Nat)) (buffering : Int) (rest : List Token) :
    parsePairs (tokensOfPairs pairs ++ (tokensOfClosing buffering ++ rest)) = (pairs, tokensOfClosing buffering ++ rest) := by
  induction pairs with
  | nil =>
      obtain ⟨token, ts, eq, rfl | rfl⟩ := closing_head buffering rest
      · rw [tokensOfPairs, List.nil_append, eq, parsePairs]
        exact fun _ _ _ same => Token.noConfusion (List.cons.inj same).1
      · rw [tokensOfPairs, List.nil_append, eq, parsePairs]
        exact fun _ _ _ same => Token.noConfusion (List.cons.inj same).1
  | cons pair pairs ih =>
      rw [tokensOfPairs, List.append_assoc, List.cons_append, List.cons_append, List.nil_append, parsePairs, ih,
        atoi_digits, atoi_digits]

/-- The rule reads the tokens of the expression so. -/
def Reads (expression : List Token → Option (AaExpression L × List Token)) (e : AaExpression L) : Prop :=
  ∀ rest, rest.head? ≠ some .lbracket → expression (e.tokens ++ rest) = e.reread.map fun found => (found, rest)

variable {expression : List Token → Option (AaExpression L × List Token)}

theorem castExpression_tokens (bitCast : Bool) (toType : AaType) {rest : AaExpression L} (buffering : Int) (behind : List Token)
    (reads : Reads expression rest) :
    castExpression expression bitCast
        (.lparen :: (toType.tokens ++ (.rparen :: (rest.tokens ++ (tokensOfClosing buffering ++ behind))))) =
      (AaExpression.typeCast bitCast toType rest buffering).reread.map fun found => (found, behind) := by
  have type := parseType_tokens toType (toType.tokens ++ (.rparen :: (rest.tokens ++ (tokensOfClosing buffering ++ behind)))).length
    (.rparen :: (rest.tokens ++ (tokensOfClosing buffering ++ behind)))
    (by rw [List.length_append]; omega) (fun isHead => absurd (Option.some.inj isHead) (by decide))
  have operand := reads _ (noBracket_closing buffering behind)
  simp only [castExpression, expect_cons, type, operand, Option.bind_eq_bind, Option.bind_some, AaExpression.reread]
  cases rest.reread with
  | none => rfl
  | some rest => exact closeExpression_tokens _ buffering behind

theorem sliceExpression_tokens (width : ℕ+) (lowIndex : Int) {rest : AaExpression L} (buffering : Int) (behind : List Token)
    (reads : Reads expression rest) :
    sliceExpression expression
        (rest.tokens ++ (tokensOfInt (width + lowIndex - 1) ++ (tokensOfInt lowIndex ++ (tokensOfClosing buffering ++ behind)))) =
      (AaExpression.slice width lowIndex rest buffering).reread.map fun found => (found, behind) := by
  have operand := reads _ (noBracket_int (width + lowIndex - 1) (tokensOfInt lowIndex ++ (tokensOfClosing buffering ++ behind)))
  simp only [sliceExpression, operand, AaExpression.reread]
  cases rest.reread with
  | none => rfl
  | some rest =>
      simp only [Option.map_some, Option.bind_eq_bind, Option.bind_some]
      have positive := width.pos
      by_cases low : lowIndex < 0
      · rw [integerParameter_int, if_pos low]
        split
        · rfl
        · rw [Option.bind_some, integerParameter_int, if_pos low]
          rfl
      · have high : ¬ (width : Int) + lowIndex - 1 < 0 := by omega
        have ordered : ¬ ((width : Int) + lowIndex - 1).toNat < lowIndex.toNat := by omega
        have sameWidth : ((width : Int) + lowIndex - 1).toNat - lowIndex.toNat + 1 = width := by omega
        have sameLow : (lowIndex.toNat : Int) = lowIndex := by omega
        rw [integerParameter_int, if_neg high, Option.bind_some, integerParameter_int, if_neg low, Option.bind_some,
          if_neg ordered, if_neg low, closeExpression_tokens]
        simp only [sameWidth, sameLow, Option.map_some]
        rfl

theorem bitmapExpression_tokens (bitmapVector : Bitmap) {rest : AaExpression L} (buffering : Int) (behind : List Token)
    (reads : Reads expression rest) :
    bitmapExpression expression (rest.tokens ++ (tokensOfPairs bitmapVector.pairs ++ (tokensOfClosing buffering ++ behind))) =
      (AaExpression.bitmap bitmapVector rest buffering).reread.map fun found => (found, behind) := by
  have operand := reads (tokensOfPairs bitmapVector.pairs ++ (tokensOfClosing buffering ++ behind)) (by
    cases eq : bitmapVector.pairs with
    | nil => exact absurd eq bitmapVector.nonempty
    | cons pair pairs => exact fun isHead => Token.noConfusion (Option.some.inj isHead))
  simp only [bitmapExpression, operand, AaExpression.reread]
  cases rest.reread with
  | none => rfl
  | some rest =>
      simp only [Option.map_some, Option.bind_eq_bind, Option.bind_some, parsePairs_tokens, Bitmap.ofPairs_pairs]
      exact closeExpression_tokens _ buffering behind

theorem unaryExpression_tokens (operation : UnaryOperation) {rest : AaExpression L} (buffering : Int) (behind : List Token)
    (reads : Reads expression rest) :
    unaryExpression expression operation (rest.tokens ++ (tokensOfClosing buffering ++ behind)) =
      (AaExpression.unary operation rest buffering).reread.map fun found => (found, behind) := by
  have operand := reads _ (noBracket_closing buffering behind)
  simp only [unaryExpression, operand, AaExpression.reread]
  cases rest.reread with
  | none => rfl
  | some rest => exact closeExpression_tokens _ buffering behind

theorem binaryOp_token (operation : BinaryOperation) (rest : List Token) :
    binaryOp (operation.token :: rest) = some (operation, rest) := by
  cases operation <;> rfl

theorem binaryExpression_tokens (operation : BinaryOperation) {first second : AaExpression L} (buffering : Int)
    (behind : List Token) (readsFirst : Reads expression first) (readsSecond : Reads expression second) :
    binaryExpression expression
        (first.tokens ++ (operation.token :: (second.tokens ++ (tokensOfClosing buffering ++ behind)))) =
      (AaExpression.binary operation first second buffering).reread.map fun found => (found, behind) := by
  have left := readsFirst (operation.token :: (second.tokens ++ (tokensOfClosing buffering ++ behind)))
    (by cases operation <;> exact fun isHead => absurd (Option.some.inj isHead) (by decide))
  have right := readsSecond _ (noBracket_closing buffering behind)
  simp only [binaryExpression, left, AaExpression.reread]
  cases first.reread with
  | none => rfl
  | some first =>
      simp only [Option.map_some, Option.bind_eq_bind, Option.bind_some, binaryOp_token, right]
      cases second.reread with
      | none => rfl
      | some second => exact closeExpression_tokens _ buffering behind

theorem ternaryExpression_tokens {test ifTrue ifFalse : AaExpression L} (buffering : Int) (behind : List Token)
    (readsTest : Reads expression test) (readsTrue : Reads expression ifTrue) (readsFalse : Reads expression ifFalse) :
    ternaryExpression expression
        (test.tokens ++ (ifTrue.tokens ++ (ifFalse.tokens ++ (tokensOfClosing buffering ++ behind)))) =
      (AaExpression.ternary test ifTrue ifFalse buffering).reread.map fun found => (found, behind) := by
  have first := readsTest _ (ifTrue.noBracket (ifFalse.tokens ++ (tokensOfClosing buffering ++ behind)))
  have second := readsTrue _ (ifFalse.noBracket (tokensOfClosing buffering ++ behind))
  have third := readsFalse _ (noBracket_closing buffering behind)
  simp only [ternaryExpression, first, AaExpression.reread]
  cases test.reread with
  | none => rfl
  | some test =>
      simp only [Option.map_some, Option.bind_eq_bind, Option.bind_some, second]
      cases ifTrue.reread with
      | none => rfl
      | some ifTrue =>
          simp only [Option.map_some, Option.bind_some, third]
          cases ifFalse.reread with
          | none => rfl
          | some ifFalse => exact closeExpression_tokens _ buffering behind

def ReadsArguments (expression : List Token → Option (AaExpression L × List Token)) (es : Arguments L) : Prop :=
  ∀ n rest, es.tokens.length ≤ n →
    parseArguments expression n (es.tokens ++ (.rparen :: rest)) = es.reread.map fun found => (found, rest)

theorem parseArguments_nil : ReadsArguments expression .nil := fun n rest _ => by
  cases n <;> rfl

theorem parseArguments_cons {argument : AaExpression L} {arguments : Arguments L} (reads : Reads expression argument)
    (readsOthers : ReadsArguments expression arguments) : ReadsArguments expression (.cons argument arguments) := by
  intro n rest enough
  obtain ⟨token, ts, eq, starts⟩ := argument.tokens_eq
  rw [Arguments.tokens, List.length_append, eq, List.length_cons] at enough
  obtain ⟨n, rfl⟩ := Nat.exists_eq_succ_of_ne_zero (show n ≠ 0 by omega)
  have others := readsOthers n rest (by omega)
  have noBracket : (arguments.tokens ++ (.rparen :: rest)).head? ≠ some .lbracket := by
    cases arguments with
    | nil => exact fun isHead => absurd (Option.some.inj isHead) (by decide)
    | cons argument arguments =>
        rw [Arguments.tokens, List.append_assoc]
        exact argument.noBracket _
  have first := reads _ noBracket
  have step : ∀ ts', parseArguments expression (n + 1) (argument.tokens ++ ts') = (do
      let (argument, ts) ← expression (argument.tokens ++ ts')
      let (arguments, ts) ← parseArguments expression n ts
      some (.cons argument arguments, ts)) := fun ts' => by
    rw [eq, List.cons_append, parseArguments]
    rintro _ same
    obtain rfl : token = .rparen := (List.cons.inj same).1
    exact absurd starts (by decide)
  rw [Arguments.tokens, List.append_assoc, step, first]
  rw [Arguments.reread]
  cases argument.reread with
  | none => rfl
  | some argument =>
      simp only [Option.map_some, Option.bind_eq_bind, Option.bind_some, others]
      cases arguments.reread with
      | none => rfl
      | some arguments => rfl

theorem functionCallExpression_tokens (moduleIdentifier : Identifier) {arguments : Arguments L} (buffering : Int)
    (behind : List Token) (reads : ReadsArguments expression arguments) :
    functionCallExpression expression
        (.simpleIdentifier moduleIdentifier.text :: .lparen :: (arguments.tokens ++ (.rparen :: .rparen :: behind))) =
      (AaExpression.functionCall moduleIdentifier arguments buffering).reread.map fun found => (found, behind) := by
  have all := reads (arguments.tokens ++ (.rparen :: .rparen :: behind)).length (.rparen :: behind)
    (by rw [List.length_append]; omega)
  simp only [functionCallExpression, Identifier.ofText_text, Option.bind_eq_bind, Option.bind_some, all, AaExpression.reread]
  cases arguments.reread with
  | none => rfl
  | some arguments =>
      simp only [Option.map_some, Option.bind_some, closeExpression, bufferingSpec_rparen, Option.bind_eq_bind, expect_cons]

theorem parseExpression_unary (fuel : Nat) (operation : UnaryOperation) (ts : List Token) :
    parseExpression L (fuel + 1) (.lparen :: (operation.tokens ++ ts)) =
      unaryExpression (parseExpression L fuel) operation ts := by
  cases operation <;> rfl

/-- An expression in the first place is read by the rule for binary expressions. -/
theorem parseExpression_binary (fuel : Nat) {token : Token} (ts : List Token) (starts : startsExpression token = true) :
    parseExpression L (fuel + 1) (.lparen :: token :: ts) = binaryExpression (parseExpression L fuel) (token :: ts) := by
  cases token <;> first | rfl | exact absurd starts (by decide)

theorem parseExpression_leaf (fuel : Nat) (reference : L.Leaf) : Reads (parseExpression L (fuel + 1)) (.leaf reference) := by
  intro rest noBracket
  have leaf := L.reads reference rest noBracket
  obtain ⟨token, isHead, starts⟩ := L.starts reference
  have eq : L.tokens reference = token :: (L.tokens reference).tail := (List.cons_head?_tail isHead).symm
  rw [AaExpression.tokens, AaExpression.reread]
  rw [eq, List.cons_append] at leaf ⊢
  rw [parseExpression, leaf]
  · rfl
  · rintro _ same
    obtain rfl : token = .lparen := (List.cons.inj same).1
    exact absurd starts (by decide)

mutual

/-- The rules take the tokens of an expression from the front of any others, and make of them
what `reread` says. -/
theorem parseExpression_tokens : (e : AaExpression L) → (fuel : Nat) → e.tokens.length ≤ fuel →
    Reads (parseExpression L fuel) e
  | .leaf reference, fuel + 1, _ => parseExpression_leaf fuel reference
  | .typeCast bitCast toType rest buffering, fuel + 1, enough => by
      have operand := parseExpression_tokens rest fuel
        (by simp only [AaExpression.tokens, List.length_append, List.length_cons] at enough; omega)
      intro behind _
      have rule := castExpression_tokens bitCast toType buffering behind operand
      simp only [AaExpression.tokens, List.cons_append, List.nil_append, List.append_assoc]
      cases bitCast with
      | true => exact rule
      | false => exact rule
  | .slice width lowIndex rest buffering, fuel + 1, enough => by
      have operand := parseExpression_tokens rest fuel
        (by simp only [AaExpression.tokens, List.length_append, List.length_cons] at enough; omega)
      intro behind _
      simp only [AaExpression.tokens, List.cons_append, List.nil_append, List.append_assoc]
      exact sliceExpression_tokens width lowIndex buffering behind operand
  | .bitmap bitmapVector rest buffering, fuel + 1, enough => by
      have operand := parseExpression_tokens rest fuel
        (by simp only [AaExpression.tokens, List.length_append, List.length_cons] at enough; omega)
      intro behind _
      simp only [AaExpression.tokens, List.cons_append, List.nil_append, List.append_assoc]
      exact bitmapExpression_tokens bitmapVector buffering behind operand
  | .unary operation rest buffering, fuel + 1, enough => by
      have operand := parseExpression_tokens rest fuel
        (by simp only [AaExpression.tokens, List.length_append, List.length_cons] at enough; omega)
      intro behind _
      simp only [AaExpression.tokens, List.cons_append, List.nil_append, List.append_assoc, parseExpression_unary]
      exact unaryExpression_tokens operation buffering behind operand
  | .binary operation first second buffering, fuel + 1, enough => by
      have left := parseExpression_tokens first fuel
        (by simp only [AaExpression.tokens, List.length_append, List.length_cons] at enough; omega)
      have right := parseExpression_tokens second fuel
        (by simp only [AaExpression.tokens, List.length_append, List.length_cons] at enough; omega)
      intro behind _
      have rule := binaryExpression_tokens operation buffering behind left right
      obtain ⟨token, ts, eq, starts⟩ := first.tokens_eq
      simp only [AaExpression.tokens, List.cons_append, List.nil_append, List.append_assoc]
      rw [← rule, eq, List.cons_append, parseExpression_binary fuel _ starts]
  | .ternary test ifTrue ifFalse buffering, fuel + 1, enough => by
      have first := parseExpression_tokens test fuel
        (by simp only [AaExpression.tokens, List.length_append, List.length_cons] at enough; omega)
      have second := parseExpression_tokens ifTrue fuel
        (by simp only [AaExpression.tokens, List.length_append, List.length_cons] at enough; omega)
      have third := parseExpression_tokens ifFalse fuel
        (by simp only [AaExpression.tokens, List.length_append, List.length_cons] at enough; omega)
      intro behind _
      simp only [AaExpression.tokens, List.cons_append, List.nil_append, List.append_assoc]
      exact ternaryExpression_tokens buffering behind first second third
  | .functionCall moduleIdentifier arguments buffering, fuel + 1, enough => by
      have all := parseArguments_tokens arguments fuel
        (by simp only [AaExpression.tokens, List.length_append, List.length_cons] at enough; omega)
      intro behind _
      simp only [AaExpression.tokens, List.cons_append, List.nil_append, List.append_assoc]
      exact functionCallExpression_tokens moduleIdentifier buffering behind all
  | e, 0, enough => by
      obtain ⟨token, ts, eq, _⟩ := e.tokens_eq
      rw [eq, List.length_cons] at enough
      exact absurd enough (Nat.not_succ_le_zero _)

theorem parseArguments_tokens : (es : Arguments L) → (fuel : Nat) → es.tokens.length ≤ fuel →
    ReadsArguments (parseExpression L fuel) es
  | .nil, _, _ => parseArguments_nil
  | .cons argument arguments, fuel, enough => by
      rw [Arguments.tokens, List.length_append] at enough
      exact parseArguments_cons (parseExpression_tokens argument fuel (by omega))
        (parseArguments_tokens arguments fuel (by omega))

end

theorem readExpression_print (e : AaExpression L) : readExpression L e.print = if e.isNamed then e.reread else none := by
  have lexed := e.lexes.whole fun _ isNext => absurd isNext (Option.not_mem_none _)
  unfold readExpression
  rw [lexed]
  cases e.isNamed with
  | false => rfl
  | true =>
      have parsed := parseExpression_tokens e e.tokens.length (Nat.le_refl _) [] (Option.some_ne_none _).symm
      rw [List.append_nil] at parsed
      simp only [ifNamed, if_true, Option.bind_eq_bind, Option.bind_some, parsed]
      cases e.reread with
      | none => rfl
      | some found => rfl

end Reread

section Printable

mutual

/-- No operation is `**`, no slice begins below bit 0, no buffering is less than the one an
expression is built with, and no call has another one than that. -/
def AaExpression.Printable : AaExpression L → Prop
  | .leaf _ => True
  | .typeCast _ _ rest buffering => rest.Printable ∧ 1 ≤ buffering
  | .slice _ lowIndex rest buffering => rest.Printable ∧ 0 ≤ lowIndex ∧ 1 ≤ buffering
  | .bitmap _ rest buffering => rest.Printable ∧ 1 ≤ buffering
  | .unary _ rest buffering => rest.Printable ∧ 1 ≤ buffering
  | .binary operation first second buffering => operation ≠ .pow ∧ first.Printable ∧ second.Printable ∧ 1 ≤ buffering
  | .ternary test ifTrue ifFalse buffering => test.Printable ∧ ifTrue.Printable ∧ ifFalse.Printable ∧ 1 ≤ buffering
  | .functionCall _ arguments buffering => arguments.Printable ∧ buffering = 1

def Arguments.Printable : Arguments L → Prop
  | .nil => True
  | .cons argument arguments => argument.Printable ∧ arguments.Printable

end

theorem rereadBuffering_eq_iff (buffering : Int) : rereadBuffering buffering = buffering ↔ 1 ≤ buffering := by
  unfold rereadBuffering
  split <;> omega

mutual

theorem AaExpression.printable_iff : (e : AaExpression L) → (e.Printable ↔ e.isNamed = true ∧ e.reread = some e)
  | .leaf _ => by simp [AaExpression.Printable, AaExpression.isNamed, AaExpression.reread]
  | .typeCast bitCast toType rest buffering => by
      simp [AaExpression.Printable, AaExpression.isNamed, AaExpression.reread, rest.printable_iff, Option.bind_eq_some_iff,
        rereadBuffering_eq_iff, and_assoc]
  | .slice width lowIndex rest buffering => by
      simp [AaExpression.Printable, AaExpression.isNamed, AaExpression.reread, rest.printable_iff, Option.bind_eq_some_iff,
        rereadBuffering_eq_iff, and_assoc]
  | .bitmap bitmapVector rest buffering => by
      simp [AaExpression.Printable, AaExpression.isNamed, AaExpression.reread, rest.printable_iff, Option.bind_eq_some_iff,
        rereadBuffering_eq_iff, and_assoc]
  | .unary operation rest buffering => by
      simp [AaExpression.Printable, AaExpression.isNamed, AaExpression.reread, rest.printable_iff, Option.bind_eq_some_iff,
        rereadBuffering_eq_iff, and_assoc]
  | .binary operation first second buffering => by
      simp [AaExpression.Printable, AaExpression.isNamed, AaExpression.reread, first.printable_iff, second.printable_iff,
        Option.bind_eq_some_iff, rereadBuffering_eq_iff, and_assoc]
      tauto
  | .ternary test ifTrue ifFalse buffering => by
      simp [AaExpression.Printable, AaExpression.isNamed, AaExpression.reread, test.printable_iff, ifTrue.printable_iff,
        ifFalse.printable_iff, Option.bind_eq_some_iff, rereadBuffering_eq_iff, and_assoc]
      tauto
  | .functionCall moduleIdentifier arguments buffering => by
      simp [AaExpression.Printable, AaExpression.isNamed, AaExpression.reread, arguments.printable_iff,
        Option.bind_eq_some_iff, and_assoc, @eq_comm _ buffering 1]

theorem Arguments.printable_iff : (es : Arguments L) → (es.Printable ↔ es.isNamed = true ∧ es.reread = some es)
  | .nil => by simp [Arguments.Printable, Arguments.isNamed, Arguments.reread]
  | .cons argument arguments => by
      simp [Arguments.Printable, Arguments.isNamed, Arguments.reread, argument.printable_iff, arguments.printable_iff,
        Option.bind_eq_some_iff, and_assoc]
      tauto

end

/-- The text that is printed for an expression is read as that expression, exactly then. -/
theorem readExpression_print_iff (e : AaExpression L) : readExpression L e.print = some e ↔ e.Printable := by
  rw [readExpression_print, e.printable_iff]
  cases e.isNamed with
  | false => exact ⟨fun same => absurd same (Option.some_ne_none _).symm, fun both => absurd both.1 Bool.false_ne_true⟩
  | true => exact ⟨fun same => ⟨rfl, same⟩, fun both => both.2⟩

/-- References to objects of the scope by their names. -/
def identifierLeaves : Leaves where
  Leaf := Identifier
  print := Identifier.text
  tokens reference := [.simpleIdentifier reference.text]
  parse
    | .simpleIdentifier text :: ts => (Identifier.ofText text).map fun reference => (reference, ts)
    | _ => none
  lexes reference := reference.lexes.mono fun rest ends c isNext => by
    rcases ends c isNext with rfl | rfl
    · decide
    · decide
  starts reference := ⟨_, rfl, rfl⟩
  reads reference rest _ := by
    show (Identifier.ofText reference.text).map _ = _
    rw [Identifier.ofText_text]
    rfl

/-- `($call f (a) $buffering 2)` -/
def bufferedCall : AaExpression identifierLeaves :=
  .functionCall ⟨'f', [], by decide, rfl⟩ (.cons (.leaf ⟨'a', [], by decide, rfl⟩) .nil) 2

/-- The buffering of a call is not printed. -/
theorem bufferedCall_not_read : readExpression identifierLeaves bufferedCall.print ≠ some bufferedCall := by
  rw [readExpression_print]
  intro same
  have buffering := (AaExpression.functionCall.inj (Option.some.inj same)).2.2
  exact absurd buffering (by decide)

end Printable

end Ahir.Aa.Text
