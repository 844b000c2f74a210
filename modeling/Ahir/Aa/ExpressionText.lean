import Ahir.Aa.AaTypeText
import Mathlib.Data.PNat.Basic

/-!
# The text of an expression

How each kind of expression is printed, over leaves whose own text is taken to be read back.
-/

set_option autoImplicit false

namespace Ahir.Aa.Text
open Ahir.Text

inductive BinaryOperation where
  | or | and | nor | nand | xor | xnor | shl | shr | rol | ror | plus | minus | div | mul
  | equal | notequal | less | lessequal | greater | greaterequal | bitsel | concat | unordered | pow
  deriving DecidableEq

/-- The operations of the rules that build an `AaUnaryExpression`. -/
inductive UnaryOperation where
  | not | decode | encode | priorityencode | bitreduceor | bitreduceand | bitreducexor
  deriving DecidableEq

/-- `Aa_Name` has no case for `__POW`. -/
def BinaryOperation.aaName : BinaryOperation → String
  | .or => "|"
  | .and => "&"
  | .nor => "~|"
  | .nand => "~&"
  | .xor => "^"
  | .xnor => "~^"
  | .shl => "<<"
  | .shr => ">>"
  | .rol => "<o<"
  | .ror => ">o>"
  | .plus => "+"
  | .minus => "-"
  | .div => "/"
  | .mul => "*"
  | .equal => "=="
  | .notequal => "!="
  | .less => "<"
  | .lessequal => "<="
  | .greater => ">"
  | .greaterequal => ">="
  | .bitsel => "[]"
  | .concat => "&&"
  | .unordered => "><"
  | .pow => "__undefined"

def UnaryOperation.aaName : UnaryOperation → String
  | .not => "~"
  | .decode => " $decode "
  | .encode => " $encode "
  | .priorityencode => " $p_encode "
  | .bitreduceor => " $bitreduce | "
  | .bitreduceand => " $bitreduce & "
  | .bitreducexor => " $bitreduce ^ "

/-- The vector of a bitmap, pairs of a source and a destination in the order of the map that
they come from. -/
structure Bitmap where
  pairs : List (Nat × Nat)
  nonempty : pairs ≠ []
  sorted : pairs.Pairwise (·.2 < ·.2)

def startsLeaf : Token → Bool
  | .simpleIdentifier _ | .uinteger _ | .binary _ | .hexadecimal _ | .floatconst _ | .word _ | .minus | .lbrace | .less => true
  | _ => false

def EndsExpression (rest : List Char) : Prop := ∀ c ∈ rest.head?, c = ' ' ∨ c = ')'

structure Leaves where
  Leaf : Type
  print : Leaf → List Char
  tokens : Leaf → List Token
  parse : List Token → Option (Leaf × List Token)
  lexes : ∀ leaf, Lexes munch (print leaf) (some (tokens leaf)) EndsExpression
  starts : ∀ leaf, ∃ token ∈ (tokens leaf).head?, startsLeaf token = true
  reads : ∀ leaf rest, rest.head? ≠ some .lbracket → parse (tokens leaf ++ rest) = some (leaf, rest)

variable {L : Leaves}

mutual

inductive AaExpression (L : Leaves) where
  | leaf (reference : L.Leaf)
  | typeCast (bitCast : Bool) (toType : AaType) (rest : AaExpression L) (buffering : Int)
  | slice (width : ℕ+) (lowIndex : Int) (rest : AaExpression L) (buffering : Int)
  | bitmap (bitmapVector : Bitmap) (rest : AaExpression L) (buffering : Int)
  | unary (operation : UnaryOperation) (rest : AaExpression L) (buffering : Int)
  | binary (operation : BinaryOperation) (first second : AaExpression L) (buffering : Int)
  | ternary (test ifTrue ifFalse : AaExpression L) (buffering : Int)
  | functionCall (moduleIdentifier : Identifier) (arguments : Arguments L) (buffering : Int)

inductive Arguments (L : Leaves) where
  | nil
  | cons (argument : AaExpression L) (arguments : Arguments L)

end

section Print

def printInt (z : Int) : List Char := if z < 0 then "-".toList ++ digits z.natAbs else digits z.natAbs

def printBuffering (buffering : Int) : List Char :=
  if 1 < buffering then " $buffering ".toList ++ printInt buffering ++ " ".toList else []

def closing (buffering : Int) (close : String) : List Char := printBuffering buffering ++ close.toList

def printPairs : List (Nat × Nat) → List Char
  | [] => []
  | pair :: pairs => " ".toList ++ digits pair.1 ++ " ".toList ++ digits pair.2 ++ " ".toList ++ printPairs pairs

mutual

/-- The `Print` of each class of expressions. -/
def AaExpression.print : AaExpression L → List Char
  | .leaf reference => L.print reference
  | .typeCast bitCast toType rest buffering =>
      (if bitCast then "($bitcast (" else "($cast (").toList ++ toType.print ++ ") ".toList ++ rest.print ++ closing buffering " )"
  | .slice width lowIndex rest buffering =>
      "( $slice ".toList ++ rest.print ++ " ".toList ++ printInt (width + lowIndex - 1) ++ " ".toList ++ printInt lowIndex ++
        closing buffering " ) "
  | .bitmap bitmapVector rest buffering =>
      "( $bitmap ".toList ++ rest.print ++ printPairs bitmapVector.pairs ++ closing buffering " ) "
  | .unary operation rest buffering =>
      "( ".toList ++ operation.aaName.toList ++ " ".toList ++ rest.print ++ closing buffering " )"
  | .binary operation first second buffering =>
      "(".toList ++ first.print ++ (" ".toList ++ operation.aaName.toList ++ " ".toList) ++ second.print ++ closing buffering ")"
  | .ternary test ifTrue ifFalse buffering =>
      "( $mux ".toList ++ test.print ++ " ".toList ++ ifTrue.print ++ "  ".toList ++ ifFalse.print ++ closing buffering " ) "
  | .functionCall moduleIdentifier arguments _ =>
      -- the one class that leaves its buffering out
      "( $call ".toList ++ moduleIdentifier.text ++ " (".toList ++ arguments.print ++ ") )".toList

def Arguments.print : Arguments L → List Char
  | .nil => []
  | .cons argument arguments => argument.print ++ " ".toList ++ arguments.print

end

end Print

section Tokens

def BinaryOperation.token : BinaryOperation → Token
  | .or => .or
  | .and => .and
  | .nor => .nor
  | .nand => .nand
  | .xor => .xor
  | .xnor => .xnor
  | .shl => .shl
  | .shr => .shr
  | .rol => .rol
  | .ror => .ror
  | .plus => .plus
  | .minus => .minus
  | .div => .div
  | .mul => .mul
  | .equal => .equal
  | .notequal => .notequal
  | .less => .less
  | .lessequal => .lessequal
  | .greater => .greater
  | .greaterequal => .greaterequal
  | .bitsel => .bitsel
  | .concat => .concat
  | .unordered => .unordered
  | .pow => .power

def UnaryOperation.tokens : UnaryOperation → List Token
  | .not => [.not]
  | .decode => [.decode]
  | .encode => [.encode]
  | .priorityencode => [.priorityencode]
  | .bitreduceor => [.bitreduce, .or]
  | .bitreduceand => [.bitreduce, .and]
  | .bitreducexor => [.bitreduce, .xor]

def tokensOfInt (z : Int) : List Token :=
  if z < 0 then [.minus, .uinteger (digits z.natAbs)] else [.uinteger (digits z.natAbs)]

def tokensOfClosing (buffering : Int) : List Token :=
  if 1 < buffering then [.buffering] ++ tokensOfInt buffering ++ [.rparen] else [.rparen]

def tokensOfPairs : List (Nat × Nat) → List Token
  | [] => []
  | pair :: pairs => [.uinteger (digits pair.1), .uinteger (digits pair.2)] ++ tokensOfPairs pairs

mutual

/-- The tokens of the text, had each operation the name that the lexer knows. -/
def AaExpression.tokens : AaExpression L → List Token
  | .leaf reference => L.tokens reference
  | .typeCast bitCast toType rest buffering =>
      [.lparen, if bitCast then .bitcast else .cast, .lparen] ++ toType.tokens ++ [.rparen] ++ rest.tokens ++ tokensOfClosing buffering
  | .slice width lowIndex rest buffering =>
      [.lparen, .slice] ++ rest.tokens ++ tokensOfInt (width + lowIndex - 1) ++ tokensOfInt lowIndex ++ tokensOfClosing buffering
  | .bitmap bitmapVector rest buffering =>
      [.lparen, .bitmap] ++ rest.tokens ++ tokensOfPairs bitmapVector.pairs ++ tokensOfClosing buffering
  | .unary operation rest buffering => [.lparen] ++ operation.tokens ++ rest.tokens ++ tokensOfClosing buffering
  | .binary operation first second buffering =>
      [.lparen] ++ first.tokens ++ [operation.token] ++ second.tokens ++ tokensOfClosing buffering
  | .ternary test ifTrue ifFalse buffering =>
      [.lparen, .mux] ++ test.tokens ++ ifTrue.tokens ++ ifFalse.tokens ++ tokensOfClosing buffering
  | .functionCall moduleIdentifier arguments _ =>
      [.lparen, .call] ++ [.simpleIdentifier moduleIdentifier.text] ++ [.lparen] ++ arguments.tokens ++ [.rparen, .rparen]

def Arguments.tokens : Arguments L → List Token
  | .nil => []
  | .cons argument arguments => argument.tokens ++ arguments.tokens

end

mutual

def AaExpression.isNamed : AaExpression L → Bool
  | .leaf _ => true
  | .typeCast _ _ rest _ => rest.isNamed
  | .slice _ _ rest _ => rest.isNamed
  | .bitmap _ rest _ => rest.isNamed
  | .unary _ rest _ => rest.isNamed
  | .binary operation first second _ => first.isNamed && operation != .pow && second.isNamed
  | .ternary test ifTrue ifFalse _ => test.isNamed && ifTrue.isNamed && ifFalse.isNamed
  | .functionCall _ arguments _ => arguments.isNamed

def Arguments.isNamed : Arguments L → Bool
  | .nil => true
  | .cons argument arguments => argument.isNamed && arguments.isNamed

end

end Tokens

section Lexes

def ifNamed (isNamed : Bool) (tokens : List Token) : Option (List Token) := if isNamed then some tokens else none

variable {text text' : List Char} {ts us : List Token} {next next' : List Char → Prop} {b c : Bool}

theorem lexes_append (first : Lexes munch text (ifNamed b ts) next) (second : Lexes munch text' (ifNamed c us) next')
    (meets : ∀ rest, next' rest → next (text' ++ rest)) :
    Lexes munch (text ++ text') (ifNamed (b && c) (ts ++ us)) next' := by
  have both := first.append second meets
  cases b with
  | false => exact both
  | true =>
      cases c with
      | false => exact both
      | true => exact both

theorem lexes_append_text (first : Lexes munch text (ifNamed b ts) next) (second : Lexes munch text' (some us) next')
    (meets : ∀ rest, next' rest → next (text' ++ rest)) : Lexes munch (text ++ text') (ifNamed b (ts ++ us)) next' := by
  have both := first.append second meets
  cases b with
  | false => exact both
  | true => exact both

theorem lexes_append_blanks (first : Lexes munch text (ifNamed b ts) next) (second : Lexes munch text' (some []) next')
    (meets : ∀ rest, next' rest → next (text' ++ rest)) : Lexes munch (text ++ text') (ifNamed b ts) next' := by
  have both := lexes_append_text first second meets
  rw [List.append_nil] at both
  exact both

theorem EndsExpression.safe {rest : List Char} (ends : EndsExpression rest) : SafeNext rest := fun c isNext => by
  rcases ends c isNext with rfl | rfl
  · decide
  · decide

theorem endsExpression_append {text rest : List Char} {d : Char} (isHead : text.head? = some d) (ends : d = ' ' ∨ d = ')') :
    EndsExpression (text ++ rest) := fun _ mem => head_eq isHead mem ▸ ends

theorem EndsExpression.number {rest : List Char} (ends : EndsExpression rest) :
    ∀ c ∈ rest.head?, isDigit c = false ∧ c ≠ 'x' := fun c isNext => by
  rcases ends c isNext with rfl | rfl
  · decide
  · decide

theorem lexes_int (z : Int) : Lexes munch (printInt z) (some (tokensOfInt z)) EndsExpression := by
  unfold printInt tokensOfInt
  split
  · have minus : Lexes munch "-".toList (some [.minus]) (Follows "-") := lexes_literal "-" "-" [] "-" (by decide +kernel)
    exact (minus.append (lexes_number _) fun _ _ => follows_safe _ safeNext_digits).mono fun _ ends => ends.number
  · exact (lexes_number _).mono fun _ ends => ends.number

theorem lexes_blanks : Lexes munch " ".toList (some []) (Follows " ") := lexes_literal " " " " [] " " (by decide +kernel)

theorem endsExpression_blank (rest : List Char) : EndsExpression (" ".toList ++ rest) :=
  endsExpression_append (by decide +kernel) (Or.inl rfl)

theorem lexes_closing (buffering : Int) {close last : String}
    (closes : Lexes munch close.toList (some [.rparen]) (Follows last)) :
    Lexes munch (closing buffering close) (some (tokensOfClosing buffering)) EndsExpression := by
  have closes := closes.mono fun _ next => follows_safe last (EndsExpression.safe next)
  unfold closing printBuffering tokensOfClosing
  split
  · have opens : Lexes munch " $buffering ".toList (some [.buffering]) (Follows " ") :=
      lexes_literal " $buffering " " " ["$buffering", " "] " " (by decide +kernel)
    have number := opens.append (lexes_int buffering) fun _ _ => follows_blank _
    have spaced := number.append lexes_blanks fun _ _ => endsExpression_blank _
    have all := spaced.append closes fun _ _ => follows_blank _
    simpa only [Option.map₂_coe_coe, List.append_nil] using all
  · exact closes

theorem lexes_append_closing (front : Lexes munch text (ifNamed b ts) EndsExpression) (buffering : Int) {close last : String}
    (d : Char) (closes : Lexes munch close.toList (some [.rparen]) (Follows last)) (isHead : close.toList.head? = some d)
    (ends : d = ' ' ∨ d = ')') :
    Lexes munch (text ++ closing buffering close) (ifNamed b (ts ++ tokensOfClosing buffering)) EndsExpression := by
  refine lexes_append_text front (lexes_closing buffering closes) fun rest _ => ?_
  unfold closing printBuffering
  split
  · rw [List.append_assoc, List.append_assoc, List.append_assoc]
    exact endsExpression_append (d := ' ') (by decide +kernel) (Or.inl rfl)
  · exact endsExpression_append isHead ends

theorem lexes_pairs (pairs : List (Nat × Nat)) : Lexes munch (printPairs pairs) (some (tokensOfPairs pairs)) EndsExpression := by
  induction pairs with
  | nil => exact Lexes.empty
  | cons pair pairs ih =>
      have first := lexes_blanks.append (lexes_number pair.1) fun _ _ => follows_blank _
      have spaced := first.append lexes_blanks fun _ _ => endsNumber_append (d := ' ') (by decide +kernel) (by decide)
      have second := spaced.append (lexes_number pair.2) fun _ _ => follows_blank _
      have both := second.append lexes_blanks fun _ _ => endsNumber_append (d := ' ') (by decide +kernel) (by decide)
      exact both.append ih fun _ _ => follows_blank _

theorem endsExpression_pairs (pairs : List (Nat × Nat)) {rest : List Char} (ends : EndsExpression rest) :
    EndsExpression (printPairs pairs ++ rest) := by
  cases pairs with
  | nil => exact ends
  | cons pair pairs =>
      rw [printPairs]
      simp only [List.append_assoc]
      exact endsExpression_blank _

def UnaryOperation.pieces : UnaryOperation → List String
  | .not => ["~"]
  | .decode => [" ", "$decode", " "]
  | .encode => [" ", "$encode", " "]
  | .priorityencode => [" ", "$p_encode", " "]
  | .bitreduceor => [" ", "$bitreduce", " ", "|", " "]
  | .bitreduceand => [" ", "$bitreduce", " ", "&", " "]
  | .bitreducexor => [" ", "$bitreduce", " ", "^", " "]

theorem lexes_unary (operation : UnaryOperation) :
    Lexes munch ("( ".toList ++ operation.aaName.toList ++ " ".toList) (some ([.lparen] ++ operation.tokens)) (Follows " ") :=
  lexes_chars _ "(" (" " :: operation.pieces ++ [" "]) " " (by cases operation <;> decide +kernel)

theorem lexes_undefined (next : List Char → Prop) :
    Lexes munch (" ".toList ++ "__undefined".toList ++ " ".toList) none next := fun rest _ => by
  have blank : Lexes munch " ".toList (some []) (Follows " ") := lexes_blanks
  rw [List.append_assoc, List.append_assoc, blank _ (follows_blank _)]
  have none : lex munch ("__undefined".toList ++ (" ".toList ++ rest)) = none := by
    have start : "__undefined".toList = '_' :: '_' :: "undefined".toList := by decide +kernel
    rw [start]
    exact lex_of_munch_none rfl
  rw [none]
  rfl

theorem lexes_binary (operation : BinaryOperation) :
    Lexes munch (" ".toList ++ operation.aaName.toList ++ " ".toList) (ifNamed (operation != .pow) [operation.token])
      (Follows " ") := by
  by_cases isPow : operation = .pow
  · subst isPow
    exact lexes_undefined _
  · rw [bne_iff_ne.mpr isPow]
    refine lexes_chars _ " " [operation.aaName, " "] " " ?_
    cases operation <;> first | decide +kernel | exact absurd rfl isPow

mutual

/-- The text of an expression lexes to its tokens when every operation has a name, and to
none otherwise. -/
theorem AaExpression.lexes : (e : AaExpression L) → Lexes munch e.print (ifNamed e.isNamed e.tokens) EndsExpression
  | .leaf reference => L.lexes reference
  | .typeCast bitCast toType rest buffering => by
      have opens : Lexes munch (if bitCast then "($bitcast (" else "($cast (").toList
          (ifNamed true [.lparen, if bitCast then .bitcast else .cast, .lparen]) (Follows "(") := by
        cases bitCast with
        | true => exact lexes_literal "($bitcast (" "(" ["$bitcast", " ", "("] "(" (by decide +kernel)
        | false => exact lexes_literal "($cast (" "(" ["$cast", " ", "("] "(" (by decide +kernel)
      have between : Lexes munch ") ".toList (some [.rparen]) (Follows " ") :=
        lexes_literal ") " ")" [" "] " " (by decide +kernel)
      have close : Lexes munch " )".toList (some [.rparen]) (Follows ")") :=
        lexes_literal " )" " " [")"] ")" (by decide +kernel)
      have type := lexes_append_text opens toType.lexes fun _ _ => follows_lparen _
      have front := lexes_append_text type between fun _ _ => safeNext_append (d := ')') (by decide +kernel) (by decide)
      have operand := lexes_append front rest.lexes fun _ _ => follows_blank _
      exact lexes_append_closing operand buffering ' ' close (by decide +kernel) (Or.inl rfl)
  | .slice width lowIndex rest buffering => by
      have opens : Lexes munch "( $slice ".toList (ifNamed true [.lparen, .slice]) (Follows " ") :=
        lexes_literal "( $slice " "(" [" ", "$slice", " "] " " (by decide +kernel)
      have close : Lexes munch " ) ".toList (some [.rparen]) (Follows " ") :=
        lexes_literal " ) " " " [")", " "] " " (by decide +kernel)
      have operand := lexes_append opens rest.lexes fun _ _ => follows_blank _
      have spaced := lexes_append_blanks operand lexes_blanks fun _ _ => endsExpression_blank _
      have high := lexes_append_text spaced (lexes_int (width + lowIndex - 1)) fun _ _ => follows_blank _
      have spaced := lexes_append_blanks high lexes_blanks fun _ _ => endsExpression_blank _
      have low := lexes_append_text spaced (lexes_int lowIndex) fun _ _ => follows_blank _
      exact lexes_append_closing low buffering ' ' close (by decide +kernel) (Or.inl rfl)
  | .bitmap bitmapVector rest buffering => by
      have opens : Lexes munch "( $bitmap ".toList (ifNamed true [.lparen, .bitmap]) (Follows " ") :=
        lexes_literal "( $bitmap " "(" [" ", "$bitmap", " "] " " (by decide +kernel)
      have close : Lexes munch " ) ".toList (some [.rparen]) (Follows " ") :=
        lexes_literal " ) " " " [")", " "] " " (by decide +kernel)
      have operand := lexes_append opens rest.lexes fun _ _ => follows_blank _
      have pairs := lexes_append_text operand (lexes_pairs bitmapVector.pairs) fun _ ends => endsExpression_pairs _ ends
      exact lexes_append_closing pairs buffering ' ' close (by decide +kernel) (Or.inl rfl)
  | .unary operation rest buffering => by
      have opens : Lexes munch ("( ".toList ++ operation.aaName.toList ++ " ".toList)
          (ifNamed true ([.lparen] ++ operation.tokens)) (Follows " ") := lexes_unary operation
      have close : Lexes munch " )".toList (some [.rparen]) (Follows ")") :=
        lexes_literal " )" " " [")"] ")" (by decide +kernel)
      have operand := lexes_append opens rest.lexes fun _ _ => follows_blank _
      exact lexes_append_closing operand buffering ' ' close (by decide +kernel) (Or.inl rfl)
  | .binary operation first second buffering => by
      have opens : Lexes munch "(".toList (ifNamed true [.lparen]) (Follows "(") :=
        lexes_literal "(" "(" [] "(" (by decide +kernel)
      have close : Lexes munch ")".toList (some [.rparen]) (Follows ")") := lexes_literal ")" ")" [] ")" (by decide +kernel)
      have left := lexes_append opens first.lexes fun _ _ => follows_lparen _
      have name := lexes_append left (lexes_binary operation) fun rest' _ => by
        rw [List.append_assoc, List.append_assoc]
        exact endsExpression_blank _
      have right := lexes_append name second.lexes fun _ _ => follows_blank _
      exact lexes_append_closing right buffering ')' close (by decide +kernel) (Or.inr rfl)
  | .ternary test ifTrue ifFalse buffering => by
      have opens : Lexes munch "( $mux ".toList (ifNamed true [.lparen, .mux]) (Follows " ") :=
        lexes_literal "( $mux " "(" [" ", "$mux", " "] " " (by decide +kernel)
      have between : Lexes munch "  ".toList (some []) (Follows " ") := lexes_literal "  " " " [" "] " " (by decide +kernel)
      have close : Lexes munch " ) ".toList (some [.rparen]) (Follows " ") :=
        lexes_literal " ) " " " [")", " "] " " (by decide +kernel)
      have first := lexes_append opens test.lexes fun _ _ => follows_blank _
      have spaced := lexes_append_blanks first lexes_blanks fun _ _ => endsExpression_blank _
      have second := lexes_append spaced ifTrue.lexes fun _ _ => follows_blank _
      have spaced := lexes_append_blanks second between fun _ _ =>
        endsExpression_append (d := ' ') (by decide +kernel) (Or.inl rfl)
      have third := lexes_append spaced ifFalse.lexes fun _ _ => follows_blank _
      exact lexes_append_closing third buffering ' ' close (by decide +kernel) (Or.inl rfl)
  | .functionCall moduleIdentifier arguments _ => by
      have opens : Lexes munch "( $call ".toList (ifNamed true [.lparen, .call]) (Follows " ") :=
        lexes_literal "( $call " "(" [" ", "$call", " "] " " (by decide +kernel)
      have between : Lexes munch " (".toList (some [.lparen]) (Follows "(") :=
        lexes_literal " (" " " ["("] "(" (by decide +kernel)
      have close : Lexes munch ") )".toList (some [.rparen, .rparen]) (Follows ")") :=
        lexes_literal ") )" ")" [" ", ")"] ")" (by decide +kernel)
      have name := lexes_append_text opens moduleIdentifier.lexes fun _ _ => follows_blank _
      have front := lexes_append_text name between fun rest' _ c isNext => by
        obtain rfl : ' ' = c := head_eq (by decide +kernel) isNext
        decide
      have all := lexes_append front arguments.lexes fun _ _ => follows_lparen _
      exact lexes_append_text all (close.mono fun _ ends => follows_safe _ (EndsExpression.safe ends))
        fun _ _ => trivial

theorem Arguments.lexes : (es : Arguments L) → Lexes munch es.print (ifNamed es.isNamed es.tokens) fun _ => True
  | .nil => Lexes.empty
  | .cons argument arguments => by
      have first := lexes_append_blanks argument.lexes lexes_blanks fun _ _ => endsExpression_blank _
      exact lexes_append first arguments.lexes fun _ _ => follows_blank _

end

end Lexes

end Ahir.Aa.Text
