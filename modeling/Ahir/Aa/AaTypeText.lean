import Ahir.Aa.AaLexer

/-!
# The text of a type

How types are printed, and the rules that read them back.
-/

set_option autoImplicit false

namespace Ahir.Aa.Text
open Ahir.Text

section Numbers

def digits (n : Nat) : List Char := Nat.toDigits 10 n

def atoi (text : List Char) : Nat := Nat.ofDigitChars 10 text 0

theorem atoi_digits (n : Nat) : atoi (digits n) = n := Nat.ofDigitChars_ten_toDigits

theorem isDigit_of_mem_digits {n : Nat} {c : Char} (mem : c ∈ digits n) : isDigit c = true := by
  have digit := Nat.isDigit_of_mem_toDigits (by decide) (by decide) mem
  unfold Char.isDigit at digit
  exact digit

theorem lexes_number (n : Nat) :
    Lexes munch (digits n) (some [.uinteger (digits n)]) fun rest => ∀ c ∈ rest.head?, isDigit c = false ∧ c ≠ 'x' :=
  lexes_digits Nat.toDigits_ne_nil fun _ mem => isDigit_of_mem_digits mem

theorem digits_head {n : Nat} {rest : List Char} {c : Char} (isHead : c ∈ (digits n ++ rest).head?) : isDigit c = true := by
  obtain ⟨d, ds, eq⟩ := List.exists_cons_of_ne_nil (Nat.toDigits_ne_nil (n := n) (b := 10))
  refine isDigit_of_mem_digits (n := n) ?_
  unfold digits at isHead ⊢
  rw [eq] at isHead ⊢
  obtain rfl : d = c := Option.some.inj isHead
  exact List.mem_cons_self

/-- `aA_Integer_Parameter_Expression`. The forms in braces and names of parameters are never
printed. -/
def integerParameter : List Token → Option (Nat × List Token)
  | .uinteger text :: ts => some (atoi text, ts)
  | _ => none

theorem integerParameter_digits (n : Nat) (ts : List Token) :
    integerParameter (.uinteger (digits n) :: ts) = some (n, ts) := by rw [integerParameter, atoi_digits]

end Numbers

structure Identifier where
  first : Char
  others : List Char
  alpha : isAlpha first = true
  parts : others.all isIdentifierChar = true

namespace Identifier

def text (i : Identifier) : List Char := i.first :: i.others

def ofText : List Char → Option Identifier
  | [] => none
  | c :: cs => if h : isAlpha c = true ∧ cs.all isIdentifierChar = true then some ⟨c, cs, h.1, h.2⟩ else none

theorem ofText_text (i : Identifier) : ofText i.text = some i := dif_pos ⟨i.alpha, i.parts⟩

theorem lexes (i : Identifier) :
    Lexes munch i.text (some [.simpleIdentifier i.text]) fun rest => ∀ c ∈ rest.head?, isIdentifierChar c = false :=
  lexes_identifier i.alpha (List.all_eq_true.mp i.parts)

end Identifier

mutual

inductive AaType where
  | uint (width : Nat)
  | int (width : Nat)
  | float (characteristic mantissa : Nat)
  | void
  | named (recordTypeName : Identifier)
  | pointer (refType : AaType)
  | array (dimension : Nat) (dimensions : List Nat) (elementType : AaType)
  | record (elementTypes : ElementTypes)

inductive ElementTypes where
  | last (elementType : AaType)
  | cons (elementType : AaType) (elementTypes : ElementTypes)

end

section Print

def printDimensions : List Nat → List Char
  | [] => []
  | d :: ds => "[".toList ++ digits d ++ "]".toList ++ printDimensions ds

def tokensOfDimensions : List Nat → List Token
  | [] => []
  | d :: ds => [.lbracket] ++ [.uinteger (digits d)] ++ [.rbracket] ++ tokensOfDimensions ds

mutual

def AaType.print : AaType → List Char
  | .uint width => "$uint<".toList ++ digits width ++ ">".toList
  | .int width => "$int<".toList ++ digits width ++ ">".toList
  | .float characteristic mantissa =>
      "$float<".toList ++ digits characteristic ++ ",".toList ++ digits mantissa ++ ">".toList
  | .void => " $void ".toList
  | .named recordTypeName => " ".toList ++ recordTypeName.text ++ " ".toList
  | .pointer refType => "$pointer< ".toList ++ refType.print ++ " >".toList
  | .array dimension dimensions elementType =>
      "$array".toList ++ printDimensions (dimension :: dimensions) ++ " $of ".toList ++ elementType.print
  | .record elementTypes => "$record ".toList ++ elementTypes.print

def ElementTypes.print : ElementTypes → List Char
  | .last elementType => " < ".toList ++ elementType.print ++ " > ".toList
  | .cons elementType elementTypes => " < ".toList ++ elementType.print ++ " > ".toList ++ elementTypes.print

end

mutual

def AaType.tokens : AaType → List Token
  | .uint width => [.uint, .less] ++ [.uinteger (digits width)] ++ [.greater]
  | .int width => [.int, .less] ++ [.uinteger (digits width)] ++ [.greater]
  | .float characteristic mantissa =>
      [.float, .less] ++ [.uinteger (digits characteristic)] ++ [.comma] ++ [.uinteger (digits mantissa)] ++ [.greater]
  | .void => [.void]
  | .named recordTypeName => [] ++ [.simpleIdentifier recordTypeName.text] ++ []
  | .pointer refType => [.pointer, .less] ++ refType.tokens ++ [.greater]
  | .array dimension dimensions elementType =>
      [.array] ++ tokensOfDimensions (dimension :: dimensions) ++ [.of] ++ elementType.tokens
  | .record elementTypes => [.record] ++ elementTypes.tokens

def ElementTypes.tokens : ElementTypes → List Token
  | .last elementType => [.less] ++ elementType.tokens ++ [.greater]
  | .cons elementType elementTypes => [.less] ++ elementType.tokens ++ [.greater] ++ elementTypes.tokens

end

def SafeNext (rest : List Char) : Prop := ∀ c ∈ rest.head?, isSafe c = true

theorem head_eq {text rest : List Char} {c d : Char} (isHead : text.head? = some d) (mem : c ∈ (text ++ rest).head?) :
    d = c := by
  obtain ⟨cs, rfl⟩ : ∃ cs, text = d :: cs := ⟨_, (List.cons_head?_tail isHead).symm⟩
  exact Option.some.inj mem

theorem safeNext_append {text rest : List Char} {d : Char} (isHead : text.head? = some d) (safe : isSafe d = true) :
    SafeNext (text ++ rest) := fun _ mem => head_eq isHead mem ▸ safe

theorem safeNext_digits {n : Nat} {rest : List Char} : SafeNext (digits n ++ rest) := fun c mem => by
  unfold isSafe
  rw [digits_head mem, Bool.or_true]

theorem endsNumber_append {text rest : List Char} {d : Char} (isHead : text.head? = some d)
    (ends : isDigit d = false ∧ d ≠ 'x') : ∀ c ∈ (text ++ rest).head?, isDigit c = false ∧ c ≠ 'x' :=
  fun _ mem => head_eq isHead mem ▸ ends

theorem lexes_between {front back : String} {last : String} {ts us : List Token} {next : List Char → Prop} (n : Nat)
    (d : Char) (first : Lexes munch front.toList (some ts) (Follows last))
    (second : Lexes munch back.toList (some us) next) (isHead : back.toList.head? = some d)
    (ends : isDigit d = false ∧ d ≠ 'x') :
    Lexes munch (front.toList ++ digits n ++ back.toList) (some (ts ++ [.uinteger (digits n)] ++ us)) next :=
  (first.append (lexes_number n) fun _ _ => follows_safe _ safeNext_digits).append second
    fun _ _ => endsNumber_append isHead ends

theorem lexes_greater : Lexes munch ">".toList (some [.greater]) SafeNext :=
  (lexes_literal ">" ">" [] ">" (by decide +kernel)).mono fun _ safe => follows_safe _ safe

theorem lexes_dimensions (ds : List Nat) :
    Lexes munch (printDimensions ds) (some (tokensOfDimensions ds)) SafeNext := by
  induction ds with
  | nil => exact Lexes.empty
  | cons d ds ih =>
      have opens : Lexes munch "[".toList (some [.lbracket]) _ := lexes_literal "[" "[" [] "[" (by decide +kernel)
      have closes : Lexes munch "]".toList (some [.rbracket]) _ := lexes_literal "]" "]" [] "]" (by decide +kernel)
      have one := lexes_between d ']' opens closes (by decide +kernel) (by decide)
      refine one.append ih fun rest safe => follows_safe _ ?_
      cases ds with
      | nil => exact safe
      | cons d' ds =>
          unfold printDimensions
          rw [List.append_assoc, List.append_assoc, List.append_assoc]
          exact safeNext_append (d := '[') (by decide +kernel) (by decide)

theorem lexes_element {text : List Char} {ts : List Token} (element : Lexes munch text (some ts) SafeNext) :
    Lexes munch (" < ".toList ++ text ++ " > ".toList) (some ([.less] ++ ts ++ [.greater])) (Follows " ") := by
  have opens : Lexes munch " < ".toList (some [.less]) (Follows " ") :=
    lexes_literal " < " " " ["<", " "] " " (by decide +kernel)
  have closes : Lexes munch " > ".toList (some [.greater]) (Follows " ") :=
    lexes_literal " > " " " [">", " "] " " (by decide +kernel)
  exact (opens.append element fun _ _ => follows_blank _).append closes
    fun _ _ => safeNext_append (d := ' ') (by decide +kernel) (by decide)

mutual

theorem AaType.lexes : (t : AaType) → Lexes munch t.print (some t.tokens) SafeNext
  | .uint width => by
      have opens : Lexes munch "$uint<".toList (some [.uint, .less]) _ :=
        lexes_literal "$uint<" "$uint" ["<"] "<" (by decide +kernel)
      exact lexes_between width '>' opens lexes_greater (by decide +kernel) (by decide)
  | .int width => by
      have opens : Lexes munch "$int<".toList (some [.int, .less]) _ :=
        lexes_literal "$int<" "$int" ["<"] "<" (by decide +kernel)
      exact lexes_between width '>' opens lexes_greater (by decide +kernel) (by decide)
  | .float characteristic mantissa => by
      have opens : Lexes munch "$float<".toList (some [.float, .less]) _ :=
        lexes_literal "$float<" "$float" ["<"] "<" (by decide +kernel)
      have comma : Lexes munch ",".toList (some [.comma]) _ := lexes_literal "," "," [] "," (by decide +kernel)
      have front := lexes_between characteristic ',' opens comma (by decide +kernel) (by decide)
      exact (front.append (lexes_number mantissa) fun _ _ => follows_safe _ safeNext_digits).append lexes_greater
        fun _ _ => endsNumber_append (d := '>') (by decide +kernel) (by decide)
  | .void => (lexes_literal " $void " " " ["$void", " "] " " (by decide +kernel)).mono fun _ _ => follows_blank _
  | .named recordTypeName => by
      have blank : Lexes munch " ".toList (some []) (Follows " ") := lexes_literal " " " " [] " " (by decide +kernel)
      refine ((blank.append recordTypeName.lexes fun _ _ => follows_blank _).append blank fun rest _ c isNext => ?_).mono
        fun _ _ => follows_blank _
      obtain rfl : ' ' = c := head_eq (by decide +kernel) isNext
      decide
  | .pointer refType => by
      have opens : Lexes munch "$pointer< ".toList (some [.pointer, .less]) (Follows " ") :=
        lexes_literal "$pointer< " "$pointer" ["<", " "] " " (by decide +kernel)
      have closes : Lexes munch " >".toList (some [.greater]) (Follows ">") :=
        lexes_literal " >" " " [">"] ">" (by decide +kernel)
      exact ((opens.append refType.lexes fun _ _ => follows_blank _).append closes
        fun _ _ => safeNext_append (d := ' ') (by decide +kernel) (by decide)).mono fun _ safe => follows_safe _ safe
  | .array dimension dimensions elementType => by
      have opens : Lexes munch "$array".toList (some [.array]) (Follows "$array") :=
        lexes_literal "$array" "$array" [] "$array" (by decide +kernel)
      have between : Lexes munch " $of ".toList (some [.of]) (Follows " ") :=
        lexes_literal " $of " " " ["$of", " "] " " (by decide +kernel)
      refine ((opens.append (lexes_dimensions (dimension :: dimensions)) fun _ _ => follows_safe _ ?_).append between
        fun _ _ => safeNext_append (d := ' ') (by decide +kernel) (by decide)).append elementType.lexes
        fun _ _ => follows_blank _
      unfold printDimensions
      rw [List.append_assoc, List.append_assoc, List.append_assoc]
      exact safeNext_append (d := '[') (by decide +kernel) (by decide)
  | .record elementTypes => by
      have opens : Lexes munch "$record ".toList (some [.record]) (Follows " ") :=
        lexes_literal "$record " "$record" [" "] " " (by decide +kernel)
      exact opens.append elementTypes.lexes fun _ _ => follows_blank _

theorem ElementTypes.lexes : (ts : ElementTypes) → Lexes munch ts.print (some ts.tokens) SafeNext
  | .last elementType => by
      exact (lexes_element elementType.lexes).mono fun _ _ => follows_blank _
  | .cons elementType elementTypes => by
      exact (lexes_element elementType.lexes).append elementTypes.lexes fun _ _ => follows_blank _

end

end Print

section Parse

theorem ElementTypes.tokens_eq (ts : ElementTypes) : ∃ tokens, ts.tokens = .less :: tokens := by
  cases ts with
  | last elementType => exact ⟨_, rfl⟩
  | cons elementType elementTypes => exact ⟨_, rfl⟩

def expect (token : Token) : List Token → Option (List Token)
  | [] => none
  | t :: ts => if t = token then some ts else none

theorem expect_cons (token : Token) (ts : List Token) : expect token (token :: ts) = some ts := if_pos rfl

def parseDimensions : List Token → List Nat × List Token
  | .lbracket :: .uinteger text :: .rbracket :: ts => ((atoi text) :: (parseDimensions ts).1, (parseDimensions ts).2)
  | ts => ([], ts)

mutual

/-- `aA_Type_Reference` and `aA_Named_Type_Reference`, in rules nested not deeper than the
first argument. -/
def parseType : Nat → List Token → Option (AaType × List Token)
  | _ + 1, .uint :: .less :: ts => do
      let (width, ts) ← integerParameter ts
      let ts ← expect .greater ts
      some (.uint width, ts)
  | _ + 1, .int :: .less :: ts => do
      let (width, ts) ← integerParameter ts
      let ts ← expect .greater ts
      some (.int width, ts)
  | _ + 1, .float :: .less :: ts => do
      let (characteristic, ts) ← integerParameter ts
      let ts ← expect .comma ts
      let (mantissa, ts) ← integerParameter ts
      let ts ← expect .greater ts
      some (.float characteristic mantissa, ts)
  | _ + 1, .void :: ts => some (.void, ts)
  | _ + 1, .simpleIdentifier text :: ts => (Identifier.ofText text).map fun recordTypeName => (.named recordTypeName, ts)
  | fuel + 1, .pointer :: .less :: ts => do
      let (refType, ts) ← parseType fuel ts
      let ts ← expect .greater ts
      some (.pointer refType, ts)
  | fuel + 1, .array :: ts =>
      match parseDimensions ts with
      | ([], _) => none
      | (dimension :: dimensions, ts) => do
          let ts ← expect .of ts
          let (elementType, ts) ← parseType fuel ts
          some (.array dimension dimensions elementType, ts)
  | fuel + 1, .record :: ts => do
      let (elementTypes, ts) ← parseElementTypes fuel ts
      some (.record elementTypes, ts)
  | _, _ => none

def parseElementTypes : Nat → List Token → Option (ElementTypes × List Token)
  | fuel + 1, .less :: ts => do
      let (elementType, ts) ← parseType fuel ts
      let ts ← expect .greater ts
      match ts with
      | .less :: _ => do
          let (elementTypes, ts) ← parseElementTypes fuel ts
          some (.cons elementType elementTypes, ts)
      | _ => some (.last elementType, ts)
  | _, _ => none

end

theorem parseDimensions_tokens (ds : List Nat) {rest : List Token} (ends : rest.head? ≠ some .lbracket) :
    parseDimensions (tokensOfDimensions ds ++ rest) = (ds, rest) := by
  induction ds with
  | nil =>
      rw [tokensOfDimensions, List.nil_append]
      unfold parseDimensions
      split
      · exact absurd rfl ends
      · rfl
  | cons d ds ih =>
      show parseDimensions (.lbracket :: .uinteger (digits d) :: .rbracket :: (tokensOfDimensions ds ++ rest)) = _
      rw [parseDimensions, ih, atoi_digits]

mutual

theorem parseType_tokens : (t : AaType) → (fuel : Nat) → (rest : List Token) → t.tokens.length ≤ fuel →
    rest.head? ≠ some .less → parseType fuel (t.tokens ++ rest) = some (t, rest)
  | .uint width, fuel + 1, rest, _, _ => by
      simp only [AaType.tokens, List.cons_append, List.nil_append, parseType, integerParameter_digits, expect_cons,
        Option.bind_eq_bind, Option.bind_some]
  | .int width, fuel + 1, rest, _, _ => by
      simp only [AaType.tokens, List.cons_append, List.nil_append, parseType, integerParameter_digits, expect_cons,
        Option.bind_eq_bind, Option.bind_some]
  | .float characteristic mantissa, fuel + 1, rest, _, _ => by
      simp only [AaType.tokens, List.cons_append, List.nil_append, parseType, integerParameter_digits, expect_cons,
        Option.bind_eq_bind, Option.bind_some]
  | .void, fuel + 1, rest, _, _ => by
      simp only [AaType.tokens, List.cons_append, List.nil_append, parseType]
  | .named recordTypeName, fuel + 1, rest, _, _ => by
      simp only [AaType.tokens, List.cons_append, List.nil_append, parseType, Identifier.ofText_text, Option.map_some,
        List.append_nil]
  | .pointer refType, fuel + 1, rest, enough, _ => by
      have inner := parseType_tokens refType fuel (.greater :: rest)
        (by simp only [AaType.tokens, List.length_append, List.length_cons] at enough; omega) (by simp)
      simp only [AaType.tokens, List.cons_append, List.nil_append, List.append_assoc, parseType, inner, expect_cons,
        Option.bind_eq_bind, Option.bind_some]
  | .array dimension dimensions elementType, fuel + 1, rest, enough, ends => by
      have inner := parseType_tokens elementType fuel rest
        (by simp only [AaType.tokens, List.length_append, List.length_cons] at enough; omega) ends
      have dims := @parseDimensions_tokens (dimension :: dimensions) (.of :: (elementType.tokens ++ rest)) (by simp)
      simp only [AaType.tokens, List.cons_append, List.nil_append, List.append_assoc, parseType, dims, inner, expect_cons,
        Option.bind_eq_bind, Option.bind_some]
  | .record elementTypes, fuel + 1, rest, enough, ends => by
      have inner := parseElementTypes_tokens elementTypes fuel rest
        (by simp only [AaType.tokens, List.length_append, List.length_cons] at enough; omega) ends
      simp only [AaType.tokens, List.cons_append, List.nil_append, parseType, inner, Option.bind_eq_bind, Option.bind_some]
  | t, 0, rest, enough, _ => by
      cases t <;> simp [AaType.tokens] at enough

theorem parseElementTypes_tokens : (ts : ElementTypes) → (fuel : Nat) → (rest : List Token) → ts.tokens.length ≤ fuel →
    rest.head? ≠ some .less → parseElementTypes fuel (ts.tokens ++ rest) = some (ts, rest)
  | .last elementType, fuel + 1, rest, enough, ends => by
      have inner := parseType_tokens elementType fuel (.greater :: rest)
        (by simp only [ElementTypes.tokens, List.length_append, List.length_cons] at enough; omega) (by simp)
      simp only [ElementTypes.tokens, List.cons_append, List.nil_append, List.append_assoc, parseElementTypes, inner,
        expect_cons, Option.bind_eq_bind, Option.bind_some]
      split
      · exact absurd rfl ends
      · rfl
  | .cons elementType elementTypes, fuel + 1, rest, enough, ends => by
      have inner := parseType_tokens elementType fuel (.greater :: (elementTypes.tokens ++ rest))
        (by simp only [ElementTypes.tokens, List.length_append, List.length_cons] at enough; omega) (by simp)
      have later := parseElementTypes_tokens elementTypes fuel rest
        (by simp only [ElementTypes.tokens, List.length_append, List.length_cons] at enough; omega) ends
      obtain ⟨ts, eq⟩ := elementTypes.tokens_eq
      rw [eq] at inner later
      simp only [ElementTypes.tokens, List.cons_append, List.nil_append, List.append_assoc, parseElementTypes, eq]
      simp only [List.cons_append] at inner later
      simp only [inner, expect_cons, later, Option.bind_eq_bind, Option.bind_some]
  | ts, 0, rest, enough, _ => by
      cases ts <;> simp [ElementTypes.tokens] at enough

end

end Parse

end Ahir.Aa.Text
