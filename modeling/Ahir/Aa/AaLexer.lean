import Ahir.Text.Lexer
import Mathlib.Data.List.Infix
import Mathlib.Data.List.Nodup

/-!
# The lexer of Aa

The tokens that the rules for types and for expressions name have constructors of their
own; other words are kept as they are written.
-/

set_option autoImplicit false

namespace Ahir.Aa.Text
open Ahir.Text

inductive Token where
  | lparen | rparen | lbrace | rbrace | lbracket | rbracket | comma
  | equal | notequal | less | lessequal | greater | greaterequal | shl | shr | rol | ror | concat | bitsel | unordered | power
  | plus | minus | mul | div | not | or | and | xor | nor | nand | xnor
  | call | buffering | slice | bitmap | mux | bitreduce | decode | encode | priorityencode | cast | bitcast
  | uint | int | float | pointer | array | of | record | void
  | word (text : String)
  | uinteger (text : List Char)
  | floatconst (text : List Char)
  | binary (text : List Char)
  | hexadecimal (text : List Char)
  | hexcstyleinteger (text : List Char)
  | simpleIdentifier (text : List Char)
  deriving DecidableEq

namespace Token

/-- The rules of the lexer that have a fixed text, without the keywords of declarations and
of statements, which no type and no expression has. -/
def words : List (String × Token) :=
  [("(", lparen), (")", rparen), ("\x7b", lbrace), ("\x7d", rbrace), ("[", lbracket), ("]", rbracket), (",", comma),
    ("==", equal), ("!=", notequal), ("<", less), ("<=", lessequal), (">", greater), (">=", greaterequal),
    ("<<", shl), (">>", shr), ("<o<", rol), (">o>", ror), ("&&", concat), ("[]", bitsel), ("><", unordered), ("**", power),
    ("+", plus), ("-", minus), ("*", mul), ("/", div), ("~", not), ("|", or), ("&", and), ("^", xor), ("~|", nor),
    ("~&", nand), ("~^", xnor),
    ("$call", call), ("$buffering", buffering), ("$slice", slice), ("$bitmap", bitmap), ("$mux", mux),
    ("$bitreduce", bitreduce), ("$decode", decode), ("$encode", encode), ("$p_encode", priorityencode),
    ("$cast", cast), ("$bitcast", bitcast), ("$uint", uint), ("$int", int), ("$float", float), ("$pointer", pointer),
    ("$array", array), ("$of", of), ("$record", record), ("$void", void)] ++
  [":", ";", "\"", "../", ":=", "?", "=>", "%", "->", "@", "$concat", "$prioritymux", "$default", "$excmux", "$reduce",
    "$zero", "$one"].map fun text => (text, word text)

end Token

section Munch

def isAlpha (c : Char) : Bool := ('a' ≤ c && c ≤ 'z') || ('A' ≤ c && c ≤ 'Z')

def isDigit (c : Char) : Bool := '0' ≤ c && c ≤ '9'

def isHexDigit (c : Char) : Bool := isDigit c || ('a' ≤ c && c ≤ 'f') || ('A' ≤ c && c ≤ 'F')

def isIdentifierChar (c : Char) : Bool := isAlpha c || isDigit c || c == '_' || c == '.'

def isBlank (c : Char) : Bool := c == ' ' || c == '\t' || c == '\x0c' || c == '\r' || c == '\n'

def longestWord (cs : List Char) : List (String × Token) → Option (Nat × Token)
  | [] => none
  | (text, token) :: words =>
      match longestWord cs words, text.toList.isPrefixOf cs with
      | some (n, found), true => if n < text.toList.length then some (text.toList.length, token) else some (n, found)
      | some (n, found), false => some (n, found)
      | none, true => some (text.toList.length, token)
      | none, false => none

/-- A token of one character or more, made by `token` from what it is spelled with. -/
def spelled (token : List Char → Token) (isPart : Char → Bool) (front cs : List Char) : Option (Option Token × List Char) :=
  some (some (token (front ++ cs.takeWhile isPart)), cs.dropWhile isPart)

/-- An integer or an integer in the style of C, from its first digit on. -/
def munchNumber (c : Char) (cs : List Char) : Option (Option Token × List Char) :=
  if c == '0' && cs.head? == some 'x' && (cs.tail.head?.any isHexDigit) then
    spelled .hexcstyleinteger isHexDigit ['0', 'x'] cs.tail
  else spelled .uinteger isDigit [c] cs

/-- `FLOATCONST` from behind `_f` on. -/
def munchFloat (cs : List Char) : Option (Option Token × List Char) :=
  let (sign, cs) := if cs.head? == some '-' then (['-'], cs.tail) else ([], cs)
  match cs with
  | d :: '.' :: cs =>
      let (fraction, cs) := (cs.takeWhile isDigit, cs.dropWhile isDigit)
      match cs with
      | 'e' :: expSign :: e :: cs =>
          if isDigit d && !fraction.isEmpty && (expSign == '+' || expSign == '-') && isDigit e then
            spelled .floatconst isDigit (['_', 'f'] ++ sign ++ [d, '.'] ++ fraction ++ ['e', expSign, e]) cs
          else none
      | _ => none
  | _ => none

def munchConstant : List Char → Option (Option Token × List Char)
  | 'b' :: c :: cs =>
      if c == '0' || c == '1' then spelled .binary (fun c => c == '0' || c == '1') ['_', 'b', c] cs else none
  | 'h' :: c :: cs => if isHexDigit c then spelled .hexadecimal isHexDigit ['_', 'h', c] cs else none
  | 'f' :: cs => munchFloat cs
  | _ => none

def munch : Munch Token
  | [] => none
  | c :: cs =>
      if isBlank c then some (none, cs)
      else if isAlpha c then spelled .simpleIdentifier isIdentifierChar [c] cs
      else if isDigit c then munchNumber c cs
      else if c == '_' then munchConstant cs
      else if c == '/' && cs.head? == some '/' then
        -- a comment reaches up to the end of its line
        if cs.contains '\n' then some (none, (cs.dropWhile (· != '\n')).tail) else none
      else (longestWord (c :: cs) Token.words).map fun found => (some found.2, (c :: cs).drop found.1)

theorem spelled_shorter {token : List Char → Token} {isPart : Char → Bool} {front cs rest : List Char} {found : Option Token}
    (eq : spelled token isPart front cs = some (found, rest)) : rest.length ≤ cs.length := by
  obtain ⟨_, rfl⟩ := Prod.mk.inj (Option.some.inj eq)
  exact (List.dropWhile_suffix isPart).length_le

theorem munchNumber_shorter {c : Char} {cs rest : List Char} {found : Option Token}
    (eq : munchNumber c cs = some (found, rest)) : rest.length ≤ cs.length := by
  unfold munchNumber at eq
  split at eq
  · exact (spelled_shorter eq).trans (List.tail_suffix cs).length_le
  · exact spelled_shorter eq

theorem munchFloat_shorter {cs rest : List Char} {found : Option Token}
    (eq : munchFloat cs = some (found, rest)) : rest.length ≤ cs.length := by
  have unsigned : ∀ (front cs' : List Char), cs'.length ≤ cs.length →
      (match cs' with
        | d :: '.' :: cs =>
            match cs.dropWhile isDigit with
            | 'e' :: expSign :: e :: cs' =>
                if isDigit d && !(cs.takeWhile isDigit).isEmpty && (expSign == '+' || expSign == '-') && isDigit e then
                  spelled .floatconst isDigit (['_', 'f'] ++ front ++ [d, '.'] ++ cs.takeWhile isDigit ++ ['e', expSign, e]) cs'
                else none
            | _ => none
        | _ => none) = some (found, rest) → rest.length ≤ cs.length := by
    intro front cs' le eq
    split at eq
    · next d digits =>
        split at eq
        · next expSign e more behind =>
            split at eq
            · have suffix := (List.dropWhile_suffix isDigit (l := digits)).length_le
              rw [behind] at suffix
              have shorter := spelled_shorter eq
              simp only [List.length_cons] at le suffix
              omega
            · exact absurd eq (Option.some_ne_none _).symm
        · exact absurd eq (Option.some_ne_none _).symm
    · exact absurd eq (Option.some_ne_none _).symm
  unfold munchFloat at eq
  by_cases sign : (cs.head? == some '-') = true
  · rw [if_pos sign] at eq
    exact unsigned ['-'] cs.tail (List.tail_suffix cs).length_le eq
  · rw [if_neg sign] at eq
    exact unsigned [] cs (Nat.le_refl _) eq

theorem munchConstant_shorter {cs rest : List Char} {found : Option Token}
    (eq : munchConstant cs = some (found, rest)) : rest.length ≤ cs.length := by
  unfold munchConstant at eq
  split at eq
  · split at eq
    · exact (spelled_shorter eq).trans ((Nat.le_succ _).trans (Nat.le_succ _))
    · exact absurd eq (Option.some_ne_none _).symm
  · split at eq
    · exact (spelled_shorter eq).trans ((Nat.le_succ _).trans (Nat.le_succ _))
    · exact absurd eq (Option.some_ne_none _).symm
  · exact (munchFloat_shorter eq).trans (Nat.le_succ _)
  · exact absurd eq (Option.some_ne_none _).symm

/-- A word that is found is one of the words and at the front. -/
theorem longestWord_mem {cs : List Char} {words : List (String × Token)} {n : Nat} {token : Token}
    (eq : longestWord cs words = some (n, token)) :
    ∃ text, (text, token) ∈ words ∧ text.toList.isPrefixOf cs = true ∧ text.toList.length = n := by
  induction words with
  | nil => exact absurd eq (Option.some_ne_none _).symm
  | cons word words ih =>
      obtain ⟨text, token'⟩ := word
      have later (found : longestWord cs words = some (n, token)) :
          ∃ text', (text', token) ∈ (text, token') :: words ∧ text'.toList.isPrefixOf cs = true ∧ text'.toList.length = n := by
        obtain ⟨text', mem, front, length⟩ := ih found
        exact ⟨text', List.mem_cons_of_mem _ mem, front, length⟩
      unfold longestWord at eq
      split at eq
      · next m found others front =>
          split at eq
          · obtain ⟨rfl, rfl⟩ := Prod.mk.inj (Option.some.inj eq)
            exact ⟨text, List.mem_cons_self, front, rfl⟩
          · exact later (others.trans eq)
      · next m found others _ => exact later (others.trans eq)
      · next _ front =>
          obtain ⟨rfl, rfl⟩ := Prod.mk.inj (Option.some.inj eq)
          exact ⟨text, List.mem_cons_self, front, rfl⟩
      · exact absurd eq (Option.some_ne_none _).symm

def isSafe (c : Char) : Bool := c == ' ' || c == '(' || c == ')' || c == '[' || c == ',' || c == '$' || isDigit c

structure WellSpelled (text : List Char) : Prop where
  start : ∃ c ∈ text.head?, isBlank c = false ∧ isAlpha c = false ∧ isDigit c = false ∧ c ≠ '_'
  slash : text.head? = some '/' → text = ['/']
  lparen : text.head? = some '(' → text = ['(']
  dollar : text.head? = some '$' → ∀ c ∈ text.tail, isAlpha c = true ∨ c = '_'
  tail : ∀ c ∈ text.tail, isSafe c = false

def isWellSpelled (text : List Char) : Bool :=
  text.head?.any (fun c => !isBlank c && !isAlpha c && !isDigit c && c != '_') &&
  (text.head? != some '/' || text == ['/']) && (text.head? != some '(' || text == ['(']) &&
  (text.head? != some '$' || text.tail.all fun c => isAlpha c || c == '_') && text.tail.all fun c => !isSafe c

theorem wellSpelled_of_isWellSpelled {text : List Char} (spelled : isWellSpelled text = true) : WellSpelled text := by
  simp only [isWellSpelled, Bool.and_eq_true, Bool.or_eq_true, Option.any_eq_true, List.all_eq_true, Bool.not_eq_true',
    bne_iff_ne, beq_iff_eq] at spelled
  obtain ⟨⟨⟨⟨⟨c, isHead, ⟨⟨blank, alpha⟩, digit⟩, underscore⟩, slash⟩, lparen⟩, dollar⟩, tail⟩ := spelled
  exact ⟨⟨c, isHead, blank, alpha, digit, underscore⟩, fun same => slash.resolve_left fun ne => ne same,
    fun same => lparen.resolve_left fun ne => ne same, fun same => dollar.resolve_left fun ne => ne same, tail⟩

theorem words_wellSpelled : ∀ word ∈ Token.words, WellSpelled word.1.toList := by
  have all : (Token.words.all fun word => isWellSpelled word.1.toList) = true := by decide +kernel
  exact fun word mem => wellSpelled_of_isWellSpelled (List.all_eq_true.mp all word mem)

theorem munch_consuming : Consuming munch := by
  intro cs token rest eq
  cases cs with
  | nil => exact absurd eq (Option.some_ne_none _).symm
  | cons c cs =>
      rw [List.length_cons, Nat.lt_succ_iff]
      rw [munch] at eq
      split at eq
      · obtain ⟨_, rfl⟩ := Prod.mk.inj (Option.some.inj eq)
        exact Nat.le_refl _
      · split at eq
        · exact spelled_shorter eq
        · split at eq
          · exact munchNumber_shorter eq
          · split at eq
            · exact munchConstant_shorter eq
            · split at eq
              · split at eq
                · obtain ⟨_, rfl⟩ := Prod.mk.inj (Option.some.inj eq)
                  exact ((List.tail_suffix _).length_le).trans (List.dropWhile_suffix _).length_le
                · exact absurd eq (Option.some_ne_none _).symm
              · obtain ⟨⟨n, found⟩, word, eq⟩ := Option.map_eq_some_iff.mp eq
                obtain ⟨text, mem, _, length⟩ := longestWord_mem word
                obtain ⟨c', isHead, _⟩ := (words_wellSpelled _ mem).start
                have pos : 0 < n := by
                  rw [← length]
                  exact List.length_pos_iff.mpr fun empty => by rw [empty] at isHead; exact absurd isHead (Option.not_mem_none _)
                obtain ⟨_, rfl⟩ := Prod.mk.inj eq
                rw [List.length_drop, List.length_cons]
                omega

def followers (text : List Char) : List Char :=
  Token.words.filterMap fun word => if text.isPrefixOf word.1.toList then word.1.toList[text.length]? else none

theorem words_nodup : (Token.words.map Prod.fst).Nodup := by decide +kernel

/-- The longest word at the front is the one that nothing behind it makes longer. -/
theorem longestWord_append {text : String} {token : Token} (mem : (text, token) ∈ Token.words) {rest : List Char}
    (closed : ∀ c ∈ rest.head?, c ∉ followers text.toList) :
    longestWord (text.toList ++ rest) Token.words = some (text.toList.length, token) := by
  have shorter : ∀ word ∈ Token.words, word.1.toList.isPrefixOf (text.toList ++ rest) = true →
      word = (text, token) ∨ word.1.toList.length < text.toList.length := by
    rintro ⟨text', token'⟩ mem' front
    rcases Nat.lt_or_ge text'.toList.length text.toList.length with less | ge
    · exact Or.inr less
    · obtain ⟨more, eq⟩ := List.isPrefixOf_iff_prefix.mp front
      obtain ⟨extra, eq'⟩ := List.prefix_of_prefix_length_le (List.prefix_append _ rest) ⟨more, eq⟩ ge
      cases extra with
      | nil =>
          rw [List.append_nil] at eq'
          obtain rfl : text = text' := String.toList_inj.mp eq'
          exact Or.inl (List.inj_on_of_nodup_map words_nodup mem' mem rfl)
      | cons c extra =>
          have isNext : c ∈ rest.head? := by
            rw [← eq', List.append_assoc] at eq
            rw [← List.append_cancel_left eq]
            rfl
          refine absurd (List.mem_filterMap.mpr ⟨(text', token'), mem', ?_⟩) (closed c isNext)
          rw [if_pos (List.isPrefixOf_iff_prefix.mpr ⟨c :: extra, eq'⟩), ← eq', List.getElem?_append_right (Nat.le_refl _),
            Nat.sub_self]
          rfl
  have front : text.toList.isPrefixOf (text.toList ++ rest) = true := List.isPrefixOf_iff_prefix.mpr (List.prefix_append _ _)
  generalize text.toList ++ rest = cs at shorter front
  generalize Token.words = words at mem shorter
  clear closed
  induction words with
  | nil => exact absurd mem List.not_mem_nil
  | cons word words ih =>
      obtain ⟨text', token'⟩ := word
      have others := fun w isMem => shorter w (List.mem_cons_of_mem _ isMem)
      unfold longestWord
      by_cases later : (text, token) ∈ words
      · rw [ih later others]
        cases front' : text'.toList.isPrefixOf cs with
        | false => rfl
        | true =>
            refine if_neg (Nat.not_lt.mpr ?_)
            rcases shorter _ List.mem_cons_self front' with same | less
            · rw [(Prod.mk.inj same).1]
            · exact less.le
      · obtain ⟨rfl, rfl⟩ := Prod.mk.inj ((List.mem_cons.mp mem).resolve_right later)
        rw [front]
        cases found : longestWord cs words with
        | none => rfl
        | some best =>
            obtain ⟨n, token'⟩ := best
            obtain ⟨text', mem', front', rfl⟩ := longestWord_mem found
            rcases others _ mem' front' with same | less
            · exact absurd (same ▸ mem') later
            · exact if_pos less

/-- A word of the language, before what neither makes it longer nor a comment of it. -/
theorem lexes_word_followed {text : String} {token : Token} (mem : (text, token) ∈ Token.words) :
    Lexes munch text.toList (some [token])
      fun rest => ∀ c ∈ rest.head?, c ∉ followers text.toList ∧ (text.toList = ['/'] → c ≠ '/') := by
  refine Lexes.of_munches munch_consuming 1 fun rest closed => ?_
  obtain ⟨c, isHead, blank, alpha, digit, underscore⟩ := (words_wellSpelled _ mem).start
  obtain ⟨cs, eq⟩ : ∃ cs, text.toList = c :: cs := ⟨_, (List.cons_head?_tail isHead).symm⟩
  have word := longestWord_append mem fun c isNext => (closed c isNext).1
  have comment : (c == '/' && (cs ++ rest).head? == some '/') = false := by
    by_cases slash : c = '/'
    · have alone := (words_wellSpelled _ mem).slash (by rw [eq, slash]; rfl)
      have next : rest.head? ≠ some '/' := fun next => (closed '/' next).2 alone rfl
      rw [eq] at alone
      rw [(List.cons.inj alone).2, List.nil_append, beq_eq_false_iff_ne.mpr next, Bool.and_false]
    · rw [beq_false_of_ne slash, Bool.false_and]
  have step : munch (text.toList ++ rest) = some (some token, rest) := by
    rw [eq, List.cons_append, munch, blank, alpha, digit, beq_false_of_ne underscore, comment]
    rw [eq, List.cons_append] at word
    simp only [Bool.false_eq_true, if_false, word, Option.map_some]
    rw [← List.cons_append, ← eq, List.drop_left]
  rw [munches, step]
  rfl

theorem followers_spec {text : List Char} {c : Char} (mem : c ∈ followers text) :
    ∃ word ∈ Token.words, ∃ more, word.1.toList = text ++ c :: more := by
  obtain ⟨word, isWord, eq⟩ := List.mem_filterMap.mp mem
  split at eq
  · next front =>
      obtain ⟨extra, eq'⟩ := List.isPrefixOf_iff_prefix.mp front
      rw [← eq', List.getElem?_append_right (Nat.le_refl _), Nat.sub_self] at eq
      cases extra with
      | nil => exact absurd eq (Option.some_ne_none _).symm
      | cons c' more =>
          obtain rfl : c' = c := Option.some.inj eq
          exact ⟨word, isWord, more, eq'.symm⟩
  · exact absurd eq (Option.some_ne_none _).symm

/-- Whether a character behind a word or a blank leaves it as it is. -/
def mayFollow (text : String) (c : Char) : Bool :=
  isSafe c || text == " " || text == "(" || text.toList.head? == some '$' && !isAlpha c && c != '_'

def Follows (text : String) (rest : List Char) : Prop := ∀ c ∈ rest.head?, mayFollow text c = true

theorem follows_blank (rest : List Char) : Follows " " rest := fun c _ => by
  unfold mayFollow
  rw [beq_self_eq_true, Bool.or_true, Bool.true_or, Bool.true_or]

theorem follows_lparen (rest : List Char) : Follows "(" rest := fun c _ => by
  unfold mayFollow
  rw [beq_self_eq_true "(", Bool.or_true, Bool.true_or]

theorem follows_safe (text : String) {rest : List Char} (safe : ∀ c ∈ rest.head?, isSafe c = true) : Follows text rest :=
  fun c isNext => by
    unfold mayFollow
    rw [safe c isNext, Bool.true_or, Bool.true_or, Bool.true_or]

theorem lexes_word {text : String} {token : Token} (mem : (text, token) ∈ Token.words) :
    Lexes munch text.toList (some [token]) (Follows text) := by
  refine (lexes_word_followed mem).mono fun rest follows c isNext => ?_
  have spelled := words_wellSpelled _ mem
  obtain ⟨c', isHead, blank, _⟩ := spelled.start
  obtain ⟨cs, isText⟩ : ∃ cs, text.toList = c' :: cs := ⟨_, (List.cons_head?_tail isHead).symm⟩
  have inTail {word : String × Token} {more : List Char} (eq : word.1.toList = text.toList ++ c :: more) :
      c ∈ word.1.toList.tail := by
    rw [eq, isText]
    exact List.mem_append_right _ List.mem_cons_self
  have allowed := follows c isNext
  unfold mayFollow at allowed
  rcases Bool.or_eq_true_iff.mp allowed with allowed | keyword
  · rcases Bool.or_eq_true_iff.mp allowed with allowed | lparen
    · rcases Bool.or_eq_true_iff.mp allowed with safe | isBlank_
      · refine ⟨fun longer => ?_, ?_⟩
        · obtain ⟨word, isWord, more, eq⟩ := followers_spec longer
          exact Bool.noConfusion (((words_wellSpelled word isWord).tail c (inTail eq)).symm.trans safe)
        · rintro _ rfl
          exact absurd safe (by decide)
      · obtain rfl : text = " " := eq_of_beq isBlank_
        have single : " ".toList = [' '] := by decide +kernel
        rw [show (" ", token).1.toList.head? = some ' ' by rw [single]; rfl] at isHead
        obtain rfl : ' ' = c' := Option.mem_some_iff.mp isHead
        exact absurd blank (by decide)
    · obtain rfl : text = "(" := eq_of_beq lparen
      refine ⟨fun longer => ?_, fun slash => absurd slash (by decide)⟩
      obtain ⟨word, isWord, more, eq⟩ := followers_spec longer
      have alone := (words_wellSpelled word isWord).lparen (by rw [eq]; rfl)
      rw [eq] at alone
      exact List.cons_ne_nil c more (List.cons.inj (show '(' :: c :: more = ['('] from alone)).2
  · obtain ⟨both, underscore⟩ := Bool.and_eq_true_iff.mp keyword
    obtain ⟨dollar, alpha⟩ := Bool.and_eq_true_iff.mp both
    have dollar := eq_of_beq dollar
    refine ⟨fun longer => ?_, fun slash => ?_⟩
    · obtain ⟨word, isWord, more, eq⟩ := followers_spec longer
      have isHead' : word.1.toList.head? = some '$' := by
        rw [isText] at dollar
        rw [eq, isText]
        exact dollar
      rcases (words_wellSpelled word isWord).dollar isHead' c (inTail eq) with isAlpha_ | isUnderscore
      · rw [isAlpha_] at alpha
        exact Bool.noConfusion alpha
      · exact absurd isUnderscore (bne_iff_ne.mp underscore)
    · rw [slash] at dollar
      exact absurd dollar (by decide)

theorem lexes_blank : Lexes munch [' '] (some []) (Follows " ") :=
  Lexes.of_munches munch_consuming 1 fun _ _ => rfl

def tokenOf (piece : String) : Option Token := (Token.words.find? fun word => word.1 == piece).map Prod.snd

def isPiece (piece : String) : Bool := piece == " " || (tokenOf piece).isSome

theorem lexes_piece {piece : String} (isPiece_ : isPiece piece = true) :
    Lexes munch piece.toList (some (tokenOf piece).toList) (Follows piece) := by
  unfold isPiece at isPiece_
  cases found : Token.words.find? fun word => word.1 == piece with
  | some word =>
      obtain ⟨text, token⟩ := word
      obtain rfl : text = piece := eq_of_beq (List.find?_some (p := fun word : String × Token => word.1 == piece) found)
      rw [tokenOf, found]
      exact lexes_word (List.mem_of_find?_eq_some found)
  | none =>
      rw [tokenOf, found] at isPiece_ ⊢
      obtain rfl : piece = " " := eq_of_beq ((Bool.or_eq_true_iff.mp isPiece_).resolve_right Bool.false_ne_true)
      exact lexes_blank

def areParted : String → List String → Bool
  | piece, [] => isPiece piece
  | piece, next :: pieces =>
      isPiece piece && (next.toList.head?.any (mayFollow piece)) && areParted next pieces

theorem lexes_pieces (piece : String) (pieces : List String) (parted : areParted piece pieces = true) :
    Lexes munch ((piece :: pieces).flatMap String.toList) (some ((piece :: pieces).flatMap fun p => (tokenOf p).toList))
      (Follows ((piece :: pieces).getLast (List.cons_ne_nil _ _))) := by
  induction pieces generalizing piece with
  | nil =>
      rw [List.flatMap_singleton, List.flatMap_singleton]
      exact lexes_piece parted
  | cons next pieces ih =>
      obtain ⟨both, later⟩ := Bool.and_eq_true_iff.mp parted
      obtain ⟨isPiece_, follows⟩ := Bool.and_eq_true_iff.mp both
      rw [List.flatMap_cons, List.flatMap_cons]
      refine (lexes_piece isPiece_).append (ih next later) fun rest _ c isNext => ?_
      obtain ⟨c', isHead, allowed⟩ := (Option.any_eq_true _ _).mp follows
      obtain ⟨cs, isText⟩ : ∃ cs, next.toList = c' :: cs := ⟨_, (List.cons_head?_tail isHead).symm⟩
      rw [List.flatMap_cons, isText] at isNext
      exact Option.some.inj (show some c' = some c from isNext) ▸ allowed

theorem lexes_chars (text : List Char) {tokens : List Token} (piece : String) (pieces : List String) (last : String)
    (spelled : (text == (piece :: pieces).flatMap String.toList &&
      tokens == ((piece :: pieces).flatMap fun p => (tokenOf p).toList) && areParted piece pieces &&
      last == (piece :: pieces).getLast (List.cons_ne_nil _ _)) = true) :
    Lexes munch text (some tokens) (Follows last) := by
  obtain ⟨spelled, isLast⟩ := Bool.and_eq_true_iff.mp spelled
  obtain ⟨spelled, parted⟩ := Bool.and_eq_true_iff.mp spelled
  obtain ⟨isText, areTokens⟩ := Bool.and_eq_true_iff.mp spelled
  rw [eq_of_beq isText, eq_of_beq areTokens, eq_of_beq isLast]
  exact lexes_pieces piece pieces parted

theorem lexes_literal (text : String) {tokens : List Token} (piece : String) (pieces : List String) (last : String)
    (spelled : (text.toList == (piece :: pieces).flatMap String.toList &&
      tokens == ((piece :: pieces).flatMap fun p => (tokenOf p).toList) && areParted piece pieces &&
      last == (piece :: pieces).getLast (List.cons_ne_nil _ _)) = true) :
    Lexes munch text.toList (some tokens) (Follows last) := lexes_chars text.toList piece pieces last spelled

theorem isBlank_of_ge {c : Char} (ge : '0' ≤ c) : isBlank c = false := by
  unfold isBlank
  rw [Bool.or_eq_false_iff, Bool.or_eq_false_iff, Bool.or_eq_false_iff, Bool.or_eq_false_iff]
  refine ⟨⟨⟨⟨?_, ?_⟩, ?_⟩, ?_⟩, ?_⟩ <;>
    exact beq_false_of_ne fun eq => absurd (eq ▸ ge) (by decide)

theorem isAlpha_of_isDigit {c : Char} (digit : isDigit c = true) : isAlpha c = false := by
  unfold isDigit at digit
  unfold isAlpha
  have le : c ≤ '9' := of_decide_eq_true (Bool.and_eq_true_iff.mp digit).2
  have lower : ¬ 'a' ≤ c := fun ge => absurd (Char.le_trans ge le) (by decide)
  have upper : ¬ 'A' ≤ c := fun ge => absurd (Char.le_trans ge le) (by decide)
  rw [decide_eq_false lower, decide_eq_false upper]
  rfl

/-- An integer as it is written, before what is no part of it. -/
theorem lexes_digits {digits : List Char} (nonempty : digits ≠ []) (all : ∀ c ∈ digits, isDigit c = true) :
    Lexes munch digits (some [.uinteger digits]) fun rest => ∀ c ∈ rest.head?, isDigit c = false ∧ c ≠ 'x' := by
  refine Lexes.of_munches munch_consuming 1 fun rest closed => ?_
  obtain ⟨c, cs, rfl⟩ := List.exists_cons_of_ne_nil nonempty
  have digit := all c List.mem_cons_self
  have others : ∀ d ∈ cs, isDigit d = true := fun d mem => all d (List.mem_cons_of_mem _ mem)
  have ge : '0' ≤ c := of_decide_eq_true (Bool.and_eq_true_iff.mp digit).1
  have noX : (cs ++ rest).head? ≠ some 'x' := by
    cases cs with
    | nil => exact fun isNext => (closed 'x' isNext).2 rfl
    | cons d cs => exact fun isNext => absurd (Option.some.inj isNext ▸ others d List.mem_cons_self) (by decide)
  have ends : rest.takeWhile isDigit = [] ∧ rest.dropWhile isDigit = rest := by
    cases rest with
    | nil => exact ⟨rfl, rfl⟩
    | cons d rest =>
        have noDigit := Bool.eq_false_iff.mp (closed d rfl).1
        exact ⟨List.takeWhile_cons_of_neg noDigit, List.dropWhile_cons_of_neg noDigit⟩
  have step : munch (c :: cs ++ rest) = some (some (.uinteger (c :: cs)), rest) := by
    rw [List.cons_append, munch, isBlank_of_ge ge, isAlpha_of_isDigit digit, digit, munchNumber,
      beq_eq_false_iff_ne.mpr noX, Bool.and_false, Bool.false_and]
    simp only [Bool.false_eq_true, if_false, if_true, spelled]
    rw [List.takeWhile_append_of_pos others, List.dropWhile_append_of_pos others, ends.1, ends.2, List.append_nil]
    rfl
  rw [munches, step]
  rfl

theorem lexes_identifier {c : Char} {cs : List Char} (alpha : isAlpha c = true)
    (all : ∀ d ∈ cs, isIdentifierChar d = true) :
    Lexes munch (c :: cs) (some [.simpleIdentifier (c :: cs)]) fun rest => ∀ c ∈ rest.head?, isIdentifierChar c = false := by
  refine Lexes.of_munches munch_consuming 1 fun rest closed => ?_
  have ge : '0' ≤ c := by
    unfold isAlpha at alpha
    rcases Bool.or_eq_true_iff.mp alpha with lower | upper
    · exact Char.le_trans (by decide) (of_decide_eq_true (Bool.and_eq_true_iff.mp lower).1)
    · exact Char.le_trans (by decide) (of_decide_eq_true (Bool.and_eq_true_iff.mp upper).1)
  have ends : rest.takeWhile isIdentifierChar = [] ∧ rest.dropWhile isIdentifierChar = rest := by
    cases rest with
    | nil => exact ⟨rfl, rfl⟩
    | cons d rest =>
        have noPart := Bool.eq_false_iff.mp (closed d rfl)
        exact ⟨List.takeWhile_cons_of_neg noPart, List.dropWhile_cons_of_neg noPart⟩
  have step : munch (c :: cs ++ rest) = some (some (.simpleIdentifier (c :: cs)), rest) := by
    rw [List.cons_append, munch, isBlank_of_ge ge, alpha]
    simp only [Bool.false_eq_true, if_false, if_true, spelled]
    rw [List.takeWhile_append_of_pos all, List.dropWhile_append_of_pos all, ends.1, ends.2, List.append_nil]
    rfl
  rw [munches, step]
  rfl

end Munch

end Ahir.Aa.Text
