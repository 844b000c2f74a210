import Mathlib.Data.Option.NAry

/-!
# Lexers

A lexer takes token after token from the front of a text.  A piece of text lexes to its
tokens when it does so before every text that may follow it; pieces that may follow one
another are put together.
-/

set_option autoImplicit false

universe u

namespace Ahir.Text
variable {Token : Type u}

/-- A token, or none for a blank, at the front of a text, and the text behind it. -/
abbrev Munch (Token : Type u) : Type u := List Char → Option (Option Token × List Char)

def lexFor (munch : Munch Token) : Nat → List Char → Option (List Token)
  | _, [] => some []
  | 0, _ :: _ => none
  | fuel + 1, c :: cs =>
      match munch (c :: cs) with
      | none => none
      | some (token, rest) => (lexFor munch fuel rest).map (token.toList ++ ·)

def lex (munch : Munch Token) (text : List Char) : Option (List Token) := lexFor munch text.length text

def Consuming (munch : Munch Token) : Prop :=
  ∀ cs token rest, munch cs = some (token, rest) → rest.length < cs.length

variable {munch : Munch Token}

theorem lexFor_eq (consuming : Consuming munch) (fuel : Nat) (cs : List Char) (enough : cs.length ≤ fuel) :
    lexFor munch fuel cs = lex munch cs := by
  induction fuel using Nat.strongRecOn generalizing cs with
  | _ fuel ih =>
      cases cs with
      | nil => cases fuel <;> rfl
      | cons c cs =>
          rw [List.length_cons] at enough
          obtain ⟨fuel, rfl⟩ := Nat.exists_eq_succ_of_ne_zero (Nat.ne_zero_of_lt enough)
          rw [lex, List.length_cons, lexFor, lexFor]
          cases front : munch (c :: cs) with
          | none => rfl
          | some found =>
              obtain ⟨token, rest⟩ := found
              have shorter := consuming _ _ _ front
              rw [List.length_cons] at shorter
              dsimp only
              rw [ih fuel (Nat.lt_succ_self fuel) rest (by omega)]
              by_cases same : cs.length = fuel
              · rw [same, ih fuel (Nat.lt_succ_self fuel) rest (by omega)]
              · rw [ih cs.length (by omega) rest (by omega)]

theorem lex_of_munch (consuming : Consuming munch) {cs rest : List Char} {token : Option Token}
    (front : munch cs = some (token, rest)) : lex munch cs = (lex munch rest).map (token.toList ++ ·) := by
  have shorter := consuming _ _ _ front
  cases cs with
  | nil => exact absurd shorter (Nat.not_lt_zero _)
  | cons c cs =>
      rw [List.length_cons] at shorter
      rw [lex, List.length_cons, lexFor, front]
      exact congrArg (Option.map _) (lexFor_eq consuming _ _ (Nat.lt_succ_iff.mp shorter))

theorem lex_of_munch_none {c : Char} {cs : List Char} (front : munch (c :: cs) = none) : lex munch (c :: cs) = none := by
  rw [lex, List.length_cons, lexFor, front]

def munches (munch : Munch Token) : Nat → List Char → Option (List Token × List Char)
  | 0, cs => some ([], cs)
  | n + 1, cs =>
      match munch cs with
      | none => none
      | some (token, rest) => (munches munch n rest).map fun found => (token.toList ++ found.1, found.2)

theorem lex_of_munches (consuming : Consuming munch) {n : Nat} {cs rest : List Char} {tokens : List Token}
    (front : munches munch n cs = some (tokens, rest)) : lex munch cs = (lex munch rest).map (tokens ++ ·) := by
  induction n generalizing cs tokens with
  | zero =>
      obtain ⟨rfl, rfl⟩ := Prod.mk.inj (Option.some.inj front)
      exact Option.map_id'.symm
  | succ n ih =>
      rw [munches] at front
      cases first : munch cs with
      | none => rw [first] at front; exact absurd front (Option.some_ne_none _).symm
      | some found =>
          obtain ⟨token, cs'⟩ := found
          rw [first] at front
          obtain ⟨⟨tokens', rest'⟩, others, eq⟩ := Option.map_eq_some_iff.mp front
          obtain ⟨rfl, rfl⟩ := Prod.mk.inj eq
          rw [lex_of_munch consuming first, ih others, Option.map_map]
          refine congrArg (Option.map · _) (funext fun ts => ?_)
          exact (List.append_assoc _ _ _).symm

/-- A text lexes to the tokens, or to none, before every text that may be next. -/
def Lexes (munch : Munch Token) (text : List Char) (tokens : Option (List Token)) (next : List Char → Prop) : Prop :=
  ∀ rest, next rest → lex munch (text ++ rest) = Option.map₂ (· ++ ·) tokens (lex munch rest)

namespace Lexes
variable {text text' : List Char} {tokens tokens' : Option (List Token)} {next next' : List Char → Prop}

theorem of_munches (consuming : Consuming munch) (n : Nat) {ts : List Token}
    (front : ∀ rest, next rest → munches munch n (text ++ rest) = some (ts, rest)) : Lexes munch text (some ts) next := by
  intro rest isNext
  rw [lex_of_munches consuming (front rest isNext)]
  exact (Option.map₂_coe_left _ _ _).symm

theorem empty : Lexes munch [] (some []) next := fun rest _ => by
  rw [List.nil_append]
  exact Option.map_id'.symm

theorem append (first : Lexes munch text tokens next) (second : Lexes munch text' tokens' next')
    (meets : ∀ rest, next' rest → next (text' ++ rest)) :
    Lexes munch (text ++ text') (Option.map₂ (· ++ ·) tokens tokens') next' := by
  intro rest isNext
  rw [List.append_assoc, first _ (meets rest isNext), second rest isNext]
  exact (Option.map₂_assoc fun a b c => List.append_assoc a b c).symm

theorem mono (lexes : Lexes munch text tokens next) (stronger : ∀ rest, next' rest → next rest) :
    Lexes munch text tokens next' := fun rest isNext => lexes rest (stronger rest isNext)

theorem whole (lexes : Lexes munch text tokens next) (atEnd : next []) : lex munch text = tokens := by
  have all := lexes [] atEnd
  rw [List.append_nil] at all
  rw [all]
  cases tokens with
  | none => rfl
  | some ts => exact congrArg some (List.append_nil ts)

end Lexes

end Ahir.Text
