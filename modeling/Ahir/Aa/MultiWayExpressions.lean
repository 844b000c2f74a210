import Ahir.Hardware.OperatorPackage

/-!
# Multi-way expressions

`$reduce`, `$concat`, `$prioritymux` and `$excmux` have any number of arguments; the
parser makes trees of binary and ternary expressions of them.
-/

set_option autoImplicit false

namespace Ahir.Aa.MultiWay
open Ahir.Hardware.OperatorPackage

/-- The operations that `$reduce` admits, and that of `$concat`. -/
inductive ReduceOperation where
  | or | and | xor | plus | mul | concat
  deriving DecidableEq

def ReduceOperation.operation : ReduceOperation → Operation
  | .or => .or
  | .and => .and
  | .xor => .xor
  | .plus => .plus
  | .mul => .mul
  | .concat => .concat

/-- An expression that is made over given ones; the literal is `_b0`. -/
inductive Expression (α : Type) where
  | argument (a : α)
  | zeroLiteral
  | binary (op : ReduceOperation) (first second : Expression α)
  | ternary (test ifTrue ifFalse : Expression α)

section Make
variable {α : Type}

/-- `Make_Reduce_Expression_Base`, in calls nested not deeper than `fuel`. -/
def makeReduceExpressionBase (op : ReduceOperation) (exprs : List (Expression α)) :
    Nat → Int → Int → Option (Expression α)
  | 0, _, _ => none
  | fuel + 1, sindex, findex =>
      let size := findex - sindex + 1
      if size = 1 then exprs[sindex.toNat]?
      else
        let middle := sindex + (findex - sindex).tdiv 2
        (makeReduceExpressionBase op exprs fuel sindex middle).bind fun le =>
          (makeReduceExpressionBase op exprs fuel (middle + 1) findex).map fun re => .binary op le re

def makeReduceExpression (fuel : Nat) (op : ReduceOperation) (exprs : List (Expression α)) : Option (Expression α) :=
  makeReduceExpressionBase op exprs fuel 0 (exprs.length - 1)

/-- `Make_Priority_Mux_Expression`, from `sindex` on. -/
def makePriorityMuxExpression (defaultExpr : Expression α) : List (Expression α × Expression α) → Expression α
  | [] => defaultExpr
  | (test, choice) :: rest => .ternary test choice (makePriorityMuxExpression defaultExpr rest)

def makeExclusiveMuxExpression (fuel : Nat) (pairs : List (Expression α × Expression α)) : Option (Expression α) :=
  makeReduceExpression fuel .or (pairs.map fun p => .ternary p.1 p.2 .zeroLiteral)

end Make

/-! ### What they evaluate to -/

section Evaluate
variable {α : Type}

/-- What the expressions evaluate to, when the given ones have these values and these values
are true.  A literal has the type of the other alternative; alternatives of different types
are refused, as are operands. -/
def evaluate (value : α → Vector) (isTrue : Vector → Bool) : Option Nat → Expression α → Option Vector
  | _, .argument a => some (value a)
  | type, .zeroLiteral => type.map fun w => ⟨w, 0#w⟩
  | _, .binary op first second =>
      (evaluate value isTrue none first).bind fun l => (evaluate value isTrue none second).bind fun r =>
        twoInputOperation op.operation false l.2 r.2
  | type, .ternary test ifTrue ifFalse =>
      (evaluate value isTrue none test).bind fun t => (evaluate value isTrue type ifTrue).bind fun x =>
        (evaluate value isTrue (some x.1) ifFalse).bind fun y =>
          if x.1 = y.1 then some (if isTrue t then x else y) else none

end Evaluate

/-! ### The operations are associative -/

def combine (op : ReduceOperation) (x y : Option Vector) : Option Vector :=
  x.bind fun l => y.bind fun r => twoInputOperation op.operation false l.2 r.2

def ReduceOperation.apply {w : Nat} : ReduceOperation → BitVec w → BitVec w → BitVec w
  | .or => fun l r => l ||| r
  | .and => fun l r => l &&& r
  | .xor => fun l r => l ^^^ r
  | .plus => fun l r => l + r
  | .mul => fun l r => l * r
  | .concat => fun l _ => l

theorem combine_of_width {op : ReduceOperation} (plain : op ≠ .concat) {w : Nat} (l r : BitVec w) :
    combine op (some ⟨w, l⟩) (some ⟨w, r⟩) = some ⟨w, op.apply l r⟩ := by
  cases op with
  | or | and | xor | plus => exact (dif_pos rfl).trans rfl
  | mul =>
      have product : apIntMul l r = l * r := apIntMul_eq l r
      have same : combine .mul (some ⟨w, l⟩) (some ⟨w, r⟩) = some ⟨w, apIntMul l r⟩ := (dif_pos rfl).trans rfl
      rw [same, product]
      rfl
  | concat => exact absurd rfl plain

theorem combine_of_ne {op : ReduceOperation} (plain : op ≠ .concat) {m n : Nat} (ne : m ≠ n) (l : BitVec m) (r : BitVec n) :
    combine op (some ⟨m, l⟩) (some ⟨n, r⟩) = none := by
  cases op with
  | or | and | xor | plus | mul => exact dif_neg (Ne.symm ne)
  | concat => exact absurd rfl plain

theorem combine_concat {m n : Nat} (l : BitVec m) (r : BitVec n) :
    combine .concat (some ⟨m, l⟩) (some ⟨n, r⟩) = some ⟨m + n, l ++ r⟩ := rfl

theorem ReduceOperation.apply_assoc {w : Nat} (op : ReduceOperation) (x y z : BitVec w) :
    op.apply (op.apply x y) z = op.apply x (op.apply y z) := by
  cases op with
  | or => exact BitVec.or_assoc x y z
  | and => exact BitVec.and_assoc x y z
  | xor => exact BitVec.xor_assoc x y z
  | plus => exact BitVec.add_assoc x y z
  | mul => exact BitVec.mul_assoc x y z
  | concat => rfl

theorem vector_cast {m n : Nat} (same : m = n) (x : BitVec m) : (⟨n, x.cast same⟩ : Vector) = ⟨m, x⟩ := by
  subst same
  rfl

theorem combine_none (op : ReduceOperation) (x : Option Vector) : combine op x none = none := by
  cases x <;> rfl

instance (op : ReduceOperation) : Std.Associative (combine op) where
  assoc := by
    intro x y z
    cases x with
    | none => rfl
    | some x =>
        cases y with
        | none => rfl
        | some y =>
            cases z with
            | none => rw [combine_none, combine_none, combine_none]
            | some z =>
                obtain ⟨k, x⟩ := x
                obtain ⟨m, y⟩ := y
                obtain ⟨n, z⟩ := z
                by_cases concat : op = .concat
                · subst concat
                  rw [combine_concat, combine_concat, combine_concat, combine_concat, BitVec.append_assoc]
                  exact congrArg some (vector_cast _ _)
                · by_cases same : k = m
                  · subst same
                    rw [combine_of_width concat]
                    by_cases also : k = n
                    · subst also
                      rw [combine_of_width concat, combine_of_width concat, combine_of_width concat, op.apply_assoc]
                    · rw [combine_of_ne concat also, combine_of_ne concat also, combine_none]
                  · rw [combine_of_ne concat same]
                    by_cases also : m = n
                    · subst also
                      rw [combine_of_width concat, combine_of_ne concat same]
                      rfl
                    · rw [combine_of_ne concat also, combine_none]
                      rfl

/-! ### A balanced tree is a fold -/

def foldFirst {β : Type} (f : β → β → β) (default : β) : List β → β
  | [] => default
  | x :: xs => xs.foldl f x

theorem foldFirst_append {β : Type} (f : β → β → β) [Std.Associative f] (default : β) {xs ys : List β} (nonempty : xs ≠ [])
    (nonempty' : ys ≠ []) : foldFirst f default (xs ++ ys) = f (foldFirst f default xs) (foldFirst f default ys) := by
  obtain ⟨x, xs, rfl⟩ := List.exists_cons_of_ne_nil nonempty
  obtain ⟨y, ys, rfl⟩ := List.exists_cons_of_ne_nil nonempty'
  rw [List.cons_append, foldFirst, List.foldl_append, List.foldl_cons, List.foldl_assoc]
  rfl

section Reduce
variable {α : Type} (value : α → Vector) (isTrue : Vector → Bool) (op : ReduceOperation) (exprs : List (Expression α))

/-- The values of the expressions from `s` on. -/
def segment (s n : Nat) : List (Option Vector) := ((exprs.drop s).take n).map (evaluate value isTrue none)

variable {value isTrue op exprs}

theorem segment_add (s m n : Nat) : segment value isTrue exprs s (m + n) =
    segment value isTrue exprs s m ++ segment value isTrue exprs (s + m) n := by
  rw [segment, segment, segment, List.take_add, List.map_append, List.drop_drop]

theorem segment_ne_nil {s n : Nat} (pos : 0 < n) (inside : s < exprs.length) : segment value isTrue exprs s n ≠ [] := by
  intro empty
  have lengths := congrArg List.length empty
  rw [segment, List.length_map, List.length_take, List.length_drop, List.length_nil] at lengths
  omega

variable (value isTrue op exprs) in
theorem makeReduceExpressionBase_evaluates : ∀ (n s : Nat), s + n < exprs.length → ∃ tree,
    (∀ fuel, n < fuel → makeReduceExpressionBase op exprs fuel s (s + n : Nat) = some tree) ∧
      evaluate value isTrue none tree = foldFirst (combine op) none (segment value isTrue exprs s (n + 1)) := by
  intro n
  induction n using Nat.strongRecOn with
  | ind n ih =>
      intro s inside
      by_cases single : n = 0
      · subst single
        have isExpr : s < exprs.length := inside
        refine ⟨exprs[s], fun fuel enough => ?_, ?_⟩
        · obtain ⟨fuel, rfl⟩ := Nat.exists_eq_succ_of_ne_zero (Nat.ne_of_gt enough)
          have one : ((s + 0 : Nat) : Int) - s + 1 = 1 := by omega
          rw [makeReduceExpressionBase]
          simp only [one, if_true, Int.toNat_natCast]
          exact List.getElem?_eq_getElem inside
        · have only : (exprs.drop s).take 1 = [exprs[s]] := by
            rw [List.drop_eq_getElem_cons isExpr]
            rfl
          rw [segment, only]
          rfl
      · obtain ⟨left, makesLeft, valueLeft⟩ := ih (n / 2) (by omega) s (by omega)
        obtain ⟨right, makesRight, valueRight⟩ := ih (n - n / 2 - 1) (by omega) (s + n / 2 + 1) (by omega)
        refine ⟨.binary op left right, fun fuel enough => ?_, ?_⟩
        · obtain ⟨fuel, rfl⟩ := Nat.exists_eq_succ_of_ne_zero (Nat.ne_of_gt (Nat.zero_lt_of_lt enough))
          have more : ¬ ((s + n : Nat) : Int) - s + 1 = 1 := by omega
          have middle : (s : Int) + (((s + n : Nat) : Int) - s).tdiv 2 = (s + n / 2 : Nat) := by
            have size : ((s + n : Nat) : Int) - s = (n : Int) := by omega
            rw [size, Int.tdiv_eq_ediv_of_nonneg (by omega)]
            omega
          have next : ((s + n / 2 : Nat) : Int) + 1 = (s + n / 2 + 1 : Nat) := by omega
          have last : s + n = s + n / 2 + 1 + (n - n / 2 - 1) := by omega
          have makes := makesRight fuel (by omega)
          rw [← last] at makes
          rw [makeReduceExpressionBase]
          simp only [if_neg more, middle, next, makesLeft fuel (by omega), makes, Option.bind_some, Option.map_some]
        · have halves : n + 1 = n / 2 + 1 + (n - n / 2 - 1 + 1) := by omega
          have start : s + (n / 2 + 1) = s + n / 2 + 1 := (Nat.add_assoc s _ _).symm
          rw [halves, segment_add, foldFirst_append _ _ (segment_ne_nil (by omega) (by omega))
            (segment_ne_nil (by omega) (by omega)), ← valueLeft, start, ← valueRight]
          rfl

variable (value isTrue op exprs) in
theorem makeReduceExpression_evaluates (nonempty : exprs ≠ []) : ∃ tree,
    (∀ fuel ≥ exprs.length, makeReduceExpression fuel op exprs = some tree) ∧ evaluate value isTrue none tree =
      foldFirst (combine op) none (exprs.map (evaluate value isTrue none)) := by
  have pos := List.length_pos_iff.mpr nonempty
  obtain ⟨tree, makes, values⟩ := makeReduceExpressionBase_evaluates value isTrue op exprs (exprs.length - 1) 0 (by omega)
  refine ⟨tree, fun fuel enough => ?_, ?_⟩
  · have made := makes fuel (by omega)
    have last : ((0 + (exprs.length - 1) : Nat) : Int) = (exprs.length : Int) - 1 := by omega
    rw [last] at made
    exact made
  · rw [values, segment, List.drop_zero, Nat.sub_add_cancel pos, List.take_length]

end Reduce

theorem foldFirst_of_width {op : ReduceOperation} (plain : op ≠ .concat) {w : Nat} (first : BitVec w) (rest : List (BitVec w)) :
    foldFirst (combine op) none ((first :: rest).map fun x => some ⟨w, x⟩) = some ⟨w, rest.foldl op.apply first⟩ := by
  induction rest generalizing first with
  | nil => rfl
  | cons second rest ih =>
      rw [List.foldl_cons, ← ih]
      simp only [foldFirst, List.map_cons, List.foldl_cons, combine_of_width plain]

theorem foldFirst_concat (first : Vector) (rest : List Vector) :
    foldFirst (combine .concat) none ((first :: rest).map some) =
      some (rest.foldl (fun l r => ⟨l.1 + r.1, l.2 ++ r.2⟩) first) := by
  induction rest generalizing first with
  | nil => rfl
  | cons second rest ih =>
      rw [List.foldl_cons, ← ih]
      rfl

/-! ### The forms -/

section Forms
variable {α : Type} {value : α → Vector} {isTrue : Vector → Bool} {w : Nat} {x : α → BitVec w}

theorem priorityMux_evaluates {default : α} (isDefault : value default = ⟨w, x default⟩) {pairs : List (α × α)}
    (choices : ∀ p ∈ pairs, value p.2 = ⟨w, x p.2⟩) (type : Option Nat) : evaluate value isTrue type
      (makePriorityMuxExpression (.argument default) (pairs.map fun p => (.argument p.1, .argument p.2))) =
    some ⟨w, x (((pairs.find? fun p => isTrue (value p.1)).map Prod.snd).getD default)⟩ := by
  induction pairs generalizing type with
  | nil => exact congrArg some isDefault
  | cons p pairs ih =>
      have choice := choices p List.mem_cons_self
      have rest := ih (fun p member => choices p (List.mem_cons_of_mem _ member)) (some w)
      simp only [List.map_cons, makePriorityMuxExpression, evaluate, Option.bind_some, choice, rest, if_true]
      by_cases true : isTrue (value p.1) = true
      · simp only [List.find?_cons, true]
        rfl
      · simp only [List.find?_cons, Bool.eq_false_of_not_eq_true true]
        rfl

theorem alternatives_evaluate {pairs : List (α × α)} (choices : ∀ p ∈ pairs, value p.2 = ⟨w, x p.2⟩) :
    (pairs.map fun p => Expression.ternary (.argument p.1) (.argument p.2) .zeroLiteral).map (evaluate value isTrue none) =
      (pairs.map fun p => if isTrue (value p.1) then x p.2 else 0#w).map fun y => some ⟨w, y⟩ := by
  rw [List.map_map, List.map_map]
  refine List.map_congr_left fun p member => ?_
  simp only [Function.comp_apply, evaluate, Option.bind_some, choices p member, Option.map_some, if_true]
  split_ifs <;> rfl

theorem foldl_or_eq (pairs : List (α × α)) (start : BitVec w) :
    (pairs.map fun p => if isTrue (value p.1) then x p.2 else 0#w).foldl (fun l r => l ||| r) start =
      ((pairs.filter fun p => isTrue (value p.1)).map fun p => x p.2).foldl (fun l r => l ||| r) start := by
  induction pairs generalizing start with
  | nil => rfl
  | cons p pairs ih =>
      by_cases true : isTrue (value p.1) = true
      · rw [List.map_cons, List.foldl_cons, ih, if_pos true, List.filter_cons, if_pos true, List.map_cons, List.foldl_cons]
      · rw [List.map_cons, List.foldl_cons, ih, if_neg true, List.filter_cons, if_neg true, BitVec.or_zero]

variable (isTrue) in
theorem exclusiveMux_evaluates {pairs : List (α × α)} (nonempty : pairs ≠ [])
    (choices : ∀ p ∈ pairs, value p.2 = ⟨w, x p.2⟩) : ∃ tree, (∀ fuel ≥ pairs.length, makeExclusiveMuxExpression fuel
      (pairs.map fun p => (.argument p.1, .argument p.2)) = some tree) ∧ evaluate value isTrue none tree =
        some ⟨w, ((pairs.filter fun p => isTrue (value p.1)).map fun p => x p.2).foldl (fun l r => l ||| r) 0#w⟩ := by
  obtain ⟨tree, makes, values⟩ := makeReduceExpression_evaluates value isTrue .or
    (pairs.map fun p => .ternary (.argument p.1) (.argument p.2) .zeroLiteral) (by simpa using nonempty)
  rw [List.length_map] at makes
  refine ⟨tree, fun fuel enough => ?_, ?_⟩
  · rw [makeExclusiveMuxExpression, List.map_map]
    exact makes fuel enough
  · rw [values, alternatives_evaluate choices]
    obtain ⟨p, pairs, rfl⟩ := List.exists_cons_of_ne_nil nonempty
    rw [List.map_cons, foldFirst_of_width (by decide), ← foldl_or_eq, List.map_cons, List.foldl_cons, BitVec.zero_or]
    rfl

end Forms

/-- The forms evaluate to what they stand for, whatever the values of the arguments are. -/
theorem multiWay_evaluates {α : Type} (value : α → Vector) (isTrue : Vector → Bool) (w : Nat) (x : α → BitVec w) :
    -- `$reduce`
    (∀ op ≠ ReduceOperation.concat, ∀ first : α, ∀ rest : List α, (∀ a ∈ first :: rest, value a = ⟨w, x a⟩) → ∃ tree,
      (∀ fuel ≥ rest.length + 1, makeReduceExpression fuel op ((first :: rest).map .argument) = some tree) ∧
        evaluate value isTrue none tree = some ⟨w, (rest.map x).foldl op.apply (x first)⟩) ∧
    -- `$concat`
    (∀ first : α, ∀ rest : List α, ∃ tree,
      (∀ fuel ≥ rest.length + 1, makeReduceExpression fuel .concat ((first :: rest).map .argument) = some tree) ∧
        evaluate value isTrue none tree =
          some ((rest.map value).foldl (fun l r => ⟨l.1 + r.1, l.2 ++ r.2⟩) (value first))) ∧
    -- `$prioritymux`
    (∀ default : α, ∀ pairs : List (α × α), value default = ⟨w, x default⟩ → (∀ p ∈ pairs, value p.2 = ⟨w, x p.2⟩) →
      evaluate value isTrue none
        (makePriorityMuxExpression (.argument default) (pairs.map fun p => (.argument p.1, .argument p.2))) =
          some ⟨w, x (((pairs.find? fun p => isTrue (value p.1)).map Prod.snd).getD default)⟩) ∧
    -- `$excmux`
    (∀ pairs : List (α × α), pairs ≠ [] → (∀ p ∈ pairs, value p.2 = ⟨w, x p.2⟩) → ∃ tree,
      (∀ fuel ≥ pairs.length, makeExclusiveMuxExpression fuel (pairs.map fun p => (.argument p.1, .argument p.2)) =
        some tree) ∧
      (∀ p, (pairs.filter fun p => isTrue (value p.1)) = [p] → evaluate value isTrue none tree = some ⟨w, x p.2⟩) ∧
      ((∀ p ∈ pairs, isTrue (value p.1) = false) → evaluate value isTrue none tree = some ⟨w, 0#w⟩)) := by
  refine ⟨fun op plain first rest values => ?_, fun first rest => ?_, fun default pairs isDefault choices => ?_,
    fun pairs nonempty choices => ?_⟩
  · obtain ⟨tree, makes, evaluates⟩ := makeReduceExpression_evaluates value isTrue op ((first :: rest).map .argument)
      (List.cons_ne_nil _ _)
    rw [List.length_map] at makes
    refine ⟨tree, makes, ?_⟩
    have arguments : ((first :: rest).map Expression.argument).map (evaluate value isTrue none) =
        ((first :: rest).map x).map fun y => some ⟨w, y⟩ := by
      rw [List.map_map, List.map_map]
      exact List.map_congr_left fun a member => congrArg some (values a member)
    rw [evaluates, arguments, List.map_cons, foldFirst_of_width plain]
  · obtain ⟨tree, makes, evaluates⟩ := makeReduceExpression_evaluates value isTrue .concat ((first :: rest).map .argument)
      (List.cons_ne_nil _ _)
    rw [List.length_map] at makes
    refine ⟨tree, makes, ?_⟩
    have arguments : ((first :: rest).map Expression.argument).map (evaluate value isTrue none) =
        (value first :: rest.map value).map some := by
      rw [List.map_map, ← List.map_cons, List.map_map]
      rfl
    rw [evaluates, arguments, foldFirst_concat]
  · exact priorityMux_evaluates isDefault choices none
  · obtain ⟨tree, makes, evaluates⟩ := exclusiveMux_evaluates isTrue nonempty choices
    refine ⟨tree, makes, fun p only => ?_, fun none => ?_⟩
    · rw [evaluates, only, List.map_singleton, List.foldl_cons, List.foldl_nil, BitVec.zero_or]
    · have empty : (pairs.filter fun p => isTrue (value p.1)) = [] :=
        List.filter_eq_nil_iff.mpr fun p member => by rw [none p member]; decide
      rw [evaluates, empty]
      rfl

/-- Three bytes, and two alternatives of which the second is chosen. -/
theorem multiWay_evaluates_bytes :
    let value : Nat → Vector := fun n => ⟨8, BitVec.ofNat 8 n⟩
    let isTrue : Vector → Bool := fun v => v.2 != 0#v.1
    (∃ tree, (∀ fuel ≥ 3, makeReduceExpression fuel .xor ([1, 2, 5].map .argument) = some tree) ∧
      evaluate value isTrue none tree = some ⟨8, 6#8⟩) ∧
    evaluate value isTrue none (makePriorityMuxExpression (.argument 9) [(.argument 0, .argument 5), (.argument 1, .argument 6)]) =
      some ⟨8, 6#8⟩ ∧
    ∃ tree, (∀ fuel ≥ 2, makeExclusiveMuxExpression fuel [(.argument 0, .argument 5), (.argument 1, .argument 6)] =
        some tree) ∧ evaluate value isTrue none tree = some ⟨8, 6#8⟩ := by
  intro value isTrue
  obtain ⟨reduce, -, prioritymux, excmux⟩ := multiWay_evaluates value isTrue 8 (BitVec.ofNat 8)
  obtain ⟨tree, makes, chosen, -⟩ := excmux [(0, 5), (1, 6)] (List.cons_ne_nil _ _) fun _ _ => rfl
  exact ⟨reduce .xor (by decide) 1 [2, 5] fun _ _ => rfl, prioritymux 9 [(0, 5), (1, 6)] rfl fun _ _ => rfl,
    tree, makes, chosen (1, 6) (by decide)⟩

end Ahir.Aa.MultiWay
