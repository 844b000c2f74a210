import Mathlib.Logic.Function.Basic

/-!
# Register files

Accesses to a file of registers one after another, and a round of accesses by several
ports: all loads of a round see the file as it was before the round.
-/

set_option autoImplicit false

namespace Ahir.Run
variable {V T : Type}

inductive Access (V T : Type) where
  | load (port address : Nat) (tag : T)
  | store (port address : Nat) (data : V) (tag : T)

namespace Access

def perform (file : Nat → V) : Access V T → Nat → V
  | .load _ _ _ => file
  | .store _ address data _ => Function.update file address data

def answers (port : Nat) : (Nat → V) → List (Access V T) → List (V × T)
  | _, [] => []
  | file, .load p address tag :: rest =>
      if p = port then (file address, tag) :: answers port file rest else answers port file rest
  | file, .store p address data tag :: rest => answers port (perform file (.store p address data tag)) rest

def confirmations (port : Nat) : List (Access V T) → List T
  | [] => []
  | .load _ _ _ :: rest => confirmations port rest
  | .store p _ _ tag :: rest => if p = port then tag :: confirmations port rest else confirmations port rest

section Append
variable (port : Nat) (xs ys : List (Access V T))

theorem answers_append (file : Nat → V) :
    answers port file (xs ++ ys) = answers port file xs ++ answers port (xs.foldl perform file) ys := by
  induction xs generalizing file with
  | nil => rfl
  | cons x xs ih =>
      cases x with
      | load p address tag =>
          rw [List.cons_append, answers, answers, List.foldl_cons, ih, perform]
          split <;> rfl
      | store p address data tag => exact ih _

theorem confirmations_append : confirmations port (xs ++ ys) = confirmations port xs ++ confirmations port ys := by
  induction xs with
  | nil => rfl
  | cons x xs ih =>
      cases x with
      | load p address tag => exact ih
      | store p address data tag =>
          rw [List.cons_append, confirmations, confirmations, ih]
          split <;> rfl

end Append

/-! ### A round of accesses -/

def loads (ports : Nat) (request : Nat → Option (Nat × T)) : List (Access V T) :=
  (List.range ports).filterMap fun port => (request port).map fun x => .load port x.1 x.2

def stores (ports : Nat) (request : Nat → Option (Nat × V × T)) : List (Access V T) :=
  (List.range ports).filterMap fun port => (request port).map fun x => .store port x.1 x.2.1 x.2.2

section Loads
variable (request : Nat → Option (Nat × T)) (file : Nat → V)

theorem loads_succ (ports : Nat) : (loads (ports + 1) request : List (Access V T)) =
    loads ports request ++ ((request ports).map fun x => .load ports x.1 x.2).toList := by
  unfold loads
  rw [List.range_succ, List.filterMap_append]
  cases asked : request ports <;> simp [asked]

theorem perform_loads (ports : Nat) : (loads ports request).foldl perform file = file := by
  induction ports with
  | zero => rfl
  | succ ports ih =>
      rw [loads_succ, List.foldl_append, ih]
      cases request ports <;> rfl

theorem confirmations_loads (port ports : Nat) :
    confirmations port (loads ports request : List (Access V T)) = [] := by
  induction ports with
  | zero => rfl
  | succ ports ih =>
      rw [loads_succ, confirmations_append, ih]
      cases request ports <;> rfl

theorem answers_loads_of_le {port ports : Nat} (other : ports ≤ port) :
    answers port file (loads ports request) = [] := by
  induction ports with
  | zero => rfl
  | succ ports ih =>
      rw [loads_succ, answers_append, ih (by omega)]
      cases request ports with
      | none => rfl
      | some x => exact if_neg (by omega)

theorem answers_loads {port ports : Nat} (isPort : port < ports) :
    answers port file (loads ports request) = ((request port).map fun x => (file x.1, x.2)).toList := by
  induction ports with
  | zero => omega
  | succ ports ih =>
      rw [loads_succ, answers_append, perform_loads]
      rcases Nat.lt_succ_iff_lt_or_eq.mp isPort with below | rfl
      · rw [ih below]
        cases request ports with
        | none => exact List.append_nil _
        | some x =>
            have other : answers port file [load ports x.1 x.2] = [] := if_neg (by omega)
            exact (congrArg _ other).trans (List.append_nil _)
      · rw [answers_loads_of_le _ _ (Nat.le_refl _), List.nil_append]
        cases request port with
        | none => rfl
        | some x => exact if_pos rfl

end Loads

section Stores
variable (request : Nat → Option (Nat × V × T)) (file : Nat → V)

theorem stores_succ (ports : Nat) : stores (ports + 1) request =
    stores ports request ++ ((request ports).map fun x => Access.store ports x.1 x.2.1 x.2.2).toList := by
  unfold stores
  rw [List.range_succ, List.filterMap_append]
  cases asked : request ports <;> simp [asked]

theorem answers_stores (port ports : Nat) : answers port file (stores ports request) = [] := by
  induction ports with
  | zero => rfl
  | succ ports ih =>
      rw [stores_succ, answers_append, ih]
      cases request ports <;> rfl

theorem confirmations_stores_of_le {port ports : Nat} (other : ports ≤ port) :
    confirmations port (stores ports request) = [] := by
  induction ports with
  | zero => rfl
  | succ ports ih =>
      rw [stores_succ, confirmations_append, ih (by omega)]
      cases request ports with
      | none => rfl
      | some x => exact if_neg (by omega)

theorem confirmations_stores {port ports : Nat} (isPort : port < ports) :
    confirmations port (stores ports request) = ((request port).map fun x => x.2.2).toList := by
  induction ports with
  | zero => omega
  | succ ports ih =>
      rw [stores_succ, confirmations_append]
      rcases Nat.lt_succ_iff_lt_or_eq.mp isPort with below | rfl
      · rw [ih below]
        cases request ports with
        | none => exact List.append_nil _
        | some x =>
            have other : confirmations port [store ports x.1 x.2.1 x.2.2] = [] := if_neg (by omega)
            exact (congrArg _ other).trans (List.append_nil _)
      · rw [confirmations_stores_of_le _ (Nat.le_refl _), List.nil_append]
        cases request port with
        | none => rfl
        | some x => exact if_pos rfl

variable {request} {ports : Nat}

theorem perform_stores_other {address : Nat} (other : ∀ port < ports, ∀ x, request port = some x → x.1 ≠ address) :
    (stores ports request).foldl perform file address = file address := by
  induction ports with
  | zero => rfl
  | succ ports ih =>
      rw [stores_succ, List.foldl_append]
      have before := ih fun port isPort => other port (by omega)
      cases asked : request ports with
      | none => exact before
      | some x => exact (Function.update_of_ne (other ports (by omega) x asked).symm _ _).trans before

theorem perform_stores_at (free : ∀ p q x y, request p = some x → request q = some y → x.1 = y.1 → p = q)
    {port : Nat} (isPort : port < ports) {x : Nat × V × T} (asked : request port = some x) :
    (stores ports request).foldl perform file x.1 = x.2.1 := by
  induction ports with
  | zero => omega
  | succ ports ih =>
      rw [stores_succ, List.foldl_append]
      rcases Nat.lt_succ_iff_lt_or_eq.mp isPort with below | rfl
      · cases askedLast : request ports with
        | none => exact ih below
        | some y =>
            have apart : x.1 ≠ y.1 := fun same => by
              have := free port ports x y asked askedLast same
              omega
            exact (Function.update_of_ne apart _ _).trans (ih below)
      · rw [asked]
        exact Function.update_self _ _ _

end Stores

end Access

end Ahir.Run
