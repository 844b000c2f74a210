import Ahir.Aa.Aa2C

/-!
# What the C statements leave

The statements for an expression leave the value that the functions give for the values of its
parts, whatever was in the variables before.
-/

set_option autoImplicit false

namespace Ahir.Aa.BackEnds

theorem printCBinaryOperation_ne_nil (src1Type : IntegerType) (op : BinaryOperation) :
    printCBinaryOperation src1Type op ≠ [] := by
  cases op <;> exact List.cons_ne_nil _ _

def lastCall (src1Type : IntegerType) (op : BinaryOperation) : CBinary :=
  (printCBinaryOperation src1Type op).getLast (printCBinaryOperation_ne_nil src1Type op)

def AaExpression.cMeaning (objects : Assignment) : {t : IntegerType} → AaExpression t → BitVec t.width
  | t, .reference _ name => objects t.width name
  | _, .constant v => v.residue v.width
  | _, .typeCast bitCast t rest => (printCTypeCastOperation bitCast t).result t.width (rest.cMeaning objects)
  | _, .slice width lowIndex _ rest => (CUnary.bitVectorSlice lowIndex).result width (rest.cMeaning objects)
  | t, .unary op _ rest => (printCUnaryOperation op).result t.width (rest.cMeaning objects)
  | u, @AaExpression.binary s _ _ op _ first second =>
      (lastCall s op).result u.width (first.cMeaning objects) (second.cMeaning objects)
  | _, @AaExpression.ternary s _ test ifTrue ifFalse =>
      if cTrue s.isSigned (test.cMeaning objects) then ifTrue.cMeaning objects else ifFalse.cMeaning objects

section Statements
variable {s s' : CStore} {w : Nat}

theorem read_write_expr (s : CStore) (index : Nat) (x : BitVec w) : (s.write (.expr index) x).read (.expr index) = x := by
  show Function.update s.exprs w _ w index = x
  rw [Function.update_self, Function.update_self]

structure Keeps (k : Nat) (s s' : CStore) : Prop where
  objects : s'.objects = s.objects
  exprs : ∀ w i, i < k → s'.exprs w i = s.exprs w i

theorem Keeps.refl (k : Nat) (s : CStore) : Keeps k s s := ⟨rfl, fun _ _ _ => rfl⟩

theorem Keeps.trans {s'' : CStore} {k k' : Nat} (first : Keeps k s s') (second : Keeps k' s' s'') (le : k ≤ k') :
    Keeps k s s'' :=
  ⟨second.objects.trans first.objects, fun w i below => (second.exprs w i (below.trans_le le)).trans (first.exprs w i below)⟩

theorem Keeps.mono {k k' : Nat} (keeps : Keeps k' s s') (le : k ≤ k') : Keeps k s s' :=
  ⟨keeps.objects, fun w i below => keeps.exprs w i (below.trans_le le)⟩

theorem keeps_write (s : CStore) (k : Nat) (x : BitVec w) : Keeps k s (s.write (.expr k) x) := by
  refine ⟨rfl, fun w' i below => ?_⟩
  show Function.update s.exprs w _ w' i = _
  by_cases same : w' = w
  · subst same
    rw [Function.update_self, Function.update_of_ne below.ne]
  · rw [Function.update_of_ne same]

def CVariable.Before (k : Nat) : CVariable w → Prop
  | .object _ => True
  | .expr index => index < k

theorem CVariable.Before.mono {k k' : Nat} {v : CVariable w} (before : v.Before k) (le : k ≤ k') : v.Before k' := by
  cases v with
  | object name => trivial
  | expr index => exact Nat.lt_of_lt_of_le before le

theorem Keeps.read {k : Nat} (keeps : Keeps k s s') {v : CVariable w} (before : v.Before k) : s'.read v = s.read v := by
  cases v with
  | object name => exact congrFun (congrFun keeps.objects w) name
  | expr index => exact keeps.exprs w index before

structure Computes (s : CStore) (k : Nat) (printed : CCode × CVariable w × Nat) (value : BitVec w) : Prop where
  le : k ≤ printed.2.2
  before : printed.2.1.Before printed.2.2
  keeps : Keeps k s (printed.1.exec s)
  value : (printed.1.exec s).read printed.2.1 = value

theorem Computes.write {k : Nat} {text : CCode} {index : Nat} {x : BitVec w} (le : k ≤ index)
    (exec : ∃ s', Keeps k s s' ∧ text.exec s = s'.write (.expr index) x) :
    Computes s k (text, (CVariable.expr index : CVariable w), index + 1) x := by
  obtain ⟨s', keeps, eq⟩ := exec
  refine ⟨le.trans (Nat.le_succ _), Nat.lt_succ_self _, ?_, ?_⟩
  · rw [eq]
    exact keeps.trans (keeps_write s' index x) le
  · rw [eq]
    exact read_write_expr s' index x

theorem exec_printCalls {m k n : Nat} {src1 : CVariable m} {src2 : CVariable k} {index : Nat} (before1 : src1.Before index)
    (before2 : src2.Before index) {calls : List CBinary} (nonempty : calls ≠ []) (s : CStore) :
    ∃ s', Keeps index s s' ∧ (printCalls src1 src2 (CVariable.expr index : CVariable n) calls).exec s =
      s'.write (.expr index) ((calls.getLast nonempty).result n (s.read src1) (s.read src2)) := by
  induction calls generalizing s with
  | nil => exact absurd rfl nonempty
  | cons f fs ih =>
      cases fs with
      | nil => exact ⟨s, Keeps.refl index s, rfl⟩
      | cons g gs =>
          let first := f.result n (s.read src1) (s.read src2)
          have keeps := keeps_write s index first
          obtain ⟨s', keeps', eq⟩ := ih (List.cons_ne_nil g gs) (s.write (.expr index) first)
          rw [keeps.read before1, keeps.read before2] at eq
          exact ⟨s', keeps.trans keeps' (Nat.le_refl index), eq⟩

theorem printC_computes {t : IntegerType} (e : AaExpression t) (k : Nat) (s : CStore) :
    Computes s k (printC e k) (e.cMeaning s.objects) := by
  induction e generalizing k s with
  | reference t name => exact ⟨Nat.le_refl _, trivial, Keeps.refl _ _, rfl⟩
  | constant v => exact Computes.write (Nat.le_refl k) ⟨s, Keeps.refl k s, rfl⟩
  | typeCast bitCast t rest ih =>
      obtain ⟨le, before, keeps, value⟩ := ih k s
      refine Computes.write le ⟨_, keeps, ?_⟩
      simp only [CCode.exec, value]
      rfl
  | slice width lowIndex fits rest ih =>
      obtain ⟨le, before, keeps, value⟩ := ih k s
      refine Computes.write le ⟨_, keeps, ?_⟩
      simp only [CCode.exec, value]
      rfl
  | unary op types rest ih =>
      obtain ⟨le, before, keeps, value⟩ := ih k s
      refine Computes.write le ⟨_, keeps, ?_⟩
      simp only [CCode.exec, value]
      rfl
  | @binary r t u op types first second ih1 ih2 =>
      obtain ⟨le1, before1, keeps1, value1⟩ := ih1 k s
      obtain ⟨le2, before2, keeps2, value2⟩ := ih2 (printC first k).2.2 ((printC first k).1.exec s)
      have before1' : (printC first k).2.1.Before (printC second (printC first k).2.2).2.2 := before1.mono le2
      obtain ⟨s', keeps', eq⟩ := exec_printCalls (n := u.width) before1' before2 (printCBinaryOperation_ne_nil r op)
        ((printC second (printC first k).2.2).1.exec ((printC first k).1.exec s))
      refine Computes.write (le1.trans le2) ⟨s', (keeps1.trans keeps2 le1).trans keeps' (le1.trans le2), ?_⟩
      -- the variable of the first operand is still what it was
      rw [keeps2.read before1, value1, value2, keeps1.objects] at eq
      exact eq
  | @ternary r t test ifTrue ifFalse ih ih1 ih2 =>
      obtain ⟨le, before, keeps, value⟩ := ih k s
      obtain ⟨le1, before1, keeps1, value1⟩ := ih1 (printC test k).2.2 ((printC test k).1.exec s)
      obtain ⟨le2, before2, keeps2, value2⟩ := ih2 (printC ifTrue (printC test k).2.2).2.2 ((printC test k).1.exec s)
      rw [keeps.objects] at value1 value2
      cases taken : cTrue r.isSigned (test.cMeaning s.objects) with
      | true =>
          refine Computes.write (le.trans (le1.trans le2)) ⟨_, keeps.trans keeps1 le, ?_⟩
          simp only [CCode.exec, value, taken, if_true, value1, cast_self, AaExpression.cMeaning]
      | false =>
          refine Computes.write (le.trans (le1.trans le2)) ⟨_, keeps.trans (keeps2.mono le1) le, ?_⟩
          simp only [CCode.exec, value, taken, Bool.false_eq_true, if_false, value2, cast_self, AaExpression.cMeaning]

theorem AaExpression.cValue_eq {t : IntegerType} (e : AaExpression t) (leftovers : (width : Nat) → Nat → BitVec width)
    (objects : Assignment) : e.cValue leftovers objects = e.cMeaning objects :=
  (printC_computes e 0 ⟨objects, leftovers⟩).value

end Statements

end Ahir.Aa.BackEnds
