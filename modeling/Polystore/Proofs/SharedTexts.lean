import Polystore.Proofs.ExprTexts
import Polystore.Proofs.FilterMerging

/-
  Polystore/Proofs/SharedTexts.lean
  =================================
  **Expressions of one text.**  A text leaves out the types of literals, fields,
  parameters and calls, and evaluation does not look at them: only a cast needs its
  type, and there the text shows it.  So expressions of one text come to the same value
  or the same error on every row, if they write no doubles and give every cast its one
  operand.  Both conditions are about what a text does not show: of a double it shows the
  digits, and of a cast the first operand.
-/

namespace Polystore

theorem Value.ReadsAs.eq {v w : Value} (h : v.ReadsAs w) (hv : v.isDouble = false) : v = w := by
  cases h with
  | same => rfl
  | double => cases hv

namespace Expr

/-- Every cast in the expression has one operand. -/
def CastsOne (e : Expr) : Prop :=
  ∀ operands t, (call .cast operands t).OccursIn e → operands.length = 1

variable {e e' : Expr} {row params : List Value}

theorem CastsOne.operand {op : Operator} {operands : List Expr} {t : DataType}
    (h : (call op operands t).CastsOne) {x : Expr} (hx : x ∈ operands) : x.CastsOne := by
  intro xs u hcast
  exact h xs u (.operand hx hcast)

theorem doubles_of_mem_operands {op : Operator} {operands : List Expr} {t : DataType}
    (h : (call op operands t).doubles = []) {x : Expr} (hx : x ∈ operands) : x.doubles = [] := by
  have hsubset : x.doubles ⊆ (call op operands t).doubles :=
    OccursIn.doubles_subset (.operand hx .self)
  rw [h] at hsubset
  exact List.eq_nil_of_subset_nil hsubset

theorem evalAll_congr {R : Expr → Expr → Prop} {xs ys : List Expr} (h : List.Forall₂ R xs ys)
    (heval : ∀ x ∈ xs, ∀ y ∈ ys, R x y → x.eval row params = y.eval row params) :
    eval.evalAll row params xs = eval.evalAll row params ys := by
  induction h with
  | nil => rfl
  | @cons x y xs ys hxy _ ih =>
    have htail : eval.evalAll row params xs = eval.evalAll row params ys := by
      apply ih
      intro x' hx' y' hy'
      exact heval x' (List.mem_cons_of_mem x hx') y' (List.mem_cons_of_mem y hy')
    rw [eval.evalAll, eval.evalAll, heval x List.mem_cons_self y List.mem_cons_self hxy, htail]

/-- What expressions of one text evaluate to does not depend on what the text leaves out. -/
theorem ReadsAs.eval_eq (h : e.ReadsAs e') (hdoubles : e.doubles = []) (hcasts : e.CastsOne)
    (hcasts' : e'.CastsOne) : e.eval row params = e'.eval row params := by
  induction e using operandInduction generalizing e' with
  | literal v t =>
    cases h with
    | @literal _ w _ _ h =>
      have hv : v.isDouble = false := by
        cases v with
        | double x => cases hdoubles
        | _ => rfl
      rw [eval, eval, h.eq hv]
  | field i t =>
    cases h with
    | field => rfl
  | param i t =>
    cases h with
    | param => rfl
  | call op xs t ih =>
    have hoperand : ∀ ys u, (Expr.call op ys u).CastsOne → List.Forall₂ ReadsAs xs ys →
        eval.evalAll row params xs = eval.evalAll row params ys := by
      intro ys u hys hall
      apply evalAll_congr hall
      intro x hx y hy hxy
      exact ih x hx hxy (doubles_of_mem_operands hdoubles hx) (hcasts.operand hx) (hys.operand hy)
    cases h with
    | @call _ _ ys _ u hop hoperands =>
      -- a type is looked at by casts only
      have htype : ∀ values, applyValues op values t = applyValues op values u := by
        intro values
        cases op with
        | cast => exact absurd rfl hop
        | _ => rfl
      rw [eval, eval, hoperand ys u hcasts' hoperands]
      simp only [htype]
    | @cast _ ys _ hfirst =>
      obtain ⟨x, rfl⟩ := List.length_eq_one_iff.mp (hcasts xs t .self)
      obtain ⟨y, rfl⟩ := List.length_eq_one_iff.mp (hcasts' ys t .self)
      cases hfirst with
      | some hxy => rw [eval, eval, hoperand [y] t hcasts' (.cons hxy .nil)]

theorem readsAs_of_text_eq (h : e.text = e'.text) : e.ReadsAs e' := by
  have hends : Text.GoesOn [[' ']] [' '] := .of_mem (List.mem_singleton_self [' ']) []
  have htells : Text.Tells [[' ']] e.text.toList e'.text.toList (e.ReadsAs e') :=
    e.text_tells e' (by decide)
  exact (htells [' '] [' '] hends hends (by rw [h])).1

/-- The text of an expression determines its value, or its error, on every row.  If one of
    two expressions writes no doubles, the other one writes none either. -/
theorem eval_eq_of_text_eq (hdoubles : e.doubles = []) (hcasts : e.CastsOne)
    (hcasts' : e'.CastsOne) (h : e.text = e'.text) (row params : List Value) :
    e.eval row params = e'.eval row params :=
  (readsAs_of_text_eq h).eval_eq hdoubles hcasts hcasts'

/-- `$0` is the text `it's`, or the number that `$1` is the text of is less than the
    parameter plus 1, for fields and a parameter of type `t`. -/
def nameOrSmall (t : DataType) : Expr :=
  .apply .or [
    .apply (.compare .eq) [.field 0 t, .lit (.string "it's")],
    .apply (.compare .lt) [.castTo (.field 1 t) .bigint,
      .apply (.arith .minus) [.param 0 t, .lit (.bigint (-1))]]]

theorem castsOne_nameOrSmall (t : DataType) : (nameOrSmall t).CastsOne := by
  intro operands u hcast
  have hoperands : operands = [.field 1 t] ∧ u = .bigint := by
    simpa [nameOrSmall, apply, castTo, lit] using hcast
  rw [hoperands.1, List.length_singleton]

theorem eval_eq_of_text_eq_nameOrSmall :
    let row := [Value.string "its", .string "-7"]
    nameOrSmall .any ≠ nameOrSmall .string ∧ (nameOrSmall .any).text = (nameOrSmall .string).text ∧
      (nameOrSmall .any).eval row [.bigint 2] = .ok (.bool true) ∧
        (nameOrSmall .string).eval row [.bigint 2] = .ok (.bool true) := by
  intro row
  have htext : (nameOrSmall .any).text = (nameOrSmall .string).text := rfl
  have hvalue : (nameOrSmall .any).eval row [.bigint 2] = .ok (.bool true) := by rfl
  have hsame := eval_eq_of_text_eq rfl (castsOne_nameOrSmall .any) (castsOne_nameOrSmall .string)
    htext row [.bigint 2]
  refine ⟨?_, htext, hvalue, hsame.symm.trans hvalue⟩
  intro h
  simp [nameOrSmall, apply] at h

end Expr

end Polystore
