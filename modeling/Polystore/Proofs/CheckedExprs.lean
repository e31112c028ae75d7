import Polystore.Expr.Check
import Polystore.Proofs.Outcomes
import Polystore.Proofs.Truth
import Polystore.Proofs.ValueOrder

/-
  Polystore/Proofs/CheckedExprs.lean
  ==================================
  **Checked expressions do not go wrong.**  The check compares types, and evaluation
  looks at the values that it meets.  The two are tied together operator by operator:
  among the types that are known and are not DOUBLE none is converted to another one, so
  that the check only lets operands pass that have the very types an operator works on
  (`applyValues_ends`).  Then evaluation gives `NULL` or a value of the type of the
  expression, and nothing but arithmetic on integers can fail (`eval_of_check`).
-/

namespace Polystore

/-! ### Strict types -/

namespace DataType

/-- The types that are known and are not DOUBLE. -/
def isStrict : DataType → Bool
  | bool | bigint | string | binary | date | timestamp => true
  | null | double | any => false

variable {t u s : DataType}

theorem isUnknown_of_isStrict (h : t.isStrict = true) : t.isUnknown = false := by
  cases t <;> first | rfl | cases h

theorem ne_any_of_isStrict (h : t.isStrict = true) : t ≠ any := by
  rintro rfl
  cases h

theorem ne_double_of_isStrict (h : t.isStrict = true) : t ≠ double := by
  rintro rfl
  cases h

/-- A strict type is converted to no other one. -/
theorem eq_of_coercesTo (ht : t.isStrict = true) (hu : u.isStrict = true)
    (h : t.coercesTo u = true) : t = u := by
  simpa [coercesTo, isUnknown_of_isStrict ht, ne_any_of_isStrict hu,
    ne_double_of_isStrict hu] using h

theorem eq_of_supertype? (ht : t.isStrict = true) (hu : u.isStrict = true)
    (h : t.supertype? u = some s) : t = u ∧ t = s := by
  by_cases heq : t = u
  · exact ⟨heq, by simpa [supertype?, heq] using h⟩
  · -- the two numeric types are BIGINT and DOUBLE
    have hnumeric : (t.isNumeric && u.isNumeric) = false := by
      cases t <;> cases u <;> first | rfl | cases ht; done | cases hu; done | exact absurd rfl heq
    simp [supertype?, heq, isUnknown_of_isStrict ht, isUnknown_of_isStrict hu, hnumeric] at h

theorem eq_of_arithmeticType? (ht : t.isStrict = true)
    (h : Operator.arithmeticType? t = some u) : t = bigint ∧ u = bigint := by
  rw [Operator.arithmeticType?, isUnknown_of_isStrict ht] at h
  cases t <;> first | (cases ht; done) | (cases h; done) | exact ⟨rfl, (Option.some.inj h).symm⟩

theorem eq_bool_of_fitsBool (ht : t.isStrict = true) (h : Operator.fitsBool t = true) :
    t = bool := by
  simpa [Operator.fitsBool, isUnknown_of_isStrict ht] using h

theorem eq_string_of_fitsString (ht : t.isStrict = true) (h : Operator.fitsString t = true) :
    t = string := by
  simpa [Operator.fitsString, isUnknown_of_isStrict ht] using h

end DataType

/-! ### Typing rules -/

/-- The typing rules among strict types: the operands of a comparison have one type, and
    those of any other operator the type it is for. -/
inductive Operator.Rule : Operator → List DataType → DataType → Prop
  | compare (c : Comparison) (t : DataType) (ht : t.isStrict = true) : Rule (.compare c) [t, t] .bool
  | and {types : List DataType} (h : ∀ t ∈ types, t = .bool) : Rule .and types .bool
  | or {types : List DataType} (h : ∀ t ∈ types, t = .bool) : Rule .or types .bool
  | not : Rule .not [.bool] .bool
  | isNull (t : DataType) : Rule .isNull [t] .bool
  | isNotNull (t : DataType) : Rule .isNotNull [t] .bool
  | arith (a : Arithmetic) : Rule (.arith a) [.bigint, .bigint] .bigint
  | like : Rule .like [.string, .string] .bool

namespace Operator

variable {op : Operator} {types : List DataType} {u : DataType}

theorem Rule.isStrict (h : op.Rule types u) : u.isStrict = true := by
  cases h <;> rfl

/-- What the check finds of strict types follows the rules. -/
theorem rule_of_resultType? (htypes : ∀ t ∈ types, t.isStrict = true)
    (h : op.resultType? types = some u) : op.Rule types u := by
  have hguard {c : Bool} (h : (if c then some DataType.bool else none) = some u) :
      c = true ∧ DataType.bool = u :=
    (Option.ite_none_right_eq_some.mp h).imp_right Option.some.inj
  have hbools (h : types.all fitsBool = true) : ∀ t ∈ types, t = .bool := fun t ht =>
    DataType.eq_bool_of_fitsBool (htypes t ht) (List.all_eq_true.mp h t ht)
  cases op with
  | cast => cases h
  | and =>
    obtain ⟨hall, rfl⟩ := hguard h
    exact .and (hbools hall)
  | or =>
    obtain ⟨hall, rfl⟩ := hguard h
    exact .or (hbools hall)
  | not =>
    match types, h with
    | [t], h =>
      obtain ⟨hfits, rfl⟩ := hguard h
      rw [DataType.eq_bool_of_fitsBool (htypes t (by simp)) hfits]
      exact .not
  | isNull =>
    match types, h with
    | [t], h =>
      obtain rfl := Option.some.inj h
      exact .isNull t
  | isNotNull =>
    match types, h with
    | [t], h =>
      obtain rfl := Option.some.inj h
      exact .isNotNull t
  | compare c =>
    match types, h with
    | [l, r], h =>
      have hl : l.isStrict = true := htypes l (by simp)
      obtain ⟨s, hs, rfl⟩ := Option.map_eq_some_iff.mp h
      obtain ⟨rfl, -⟩ := DataType.eq_of_supertype? hl (htypes r (by simp)) hs
      exact .compare c l hl
  | arith a =>
    match types, h with
    | [l, r], h =>
      have hl : l.isStrict = true := htypes l (by simp)
      obtain ⟨s, hs, hu⟩ := Option.bind_eq_some_iff.mp h
      obtain ⟨rfl, rfl⟩ := DataType.eq_of_supertype? hl (htypes r (by simp)) hs
      obtain ⟨rfl, rfl⟩ := DataType.eq_of_arithmeticType? hl hu
      exact .arith a
  | like =>
    match types, h with
    | [l, r], h =>
      obtain ⟨hfits, rfl⟩ := hguard h
      obtain ⟨hl, hr⟩ := Bool.and_eq_true_iff.mp hfits
      rw [DataType.eq_string_of_fitsString (htypes l (by simp)) hl,
        DataType.eq_string_of_fitsString (htypes r (by simp)) hr]
      exact .like

end Operator

/-! ### Values of a type -/

/-- `NULL`, or a value of the type. -/
def Value.HasType (v : Value) (t : DataType) : Prop := v.isNull = true ∨ v.dataType = t

instance (v : Value) (t : DataType) : Decidable (v.HasType t) := inferInstanceAs (Decidable (_ ∨ _))

/-- Each field of the row holds `NULL` or a value of its type. -/
def RowType.Admits (row : RowType) (values : List Value) : Prop :=
  List.Forall₂ (fun v f => v.HasType f.type) values row.fields

namespace Value.HasType

variable {v : Value} {t : DataType}

theorem null : Value.null.HasType t := .inl rfl

theorem ofTruth (b : Option Bool) : (Expr.ofTruth b).HasType .bool := by
  cases b with
  | none => exact null
  | some b => exact .inr rfl

theorem bool (b : Bool) : (Value.bool b).HasType .bool := .inr rfl

/-- The values of BOOLEAN are the three truth values. -/
theorem exists_truth (h : v.HasType .bool) : ∃ b, v = Expr.ofTruth b := by
  cases v with
  | null => exact ⟨none, rfl⟩
  | bool b => exact ⟨some b, rfl⟩
  | _ => exact absurd h (by rintro (h | h) <;> cases h)

theorem dataType_eq (h : v.HasType t) (hnull : v.isNull = false) : v.dataType = t :=
  h.resolve_left (by simp [hnull])

theorem isDouble_eq_false (h : v.HasType t) (ht : t.isStrict = true) : v.isDouble = false := by
  cases v with
  | double x =>
    obtain rfl := h.dataType_eq rfl
    cases ht
  | _ => rfl

theorem bigint_cases (h : v.HasType .bigint) : v = .null ∨ ∃ i, v = .bigint i := by
  cases v with
  | null => exact .inl rfl
  | bigint i => exact .inr ⟨i, rfl⟩
  | _ => exact absurd h (by rintro (h | h) <;> cases h)

theorem string_cases (h : v.HasType .string) : v = .null ∨ ∃ s, v = .string s := by
  cases v with
  | null => exact .inl rfl
  | string s => exact .inr ⟨s, rfl⟩
  | _ => exact absurd h (by rintro (h | h) <;> cases h)

end Value.HasType

namespace Expr

/-! ### Operators on values of their types -/

/-- What arithmetic on integers may come to. -/
inductive ArithmeticError : Error → Prop
  | overflow (op : Arithmetic) (a b : Int64) : ArithmeticError (overflow op a b)
  | divisionByZero : ArithmeticError divisionByZero

theorem ArithmeticError.kind {err : Error} (h : ArithmeticError err) : err.kind = .value := by
  cases h <;> rfl

section

variable {E : Error → Prop} {v w : Value} {t u : DataType}

theorem connect_ends {vs : List Value} (h : ∀ v ∈ vs, v.HasType .bool) (decisive sawNull : Bool) :
    Ends E (connect decisive sawNull vs) (·.HasType .bool) := by
  have hts : ∃ ts : List (Option Bool), vs = ts.map ofTruth := by
    induction vs with
    | nil => exact ⟨[], rfl⟩
    | cons v vs ih =>
      obtain ⟨b, rfl⟩ := (h v List.mem_cons_self).exists_truth
      obtain ⟨ts, rfl⟩ := ih fun w hw => h w (List.mem_cons_of_mem _ hw)
      exact ⟨b :: ts, rfl⟩
  obtain ⟨ts, rfl⟩ := hts
  exact .of_eq (connect_ofTruth decisive sawNull ts) (.ofTruth _)

/-- Values of one strict type can be compared. -/
theorem compareValues_ends (c : Comparison) (ht : t.isStrict = true) (hv : v.HasType t)
    (hw : w.HasType t) : Ends E (compareValues c v w) (·.HasType .bool) := by
  unfold compareValues
  cases hnull : v.isNull || w.isNull with
  | true => exact Value.HasType.null
  | false =>
    obtain ⟨hvnull, hwnull⟩ : v.isNull = false ∧ w.isNull = false := by simpa using hnull
    have hvtype := hv.dataType_eq hvnull
    have hwtype := hw.dataType_eq hwnull
    obtain ⟨o, ho⟩ := Value.compare?_of_dataType (hw.isDouble_eq_false ht) hwnull
      (hvtype.trans hwtype.symm)
    rw [ho]
    exact .bool _

theorem integerArithmetic_ends (op : Arithmetic) (a b : Int64) :
    Ends ArithmeticError (integerArithmetic op a b) fun v => ∃ i, v = .bigint i := by
  have hrange (i : Option Int64) : Ends ArithmeticError
      (require (overflow op a b) (i.map Value.bigint)) fun v => ∃ i, v = .bigint i := by
    cases i with
    | none => exact .overflow op a b
    | some i => exact ⟨i, rfl⟩
  cases op with
  | divide =>
    by_cases hzero : b.toInt = 0
    · simp only [integerArithmetic, if_pos hzero]
      exact ArithmeticError.divisionByZero
    · simp only [integerArithmetic, if_neg hzero]
      exact hrange _
  | plus => exact hrange _
  | minus => exact hrange _
  | times => exact hrange _

theorem arithmetic_ends (op : Arithmetic) (hv : v.HasType .bigint) (hw : w.HasType .bigint) :
    Ends ArithmeticError (arithmetic op v w) (·.HasType .bigint) := by
  rcases hv.bigint_cases with rfl | ⟨a, rfl⟩
  · exact Value.HasType.null
  · rcases hw.bigint_cases with rfl | ⟨b, rfl⟩
    · exact Value.HasType.null
    · exact (integerArithmetic_ends op a b).imp fun _ ⟨_, hv⟩ => .inr (hv ▸ rfl)

theorem likeValues_ends (hv : v.HasType .string) (hw : w.HasType .string) :
    Ends E (likeValues v w) (·.HasType .bool) := by
  rcases hv.string_cases with rfl | ⟨text, rfl⟩
  · exact Value.HasType.null
  · rcases hw.string_cases with rfl | ⟨pattern, rfl⟩
    · exact Value.HasType.null
    · exact Value.HasType.bool _

/-- An operator that is given values as its rule says gives a value of the type that the
    rule says, or fails in arithmetic. -/
theorem applyValues_ends {op : Operator} {types : List DataType} {vs : List Value}
    (hrule : op.Rule types u) (hvs : List.Forall₂ Value.HasType vs types) (t : DataType) :
    Ends ArithmeticError (applyValues op vs t) (·.HasType u) := by
  have hbools (h : ∀ t ∈ types, t = .bool) : ∀ v ∈ vs, v.HasType .bool := by
    intro v hv
    obtain ⟨s, hs, htype⟩ := exists_of_forall₂_left hvs v hv
    exact h s hs ▸ htype
  cases hrule with
  | and h => exact connect_ends (hbools h) false false
  | or h => exact connect_ends (hbools h) true false
  | not =>
    obtain ⟨v, vs, hv, ⟨⟩, rfl⟩ := List.forall₂_cons_right_iff.mp hvs
    obtain ⟨b, rfl⟩ := hv.exists_truth
    cases b <;> exact Value.HasType.ofTruth _
  | isNull =>
    obtain ⟨v, vs, -, ⟨⟩, rfl⟩ := List.forall₂_cons_right_iff.mp hvs
    exact Value.HasType.bool _
  | isNotNull =>
    obtain ⟨v, vs, -, ⟨⟩, rfl⟩ := List.forall₂_cons_right_iff.mp hvs
    exact Value.HasType.bool _
  | compare c s hs =>
    match vs, hvs with
    | [v, w], .cons hv (.cons hw .nil) => exact compareValues_ends c hs hv hw
  | arith a =>
    match vs, hvs with
    | [v, w], .cons hv (.cons hw .nil) => exact arithmetic_ends a hv hw
  | like =>
    match vs, hvs with
    | [v, w], .cons hv (.cons hw .nil) => exact likeValues_ends hv hw

end

/-! ### Expressions -/

/-- Whether all types in the expression are strict and its literals are of their types,
    without a cast. -/
def isStrict : Expr → Bool
  | literal v t => t.isStrict && v.HasType t
  | field _ t | param _ t => t.isStrict
  | call op operands t => op ≠ .cast && t.isStrict && allStrict operands
where
  allStrict : List Expr → Bool
    | [] => true
    | e :: rest => isStrict e && allStrict rest

theorem allStrict_iff (es : List Expr) :
    isStrict.allStrict es = true ↔ ∀ e ∈ es, e.isStrict = true := by
  induction es with
  | nil => simp [isStrict.allStrict]
  | cons e es ih => simp [isStrict.allStrict, ih]

theorem isStrict_call {op : Operator} {operands : List Expr} {t : DataType} :
    (call op operands t).isStrict = true ↔
      op ≠ .cast ∧ t.isStrict = true ∧ ∀ e ∈ operands, e.isStrict = true := by
  rw [isStrict, Bool.and_eq_true, Bool.and_eq_true, allStrict_iff, decide_eq_true_iff, and_assoc]

theorem isStrict_type {e : Expr} (h : e.isStrict = true) : e.type.isStrict = true := by
  cases e with
  | literal v t => exact (Bool.and_eq_true_iff.mp h).1
  | field i t => exact h
  | param i t => exact h
  | call op operands t => exact (isStrict_call.mp h).2.1

variable {row : RowType} {values params : List Value}

theorem checkAll_eq_ok {es : List Expr} :
    check.checkAll row es = .ok () ↔ ∀ e ∈ es, e.check row = .ok () := by
  induction es with
  | nil => simp [check.checkAll]
  | cons e es ih =>
    rw [check.checkAll, except_bind_eq_ok, List.forall_mem_cons, ← ih]
    constructor
    · rintro ⟨_, he, hes⟩
      exact ⟨he, hes⟩
    · rintro ⟨he, hes⟩
      exact ⟨(), he, hes⟩

theorem evalAll_ends {E : Error → Prop} {es : List Expr}
    (h : ∀ e ∈ es, Ends E (e.eval values params) (·.HasType e.type)) :
    Ends E (eval.evalAll values params es) (List.Forall₂ Value.HasType · (es.map Expr.type)) := by
  induction es with
  | nil => exact List.Forall₂.nil
  | cons e es ih =>
    rw [eval.evalAll]
    refine (h e List.mem_cons_self).bind fun v hv => ?_
    refine (ih fun x hx => h x (List.mem_cons_of_mem e hx)).bind fun vs hvs => ?_
    exact List.Forall₂.cons hv hvs

/-- A call that is checked has the type that the rule of its operator gives. -/
theorem rule_of_check {op : Operator} {operands : List Expr} {t : DataType}
    (h : (call op operands t).isStrict = true) (hcheck : (call op operands t).check row = .ok ()) :
    (∀ e ∈ operands, e.check row = .ok ()) ∧ op.Rule (operands.map Expr.type) t := by
  obtain ⟨hop, ht, hoperands⟩ := isStrict_call.mp h
  rw [check] at hcheck
  obtain ⟨_, hall, hensure⟩ := except_bind_eq_ok.mp hcheck
  refine ⟨checkAll_eq_ok.mp hall, ?_⟩
  have hwell : wellTyped op (operands.map Expr.type) t = true := by
    simpa [hop] using ensure_eq_ok.mp hensure
  have htypes : ∀ u ∈ operands.map Expr.type, u.isStrict = true := by
    simpa using fun e he => isStrict_type (hoperands e he)
  rw [wellTyped] at hwell
  cases hresult : op.resultType? (operands.map Expr.type) with
  | none => simp [hresult] at hwell
  | some u =>
    rw [hresult] at hwell
    have hrule := Operator.rule_of_resultType? htypes hresult
    obtain rfl := DataType.eq_of_coercesTo hrule.isStrict ht hwell
    exact hrule

/-- A field that is checked is declared with the type that it has in the row type. -/
theorem eval_field_ends {i : Nat} {t : DataType} (ht : t.isStrict = true)
    (hrow : ∀ f ∈ row.fields, f.type.isStrict = true)
    (hvalues : row.Admits values)
    (hcheck : (field i t).check row = .ok ()) :
    Ends ArithmeticError ((field i t).eval values params) (·.HasType t) := by
  rw [check] at hcheck
  obtain ⟨f, hf, hensure⟩ := except_bind_eq_ok.mp hcheck
  obtain ⟨hi, rfl⟩ := List.getElem?_eq_some_iff.mp (require_eq_ok.mp hf)
  have htype : row.fields[i].type = t := by
    have hf := hrow _ (List.getElem_mem hi)
    rcases Bool.or_eq_true_iff.mp (ensure_eq_ok.mp hensure) with h | h
    · exact DataType.eq_of_coercesTo hf ht h
    · exact (DataType.eq_of_coercesTo ht hf h).symm
  obtain ⟨hlength, hget⟩ := List.forall₂_iff_get.mp hvalues
  have hi' : i < values.length := hlength ▸ hi
  exact .of_eq (eval_field (List.getElem?_eq_getElem hi')) (htype ▸ hget i hi' hi)

theorem eval_ends {e : Expr} (he : e.isStrict = true)
    (hrow : ∀ f ∈ row.fields, f.type.isStrict = true) (hcheck : e.check row = .ok ())
    (hvalues : row.Admits values)
    (hparams : ∀ i t, (param i t).OccursIn e → ∃ v, params[i]? = some v ∧ v.HasType t) :
    Ends ArithmeticError (e.eval values params) (·.HasType e.type) := by
  induction e using operandInduction with
  | literal v t =>
    have htype : v.HasType t := of_decide_eq_true (Bool.and_eq_true_iff.mp he).2
    exact htype
  | field i t => exact eval_field_ends he hrow hvalues hcheck
  | param i t =>
    obtain ⟨v, hv, htype⟩ := hparams i t .self
    refine .of_eq (a := v) ?_ htype
    rw [eval, hv]
    rfl
  | call op operands t ih =>
    obtain ⟨hchecks, hrule⟩ := rule_of_check he hcheck
    have hoperands := (isStrict_call.mp he).2.2
    rw [eval]
    refine (evalAll_ends fun x hx => ?_).bind fun vs hvs => applyValues_ends hrule hvs t
    exact ih x hx (hoperands x hx) (hchecks x hx) fun i u h => hparams i u (.operand hx h)

/-- A checked expression of strict types gives, on a row and with parameters of the types
    with which they are declared, `NULL` or a value of its type; or arithmetic fails. -/
theorem eval_of_check {e : Expr} (he : e.isStrict = true)
    (hrow : ∀ f ∈ row.fields, f.type.isStrict = true) (hcheck : e.check row = .ok ())
    (hvalues : row.Admits values)
    (hparams : ∀ i t, (param i t).OccursIn e → ∃ v, params[i]? = some v ∧ v.HasType t) :
    (∃ v, e.eval values params = .ok v ∧ v.HasType e.type) ∨
      ∃ err, e.eval values params = .error err ∧ err.kind = .value ∧ ArithmeticError err := by
  have hends := eval_ends he hrow hcheck hvalues hparams
  cases heval : e.eval values params with
  | ok v => exact .inl ⟨v, rfl, hends.result heval⟩
  | error err =>
    have harithmetic := hends.error heval
    exact .inr ⟨err, rfl, harithmetic.kind, harithmetic⟩

/-- The quotient of `$0` and the parameter is above 1, or `$1` begins with an `a`. -/
def quotientOrName : Expr :=
  .apply .or [
    .apply (.compare .gt) [.apply (.arith .divide) [.field 0 .bigint, .param 0 .bigint],
      .lit (.bigint 1)],
    .apply .like [.field 1 .string, .lit (.string "a%")]]

/-- With the parameter 0 the evaluation of a checked expression fails. -/
theorem eval_of_check_quotientOrName :
    let row : RowType := ⟨[⟨"x", .bigint, false⟩, ⟨"name", .string, true⟩]⟩
    quotientOrName.check row = .ok () ∧
      ∃ err, quotientOrName.eval [.bigint 7, .null] [.bigint 0] = .error err ∧
        err.kind = .value ∧ ArithmeticError err := by
  intro row
  have hcheck : quotientOrName.check row = .ok () := rfl
  have hvalues : row.Admits [.bigint 7, .null] := .cons (.inr rfl) (.cons (.inl rfl) .nil)
  have hparams : ∀ i t, (param i t).OccursIn quotientOrName →
      ∃ v, [Value.bigint 0][i]? = some v ∧ v.HasType t := by
    intro i t hparam
    have hi : i = 0 ∧ t = .bigint := by simpa [quotientOrName, apply, lit] using hparam
    obtain ⟨rfl, rfl⟩ := hi
    exact ⟨_, rfl, .inr rfl⟩
  refine ⟨hcheck, (eval_of_check rfl (by decide) hcheck hvalues hparams).resolve_left ?_⟩
  rintro ⟨v, hv, -⟩
  cases hv

end Expr

end Polystore
