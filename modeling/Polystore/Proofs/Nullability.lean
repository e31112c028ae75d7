import Polystore.Proofs.BuiltPlans
import Polystore.Proofs.CheckedExprs

/-
  Polystore/Proofs/Nullability.lean
  =================================
  **Fields that are NOT NULL.**  A projection calls a field NOT NULL by looking at the
  expression alone.  This is right because no operator makes a `NULL` of values that are
  none: it gives a value that is none either, or it fails (`applyValues_notNull`).  So what
  the row type of the input says of `NULL` carries over to the output (`mayBeNull_sound`).
-/

namespace Polystore

/-- The values hold no `NULL` in a field that is NOT NULL.  Nothing is said of their
    number or their types. -/
def RowType.Honored (row : RowType) (values : List Value) : Prop :=
  ∀ (i : Nat) (f : Field), row.fields[i]? = some f → f.nullable = false →
    ∀ v, values[i]? = some v → v.isNull = false

namespace Expr

/-! ### Operators on values that are not `NULL` -/

section

/-- The computation fails, or has a value that is not `NULL`. -/
abbrev EndsNotNull (x : Except Error Value) : Prop := Ends (fun _ => True) x (·.isNull = false)

variable {v w : Value}

theorem require_map_notNull {α : Type} {f : α → Value} (hf : ∀ a, (f a).isNull = false) (e : Error)
    (o : Option α) : EndsNotNull (require e (o.map f)) := by
  cases o with
  | none => trivial
  | some a => exact hf a

theorem connect_notNull {vs : List Value} (h : ∀ v ∈ vs, v.isNull = false) (decisive : Bool) :
    EndsNotNull (connect decisive false vs) := by
  induction vs with
  | nil => exact rfl
  | cons v vs ih =>
    cases v with
    | null => cases h _ List.mem_cons_self
    | bool b =>
      have hstep : connect decisive false (.bool b :: vs) =
          if b = decisive then .ok (.bool b) else connect decisive false vs := rfl
      rw [hstep]
      split
      · exact rfl
      · exact ih fun w hw => h w (List.mem_cons_of_mem _ hw)
    | _ => trivial

theorem compareValues_notNull (c : Comparison) (hv : v.isNull = false) (hw : w.isNull = false) :
    EndsNotNull (compareValues c v w) := by
  simp only [compareValues, hv, hw, Bool.or_false, Bool.false_eq_true, if_false]
  cases v.compare? w with
  | none => trivial
  | some o => exact rfl

theorem arithmetic_notNull (op : Arithmetic) (hv : v.isNull = false) (hw : w.isNull = false) :
    EndsNotNull (arithmetic op v w) := by
  unfold arithmetic
  -- a `NULL` on either side, two integers, and everything else
  split
  · cases hv
  · cases hw
  · refine ((integerArithmetic_ends op _ _).weaken fun _ _ => trivial).imp ?_
    rintro _ ⟨i, rfl⟩
    rfl
  · split
    · exact rfl
    · trivial

theorem likeValues_notNull (hv : v.isNull = false) (hw : w.isNull = false) :
    EndsNotNull (likeValues v w) := by
  unfold likeValues
  split
  · cases hv
  · cases hw
  · exact rfl
  · trivial

/-- No text is read as `NULL`, of whatever type. -/
theorem parse_notNull (s : String) (t : DataType) : EndsNotNull (Value.parse s t) := by
  cases t with
  | null => trivial
  | binary => trivial
  | string => exact rfl
  | any => exact rfl
  | bool => exact require_map_notNull (fun _ => rfl) _ _
  | bigint => exact require_map_notNull (fun _ => rfl) _ _
  | double => exact require_map_notNull (fun _ => rfl) _ _
  | date => exact require_map_notNull (fun _ => rfl) _ _
  | timestamp => exact require_map_notNull (fun _ => rfl) _ _

theorem castValue_notNull (t : DataType) (hv : v.isNull = false) : EndsNotNull (castValue v t) := by
  unfold castValue
  split
  · exact hv
  · unfold convert
    -- an integer, a double, anything to a text, a text, and what cannot be converted
    split
    · exact rfl
    · split
      · exact rfl
      · trivial
    · exact rfl
    · exact parse_notNull _ _
    · trivial

theorem single_ends (op : Operator) {P : Value → Prop} {vs : List Value} (h : ∀ v ∈ vs, P v) :
    Ends (fun _ => True) (single op vs) P := by
  match vs with
  | [v] => exact h v List.mem_cons_self
  | [] => trivial
  | _ :: _ :: _ => trivial

theorem pair_ends (op : Operator) {P : Value → Prop} {vs : List Value} (h : ∀ v ∈ vs, P v) :
    Ends (fun _ => True) (pair op vs) fun lr => P lr.1 ∧ P lr.2 := by
  match vs with
  | [l, r] => exact ⟨h l (by simp), h r (by simp)⟩
  | [] => trivial
  | [_] => trivial
  | _ :: _ :: _ :: _ => trivial

/-- The tests for `NULL` have an answer whatever they are given. -/
theorem nullTest_notNull {op : Operator} (hop : op = .isNull ∨ op = .isNotNull) (vs : List Value)
    (t : DataType) : EndsNotNull (applyValues op vs t) := by
  rcases hop with rfl | rfl <;>
    exact (single_ends _ (P := fun _ => True) fun _ _ => trivial).bind fun _ _ => rfl

/-- No operator makes a `NULL` of values that are none. -/
theorem applyValues_notNull (op : Operator) {vs : List Value} (h : ∀ v ∈ vs, v.isNull = false)
    (t : DataType) : EndsNotNull (applyValues op vs t) := by
  cases op with
  | and => exact connect_notNull h false
  | or => exact connect_notNull h true
  | not =>
    refine (single_ends _ h).bind fun v hv => ?_
    cases v with
    | null => cases hv
    | bool b => exact rfl
    | _ => trivial
  | isNull => exact nullTest_notNull (.inl rfl) vs t
  | isNotNull => exact nullTest_notNull (.inr rfl) vs t
  | compare c => exact (pair_ends _ h).bind fun _ hlr => compareValues_notNull c hlr.1 hlr.2
  | arith a => exact (pair_ends _ h).bind fun _ hlr => arithmetic_notNull a hlr.1 hlr.2
  | like => exact (pair_ends _ h).bind fun _ hlr => likeValues_notNull hlr.1 hlr.2
  | cast => exact (single_ends _ h).bind fun _ hv => castValue_notNull t hv

end

end Expr

namespace Plan

open Polystore.Expr

variable {row : RowType} {values params : List Value}

/-! ### Expressions -/

theorem anyMayBeNull_eq_false {es : List Expr} :
    mayBeNull.anyMayBeNull row es = false ↔ ∀ e ∈ es, mayBeNull row e = false := by
  induction es with
  | nil => simp [mayBeNull.anyMayBeNull]
  | cons e es ih => simp [mayBeNull.anyMayBeNull, ih]

/-- A call is free of `NULL` as a test for `NULL`, or as its operands are. -/
theorem mayBeNull_call {op : Operator} {operands : List Expr} {t : DataType}
    (h : mayBeNull row (.call op operands t) = false) :
    (op = .isNull ∨ op = .isNotNull) ∨ ∀ e ∈ operands, mayBeNull row e = false := by
  unfold mayBeNull at h
  split at h
  · exact .inl (.inl rfl)
  · exact .inl (.inr rfl)
  · cases h
  · exact .inr (anyMayBeNull_eq_false.mp h)

theorem mayBeNull_field {i : Nat} {t : DataType} (h : mayBeNull row (.field i t) = false) :
    ∃ f, row.fields[i]? = some f ∧ f.nullable = false := by
  rw [mayBeNull] at h
  cases hf : row.fields[i]? with
  | none => rw [hf] at h; cases h
  | some f => exact ⟨f, rfl, by simpa [hf] using h⟩

theorem eval_notNull (hvalues : row.Honored values) {e : Expr} (he : mayBeNull row e = false) :
    EndsNotNull (e.eval values params) := by
  induction e using operandInduction with
  | literal v t =>
    have hv : v.isNull = false := by simpa [mayBeNull] using he
    exact hv
  | field i t =>
    obtain ⟨f, hf, hnullable⟩ := mayBeNull_field he
    rw [eval]
    exact .require (fun _ => trivial) fun v hv => hvalues i f hf hnullable v hv
  | param i t => simp [mayBeNull] at he
  | call op operands t ih =>
    rw [eval, evalAll_eq_mapM]
    rcases mayBeNull_call he with htest | hoperands
    · exact (Ends.of_ok (P := fun _ => True) (fun _ => trivial) fun _ _ => trivial).bind
        fun vs _ => nullTest_notNull htest vs t
    · exact (Ends.mapM fun x hx => ih x hx (hoperands x hx)).bind
        fun vs hvs => applyValues_notNull op hvs t

/-! ### Projections -/

theorem rowType_push {p p' : Plan} {op : RelOp} {traits : Traits}
    (h : p.push op traits row = .ok p') : p'.rowType = .ok row := by
  obtain ⟨r, hadd, h⟩ := except_bind_eq_ok.mp h
  obtain ⟨rfl, -, -⟩ := Arena.add_eq_ok hadd
  obtain rfl := Except.ok.inj h
  exact rowType_eq_ok.mpr ⟨_, Arena.get_push_self, rfl⟩

/-- The rows of a projection keep what its row type says of `NULL`. -/
theorem honored_project (hvalues : row.Honored values) {p p' : Plan}
    {columns : List (Expr × Option String)} {out : List Value} (hrow : p.rowType = .ok row)
    (h : p.project columns = .ok p')
    (hout : (columns.map (·.1)).mapM (Expr.eval values params) = .ok out) :
    ∃ row', p'.rowType = .ok row' ∧ row'.Honored out := by
  obtain ⟨_, hrow', h⟩ := except_bind_eq_ok.mp h
  obtain rfl := Except.ok.inj (hrow.symm.trans hrow')
  obtain ⟨fields, hfields, h⟩ := except_bind_eq_ok.mp h
  obtain ⟨-, -, hnullables⟩ := outputFields_eq_ok hfields
  refine ⟨⟨fields⟩, rowType_push h, fun i f hf hnullable v hv => ?_⟩
  -- the field and its value come from one expression
  have hat := congrArg (·[i]?) hnullables
  simp only [List.getElem?_map, hf, Option.map_some] at hat
  obtain ⟨e, he, hmay⟩ := Option.map_eq_some_iff.mp hat.symm
  obtain ⟨w, hw, heval⟩ := exists_getElem?_of_mapM hout ((List.getElem?_map ..).trans he)
  obtain rfl : v = w := Option.some.inj (hv.symm.trans hw)
  exact (eval_notNull hvalues (hmay.trans hnullable)).result heval

/-- On a row that holds no `NULL` in a field that is NOT NULL, an expression that is said
    not to be `NULL` has no value but one that is not, whatever the parameters are; and
    the values of a projection hold no `NULL` in an output field that is NOT NULL. -/
theorem mayBeNull_sound (hvalues : row.Honored values) (params : List Value) :
    (∀ e v, mayBeNull row e = false → e.eval values params = .ok v → v.isNull = false) ∧
    ∀ (p p' : Plan) (columns : List (Expr × Option String)) (out : List Value),
      p.rowType = .ok row → p.project columns = .ok p' →
      (columns.map (·.1)).mapM (Expr.eval values params) = .ok out →
      ∃ row', p'.rowType = .ok row' ∧ row'.Honored out :=
  ⟨fun _ _ he heval => (eval_notNull hvalues he).result heval,
    fun _ _ _ _ hrow h hout => honored_project hvalues hrow h hout⟩

/-- Visitors have a number, and some have a name. -/
def visitorRow : RowType := ⟨[⟨"id", .bigint, false⟩, ⟨"name", .string, true⟩]⟩

def visitors : Plan := ⟨⟨#[⟨.values [[.bigint 7, .null]], {}, visitorRow, none⟩]⟩, ⟨0⟩⟩

/-- The number is not below 12, or the name is known. -/
def lateOrNamed : Expr :=
  .apply .or [
    .apply .not [.apply (.compare .lt) [.field 0 .bigint, .castTo (.lit (.string "12")) .bigint]],
    .apply .isNotNull [.field 1 .string]]

/-- The condition is NOT NULL although it reads a name that is `NULL`. -/
theorem mayBeNull_sound_lateOrNamed :
    visitorRow.Honored [.bigint 7, .null] ∧ mayBeNull visitorRow lateOrNamed = false ∧
      lateOrNamed.eval [.bigint 7, .null] [] = .ok (.bool false) ∧
      (Value.bool false).isNull = false ∧
      ∃ p' row', visitors.project [(lateOrNamed, some "known"), (.field 1 .string, none)] = .ok p' ∧
        p'.rowType = .ok row' ∧ row'.Honored [.bool false, .null] := by
  have hvalues : visitorRow.Honored [.bigint 7, .null] := by
    rintro (_ | _ | i) f hf hnullable v hv
    · cases hv
      rfl
    · cases hf
      cases hnullable
    · cases hf
  obtain ⟨hexpr, hproject⟩ := mayBeNull_sound hvalues []
  have hmay : mayBeNull visitorRow lateOrNamed = false := rfl
  have heval : lateOrNamed.eval [.bigint 7, .null] [] = .ok (.bool false) := rfl
  obtain ⟨p', hp'⟩ : ∃ p', visitors.project
      [(lateOrNamed, some "known"), (.field 1 .string, none)] = .ok p' := ⟨_, rfl⟩
  obtain ⟨row', hrow', hout⟩ := hproject visitors p' _ [.bool false, .null] rfl hp' rfl
  exact ⟨hvalues, hmay, heval, hexpr _ _ hmay heval, p', row', hp', hrow', hout⟩

end Plan

end Polystore
