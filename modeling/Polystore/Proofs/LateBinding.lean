import Polystore.Proofs.DocumentQueries

/-
  Polystore/Proofs/LateBinding.lean
  =================================
  **Binding parameters late.**  A filter is written before the parameters are known, and
  the executor puts their values in the place of the placeholders.  A bound value is
  compared like the literal it would have been, with one difference: the literal `NULL`
  is never written into a query, and a parameter may turn out to be `NULL`.  A bound
  range then holds of nothing, which is right.  A bound equality asks for null, and a
  bound exclusion excludes it: they have become tests for `NULL` (`Term.late`).

  So every row on which the condition is `TRUE` is kept, and no other row is, unless a
  parameter of `=` or `<>` is `NULL` (`Document.late_binding`).
-/

namespace Polystore

/-! ### Conditions -/

namespace Expr

variable {row params : List Value}

/-- Whether an expression is made of comparisons and tests for `NULL` with `AND` and
    `OR`. -/
def isCondition : Expr → Bool
  | call op operands _ =>
    match op with
    | .compare _ | .isNull | .isNotNull => true
    | .and | .or => allConditions operands
    | _ => false
  | _ => false
where
  allConditions : List Expr → Bool
    | [] => true
    | e :: rest => isCondition e && allConditions rest

theorem allConditions_iff (es : List Expr) :
    isCondition.allConditions es = true ↔ ∀ e ∈ es, e.isCondition = true := by
  induction es with
  | nil => simp [isCondition.allConditions]
  | cons e es ih => simp [isCondition.allConditions, ih]

theorem isCondition_connective {op : Operator} {decisive : Bool} (hop : Connective op decisive)
    {operands : List Expr} {t : DataType} :
    (call op operands t).isCondition = true ↔ ∀ e ∈ operands, e.isCondition = true := by
  rw [← allConditions_iff]
  cases hop <;> rfl

/-- The operands of a call that does not fail have values. -/
theorem eval_of_operand {op : Operator} {operands : List Expr} {t : DataType} {v : Value}
    (h : (call op operands t).eval row params = .ok v) :
    ∀ x ∈ operands, ∃ w, x.eval row params = .ok w := by
  obtain ⟨vs, hvs, -⟩ := except_bind_eq_ok.mp h
  intro x hx
  obtain ⟨w, -, hw⟩ := exists_of_forall₂_left (evalAll_eq_ok.mp hvs) x hx
  exact ⟨w, hw⟩

/-- The sides of a comparison that does not fail are comparable. -/
theorem eval_of_comparison {c : Comparison} {l r : Expr} {t : DataType} {v : Value}
    (h : (call (.compare c) [l, r] t).eval row params = .ok v) :
    ∃ a b, l.eval row params = .ok a ∧ r.eval row params = .ok b ∧
      (a.isNull = false → b.isNull = false → ∃ o, a.compare? b = some o) := by
  obtain ⟨a, b, ha, hb, hv⟩ := eval_comparison_eq_ok.mp h
  refine ⟨a, b, ha, hb, fun hna hnb => ?_⟩
  unfold compareValues at hv
  rw [hna, hnb] at hv
  cases hcompare : a.compare? b with
  | some o => exact ⟨o, rfl⟩
  | none => simp [hcompare] at hv

/-- A condition that does not fail is `TRUE`, `FALSE` or `NULL`. -/
theorem hasTruth_of_isCondition {e : Expr} (he : e.isCondition = true) {v : Value}
    (h : e.eval row params = .ok v) : e.HasTruth row params := by
  induction e using operandInduction generalizing v with
  | literal v t => cases he
  | field i t => cases he
  | param i t => cases he
  | call op operands t ih =>
    have hconnective {decisive : Bool} (hop : Connective op decisive) :
        (call op operands t).HasTruth row params := by
      refine (connective_evaluates hop (fun x hx => ?_) t).hasTruth
      obtain ⟨w, hw⟩ := eval_of_operand h x hx
      exact ih x hx ((isCondition_connective hop).mp he x hx) hw
    cases op with
    | and => exact hconnective .and
    | or => exact hconnective .or
    | compare c =>
      obtain ⟨vs, hvs, hv⟩ := except_bind_eq_ok.mp h
      obtain ⟨⟨l, r⟩, hpair, hv⟩ := except_bind_eq_ok.mp hv
      rw [HasTruth, h]
      change compareValues c l r = .ok v at hv
      unfold compareValues at hv
      split at hv
      · exact ⟨none, congrArg Except.ok (Except.ok.inj hv).symm⟩
      · split at hv
        · exact ⟨some _, congrArg Except.ok (Except.ok.inj hv).symm⟩
        · cases hv
    | isNull =>
      obtain ⟨vs, hvs, hv⟩ := except_bind_eq_ok.mp h
      obtain ⟨w, -, hv⟩ := except_bind_eq_ok.mp hv
      rw [HasTruth, h]
      exact ⟨some _, congrArg Except.ok (Except.ok.inj hv).symm⟩
    | isNotNull =>
      obtain ⟨vs, hvs, hv⟩ := except_bind_eq_ok.mp h
      obtain ⟨w, -, hv⟩ := except_bind_eq_ok.mp hv
      rw [HasTruth, h]
      exact ⟨some _, congrArg Except.ok (Except.ok.inj hv).symm⟩
    | _ => cases he

/-- The parts of a condition are conditions, and do not fail where it does not. -/
theorem isCondition_of_mem_flatten {op : Operator} {decisive : Bool} (hop : Connective op decisive)
    {e x : Expr} (hx : x ∈ e.flatten op) (he : e.isCondition = true) {v : Value}
    (h : e.eval row params = .ok v) : x.isCondition = true ∧ ∃ w, x.eval row params = .ok w := by
  induction e using operandInduction generalizing v with
  | literal v t => cases he
  | field i t => cases he
  | param i t => cases he
  | call op' operands t ih =>
    by_cases hsame : op' = op
    · subst hsame
      simp only [flatten, if_true, flattenAll_eq_flatMap] at hx
      obtain ⟨y, hy, hxy⟩ := List.mem_flatMap.mp hx
      obtain ⟨w, hw⟩ := eval_of_operand h y hy
      exact ih y hy hxy ((isCondition_connective hop).mp he y hy) hw
    · simp only [flatten, hsame, if_false, List.mem_singleton] at hx
      subst hx
      exact ⟨he, v, h⟩

theorem isCondition_of_mem_branches {e c : Expr} {conjuncts : List Expr}
    (hb : conjuncts ∈ e.branches) (hc : c ∈ conjuncts) (he : e.isCondition = true) {v : Value}
    (h : e.eval row params = .ok v) : c.isCondition = true ∧ ∃ w, c.eval row params = .ok w := by
  obtain ⟨d, hd, rfl⟩ := List.mem_map.mp hb
  obtain ⟨hd', w, hw⟩ := isCondition_of_mem_flatten .or (List.mem_filter.mp hd).1 he h
  exact isCondition_of_mem_flatten .and (List.mem_filter.mp hc).1 hd' hw

/-- A condition compares something with a parameter by `=` or `<>`. -/
def Equates (e : Expr) (i : Nat) : Prop :=
  ∃ c operands t u, (c = Comparison.eq ∨ c = .ne) ∧ Expr.param i u ∈ operands ∧
    (Expr.call (.compare c) operands t).OccursIn e

end Expr

/-! ### Terms whose parameters are bound -/

/-- Whether a right-hand side turns out to be `NULL`. -/
def TermValue.readsNull (params : List Value) (w : TermValue) : Bool :=
  (w.read params).any Value.isNull

/-- The term that a store evaluates when the parameters are bound. -/
def Term.late (params : List Value) : Term → Term
  | .eq i w => if w.readsNull params then .isNull i else .eq i w
  | .ne i w => if w.readsNull params then .isNotNull i else .ne i w
  | t => t

/-- A right-hand side has a value that is `NULL`, or of the type of the field. -/
def TermValue.FitsField (row params : List Value) (i : Nat) (w : TermValue) : Prop :=
  ∃ b, w.read params = some b ∧ b.isDouble = false ∧
    ∀ a ∈ row[i]?, a.isNull = false → b.isNull = false → a.dataType = b.dataType

section

variable {row params : List Value}

theorem Value.dataType_of_compare? {a b : Value} {o : Ordering} (ha : a.isDouble = false)
    (hb : b.isDouble = false) (h : a.compare? b = some o) : a.dataType = b.dataType := by
  cases a <;> cases b <;> first | rfl | cases ha; done | cases hb; done | cases h

theorem Term.field_ofComparison (i : Nat) (op : Comparison) (w : TermValue) :
    (ofComparison i op w).field = i := by
  cases op <;> rfl

theorem Term.kind_ofComparison (i : Nat) (op : Comparison) (w : TermValue) :
    (ofComparison i op w).kind ≠ .pattern := by
  cases op <;> exact fun h => by cases h

/-- A recognized comparison that does not fail compares a field with a value of its
    type. -/
theorem FieldComparison.fitsField {e : Expr} {c : FieldComparison} {w : TermValue} {v : Value}
    (hrow : ∀ a ∈ row, a.isDouble = false) (hparams : ∀ p ∈ params, p.isDouble = false)
    (he : e.isExact = true) (hc : FieldComparison.ofExpr? e = some c)
    (hw : TermValue.ofExpr? c.operand = some w) (heval : e.eval row params = .ok v) :
    w.isExact = true ∧ w.FitsField row params c.field := by
  have hfits : ∀ {a b : Value}, row[c.field]? = some a → c.operand.eval row params = .ok b →
      w.isExact = true →
      (a.isNull = false → b.isNull = false → ∃ o, a.compare? b = some o ∨ b.compare? a = some o) →
      w.FitsField row params c.field := by
    intro a b ha hb hexact hcompare
    have hread := TermValue.read_of_eval hw hb
    have hdouble := TermValue.read_isDouble hexact hparams hread
    refine ⟨b, hread, hdouble, fun a' ha' hna hnb => ?_⟩
    obtain rfl := Option.some.inj (ha.symm.trans ha')
    have hrow' := hrow a (List.mem_of_getElem? ha)
    obtain ⟨o, ho | ho⟩ := hcompare hna hnb
    · exact Value.dataType_of_compare? hrow' hdouble ho
    · exact (Value.dataType_of_compare? hdouble hrow' ho).symm
  obtain ⟨t, u, ⟨left, rfl, rfl⟩ | ⟨op, right, rfl, hop, rfl⟩⟩ := ofExpr?_eq_some he hc
  · simp only [Expr.isExact, Expr.isExact.allExact, Bool.and_eq_true] at he
    have hexact := TermValue.isExact_of_ofExpr? hw he.2.2.1
    obtain ⟨a, b, ha, hb, hcompare⟩ := Expr.eval_of_comparison heval
    refine ⟨hexact, hfits (getElem?_of_eval_field ha) hb hexact fun hna hnb => ?_⟩
    obtain ⟨o, ho⟩ := hcompare hna hnb
    exact ⟨o, .inl ho⟩
  · simp only [Expr.isExact, Expr.isExact.allExact, Bool.and_eq_true] at he
    have hexact := TermValue.isExact_of_ofExpr? hw he.2.1
    obtain ⟨b, a, hb, ha, hcompare⟩ := Expr.eval_of_comparison heval
    refine ⟨hexact, hfits (getElem?_of_eval_field ha) hb hexact fun hna hnb => ?_⟩
    obtain ⟨o, ho⟩ := hcompare hnb hna
    exact ⟨o, .inr ho⟩

/-- What a term recognized in a condition says can be said in JSON when the parameters
    are bound. -/
structure Term.LateFits (row params : List Value) (t : Term) : Prop where
  bindable : t.IsBindable
  operands : ∀ w ∈ t.operands, w.FitsField row params t.field

theorem Term.lateFits_of_ofExpr? {e : Expr} {t : Term} {v : Value}
    (hrow : ∀ a ∈ row, a.isDouble = false) (hparams : ∀ p ∈ params, p.isDouble = false)
    (he : e.isExact = true) (hcondition : e.isCondition = true)
    (heval : e.eval row params = .ok v) (h : Term.ofExpr? e = some t) :
    t.LateFits row params := by
  unfold Term.ofExpr? at h
  split at h
  · rename_i c hc
    obtain ⟨w, hw, rfl⟩ := Option.map_eq_some_iff.mp h
    obtain ⟨hexact, hfits⟩ := FieldComparison.fitsField hrow hparams he hc hw heval
    refine ⟨⟨kind_ofComparison _ _ _, ?_⟩, ?_⟩
    · rw [operands_ofComparison]
      exact List.forall_mem_singleton.mpr hexact
    · rw [operands_ofComparison, field_ofComparison]
      exact List.forall_mem_singleton.mpr hfits
  · split at h
    · obtain rfl := Option.some.inj h
      exact ⟨⟨fun h => (by cases h), fun w hw => (by cases hw)⟩, fun w hw => by cases hw⟩
    · obtain rfl := Option.some.inj h
      exact ⟨⟨fun h => (by cases h), fun w hw => (by cases hw)⟩, fun w hw => by cases hw⟩
    · cases hcondition
    · cases h

/-- The parameter that a term compares with by `=` or `<>`. -/
def Term.equated? : Term → Option Nat
  | .eq _ w | .ne _ w => w.param?
  | _ => none

theorem Term.equates_of_ofExpr? {e : Expr} {t : Term} {i : Nat} (he : e.isExact = true)
    (h : Term.ofExpr? e = some t) (hi : t.equated? = some i) : e.Equates i := by
  unfold Term.ofExpr? at h
  split at h
  · rename_i c hc
    obtain ⟨w, hw, rfl⟩ := Option.map_eq_some_iff.mp h
    have hop : (c.op = .eq ∨ c.op = .ne) ∧ w = .param i := by
      cases hop : c.op <;> rw [hop] at hi <;> first
        | exact ⟨by simp, TermValue.param?_eq_some.mp hi⟩
        | cases hi
    obtain ⟨u, hoperand⟩ : ∃ u, c.operand = .param i u := by
      rw [hop.2] at hw
      unfold TermValue.ofExpr? at hw
      split at hw
      · split at hw <;> cases hw
      · rename_i j u heq
        cases hw
        exact ⟨u, heq⟩
      · cases hw
    obtain ⟨t, u', ⟨left, -, rfl⟩ | ⟨op, right, -, hreverse, rfl⟩⟩ :=
      FieldComparison.ofExpr?_eq_some he hc
    · exact ⟨c.op, _, t, u, hop.1, by simp [hoperand], .self⟩
    · have hop' : op = .eq ∨ op = .ne := by
        have hreversed := hop.1
        rw [hreverse] at hreversed
        revert hreversed
        cases op <;> decide
      exact ⟨op, _, t, u, hop', by simp [hoperand], .self⟩
  · split at h <;> first
      | cases h; done
      | (cases h; cases hi)

/-! ### Terms after binding -/

theorem TermValue.FitsField.exists_bound {i : Nat} {w : TermValue} {a : Value}
    (h : w.FitsField row params i) (ha : row[i]? = some a) :
    ∃ b, w.read params = some b ∧ b.isDouble = false ∧ w.json.bindParams params = b.json ∧
      (a.isNull = false → b.isNull = false → a.dataType = b.dataType) := by
  obtain ⟨b, hread, hb, htype⟩ := h
  exact ⟨b, hread, hb, bindParams_json hb hread, htype a ha⟩

theorem Value.eq_null_of_isNull {a : Value} (h : a.isNull = true) : a = .null := by
  cases a <;> first | rfl | cases h

section

variable {a b : Value} {i : Nat} {w : TermValue}

/-- A bound equality or exclusion tests for `NULL` when its parameter is `NULL`. -/
theorem Term.late_of_isNull (hread : w.read params = some b) (hnull : b.isNull = true) :
    (Term.eq i w).late params = .isNull i ∧ (Term.ne i w).late params = .isNotNull i := by
  simp [late, TermValue.readsNull, hread, hnull]

theorem Term.late_of_present (hread : w.read params = some b) (hnull : b.isNull = false) :
    (Term.eq i w).late params = .eq i w ∧ (Term.ne i w).late params = .ne i w := by
  simp [late, TermValue.readsNull, hread, hnull]

theorem Term.satisfied_late_eq (ha : row[i]? = some a) (hdouble : a.isDouble = false)
    (hw : w.FitsField row params i) :
    a.json.same (w.json.bindParams params) = true ↔
      ((Term.eq i w).late params).satisfied row params = true := by
  obtain ⟨b, hread, hb, hbound, htype⟩ := hw.exists_bound ha
  rw [hbound]
  cases hnull : b.isNull with
  | true =>
    rw [(late_of_isNull hread hnull).1, Value.eq_null_of_isNull hnull]
    simpa [satisfied, ha, Value.json] using Value.json_eq_null_iff_of_exact hdouble
  | false =>
    rw [(late_of_present hread hnull).1, satisfied, ha, hread,
      Comparison.satisfied_eq_same hb hnull fun h => htype h hnull]

theorem Term.satisfied_late_ne (ha : row[i]? = some a) (hdouble : a.isDouble = false)
    (hw : w.FitsField row params i) :
    a.json.same (w.json.bindParams params) = false ∧ a.json.same .null = false ↔
      ((Term.ne i w).late params).satisfied row params = true := by
  obtain ⟨b, hread, hb, hbound, htype⟩ := hw.exists_bound ha
  have hpresent : a.json.same .null = false ↔ a.isNull = false := by
    rw [← Bool.not_eq_true, Json.same_null_iff, Value.json_eq_null_iff_of_exact hdouble,
      Bool.not_eq_true]
  rw [hbound, hpresent]
  cases hnull : b.isNull with
  | true =>
    rw [(late_of_isNull hread hnull).2, Value.eq_null_of_isNull hnull, Value.json, hpresent]
    simp [satisfied, ha]
  | false =>
    rw [(late_of_present hread hnull).2, satisfied, ha, hread,
      Comparison.satisfied_ne_same hb hnull fun h => htype h hnull, and_comm]

theorem Bound.satisfied_late (isLower : Bool) {o : Option Bound} (ha : row[i]? = some a)
    (ho : ∀ e, o = some e → e.value.FitsField row params i) :
    (∀ e, o = some e →
      (a.json.order? (e.value.json.bindParams params)).any (e.test isLower).holds = true) ↔
      o.all (Bound.satisfied isLower row params i) = true := by
  cases o with
  | none => simp
  | some e =>
    obtain ⟨b, hread, hb, hbound, htype⟩ := (ho e rfl).exists_bound ha
    simp only [Option.some.injEq, forall_eq', Option.all_some, Bound.satisfied, ha, hread, hbound,
      Value.order?_json_of_present hb htype, Comparison.satisfied]

/-- A document store with the parameters bound evaluates the late term. -/
theorem Document.termHolds_iff_late {t : Term} (ha : row[t.field]? = some a)
    (hdouble : a.isDouble = false) (hfits : t.LateFits row params) :
    (TermHolds params a.json t ∧ ((∃ i v, t = .ne i v) → a.json.same .null = false)) ↔
      (t.late params).satisfied row params = true := by
  have hvalue (i : Nat) (hi : t.field = i) : row[i]? = some a := hi ▸ ha
  cases t with
  | eq i w =>
    rw [← Term.satisfied_late_eq (hvalue i rfl) hdouble (hfits.operands w (by simp [Term.operands]))]
    simp [TermHolds]
  | ne i w =>
    rw [← Term.satisfied_late_ne (hvalue i rfl) hdouble (hfits.operands w (by simp [Term.operands]))]
    simp [TermHolds]
  | range i lower upper =>
    change _ ↔ (Term.range i lower upper).satisfied row params = true
    rw [Term.satisfied, Bool.and_eq_true,
      ← Bound.satisfied_late true (hvalue i rfl), ← Bound.satisfied_late false (hvalue i rfl)]
    · simp [TermHolds]
    · rintro e rfl
      exact hfits.operands e.value (List.mem_map_of_mem (List.mem_append_right _ (by simp)))
    · rintro e rfl
      exact hfits.operands e.value (List.mem_map_of_mem (List.mem_append_left _ (by simp)))
  | isNull i =>
    simp [TermHolds, Term.late, Term.satisfied, hvalue i rfl, Value.json_eq_null_iff_of_exact hdouble]
  | isNotNull i =>
    simp [TermHolds, Term.late, Term.satisfied, hvalue i rfl, ← Bool.not_eq_true,
      Value.json_eq_null_iff_of_exact hdouble]
  | like i pattern => exact absurd rfl hfits.bindable.noPattern

/-- No row is lost by binding late. -/
theorem Term.late_of_satisfied {t : Term} (h : t.satisfied row params = true) :
    (t.late params).satisfied row params = true := by
  have hpresent {c : Comparison} {i : Nat} {w : TermValue}
      (hc : c.satisfied row[i]? (w.read params) = true) : w.readsNull params = false := by
    obtain ⟨a, b, o, -, hread, -, hb, -, -⟩ := (Comparison.satisfied_iff _ _ _).mp hc
    simp [TermValue.readsNull, hread, hb]
  cases t with
  | eq i w =>
    rw [late, hpresent h]
    exact h
  | ne i w =>
    rw [late, hpresent h]
    exact h
  | _ => exact h

/-- Nothing changes unless an equality or an exclusion reads `NULL`. -/
theorem Term.late_eq_self {t : Term} (hliteral : ∀ v, .literal v ∈ t.operands → v.isNull = false)
    (hparam : ∀ i, t.equated? = some i → ∀ p, params[i]? = some p → p.isNull = false) :
    t.late params = t := by
  have hpresent {w : TermValue} (hw : w ∈ t.operands) (hequated : t.equated? = w.param?) :
      w.readsNull params = false := by
    cases w with
    | literal v => exact hliteral v hw
    | param i =>
      rw [TermValue.readsNull, TermValue.read]
      cases hp : params[i]? with
      | none => rfl
      | some p => exact hparam i hequated p hp
  cases t with
  | eq i w =>
    rw [late, hpresent (List.mem_singleton_self w) rfl]
    rfl
  | ne i w =>
    rw [late, hpresent (List.mem_singleton_self w) rfl]
    rfl
  | _ => rfl

end

/-! ### Filters with bound parameters -/

theorem Term.endwise_of_range {A : Term → Prop} (h : ∀ i lower upper, A (.range i lower upper)) :
    Term.Endwise A where
  lower _ := h _ _ _
  upper _ := h _ _ _
  join _ _ _ := h _ _ _

/-- The terms of a split condition fit the row, and compare only with parameters that
    the condition compares with. -/
theorem FilterPlan.make_lateFits {e : Expr} {ctx : PushContext} {support : FilterSupport}
    {accept : Term → Bool} {plan : FilterPlan} (hplan : make e ctx support accept = .ok plan)
    (hcondition : e.isCondition = true) (hexact : e.isExact = true)
    (hrow : ∀ a ∈ row, a.isDouble = false) (hparams : ∀ p ∈ params, p.isDouble = false) {v : Value}
    (heval : e.eval row params = .ok v) : ∀ terms ∈ plan.branches, ∀ t ∈ terms,
      t.LateFits row params ∧ ∀ i, t.equated? = some i → e.Equates i := by
  intro terms hterms t ht
  rw [(make_eq_ok hplan).1, List.map_map] at hterms
  obtain ⟨conjuncts, hconjuncts, rfl⟩ := List.mem_map.mp hterms
  have hfits := Term.endwise_of_operands (fun _ => True)
    fun i w => w.isExact = true ∧ w.FitsField row params i
  have hkinds : Term.Endwise fun t =>
      t.kind ≠ .pattern ∧ ∀ i, t.equated? = some i → e.Equates i := by
    apply Term.endwise_of_range
    intro i lower upper
    constructor
    · intro h
      cases h
    · intro j h
      cases h
  have husable : ∀ c ∈ conjuncts, ∀ t, usable? ctx support accept c = some t →
      (True ∧ t.IsEnded ∧ ∀ w ∈ t.operands, w.isExact = true ∧ w.FitsField row params t.field) ∧
        t.kind ≠ .pattern ∧ ∀ i, t.equated? = some i → e.Equates i := by
    intro c hc t hu
    have hterm : Term.ofExpr? c = some t := (Option.filter_eq_some_iff.mp hu).1
    have hc' := Expr.isExact_of_mem_branches hexact hconjuncts hc
    obtain ⟨hconjunct, w, hw⟩ := Expr.isCondition_of_mem_branches hconjuncts hc hcondition heval
    have hlate := Term.lateFits_of_ofExpr? hrow hparams hc' hconjunct hw hterm
    refine ⟨⟨trivial, Term.isEnded_of_ofExpr? hterm, fun w hw => ?_⟩, hlate.bindable.noPattern, ?_⟩
    · exact ⟨hlate.bindable.exact w hw, hlate.operands w hw⟩
    · intro i hi
      obtain ⟨comparison, operands, t, u, hop, hmem, hoccurs⟩ := Term.equates_of_ofExpr? hc' hterm hi
      have hinside := hoccurs.trans (Expr.occursIn_of_mem_branches hconjuncts hc)
      exact ⟨comparison, operands, t, u, hop, hmem, hinside⟩
  obtain ⟨⟨-, -, hoperands⟩, hkind, hequates⟩ := analyse_every (hfits.and hkinds) husable ht
  exact ⟨⟨⟨hkind, fun w hw => (hoperands w hw).1⟩, fun w hw => (hoperands w hw).2⟩, hequates⟩

namespace Document

variable {ctx : PushContext}

theorem accepts_bound_query {branches : List (List Term)} (doc : Json.Members) :
    accepts doc ((query ctx branches).bindParams params) = true ↔
      ∃ terms ∈ branches, accepts doc ((branch ctx terms).bindParams params) = true := by
  unfold query
  split
  · simp
  · have hunbound : ∀ p ∈ [("$or", Json.array (branches.map (branch ctx)))], p.1 ≠ "$param" := by
      simp
    rw [Json.single, Json.bindParams_object hunbound, List.map_singleton, Json.bindParams_array,
      List.map_map]
    exact (congrArg (· = true) (accepts_or doc _)).to_iff.trans (by simp)

/-- A query with its parameters bound matches the document of a row that satisfies the
    late terms of a branch. -/
theorem accepts_bound_query_iff {e : Expr} {support : FilterSupport} {accept : Term → Bool}
    {plan : FilterPlan} (hplan : FilterPlan.make e ctx support accept = .ok plan)
    (hnames : ctx.names.Nodup) (hdollar : ∀ name ∈ ctx.names, name.toList.head? ≠ some '$')
    (hlength : row.length = ctx.names.length) (hrow : ∀ a ∈ row, a.isDouble = false)
    (hfits : ∀ terms ∈ plan.branches, ∀ t ∈ terms, t.LateFits row params) :
    accepts (holding ctx row) ((query ctx plan.branches).bindParams params) = true ↔
      ∃ terms ∈ plan.branches, ∀ t ∈ terms, (t.late params).satisfied row params = true := by
  rw [accepts_bound_query]
  refine exists_congr fun terms => and_congr_right fun hterms => ?_
  have hmerged := FilterPlan.make_mergedTerms hplan hterms
  rw [accepts_bound_branch hnames hdollar hmerged fun t ht => (hfits terms hterms t ht).bindable,
    forall_mem_nullTests fun i => (Json.lookup (ctx.name i) (holding ctx row)).getD .null]
  refine forall₂_congr fun t ht => ?_
  obtain ⟨a, ha⟩ := hmerged.exists_value ht hlength
  rw [lookup_holding hnames hlength (hmerged.named t ht) ha, Option.getD_some]
  exact termHolds_iff_late ha (hrow a (List.mem_of_getElem? ha)) (hfits terms hterms t ht)

/-- The executor returns a row: the native query, with the parameters in the place of
    their placeholders, matches the document of the row, and the row passes the residual. -/
def Returns (p : Pushdown) (ctx : PushContext) (row params : List Value) : Prop :=
  (∃ native j, p.native? = some native ∧ native.body = .json j ∧
    accepts (holding ctx row) (j.bindParams params) = true) ∧
  ∀ r, p.residual? = some r → r.eval row params = .ok (.bool true)

theorem returns_iff {e : Expr} {plan : FilterPlan}
    (hplan : FilterPlan.make e ctx support (fun _ => true) = .ok plan) :
    Returns (filter e ctx) ctx row params ↔
      accepts (holding ctx row) ((query ctx plan.branches).bindParams params) = true ∧
        ∀ r, plan.residual = some r → r.eval row params = .ok (.bool true) := by
  unfold filter pushFilter
  rw [hplan]
  cases hresidual : plan.residual <;> simp [Returns, Pushdown.native?, Pushdown.residual?, hresidual]

theorem exists_plan_of_filter {e : Expr} (h : (filter e ctx).isRefused = false) :
    ∃ plan, FilterPlan.make e ctx support (fun _ => true) = .ok plan := by
  unfold filter pushFilter at h
  cases hplan : FilterPlan.make e ctx support fun _ => true with
  | error reason =>
    rw [hplan] at h
    cases h
  | ok plan => exact ⟨plan, rfl⟩

/-- The rows on which a condition is `TRUE` are returned, and no others are, unless a
    parameter that the condition compares with by `=` or `<>` is `NULL`. -/
theorem late_binding {e : Expr} (hcondition : e.isCondition = true) (hexact : e.isExact = true)
    (hpushed : (filter e ctx).isRefused = false) (hnames : ctx.names.Nodup)
    (hdollar : ∀ name ∈ ctx.names, name.toList.head? ≠ some '$')
    (hlength : row.length = ctx.names.length) (hrow : ∀ a ∈ row, a.isDouble = false)
    (hparams : ∀ p ∈ params, p.isDouble = false) {v : Value} (heval : e.eval row params = .ok v) :
    (v = .bool true → Returns (filter e ctx) ctx row params) ∧
      ((∀ i, e.Equates i → ∀ p, params[i]? = some p → p.isNull = false) →
        (Returns (filter e ctx) ctx row params ↔ v = .bool true)) := by
  obtain ⟨plan, hplan⟩ := exists_plan_of_filter hpushed
  have hfits := FilterPlan.make_lateFits hplan hcondition hexact hrow hparams heval
  have htruth : ∀ b ∈ e.branches, ∀ c ∈ b, c.HasTruth row params := by
    intro b hb c hc
    obtain ⟨hconjunct, w, hw⟩ := Expr.isCondition_of_mem_branches hb hc hcondition heval
    exact Expr.hasTruth_of_isCondition hconjunct hw
  have hkept := ((FilterPlan.make_keeps_rows hplan).1 row params hexact hrow hparams htruth).1
  rw [heval, Except.ok.injEq] at hkept
  have haccepts := accepts_bound_query_iff hplan hnames hdollar hlength hrow
    fun terms hterms t ht => (hfits terms hterms t ht).1
  rw [returns_iff hplan, haccepts, hkept]
  constructor
  · rintro ⟨⟨terms, hterms, hall⟩, hresidual⟩
    exact ⟨⟨terms, hterms, fun t ht => Term.late_of_satisfied (hall t ht)⟩, hresidual⟩
  · intro hpresent
    refine and_congr_left fun _ => exists_congr fun terms => and_congr_right fun hterms => ?_
    have hmerged := FilterPlan.make_mergedTerms hplan hterms
    refine forall₂_congr fun t ht => ?_
    rw [Term.late_eq_self (hmerged.present t ht)
      fun i hi => hpresent i ((hfits terms hterms t ht).2 i hi)]

/-- An exclusion of a parameter beside one of a literal, and a test for `NULL`. -/
def lateBranches : Expr :=
  let x := Expr.field 0 .bigint
  let y := Expr.field 1 .string
  .apply .or [
    .apply .and [.apply (.compare .ne) [x, .param 0 .bigint],
      .apply (.compare .ne) [x, .lit (.bigint 5)],
      .apply (.compare .eq) [y, .lit (.string "a")]],
    .apply .isNull [y]]

theorem late_binding_lateBranches :
    let ctx : PushContext := { names := ["x", "y"] }
    (filter lateBranches ctx).isRefused = false ∧
      Returns (filter lateBranches ctx) ctx [.bigint 6, .string "a"] [.bigint 4] ∧
      ¬Returns (filter lateBranches ctx) ctx [.bigint 4, .string "a"] [.bigint 4] := by
  intro ctx
  have hpushed : (filter lateBranches ctx).isRefused = false := rfl
  have hpresent : ∀ i, lateBranches.Equates i → ∀ p, [Value.bigint 4][i]? = some p →
      p.isNull = false := by
    intro i _ p hp
    rw [List.mem_singleton.mp (List.mem_of_getElem? hp)]
    rfl
  have hsix := (late_binding rfl rfl hpushed (by decide) (by decide) rfl (by decide) (by decide)
    (show lateBranches.eval [.bigint 6, .string "a"] [.bigint 4] = .ok (.bool true) from rfl)).1
  have hfour := (late_binding rfl rfl hpushed (by decide) (by decide) rfl (by decide) (by decide)
    (show lateBranches.eval [.bigint 4, .string "a"] [.bigint 4] = .ok (.bool false) from rfl)).2
  refine ⟨hpushed, hsix rfl, fun hreturns => ?_⟩
  have hfalse := (hfour hpresent).mp hreturns
  cases hfalse

/-- The condition `x = ?0` on a field and a parameter that are both `NULL`: the query asks
    for null and finds it. -/
theorem returns_null_parameter :
    let ctx : PushContext := { names := ["x"] }
    let e := Expr.apply (.compare .eq) [.field 0 .bigint, .param 0 .bigint]
    e.isCondition = true ∧ e.isExact = true ∧ e.eval [.null] [.null] = .ok .null ∧
      Returns (filter e ctx) ctx [.null] [.null] := by
  intro ctx e
  refine ⟨rfl, rfl, rfl, ⟨_, _, rfl, rfl, ?_⟩, fun r hr => by cases hr⟩
  decide +kernel

end Document

end

end Polystore
