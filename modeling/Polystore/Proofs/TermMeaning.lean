import Polystore.Proofs.Truth
import Polystore.Proofs.ValueOrder
import Polystore.Pushdown.Term

/-
  Polystore/Proofs/TermMeaning.lean
  =================================
  **What a term says about a row.**  A term is satisfied by a row and a list of
  parameters or it is not; there is no third answer.  Apart from the tests for
  `NULL`, it is satisfied only when neither its field nor its right-hand side is
  `NULL`.  The main statement, `Term.satisfied_iff`, says that a conjunct from
  which a term was recognized is `TRUE` exactly on the rows that satisfy the
  term.  It speaks of expressions without doubles and casts: a cast around a
  field is looked through, and doubles have an order of their own.
-/

namespace Polystore

/-! ### Satisfaction -/

/-- The value of a right-hand side, if it is bound. -/
def TermValue.read (params : List Value) : TermValue → Option Value
  | literal v => some v
  | param i => params[i]?

/-- Whether a comparison holds of a field and a right-hand side.  Nothing compares
    with `NULL`. -/
def Comparison.satisfied (c : Comparison) (l r : Option Value) : Bool :=
  match l, r with
  | some l, some r => (l.compare? r).any c.holds
  | _, _ => false

/-- The comparison that a bound stands for. -/
def Bound.test (isLower : Bool) (b : Bound) : Comparison :=
  match isLower, b.inclusive with
  | true, true => .ge
  | true, false => .gt
  | false, true => .le
  | false, false => .lt

/-- Whether the field at an ordinal is inside a bound. -/
def Bound.satisfied (isLower : Bool) (row params : List Value) (field : Nat) (b : Bound) : Bool :=
  (b.test isLower).satisfied row[field]? (b.value.read params)

/-- Whether a row satisfies a term. -/
def Term.satisfied (row params : List Value) : Term → Bool
  | eq i v => Comparison.eq.satisfied row[i]? (v.read params)
  | ne i v => Comparison.ne.satisfied row[i]? (v.read params)
  | range i lower upper =>
    lower.all (Bound.satisfied true row params i) && upper.all (Bound.satisfied false row params i)
  | isNull i => row[i]?.any Value.isNull
  | isNotNull i => row[i]?.any (!·.isNull)
  | like i pattern =>
    match row[i]? with
    | some (.string s) => likeMatch s pattern
    | _ => false

/-- A comparison holds only of values that are not `NULL`. -/
theorem Comparison.satisfied_iff (c : Comparison) (l r : Option Value) :
    c.satisfied l r = true ↔
      ∃ a b o, l = some a ∧ r = some b ∧ a.isNull = false ∧ b.isNull = false ∧
        a.compare? b = some o ∧ c.holds o = true := by
  constructor
  · intro h
    match l, r, h with
    | some a, some b, h =>
      obtain ⟨o, ho, hc⟩ := (Option.any_eq_true _ _).mp h
      obtain ⟨ha, hb⟩ := Value.isNull_of_compare? ho
      exact ⟨a, b, o, rfl, rfl, ha, hb, ho, hc⟩
  · rintro ⟨a, b, o, rfl, rfl, -, -, ho, hc⟩
    simp [satisfied, ho, hc]

/-! ### Parameters -/

/-- A term reads a parameter when it stands on the right-hand side of the
    comparison or at one end of the range. -/
inductive Term.Reads : Term → Nat → Prop
  | eq {field i : Nat} : Reads (.eq field (.param i)) i
  | ne {field i : Nat} : Reads (.ne field (.param i)) i
  | lower {field i : Nat} {inclusive : Bool} {upper : Option Bound} :
    Reads (.range field (some ⟨.param i, inclusive⟩) upper) i
  | upper {field i : Nat} {inclusive : Bool} {lower : Option Bound} :
    Reads (.range field lower (some ⟨.param i, inclusive⟩)) i

theorem TermValue.param?_eq_some {v : TermValue} {i : Nat} :
    v.param? = some i ↔ v = .param i := by
  cases v <;> simp [param?]

/-- The parameters of a term are those that it reads. -/
theorem Term.mem_params_iff {t : Term} {i : Nat} : i ∈ t.params ↔ t.Reads i := by
  constructor
  · intro h
    cases t with
    | eq field v =>
      obtain rfl := TermValue.param?_eq_some.mp (Option.mem_toList.mp h)
      exact .eq
    | ne field v =>
      obtain rfl := TermValue.param?_eq_some.mp (Option.mem_toList.mp h)
      exact .ne
    | range field lower upper =>
      obtain ⟨⟨v, inclusive⟩, hb, hi⟩ := List.mem_filterMap.mp h
      obtain rfl := TermValue.param?_eq_some.mp hi
      rcases List.mem_append.mp hb with hb | hb
      · obtain rfl := Option.mem_toList.mp hb
        exact .lower
      · obtain rfl := Option.mem_toList.mp hb
        exact .upper
    | isNull _ => simp [params] at h
    | isNotNull _ => simp [params] at h
    | like _ _ => simp [params] at h
  · rintro (_ | _ | _ | _) <;> simp [params, TermValue.param?]

/-! ### Expressions without doubles and casts -/

/-- Whether neither a double nor a cast occurs. -/
def Expr.isExact : Expr → Bool
  | literal v _ => !v.isDouble
  | field .. | param .. => true
  | call op operands _ => op ≠ .cast && allExact operands
where
  allExact : List Expr → Bool
    | [] => true
    | e :: rest => isExact e && allExact rest

theorem Expr.allExact_iff (es : List Expr) :
    isExact.allExact es = true ↔ ∀ e ∈ es, e.isExact = true := by
  induction es with
  | nil => simp [isExact.allExact]
  | cons e es ih => simp [isExact.allExact, ih]

theorem Expr.OccursIn.isExact {e x : Expr} (h : x.OccursIn e) (he : e.isExact = true) :
    x.isExact = true := by
  induction h with
  | self => exact he
  | @operand op operands t y hy _ ih =>
    simp only [Expr.isExact, Bool.and_eq_true] at he
    exact ih ((allExact_iff operands).mp he.2 y hy)

theorem Expr.isExact_of_mem_branches {e c : Expr} {conjuncts : List Expr}
    (he : e.isExact = true) (hb : conjuncts ∈ e.branches) (hc : c ∈ conjuncts) :
    c.isExact = true :=
  (occursIn_of_mem_branches hb hc).isExact he

/-- Whether a right-hand side is not a double. -/
def TermValue.isExact : TermValue → Bool
  | literal v => !v.isDouble
  | param _ => true

/-- Terms as they are recognized: without doubles, and with one end if they are
    ranges. -/
inductive Term.IsSimple : Term → Prop
  | eq {i : Nat} {v : TermValue} : v.isExact = true → IsSimple (.eq i v)
  | ne {i : Nat} {v : TermValue} : v.isExact = true → IsSimple (.ne i v)
  | lower {i : Nat} {b : Bound} : b.value.isExact = true → IsSimple (.range i (some b) none)
  | upper {i : Nat} {b : Bound} : b.value.isExact = true → IsSimple (.range i none (some b))
  | isNull {i : Nat} : IsSimple (.isNull i)
  | isNotNull {i : Nat} : IsSimple (.isNotNull i)
  | like {i : Nat} {pattern : String} : IsSimple (.like i pattern)

section

variable {row params : List Value}

theorem TermValue.read_of_eval {e : Expr} {v : TermValue} {b : Value}
    (h : TermValue.ofExpr? e = some v) (he : e.eval row params = .ok b) :
    v.read params = some b := by
  match e with
  | .literal w t =>
    have hw : w = b := Except.ok.inj he
    by_cases hnull : w.isNull = true
    · simp [TermValue.ofExpr?, hnull] at h
    · simp only [TermValue.ofExpr?, hnull, Bool.false_eq_true, if_false, Option.some.injEq] at h
      subst h
      exact congrArg some hw
  | .param i t =>
    obtain rfl : TermValue.param i = v := Option.some.inj h
    simp only [Expr.eval] at he
    cases hp : params[i]? with
    | none => simp [hp, require] at he
    | some w => simpa [hp, require, TermValue.read] using he

theorem TermValue.isExact_of_ofExpr? {e : Expr} {v : TermValue}
    (h : TermValue.ofExpr? e = some v) (he : e.isExact = true) : v.isExact = true := by
  match e with
  | .literal w t =>
    by_cases hnull : w.isNull = true
    · simp [TermValue.ofExpr?, hnull] at h
    · simp only [TermValue.ofExpr?, hnull, Bool.false_eq_true, if_false, Option.some.injEq] at h
      subst h
      exact he
  | .param i t =>
    obtain rfl : TermValue.param i = v := Option.some.inj h
    rfl

theorem TermValue.read_isDouble {v : TermValue} {b : Value} (hv : v.isExact = true)
    (hparams : ∀ p ∈ params, p.isDouble = false) (h : v.read params = some b) :
    b.isDouble = false := by
  cases v with
  | literal w =>
    obtain rfl : w = b := Option.some.inj h
    simpa [TermValue.isExact] using hv
  | param i => exact hparams b (List.mem_of_getElem? h)

theorem getElem?_of_eval_field {i : Nat} {t : DataType} {a : Value}
    (h : (Expr.field i t).eval row params = .ok a) : row[i]? = some a := by
  simp only [Expr.eval] at h
  cases hi : row[i]? with
  | none => simp [hi, require] at h
  | some b => simpa [hi, require] using h

/-! ### Evaluating a conjunct -/

theorem Expr.eval_comparison_eq_ok {op : Comparison} {left right : Expr} {t : DataType}
    {v : Value} : (Expr.call (.compare op) [left, right] t).eval row params = .ok v ↔
      ∃ a b, left.eval row params = .ok a ∧ right.eval row params = .ok b ∧
        compareValues op a b = .ok v := by
  change (do applyValues (.compare op) (← eval.evalAll row params [left, right]) t) = _ ↔ _
  rw [except_bind_eq_ok]
  constructor
  · rintro ⟨vs, hvs, hv⟩
    obtain ⟨a, _, ha, hrest, rfl⟩ := List.forall₂_cons_left_iff.mp (evalAll_eq_ok.mp hvs)
    obtain ⟨b, _, hb, hnil, rfl⟩ := List.forall₂_cons_left_iff.mp hrest
    obtain rfl := List.forall₂_nil_left_iff.mp hnil
    exact ⟨a, b, ha, hb, hv⟩
  · rintro ⟨a, b, ha, hb, hv⟩
    exact ⟨[a, b], evalAll_eq_ok.mpr (.cons ha (.cons hb .nil)), hv⟩

/-- A comparison that does not fail compares the values of its sides. -/
theorem Expr.comparison_evaluates {op : Comparison} {left right : Expr} {t : DataType}
    (h : (Expr.call (.compare op) [left, right] t).HasTruth row params) :
    ∃ a b, left.eval row params = .ok a ∧ right.eval row params = .ok b ∧
      ((Expr.call (.compare op) [left, right] t).Is row params true ↔
        op.satisfied (some a) (some b) = true) := by
  rcases h with ⟨v, hv⟩
  obtain ⟨a, b, ha, hb, hcompared⟩ := eval_comparison_eq_ok.mp hv
  refine ⟨a, b, ha, hb, ?_⟩
  rw [Is, hv, ← hcompared]
  unfold compareValues Comparison.satisfied
  cases hcmp : a.compare? b with
  | none => split <;> simp [hcmp]
  | some o =>
    obtain ⟨hna, hnb⟩ := Value.isNull_of_compare? hcmp
    simp [hna, hnb, hcmp]

/-- A recognized comparison has a field on one side. -/
theorem FieldComparison.direct?_eq_some {op : Comparison} {side operand : Expr}
    {c : FieldComparison} (hside : side.isExact = true)
    (h : FieldComparison.direct? op side operand = some c) :
    ∃ i t, side = .field i t ∧ c = ⟨i, op, operand⟩ := by
  unfold FieldComparison.direct? at h
  split at h
  · match side, hside, h with
    | .field i t, _, h =>
      refine ⟨i, t, rfl, ?_⟩
      simpa [uncast?] using h.symm
    | .call op operands t, hside, h =>
      have hop : op ≠ .cast := by
        simp only [Expr.isExact, Bool.and_eq_true, decide_eq_true_eq] at hside
        exact hside.1
      cases op <;> simp [uncast?] at h hop
  · simp at h

/-- The two ways in which a comparison is recognized. -/
theorem FieldComparison.direct?_of_ofExpr? {e : Expr} {c : FieldComparison}
    (h : ofExpr? e = some c) :
    ∃ op left right t, e = .call (.compare op) [left, right] t ∧
      (direct? op left right = some c ∨ direct? op.reverse right left = some c) := by
  unfold ofExpr? at h
  split at h
  · rename_i op left right t
    refine ⟨op, left, right, t, rfl, ?_⟩
    cases hd : direct? op left right with
    | none =>
      rw [hd] at h
      exact .inr h
    | some d =>
      rw [hd] at h
      exact .inl h
  · cases h

theorem Expr.asLiteral?_eq_some {e : Expr} {v : Value} (h : e.asLiteral? = some v) :
    ∃ t, e = .literal v t := by
  cases e with
  | literal w t => exact ⟨t, by rw [Option.some.inj h]⟩
  | _ => cases h

/-- How the field compared by a side sees the operand: as it is, or as the integer
    that is meant where the field is widened to a double. -/
inductive FieldComparison.Uncast (i : Nat) (operand : Expr) : Expr → Expr → Prop
  | field {t : DataType} : Uncast i operand (.field i t) operand
  | sameType {t : DataType} : Uncast i operand (.call .cast [.field i t] t) operand
  | widened {w : Value} {n : Int64} (hoperand : operand.asLiteral? = some w)
    (hexact : exactInteger? w = some n) :
    Uncast i operand (.call .cast [.field i .bigint] .double) (.lit (.bigint n))

theorem FieldComparison.uncast_of_direct? {op : Comparison} {side operand : Expr}
    {c : FieldComparison} (h : direct? op side operand = some c) :
    c.op = op ∧ Uncast c.field operand side c.operand := by
  unfold direct? at h
  split at h
  · obtain ⟨⟨i, value⟩, huncast, rfl⟩ := Option.map_eq_some_iff.mp h
    refine ⟨rfl, ?_⟩
    unfold uncast? at huncast
    split at huncast
    · obtain ⟨rfl, rfl⟩ := Prod.mk.inj (Option.some.inj huncast)
      exact .field
    · rename_i j source target
      split at huncast
      · rename_i hsame
        obtain ⟨rfl, rfl⟩ := Prod.mk.inj (Option.some.inj huncast)
        exact hsame ▸ .sameType
      · split at huncast
        · rename_i hwidens
          obtain ⟨rfl, rfl⟩ := hwidens
          obtain ⟨w, hw, hrest⟩ := Option.bind_eq_some_iff.mp huncast
          obtain ⟨n, hexact, hsome⟩ := Option.bind_eq_some_iff.mp hrest
          obtain ⟨rfl, rfl⟩ := Prod.mk.inj (Option.some.inj hsome)
          exact .widened hw hexact
        · cases huncast
    · cases huncast
  · cases h

theorem FieldComparison.ofExpr?_eq_some {e : Expr} {c : FieldComparison}
    (he : e.isExact = true) (h : FieldComparison.ofExpr? e = some c) :
    ∃ t u, (∃ left, left = .field c.field u ∧ e = .call (.compare c.op) [left, c.operand] t) ∨
      (∃ op right, right = .field c.field u ∧ c.op = op.reverse ∧
        e = .call (.compare op) [c.operand, right] t) := by
  obtain ⟨op, left, right, t, rfl, hd⟩ := direct?_of_ofExpr? h
  simp only [Expr.isExact, Expr.isExact.allExact, Bool.and_eq_true] at he
  rcases hd with hd | hd
  · obtain ⟨i, u, hi, rfl⟩ := direct?_eq_some he.2.1 hd
    exact ⟨t, u, .inl ⟨left, hi, rfl⟩⟩
  · obtain ⟨i, u, hi, rfl⟩ := direct?_eq_some he.2.2.1 hd
    exact ⟨t, u, .inr ⟨op, right, hi, rfl, rfl⟩⟩

theorem Comparison.satisfied_reverse (c : Comparison) {a b : Value}
    (ha : a.isDouble = false) (hb : b.isDouble = false) :
    c.reverse.satisfied (some b) (some a) = c.satisfied (some a) (some b) := by
  simp only [Comparison.satisfied, Value.compare?_swap ha hb]
  cases a.compare? b with
  | none => rfl
  | some o => exact holds_reverse c o

theorem Term.satisfied_ofComparison (i : Nat) (op : Comparison) (v : TermValue) :
    (Term.ofComparison i op v).satisfied row params = op.satisfied row[i]? (v.read params) := by
  cases op <;> simp [Term.ofComparison, Term.satisfied, Bound.satisfied, Bound.test]

theorem Term.isSimple_ofComparison (i : Nat) (op : Comparison) {v : TermValue}
    (hv : v.isExact = true) : (Term.ofComparison i op v).IsSimple := by
  cases op with
  | eq => exact .eq hv
  | ne => exact .ne hv
  | lt => exact .upper hv
  | le => exact .upper hv
  | gt => exact .lower hv
  | ge => exact .lower hv

/-- A recognized comparison is `TRUE` on the rows that satisfy its term. -/
theorem FieldComparison.satisfied_iff {e : Expr} {c : FieldComparison} {v : TermValue}
    (hrow : ∀ a ∈ row, a.isDouble = false) (hparams : ∀ p ∈ params, p.isDouble = false)
    (he : e.isExact = true) (hc : FieldComparison.ofExpr? e = some c)
    (hv : TermValue.ofExpr? c.operand = some v) (htruth : e.HasTruth row params) :
    v.isExact = true ∧
      (e.Is row params true ↔ (Term.ofComparison c.field c.op v).satisfied row params = true) := by
  rw [Term.satisfied_ofComparison]
  obtain ⟨t, u, ⟨left, rfl, rfl⟩ | ⟨op, right, rfl, hop, rfl⟩⟩ := ofExpr?_eq_some he hc
  · simp only [Expr.isExact, Expr.isExact.allExact, Bool.and_eq_true] at he
    refine ⟨TermValue.isExact_of_ofExpr? hv he.2.2.1, ?_⟩
    obtain ⟨a, b, ha, hb, hiff⟩ := Expr.comparison_evaluates htruth
    rw [hiff, getElem?_of_eval_field ha, TermValue.read_of_eval hv hb]
  · simp only [Expr.isExact, Expr.isExact.allExact, Bool.and_eq_true] at he
    have hexact := TermValue.isExact_of_ofExpr? hv he.2.1
    refine ⟨hexact, ?_⟩
    obtain ⟨b, a, hb, ha, hiff⟩ := Expr.comparison_evaluates htruth
    have hread := TermValue.read_of_eval hv hb
    have hfield := getElem?_of_eval_field ha
    rw [hiff, hread, hfield, hop, Comparison.satisfied_reverse op
      (TermValue.read_isDouble hexact hparams hread) (hrow a (List.mem_of_getElem? hfield))]

/-- The operand of a unary call that does not fail has a value. -/
theorem Expr.eval_single {op : Operator} {e : Expr} {t : DataType}
    (h : (Expr.call op [e] t).HasTruth row params) :
    ∃ a, e.eval row params = .ok a ∧
      (Expr.call op [e] t).eval row params = applyValues op [a] t := by
  rcases h with ⟨v, hv⟩
  simp only [Expr.eval, Expr.eval.evalAll] at hv ⊢
  cases he : e.eval row params with
  | error err => simp [he, bind, Except.bind] at hv
  | ok a => exact ⟨a, rfl, rfl⟩

theorem Expr.like_evaluates {i : Nat} {u t t' : DataType} {pattern : String}
    (h : (Expr.call .like [.field i u, .literal (.string pattern) t'] t).HasTruth row params) :
    (Expr.call .like [.field i u, .literal (.string pattern) t'] t).Is row params true ↔
      (Term.like i pattern).satisfied row params = true := by
  rcases h with ⟨v, hv⟩
  simp only [Expr.eval, Expr.eval.evalAll, Is, Term.satisfied] at hv ⊢
  cases hi : row[i]? with
  | none => simp [hi, require, bind, Except.bind] at hv
  | some a =>
    simp only [hi, require, bind, Except.bind, pure, Except.pure, applyValues, pair,
      likeValues] at hv ⊢
    cases a <;> simp at hv ⊢

/-- A conjunct is `TRUE` exactly on the rows that satisfy its term. -/
theorem Term.satisfied_iff {e : Expr} {t : Term}
    (hrow : ∀ a ∈ row, a.isDouble = false) (hparams : ∀ p ∈ params, p.isDouble = false)
    (he : e.isExact = true) (h : Term.ofExpr? e = some t) (htruth : e.HasTruth row params) :
    t.IsSimple ∧ (e.Is row params true ↔ t.satisfied row params = true) := by
  unfold Term.ofExpr? at h
  split at h
  · rename_i c hc
    obtain ⟨v, hv, rfl⟩ := Option.map_eq_some_iff.mp h
    obtain ⟨hexact, hiff⟩ := FieldComparison.satisfied_iff hrow hparams he hc hv htruth
    exact ⟨isSimple_ofComparison _ _ hexact, hiff⟩
  · split at h
    · obtain rfl := Option.some.inj h
      obtain ⟨a, ha, heval⟩ := Expr.eval_single htruth
      refine ⟨.isNull, ?_⟩
      rw [Expr.Is, heval, Term.satisfied, getElem?_of_eval_field ha]
      simp [Expr.applyValues, Expr.single, bind, Except.bind, pure, Except.pure]
    · obtain rfl := Option.some.inj h
      obtain ⟨a, ha, heval⟩ := Expr.eval_single htruth
      refine ⟨.isNotNull, ?_⟩
      rw [Expr.Is, heval, Term.satisfied, getElem?_of_eval_field ha]
      simp [Expr.applyValues, Expr.single, bind, Except.bind, pure, Except.pure]
    · obtain rfl := Option.some.inj h
      exact ⟨.like, Expr.like_evaluates htruth⟩
    · simp at h

end

end Polystore
