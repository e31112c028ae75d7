import Polystore.Expr.Branches
import Polystore.Expr.Eval
import Polystore.Proofs.Outcomes

/-
  Polystore/Proofs/Truth.lean
  ===========================
  **When a condition is `TRUE`.**  A condition keeps a row only when it is
  `TRUE`; `FALSE` and `NULL` drop it alike.  A conjunction is `TRUE` when all its
  conjuncts are, and a disjunction when some disjunct is, no matter how many of
  the others are `NULL` (`connective_evaluates`).  This passes through nested
  connectives, so a condition is `TRUE` exactly when all conjuncts of one of its
  branches are (`is_true_iff_branch`).
-/

namespace Polystore.Expr

/-- Induction on expressions: a call may assume the property of its operands. -/
@[elab_as_elim]
theorem operandInduction {motive : Expr → Prop}
    (literal : ∀ v t, motive (.literal v t))
    (field : ∀ i t, motive (.field i t))
    (param : ∀ i t, motive (.param i t))
    (call : ∀ op operands t, (∀ e ∈ operands, motive e) → motive (.call op operands t))
    (e : Expr) : motive e :=
  @Expr.rec motive (fun es => ∀ e ∈ es, motive e)
    literal field param call
    (fun _ h => nomatch h)
    (fun _ _ hhead htail e he =>
      (List.mem_cons.mp he).elim (fun h => h ▸ hhead) (htail e))
    e

section

variable (row params : List Value)

/-- The expression is `TRUE`, `FALSE` or `NULL` on the row. -/
def HasTruth (e : Expr) : Prop := ∃ t, e.eval row params = .ok (ofTruth t)

/-- The expression has the truth value `b` on the row. -/
def Is (b : Bool) (e : Expr) : Prop := e.eval row params = .ok (.bool b)

end

variable {row params : List Value}

theorem HasTruth.of_is {b : Bool} {e : Expr} (h : e.Is row params b) : e.HasTruth row params :=
  ⟨some b, h⟩

theorem ofTruth_injective {s t : Option Bool} (h : ofTruth s = ofTruth t) : s = t := by
  cases s <;> cases t <;> simp_all [ofTruth]

/-- What the truth value is decides which of `TRUE` and `FALSE` the expression
    is. -/
theorem is_iff {e : Expr} {t : Option Bool} (h : e.eval row params = .ok (ofTruth t)) (b : Bool) :
    e.Is row params b ↔ t = some b := by
  unfold Is
  rw [h]
  constructor
  · intro heq
    exact ofTruth_injective (t := some b) (Except.ok.inj heq)
  · rintro rfl
    rfl

theorem eval_field {i : Nat} {t : DataType} {v : Value} (h : row[i]? = some v) :
    (field i t).eval row params = .ok v := by
  rw [eval, h, require]

theorem eval_field_missing {i : Nat} {t : DataType} (h : row[i]? = none) :
    (field i t).eval row params = .error (fieldMissing i row.length) := by
  rw [eval, h, require]

theorem evalAll_eq_mapM (es : List Expr) :
    eval.evalAll row params es = es.mapM (eval row params) := by
  induction es with
  | nil => rfl
  | cons e es ih => rw [eval.evalAll, List.mapM_cons, ih]

/-- The operands evaluate to the values, one by one. -/
theorem evalAll_eq_ok {es : List Expr} {vs : List Value} :
    eval.evalAll row params es = .ok vs ↔
      List.Forall₂ (fun e v => e.eval row params = .ok v) es vs := by
  rw [evalAll_eq_mapM, mapM_eq_ok]

/-! ### Connectives -/

/-- The truth value of a connective from those of its operands: the decisive one
    wins, then `NULL`. -/
def settle (decisive sawNull : Bool) (ts : List (Option Bool)) : Option Bool :=
  if some decisive ∈ ts then some decisive
  else if sawNull ∨ none ∈ ts then none
  else some !decisive

theorem connect_ofTruth (decisive sawNull : Bool) (ts : List (Option Bool)) :
    connect decisive sawNull (ts.map ofTruth) = .ok (ofTruth (settle decisive sawNull ts)) := by
  induction ts generalizing sawNull with
  | nil => cases sawNull <;> rfl
  | cons t ts ih =>
    cases t with
    | none =>
      have hnull : settle decisive true ts = settle decisive sawNull (none :: ts) := by
        simp [settle]
      rw [← hnull, ← ih true]
      rfl
    | some b =>
      by_cases hb : b = decisive
      · have hsettle : settle decisive sawNull (some b :: ts) = some decisive := by
          simp [settle, hb]
        rw [hsettle]
        simp [connect, ofTruth, truth, hb, bind, Except.bind]
      · have hsettle : settle decisive sawNull (some b :: ts) = settle decisive sawNull ts := by
          simp [settle, Ne.symm hb]
        rw [hsettle, ← ih sawNull]
        simp [connect, ofTruth, truth, hb, bind, Except.bind]

theorem settle_eq_decisive (decisive : Bool) (ts : List (Option Bool)) :
    settle decisive false ts = some decisive ↔ some decisive ∈ ts := by
  unfold settle
  split
  · simp [*]
  · split <;> simp [*]

theorem settle_eq_unit (decisive : Bool) (ts : List (Option Bool)) :
    settle decisive false ts = some (!decisive) ↔ ∀ t ∈ ts, t = some (!decisive) := by
  constructor
  · intro h t ht
    have hmem : some decisive ∉ ts := by
      intro hmem
      rw [(settle_eq_decisive decisive ts).mpr hmem] at h
      cases decisive <;> simp at h
    have hnull : none ∉ ts := by
      intro hnull
      simp [settle, hmem, hnull] at h
    cases t with
    | none => exact absurd ht hnull
    | some b =>
      have hb : b ≠ decisive := fun hb => hmem (hb ▸ ht)
      cases b <;> cases decisive <;> simp_all
  · intro h
    have hmem : some decisive ∉ ts := by
      intro hmem
      have := h _ hmem
      cases decisive <;> simp at this
    have hnull : none ∉ ts := fun hnull => by simpa using h _ hnull
    simp [settle, hmem, hnull]

/-- The operator is a connective, and `decisive` settles it. -/
inductive Connective : Operator → Bool → Prop
  | and : Connective .and false
  | or : Connective .or true

/-- How the truth value of an expression follows from those of its parts: it has
    the decisive one if some part has, and the other one if all parts have. -/
structure Settled (row params : List Value) (decisive : Bool) (e : Expr)
    (parts : List Expr) : Prop where
  hasTruth : e.HasTruth row params
  decisive_iff : e.Is row params decisive ↔ ∃ p ∈ parts, p.Is row params decisive
  unit_iff : e.Is row params (!decisive) ↔ ∀ p ∈ parts, p.Is row params (!decisive)

theorem Settled.refl {decisive : Bool} {e : Expr} (h : e.HasTruth row params) :
    Settled row params decisive e [e] where
  hasTruth := h
  decisive_iff := by simp
  unit_iff := by simp

/-- Parts may be replaced by their own parts. -/
theorem Settled.flatMap {decisive : Bool} {e : Expr} {parts : List Expr}
    {f : Expr → List Expr} (h : Settled row params decisive e parts)
    (hf : ∀ p ∈ parts, Settled row params decisive p (f p)) :
    Settled row params decisive e (parts.flatMap f) where
  hasTruth := h.hasTruth
  decisive_iff := by
    rw [h.decisive_iff]
    constructor
    · rintro ⟨p, hp, hd⟩
      obtain ⟨q, hq, hqd⟩ := (hf p hp).decisive_iff.mp hd
      exact ⟨q, List.mem_flatMap.mpr ⟨p, hp, hq⟩, hqd⟩
    · rintro ⟨q, hq, hqd⟩
      obtain ⟨p, hp, hqp⟩ := List.mem_flatMap.mp hq
      exact ⟨p, hp, (hf p hp).decisive_iff.mpr ⟨q, hqp, hqd⟩⟩
  unit_iff := by
    rw [h.unit_iff]
    constructor
    · intro hall q hq
      obtain ⟨p, hp, hqp⟩ := List.mem_flatMap.mp hq
      exact (hf p hp).unit_iff.mp (hall p hp) q hqp
    · intro hall p hp
      exact (hf p hp).unit_iff.mpr fun q hq => hall q (List.mem_flatMap.mpr ⟨p, hp, hq⟩)

/-- Parts that have the other truth value may be left out. -/
theorem Settled.filter {decisive : Bool} {e : Expr} {parts : List Expr} {keep : Expr → Bool}
    (h : Settled row params decisive e parts)
    (hunit : ∀ p ∈ parts, keep p = false → p.Is row params (!decisive)) :
    Settled row params decisive e (parts.filter keep) where
  hasTruth := h.hasTruth
  decisive_iff := by
    rw [h.decisive_iff]
    constructor
    · rintro ⟨p, hp, hd⟩
      have hkeep : keep p = true := by
        apply Bool.of_not_eq_false
        intro hno
        have hu := hunit p hp hno
        unfold Is at hd hu
        rw [hd] at hu
        cases decisive <;> simp at hu
      exact ⟨p, List.mem_filter.mpr ⟨hp, hkeep⟩, hd⟩
    · rintro ⟨p, hp, hd⟩
      exact ⟨p, (List.mem_filter.mp hp).1, hd⟩
  unit_iff := by
    rw [h.unit_iff]
    constructor
    · intro hall p hp
      exact hall p (List.mem_filter.mp hp).1
    · intro hall p hp
      cases hkeep : keep p with
      | true => exact hall p (List.mem_filter.mpr ⟨hp, hkeep⟩)
      | false => exact hunit p hp hkeep

/-- The operands of a call have truth values, which are a list of their own. -/
theorem evalAll_ofTruth {es : List Expr} (h : ∀ e ∈ es, e.HasTruth row params) :
    ∃ ts : List (Option Bool), eval.evalAll row params es = .ok (ts.map ofTruth) ∧
      ∀ b, (some b ∈ ts ↔ ∃ e ∈ es, e.Is row params b) ∧
        ((∀ t ∈ ts, t = some b) ↔ ∀ e ∈ es, e.Is row params b) := by
  induction es with
  | nil => exact ⟨[], rfl, by simp⟩
  | cons e es ih =>
    obtain ⟨t, ht⟩ := h e (by simp)
    obtain ⟨ts, hts, hmem⟩ := ih fun x hx => h x (List.mem_cons_of_mem _ hx)
    refine ⟨t :: ts, ?_, fun b => ?_⟩
    · simp only [eval.evalAll, ht, hts, List.map_cons]
      rfl
    · have he := is_iff ht b
      constructor
      · rw [List.mem_cons, (hmem b).1, eq_comm, ← he]
        simp
      · rw [List.forall_mem_cons, (hmem b).2, List.forall_mem_cons, he]

theorem connective_evaluates {op : Operator} {decisive : Bool} (hop : Connective op decisive)
    {operands : List Expr} (h : ∀ e ∈ operands, e.HasTruth row params) (t : DataType) :
    Settled row params decisive (.call op operands t) operands := by
  obtain ⟨ts, hts, hmem⟩ := evalAll_ofTruth h
  have heval : (Expr.call op operands t).eval row params =
      .ok (ofTruth (settle decisive false ts)) := by
    simp only [eval, hts]
    cases hop <;> exact connect_ofTruth _ false ts
  constructor
  · exact ⟨_, heval⟩
  · rw [is_iff heval, settle_eq_decisive, (hmem decisive).1]
  · rw [is_iff heval, settle_eq_unit, (hmem !decisive).2]

/-! ### Flattening and joining -/

theorem flattenAll_eq_flatMap (op : Operator) (es : List Expr) :
    flatten.flattenAll op es = es.flatMap (flatten op) := by
  induction es with
  | nil => rfl
  | cons e es ih => simp only [flatten.flattenAll, List.flatMap_cons, ih]

/-- The expression stands somewhere in the other one. -/
inductive OccursIn (x : Expr) : Expr → Prop
  | self : OccursIn x x
  | operand {op : Operator} {operands : List Expr} {t : DataType} {y : Expr} (hy : y ∈ operands)
    (h : OccursIn x y) : OccursIn x (.call op operands t)

section

variable {x : Expr} {t : DataType}

@[simp] theorem occursIn_literal {v : Value} : x.OccursIn (.literal v t) ↔ x = .literal v t := by
  constructor
  · rintro ⟨⟩
    rfl
  · rintro rfl
    exact .self

@[simp] theorem occursIn_field {i : Nat} : x.OccursIn (.field i t) ↔ x = .field i t := by
  constructor
  · rintro ⟨⟩
    rfl
  · rintro rfl
    exact .self

@[simp] theorem occursIn_param {i : Nat} : x.OccursIn (.param i t) ↔ x = .param i t := by
  constructor
  · rintro ⟨⟩
    rfl
  · rintro rfl
    exact .self

@[simp] theorem occursIn_call {op : Operator} {operands : List Expr} :
    x.OccursIn (.call op operands t) ↔ x = .call op operands t ∨ ∃ y ∈ operands, x.OccursIn y := by
  constructor
  · rintro (_ | ⟨hy, h⟩)
    · exact .inl rfl
    · exact .inr ⟨_, hy, h⟩
  · rintro (rfl | ⟨y, hy, h⟩)
    · exact .self
    · exact .operand hy h

end

theorem OccursIn.trans {x y z : Expr} (h : x.OccursIn y) (h' : y.OccursIn z) : x.OccursIn z := by
  induction h' with
  | self => exact h
  | operand hy _ ih => exact .operand hy ih

theorem occursIn_of_mem_flatten {op : Operator} {e x : Expr} (hx : x ∈ e.flatten op) :
    x.OccursIn e := by
  induction e using operandInduction with
  | literal v t => exact List.mem_singleton.mp hx ▸ .self
  | field i t => exact List.mem_singleton.mp hx ▸ .self
  | param i t => exact List.mem_singleton.mp hx ▸ .self
  | call op' operands t ih =>
    by_cases hsame : op' = op
    · simp only [flatten, hsame, if_true, flattenAll_eq_flatMap] at hx
      obtain ⟨y, hy, hxy⟩ := List.mem_flatMap.mp hx
      exact .operand hy (ih y hy hxy)
    · simp only [flatten, hsame, if_false, List.mem_singleton] at hx
      exact hx ▸ .self

theorem occursIn_of_mem_conjuncts {e c : Expr} (hc : c ∈ e.conjuncts) : c.OccursIn e :=
  occursIn_of_mem_flatten (List.mem_filter.mp hc).1

theorem occursIn_of_mem_branches {e c : Expr} {conjuncts : List Expr}
    (hb : conjuncts ∈ e.branches) (hc : c ∈ conjuncts) : c.OccursIn e := by
  obtain ⟨d, hd, rfl⟩ := List.mem_map.mp hb
  exact (occursIn_of_mem_conjuncts hc).trans (occursIn_of_mem_flatten (List.mem_filter.mp hd).1)

/-- A condition follows from the parts that appear when one connective is opened
    all the way down. -/
theorem flatten_evaluates {op : Operator} {decisive : Bool} (hop : Connective op decisive)
    (e : Expr) (h : ∀ x ∈ e.flatten op, x.HasTruth row params) :
    Settled row params decisive e (e.flatten op) := by
  induction e using operandInduction with
  | literal v t => exact .refl (h _ (by simp [flatten]))
  | field i t => exact .refl (h _ (by simp [flatten]))
  | param i t => exact .refl (h _ (by simp [flatten]))
  | call op' operands t ih =>
    by_cases hsame : op' = op
    · subst hsame
      simp only [flatten, if_true, flattenAll_eq_flatMap] at h ⊢
      have hparts : ∀ x ∈ operands, Settled row params decisive x (x.flatten op') :=
        fun x hx => ih x hx fun y hy => h y (List.mem_flatMap.mpr ⟨x, hx, hy⟩)
      exact (connective_evaluates hop (fun x hx => (hparts x hx).hasTruth) t).flatMap hparts
    · simp only [flatten, hsame, if_false] at h ⊢
      exact .refl (h _ (by simp))

theorem join_evaluates {op : Operator} {decisive : Bool} (hop : Connective op decisive)
    {unit : Expr} (hunit : unit.Is row params (!decisive)) {es : List Expr}
    (h : ∀ e ∈ es, e.HasTruth row params) :
    Settled row params decisive (join op unit es) es := by
  match es with
  | [] =>
    refine ⟨.of_is hunit, ?_, by simpa [join] using hunit⟩
    refine iff_of_false (fun hd => ?_) (by simp)
    unfold Is at hunit hd
    rw [join, hunit] at hd
    cases decisive <;> simp at hd
  | [e] => exact .refl (h e (by simp))
  | e :: e' :: es => exact connective_evaluates hop h _

/-- A conjunction is `TRUE` exactly when all conjuncts are. -/
theorem allOf_evaluates {es : List Expr} (h : ∀ e ∈ es, e.HasTruth row params) :
    Settled row params false (allOf es) es :=
  join_evaluates .and (show Is row params true trueLit from rfl) h

/-- A disjunction is `TRUE` exactly when some disjunct is. -/
theorem anyOf_evaluates {es : List Expr} (h : ∀ e ∈ es, e.HasTruth row params) :
    Settled row params true (anyOf es) es :=
  join_evaluates .or (show Is row params false falseLit from rfl) h

/-! ### Branches -/

theorem is_true_of_isTrue {e : Expr} (h : e.isTrue = true) : e.Is row params true := by
  match e, h with
  | .literal (.bool true) _, _ => rfl

theorem is_false_of_isFalse {e : Expr} (h : e.isFalse = true) : e.Is row params false := by
  match e, h with
  | .literal (.bool false) _, _ => rfl

theorem conjuncts_evaluate {e : Expr} (h : ∀ c ∈ e.conjuncts, c.HasTruth row params) :
    Settled row params false e e.conjuncts := by
  have htrue : ∀ c ∈ e.flatten .and, (!c.isTrue) = false → c.Is row params true := by
    intro c _ hc
    exact is_true_of_isTrue (by simpa using hc)
  refine (flatten_evaluates .and e fun c hc => ?_).filter htrue
  cases hkeep : c.isTrue with
  | true => exact .of_is (is_true_of_isTrue hkeep)
  | false => exact h c (List.mem_filter.mpr ⟨hc, by simp [hkeep]⟩)

theorem disjuncts_evaluate {e : Expr} (h : ∀ d ∈ e.disjuncts, d.HasTruth row params) :
    Settled row params true e e.disjuncts := by
  have hfalse : ∀ d ∈ e.flatten .or, (!d.isFalse) = false → d.Is row params false := by
    intro d _ hd
    exact is_false_of_isFalse (by simpa using hd)
  refine (flatten_evaluates .or e fun d hd => ?_).filter hfalse
  cases hkeep : d.isFalse with
  | true => exact .of_is (is_false_of_isFalse hkeep)
  | false => exact h d (List.mem_filter.mpr ⟨hd, by simp [hkeep]⟩)

/-- A condition is `TRUE` exactly when all conjuncts of some branch are. -/
theorem is_true_iff_branch {e : Expr}
    (h : ∀ b ∈ e.branches, ∀ c ∈ b, c.HasTruth row params) :
    e.Is row params true ↔ ∃ b ∈ e.branches, ∀ c ∈ b, c.Is row params true := by
  have hdisjunct : ∀ d ∈ e.disjuncts, Settled row params false d d.conjuncts :=
    fun d hd => conjuncts_evaluate (h _ (List.mem_map_of_mem hd))
  rw [(disjuncts_evaluate fun d hd => (hdisjunct d hd).hasTruth).decisive_iff]
  constructor
  · rintro ⟨d, hd, htrue⟩
    exact ⟨d.conjuncts, List.mem_map_of_mem hd, (hdisjunct d hd).unit_iff.mp htrue⟩
  · rintro ⟨b, hb, hall⟩
    obtain ⟨d, hd, rfl⟩ := List.mem_map.mp hb
    exact ⟨d, hd, (hdisjunct d hd).unit_iff.mpr hall⟩

end Polystore.Expr
