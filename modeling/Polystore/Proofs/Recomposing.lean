import Polystore.Proofs.FilterMerging

/-
  Polystore/Proofs/Recomposing.lean
  =================================
  **Taking a condition apart and putting it together again.**  The condition that is
  composed of the branches of another one evaluates as that one does
  (`eval_recompose`).

    * Where the condition has a value so has every part of it, and a connective notices
      no difference between the value and the parts (`StandFor`).
    * Where it fails, and none of the parts has a value that is no truth value, the
      error is that of the first part that fails.  Which part that is does not depend on
      the connectives around it.

  A value that is no truth value is an error in a connective, but a part that stands alone
  loses its connective.  So where there are such values the error may disappear.
-/

namespace Polystore

namespace Expr

variable {row params : List Value} {op : Operator} {decisive : Bool} {e : Expr} {es : List Expr}

/-! ### The first error -/

theorem evalAll_append_eq_error {es' : List Expr} {err : Error} :
    eval.evalAll row params (es ++ es') = .error err ↔
      eval.evalAll row params es = .error err ∨
        (∃ vs, eval.evalAll row params es = .ok vs) ∧ eval.evalAll row params es' = .error err := by
  simp only [evalAll_eq_mapM, List.mapM_append, except_bind_eq_error]
  simp [pure, Except.pure]

theorem evalAll_cons_eq_error {err : Error} : eval.evalAll row params (e :: es) = .error err ↔
    e.eval row params = .error err ∨
      (∃ v, e.eval row params = .ok v) ∧ eval.evalAll row params es = .error err := by
  simp only [eval.evalAll, except_bind_eq_error]
  simp [pure, Except.pure]

theorem evalAll_singleton_eq_error {err : Error} :
    eval.evalAll row params [e] = .error err ↔ e.eval row params = .error err := by
  rw [evalAll_cons_eq_error]
  simp [eval.evalAll]

/-- What does not fail may be left out. -/
theorem evalAll_filter_eq_error {keep : Expr → Bool} {err : Error}
    (hkeep : ∀ e ∈ es, keep e = false → ∃ v, e.eval row params = .ok v)
    (h : eval.evalAll row params es = .error err) :
    eval.evalAll row params (es.filter keep) = .error err := by
  induction es with
  | nil => exact h
  | cons e es ih =>
    have hrest := ih fun x hx => hkeep x (List.mem_cons_of_mem e hx)
    cases hk : keep e with
    | true =>
      rw [List.filter_cons_of_pos hk]
      exact evalAll_cons_eq_error.mpr ((evalAll_cons_eq_error.mp h).imp_right fun h' =>
        ⟨h'.1, hrest h'.2⟩)
    | false =>
      obtain ⟨v, hv⟩ := hkeep e (by simp) hk
      rw [List.filter_cons_of_neg (by simp [hk])]
      rcases evalAll_cons_eq_error.mp h with h | h
      · rw [hv] at h
        cases h
      · exact hrest h.2

section

variable (row params)

/-- The expression is `TRUE`, `FALSE` or `NULL` on the row, or fails there. -/
def TruthOrError (e : Expr) : Prop :=
  e.HasTruth row params ∨ ∃ err, e.eval row params = .error err

end

theorem hasTruth_of_evalAll {vs : List Value} (h : ∀ e ∈ es, e.TruthOrError row params)
    (hvs : eval.evalAll row params es = .ok vs) : ∀ e ∈ es, e.HasTruth row params := by
  intro e he
  obtain ⟨v, -, hv⟩ := exists_of_forall₂_left (evalAll_eq_ok.mp hvs) e he
  rcases h e he with htruth | ⟨err, herr⟩
  · exact htruth
  · rw [hv] at herr
    cases herr

theorem eval_join_of_error {unit : Expr} {err : Error} (hop : Connective op decisive)
    (h : eval.evalAll row params es = .error err) :
    (join op unit es).eval row params = .error err := by
  match es with
  | [] => cases h
  | [e] => exact evalAll_singleton_eq_error.mp h
  | e :: e' :: es =>
    have hjoin : join op unit (e :: e' :: es) = apply op (e :: e' :: es) := rfl
    rw [hjoin, apply, hop.eval_call, h]
    rfl

/-- The first part of the operands that fails belongs to the first operand that fails. -/
theorem evalAll_of_flatMap_error (hop : Connective op decisive) {err : Error}
    (hoperand : ∀ e ∈ es, (∀ x ∈ e.flatten op, x.TruthOrError row params) →
      eval.evalAll row params (e.flatten op) = .error err → e.eval row params = .error err)
    (h : ∀ x ∈ es.flatMap (flatten op), x.TruthOrError row params)
    (herr : eval.evalAll row params (es.flatMap (flatten op)) = .error err) :
    eval.evalAll row params es = .error err := by
  induction es with
  | nil => exact herr
  | cons e es ih =>
    rw [List.flatMap_cons] at h herr
    rw [List.forall_mem_append] at h
    rw [evalAll_cons_eq_error]
    rcases evalAll_append_eq_error.mp herr with he | ⟨⟨vs, hvs⟩, hes⟩
    · exact .inl (hoperand e List.mem_cons_self h.1 he)
    · obtain ⟨t, ht⟩ := (flatten_evaluates hop e (hasTruth_of_evalAll h.1 hvs)).hasTruth
      exact .inr ⟨⟨_, ht⟩, ih (fun x hx => hoperand x (List.mem_cons_of_mem e hx)) h.2 hes⟩

/-- The error of the first part that fails is that of the condition. -/
theorem eval_of_flatten_error (hop : Connective op decisive) {err : Error}
    (h : ∀ x ∈ e.flatten op, x.TruthOrError row params)
    (herr : eval.evalAll row params (e.flatten op) = .error err) :
    e.eval row params = .error err := by
  induction e using operandInduction with
  | literal v t => exact evalAll_singleton_eq_error.mp herr
  | field i t => exact evalAll_singleton_eq_error.mp herr
  | param i t => exact evalAll_singleton_eq_error.mp herr
  | call op' operands t ih =>
    by_cases hsame : op' = op
    · subst hsame
      simp only [flatten, if_true, flattenAll_eq_flatMap] at h herr
      rw [hop.eval_call, evalAll_of_flatMap_error hop ih h herr]
      rfl
    · simp only [flatten, hsame, if_false] at herr
      exact evalAll_singleton_eq_error.mp herr

/-! ### Parts of a condition -/

theorem flatten_of_not_call (h : ∀ operands t, e ≠ call op operands t) : e.flatten op = [e] := by
  cases e with
  | call op' operands t =>
    rw [flatten, if_neg]
    rintro rfl
    exact h operands t rfl
  | _ => rfl

/-- Parts are joined again as they were taken: a connective without operands is its unit,
    and what is left out has the value of the unit. -/
structure Opening (row params : List Value) (op : Operator) (decisive : Bool) (unit : Expr)
    (keep : Expr → Bool) : Prop where
  connective : Connective op decisive
  unit_is : unit.Is row params (!decisive)
  dropped : ∀ e, keep e = false → e.Is row params (!decisive)

theorem opening_conjuncts : Opening row params .and false trueLit (!·.isTrue) where
  connective := .and
  unit_is := rfl
  dropped := fun _ h => is_true_of_isTrue (by simpa using h)

theorem opening_disjuncts : Opening row params .or true falseLit (!·.isFalse) where
  connective := .or
  unit_is := rfl
  dropped := fun _ h => is_false_of_isFalse (by simpa using h)

namespace Opening

variable {keep : Expr → Bool} {unit : Expr}

/-- The parts of a condition that has a value, joined again, have this value. -/
theorem eval_join_of_ok (hopen : Opening row params op decisive unit keep) {v : Value}
    (h : e.eval row params = .ok v) :
    (join op unit ((e.flatten op).filter keep)).eval row params = .ok v := by
  by_cases hcall : ∃ operands t, e = call op operands t
  · obtain ⟨operands, t, rfl⟩ := hcall
    -- a connective has a truth value, which may stand in a connective for its parts
    have hvalue : connect decisive false [v] = .ok v := by
      rw [hopen.connective.eval_call] at h
      obtain ⟨us, -, hconnect⟩ := except_bind_eq_ok.mp h
      have halike := Alike.of_connect hconnect false []
      rw [List.append_nil, hconnect] at halike
      exact halike.symm
    have hparts : StandFor row params decisive _ [v] :=
      (flatten_standFor hopen.connective h).filter fun x _ => hopen.dropped x
    exact hparts.eval_join hopen.connective hopen.unit_is hvalue
  · simp only [not_exists] at hcall
    rw [flatten_of_not_call hcall]
    cases hk : keep e with
    | true => simpa [hk, join] using h
    | false =>
      have hvalue := (hopen.dropped e hk).symm.trans h
      simpa [hk, join] using hopen.unit_is.trans hvalue

/-- The parts of a condition, joined again, evaluate as the condition if they are truth
    values or fail. -/
theorem eval_join (hopen : Opening row params op decisive unit keep)
    (h : ∀ x ∈ (e.flatten op).filter keep, x.TruthOrError row params) :
    (join op unit ((e.flatten op).filter keep)).eval row params = e.eval row params ∧
      e.TruthOrError row params := by
  have hop := hopen.connective
  have hparts : ∀ x ∈ e.flatten op, x.TruthOrError row params := by
    intro x hx
    cases hk : keep x with
    | true => exact h x (List.mem_filter.mpr ⟨hx, hk⟩)
    | false => exact .inl (.of_is (hopen.dropped x hk))
  cases hall : eval.evalAll row params (e.flatten op) with
  | ok vs =>
    obtain ⟨t, ht⟩ := (flatten_evaluates hop e (hasTruth_of_evalAll hparts hall)).hasTruth
    exact ⟨(hopen.eval_join_of_ok ht).trans ht.symm, .inl ⟨t, ht⟩⟩
  | error err =>
    have herr := eval_of_flatten_error hop hparts hall
    refine ⟨?_, .inr ⟨err, herr⟩⟩
    rw [herr]
    exact eval_join_of_error hop
      (evalAll_filter_eq_error (fun x _ hk => ⟨_, hopen.dropped x hk⟩) hall)

end Opening

/-- Operands may be replaced by others that evaluate alike. -/
theorem eval_join_map (hop : Connective op decisive) {unit : Expr} {f : Expr → Expr}
    (h : ∀ x ∈ es, (f x).eval row params = x.eval row params) :
    (join op unit (es.map f)).eval row params = (join op unit es).eval row params := by
  match es with
  | [] => rfl
  | [x] => exact h x (by simp)
  | x :: y :: es =>
    have hall : eval.evalAll row params ((x :: y :: es).map f) =
        eval.evalAll row params (x :: y :: es) := by
      rw [evalAll_eq_mapM, evalAll_eq_mapM, List.mapM_map]
      exact mapM_congr h
    change (apply op ((x :: y :: es).map f)).eval row params =
      (apply op (x :: y :: es)).eval row params
    rw [apply, apply, hop.eval_call, hop.eval_call, hall]

/-! ### Branches -/

theorem recompose_branches (e : Expr) :
    recompose e.branches = anyOf (e.disjuncts.map fun d => allOf d.conjuncts) := by
  rw [recompose, branches, List.map_map]
  rfl

/-- A condition that has a value has it also when it is taken apart and put together
    again, and so it is with errors if no conjunct has a value that is no truth value. -/
theorem eval_recompose (e : Expr) (row params : List Value) :
    (∀ v, e.eval row params = .ok v → (recompose e.branches).eval row params = .ok v) ∧
    ((∀ b ∈ e.branches, ∀ c ∈ b, c.TruthOrError row params) →
      (recompose e.branches).eval row params = e.eval row params) := by
  rw [recompose_branches]
  constructor
  · intro v h
    obtain ⟨vs, hvs, -⟩ := flatten_standFor .or h
    refine (eval_join_map .or fun d hd => ?_).trans (opening_disjuncts.eval_join_of_ok h)
    obtain ⟨w, -, hw⟩ := exists_of_forall₂_left hvs d (List.mem_filter.mp hd).1
    exact (opening_conjuncts.eval_join_of_ok hw).trans hw.symm
  · intro h
    have hdisjunct : ∀ d ∈ e.disjuncts, (allOf d.conjuncts).eval row params = d.eval row params ∧
        d.TruthOrError row params :=
      fun d hd => opening_conjuncts.eval_join (h _ (List.mem_map_of_mem hd))
    exact (eval_join_map .or fun d hd => (hdisjunct d hd).1).trans
      (opening_disjuncts.eval_join fun d hd => (hdisjunct d hd).2).1

/-- The quotient `10 / $0` is above 1 where `$0` is not zero, or `$1` is above `0.0`. -/
def guardedQuotient : Expr :=
  .apply .or [.falseLit,
    .apply .and [FilterMerge.quotientAboveOne, .trueLit,
      .apply .and [FilterMerge.divisorNonzero, .apply .and []]],
    .apply .or [.apply .or [], FilterMerge.aboveZero]]

theorem eval_recompose_guardedQuotient :
    (recompose guardedQuotient.branches).eval [.bigint 5, .null] [] = .ok (.bool true) ∧
    (recompose guardedQuotient.branches).eval [.bigint 20, .null] [] = .ok .null ∧
    (recompose guardedQuotient.branches).eval [.bigint 0, .null] [] = .error divisionByZero := by
  have hbranches : guardedQuotient.branches =
      [[FilterMerge.quotientAboveOne, FilterMerge.divisorNonzero], [FilterMerge.aboveZero]] := rfl
  have hparts : ∀ b ∈ guardedQuotient.branches, ∀ c ∈ b, c.TruthOrError [.bigint 0, .null] [] := by
    simp only [hbranches, List.forall_mem_cons, List.not_mem_nil, false_implies, implies_true,
      and_true]
    exact ⟨⟨.inr ⟨_, rfl⟩, .inl ⟨some false, rfl⟩⟩, .inl ⟨none, rfl⟩⟩
  refine ⟨(eval_recompose _ _ _).1 _ rfl, (eval_recompose _ _ _).1 _ rfl, ?_⟩
  exact (eval_recompose _ _ _).2 hparts

/-- On its own a conjunct that is a number is no error. -/
example : (apply .and [lit (.bigint 5)]).eval [] [] = .error (notBoolean (.bigint 5)) ∧
    (recompose (apply .and [lit (.bigint 5)]).branches).eval [] [] = .ok (.bigint 5) := ⟨rfl, rfl⟩

end Expr

end Polystore
