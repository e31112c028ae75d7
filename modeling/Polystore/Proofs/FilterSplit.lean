import Mathlib.Logic.Basic
import Polystore.Proofs.OrdinalSets
import Polystore.Proofs.TermMerging
import Polystore.Pushdown.Filter

/-
  Polystore/Proofs/FilterSplit.lean
  =================================
  **Splitting a filter loses and invents no row.**  The terms that a backend is
  given and the residual that stays local keep together exactly the rows that the
  condition keeps (`FilterPlan.make_keeps_rows`).  Per branch this is the
  invariant of merging, carried over the conjuncts (`collect_collected`); with
  several branches the residual is the whole condition as soon as one branch was
  relaxed, and then the terms only have to keep enough rows.
-/

namespace Polystore

variable {row params : List Value}

/-! ### The table of terms -/

namespace TermTable

/-- Every entry of every field has a property. -/
def Every (P : Term → Expr → Prop) (table : TermTable) : Prop :=
  ∀ p ∈ table, p.2.Every P p.1

theorem every_cons {P : Term → Expr → Prop} {i : Nat} {s : FieldTerms} {table : TermTable} :
    Every P ((i, s) :: table) ↔ s.Every P i ∧ Every P table := by
  simp [Every]

/-- The conjuncts behind all entries are `TRUE`. -/
abbrev Holds (row params : List Value) (table : TermTable) : Prop :=
  table.Every fun _ e => e.Is row params true

/-- The table has taken in a term that came from `e`. -/
structure Added (row params : List Value) (old : TermTable) (e : Expr)
    (new : TermTable × List Expr) : Prop where
  every : new.1.Every (Expresses row params)
  left : ∀ x ∈ new.2, x = e
  holds_iff : (new.1.Holds row params ∧ ∀ x ∈ new.2, x.Is row params true) ↔
    (old.Holds row params ∧ e.Is row params true)

/-- A field that is not in the table yet. -/
theorem added_new {table : TermTable} {t : Term} {e : Expr}
    (hrow : ∀ a ∈ row, a.isDouble = false) (htable : table.Every (Expresses row params))
    (ht : Expresses row params t e) :
    Added row params table e ((t.field, (FieldTerms.add {} t e).1) :: table,
      (FieldTerms.add {} t e).2) := by
  have h := FieldTerms.add_added hrow (s := {}) .empty ht
  refine ⟨every_cons.mpr ⟨h.every, htable⟩, h.left, ?_⟩
  have hiff := h.holds_iff
  simp only [show FieldTerms.Holds row params t.field {} from .empty, true_and] at hiff
  unfold Holds
  rw [every_cons, and_right_comm, hiff, and_comm]

theorem add_added {table : TermTable} {t : Term} {e : Expr}
    (hrow : ∀ a ∈ row, a.isDouble = false) (htable : table.Every (Expresses row params))
    (ht : Expresses row params t e) : Added row params table e (add t e table) := by
  induction table with
  | nil => exact added_new hrow htable ht
  | cons p rest ih =>
    rcases p with ⟨i, s⟩
    obtain ⟨hs, hrest⟩ := every_cons.mp htable
    unfold add
    by_cases heq : t.field = i
    · subst heq
      have h := FieldTerms.add_added hrow hs ht
      simp only [if_true]
      refine ⟨every_cons.mpr ⟨h.every, hrest⟩, h.left, ?_⟩
      unfold Holds
      rw [every_cons, every_cons, and_right_comm, h.holds_iff, and_right_comm]
    · simp only [heq, if_false]
      by_cases hlt : t.field < i
      · simp only [hlt, if_true]
        exact added_new hrow htable ht
      · have h := ih hrest
        simp only [hlt, if_false]
        refine ⟨every_cons.mpr ⟨hs, h.every⟩, h.left, ?_⟩
        unfold Holds
        rw [every_cons, every_cons, and_assoc, h.holds_iff, and_assoc]

end TermTable

namespace FilterPlan

/-! ### One branch -/

/-- What has been collected from some conjuncts: everything stands for a
    conjunct, and all of it holds when what was there before and the conjuncts
    do. -/
structure Collected (row params : List Value) (old : TermTable × List Expr)
    (conjuncts : List Expr) (new : TermTable × List Expr) : Prop where
  every : new.1.Every (Expresses row params)
  left : ∀ x ∈ new.2, x.HasTruth row params
  holds_iff : (new.1.Holds row params ∧ ∀ x ∈ new.2, x.Is row params true) ↔
    ((old.1.Holds row params ∧ ∀ x ∈ old.2, x.Is row params true) ∧
      ∀ c ∈ conjuncts, c.Is row params true)

/-- Collecting keeps the meaning of the conjuncts. -/
theorem collect_collected {usable? : Expr → Option Term} {conjuncts : List Expr}
    (hrow : ∀ a ∈ row, a.isDouble = false)
    (htruth : ∀ c ∈ conjuncts, c.HasTruth row params)
    (husable : ∀ c ∈ conjuncts, ∀ t, usable? c = some t → Expresses row params t c)
    (table : TermTable) (left : List Expr) (htable : table.Every (Expresses row params))
    (hleft : ∀ x ∈ left, x.HasTruth row params) :
    Collected row params (table, left) conjuncts (collect usable? table left conjuncts) := by
  induction conjuncts generalizing table left with
  | nil => exact ⟨htable, hleft, by simp [collect]⟩
  | cons c rest ih =>
    have hc : c.HasTruth row params := htruth c (by simp)
    have hrest := fun x hx => htruth x (List.mem_cons_of_mem c hx)
    have husable' := fun x hx => husable x (List.mem_cons_of_mem c hx)
    unfold collect
    cases hu : usable? c with
    | none =>
      have h := ih hrest husable' table (left ++ [c]) htable (by
        intro x hx
        rcases List.mem_append.mp hx with hx | hx
        · exact hleft x hx
        · exact List.mem_singleton.mp hx ▸ hc)
      refine ⟨h.every, h.left, ?_⟩
      rw [h.holds_iff]
      rw [List.forall_mem_append, List.forall_mem_singleton, List.forall_mem_cons]
      simp only [and_assoc]
    | some t =>
      have hadd := TermTable.add_added hrow htable (husable c (by simp) t hu)
      have h := ih hrest husable' _ (left ++ (table.add t c).2) hadd.every (by
        intro x hx
        rcases List.mem_append.mp hx with hx | hx
        · exact hleft x hx
        · exact hadd.left x hx ▸ hc)
      refine ⟨h.every, h.left, ?_⟩
      rw [h.holds_iff, List.forall_mem_append, List.forall_mem_cons, ← and_assoc,
        and_right_comm (b := ∀ x ∈ left, _), hadd.holds_iff]
      simp only [and_assoc, and_left_comm]

/-- An analysed branch shares its conjuncts between the terms and the residual. -/
structure Branch.Splits (row params : List Value) (conjuncts : List Expr) (b : Branch) :
    Prop where
  kept_hasTruth : ∀ e ∈ b.kept, e.HasTruth row params
  residual_hasTruth : ∀ e ∈ b.residual, e.HasTruth row params
  kept_iff : (∀ e ∈ b.kept, e.Is row params true) ↔
    ∀ t ∈ b.terms, t.satisfied row params = true
  holds_iff : (∀ c ∈ conjuncts, c.Is row params true) ↔
    (∀ t ∈ b.terms, t.satisfied row params = true) ∧ ∀ e ∈ b.residual, e.Is row params true

theorem analyse_splits {usable? : Expr → Option Term} {conjuncts : List Expr}
    (hrow : ∀ a ∈ row, a.isDouble = false)
    (htruth : ∀ c ∈ conjuncts, c.HasTruth row params)
    (husable : ∀ c ∈ conjuncts, ∀ t, usable? c = some t → Expresses row params t c) :
    (analyse usable? conjuncts).Splits row params conjuncts := by
  have h := collect_collected hrow htruth husable [] [] (by simp [TermTable.Every]) (by simp)
  unfold analyse
  generalize collect usable? [] [] conjuncts = collected at h ⊢
  rcases collected with ⟨table, left⟩
  have hgiven : ∀ p ∈ table, ∀ q ∈ p.2.kept p.1, FieldTerms.Given row params q :=
    fun p hp q hq => FieldTerms.kept_given (h.every p hp) hq
  have hsource : ∀ p ∈ table, p.2.Every (fun _ e => e.HasTruth row params) p.1 :=
    fun p hp => (h.every p hp).imp fun _ _ he => he.hasTruth
  constructor
  · intro e he
    obtain ⟨q, hq, heq⟩ := List.mem_flatMap.mp he
    obtain ⟨p, hp, hpq⟩ := List.mem_flatMap.mp hq
    exact FieldTerms.kept_sources (hsource p hp) q hpq e heq
  · intro e he
    rcases List.mem_append.mp he with he | he
    · exact h.left e he
    · obtain ⟨p, hp, hpe⟩ := List.mem_flatMap.mp he
      exact FieldTerms.residual_sources (hsource p hp) e hpe
  · simp only [List.mem_flatMap, List.mem_map]
    constructor
    · rintro hall t ⟨q, ⟨p, hp, hpq⟩, rfl⟩
      exact (hgiven p hp q hpq).mp fun e he => hall e ⟨q, ⟨p, hp, hpq⟩, he⟩
    · rintro hall e ⟨q, ⟨p, hp, hpq⟩, he⟩
      exact (hgiven p hp q hpq).mpr (hall q.1 ⟨q, ⟨p, hp, hpq⟩, rfl⟩) e he
  · have hiff := h.holds_iff
    simp only [TermTable.Holds, TermTable.Every, List.not_mem_nil, false_implies, implies_true,
      true_and] at hiff
    rw [← hiff]
    simp only [List.mem_append, List.mem_flatMap, List.mem_map]
    constructor
    · rintro ⟨htable, hleft⟩
      have hshare := fun p hp =>
        (FieldTerms.kept_and_residual hrow (h.every p hp)).mp (htable p hp)
      constructor
      · rintro t ⟨q, ⟨p, hp, hpq⟩, rfl⟩
        exact (hshare p hp).1 q hpq
      · rintro e (he | ⟨p, hp, hpe⟩)
        · exact hleft e he
        · exact (hshare p hp).2 e hpe
    · rintro ⟨hterms, hresidual⟩
      refine ⟨fun p hp => ?_, fun e he => hresidual e (Or.inl he)⟩
      exact (FieldTerms.kept_and_residual hrow (h.every p hp)).mpr
        ⟨fun q hq => hterms q.1 ⟨q, ⟨p, hp, hq⟩, rfl⟩,
          fun e he => hresidual e (Or.inr ⟨p, hp, he⟩)⟩

/-! ### The whole condition -/

/-- What a split condition consists of. -/
theorem make_eq_ok {condition : Expr} {ctx : PushContext} {support : FilterSupport}
    {accept : Term → Bool} {plan : FilterPlan}
    (h : make condition ctx support accept = .ok plan) :
    let branches := condition.branches.map (analyse (usable? ctx support accept))
    plan.branches = branches.map (·.terms) ∧
      plan.pushed = Expr.anyOf (branches.map fun b => Expr.allOf b.kept) ∧
      plan.residual = leftOver condition branches ∧
      plan.params = .ofList (branches.flatMap fun b => b.terms.flatMap Term.params) := by
  intro branches
  simp only [make, bind, Except.bind, pure, Except.pure, throw, throwThe, MonadExceptOf.throw]
    at h
  repeat' split at h
  all_goals
    first
    | cases h; done
    | (obtain rfl := Except.ok.inj h
       exact ⟨rfl, rfl, rfl, rfl⟩)

theorem expresses_of_usable? {ctx : PushContext} {support : FilterSupport}
    {accept : Term → Bool} {e : Expr} {t : Term}
    (hrow : ∀ a ∈ row, a.isDouble = false) (hparams : ∀ p ∈ params, p.isDouble = false)
    (he : e.isExact = true) (htruth : e.HasTruth row params)
    (h : usable? ctx support accept e = some t) : Expresses row params t e := by
  obtain ⟨hterm, -⟩ := Option.filter_eq_some_iff.mp h
  obtain ⟨hsimple, hiff⟩ := Term.satisfied_iff hrow hparams he hterm htruth
  exact ⟨hsimple, htruth, hiff⟩

/-- The residual keeps, of the rows that the terms keep, those that the condition
    keeps. -/
theorem leftOver_keeps {condition : Expr} {branches : List (List Expr × Branch)}
    (hsplits : ∀ p ∈ branches, p.2.Splits row params p.1)
    (hcondition : condition.Is row params true ↔
      ∃ p ∈ branches, ∀ c ∈ p.1, c.Is row params true) :
    condition.Is row params true ↔
      (∃ p ∈ branches, ∀ t ∈ p.2.terms, t.satisfied row params = true) ∧
        ∀ r, leftOver condition (branches.map (·.2)) = some r → r.Is row params true := by
  match branches with
  | [p] =>
    have hp := hsplits p (by simp)
    simp only [List.mem_singleton, exists_eq_left, List.map_cons, List.map_nil, leftOver]
      at hcondition ⊢
    rw [hcondition, hp.holds_iff]
    apply and_congr_right
    intro _
    by_cases hempty : p.2.residual.isEmpty = true
    · simp [List.isEmpty_iff.mp hempty]
    · simp only [hempty, Bool.false_eq_true, if_false, Option.some.injEq, forall_eq']
      exact (Expr.allOf_evaluates hp.residual_hasTruth).unit_iff.symm
  | [] => simp [hcondition]
  | p :: q :: rest =>
    generalize hbs : p :: q :: rest = bs at hsplits hcondition ⊢
    have hleft : leftOver condition (bs.map (·.2)) =
        if (bs.map (·.2)).all (·.residual.isEmpty) then none else some condition := by
      rw [← hbs]
      rfl
    rw [hleft]
    by_cases hempty : (bs.map (·.2)).all (·.residual.isEmpty) = true
    · have hnone : ∀ b ∈ bs, b.2.residual = [] := by
        intro b hb
        exact List.isEmpty_iff.mp (List.all_eq_true.mp hempty b.2 (List.mem_map_of_mem hb))
      simp only [hempty, if_true, reduceCtorEq, false_implies, implies_true, and_true]
      rw [hcondition]
      refine exists_congr fun b => and_congr_right ?_
      intro hb
      rw [(hsplits b hb).holds_iff, hnone b hb]
      simp
    · -- some branch was relaxed, so the terms are only implied
      simp only [hempty, Bool.false_eq_true, if_false, Option.some.injEq, forall_eq']
      constructor
      · intro h
        obtain ⟨b, hb, hall⟩ := hcondition.mp h
        exact ⟨⟨b, hb, ((hsplits b hb).holds_iff.mp hall).1⟩, h⟩
      · exact And.right

/-- The pushed condition is `TRUE` on the rows that satisfy all terms of a branch. -/
theorem pushed_is_true_iff {branches : List (List Expr × Branch)}
    (hsplits : ∀ p ∈ branches, p.2.Splits row params p.1) :
    (Expr.anyOf (branches.map fun p => Expr.allOf p.2.kept)).Is row params true ↔
      ∃ p ∈ branches, ∀ t ∈ p.2.terms, t.satisfied row params = true := by
  have hkept : ∀ p ∈ branches, Expr.Settled row params false (Expr.allOf p.2.kept) p.2.kept :=
    fun p hp => Expr.allOf_evaluates (hsplits p hp).kept_hasTruth
  have htruth : ∀ e ∈ branches.map (fun p => Expr.allOf p.2.kept), e.HasTruth row params := by
    intro e he
    obtain ⟨p, hp, rfl⟩ := List.mem_map.mp he
    exact (hkept p hp).hasTruth
  rw [(Expr.anyOf_evaluates htruth).decisive_iff]
  simp only [List.mem_map, exists_exists_and_eq_and]
  refine exists_congr fun p => and_congr_right ?_
  intro hp
  exact (hkept p hp).unit_iff.trans (hsplits p hp).kept_iff

/-- A split filter keeps the rows of its condition: where nothing but truth values
    comes out of the conjuncts, the terms and the residual together are as good as
    the condition, and what is pushed is what the terms say.  The parameters are
    those that the terms read. -/
theorem make_keeps_rows {condition : Expr} {ctx : PushContext} {support : FilterSupport}
    {accept : Term → Bool} {plan : FilterPlan}
    (hplan : make condition ctx support accept = .ok plan) :
    (∀ row params : List Value, condition.isExact = true → (∀ a ∈ row, a.isDouble = false) →
      (∀ p ∈ params, p.isDouble = false) →
      (∀ b ∈ condition.branches, ∀ c ∈ b, c.HasTruth row params) →
      (condition.eval row params = .ok (.bool true) ↔
        (∃ b ∈ plan.branches, ∀ t ∈ b, t.satisfied row params = true) ∧
          ∀ r, plan.residual = some r → r.eval row params = .ok (.bool true)) ∧
      (plan.pushed.eval row params = .ok (.bool true) ↔
        ∃ b ∈ plan.branches, ∀ t ∈ b, t.satisfied row params = true)) ∧
    ∀ i, plan.params.contains i = true ↔ ∃ b ∈ plan.branches, ∃ t ∈ b, t.Reads i := by
  obtain ⟨hbranches, hpushed, hresidual, hread⟩ := make_eq_ok hplan
  constructor
  · intro row params hexact hrow hparams htruth
    let split := fun conjuncts => (conjuncts, analyse (usable? ctx support accept) conjuncts)
    have hsplits : ∀ p ∈ condition.branches.map split, p.2.Splits row params p.1 := by
      intro p hp
      obtain ⟨conjuncts, hb, rfl⟩ := List.mem_map.mp hp
      apply analyse_splits hrow (htruth conjuncts hb)
      intro c hc t ht
      exact expresses_of_usable? hrow hparams (Expr.isExact_of_mem_branches hexact hb hc)
        (htruth conjuncts hb c hc) ht
    have hcondition : condition.Is row params true ↔
        ∃ p ∈ condition.branches.map split, ∀ c ∈ p.1, c.Is row params true := by
      rw [Expr.is_true_iff_branch htruth]
      simp only [List.mem_map, exists_exists_and_eq_and, split]
    have hterms : (∃ b ∈ plan.branches, ∀ t ∈ b, t.satisfied row params = true) ↔
        ∃ p ∈ condition.branches.map split, ∀ t ∈ p.2.terms, t.satisfied row params = true := by
      rw [hbranches]
      simp only [List.mem_map, exists_exists_and_eq_and, split]
    constructor
    · rw [hterms, hresidual]
      have h := leftOver_keeps hsplits hcondition
      rw [List.map_map] at h
      exact h
    · rw [hterms, hpushed]
      have h := pushed_is_true_iff hsplits
      rw [List.map_map] at h ⊢
      exact h
  · intro i
    rw [hread, OrdinalSet.contains_ofList, hbranches]
    simp only [List.mem_flatMap, List.mem_map, exists_exists_and_eq_and, Term.mem_params_iff]

/-- A disjunction one of whose branches is relaxed: the equality takes in the bound
    by a literal, but not the one by a parameter. -/
def relaxedCondition : Expr :=
  let x := Expr.field 0 .bigint
  .apply .or [
    .apply .and [.apply (.compare .eq) [x, .lit (.bigint 4)],
      .apply (.compare .gt) [x, .lit (.bigint 1)],
      .apply (.compare .gt) [x, .param 0 .bigint]],
    .apply .isNull [.field 1 .string]]

theorem make_keeps_rows_relaxed :
    ∃ plan, make relaxedCondition { names := ["x", "y"] } ⟨.document, true, true, true, false⟩
        (fun _ => true) = .ok plan ∧ plan.residual.isSome = true ∧
      (relaxedCondition.eval [.bigint 4, .null] [.null] = .ok (.bool true) ↔
        (∃ b ∈ plan.branches, ∀ t ∈ b, t.satisfied [.bigint 4, .null] [.null] = true) ∧
          ∀ r, plan.residual = some r →
            r.eval [.bigint 4, .null] [.null] = .ok (.bool true)) := by
  obtain ⟨plan, hplan, hresidual⟩ : ∃ plan, make relaxedCondition { names := ["x", "y"] }
      ⟨.document, true, true, true, false⟩ (fun _ => true) = .ok plan ∧
        plan.residual.isSome = true := ⟨_, rfl, rfl⟩
  refine ⟨plan, hplan, hresidual,
    ((make_keeps_rows hplan).1 _ _ rfl (by decide) (by decide) ?_).1⟩
  intro b hb c hc
  rcases hb with _ | ⟨_, _ | ⟨_, ⟨⟩⟩⟩
  · rcases hc with _ | ⟨_, _ | ⟨_, _ | ⟨_, ⟨⟩⟩⟩⟩
    · exact ⟨some true, rfl⟩
    · exact ⟨some true, rfl⟩
    · exact ⟨none, rfl⟩
  · rcases hc with _ | ⟨_, ⟨⟩⟩
    exact ⟨some true, rfl⟩

end FilterPlan

end Polystore
