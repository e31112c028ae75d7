import Polystore.Proofs.BranchTerms
import Polystore.Pushdown.WideColumn

/-
  Polystore/Proofs/KeyCoverage.lean
  =================================
  **A wide-column store is asked for whole partitions only.**  Two scans of the
  condition look for equalities on the partition key, and the equality that
  reaches the store is chosen by the merge of the terms.  They agree:

    * a term of the native filter has the field and the form of a term that the
      store accepted (`analyse_forms`), because merging changes values only;
    * a field for which an equality was accepted keeps one (`exists_eq_of_usable?`),
      because an equality is never given up for another term;
    * a condition that reads any column of the key is refused unless it pins all
      of them (`checkKey_pins`).
-/

namespace Polystore

/-! ### The form of a term -/

/-- The same field, and an equality or a range as the other one: all that a store
    with a key looks at. -/
structure Term.SameForm (t t' : Term) : Prop where
  field : t.field = t'.field
  isEquality : t.isEquality = t'.isEquality
  isRange : t.isRange = t'.isRange

theorem Term.SameForm.trans {t t' t'' : Term} (h : t.SameForm t') (h' : t'.SameForm t'') :
    t.SameForm t'' :=
  ⟨h.field.trans h'.field, h.isEquality.trans h'.isEquality, h.isRange.trans h'.isRange⟩

/-- The ends of a range have its form. -/
theorem Term.endwise_of_sameForm {A : Term → Prop} (hA : ∀ t t', t.SameForm t' → A t → A t') :
    Term.Endwise A := by
  have hsame (isLower : Bool) (i : Nat) (b : Bound) (lower upper : Option Bound) :
      (FieldTerms.boundTerm isLower i b).SameForm (.range i lower upper) ∧
        (Term.range i lower upper).SameForm (FieldTerms.boundTerm isLower i b) := by
    cases isLower <;> exact ⟨⟨rfl, rfl, rfl⟩, ⟨rfl, rfl, rfl⟩⟩
  refine ⟨fun h => hA _ _ (hsame ..).2 h, fun h => hA _ _ (hsame ..).2 h, ?_⟩
  intro i lower upper hsome hlower hupper
  rcases hsome with hsome | hsome
  · obtain ⟨b, hb⟩ := Option.isSome_iff_exists.mp hsome
    exact hA _ _ (hsame ..).1 (hlower b hb)
  · obtain ⟨b, hb⟩ := Option.isSome_iff_exists.mp hsome
    exact hA _ _ (hsame ..).1 (hupper b hb)

namespace FilterPlan

/-- A term of an analysed branch has the form of a usable one. -/
theorem analyse_forms {usable? : Expr → Option Term} {conjuncts : List Expr} {t : Term}
    (ht : t ∈ (analyse usable? conjuncts).terms) :
    ∃ c ∈ conjuncts, ∃ t', usable? c = some t' ∧ t'.SameForm t := by
  have hends : Term.Endwise fun t => ∃ c ∈ conjuncts, ∃ t', usable? c = some t' ∧ t'.SameForm t := by
    refine Term.endwise_of_sameForm ?_
    rintro t t' h ⟨c, hc, t'', hu, ht''⟩
    exact ⟨c, hc, t'', hu, ht''.trans h⟩
  exact analyse_every hends (fun c hc t hu => ⟨c, hc, t, hu, rfl, rfl, rfl⟩) ht

end FilterPlan

/-! ### Equalities -/

theorem FieldTerms.isSome_eq_add (s : FieldTerms) (t : Term) (e : Expr) :
    (s.add t e).1.eq.isSome = (s.eq.isSome || t.isEquality) := by
  cases t with
  | eq i v => cases hs : s.eq <;> simp [add, keepFirst, hs, Term.isEquality]
  | ne i v => cases hany : s.notEq.any (·.1 == v) <;> simp [add, hany, Term.isEquality]
  | range | isNull | isNotNull | like => simp [add, Term.isEquality]

namespace TermTable

/-- The field has an equality. -/
def HasEquality (k : Nat) (table : TermTable) : Prop :=
  ∃ s, (k, s) ∈ table ∧ s.eq.isSome = true

theorem hasEquality_add {k : Nat} {table : TermTable} {t : Term} {e : Expr}
    (h : table.HasEquality k ∨ t.field = k ∧ t.isEquality = true) :
    (table.add t e).1.HasEquality k := by
  -- a field that was not in the table
  have hnew : t.field = k ∧ t.isEquality = true →
      HasEquality k [(t.field, (FieldTerms.add {} t e).1)] := by
    rintro ⟨rfl, ht⟩
    exact ⟨_, List.mem_cons_self, by rw [FieldTerms.isSome_eq_add, ht, Bool.or_true]⟩
  induction table with
  | nil =>
    rcases h with ⟨s, hs, -⟩ | h
    · cases hs
    · exact hnew h
  | cons p rest ih =>
    rcases p with ⟨i, s⟩
    unfold add
    by_cases heq : t.field = i
    · simp only [heq, if_true]
      rcases h with ⟨s', hs', hsome⟩ | ⟨rfl, ht⟩
      · rcases List.mem_cons.mp hs' with hs' | hs'
        · obtain ⟨rfl, rfl⟩ := Prod.mk.inj hs'
          exact ⟨_, List.mem_cons_self, by rw [FieldTerms.isSome_eq_add, hsome, Bool.true_or]⟩
        · exact ⟨s', List.mem_cons_of_mem _ hs', hsome⟩
      · rw [heq]
        exact ⟨_, List.mem_cons_self, by rw [FieldTerms.isSome_eq_add, ht, Bool.or_true]⟩
    · simp only [heq, if_false]
      by_cases hlt : t.field < i
      · simp only [hlt, if_true]
        rcases h with ⟨s', hs', hsome⟩ | h
        · exact ⟨s', List.mem_cons_of_mem _ hs', hsome⟩
        · obtain ⟨s', hs', hsome⟩ := hnew h
          exact ⟨s', by simp [List.mem_singleton.mp hs'], hsome⟩
      · simp only [hlt, if_false]
        rcases h with ⟨s', hs', hsome⟩ | h
        · rcases List.mem_cons.mp hs' with hs' | hs'
          · exact ⟨s', by simp [hs'], hsome⟩
          · obtain ⟨s'', hs'', hsome⟩ := ih (.inl ⟨s', hs', hsome⟩)
            exact ⟨s'', List.mem_cons_of_mem _ hs'', hsome⟩
        · obtain ⟨s', hs', hsome⟩ := ih (.inr h)
          exact ⟨s', List.mem_cons_of_mem _ hs', hsome⟩

end TermTable

namespace FilterPlan

theorem hasEquality_collect {usable? : Expr → Option Term} {conjuncts : List Expr} {k : Nat}
    (table : TermTable) (left : List Expr)
    (h : table.HasEquality k ∨
      ∃ c ∈ conjuncts, ∃ t, usable? c = some t ∧ t.field = k ∧ t.isEquality = true) :
    (collect usable? table left conjuncts).1.HasEquality k := by
  induction conjuncts generalizing table left with
  | nil =>
    rcases h with h | ⟨c, hc, -⟩
    · exact h
    · cases hc
  | cons c rest ih =>
    unfold collect
    cases hu : usable? c with
    | none =>
      refine ih table _ (h.imp_right ?_)
      rintro ⟨x, hx, t, ht, hk⟩
      rcases List.mem_cons.mp hx with rfl | hx
      · rw [hu] at ht
        cases ht
      · exact ⟨x, hx, t, ht, hk⟩
    | some t =>
      apply ih
      rcases h with h | ⟨x, hx, t', ht', hk⟩
      · exact .inl (TermTable.hasEquality_add (.inl h))
      · rcases List.mem_cons.mp hx with rfl | hx
        · obtain rfl : t = t' := Option.some.inj (hu.symm.trans ht')
          exact .inl (TermTable.hasEquality_add (.inr hk))
        · exact .inr ⟨x, hx, t', ht', hk⟩

/-- A field for which an equality is usable gets one. -/
theorem exists_eq_of_usable? {usable? : Expr → Option Term} {conjuncts : List Expr} {c : Expr}
    {t : Term} (hc : c ∈ conjuncts) (hu : usable? c = some t) (ht : t.isEquality = true) :
    ∃ v, .eq t.field v ∈ (analyse usable? conjuncts).terms := by
  obtain ⟨s, hs, hsome⟩ := hasEquality_collect (k := t.field) [] [] (.inr ⟨c, hc, t, hu, rfl, ht⟩)
  obtain ⟨⟨v, e⟩, hv⟩ := Option.isSome_iff_exists.mp hsome
  refine ⟨v, List.mem_map.mpr ⟨(.eq t.field v, [e]), List.mem_flatMap.mpr ⟨_, hs, ?_⟩, rfl⟩⟩
  simp [FieldTerms.kept, hv]

end FilterPlan

/-! ### Conjuncts that pin a field -/

/-- The expression stands for a field in a comparison with the value: the field
    itself, a cast that changes nothing, or a cast from integers to doubles beside
    a value that is exactly an integer. -/
inductive Expr.StandsFor (k : Nat) (v : Value) : Expr → Prop
  | field {t : DataType} : StandsFor k v (.field k t)
  | sameType {t : DataType} : StandsFor k v (.call .cast [.field k t] t)
  | widened {i : Int64} (hi : FieldComparison.exactInteger? v = some i) :
    StandsFor k v (.call .cast [.field k .bigint] .double)

/-- The conjunct is an equality of a field with a literal other than `NULL`, in
    either order. -/
inductive Expr.Pins (k : Nat) : Expr → Prop
  | left {side : Expr} {v : Value} {t u : DataType} (hv : v.isNull = false)
    (hside : side.StandsFor k v) : Pins k (.call (.compare .eq) [side, .literal v t] u)
  | right {side : Expr} {v : Value} {t u : DataType} (hv : v.isNull = false)
    (hside : side.StandsFor k v) : Pins k (.call (.compare .eq) [.literal v t, side] u)

theorem TermValue.eq_of_ofExpr?_eq_literal {e : Expr} {v : Value}
    (h : TermValue.ofExpr? e = some (.literal v)) :
    ∃ w t, e = .literal w t ∧ w.isNull = false := by
  cases e with
  | literal w t =>
    cases hw : w.isNull with
    | true => simp [TermValue.ofExpr?, hw] at h
    | false => exact ⟨w, t, rfl, hw⟩
  | _ => simp [TermValue.ofExpr?] at h

namespace FieldComparison

variable {op : Comparison} {side operand : Expr} {c : FieldComparison} {k : Nat} {v : Value}

theorem direct?_literal (hv : v.isNull = false) (hside : side.StandsFor k v) (t : DataType)
    (op : Comparison) : ∃ w u, w.isNull = false ∧
      direct? op side (.literal v t) = some ⟨k, op, .literal w u⟩ := by
  cases hside with
  | field => exact ⟨v, t, hv, rfl⟩
  | @sameType s => exact ⟨v, t, hv, by simp [direct?, isValue, uncast?]⟩
  | @widened i hi => exact ⟨.bigint i, .bigint, rfl, by
      simp [direct?, isValue, uncast?, Expr.asLiteral?, hi, Expr.lit, Value.dataType]⟩

theorem direct?_of_standsFor (hside : side.StandsFor k v) : direct? op operand side = none := by
  cases hside <;> rfl

theorem isNull_of_exactInteger? {i : Int64} (h : exactInteger? v = some i) : v.isNull = false := by
  cases v <;> first | rfl | cases h

/-- A side that is recognized beside a literal stands for the field. -/
theorem standsFor_of_direct? (h : direct? op side operand = some c)
    (hc : TermValue.ofExpr? c.operand = some (.literal v)) :
    c.op = op ∧ ∃ w t, operand = .literal w t ∧ w.isNull = false ∧ side.StandsFor c.field w := by
  rcases c with ⟨i, cop, value⟩
  obtain ⟨hop, huncast⟩ := uncast_of_direct? h
  refine ⟨hop, ?_⟩
  cases huncast with
  | field =>
    obtain ⟨w, t, rfl, hw⟩ := TermValue.eq_of_ofExpr?_eq_literal hc
    exact ⟨w, t, rfl, hw, .field⟩
  | sameType =>
    obtain ⟨w, t, rfl, hw⟩ := TermValue.eq_of_ofExpr?_eq_literal hc
    exact ⟨w, t, rfl, hw, .sameType⟩
  | @widened w n hoperand hexact =>
    obtain ⟨t, rfl⟩ := Expr.asLiteral?_eq_some hoperand
    exact ⟨w, t, rfl, isNull_of_exactInteger? hexact, .widened hexact⟩

end FieldComparison

theorem Term.ofComparison_eq_iff {i k : Nat} {op : Comparison} {v w : TermValue} :
    ofComparison i op v = .eq k w ↔ op = .eq ∧ i = k ∧ v = w := by
  cases op <;> simp [ofComparison]

/-- The conjuncts that are recognized as equalities of a field with a literal. -/
theorem Expr.pins_iff {e : Expr} {k : Nat} :
    e.Pins k ↔ ∃ v, Term.ofExpr? e = some (.eq k (.literal v)) := by
  constructor
  · intro h
    cases h with
    | @left side v t u hv hside =>
      obtain ⟨w, _, hw, hdirect⟩ :=
        FieldComparison.direct?_literal hv hside t .eq
      exact ⟨w, by simp [Term.ofExpr?, FieldComparison.ofExpr?, hdirect, TermValue.ofExpr?, hw,
        Term.ofComparison]⟩
    | @right side v t u hv hside =>
      obtain ⟨w, _, hw, hdirect⟩ :=
        FieldComparison.direct?_literal hv hside t .eq
      exact ⟨w, by simp [Term.ofExpr?, FieldComparison.ofExpr?, Comparison.reverse, hdirect,
        FieldComparison.direct?_of_standsFor hside, TermValue.ofExpr?, hw, Term.ofComparison]⟩
  · rintro ⟨v, h⟩
    unfold Term.ofExpr? at h
    split at h
    · rename_i c hc
      obtain ⟨w, hw, hterm⟩ := Option.map_eq_some_iff.mp h
      obtain ⟨hop, rfl, rfl⟩ := Term.ofComparison_eq_iff.mp hterm
      obtain ⟨op, left, right, t, rfl, hdirect | hdirect⟩ :=
        FieldComparison.direct?_of_ofExpr? hc
      · obtain ⟨rfl, w, u, rfl, hw, hside⟩ := FieldComparison.standsFor_of_direct? hdirect hw
        rw [hop]
        exact .left hw hside
      · obtain ⟨hreverse, w, u, rfl, hw, hside⟩ :=
          FieldComparison.standsFor_of_direct? hdirect hw
        obtain rfl : op = .eq := by
          rw [hop] at hreverse
          cases op <;> simp [Comparison.reverse] at hreverse ⊢
        exact .right hw hside
    · split at h <;> simp at h

theorem pinnedFields_contains {conjuncts : List Expr} {k : Nat} :
    (pinnedFields conjuncts).contains k = true ↔ ∃ c ∈ conjuncts, c.Pins k := by
  simp only [pinnedFields, OrdinalSet.contains_ofList, List.mem_map, List.mem_filter,
    List.mem_filterMap, Expr.pins_iff]
  constructor
  · rintro ⟨t, ⟨⟨c, hc, ht⟩, hliteral⟩, rfl⟩
    match t, hliteral with
    | .eq i (.literal v), _ => exact ⟨c, hc, v, ht⟩
  · rintro ⟨c, hc, v, ht⟩
    exact ⟨_, ⟨⟨c, hc, ht⟩, rfl⟩, rfl⟩

/-! ### Conditions that read a field -/

namespace Expr

theorem fieldLists_eq_flatMap (es : List Expr) :
    fieldList.fieldLists es = es.flatMap fieldList := by
  induction es with
  | nil => rfl
  | cons e es ih => rw [fieldList.fieldLists, ih, List.flatMap_cons]

theorem contains_inputRefs {e : Expr} {i : Nat} :
    e.inputRefs.contains i = true ↔ i ∈ e.fieldList := by
  rw [inputRefs, OrdinalSet.contains_ofList]

theorem OccursIn.fieldList_subset {e x : Expr} (h : x.OccursIn e) : x.fieldList ⊆ e.fieldList := by
  induction h with
  | self => exact List.Subset.refl _
  | operand hy _ ih =>
    intro i hi
    rw [fieldList, fieldLists_eq_flatMap]
    exact List.mem_flatMap.mpr ⟨_, hy, ih hi⟩

end Expr

theorem FieldComparison.field_mem_of_direct? {op : Comparison} {side operand : Expr}
    {c : FieldComparison} (h : direct? op side operand = some c) : c.field ∈ side.fieldList := by
  rcases c with ⟨i, cop, value⟩
  cases (uncast_of_direct? h).2 <;> simp [Expr.fieldList, Expr.fieldList.fieldLists]

/-- A conjunct reads the field of its term. -/
theorem Term.field_mem_fieldList {e : Expr} {t : Term} (h : ofExpr? e = some t) :
    t.field ∈ e.fieldList := by
  unfold ofExpr? at h
  split at h
  · rename_i c hc
    obtain ⟨v, -, rfl⟩ := Option.map_eq_some_iff.mp h
    have hfield : (ofComparison c.field c.op v).field = c.field := by
      cases c.op <;> rfl
    rw [hfield]
    obtain ⟨op, left, right, t, rfl, hdirect⟩ := FieldComparison.direct?_of_ofExpr? hc
    simp only [Expr.fieldList, Expr.fieldList.fieldLists, List.append_nil, List.mem_append]
    exact hdirect.imp FieldComparison.field_mem_of_direct? FieldComparison.field_mem_of_direct?
  · split at h <;> cases h <;> simp [Expr.fieldList, Expr.fieldList.fieldLists, field]

/-! ### The check of the key -/

namespace FilterPlan

variable {ctx : PushContext} {condition : Expr} {support : FilterSupport} {accept : Term → Bool}

/-- A condition that passes and reads a column of the key pins all of them in
    every branch. -/
theorem checkKey_pins {branches : List (List Expr)} {k : Nat}
    (h : checkKey ctx condition branches = .ok ()) (hk : k ∈ ctx.partitionKey)
    (hread : condition.inputRefs.contains k = true) :
    ∀ b ∈ branches, ∀ k ∈ ctx.partitionKey, (pinnedFields b).contains k = true := by
  have hany : ctx.partitionKey.any condition.inputRefs.contains = true :=
    List.any_eq_true.mpr ⟨k, hk, hread⟩
  induction branches with
  | nil => simp
  | cons conjuncts rest ih =>
    simp only [checkKey, hany, if_true] at h
    split at h
    · rename_i hempty
      have hpinned : ∀ k ∈ ctx.partitionKey, (pinnedFields conjuncts).contains k = true := by
        simpa [List.filter_eq_nil_iff] using hempty
      intro b hb
      rcases List.mem_cons.mp hb with rfl | hb
      · exact hpinned
      · exact ih h b hb
    · cases h

/-- What has been checked of a condition that is split. -/
theorem make_checked {plan : FilterPlan} (h : make condition ctx support accept = .ok plan) :
    condition.branches ≠ [] ∧
      (support.disjunction = false → condition.branches.length ≤ 1) ∧
      (support.keyCoverage = true → checkKey ctx condition condition.branches = .ok ()) ∧
      firstEmpty? (condition.branches.map (analyse (usable? ctx support accept))) = none := by
  have hne : condition.branches ≠ [] := by
    intro hnil
    simp [make, hnil, bind, Except.bind, throw, throwThe, MonadExceptOf.throw] at h
  have hsingle : ¬(1 < condition.branches.length ∧ support.disjunction = false) := by
    intro hmany
    simp [make, hne, hmany, bind, Except.bind, throw, throwThe, MonadExceptOf.throw] at h
  have hkey : support.keyCoverage = true → checkKey ctx condition condition.branches = .ok () := by
    intro hcoverage
    cases hcheck : checkKey ctx condition condition.branches with
    | ok _ => rfl
    | error reason => simp [make, hne, hsingle, hcoverage, hcheck, bind, Except.bind] at h
  refine ⟨hne, fun hdisjunction => Nat.not_lt.mp fun hlt => hsingle ⟨hlt, hdisjunction⟩, hkey, ?_⟩
  cases hempty : firstEmpty? (condition.branches.map (analyse (usable? ctx support accept))) with
  | none => rfl
  | some i =>
    cases hcoverage : support.keyCoverage with
    | false =>
      simp [make, hne, hsingle, hcoverage, hempty, bind, Except.bind, throw, throwThe,
        MonadExceptOf.throw] at h
    | true =>
      simp [make, hne, hsingle, hcoverage, hkey hcoverage, hempty, bind, Except.bind, throw,
        throwThe, MonadExceptOf.throw] at h

end FilterPlan

/-! ### The native filter -/

namespace WideColumn

variable {e : Expr} {ctx : PushContext}

theorem accepts_sameForm {pinned : Bool} {t t' : Term} (h : t.SameForm t') :
    accepts ctx pinned t = accepts ctx pinned t' := by
  rw [accepts, accepts, h.field, h.isEquality, h.isRange]

/-- What the store accepts: an equality on the partition key, or an equality or a
    range on the clustering key beside a pinned partition key. -/
theorem accepts_iff {pinned : Bool} {t : Term} : accepts ctx pinned t = true ↔
    t.field ∈ ctx.partitionKey ∧ t.isEquality = true ∨
      t.field ∉ ctx.partitionKey ∧ t.field ∈ ctx.clusteringKey ∧ pinned = true ∧
        (t.isEquality = true ∨ t.isRange = true) := by
  unfold accepts PushContext.inPartitionKey PushContext.inClusteringKey
  by_cases hpartition : t.field ∈ ctx.partitionKey
  · simp [hpartition]
  · by_cases hclustering : t.field ∈ ctx.clusteringKey <;> simp [hpartition, hclustering]

/-- A filter with a native part has one branch, and this pins the key. -/
theorem branch_pins_key {plan : FilterPlan}
    (h : FilterPlan.make e ctx support (accepts ctx (keyPinned e ctx)) = .ok plan) :
    ∃ conjuncts, e.branches = [conjuncts] ∧
      plan.branches =
        [(FilterPlan.analyse (FilterPlan.usable? ctx support (accepts ctx (keyPinned e ctx)))
          conjuncts).terms] ∧
      ∀ k ∈ ctx.partitionKey, (pinnedFields conjuncts).contains k = true := by
  obtain ⟨hbranches, -⟩ := FilterPlan.make_eq_ok h
  obtain ⟨hne, hone, hcheck, hempty⟩ := FilterPlan.make_checked h
  obtain ⟨conjuncts, hsingle⟩ : ∃ conjuncts, e.branches = [conjuncts] := by
    have hlength := hone rfl
    match hb : e.branches, hne, hlength with
    | [conjuncts], _, _ => exact ⟨conjuncts, rfl⟩
  rw [hsingle] at hbranches hcheck hempty
  refine ⟨conjuncts, hsingle, hbranches, fun k hk => ?_⟩
  -- some term was usable: it is either on the key, so that the check has passed, or on
  -- the clustering key, which takes a pinned key
  obtain ⟨t, ht⟩ : ∃ t, t ∈ (FilterPlan.analyse (FilterPlan.usable? ctx support
      (accepts ctx (keyPinned e ctx))) conjuncts).terms := by
    refine List.exists_mem_of_ne_nil _ fun hnil => ?_
    simp [FilterPlan.firstEmpty?, hnil] at hempty
  obtain ⟨c, hc, t', hu, -⟩ := FilterPlan.analyse_forms ht
  obtain ⟨hterm, hveto⟩ := Option.filter_eq_some_iff.mp hu
  have haccepts : accepts ctx (keyPinned e ctx) t' = true := (Bool.and_eq_true_iff.mp hveto).2
  rcases accepts_iff.mp haccepts with ⟨hpartition, -⟩ | ⟨-, -, hpinned, -⟩
  · have hread : e.inputRefs.contains t'.field = true := by
      have hoccurs : c.OccursIn e := Expr.occursIn_of_mem_branches (by simp [hsingle]) hc
      exact Expr.contains_inputRefs.mpr
        (hoccurs.fieldList_subset (Term.field_mem_fieldList hterm))
    exact FilterPlan.checkKey_pins (hcheck rfl) hpartition hread conjuncts (by simp) k hk
  · rw [keyPinned, hsingle] at hpinned
    exact List.all_eq_true.mp hpinned k hk

/-- The two outcomes of pushing a filter. -/
theorem filter_cases (e : Expr) (ctx : PushContext) : (∃ reason, filter e ctx = .refused reason) ∨
    ∃ plan native, FilterPlan.make e ctx support (accepts ctx (keyPinned e ctx)) = .ok plan ∧
      (filter e ctx).native? = some native ∧ native.clause = .filter ∧
      native.body = .plain (clause ctx plan.branches.flatten) := by
  unfold filter pushFilter
  cases FilterPlan.make e ctx support (accepts ctx (keyPinned e ctx)) with
  | error reason => exact .inl ⟨reason, rfl⟩
  | ok plan =>
    refine .inr ⟨plan, ⟨.wideColumn, .filter, .plain (clause ctx plan.branches.flatten),
      plan.params⟩, rfl, ?_, rfl, rfl⟩
    cases hresidual : plan.residual <;> simp [hresidual, Pushdown.native?, support]

/-- What the text of a filter may be put together from: an equality on a column of the
    key, or a bound on one of the clustering key. -/
inductive Piece (ctx : PushContext) : String → Prop
  | equality {k : Nat} {v : TermValue} (hk : k ∈ ctx.partitionKey ∨ k ∈ ctx.clusteringKey) :
    Piece ctx (quoteName (ctx.name k) ++ " = " ++ v.clauseText)
  | bound {k : Nat} {comparison : String} {v : TermValue} (hk : k ∈ ctx.clusteringKey)
    (hcomparison : comparison ∈ [">", ">=", "<", "<="]) :
    Piece ctx (quoteName (ctx.name k) ++ " " ++ comparison ++ " " ++ v.clauseText)

/-- The ends of a range are bounds, from below and from above. -/
theorem piece_of_bound {k : Nat} {b : Option Bound} {strict inclusive piece : String}
    (hk : k ∈ ctx.clusteringKey) (hstrict : strict ∈ [">", ">=", "<", "<="])
    (hinclusive : inclusive ∈ [">", ">=", "<", "<="])
    (h : piece ∈ bound (quoteName (ctx.name k)) strict inclusive b) : Piece ctx piece := by
  obtain ⟨b, -, rfl⟩ := List.mem_map.mp h
  split
  · exact .bound hk hinclusive
  · exact .bound hk hstrict

/-- What a term of a filter restricts: a column of the partition key by an equality, or
    one of the clustering key. -/
def OnKey (ctx : PushContext) (t : Term) : Prop :=
  t.field ∈ ctx.partitionKey ∧ t.isEquality = true ∨
    t.field ∈ ctx.clusteringKey ∧ (t.isEquality = true ∨ t.isRange = true)

theorem piece_of_conditions {t : Term} {piece : String} (ht : OnKey ctx t)
    (h : piece ∈ conditions ctx t) : Piece ctx piece := by
  cases t with
  | eq k v =>
    obtain rfl := List.mem_singleton.mp h
    exact .equality (ht.imp And.left And.left)
  | range k lower upper =>
    have hk : k ∈ ctx.clusteringKey := by
      rcases ht with ⟨-, hequality⟩ | ⟨hk, -⟩
      · cases hequality
      · exact hk
    rcases List.mem_append.mp h with h | h
    · exact piece_of_bound hk (by simp) (by simp) h
    · exact piece_of_bound hk (by simp) (by simp) h
  | _ => cases h

section

variable {plan : FilterPlan}
  (hplan : FilterPlan.make e ctx support (accepts ctx (keyPinned e ctx)) = .ok plan)

include hplan

theorem onKey_of_make {t : Term} (ht : t ∈ plan.branches.flatten) : OnKey ctx t := by
  obtain ⟨conjuncts, -, hbranches, -⟩ := branch_pins_key hplan
  rw [hbranches, List.flatten_singleton] at ht
  obtain ⟨c, -, t', hu, hform⟩ := FilterPlan.analyse_forms ht
  obtain ⟨-, hveto⟩ := Option.filter_eq_some_iff.mp hu
  have haccepts : accepts ctx (keyPinned e ctx) t = true :=
    accepts_sameForm hform ▸ (Bool.and_eq_true_iff.mp hveto).2
  rcases accepts_iff.mp haccepts with h | ⟨-, hclustering, -, h⟩
  · exact .inl h
  · exact .inr ⟨hclustering, h⟩

theorem exists_eq_of_make {k : Nat} (hk : k ∈ ctx.partitionKey) (hlt : k < ctx.names.length) :
    ∃ v, Term.eq k v ∈ plan.branches.flatten := by
  obtain ⟨conjuncts, -, hbranches, hpins⟩ := branch_pins_key hplan
  obtain ⟨c, hc, hpin⟩ := pinnedFields_contains.mp (hpins k hk)
  obtain ⟨v, hterm⟩ := Expr.pins_iff.mp hpin
  have hname : (ctx.name? k).isSome = true := by
    simpa [PushContext.name?] using hlt
  have haccepts : accepts ctx (keyPinned e ctx) (.eq k (.literal v)) = true :=
    accepts_iff.mpr (.inl ⟨hk, rfl⟩)
  have hu : FilterPlan.usable? ctx support (accepts ctx (keyPinned e ctx)) c =
      some (.eq k (.literal v)) := by
    refine Option.filter_eq_some_iff.mpr ⟨hterm, ?_⟩
    simp [haccepts, Term.field, hname, support]
  rw [hbranches, List.flatten_singleton]
  exact FilterPlan.exists_eq_of_usable? hc hu rfl

end

/-- The text of a native filter is made of pieces with ` AND ` between them.  One of them
    sets every column of the partition key equal to something; beside that there are
    equalities and bounds on the clustering key only.  A condition that does not set every
    column of the partition key equal to a literal is refused, whether it reads the key or
    not. -/
theorem filter_pins_key (hkey : ∀ k ∈ ctx.partitionKey, k < ctx.names.length) :
    (∀ native, (filter e ctx).native? = some native →
      ∃ pieces : List String, native.clause = .filter ∧
        native.body = .plain (String.intercalate " AND " pieces) ∧
        (∀ k ∈ ctx.partitionKey, ∃ v : TermValue,
          quoteName (ctx.name k) ++ " = " ++ v.clauseText ∈ pieces) ∧
        (∀ piece ∈ pieces, Piece ctx piece) ∧
        ∃ terms : List Term, pieces = terms.flatMap (conditions ctx) ∧
          (∀ k ∈ ctx.partitionKey, ∃ v, .eq k v ∈ terms) ∧ ∀ t ∈ terms, OnKey ctx t) ∧
    ∀ k ∈ ctx.partitionKey,
      (∀ conjuncts, e.branches = [conjuncts] → ∀ c ∈ conjuncts, ¬c.Pins k) →
        ∃ reason, filter e ctx = .refused reason := by
  constructor
  · intro native hnative
    rcases filter_cases e ctx with ⟨reason, hrefused⟩ |
      ⟨plan, native', hplan, hnative', hclause, hbody⟩
    · rw [hrefused] at hnative
      cases hnative
    obtain rfl : native' = native := Option.some.inj (hnative'.symm.trans hnative)
    have hequal : ∀ k ∈ ctx.partitionKey, ∃ v, Term.eq k v ∈ plan.branches.flatten :=
      fun k hk => exists_eq_of_make hplan hk (hkey k hk)
    have hterms : ∀ t ∈ plan.branches.flatten, OnKey ctx t := fun t => onKey_of_make hplan
    refine ⟨plan.branches.flatten.flatMap (conditions ctx), hclause, hbody, ?_, ?_,
      plan.branches.flatten, rfl, hequal, hterms⟩
    · intro k hk
      obtain ⟨v, hv⟩ := hequal k hk
      exact ⟨v, List.mem_flatMap.mpr ⟨.eq k v, hv, List.mem_singleton.mpr rfl⟩⟩
    · intro piece hpiece
      obtain ⟨t, ht, hpiece⟩ := List.mem_flatMap.mp hpiece
      exact piece_of_conditions (hterms t ht) hpiece
  · intro k hk hfree
    rcases filter_cases e ctx with hrefused | ⟨plan, -, hplan, -⟩
    · exact hrefused
    · obtain ⟨conjuncts, hsingle, -, hpins⟩ := branch_pins_key hplan
      obtain ⟨c, hc, hpin⟩ := pinnedFields_contains.mp (hpins k hk)
      exact absurd hpin (hfree conjuncts hsingle c hc)

/-- Events by day and sensor, in the order of their time. -/
def eventContext : PushContext :=
  { names := ["day", "sensor", "time", "level"]
    partitionKey := [0, 1]
    clusteringKey := [2]
    table := some "events" }

/-- The day is `7`. -/
def onDay : Expr := .apply (.compare .eq) [.field 0 .bigint, .lit (.bigint 7)]

/-- Events of one sensor on the day, if it is the day asked for, from a time on. -/
def lateEvents : Expr :=
  .apply .and
    [.apply (.compare .eq) [.field 0 .bigint, .param 0 .bigint],
      .apply (.compare .eq) [.lit (.string "north"), .field 1 .string], onDay,
      .apply (.compare .ge) [.field 2 .bigint, .lit (.bigint 90)]]

theorem filter_pins_key_events :
    (∃ native pieces, (filter lateEvents eventContext).native? = some native ∧
      native.body = .plain (String.intercalate " AND " pieces) ∧
      (∃ v : TermValue, quoteName "day" ++ " = " ++ v.clauseText ∈ pieces) ∧
      (∃ v : TermValue, quoteName "sensor" ++ " = " ++ v.clauseText ∈ pieces) ∧
      ∀ piece ∈ pieces, Piece eventContext piece) ∧
    ∃ reason, filter onDay eventContext = .refused reason := by
  have hkey : ∀ k ∈ eventContext.partitionKey, k < eventContext.names.length := by decide
  constructor
  · have hpushed : (filter lateEvents eventContext).native?.isSome = true := by rfl
    obtain ⟨native, hnative⟩ := Option.isSome_iff_exists.mp hpushed
    obtain ⟨pieces, -, hbody, hequal, hpieces, -⟩ := (filter_pins_key hkey).1 native hnative
    exact ⟨native, pieces, hnative, hbody, hequal 0 (by decide), hequal 1 (by decide), hpieces⟩
  · refine (filter_pins_key hkey).2 1 (by decide) ?_
    rintro _ ⟨⟩ c hc hpin
    obtain rfl := List.mem_singleton.mp hc
    obtain ⟨v, hv⟩ := Expr.pins_iff.mp hpin
    cases hv

end WideColumn

end Polystore
