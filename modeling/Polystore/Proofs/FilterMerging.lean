import Mathlib
import Polystore.Optimizer.LogicalRules
import Polystore.Proofs.Outcomes
import Polystore.Proofs.Truth
import Polystore.Proofs.ValueOrder

/-
  Polystore/Proofs/FilterMerging.lean
  ===================================
  **Two filters and the one that replaces them.**  Two filters in a row look at
  the upper condition only where the lower one is `TRUE`.  The merged filter
  evaluates one conjunction, and with it all of its operands on every row.

    * Opening nested conjunctions, and leaving out `TRUE` and what is there
      already, changes nothing that a connective can notice (`Alike`).
    * So the merged condition has the truth value of the conjunction of the two
      (`mergedCondition_eval`).
    * It is `TRUE` exactly where both conditions are, even if one of them comes to
      an error elsewhere (`mergedCondition_is_true_iff`).

  What the merged condition does not keep is that the upper one is left alone on
  rows that the lower one drops: there its errors come out.

  A conjunct counts as present already when an equal one is, and literals are
  compared with doubles as numbers.  So `$0 / -0.0 > 5.0` is lost beside
  `$0 / 0.0 > 5.0` (`mergedCondition_loses_conjunct`), and the statements speak of
  conditions whose conjuncts are the same where they are equal (`SameWhereEqual`).
-/

namespace Polystore

namespace Expr

variable {row params : List Value}

/-! ### Equal expressions -/

/-- The doubles among the literals. -/
def doubles : Expr → List Float
  | literal (.double x) _ => [x]
  | literal .. | field .. | param .. => []
  | call _ operands _ => doublesAll operands
where
  doublesAll : List Expr → List Float
    | [] => []
    | e :: rest => doubles e ++ doublesAll rest

theorem mem_doublesAll {x : Float} {es : List Expr} :
    x ∈ doubles.doublesAll es ↔ ∃ e ∈ es, x ∈ e.doubles := by
  induction es with
  | nil => simp [doubles.doublesAll]
  | cons e es ih => simp [doubles.doublesAll, ih]

theorem OccursIn.doubles_subset {e x : Expr} (h : x.OccursIn e) : x.doubles ⊆ e.doubles := by
  induction h with
  | self => exact List.Subset.refl _
  | operand hy _ ih => exact fun d hd => mem_doublesAll.mpr ⟨_, hy, ih hd⟩

/-- Doubles of the two lists that are equal as numbers are the same double. -/
def DoublesAgree (us vs : List Float) : Prop := ∀ u ∈ us, ∀ v ∈ vs, (u == v) = true → u = v

theorem DoublesAgree.mono {us us' vs vs' : List Float} (h : DoublesAgree us vs)
    (hu : us' ⊆ us) (hv : vs' ⊆ vs) : DoublesAgree us' vs' := by
  intro u hmem v hmem'
  exact h u (hu hmem) v (hv hmem')

/-- Only the two zeros are equal as numbers without being the same double. -/
theorem doublesAgree_of_zeros {us : List Float}
    (h : ¬((0 : Float) ∈ us ∧ (-0 : Float) ∈ us)) : DoublesAgree us us := by
  intro u hu v hv heq
  obtain ⟨-, -, rfl | ⟨rfl, rfl⟩ | ⟨rfl, rfl⟩⟩ := Float.beq_iff_ne_nan_and_eq.mp heq
  · rfl
  · exact absurd ⟨hu, hv⟩ h
  · exact absurd ⟨hv, hu⟩ h

theorem value_eq_of_beq {v w : Value} {t u : DataType}
    (hdoubles : DoublesAgree (literal v t).doubles (literal w u).doubles)
    (h : (v == w) = true) : v = w := by
  cases hv : v.isDouble with
  | false => exact Value.eq_of_beq hv h
  | true =>
    match v, w, h with
    | .double x, .double y, h =>
      rw [hdoubles x (by simp [doubles]) y (by simp [doubles]) h]

theorem eq_of_beqAll {xs ys : List Expr}
    (ih : ∀ x ∈ xs, ∀ y, DoublesAgree x.doubles y.doubles → Expr.beq x y = true → x = y)
    (hdoubles : DoublesAgree (doubles.doublesAll xs) (doubles.doublesAll ys))
    (h : Expr.beq.beqAll xs ys = true) : xs = ys := by
  induction xs generalizing ys with
  | nil =>
    cases ys with
    | nil => rfl
    | cons => simp [Expr.beq.beqAll] at h
  | cons x xs ihxs =>
    cases ys with
    | nil => simp [Expr.beq.beqAll] at h
    | cons y ys =>
      simp only [Expr.beq.beqAll, Bool.and_eq_true] at h
      simp only [doubles.doublesAll] at hdoubles
      have hhead : x = y := ih x (by simp) y
        (hdoubles.mono (List.subset_append_left _ _) (List.subset_append_left _ _)) h.1
      have htail : xs = ys := ihxs (fun z hz => ih z (List.mem_cons_of_mem x hz))
        (hdoubles.mono (List.subset_append_right _ _) (List.subset_append_right _ _)) h.2
      rw [hhead, htail]

/-- Expressions that the program takes for equal are the same, if their doubles
    are. -/
theorem eq_of_beq {a b : Expr} (hdoubles : DoublesAgree a.doubles b.doubles)
    (h : (a == b) = true) : a = b := by
  change Expr.beq a b = true at h
  induction a using operandInduction generalizing b with
  | literal v t =>
    cases b with
    | literal w u =>
      simp only [Expr.beq, Bool.and_eq_true, decide_eq_true_eq] at h
      rw [value_eq_of_beq hdoubles h.1, h.2]
    | _ => simp [Expr.beq] at h
  | field i t =>
    cases b with
    | field j u =>
      simp only [Expr.beq, Bool.and_eq_true, decide_eq_true_eq] at h
      rw [h.1, h.2]
    | _ => simp [Expr.beq] at h
  | param i t =>
    cases b with
    | param j u =>
      simp only [Expr.beq, Bool.and_eq_true, decide_eq_true_eq] at h
      rw [h.1, h.2]
    | _ => simp [Expr.beq] at h
  | call op operands t ih =>
    cases b with
    | call op' operands' t' =>
      simp only [Expr.beq, Bool.and_eq_true, decide_eq_true_eq] at h
      obtain ⟨⟨rfl, hall⟩, rfl⟩ := h
      rw [eq_of_beqAll (fun x hx y hxy => ih x hx hxy) hdoubles hall]
    | _ => simp [Expr.beq] at h

/-! ### Operands that may stand for others -/

section

variable {decisive sawNull : Bool} {v w : Value} {vs ws vs' ws' : List Value}

theorem connect_decisive (h : truth v = .ok (some decisive)) (rest : List Value) :
    connect decisive sawNull (v :: rest) = .ok (.bool decisive) := by
  simp [connect, h, bind, Except.bind]

theorem connect_unit (h : truth v = .ok (some !decisive)) (rest : List Value) :
    connect decisive sawNull (v :: rest) = connect decisive sawNull rest := by
  simp [connect, h, bind, Except.bind]

theorem connect_null (h : truth v = .ok none) (rest : List Value) :
    connect decisive sawNull (v :: rest) = connect decisive true rest := by
  simp [connect, h, bind, Except.bind]

theorem connect_error {e : Error} (h : truth v = .error e) (rest : List Value) :
    connect decisive sawNull (v :: rest) = .error e := by
  simp [connect, h, bind, Except.bind]

/-- What a connective does with its next value: it stops with an error or at the
    decisive truth value, passes over the other one, or notes a `NULL`. -/
theorem truth_cases (decisive : Bool) (v : Value) :
    (∃ e, truth v = .error e) ∨ truth v = .ok (some decisive) ∨
      truth v = .ok (some !decisive) ∨ truth v = .ok none := by
  match truth v with
  | .error e => exact .inl ⟨e, rfl⟩
  | .ok none => simp
  | .ok (some b) => cases b <;> cases decisive <;> simp

/-- Among the operands of a connective the first values may be replaced by the
    second, whatever comes before and after. -/
def Alike (decisive : Bool) (vs ws : List Value) : Prop :=
  ∀ sawNull rest, connect decisive sawNull (vs ++ rest) = connect decisive sawNull (ws ++ rest)

theorem Alike.refl (vs : List Value) : Alike decisive vs vs := fun _ _ => rfl

theorem Alike.trans {us : List Value} (h : Alike decisive us vs) (h' : Alike decisive vs ws) :
    Alike decisive us ws := fun sawNull rest => (h sawNull rest).trans (h' sawNull rest)

theorem Alike.symm (h : Alike decisive vs ws) : Alike decisive ws vs :=
  fun sawNull rest => (h sawNull rest).symm

theorem connect_congr (xs : List Value) {rest rest' : List Value}
    (h : ∀ sawNull, connect decisive sawNull rest = connect decisive sawNull rest')
    (sawNull : Bool) :
    connect decisive sawNull (xs ++ rest) = connect decisive sawNull (xs ++ rest') := by
  induction xs generalizing sawNull with
  | nil => exact h sawNull
  | cons x xs ih => simp only [List.cons_append, connect, ih]

theorem Alike.append (h : Alike decisive vs ws) (h' : Alike decisive vs' ws') :
    Alike decisive (vs ++ vs') (ws ++ ws') := by
  intro sawNull rest
  rw [List.append_assoc, List.append_assoc, h]
  exact connect_congr ws (fun b => h' b rest) sawNull

/-- A value is passed over that is not decisive and adds no `NULL` to what was
    seen. -/
theorem connect_idle
    (h : truth v = .ok (some !decisive) ∨ truth v = .ok none ∧ sawNull = true)
    (xs rest : List Value) :
    connect decisive sawNull (xs ++ v :: rest) = connect decisive sawNull (xs ++ rest) := by
  induction xs generalizing sawNull with
  | nil =>
    rcases h with h | ⟨h, rfl⟩
    · exact connect_unit h rest
    · exact connect_null h rest
  | cons x xs ih =>
    have hnull : connect decisive true (xs ++ v :: rest) = connect decisive true (xs ++ rest) :=
      ih (h.imp_right fun h => ⟨h.1, rfl⟩)
    simp only [List.cons_append, connect, ih h, hnull]

/-- A value that came before may be left out: if it had been decisive, it would not
    have been reached again. -/
theorem Alike.repeated (h : v ∈ vs) : Alike decisive (vs ++ [v]) vs := by
  intro sawNull rest
  rw [List.append_assoc, List.singleton_append]
  induction vs generalizing sawNull with
  | nil => cases h
  | cons x xs ih =>
    rcases List.mem_cons.mp h with rfl | h
    · rw [List.cons_append, List.cons_append]
      rcases truth_cases decisive v with ⟨e, hv⟩ | hv | hv | hv
      · rw [connect_error hv, connect_error hv]
      · rw [connect_decisive hv, connect_decisive hv]
      · rw [connect_unit hv, connect_unit hv]
        exact connect_idle (.inl hv) xs rest
      · rw [connect_null hv, connect_null hv]
        exact connect_idle (.inr ⟨hv, rfl⟩) xs rest
    · simp only [List.cons_append, connect, ih h]

theorem connect_append {seen : Bool} (h : connect decisive seen vs = .ok w)
    (sawNull : Bool) (rest : List Value) :
    connect decisive (sawNull || seen) (vs ++ rest) = connect decisive sawNull (w :: rest) := by
  induction vs generalizing seen with
  | nil =>
    obtain rfl := Except.ok.inj h
    cases seen with
    | true => rw [Bool.or_true, if_pos rfl, connect_null rfl, List.nil_append]
    | false => rw [Bool.or_false, if_neg Bool.false_ne_true, connect_unit rfl, List.nil_append]
  | cons v vs ih =>
    rw [List.cons_append]
    rcases truth_cases decisive v with ⟨e, hv⟩ | hv | hv | hv
    · rw [connect_error hv] at h
      cases h
    · rw [connect_decisive hv] at h ⊢
      obtain rfl := Except.ok.inj h
      exact (connect_decisive rfl rest).symm
    · rw [connect_unit hv] at h ⊢
      exact ih h
    · rw [connect_null hv] at h ⊢
      simpa using ih h

/-- The value of a connective may stand for the operands that gave it. -/
theorem Alike.of_connect (h : connect decisive false vs = .ok w) : Alike decisive vs [w] := by
  intro sawNull rest
  simpa using connect_append h sawNull rest

theorem connect_singleton (h : connect decisive false [v] = .ok w) : v = w := by
  cases v with
  | null => exact Except.ok.inj h
  | bool b =>
    rcases Bool.eq_or_eq_not b decisive with rfl | rfl
    · exact Except.ok.inj ((connect_decisive rfl []).symm.trans h)
    · exact Except.ok.inj ((connect_unit rfl []).symm.trans h)
  | _ => cases h

/-- A connective has its unit as value only when all operands have. -/
theorem connect_eq_unit {seen : Bool} (h : connect decisive seen vs = .ok (.bool !decisive)) :
    seen = false ∧ ∀ v ∈ vs, v = .bool !decisive := by
  induction vs generalizing seen with
  | nil =>
    cases seen with
    | true => cases h
    | false => simp
  | cons v vs ih =>
    rcases truth_cases decisive v with ⟨e, hv⟩ | hv | hv | hv
    · rw [connect_error hv] at h
      cases h
    · rw [connect_decisive hv] at h
      cases decisive <;> cases h
    · rw [connect_unit hv] at h
      have hvalue : v = .bool !decisive := by
        cases v <;> simp_all [truth]
      exact ⟨(ih h).1, List.forall_mem_cons.mpr ⟨hvalue, (ih h).2⟩⟩
    · rw [connect_null hv] at h
      exact absurd (ih h).1 Bool.noConfusion

end

/-! ### Conjuncts of a condition that has a value -/

variable {op : Operator} {decisive : Bool}

theorem Connective.eval_call (hop : Connective op decisive) (operands : List Expr)
    (t : DataType) :
    (call op operands t).eval row params =
      (do connect decisive false (← eval.evalAll row params operands)) := by
  cases hop <;> rfl

/-- Operands that evaluate to values which may stand for the given ones. -/
def StandFor (row params : List Value) (decisive : Bool) (es : List Expr)
    (ws : List Value) : Prop :=
  ∃ vs, List.Forall₂ (fun e v => e.eval row params = .ok v) es vs ∧ Alike decisive vs ws

theorem StandFor.of_eval {e : Expr} {v : Value} (h : e.eval row params = .ok v) :
    StandFor row params decisive [e] [v] := ⟨[v], .cons h .nil, .refl _⟩

theorem StandFor.trans {es : List Expr} {vs ws : List Value}
    (h : StandFor row params decisive es vs) (hvs : Alike decisive vs ws) :
    StandFor row params decisive es ws := by
  obtain ⟨us, hus, halike⟩ := h
  exact ⟨us, hus, halike.trans hvs⟩

theorem StandFor.append {es es' : List Expr} {ws ws' : List Value}
    (h : StandFor row params decisive es ws) (h' : StandFor row params decisive es' ws') :
    StandFor row params decisive (es ++ es') (ws ++ ws') := by
  obtain ⟨vs, hvs, halike⟩ := h
  obtain ⟨vs', hvs', halike'⟩ := h'
  exact ⟨vs ++ vs', List.rel_append hvs hvs', halike.append halike'⟩

/-- Opening a connective that has a value gives operands with values. -/
theorem flatten_standFor (hop : Connective op decisive) {e : Expr} {v : Value}
    (h : e.eval row params = .ok v) : StandFor row params decisive (e.flatten op) [v] := by
  induction e using operandInduction generalizing v with
  | literal _ _ => exact .of_eval h
  | field _ _ => exact .of_eval h
  | param _ _ => exact .of_eval h
  | call op' operands t ih =>
    by_cases hsame : op' = op
    · subst hsame
      rw [hop.eval_call] at h
      obtain ⟨us, hus, hconnect⟩ := except_bind_eq_ok.mp h
      have hparts : StandFor row params decisive (operands.flatMap (flatten op')) us := by
        rw [evalAll_eq_ok] at hus
        clear h hconnect
        induction hus with
        | nil => exact ⟨[], .nil, .refl _⟩
        | cons hu _ ihrest =>
          exact (ih _ (by simp) hu).append
            (ihrest fun x hx => ih x (List.mem_cons_of_mem _ hx))
      simp only [flatten, if_true, flattenAll_eq_flatMap]
      exact hparts.trans (.of_connect hconnect)
    · simp only [flatten, hsame, if_false]
      exact .of_eval h

/-- Parts with the unit as value may be left out. -/
theorem StandFor.filter {es : List Expr} {ws : List Value} {keep : Expr → Bool}
    (h : StandFor row params decisive es ws)
    (hunit : ∀ e ∈ es, keep e = false → e.Is row params (!decisive)) :
    StandFor row params decisive (es.filter keep) ws := by
  obtain ⟨vs, hvs, halike⟩ := h
  apply StandFor.trans _ halike
  clear halike
  induction hvs with
  | nil => exact ⟨[], .nil, .refl _⟩
  | @cons e v es vs hv _ ih =>
    have hrest := ih fun x hx => hunit x (List.mem_cons_of_mem e hx)
    cases hkeep : keep e with
    | true =>
      rw [List.filter_cons_of_pos hkeep]
      exact (StandFor.of_eval hv).append hrest
    | false =>
      rw [List.filter_cons_of_neg (by simp [hkeep])]
      obtain rfl : v = .bool !decisive :=
        Except.ok.inj (hv.symm.trans (hunit e (by simp) hkeep))
      apply hrest.trans
      intro sawNull rest
      exact (connect_unit rfl (vs ++ rest)).symm

theorem conjuncts_standFor {e : Expr} {v : Value} (h : e.eval row params = .ok v) :
    StandFor row params false e.conjuncts [v] := by
  apply (flatten_standFor .and h).filter
  intro c _ hc
  exact is_true_of_isTrue (by simpa using hc)

/-- Joined by a connective, expressions have the value of what may stand for them. -/
theorem StandFor.eval_join (hop : Connective op decisive) {unit : Expr}
    (hunit : unit.Is row params (!decisive)) {es : List Expr} {ws : List Value} {w : Value}
    (h : StandFor row params decisive es ws) (hw : connect decisive false ws = .ok w) :
    (join op unit es).eval row params = .ok w := by
  obtain ⟨vs, hvs, halike⟩ := h
  have hconnect : connect decisive false vs = .ok w := by
    simpa [hw] using halike false []
  match es, hvs with
  | [], .nil => exact hunit.trans hconnect
  | [e], .cons he .nil => exact he.trans (connect_singleton hconnect ▸ rfl)
  | e :: e' :: es, hvs =>
    have hjoin : join op unit (e :: e' :: es) = apply op (e :: e' :: es) := rfl
    rw [hjoin, apply, hop.eval_call, evalAll_eq_ok.mpr hvs]
    exact hconnect

theorem is_true_of_allOf {es : List Expr} (h : (allOf es).Is row params true) :
    ∀ e ∈ es, e.Is row params true := by
  match es with
  | [] => simp
  | [e] => exact List.forall_mem_singleton.mpr h
  | e :: e' :: es =>
    have hjoin : allOf (e :: e' :: es) = apply .and (e :: e' :: es) := rfl
    unfold Is at h
    rw [hjoin, apply, Connective.and.eval_call] at h
    obtain ⟨vs, hvs, hconnect⟩ := except_bind_eq_ok.mp h
    have hunit : ∀ v ∈ vs, v = .bool true := by
      have hvalue : connect false false vs = .ok (.bool !false) := hconnect
      exact (connect_eq_unit hvalue).2
    intro x hx
    obtain ⟨v, hv, heval⟩ := exists_of_forall₂_left (evalAll_eq_ok.mp hvs) x hx
    rw [hunit v hv] at heval
    exact heval

end Expr

open Polystore.Expr

namespace FilterMerge

variable {row params : List Value} {lower upper : Expr}

/-- What is equal to something in front of it, as the program sees it, is the same
    expression. -/
def SameWhereEqual (cs ds : List Expr) : Prop :=
  ∀ d ∈ ds, ∀ c ∈ cs ++ ds, (d == c) = true → d = c

theorem mergedConjuncts_cons (cs ds : List Expr) (d : Expr) :
    mergedConjuncts cs (d :: ds) =
      mergedConjuncts (if cs.contains d then cs else cs ++ [d]) ds := rfl

namespace SameWhereEqual

variable {cs ds : List Expr} {d : Expr}

theorem mem (h : SameWhereEqual cs (d :: ds)) (hd : cs.contains d = true) : d ∈ cs := by
  rw [List.contains_iff_exists_mem_beq] at hd
  obtain ⟨c, hc, heq⟩ := hd
  exact h d (by simp) c (by simp [hc]) heq ▸ hc

theorem skip (h : SameWhereEqual cs (d :: ds)) : SameWhereEqual cs ds := by
  intro d' hd' c hc
  apply h d' (List.mem_cons_of_mem d hd')
  simp only [List.mem_append, List.mem_cons] at hc ⊢
  exact hc.imp_right .inr

theorem keep (h : SameWhereEqual cs (d :: ds)) : SameWhereEqual (cs ++ [d]) ds := by
  intro d' hd' c hc
  apply h d' (List.mem_cons_of_mem d hd')
  simpa using hc

end SameWhereEqual

variable {cs ds : List Expr}

/-- Leaving out what is there already changes nothing. -/
theorem mergedConjuncts_standFor {vs ws : List Value}
    (hsame : SameWhereEqual cs ds)
    (hcs : List.Forall₂ (fun e v => e.eval row params = .ok v) cs vs)
    (hds : List.Forall₂ (fun e v => e.eval row params = .ok v) ds ws) :
    StandFor row params false (mergedConjuncts cs ds) (vs ++ ws) := by
  induction hds generalizing cs vs with
  | nil => exact ⟨vs, hcs, by simpa using Alike.refl vs⟩
  | @cons d w ds ws hd _ ih =>
    rw [mergedConjuncts_cons]
    by_cases hmem : cs.contains d = true
    · obtain ⟨w', hw', heval⟩ := exists_of_forall₂_left hcs d (hsame.mem hmem)
      obtain rfl : w' = w := Except.ok.inj (heval.symm.trans hd)
      rw [if_pos hmem]
      apply (ih hsame.skip hcs).trans
      simpa using ((Alike.repeated hw').append (.refl ws)).symm
    · rw [if_neg hmem]
      simpa using ih hsame.keep (List.rel_append hcs (.cons hd .nil))

/-- Every conjunct of the two conditions is in the merged one. -/
theorem subset_mergedConjuncts (hsame : SameWhereEqual cs ds) :
    cs ++ ds ⊆ mergedConjuncts cs ds := by
  induction ds generalizing cs with
  | nil => simp [mergedConjuncts]
  | cons d ds ih =>
    rw [mergedConjuncts_cons]
    by_cases hmem : cs.contains d = true
    · have hd : d ∈ cs := hsame.mem hmem
      rw [if_pos hmem]
      intro x hx
      apply ih hsame.skip
      simp only [List.mem_append, List.mem_cons] at hx ⊢
      rcases hx with hx | rfl | hx
      · exact .inl hx
      · exact .inl hd
      · exact .inr hx
    · rw [if_neg hmem]
      simpa using ih hsame.keep

/-! ### The merged condition -/

/-- Of the two zeros at most one is written in the conditions. -/
def OneZero (lower upper : Expr) : Prop :=
  ¬((0 : Float) ∈ lower.doubles ++ upper.doubles ∧ (-0 : Float) ∈ lower.doubles ++ upper.doubles)

theorem OneZero.sameWhereEqual (h : OneZero lower upper) :
    SameWhereEqual lower.conjuncts upper.conjuncts := by
  have hdoubles := doublesAgree_of_zeros h
  have hupper : ∀ c ∈ upper.conjuncts, c.doubles ⊆ lower.doubles ++ upper.doubles :=
    fun c hc => List.subset_append_of_subset_right _ (occursIn_of_mem_conjuncts hc).doubles_subset
  have hlower : ∀ c ∈ lower.conjuncts, c.doubles ⊆ lower.doubles ++ upper.doubles :=
    fun c hc => List.subset_append_of_subset_left _ (occursIn_of_mem_conjuncts hc).doubles_subset
  intro d hd c hc heq
  rcases List.mem_append.mp hc with hc | hc
  · exact eq_of_beq (hdoubles.mono (hupper d hd) (hlower c hc)) heq
  · exact eq_of_beq (hdoubles.mono (hupper d hd) (hupper c hc)) heq

/-- Where both conditions have truth values, the merged one has that of their
    conjunction. -/
theorem mergedCondition_eval (hsame : SameWhereEqual lower.conjuncts upper.conjuncts)
    {t u : Option Bool}
    (hlower : lower.eval row params = .ok (ofTruth t))
    (hupper : upper.eval row params = .ok (ofTruth u)) :
    (mergedCondition lower upper).eval row params =
      .ok (ofTruth (settle false false [t, u])) := by
  obtain ⟨vs, hvs, halike⟩ := conjuncts_standFor hlower
  obtain ⟨ws, hws, halike'⟩ := conjuncts_standFor hupper
  have hmerged : StandFor row params false (mergedConjuncts lower.conjuncts upper.conjuncts)
      ([ofTruth t] ++ [ofTruth u]) :=
    (mergedConjuncts_standFor hsame hvs hws).trans (halike.append halike')
  have hunit : trueLit.Is row params true := rfl
  exact hmerged.eval_join .and hunit (connect_ofTruth false false [t, u])

theorem is_true_of_conjuncts {e : Expr} (h : ∀ c ∈ e.conjuncts, c.Is row params true) :
    e.Is row params true :=
  (conjuncts_evaluate fun c hc => .of_is (h c hc)).unit_iff.mpr h

/-- The merged condition is `TRUE` exactly where both conditions are, whatever else
    they come to elsewhere. -/
theorem mergedCondition_is_true_iff (hsame : SameWhereEqual lower.conjuncts upper.conjuncts) :
    (mergedCondition lower upper).Is row params true ↔
      lower.Is row params true ∧ upper.Is row params true := by
  constructor
  · intro h
    have hall : ∀ c ∈ lower.conjuncts ++ upper.conjuncts, c.Is row params true :=
      fun c hc => is_true_of_allOf h c (subset_mergedConjuncts hsame hc)
    rw [List.forall_mem_append] at hall
    exact ⟨is_true_of_conjuncts hall.1, is_true_of_conjuncts hall.2⟩
  · rintro ⟨hlower, hupper⟩
    exact mergedCondition_eval hsame (t := some true) (u := some true) hlower hupper

/-- Where no conjunct of the upper condition is merely equal to another one, the merged
    filter keeps the rows that pass both filters.  It raises no error
    where both conditions have a truth value: the conjunction evaluates all its
    operands on every row, also the upper condition on rows that the lower one
    drops, and takes nothing but truth values. -/
theorem merged?_keeps_rows {top bottom : Node} {below input : NodeId}
    (htop : top.op = .filter below upper) (hbottom : bottom.op = .filter input lower)
    (hsame : SameWhereEqual lower.conjuncts upper.conjuncts) :
    ∃ condition, merged? top bottom = some ⟨.filter input condition, top.traits, top.row, none⟩ ∧
      ∀ row params : List Value,
        (condition.eval row params = .ok (.bool true) ↔
          lower.eval row params = .ok (.bool true) ∧ upper.eval row params = .ok (.bool true)) ∧
        (lower.HasTruth row params → upper.HasTruth row params →
          condition.HasTruth row params) := by
  refine ⟨mergedCondition lower upper, ?_, fun row params => ⟨?_, ?_⟩⟩
  · simp only [merged?, htop, hbottom]
  · exact mergedCondition_is_true_iff hsame
  · rintro ⟨t, hlower⟩ ⟨u, hupper⟩
    exact ⟨_, mergedCondition_eval hsame hlower hupper⟩

/-- The divisor `$0` is not zero. -/
def divisorNonzero : Expr := .apply (.compare .ne) [.field 0 .bigint, .lit (.bigint 0)]

/-- The quotient `10 / $0` is above 1. -/
def quotientAboveOne : Expr :=
  .apply (.compare .gt) [.apply (.arith .divide) [.lit (.bigint 10), .field 0 .bigint],
    .lit (.bigint 1)]

/-- The field `$1` is above `0.0`. -/
def aboveZero : Expr := .apply (.compare .gt) [.field 1 .double, .lit (.double 0)]

def filterOn (input : NodeId) (condition : Expr) : Node :=
  ⟨.filter input condition, {}, ⟨[]⟩, none⟩

theorem merged?_keeps_rows_guarded :
    ∃ condition,
      merged? (filterOn ⟨1⟩ (.apply .and [quotientAboveOne, .trueLit, divisorNonzero]))
          (filterOn ⟨0⟩ (.apply .and [aboveZero, divisorNonzero])) =
        some (filterOn ⟨0⟩ condition) ∧
      condition.eval [.bigint 5, .double 0.5] [] = .ok (.bool true) ∧
      condition.HasTruth [.null, .double 0.5] [] := by
  have hzero : OneZero (.apply .and [aboveZero, divisorNonzero])
      (.apply .and [quotientAboveOne, .trueLit, divisorNonzero]) := by
    rintro ⟨-, h⟩
    exact absurd (List.mem_singleton.mp h) (by decide)
  obtain ⟨condition, hmerged, h⟩ := merged?_keeps_rows (show (filterOn ⟨1⟩ _).op = _ from rfl)
    (show (filterOn ⟨0⟩ _).op = _ from rfl) hzero.sameWhereEqual
  exact ⟨condition, hmerged, (h _ _).1.mpr ⟨rfl, rfl⟩, (h _ _).2 ⟨none, rfl⟩ ⟨none, rfl⟩⟩

/-- The quotient of `$0` and a double is above `5.0`. -/
def quotientAboveFive (divisor : Float) : Expr :=
  .apply (.compare .gt) [.apply (.arith .divide) [.field 0 .double, .lit (.double divisor)],
    .lit (.double (Float.ofBits 0x4014000000000000))]

/-- The quotient by the negative zero is taken for the quotient by zero that is there
    already.  So the merged condition keeps a row that the upper filter drops. -/
theorem mergedCondition_loses_conjunct :
    let row := [Value.double (Float.ofBits 0x3FF8000000000000)]
    (quotientAboveFive 0).eval row [] = .ok (.bool true) ∧
      (quotientAboveFive (-0)).eval row [] = .ok (.bool false) ∧
      (mergedCondition (quotientAboveFive 0) (quotientAboveFive (-0))).eval row [] =
        .ok (.bool true) ∧
      ¬SameWhereEqual (quotientAboveFive 0).conjuncts (quotientAboveFive (-0)).conjuncts := by
  intro row
  have hequal : (quotientAboveFive (-0) == quotientAboveFive 0) = true := by decide +kernel
  refine ⟨rfl, rfl, rfl, ?_⟩
  intro hsame
  have heq := hsame (quotientAboveFive (-0)) List.mem_cons_self (quotientAboveFive 0)
    List.mem_cons_self hequal
  obtain ⟨hzero, -⟩ : (-0 : Float) = 0 ∧ _ := List.cons.inj (congrArg doubles heq)
  exact absurd hzero (by decide)

/-- Merging is not invisible: on a row that the lower filter drops, the two filters
    raise no error, but the merged one divides by zero. -/
theorem mergedCondition_divides_by_zero :
    divisorNonzero.eval [.bigint 0] [] = .ok (.bool false) ∧
      (mergedCondition divisorNonzero quotientAboveOne).eval [.bigint 0] [] =
        .error divisionByZero := ⟨rfl, rfl⟩

end FilterMerge

end Polystore
