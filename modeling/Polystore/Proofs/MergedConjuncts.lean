import Polystore.Proofs.DoubleOrder
import Polystore.Proofs.ExprTexts
import Polystore.Proofs.FilterMerging

/-
  Polystore/Proofs/MergedConjuncts.lean
  =====================================
  **What is in a merged condition.**  Merging keeps the conjuncts of the lower condition
  and appends those of the upper one that are not among them.  A conjunct with a NaN is
  not equal to itself, so it is appended each time, and the number of such conjuncts
  adds up (`nans_mergedConjuncts`); any other one comes in once.  So the merged
  conditions are finitely many as long as the number of NaN conjuncts is bounded
  (`finite_gathered`).

  Conditions of one text have equally many NaN conjuncts, unless a NaN is hidden in an
  operand of a cast behind the first, which the text leaves out (`ReadsAs.nans_eq`).
-/

namespace Polystore

/-- NaN is written as `NaN`, and no other double is. -/
theorem Number.render_eq_nan_iff {x : Float} :
    literal.render x = "NaN" ↔ x = Float.nan := by
  refine ⟨fun h => ?_, ?_⟩
  · by_contra hne
    obtain ⟨p, q, hp, -⟩ := beq_iff_position.mp (Float.beq_self_iff.mpr hne)
    rw [position?] at hp
    unfold Layout.render at h
    cases hparts : parts x with
    | nan =>
      rw [hparts] at hp
      cases hp
    | infinite negative =>
      rw [hparts] at h
      cases negative <;> exact absurd h (by decide)
    | finite negative significand exponent =>
      rw [hparts] at h
      obtain ⟨c, rest, hlead, hc⟩ :=
        (isDecimal_literal (shortest literal.tie significand exponent)).leading
      have htext := congrArg String.toList h
      simp only [String.toList_ofList, hlead] at htext
      cases negative with
      | true => exact absurd (List.cons.inj htext).1 (by decide)
      | false =>
        obtain rfl := (List.cons.inj htext).1
        exact absurd hc (by decide)
  · rintro rfl
    decide

namespace Expr

/-! ### NaN in conditions -/

/-- The doubles that the text of an expression shows.  Of a cast it shows the first
    operand only. -/
def shownDoubles : Expr → List Float
  | literal (.double x) _ => [x]
  | literal .. | field .. | param .. => []
  | call .cast operands _ => ofFirst operands
  | call _ operands _ => ofAll operands
where
  ofFirst : List Expr → List Float
    | [] => []
    | e :: _ => shownDoubles e
  ofAll : List Expr → List Float
    | [] => []
    | e :: rest => shownDoubles e ++ ofAll rest

/-- A NaN among the literals is not shown. -/
def HidesNan (e : Expr) : Prop := Float.nan ∈ e.doubles ∧ Float.nan ∉ e.shownDoubles

theorem shownDoubles_call {op : Operator} (hop : op ≠ .cast) (operands : List Expr) (t : DataType) :
    (call op operands t).shownDoubles = shownDoubles.ofAll operands := by
  cases op <;> first | rfl | exact absurd rfl hop

theorem mem_ofAll {x : Float} {es : List Expr} :
    x ∈ shownDoubles.ofAll es ↔ ∃ e ∈ es, x ∈ e.shownDoubles := by
  induction es with
  | nil => simp [shownDoubles.ofAll]
  | cons e es ih => simp [shownDoubles.ofAll, ih]

theorem shownDoubles_subset (e : Expr) : e.shownDoubles ⊆ e.doubles := by
  induction e using operandInduction with
  | literal v t => cases v <;> exact List.Subset.refl _
  | field i t => exact List.Subset.refl _
  | param i t => exact List.Subset.refl _
  | call op operands t ih =>
    intro x hx
    refine mem_doublesAll.mpr ?_
    by_cases hop : op = .cast
    · subst hop
      cases operands with
      | nil => cases hx
      | cons e es => exact ⟨e, List.mem_cons_self, ih e List.mem_cons_self hx⟩
    · rw [shownDoubles_call hop, mem_ofAll] at hx
      obtain ⟨e, he, hx⟩ := hx
      exact ⟨e, he, ih e he hx⟩

/-- Expressions of one text show NaN both or not at all. -/
theorem ReadsAs.nan_shown_iff {e e' : Expr} (h : e.ReadsAs e') :
    Float.nan ∈ e.shownDoubles ↔ Float.nan ∈ e'.shownDoubles := by
  induction e using operandInduction generalizing e' with
  | literal v t =>
    cases h with
    | literal h =>
      cases h with
      | same v => cases v <;> exact Iff.rfl
      | @double x y hrender =>
        have hiff : x = Float.nan ↔ y = Float.nan := by
          rw [← Number.render_eq_nan_iff, hrender, Number.render_eq_nan_iff]
        simpa [shownDoubles, eq_comm] using hiff
  | field i t =>
    cases h with
    | field => exact Iff.rfl
  | param i t =>
    cases h with
    | param => exact Iff.rfl
  | call op xs t ih =>
    cases h with
    | @call _ _ ys _ _ hop h =>
      rw [shownDoubles_call hop, shownDoubles_call hop, mem_ofAll, mem_ofAll]
      constructor
      · rintro ⟨x, hx, hmem⟩
        obtain ⟨y, hy, hxy⟩ := exists_of_forall₂_left h x hx
        exact ⟨y, hy, (ih x hx hxy).mp hmem⟩
      · rintro ⟨y, hy, hmem⟩
        obtain ⟨x, hx, hxy⟩ := exists_of_forall₂_right h y hy
        exact ⟨x, hx, (ih x hx hxy).mpr hmem⟩
    | @cast _ ys _ hfirst =>
      match xs, ys, hfirst with
      | [], [], _ => exact Iff.rfl
      | x :: xs, y :: ys, .some hxy =>
        have hiff := ih x List.mem_cons_self hxy
        exact hiff

/-! ### Conjuncts that are not equal to themselves -/

theorem beqAll_self {es : List Expr} (h : ∀ e ∈ es, Expr.beq e e = true) :
    Expr.beq.beqAll es es = true := by
  induction es with
  | nil => rfl
  | cons e es ih =>
    rw [Expr.beq.beqAll, h e List.mem_cons_self, ih fun x hx => h x (List.mem_cons_of_mem e hx)]
    rfl

/-- Without NaN an expression is equal to itself. -/
theorem beq_self {e : Expr} (h : Float.nan ∉ e.doubles) : (e == e) = true := by
  change Expr.beq e e = true
  induction e using operandInduction with
  | literal v t =>
    have hv : (v == v) = true := by
      cases v with
      | double x =>
        have hx : x ≠ Float.nan := fun hx => h (hx ▸ List.mem_singleton_self x)
        exact Float.beq_self_iff.mpr hx
      | binary bytes => exact (beq_self_eq_true bytes : (bytes == bytes) = true)
      | null => rfl
      | _ => simp [BEq.beq, instBEqValue.beq]
    rw [Expr.beq, hv]
    simp
  | field i t => simp [Expr.beq]
  | param i t => simp [Expr.beq]
  | call op operands t ih =>
    have hall : Expr.beq.beqAll operands operands = true := by
      refine beqAll_self fun e he => ih e he fun hnan => h ?_
      exact mem_doublesAll.mpr ⟨e, he, hnan⟩
    rw [Expr.beq, hall]
    simp

theorem nan_notMem_of_beqAll {xs ys : List Expr}
    (ih : ∀ x ∈ xs, ∀ y, Expr.beq x y = true → Float.nan ∉ x.doubles)
    (h : Expr.beq.beqAll xs ys = true) : Float.nan ∉ doubles.doublesAll xs := by
  induction xs generalizing ys with
  | nil => simp [doubles.doublesAll]
  | cons x xs ihxs =>
    cases ys with
    | nil => simp [Expr.beq.beqAll] at h
    | cons y ys =>
      simp only [Expr.beq.beqAll, Bool.and_eq_true] at h
      simp only [doubles.doublesAll, List.mem_append, not_or]
      exact ⟨ih x List.mem_cons_self y h.1,
        ihxs (fun z hz => ih z (List.mem_cons_of_mem x hz)) h.2⟩

/-- What is equal to something has no NaN. -/
theorem nan_notMem_of_beq {a b : Expr} (h : (a == b) = true) : Float.nan ∉ a.doubles := by
  change Expr.beq a b = true at h
  induction a using operandInduction generalizing b with
  | literal v t =>
    cases b with
    | literal w u =>
      simp only [Expr.beq, Bool.and_eq_true] at h
      cases v with
      | double x =>
        cases w with
        | double y =>
          have hx : x ≠ Float.nan := (Float.beq_iff_ne_nan_and_eq.mp h.1).1
          simpa [doubles] using Ne.symm hx
        | _ => exact absurd h.1 (by simp [BEq.beq, instBEqValue.beq])
      | _ => simp [doubles]
    | _ => simp [Expr.beq] at h
  | field i t => simp [doubles]
  | param i t => simp [doubles]
  | call op operands t ih =>
    cases b with
    | call op' operands' t' =>
      simp only [Expr.beq, Bool.and_eq_true] at h
      exact nan_notMem_of_beqAll (fun x hx y hxy => ih x hx hxy) h.1.2
    | _ => simp [Expr.beq] at h

theorem beq_self_iff {e : Expr} : (e == e) = true ↔ Float.nan ∉ e.doubles :=
  ⟨nan_notMem_of_beq, beq_self⟩

/-- How many of the conjuncts are not equal to themselves. -/
def nans (es : List Expr) : Nat := es.countP fun e => !(e == e)

theorem nans_append (es fs : List Expr) : nans (es ++ fs) = nans es + nans fs :=
  List.countP_append

theorem forall₂_flatMap {R P : Expr → Expr → Prop} {f : Expr → List Expr} {es fs : List Expr}
    (h : List.Forall₂ R es fs)
    (hf : ∀ e ∈ es, ∀ e', R e e' → List.Forall₂ P (f e) (f e')) :
    List.Forall₂ P (es.flatMap f) (fs.flatMap f) := by
  induction h with
  | nil => exact .nil
  | @cons e e' es fs he _ ih =>
    rw [List.flatMap_cons, List.flatMap_cons]
    exact List.rel_append (hf e List.mem_cons_self e' he)
      (ih fun x hx => hf x (List.mem_cons_of_mem e hx))

/-- Opening a connective in expressions of one text gives expressions of one text. -/
theorem ReadsAs.flatten {e e' : Expr} (h : e.ReadsAs e') (op : Operator) (hop : op ≠ .cast) :
    List.Forall₂ ReadsAs (e.flatten op) (e'.flatten op) := by
  induction e using operandInduction generalizing e' with
  | literal v t =>
    cases h with
    | literal h => exact .cons (.literal h) .nil
  | field i t =>
    cases h with
    | field => exact .cons .field .nil
  | param i t =>
    cases h with
    | param => exact .cons .param .nil
  | call op' xs t ih =>
    cases h with
    | @call _ _ ys _ _ hop' hoperands =>
      by_cases hsame : op' = op
      · subst hsame
        simp only [Expr.flatten, if_true, flattenAll_eq_flatMap]
        exact forall₂_flatMap hoperands fun x hx _ hxy => ih x hx hxy
      · simp only [Expr.flatten, hsame, if_false]
        exact .cons (.call hop' hoperands) .nil
    | cast hfirst =>
      simp only [Expr.flatten, Ne.symm hop, if_false]
      exact .cons (.cast hfirst) .nil

theorem ReadsAs.isTrue_eq {e e' : Expr} (h : e.ReadsAs e') : e.isTrue = e'.isTrue := by
  cases h with
  | @literal v _ _ _ h =>
    cases h with
    | same => cases v <;> rfl
    | double => rfl
  | _ => rfl

/-- Conditions of one text have conjuncts of one text. -/
theorem ReadsAs.conjuncts {e e' : Expr} (h : e.ReadsAs e') :
    List.Forall₂ ReadsAs e.conjuncts e'.conjuncts := by
  refine List.rel_filter (fun x y hxy => ?_) (h.flatten .and (by decide))
  simp only [hxy.isTrue_eq]

/-- Where no conjunct hides a NaN, the text of a condition tells how many have one. -/
theorem ReadsAs.nans_eq {e e' : Expr} (h : e.ReadsAs e')
    (he : ∀ c ∈ e.conjuncts, ¬c.HidesNan) (he' : ∀ c ∈ e'.conjuncts, ¬c.HidesNan) :
    nans e.conjuncts = nans e'.conjuncts := by
  have hshown {c : Expr} (hc : ¬c.HidesNan) :
      (!(c == c)) = true ↔ Float.nan ∈ c.shownDoubles := by
    rw [Bool.not_eq_true', ← Bool.not_eq_true, beq_self_iff, not_not]
    refine ⟨fun hmem => ?_, fun hmem => c.shownDoubles_subset hmem⟩
    by_contra hhidden
    exact hc ⟨hmem, hhidden⟩
  have hall := h.conjuncts
  revert he he'
  generalize e.conjuncts = cs at hall
  generalize e'.conjuncts = ds at hall
  induction hall with
  | nil => intros; rfl
  | @cons c d cs ds hcd _ ih =>
    intro he he'
    obtain ⟨hc, he⟩ := List.forall_mem_cons.mp he
    obtain ⟨hd, he'⟩ := List.forall_mem_cons.mp he'
    have hiff : (!(c == c)) = (!(d == d)) := by
      rw [Bool.eq_iff_iff, hshown hc, hcd.nan_shown_iff, hshown hd]
    rw [nans, nans, List.countP_cons, List.countP_cons, hiff]
    exact congrArg (· + _) (ih he he')

/-! ### Conjuncts of a conjunction -/

theorem flatten_of_mem_flatten {op : Operator} {e c : Expr} (h : c ∈ e.flatten op) :
    c.flatten op = [c] := by
  induction e using operandInduction with
  | call op' operands t ih =>
    by_cases hsame : op' = op
    · simp only [Expr.flatten, hsame, if_true, flattenAll_eq_flatMap] at h
      obtain ⟨x, hx, hc⟩ := List.mem_flatMap.mp h
      exact ih x hx hc
    · simp only [Expr.flatten, hsame, if_false, List.mem_singleton] at h
      rw [h]
      simp only [Expr.flatten, hsame, if_false]
  | _ =>
    obtain rfl := List.mem_singleton.mp h
    rfl

/-- A conjunct is its only one. -/
theorem conjuncts_of_mem_conjuncts {e c : Expr} (h : c ∈ e.conjuncts) : c.conjuncts = [c] := by
  obtain ⟨hflat, htrue⟩ := List.mem_filter.mp h
  rw [Expr.conjuncts, flatten_of_mem_flatten hflat]
  exact List.filter_eq_self.mpr (List.forall_mem_singleton.mpr htrue)

/-- Conjuncts that have been joined come out again. -/
theorem conjuncts_allOf {es : List Expr} (h : ∀ c ∈ es, c.conjuncts = [c]) :
    (allOf es).conjuncts = es := by
  match es with
  | [] => rfl
  | [c] => exact h c List.mem_cons_self
  | c :: d :: es =>
    have hjoin : (allOf (c :: d :: es)).flatten .and =
        (c :: d :: es).flatMap (Expr.flatten .and) := by
      rw [← flattenAll_eq_flatMap]
      rfl
    rw [Expr.conjuncts, hjoin, List.filter_flatMap]
    exact (List.flatMap_congr h).trans (List.flatMap_singleton' _)

end Expr

open Polystore.Expr

/-- Finitely many elements make finitely many lists of a bounded length. -/
theorem finite_lists {γ : Type} {s : Set γ} (hs : s.Finite) (length : Nat) :
    {es : List γ | (∀ e ∈ es, e ∈ s) ∧ es.length ≤ length}.Finite := by
  have hfinite : Finite s := hs
  refine ((List.finite_length_le s length).image (List.map Subtype.val)).subset ?_
  rintro es ⟨hmem, hlength⟩
  lift es to List s using hmem
  exact ⟨es, by simpa using hlength, rfl⟩

namespace FilterMerge

/-- What merging appends to the lower conjuncts: all with a NaN, and of the others those
    that are new, each once. -/
theorem mergedConjuncts_eq_append (cs ds : List Expr) : ∃ new, mergedConjuncts cs ds = cs ++ new ∧
    new ⊆ ds ∧ (new.filter fun d => d == d).Nodup ∧
      (∀ d ∈ new, (d == d) = true → d ∉ cs) ∧ nans new = nans ds := by
  induction ds generalizing cs with
  | nil => exact ⟨[], by simp [mergedConjuncts], by simp, by simp, by simp, rfl⟩
  | cons d ds ih =>
    rw [mergedConjuncts_cons]
    by_cases hmem : cs.contains d = true
    · obtain ⟨new, heq, hsub, hnodup, hnew, hnans⟩ := ih cs
      have hself : (d == d) = true := by
        rw [List.contains_iff_exists_mem_beq] at hmem
        obtain ⟨c, -, hc⟩ := hmem
        exact beq_self (nan_notMem_of_beq hc)
      rw [if_pos hmem]
      refine ⟨new, heq, List.subset_cons_of_subset d hsub, hnodup, hnew, ?_⟩
      rw [hnans, nans, nans, List.countP_cons, hself]
      rfl
    · obtain ⟨new, heq, hsub, hnodup, hnew, hnans⟩ := ih (cs ++ [d])
      rw [if_neg hmem]
      refine ⟨d :: new, by rw [heq]; simp, List.cons_subset_cons d hsub, ?_, ?_, ?_⟩
      · by_cases hself : (d == d) = true
        · rw [List.filter_cons, if_pos hself, List.nodup_cons]
          refine ⟨fun hd => ?_, hnodup⟩
          have hd' := hnew d (List.mem_filter.mp hd).1 hself
          simp at hd'
        · rwa [List.filter_cons, if_neg hself]
      · intro x hx hself hcs
        rcases List.mem_cons.mp hx with rfl | hx
        · refine hmem (List.contains_iff_exists_mem_beq.mpr ⟨x, hcs, hself⟩)
        · exact hnew x hx hself (List.mem_append_left _ hcs)
      · rw [nans, nans, List.countP_cons, List.countP_cons]
        exact congrArg (· + _) hnans

theorem nans_mergedConjuncts (cs ds : List Expr) :
    nans (mergedConjuncts cs ds) = nans cs + nans ds := by
  obtain ⟨new, heq, -, -, -, hnans⟩ := mergedConjuncts_eq_append cs ds
  rw [heq, nans_append, hnans]

/-! ### Gathered conjuncts -/

/-- Conjuncts that come from merging conditions with the given conjuncts: the first ones
    are those of a condition, and of the rest those without a NaN have come in once. -/
def Gathered (conditions : Set (List Expr)) (es : List Expr) : Prop :=
  ∃ first ∈ conditions, ∃ rest, es = first ++ rest ∧ (∀ c ∈ rest, ∃ cs ∈ conditions, c ∈ cs) ∧
    (rest.filter fun c => c == c).Nodup

variable {conditions : Set (List Expr)} {cs ds : List Expr}

theorem Gathered.of_mem (h : cs ∈ conditions) : Gathered conditions cs :=
  ⟨cs, h, [], by simp, by simp, by simp⟩

theorem Gathered.mem (h : Gathered conditions cs) {c : Expr} (hc : c ∈ cs) :
    ∃ ds ∈ conditions, c ∈ ds := by
  obtain ⟨first, hfirst, rest, rfl, hrest, -⟩ := h
  rcases List.mem_append.mp hc with hc | hc
  · exact ⟨first, hfirst, hc⟩
  · exact hrest c hc

theorem Gathered.merged (h : Gathered conditions cs) (h' : Gathered conditions ds) :
    Gathered conditions (mergedConjuncts cs ds) := by
  obtain ⟨new, heq, hsub, hnodup', hnew, -⟩ := mergedConjuncts_eq_append cs ds
  obtain ⟨first, hfirst, rest, rfl, hrest, hnodup⟩ := h
  refine ⟨first, hfirst, rest ++ new, by rw [heq, List.append_assoc], ?_, ?_⟩
  · refine List.forall_mem_append.mpr ⟨hrest, fun c hc => h'.mem (hsub hc)⟩
  · rw [List.filter_append]
    refine List.nodup_append'.mpr ⟨hnodup, hnodup', fun c hc hc' => ?_⟩
    obtain ⟨hmem, hself⟩ := List.mem_filter.mp hc'
    exact hnew c hmem hself (List.mem_append_right _ (List.mem_filter.mp hc).1)

/-- Finitely many conditions give finitely many merged ones with a bounded number of
    NaN conjuncts. -/
theorem finite_gathered (h : conditions.Finite) (bound : Nat) :
    {es | Gathered conditions es ∧ nans es ≤ bound}.Finite := by
  have hconjuncts : {c | ∃ cs ∈ conditions, c ∈ cs}.Finite := by
    refine (h.biUnion fun cs _ => List.finite_toSet cs).subset ?_
    rintro c ⟨cs, hcs, hc⟩
    exact Set.mem_biUnion hcs hc
  let all := hconjuncts.toFinset
  have hrests := finite_lists hconjuncts (all.card + bound)
  refine (h.image2 (· ++ ·) hrests).subset ?_
  rintro es ⟨⟨first, hfirst, rest, rfl, hrest, hnodup⟩, hbound⟩
  refine ⟨first, hfirst, rest, ⟨hrest, ?_⟩, rfl⟩
  -- the conjuncts without a NaN are different ones, the others are bounded
  have hsub : rest.filter (fun c => c == c) ⊆ all.toList := by
    intro c hc
    rw [Finset.mem_toList, Set.Finite.mem_toFinset]
    exact hrest c (List.mem_filter.mp hc).1
  have hequal := (List.subperm_of_subset hnodup hsub).length_le
  rw [Finset.length_toList, ← List.countP_eq_length_filter] at hequal
  rw [nans_append] at hbound
  have hsplit := List.length_eq_countP_add_countP (fun c : Expr => c == c) (l := rest)
  have hnans : rest.countP (fun c => decide ¬(c == c) = true) = nans rest := by
    simp [nans]
  omega

end FilterMerge

end Polystore
