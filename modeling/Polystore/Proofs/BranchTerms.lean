import Polystore.Proofs.FilterSplit
import Polystore.Proofs.JsonComparison
import Polystore.Proofs.JsonMembers

/-
  Polystore/Proofs/BranchTerms.lean
  =================================
  **The terms of a branch.**  A backend is given, for each branch of a condition, the
  terms that the merge has kept.  They are made of what the recognized terms were made
  of (`analyse_every`): the merge drops terms and puts the two ends of a range together,
  nothing else.  They also fit beside each other (`analyse_joins`): apart from terms
  that exclude a value there is one term of a kind a field, because the merge keeps one
  entry a slot and one table entry a field.
-/

namespace Polystore

/-! ### Slots -/

section

variable {α : Type} {P : α → Expr → Prop} {old : Option (From α)} {e : Expr}

theorem slot_keepFirst [BEq α] {new : α} (hold : Slot P old) (hnew : P new e) :
    Slot P (FieldTerms.keepFirst old new e).1 := by
  cases old with
  | none => exact Slot.some_iff.mpr hnew
  | some p => exact Slot.some_iff.mpr (hold p.1 p.2 rfl)

theorem slot_mergeBound {P : Bound → Expr → Prop} {old : Option (From Bound)} {isLower : Bool}
    {new : Bound} (hold : Slot P old) (hnew : P new e) :
    Slot P (FieldTerms.mergeBound isLower old new e).1 := by
  cases old with
  | none => exact Slot.some_iff.mpr hnew
  | some p =>
    rcases p with ⟨b, source⟩
    have hb : P b source := hold b source rfl
    simp only [FieldTerms.mergeBound]
    split
    · exact Slot.some_iff.mpr hnew
    · exact Slot.some_iff.mpr hb
    · exact Slot.some_iff.mpr hb

end

/-! ### What the terms are made of -/

/-- A range has the property if each of its ends has it, as a range of its own, and
    the other way round. -/
structure Term.Endwise (A : Term → Prop) : Prop where
  lower {i : Nat} {b : Bound} {upper : Option Bound} :
    A (.range i (some b) upper) → A (FieldTerms.boundTerm true i b)
  upper {i : Nat} {b : Bound} {lower : Option Bound} :
    A (.range i lower (some b)) → A (FieldTerms.boundTerm false i b)
  join {i : Nat} {lower upper : Option Bound} : lower.isSome = true ∨ upper.isSome = true →
    (∀ b, lower = some b → A (FieldTerms.boundTerm true i b)) →
    (∀ b, upper = some b → A (FieldTerms.boundTerm false i b)) → A (.range i lower upper)

theorem Term.Endwise.and {A B : Term → Prop} (hA : Term.Endwise A) (hB : Term.Endwise B) :
    Term.Endwise fun t => A t ∧ B t where
  lower h := ⟨hA.lower h.1, hB.lower h.2⟩
  upper h := ⟨hA.upper h.1, hB.upper h.2⟩
  join hsome hlower hupper :=
    ⟨hA.join hsome (fun b hb => (hlower b hb).1) fun b hb => (hupper b hb).1,
      hB.join hsome (fun b hb => (hlower b hb).2) fun b hb => (hupper b hb).2⟩

section

variable {A : Term → Prop}

namespace FieldTerms

/-- What holds of the terms taken in holds of every entry. -/
theorem every_add (hA : Term.Endwise A) {s : FieldTerms} {t : Term} {e : Expr}
    (hs : s.Every (fun t _ => A t) t.field) (ht : A t) :
    (s.add t e).1.Every (fun t _ => A t) t.field := by
  cases t with
  | eq i v => exact { hs with eq := slot_keepFirst hs.eq ht }
  | ne i v =>
    unfold add
    by_cases hany : s.notEq.any (·.1 == v) = true
    · simp only [hany, if_true]
      exact hs
    · simp only [hany, Bool.false_eq_true, if_false]
      refine { hs with notEq := fun p hp => ?_ }
      rcases List.mem_append.mp hp with hp | hp
      · exact hs.notEq p hp
      · obtain rfl := List.mem_singleton.mp hp
        exact ht
  | range i lower upper =>
    have hlower (b : Bound) (hb : lower = some b) : Slot (fun b _ => A (boundTerm true i b))
        (mergeBound true s.lower b e).1 := by
      subst hb
      exact slot_mergeBound hs.lower (hA.lower ht)
    have hupper (b : Bound) (hb : upper = some b) : Slot (fun b _ => A (boundTerm false i b))
        (mergeBound false s.upper b e).1 := by
      subst hb
      exact slot_mergeBound hs.upper (hA.upper ht)
    cases lower with
    | none =>
      cases upper with
      | none => exact hs
      | some b => exact { hs with upper := hupper b rfl }
    | some a =>
      cases upper with
      | none => exact { hs with lower := hlower a rfl }
      | some b => exact { hs with lower := hlower a rfl, upper := hupper b rfl }
  | isNull i => exact { hs with isNull := slot_keepFirst hs.isNull ht }
  | isNotNull i => exact { hs with isNull := slot_keepFirst hs.isNull ht }
  | like i pattern => exact { hs with like := slot_keepFirst hs.like ht }

theorem every_kept (hA : Term.Endwise A) {s : FieldTerms} {i : Nat}
    (hs : s.Every (fun t _ => A t) i) {p : Term × List Expr} (hp : p ∈ s.kept i) : A p.1 := by
  cases keptFrom hp with
  | eq h => exact hs.eq _ _ h
  | range h =>
    refine hA.join (by simpa using h) ?_ ?_
    · intro b hb
      obtain ⟨⟨_, e⟩, hslot, rfl⟩ := Option.map_eq_some_iff.mp hb
      exact hs.lower _ e hslot
    · intro b hb
      obtain ⟨⟨_, e⟩, hslot, rfl⟩ := Option.map_eq_some_iff.mp hb
      exact hs.upper _ e hslot
  | nullTest h => exact hs.isNull _ _ h
  | ne h => exact hs.notEq _ h
  | like h => exact hs.like _ _ h

end FieldTerms

theorem TermTable.every_add (hA : Term.Endwise A) {table : TermTable} {t : Term} {e : Expr}
    (htable : table.Every fun t _ => A t) (ht : A t) :
    (table.add t e).1.Every fun t _ => A t := by
  induction table with
  | nil => exact every_cons.mpr ⟨FieldTerms.every_add hA .empty ht, htable⟩
  | cons p rest ih =>
    rcases p with ⟨i, s⟩
    obtain ⟨hs, hrest⟩ := every_cons.mp htable
    unfold add
    by_cases heq : t.field = i
    · subst heq
      simp only [if_true]
      exact every_cons.mpr ⟨FieldTerms.every_add hA hs ht, hrest⟩
    · simp only [heq, if_false]
      by_cases hlt : t.field < i
      · simp only [hlt, if_true]
        exact every_cons.mpr ⟨FieldTerms.every_add hA .empty ht, htable⟩
      · simp only [hlt, if_false]
        exact every_cons.mpr ⟨hs, ih hrest⟩

namespace FilterPlan

theorem every_collect (hA : Term.Endwise A) {usable? : Expr → Option Term} {conjuncts : List Expr}
    (husable : ∀ c ∈ conjuncts, ∀ t, usable? c = some t → A t) (table : TermTable)
    (left : List Expr) (htable : table.Every fun t _ => A t) :
    (collect usable? table left conjuncts).1.Every fun t _ => A t := by
  induction conjuncts generalizing table left with
  | nil => exact htable
  | cons c rest ih =>
    have hrest := fun x hx => husable x (List.mem_cons_of_mem c hx)
    unfold collect
    cases hu : usable? c with
    | none => exact ih hrest table _ htable
    | some t => exact ih hrest _ _ (TermTable.every_add hA htable (husable c (by simp) t hu))

/-- What holds of the usable terms holds of the terms of an analysed branch. -/
theorem analyse_every (hA : Term.Endwise A) {usable? : Expr → Option Term}
    {conjuncts : List Expr} (husable : ∀ c ∈ conjuncts, ∀ t, usable? c = some t → A t) {t : Term}
    (ht : t ∈ (analyse usable? conjuncts).terms) : A t := by
  have htable := every_collect hA husable [] [] (by simp [TermTable.Every])
  obtain ⟨p, hp, rfl⟩ := List.mem_map.mp ht
  obtain ⟨q, hq, hpq⟩ := List.mem_flatMap.mp hp
  exact FieldTerms.every_kept hA (htable q hq) hpq

end FilterPlan

end

/-! ### Terms beside each other -/

/-- What a term does to its field. -/
inductive TermKind where
  | equality
  | range
  | exclusion
  | pattern
deriving DecidableEq

def Term.kind : Term → TermKind
  | .eq .. | .isNull _ => .equality
  | .range .. => .range
  | .ne .. | .isNotNull _ => .exclusion
  | .like .. => .pattern

/-- Terms of one kind on the same field exclude values. -/
def Term.Joins (t t' : Term) : Prop := t.field = t'.field → t.kind = t'.kind → t.kind = .exclusion

theorem FieldTerms.field_of_kept {s : FieldTerms} {i : Nat} {p : Term × List Expr}
    (hp : p ∈ s.kept i) : p.1.field = i := by
  cases keptFrom hp with
  | @nullTest b e h => cases b <;> rfl
  | _ => rfl

theorem FieldTerms.kept_joins (s : FieldTerms) (i : Nat) :
    (s.kept i).Pairwise fun p q => p.1.Joins q.1 := by
  unfold kept
  refine List.pairwise_append.mpr ⟨List.pairwise_append.mpr ⟨?_, ?_, ?_⟩, ?_, ?_⟩
  · cases s.eq with
    | some p => exact List.pairwise_singleton _ _
    | none =>
      cases s.lower <;> cases s.upper <;> rcases s.isNull with _ | ⟨_ | _, _⟩ <;>
        simp [Term.Joins, Term.kind]
  · exact List.pairwise_map.mpr (List.pairwise_of_forall fun _ _ _ _ => rfl)
  · intro p _ q hq _ hkind
    obtain ⟨_, -, rfl⟩ := List.mem_map.mp hq
    exact hkind
  · cases s.like with
    | none => exact .nil
    | some p => exact List.pairwise_singleton _ _
  · -- no other slot holds a pattern
    rintro ⟨t, es⟩ hp q hq _ hkind
    obtain ⟨_, -, rfl⟩ := List.mem_map.mp hq
    cases t with
    | like j pattern =>
      rcases List.mem_append.mp hp with hp | hp
      · split at hp
        · simp at hp
        · rcases List.mem_append.mp hp with hp | hp
          · split at hp <;> simp at hp
          · split at hp <;> simp at hp
      · simp at hp
    | _ => cases hkind

namespace TermTable

/-- One entry a field, in ascending order. -/
abbrev Ascending (table : TermTable) : Prop := table.Pairwise fun p q => p.1 < q.1

theorem mem_add {table : TermTable} {t : Term} {e : Expr} {p : Nat × FieldTerms}
    (hp : p ∈ (table.add t e).1) : p.1 = t.field ∨ ∃ q ∈ table, p.1 = q.1 := by
  induction table with
  | nil =>
    obtain rfl := List.mem_singleton.mp hp
    exact .inl rfl
  | cons q rest ih =>
    unfold add at hp
    split at hp
    · rcases List.mem_cons.mp hp with rfl | hp
      · exact .inr ⟨q, by simp⟩
      · exact .inr ⟨p, by simp [hp]⟩
    · split at hp
      · rcases List.mem_cons.mp hp with rfl | hp
        · exact .inl rfl
        · exact .inr ⟨p, hp, rfl⟩
      · rcases List.mem_cons.mp hp with rfl | hp
        · exact .inr ⟨q, by simp⟩
        · rcases ih hp with h | ⟨q', hq', h⟩
          · exact .inl h
          · exact .inr ⟨q', List.mem_cons_of_mem q hq', h⟩

theorem ascending_add {table : TermTable} {t : Term} {e : Expr} (h : table.Ascending) :
    (table.add t e).1.Ascending := by
  induction table with
  | nil => exact List.pairwise_singleton _ _
  | cons q rest ih =>
    obtain ⟨hq, hrest⟩ := List.pairwise_cons.mp h
    unfold add
    by_cases heq : t.field = q.1
    · rw [if_pos heq]
      exact List.pairwise_cons.mpr ⟨hq, hrest⟩
    · rw [if_neg heq]
      by_cases hlt : t.field < q.1
      · rw [if_pos hlt]
        refine List.pairwise_cons.mpr ⟨?_, h⟩
        intro p hp
        rcases List.mem_cons.mp hp with rfl | hp
        · exact hlt
        · exact Nat.lt_trans hlt (hq p hp)
      · rw [if_neg hlt]
        refine List.pairwise_cons.mpr ⟨?_, ih hrest⟩
        intro p hp
        rcases mem_add hp with hfield | ⟨q', hq', hfield⟩
        · rw [hfield]
          omega
        · rw [hfield]
          exact hq q' hq'

end TermTable

namespace FilterPlan

theorem ascending_collect {usable? : Expr → Option Term} {conjuncts : List Expr}
    {table : TermTable} {left : List Expr} (h : table.Ascending) :
    (collect usable? table left conjuncts).1.Ascending := by
  induction conjuncts generalizing table left with
  | nil => exact h
  | cons c rest ih =>
    unfold collect
    split
    · exact ih (TermTable.ascending_add h)
    · exact ih h

theorem analyse_joins (usable? : Expr → Option Term) (conjuncts : List Expr) :
    (analyse usable? conjuncts).terms.Pairwise Term.Joins := by
  have htable : (collect usable? [] [] conjuncts).1.Ascending := ascending_collect .nil
  refine List.pairwise_map.mpr (List.pairwise_flatMap.mpr ⟨?_, htable.imp ?_⟩)
  · intro p _
    exact FieldTerms.kept_joins p.2 p.1
  · intro p q hlt x hx y hy hfield
    rw [FieldTerms.field_of_kept hx, FieldTerms.field_of_kept hy] at hfield
    omega

end FilterPlan

/-! ### Right-hand sides -/

/-- What a term compares its field with. -/
def Term.operands : Term → List TermValue
  | .eq _ v | .ne _ v => [v]
  | .range _ lower upper => (lower.toList ++ upper.toList).map (·.value)
  | .isNull _ | .isNotNull _ | .like .. => []

/-- A range without ends would say nothing. -/
def Term.IsEnded (t : Term) : Prop := ∀ i, t ≠ .range i none none

theorem Term.endwise_of_operands (F : Nat → Prop) (Q : Nat → TermValue → Prop) :
    Term.Endwise fun t => F t.field ∧ t.IsEnded ∧ ∀ w ∈ t.operands, Q t.field w where
  lower h := by
    refine ⟨h.1, fun i heq => (by cases heq), fun w hw => h.2.2 w ?_⟩
    obtain rfl := List.mem_singleton.mp hw
    simp [operands]
  upper h := by
    refine ⟨h.1, fun i heq => (by cases heq), fun w hw => h.2.2 w ?_⟩
    obtain rfl := List.mem_singleton.mp hw
    simp [operands]
  join := by
    intro i lower upper hsome hlower hupper
    refine ⟨?_, ?_, ?_⟩
    · rcases hsome with hsome | hsome
      · obtain ⟨b, hb⟩ := Option.isSome_iff_exists.mp hsome
        exact (hlower b hb).1
      · obtain ⟨b, hb⟩ := Option.isSome_iff_exists.mp hsome
        exact (hupper b hb).1
    · intro j heq
      cases heq
      simp at hsome
    · intro w hw
      obtain ⟨b, hb, rfl⟩ := List.mem_map.mp hw
      rcases List.mem_append.mp hb with hb | hb
      · exact (hlower b (Option.mem_toList.mp hb)).2.2 _ (List.mem_singleton_self _)
      · exact (hupper b (Option.mem_toList.mp hb)).2.2 _ (List.mem_singleton_self _)

theorem Term.operands_ofComparison (i : Nat) (op : Comparison) (w : TermValue) :
    (ofComparison i op w).operands = [w] := by
  cases op <;> rfl

theorem Term.isEnded_of_ofExpr? {e : Expr} {t : Term} (h : ofExpr? e = some t) : t.IsEnded := by
  rintro i rfl
  unfold ofExpr? at h
  split at h
  · obtain ⟨w, -, hterm⟩ := Option.map_eq_some_iff.mp h
    have hoperands := operands_ofComparison _ _ w ▸ congrArg operands hterm
    cases hoperands
  · split at h <;> cases h

/-- No term compares with the literal `NULL`. -/
theorem Term.isNull_of_mem_operands {e : Expr} {t : Term} {v : Value} (h : ofExpr? e = some t)
    (hv : .literal v ∈ t.operands) : v.isNull = false := by
  unfold ofExpr? at h
  split at h
  · obtain ⟨w, hw, rfl⟩ := Option.map_eq_some_iff.mp h
    rw [operands_ofComparison] at hv
    obtain rfl := List.mem_singleton.mp hv
    unfold TermValue.ofExpr? at hw
    split at hw
    · split at hw
      · cases hw
      · rename_i hnull
        cases hw
        simpa using hnull
    · cases hw
    · cases hw
  · split at h <;> cases h <;> cases hv

/-- The value of a right-hand side that is known before the query runs. -/
def TermValue.literal? : TermValue → Option Value
  | .literal v => some v
  | .param _ => none

theorem TermValue.literal?_eq_some {w : TermValue} {v : Value} :
    w.literal? = some v ↔ w = .literal v := by
  cases w <;> simp [literal?]

/-- A term without pattern, parameter and double. -/
structure Term.IsFixed (t : Term) : Prop where
  noPattern : t.kind ≠ .pattern
  literal : ∀ w ∈ t.operands, ∃ v ∈ w.literal?, v.isDouble = false

instance (t : Term) : Decidable t.IsFixed :=
  decidable_of_iff (t.kind ≠ .pattern ∧ ∀ w ∈ t.operands, ∃ v ∈ w.literal?, v.isDouble = false)
    ⟨fun h => ⟨h.1, h.2⟩, fun h => ⟨h.noPattern, h.literal⟩⟩

/-- A term without pattern and double; what it reads may be a parameter. -/
structure Term.IsBindable (t : Term) : Prop where
  noPattern : t.kind ≠ .pattern
  exact : ∀ w ∈ t.operands, w.isExact = true

theorem Term.IsFixed.isBindable {t : Term} (h : t.IsFixed) : t.IsBindable where
  noPattern := h.noPattern
  exact w hw := by
    obtain ⟨v, hliteral, hv⟩ := h.literal w hw
    obtain rfl := TermValue.literal?_eq_some.mp hliteral
    simp [TermValue.isExact, hv]

/-- The field is `NULL` or of the type of the literals that it is compared with. -/
def Term.Fits (row : List Value) (t : Term) : Prop :=
  ∀ a ∈ row[t.field]?, a.isNull = false →
    ∀ w ∈ t.operands, ∀ v ∈ w.literal?, a.dataType = v.dataType

instance (row : List Value) (t : Term) : Decidable (t.Fits row) :=
  inferInstanceAs (Decidable (∀ a ∈ row[t.field]?, a.isNull = false →
    ∀ w ∈ t.operands, ∀ v ∈ w.literal?, a.dataType = v.dataType))

/-- Terms as a split condition hands them to a backend. -/
structure MergedTerms (ctx : PushContext) (terms : List Term) : Prop where
  joins : terms.Pairwise Term.Joins
  named : ∀ t ∈ terms, (ctx.name? t.field).isSome = true
  ended : ∀ t ∈ terms, t.IsEnded
  present : ∀ t ∈ terms, ∀ v, .literal v ∈ t.operands → v.isNull = false

theorem FilterPlan.make_mergedTerms {condition : Expr} {ctx : PushContext}
    {support : FilterSupport} {accept : Term → Bool} {plan : FilterPlan}
    (h : make condition ctx support accept = .ok plan) {terms : List Term}
    (hterms : terms ∈ plan.branches) : MergedTerms ctx terms := by
  rw [(make_eq_ok h).1, List.map_map] at hterms
  obtain ⟨conjuncts, -, rfl⟩ := List.mem_map.mp hterms
  have hall : ∀ t ∈ (analyse (usable? ctx support accept) conjuncts).terms,
      (ctx.name? t.field).isSome = true ∧ t.IsEnded ∧
        ∀ w ∈ t.operands, ∀ v, w = .literal v → v.isNull = false := by
    intro t ht
    refine analyse_every (Term.endwise_of_operands (fun i => (ctx.name? i).isSome = true)
      fun _ w => ∀ v, w = .literal v → v.isNull = false) ?_ ht
    intro c _ t hu
    obtain ⟨hterm, hveto⟩ := Option.filter_eq_some_iff.mp hu
    simp only [Bool.and_eq_true] at hveto
    refine ⟨hveto.1.2, Term.isEnded_of_ofExpr? hterm, fun w hw v hv => ?_⟩
    exact Term.isNull_of_mem_operands hterm (hv ▸ hw)
  exact {
    joins := analyse_joins _ _
    named := fun t ht => (hall t ht).1
    ended := fun t ht => (hall t ht).2.1
    present := fun t ht v hv => (hall t ht).2.2 _ hv v rfl }

theorem MergedTerms.exists_value {ctx : PushContext} {terms : List Term} (h : MergedTerms ctx terms)
    {t : Term} (ht : t ∈ terms) {row : List Value} (hlength : row.length = ctx.names.length) :
    ∃ a, row[t.field]? = some a := by
  obtain ⟨name, hname⟩ := Option.isSome_iff_exists.mp (h.named t ht)
  obtain ⟨hlt, -⟩ := List.getElem?_eq_some_iff.mp hname
  exact ⟨_, List.getElem?_eq_getElem (hlength ▸ hlt)⟩

/-! ### Names of fields -/

namespace PushContext

variable {ctx : PushContext} {i : Nat}

theorem name_eq {name : String} (h : ctx.name? i = some name) : ctx.name i = name := by
  rw [PushContext.name, h]
  rfl

theorem field_eq_of_name (hnames : ctx.names.Nodup) {j : Nat} (hi : (ctx.name? i).isSome = true)
    (hj : (ctx.name? j).isSome = true) (h : ctx.name i = ctx.name j) : i = j := by
  obtain ⟨a, ha⟩ := Option.isSome_iff_exists.mp hi
  obtain ⟨b, hb⟩ := Option.isSome_iff_exists.mp hj
  obtain rfl : a = b := by rw [← name_eq ha, ← name_eq hb, h]
  obtain ⟨hlt, -⟩ := List.getElem?_eq_some_iff.mp ha
  exact (List.getElem?_inj hlt hnames).mp (ha.trans hb.symm)

/-- What is kept of a field is found under its name. -/
theorem find?_zip (hnames : ctx.names.Nodup) {α : Type} {values : List α}
    (hlength : values.length = ctx.names.length) {v : α} (hname : (ctx.name? i).isSome = true)
    (hv : values[i]? = some v) :
    (ctx.names.zip values).find? (·.1 = ctx.name i) = some (ctx.name i, v) := by
  obtain ⟨name, hsome⟩ := Option.isSome_iff_exists.mp hname
  have hkeys : (ctx.names.zip values).map (·.1) = ctx.names := List.map_fst_zip (by omega)
  have hmem : (name, v) ∈ ctx.names.zip values :=
    List.mem_of_getElem? (List.getElem?_zip_eq_some.mpr ⟨hsome, hv⟩)
  rw [name_eq hsome]
  exact find?_of_mem (by rwa [hkeys]) hmem

end PushContext

/-! ### Terms beside a value in JSON -/

/-- A right-hand side that can be compared in JSON with the value of its field. -/
def TermValue.Beside (a : Value) (w : TermValue) : Prop :=
  ∃ v, w = .literal v ∧ v.isDouble = false ∧ v.isNull = false ∧
    (a.isNull = false → a.dataType = v.dataType)

theorem MergedTerms.beside {ctx : PushContext} {terms : List Term} (h : MergedTerms ctx terms)
    {t : Term} (ht : t ∈ terms) (hfixed : t.IsFixed) {row : List Value} (hfits : t.Fits row)
    {a : Value} (ha : row[t.field]? = some a) : ∀ w ∈ t.operands, w.Beside a := by
  intro w hw
  obtain ⟨v, hliteral, hv⟩ := hfixed.literal w hw
  obtain rfl := TermValue.literal?_eq_some.mp hliteral
  exact ⟨v, rfl, hv, h.present t ht v hw, fun hnull => hfits a ha hnull _ hw v rfl⟩

/-- What a term says about the value of its field, as far as a store that holds the value
    in JSON can tell. -/
def Term.HoldsOf (a : Value) : Term → Prop
  | .eq _ w => a.json.same w.json = true
  | .ne _ w => a.isNull = false ∧ a.json.same w.json = false
  | .range _ lower upper =>
    (∀ b, lower = some b → (a.json.order? b.value.json).any (b.test true).holds = true) ∧
      ∀ b, upper = some b → (a.json.order? b.value.json).any (b.test false).holds = true
  | .isNull _ => a.isNull = true
  | .isNotNull _ => a.isNull = false
  | .like .. => False

section

variable {row : List Value} {i : Nat} {a : Value} {w : TermValue}

theorem Comparison.satisfied_eq_same {b : Value} (hb : b.isDouble = false) (hnull : b.isNull = false)
    (htype : a.isNull = false → a.dataType = b.dataType) :
    Comparison.eq.satisfied (some a) (some b) = true ↔ a.json.same b.json = true := by
  rw [Value.same_json hb hnull htype, satisfied]
  cases a.compare? b with
  | none => simp
  | some o => cases o <;> simp [holds]

theorem Comparison.satisfied_ne_same {b : Value} (hb : b.isDouble = false) (hnull : b.isNull = false)
    (htype : a.isNull = false → a.dataType = b.dataType) :
    Comparison.ne.satisfied (some a) (some b) = true ↔
      a.isNull = false ∧ a.json.same b.json = false := by
  rw [← Bool.not_eq_true (a.json.same b.json), Value.same_json hb hnull htype, satisfied]
  constructor
  · intro h
    obtain ⟨o, ho, hne⟩ := (Option.any_eq_true _ _).mp h
    refine ⟨(Value.isNull_of_compare? ho).1, fun heq => ?_⟩
    obtain rfl := Option.some.inj (ho.symm.trans heq)
    cases hne
  · rintro ⟨hpresent, hne⟩
    obtain ⟨o, ho⟩ := Value.compare?_of_dataType hb hnull (htype hpresent)
    rw [ho] at hne ⊢
    cases o with
    | eq => exact absurd rfl hne
    | lt => rfl
    | gt => rfl

theorem Comparison.satisfied_json (c : Comparison) (hw : w.Beside a) :
    c.satisfied (some a) (w.read []) = (a.json.order? w.json).any c.holds := by
  obtain ⟨v, rfl, hv, -, htype⟩ := hw
  rw [TermValue.json, Value.order?_json hv htype]
  rfl

theorem Comparison.satisfied_eq_json (hw : w.Beside a) :
    Comparison.eq.satisfied (some a) (w.read []) = true ↔ a.json.same w.json = true := by
  obtain ⟨v, rfl, hv, hnull, htype⟩ := hw
  exact satisfied_eq_same hv hnull htype

theorem Comparison.satisfied_ne_json (hw : w.Beside a) :
    Comparison.ne.satisfied (some a) (w.read []) = true ↔
      a.isNull = false ∧ a.json.same w.json = false := by
  obtain ⟨v, rfl, hv, hnull, htype⟩ := hw
  exact satisfied_ne_same hv hnull htype

theorem TermValue.Beside.isNull_eq_false (hw : w.Beside a) (h : a.json.same w.json = true) :
    a.isNull = false := by
  obtain ⟨_, _, _, ha, -, hpresent, -⟩ :=
    (Comparison.satisfied_iff _ _ _).mp ((Comparison.satisfied_eq_json hw).mpr h)
  rwa [Option.some.inj ha]

theorem Bound.satisfied_json {b : Bound} (isLower : Bool) (ha : row[i]? = some a)
    (hb : b.value.Beside a) :
    b.satisfied isLower row [] i = (a.json.order? b.value.json).any (b.test isLower).holds := by
  rw [Bound.satisfied, ha, Comparison.satisfied_json _ hb]

/-- A term that fits its field is satisfied when its field is as it says. -/
theorem Term.satisfied_iff_holdsOf {t : Term} (hpattern : t.kind ≠ .pattern)
    (ha : row[t.field]? = some a) (hbeside : ∀ w ∈ t.operands, w.Beside a) :
    t.satisfied row [] = true ↔ t.HoldsOf a := by
  have hvalue (i : Nat) (hi : t.field = i) : row[i]? = some a := hi ▸ ha
  cases t with
  | eq i w =>
    rw [satisfied, hvalue i rfl]
    exact Comparison.satisfied_eq_json (hbeside w (List.mem_singleton_self w))
  | ne i w =>
    rw [satisfied, hvalue i rfl]
    exact Comparison.satisfied_ne_json (hbeside w (List.mem_singleton_self w))
  | range i lower upper =>
    have hend (isLower : Bool) (o : Option Bound) (ho : ∀ b, o = some b → b.value.Beside a) :
        o.all (Bound.satisfied isLower row [] i) = true ↔
          ∀ b, o = some b → (a.json.order? b.value.json).any (b.test isLower).holds = true := by
      cases o with
      | none => simp
      | some b => simp [Bound.satisfied_json isLower (hvalue i rfl) (ho b rfl)]
    rw [satisfied, Bool.and_eq_true, hend true lower, hend false upper]
    · exact Iff.rfl
    · rintro b rfl
      exact hbeside b.value (List.mem_map_of_mem (List.mem_append_right _ (by simp)))
    · rintro b rfl
      exact hbeside b.value (List.mem_map_of_mem (List.mem_append_left _ (by simp)))
  | isNull i => simp [satisfied, hvalue i rfl, HoldsOf]
  | isNotNull i => simp [satisfied, hvalue i rfl, HoldsOf]
  | like i pattern => exact absurd rfl hpattern

end

end Polystore
