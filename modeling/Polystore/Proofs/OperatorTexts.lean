import Polystore.Plan.Node
import Polystore.Proofs.ExprTexts
import Polystore.Proofs.OrdinalSets

/-
  Polystore/Proofs/OperatorTexts.lean
  ===================================
  **Operators in labels.**  The payload of an operator is written part by part, with
  parts left out that say nothing new.  It tells what the operator does
  (`RelOp.describe_tells`), if the names of tables and stores are plain: up to the types
  that expressions and aggregate calls do not show, the names of calls, and of a table
  all but its name.
-/

namespace Polystore

open Text (IsWord Delimiting Tells GoesOn Apart delimiters)

variable {stops : List (List Char)}

/-- A name that has none of the characters which labels use as marks. -/
def Text.IsPlain (s : String) : Prop := ∀ c ∈ s.toList, c ∉ '.' :: delimiters

theorem Text.IsPlain.isWord {s : String} (h : IsPlain s) : IsWord s.toList :=
  fun c hc hmem => h c hc (List.mem_cons_of_mem '.' hmem)

instance (s : String) : Decidable (Text.IsPlain s) := List.decidableBAll _ s.toList

/-! ### Orders -/

theorem FieldCollation.text_toList (c : FieldCollation) : c.text.toList =
    ('$' :: (Number.natText c.field).toList ++
      if c.direction = .descending then " DESC".toList else []) ++
      if c.nulls = .first then " NULLS FIRST".toList else [] := by
  simp only [text, String.toList_append, apply_ite String.toList, List.cons_append]
  rfl

/-- The order on a field tells all that there is to it. -/
theorem FieldCollation.text_tells (hstops : Delimiting stops)
    (hnulls : Apart stops " NULLS FIRST".toList)
    (hdesc : Apart (" NULLS FIRST".toList :: stops) " DESC".toList) (c d : FieldCollation) :
    Tells stops c.text.toList d.text.toList (c = d) := by
  have hmarks : Delimiting (" DESC".toList :: " NULLS FIRST".toList :: stops) :=
    List.forall_mem_cons.mpr ⟨by decide, List.forall_mem_cons.mpr ⟨by decide, hstops⟩⟩
  have hfield := Tells.same ['$'] (Number.natText_tells hmarks c.field d.field)
  rw [text_toList, text_toList]
  refine ((hfield.beforeFlag hdesc).beforeFlag hnulls).imp ?_
  rintro ⟨⟨hfield, hdirection⟩, hnulls⟩
  rcases c with ⟨i, _ | _, _ | _⟩ <;> rcases d with ⟨j, _ | _, _ | _⟩ <;> simp_all

theorem FieldCollation.apart_text (hstops : Delimiting stops) (c : FieldCollation) :
    Apart stops c.text.toList := by
  rw [text_toList]
  exact Text.apart_of_notMem hstops (by decide) _

/-- The fields of an order, before a bracket or a parenthesis. -/
theorem Collation.fields_tell {close : Char} (hclose : close ∈ [']', ')']) (c d : Collation) :
    Tells [[close]] (Text.commaList (c.map FieldCollation.text)).toList
      (Text.commaList (d.map FieldCollation.text)).toList (c = d) := by
  have hmarks : Delimiting [[close]] ∧ Apart [[',', ' '], [close]] " NULLS FIRST".toList ∧
      Apart [" NULLS FIRST".toList, [',', ' '], [close]] " DESC".toList ∧
      Apart [[close]] [',', ' '] := by
    simp only [List.mem_cons, List.not_mem_nil, or_false] at hclose
    rcases hclose with rfl | rfl
    all_goals
      refine ⟨by decide, ?_, ?_, ?_⟩
      · exact Text.apart_of_not_prefix (by decide)
      · exact Text.apart_of_not_prefix (by decide)
      · exact Text.apart_of_not_prefix (by decide)
  obtain ⟨hstops, hnulls, hdesc, hcomma⟩ := hmarks
  have hitems : Delimiting [[',', ' '], [close]] := List.forall_mem_cons.mpr ⟨by decide, hstops⟩
  exact .commaList_eq (fun a _ b _ => a.text_tells hitems hnulls hdesc b)
    (fun a _ => a.apart_text hstops) (fun b _ => b.apart_text hstops) hcomma

theorem Collation.text_tells (c d : Collation) :
    Tells stops (Collation.text c).toList (Collation.text d).toList (c = d) := by
  simp only [Collation.text, String.toList_append]
  exact (Tells.same _ (fields_tell (by decide) c d)).closed

/-! ### Groupings -/

theorem Number.apart_natText (hstops : Delimiting stops) (n : Nat) :
    Apart stops (natText n).toList := by
  obtain ⟨c, rest, hdigits, hc⟩ := exists_digitsOf n
  rw [natText_toList, hdigits]
  exact Text.apart_of_notMem hstops (notMem_delimiters_of_isDigit hc) rest

theorem OrdinalSet.text_tells (s t : OrdinalSet) :
    Tells stops s.text.toList t.text.toList (s = t) := by
  have hlist : Tells [['\x7d']] (Text.commaList (s.toList.map Number.natText)).toList
      (Text.commaList (t.toList.map Number.natText)).toList (s.toList = t.toList) :=
    .commaList_eq (fun m _ n _ => Number.natText_tells (by decide) m n)
      (fun m _ => Number.apart_natText (by decide) m)
      (fun n _ => Number.apart_natText (by decide) n) (Text.apart_of_not_prefix (by decide))
  simp only [text, String.toList_append]
  refine (Tells.same _ (hlist.imp fun hsame => ?_)).closed
  refine ext_contains fun i => ?_
  rw [Bool.eq_iff_iff, ← mem_toList, ← mem_toList, hsame]

theorem OrdinalSet.apart_text (hstops : Apart stops ['\x7b']) (s : OrdinalSet) :
    Apart stops s.text.toList := by
  simp only [text, String.toList_append, List.append_assoc]
  exact hstops.append _

/-- Calls that differ in nothing but their name and the type of the result. -/
structure AggCall.ReadsAs (a b : AggCall) : Prop where
  kind : a.kind = b.kind
  args : a.args = b.args
  distinct : a.distinct = b.distinct
  filter : a.filter = b.filter
  order : a.order = b.order

theorem AggCall.ReadsAs.text_eq {a b : AggCall} (h : a.ReadsAs b) : a.text = b.text := by
  rcases h with ⟨hkind, hargs, hdistinct, hfilter, horder⟩
  rw [text, text, hkind, hargs, hdistinct, hfilter, horder]

theorem AggKind.name_tells (k l : AggKind) :
    Tells [['(']] k.name.toList l.name.toList (k = l) := by
  have hword (k : AggKind) : IsWord k.name.toList := by
    cases k <;> simp [AggKind.name, IsWord, delimiters]
  refine .word (by decide) (hword k) (hword l) fun h => ?_
  cases k <;> cases l <;> first | rfl | exact absurd h (by decide)

theorem eq_of_rel {α : Type} {o o' : Option α} (h : Option.Rel Eq o o') : o = o' := by
  cases h with
  | none => rfl
  | some h => rw [h]

/-- What is left out is known. -/
theorem rel_of_guard {α : Type} {R : α → α → Prop} {p : α → Bool} {a b : α}
    (hp : p a = true → p b = true → R a b)
    (h : Option.Rel R (Option.guard (!p ·) a) (Option.guard (!p ·) b)) : R a b := by
  unfold Option.guard at h
  cases ha : p a <;> cases hb : p b <;> simp [ha, hb] at h
  · exact h
  · exact hp ha hb

theorem elim_guard {α : Type} (p : α → Bool) (a : α) (f : α → List Char) :
    (Option.guard (!p ·) a).elim [] f = if p a then [] else f a := by
  unfold Option.guard
  cases hp : p a <;> simp [hp]

theorem AggCall.text_toList (c : AggCall) : c.text.toList =
    (((((c.kind.name.toList ++ ['(']) ++ if c.distinct then "DISTINCT ".toList else []) ++
      (Text.commaList (c.args.map fun i => "$" ++ Number.natText i)).toList) ++
      ((Option.guard (!·.isEmpty) c.order).elim [] fun o => " ORDER BY ".toList ++
        (Text.commaList (o.map FieldCollation.text)).toList)) ++ [')']) ++
      c.filter.elim [] fun i => " FILTER $".toList ++ (Number.natText i).toList := by
  rw [elim_guard List.isEmpty c.order]
  cases hfilter : c.filter with
  | none =>
    simp only [text, hfilter, String.toList_append, apply_ite String.toList]
    rfl
  | some i =>
    simp only [text, hfilter, String.toList_append, apply_ite String.toList]
    rfl

theorem AggCall.args_tell (a b : AggCall) : Tells [" ORDER BY ".toList, [')']]
    (Text.commaList (a.args.map fun i => "$" ++ Number.natText i)).toList
    (Text.commaList (b.args.map fun i => "$" ++ Number.natText i)).toList (a.args = b.args) := by
  have hfield (i : Nat) : ("$" ++ Number.natText i).toList = ['$'] ++ (Number.natText i).toList :=
    String.toList_append ..
  refine .commaList_eq (fun i _ j _ => ?_) (fun i _ => ?_) (fun j _ => ?_)
    (Text.apart_of_not_prefix (by decide))
  · rw [hfield, hfield]
    exact .same _ (Number.natText_tells (by decide) i j)
  · rw [hfield]
    exact Text.apart_of_notMem (by decide) (by decide) _
  · rw [hfield]
    exact Text.apart_of_notMem (by decide) (by decide) _

/-- An aggregate call tells what it computes. -/
theorem AggCall.text_tells (hstops : Delimiting stops) (hfilter : Apart stops " FILTER $".toList)
    (a b : AggCall) : Tells stops a.text.toList b.text.toList (a.ReadsAs b) := by
  have hopen : Tells [['$'], " ORDER BY ".toList, [')']]
      ((a.kind.name.toList ++ ['(']) ++ if a.distinct then "DISTINCT ".toList else [])
      ((b.kind.name.toList ++ ['(']) ++ if b.distinct then "DISTINCT ".toList else [])
      (a.kind = b.kind ∧ (a.distinct = true ↔ b.distinct = true)) :=
    (AggKind.name_tells _ _).closed.beforeFlag (Text.apart_of_not_prefix (by decide))
  have hgoes (c : AggCall) (rest : List Char) (h : GoesOn [" ORDER BY ".toList, [')']] rest) :
      GoesOn [['$'], " ORDER BY ".toList, [')']]
        ((Text.commaList (c.args.map fun i => "$" ++ Number.natText i)).toList ++ rest) := by
    refine h.commaList fun x hx => ?_
    obtain ⟨i, -, rfl⟩ := List.mem_map.mp hx
    rw [String.toList_append]
    exact List.prefix_append ..
  have hfields : ∀ c ∈ Option.guard (!List.isEmpty ·) a.order,
      ∀ d ∈ Option.guard (!List.isEmpty ·) b.order, Tells [[')']]
        (Text.commaList (c.map FieldCollation.text)).toList
        (Text.commaList (d.map FieldCollation.text)).toList (c = d) :=
    fun c _ d _ => Collation.fields_tell (by decide) c d
  have horder := (hopen.append (args_tell a b) (hgoes a) (hgoes b)).beforeOptional
    (Text.apart_of_not_prefix (by decide)) hfields
  have hnumber : ∀ i ∈ a.filter, ∀ j ∈ b.filter,
      Tells stops (Number.natText i).toList (Number.natText j).toList (i = j) :=
    fun i _ j _ => Number.natText_tells hstops i j
  rw [text_toList, text_toList]
  refine (horder.closed.beforeOptional hfilter hnumber).imp ?_
  rintro ⟨⟨⟨⟨hkind, hdistinct⟩, hargs⟩, horder⟩, hfilter⟩
  refine ⟨hkind, hargs, Bool.eq_iff_iff.mpr hdistinct, eq_of_rel hfilter, rel_of_guard ?_ horder⟩
  intro ha hb
  rw [List.isEmpty_iff.mp ha, List.isEmpty_iff.mp hb]

theorem AggCall.apart_text (hstops : Delimiting stops) (c : AggCall) :
    Apart stops c.text.toList := by
  rw [text_toList]
  repeat refine Apart.append ?_ _
  cases c.kind with
  | _ => exact Text.apart_of_notMem hstops (by decide) _

/-- Aggregations that differ in nothing but the names and types of their calls. -/
structure Aggregation.ReadsAs (a b : Aggregation) : Prop where
  key : a.key = b.key
  sets : a.sets = b.sets
  indicator : a.indicator = b.indicator
  calls : List.Forall₂ AggCall.ReadsAs a.calls b.calls

namespace RelOp

theorem describeAggregation_toList (a : Aggregation) : (describeAggregation a).toList =
    ((("group=".toList ++ a.key.text.toList) ++
      (Option.guard (fun sets => !decide (sets = [a.key])) a.sets).elim [] fun sets => ", groups=[".toList ++
        ((Text.commaList (sets.map OrdinalSet.text)).toList ++ [']'])) ++
      if a.indicator then ", indicator=true".toList else []) ++
      (Option.guard (!·.isEmpty) a.calls).elim [] fun calls => ", aggs=[".toList ++
        ((Text.commaList (calls.map AggCall.text)).toList ++ [']']) := by
  rw [elim_guard (fun sets => decide (sets = [a.key])), elim_guard List.isEmpty a.calls]
  simp only [describeAggregation, String.toList_append, apply_ite String.toList, List.append_assoc,
    decide_eq_true_eq]
  rfl

theorem describeAggregation_tells (a b : Aggregation) :
    Tells [[' ']] (describeAggregation a).toList (describeAggregation b).toList (a.ReadsAs b) := by
  have hcalls : ∀ c ∈ Option.guard (!List.isEmpty ·) a.calls,
      ∀ d ∈ Option.guard (!List.isEmpty ·) b.calls, Tells [[' ']]
        ((Text.commaList (c.map AggCall.text)).toList ++ [']'])
        ((Text.commaList (d.map AggCall.text)).toList ++ [']']) (List.Forall₂ AggCall.ReadsAs c d) := by
    intro c _ d _
    refine Tells.closed (.commaList (fun x _ y _ => x.text_tells (by decide) ?_ y)
      (fun x _ => x.apart_text (by decide)) (fun y _ => y.apart_text (by decide)) ?_)
    · exact Text.apart_of_not_prefix (by decide)
    · exact Text.apart_of_not_prefix (by decide)
  have hsets : ∀ c ∈ Option.guard (fun sets => !decide (sets = [a.key])) a.sets,
      ∀ d ∈ Option.guard (fun sets => !decide (sets = [b.key])) b.sets,
        Tells [", indicator=true".toList, ", aggs=[".toList, [' ']]
          ((Text.commaList (c.map OrdinalSet.text)).toList ++ [']'])
          ((Text.commaList (d.map OrdinalSet.text)).toList ++ [']']) (c = d) := by
    intro c _ d _
    refine Tells.closed (.commaList_eq (fun s _ t _ => s.text_tells t) (fun s _ => s.apart_text ?_)
      (fun t _ => t.apart_text ?_) ?_)
    · exact Text.apart_of_not_prefix (by decide)
    · exact Text.apart_of_not_prefix (by decide)
    · exact Text.apart_of_not_prefix (by decide)
  have hkey : Tells [", groups=[".toList, ", indicator=true".toList, ", aggs=[".toList, [' ']]
      ("group=".toList ++ a.key.text.toList) ("group=".toList ++ b.key.text.toList)
      (a.key = b.key) := .same _ (OrdinalSet.text_tells a.key b.key)
  rw [describeAggregation_toList, describeAggregation_toList]
  refine (((hkey.beforeOptional ?_ hsets).beforeFlag ?_).beforeOptional ?_ hcalls).imp ?_
  · exact Text.apart_of_not_prefix (by decide)
  · exact Text.apart_of_not_prefix (by decide)
  · exact Text.apart_of_not_prefix (by decide)
  · rintro ⟨⟨⟨hkey, hsets⟩, hindicator⟩, hcalls⟩
    rw [← hkey] at hsets
    refine ⟨hkey, rel_of_guard ?_ hsets, Bool.eq_iff_iff.mpr hindicator, rel_of_guard ?_ hcalls⟩
    · intro ha hb
      exact (of_decide_eq_true ha).trans (of_decide_eq_true hb).symm
    · intro ha hb
      rw [List.isEmpty_iff.mp ha, List.isEmpty_iff.mp hb]
      exact .nil

theorem describeOrdered_toList (o : Ordered) : (describeOrdered o).toList =
    (("sort=".toList ++ (Collation.text o.collation).toList) ++
      o.offset.elim [] fun n => ", offset=".toList ++ (Number.natText n).toList) ++
      o.fetch.elim [] fun n => ", fetch=".toList ++ (Number.natText n).toList := by
  rcases o with ⟨c, _ | m, _ | n⟩
  all_goals
    simp only [describeOrdered, String.toList_append]
    rfl

theorem describeOrdered_tells (o o' : Ordered) :
    Tells [[' ']] (describeOrdered o).toList (describeOrdered o').toList (o = o') := by
  have hcollation : Tells [", offset=".toList, ", fetch=".toList, [' ']]
      ("sort=".toList ++ (Collation.text o.collation).toList)
      ("sort=".toList ++ (Collation.text o'.collation).toList) (o.collation = o'.collation) :=
    .same _ (Collation.text_tells _ _)
  have hoffset : ∀ m ∈ o.offset, ∀ n ∈ o'.offset, Tells [", fetch=".toList, [' ']]
      (Number.natText m).toList (Number.natText n).toList (m = n) :=
    fun m _ n _ => Number.natText_tells (by decide) m n
  have hfetch : ∀ m ∈ o.fetch, ∀ n ∈ o'.fetch, Tells [[' ']]
      (Number.natText m).toList (Number.natText n).toList (m = n) :=
    fun m _ n _ => Number.natText_tells (by decide) m n
  rw [describeOrdered_toList, describeOrdered_toList]
  refine ((hcollation.beforeOptional ?_ hoffset).beforeOptional ?_ hfetch).imp ?_
  · exact Text.apart_of_not_prefix (by decide)
  · exact Text.apart_of_not_prefix (by decide)
  · rintro ⟨⟨hcollation, hoffset⟩, hfetch⟩
    rw [Ordered.mk.injEq]
    exact ⟨hcollation, eq_of_rel hoffset, eq_of_rel hfetch⟩

end RelOp

/-! ### Tables and stores -/

theorem Backend.name_marks (b : Backend) : ∀ c ∈ b.name.toList, c ∉ ':' :: '.' :: delimiters := by
  cases b <;> simp [name, delimiters]

/-- A convention whose store has a plain name is written without marks. -/
theorem Convention.text_marks (c : Convention) (hc : ∀ name ∈ c.storeName?, Text.IsPlain name) :
    ∀ a ∈ c.text.toList, a ∉ '.' :: delimiters := by
  cases c with
  | logical => simp [text, delimiters]
  | enumerable => simp [text, delimiters]
  | store b name =>
    simp only [text, String.toList_append, List.forall_mem_append]
    refine ⟨⟨fun a ha hmem => ?_, by simp [delimiters]⟩, hc name rfl⟩
    exact b.name_marks a ha (List.mem_cons_of_mem ':' hmem)

theorem Convention.text_injective {c d : Convention} (h : c.text = d.text) : c = d := by
  have hstore (b : Backend) (name : String) : ':' ∈ (store b name).text.toList := by
    simp [text]
  cases c with
  | logical =>
    cases d with
    | logical => rfl
    | enumerable => exact absurd h (by decide)
    | store b name => exact absurd (h ▸ hstore b name) (by decide)
  | enumerable =>
    cases d with
    | logical => exact absurd h (by decide)
    | enumerable => rfl
    | store b name => exact absurd (h ▸ hstore b name) (by decide)
  | store b name =>
    cases d with
    | logical => exact absurd (h ▸ hstore b name) (by decide)
    | enumerable => exact absurd (h ▸ hstore b name) (by decide)
    | store b' name' =>
      have hcolon (b : Backend) : ':' ∉ b.name.toList :=
        fun hmem => b.name_marks ':' hmem List.mem_cons_self
      have hlist := congrArg String.toList h
      simp only [text, String.toList_append, List.append_assoc] at hlist
      obtain ⟨hb, hname⟩ := Text.eq_of_append_cons (hcolon b) (hcolon b') hlist
      rw [Backend.name_injective (String.toList_inj.mp hb), String.toList_inj.mp hname]

theorem Convention.text_tells {marked : List (List Char)}
    (hstops : Text.Marked ('.' :: delimiters) marked) {c d : Convention}
    (hc : ∀ name ∈ c.storeName?, Text.IsPlain name) (hd : ∀ name ∈ d.storeName?, Text.IsPlain name) :
    Tells marked c.text.toList d.text.toList (c = d) :=
  .unmarked hstops (c.text_marks hc) (d.text_marks hd) fun h =>
    text_injective (String.toList_inj.mp h)

/-- Tables of one name. -/
structure TableRef.ReadsAs (t u : TableRef) : Prop where
  space : t.space = u.space
  name : t.name = u.name

theorem TableRef.ReadsAs.text_eq {t u : TableRef} (h : t.ReadsAs u) : t.text = u.text := by
  rw [text, text, h.space, h.name]

theorem TableRef.text_tells (hstops : Delimiting stops) {t u : TableRef}
    (ht : Text.IsPlain t.space ∧ Text.IsPlain t.name)
    (hu : Text.IsPlain u.space ∧ Text.IsPlain u.name) :
    Tells stops t.text.toList u.text.toList (t.ReadsAs u) := by
  have hspace : Tells [['.']] t.space.toList u.space.toList (t.space = u.space) :=
    .unmarked (by decide) ht.1 hu.1 String.toList_inj.mp
  have hname : Tells stops t.name.toList u.name.toList (t.name = u.name) :=
    .word hstops ht.2.isWord hu.2.isWord String.toList_inj.mp
  simp only [text, String.toList_append]
  refine (hspace.closed_append hname).imp ?_
  rintro ⟨hspace, hname⟩
  exact ⟨hspace, hname⟩

/-! ### Operators -/

namespace RelOp

/-- The names of tables and stores in the payload. -/
def names : RelOp → List String
  | scan t | modify _ t _ => [t.space, t.name]
  | converter _ c => c.storeName?.toList
  | _ => []

/-- Operators of one label: what they do is the same as far as labels show it. -/
inductive ReadsAs : RelOp → RelOp → Prop
  | scan {t u : TableRef} (h : t.ReadsAs u) : ReadsAs (scan t) (scan u)
  | filter {i j : NodeId} {c d : Expr} (h : c.ReadsAs d) : ReadsAs (filter i c) (filter j d)
  | project {i j : NodeId} {es fs : List Expr} (h : List.Forall₂ Expr.ReadsAs es fs) :
    ReadsAs (project i es) (project j fs)
  | aggregate {i j : NodeId} {a b : Aggregation} (h : a.ReadsAs b) :
    ReadsAs (aggregate i a) (aggregate j b)
  | sort {i j : NodeId} {o : Ordered} : ReadsAs (sort i o) (sort j o)
  | values {ts us : List (List Value)} (h : List.Forall₂ (List.Forall₂ Value.ReadsAs) ts us) :
    ReadsAs (values ts) (values us)
  | modify {i j : NodeId} {t u : TableRef} {k : ModifyKind} (h : t.ReadsAs u) :
    ReadsAs (modify i t k) (modify j u k)
  | converter {i j : NodeId} {c : Convention} : ReadsAs (converter i c) (converter j c)

theorem describeTuple_tells (t u : List Value) :
    Tells stops (describeTuple t).toList (describeTuple u).toList
      (List.Forall₂ Value.ReadsAs t u) := by
  simp only [describeTuple, String.toList_append]
  refine Tells.closed (.same _ (.commaList (fun v _ w _ => Value.text_tells (by decide) v w)
    (fun v _ => v.apart_text (by decide)) (fun w _ => w.apart_text (by decide)) ?_))
  exact Text.apart_of_not_prefix (by decide)

theorem describeTuple_apart (hstops : Apart stops ['(']) (t : List Value) :
    Apart stops (describeTuple t).toList := by
  simp only [describeTuple, String.toList_append, List.append_assoc]
  exact hstops.append _

theorem modifyKind_tells (k l : ModifyKind) :
    Tells [[' ']] k.name.toList l.name.toList (k = l) := by
  have hword (k : ModifyKind) : IsWord k.name.toList := by
    cases k <;> simp [ModifyKind.name, IsWord, delimiters]
  refine .word (by decide) (hword k) (hword l) fun h => ?_
  cases k <;> cases l <;> first | rfl | exact absurd h (by decide)

theorem ReadsAs.kind_eq {op op' : RelOp} (h : op.ReadsAs op') : op.kind = op'.kind := by
  cases h with
  | _ => rfl

theorem describeAggregation_eq {a b : Aggregation} (h : a.ReadsAs b) :
    describeAggregation a = describeAggregation b := by
  have hempty : a.calls.isEmpty = b.calls.isEmpty := by
    rw [Bool.eq_iff_iff, List.isEmpty_iff_length_eq_zero, List.isEmpty_iff_length_eq_zero,
      h.calls.length_eq]
  rw [describeAggregation, describeAggregation, h.key, h.sets, h.indicator, hempty,
    Text.map_eq_of_forall₂ h.calls fun _ _ _ hcall => hcall.text_eq]

theorem describeTuple_eq {t u : List Value} (h : List.Forall₂ Value.ReadsAs t u) :
    describeTuple t = describeTuple u := by
  rw [describeTuple, describeTuple, Text.map_eq_of_forall₂ h fun _ _ _ hvalue => hvalue.text_eq]

theorem ReadsAs.describe_eq {op op' : RelOp} (h : op.ReadsAs op') : op.describe = op'.describe := by
  cases h with
  | scan h => rw [describe, describe, h.text_eq]
  | filter h => rw [describe, describe, h.text_eq]
  | project h => rw [describe, describe, Text.map_eq_of_forall₂ h fun _ _ _ hexpr => hexpr.text_eq]
  | aggregate h => exact describeAggregation_eq h
  | sort => rfl
  | values h => rw [describe, describe, Text.map_eq_of_forall₂ h fun _ _ _ => describeTuple_eq]
  | modify h => rw [describe, describe, h.text_eq]
  | converter => rfl

/-- The payload of operators of one kind tells what they do. -/
theorem describe_tells {op op' : RelOp} (hkind : op.kind = op'.kind)
    (hop : ∀ s ∈ op.names, Text.IsPlain s) (hop' : ∀ s ∈ op'.names, Text.IsPlain s) :
    Tells [[' ']] op.describe.toList op'.describe.toList (op.ReadsAs op') := by
  have htable {t : TableRef} (h : ∀ s ∈ [t.space, t.name], Text.IsPlain s) :
      Text.IsPlain t.space ∧ Text.IsPlain t.name := ⟨h _ (by simp), h _ (by simp)⟩
  cases op <;> cases op' <;> try cases hkind
  case scan.scan t u =>
    simp only [describe, String.toList_append]
    exact .same _ ((TableRef.text_tells (by decide) (htable hop) (htable hop')).imp .scan)
  case filter.filter i c j d =>
    simp only [describe, String.toList_append]
    exact .same _ ((Expr.text_tells c d (by decide)).imp .filter)
  case project.project i es j fs =>
    simp only [describe, String.toList_append]
    refine Tells.closed (.same _ (.imp (.commaList (fun e _ f _ => e.text_tells f (by decide))
      (fun e _ => e.apart_text (by decide)) (fun f _ => f.apart_text (by decide)) ?_) .project))
    exact Text.apart_of_not_prefix (by decide)
  case aggregate.aggregate i a j b => exact (describeAggregation_tells a b).imp .aggregate
  case sort.sort i o j o' =>
    refine (describeOrdered_tells o o').imp ?_
    rintro rfl
    exact .sort
  case values.values ts us =>
    simp only [describe, String.toList_append]
    refine Tells.closed (.same _ (.imp (.commaList (fun t _ u _ => describeTuple_tells t u)
      (fun t _ => describeTuple_apart ?_ t) (fun u _ => describeTuple_apart ?_ u) ?_) .values))
    · exact Text.apart_of_not_prefix (by decide)
    · exact Text.apart_of_not_prefix (by decide)
    · exact Text.apart_of_not_prefix (by decide)
  case modify.modify i t k j u l =>
    have hname : Tells [", op=".toList] t.text.toList u.text.toList (t.ReadsAs u) :=
      TableRef.text_tells (by decide) (htable hop) (htable hop')
    simp only [describe, String.toList_append]
    refine ((Tells.same "table=".toList hname).closed_append (modifyKind_tells k l)).imp ?_
    rintro ⟨hname, rfl⟩
    exact .modify hname
  case converter.converter i c j d =>
    simp only [describe, String.toList_append]
    refine .same _ ((Convention.text_tells (by decide) ?_ ?_).imp ?_)
    · exact fun name hname => hop name (Option.mem_toList.mpr hname)
    · exact fun name hname => hop' name (Option.mem_toList.mpr hname)
    · rintro rfl
      exact .converter

end RelOp

end Polystore
