import Polystore.Proofs.BranchTerms
import Polystore.Proofs.Placeholders
import Polystore.Pushdown.Document

/-
  Polystore/Proofs/DocumentQueries.lean
  =====================================
  **Query documents mean what their terms mean.**  `accepts` reads a query document as a
  document store does.  The operators of a field are collected term by term, and each
  term adds its own meaning to what the operators say (`Means`): an operator is written
  once, because terms of one kind stand beside each other only if they exclude values,
  and an exclusion is added to the values excluded so far.  `<>` is never true of
  `NULL`, so it brings an exclusion of null with it, as if the branch had one more term.

  The operators are collected with the parameters bound; a query without parameters is
  the case in which nothing is bound.

  A document shows a double that JSON has no number for as null.  Where a field that is
  tested for `NULL` holds one, the store cannot tell it from `NULL`.
-/

namespace Polystore.Document

/-! ### How a document store reads a query -/

/-- Whether a value satisfies an operator with its argument. -/
def operatorHolds (value : Json) (op : String) (arg : Json) : Bool :=
  match op, arg with
  | "$eq", arg => value.same arg
  | "$ne", arg => !value.same arg
  | "$nin", .array items => !items.any value.same
  | "$gt", arg => (value.order? arg).any Comparison.gt.holds
  | "$gte", arg => (value.order? arg).any Comparison.ge.holds
  | "$lt", arg => (value.order? arg).any Comparison.lt.holds
  | "$lte", arg => (value.order? arg).any Comparison.le.holds
  | _, _ => false

/-- Whether a value satisfies the condition on its field: all operators hold, or it
    equals the constant. -/
def conditionHolds (value : Json) : Json → Bool
  | .object ops => ops.all fun (op, arg) => operatorHolds value op arg
  | constant => value.same constant

mutual

/-- Whether a document matches a query document. -/
def accepts (doc : Json.Members) : Json → Bool
  | .object members => acceptsAll doc members
  | _ => false

/-- All members of a query have to hold.  A field that the document lacks is null. -/
def acceptsAll (doc : Json.Members) : List (String × Json) → Bool
  | [] => true
  | ("$or", .array queries) :: rest => acceptsAny doc queries && acceptsAll doc rest
  | (name, condition) :: rest =>
    conditionHolds ((Json.lookup name doc).getD .null) condition && acceptsAll doc rest

def acceptsAny (doc : Json.Members) : List Json → Bool
  | [] => false
  | query :: rest => accepts doc query || acceptsAny doc rest

end

/-- The document that holds a row. -/
def holding (ctx : PushContext) (row : List Value) : Json.Members :=
  ctx.names.zip (row.map Value.json)

theorem acceptsAny_eq (doc : Json.Members) (queries : List Json) :
    acceptsAny doc queries = queries.any (accepts doc) := by
  induction queries with
  | nil => rfl
  | cons query rest ih => rw [acceptsAny, ih, List.any_cons]

theorem accepts_or (doc : Json.Members) (queries : List Json) :
    accepts doc (.single "$or" (.array queries)) = queries.any (accepts doc) := by
  rw [Json.single, accepts, acceptsAll, acceptsAll, acceptsAny_eq, Bool.and_true]

/-- Without `$or`, every member is a condition on a field. -/
theorem acceptsAll_eq {doc : Json.Members} {members : Json.Members}
    (h : ∀ p ∈ members, p.1 ≠ "$or") : acceptsAll doc members =
      members.all fun p => conditionHolds ((Json.lookup p.1 doc).getD .null) p.2 := by
  induction members with
  | nil => rfl
  | cons p rest ih =>
    have hrest := ih fun q hq => h q (List.mem_cons_of_mem p hq)
    have hp := h p List.mem_cons_self
    rw [acceptsAll, hrest, List.all_cons]
    intro queries hor
    exact absurd hor hp

/-! ### The operators of a field -/

/-- An operator as terms write it: what `$ne` excludes is an atom, what `$nin` excludes
    is a list of atoms, and no operator has the name of a placeholder. -/
structure Written (name : String) (arg : Json) : Prop where
  unbound : name ≠ "$param"
  ne : name = "$ne" → arg.IsAtom
  nin : name = "$nin" → ∃ items, arg = .array items ∧ ∀ i ∈ items, i.IsAtom

theorem written_of_not_mem {name : String} (h : name ∉ ["$ne", "$nin", "$param"]) (arg : Json) :
    Written name arg := by
  constructor <;> (intro heq; simp [heq] at h)

theorem operatorHolds_nin (params : List Value) (value : Json) (items : List Json) :
    operatorHolds value "$nin" ((Json.array items).bindParams params) = true ↔
      ∀ i ∈ items, value.same (i.bindParams params) = false := by
  rw [Json.bindParams_array]
  simp [operatorHolds]

theorem operatorHolds_ne (value arg : Json) :
    operatorHolds value "$ne" arg = true ↔ value.same arg = false := by
  simp [operatorHolds]

theorem operatorHolds_lower (b : Bound) (value arg : Json) :
    operatorHolds value (if b.inclusive then "$gte" else "$gt") arg =
      (value.order? arg).any (b.test true).holds := by
  rcases b with ⟨w, _ | _⟩ <;> rfl

theorem operatorHolds_upper (b : Bound) (value arg : Json) :
    operatorHolds value (if b.inclusive then "$lte" else "$lt") arg =
      (value.order? arg).any (b.test false).holds := by
  rcases b with ⟨w, _ | _⟩ <;> rfl

/-- Whether all operators hold when the parameters in their arguments are bound. -/
def allHold (params : List Value) (ops : Json.Members) (value : Json) : Bool :=
  ops.all fun p => operatorHolds value p.1 (p.2.bindParams params)

/-- The operators hold of the values that have the property, and all of them have one of
    the names. -/
structure Means (params : List Value) (ops : Json.Members) (names : List String)
    (P : Json → Prop) : Prop where
  ascending : Json.Ascending ops
  holds : ∀ value, allHold params ops value = true ↔ P value
  names : ∀ p ∈ ops, p.1 ∈ names
  written : ∀ p ∈ ops, Written p.1 p.2

variable {params : List Value} {ops : Json.Members} {names : List String} {P : Json → Prop}

namespace Means

theorem nil : Means params [] [] fun _ => True where
  ascending := .nil
  holds := by simp [allHold]
  names := by simp
  written := by simp

theorem imp {names' : List String} {P' : Json → Prop} (h : Means params ops names P)
    (hnames : names ⊆ names') (hP : ∀ value, P value ↔ P' value) : Means params ops names' P' where
  ascending := h.ascending
  holds value := (h.holds value).trans (hP value)
  names p hp := hnames (h.names p hp)
  written := h.written

/-- Setting an operator, in the place of one of its name. -/
theorem set (h : Means params ops names P) {name : String} {arg : Json} {Q : Json → Prop}
    (hrest : ∀ value, allHold params (Json.remove name ops) value = true ↔ Q value)
    (harg : Written name arg) : Means params (Json.insert name arg ops) (name :: names)
      fun value => operatorHolds value name (arg.bindParams params) = true ∧ Q value where
  ascending := Json.ascending_insert h.ascending
  holds value := by
    rw [← hrest, ← Bool.and_eq_true, allHold, (Json.insert_perm h.ascending).all_eq, List.all_cons]
    rfl
  names p hp := by
    rcases Json.mem_insert hp with rfl | hp
    · exact List.mem_cons_self
    · exact List.mem_cons_of_mem name (h.names p hp)
  written p hp := by
    rcases Json.mem_insert hp with rfl | hp
    · exact harg
    · exact h.written p hp

theorem ne_of_notMem (h : Means params ops names P) {name : String} (hname : name ∉ names) :
    ∀ p ∈ ops, p.1 ≠ name := fun p hp heq => hname (heq ▸ h.names p hp)

theorem insert (h : Means params ops names P) {name : String} {arg : Json}
    (hnew : ∀ p ∈ ops, p.1 ≠ name) (harg : Written name arg) :
    Means params (Json.insert name arg ops) (name :: names)
      fun value => operatorHolds value name (arg.bindParams params) = true ∧ P value := by
  refine h.set (fun value => ?_) harg
  rw [Json.remove_eq_self hnew]
  exact h.holds value

theorem holds_of_lookup (h : Means params ops names P) {name : String} {arg : Json}
    (hlookup : Json.lookup name ops = some arg) (value : Json) :
    P value ↔ operatorHolds value name (arg.bindParams params) = true ∧
      allHold params (Json.remove name ops) value = true := by
  rw [← h.holds, allHold, (Json.perm_of_lookup h.ascending hlookup).all_eq, List.all_cons,
    Bool.and_eq_true]
  rfl

theorem remove (h : Means params ops names P) (name : String) :
    Means params (Json.remove name ops) names
      fun value => allHold params (Json.remove name ops) value = true where
  ascending := Json.ascending_remove h.ascending
  holds _ := Iff.rfl
  names p hp := h.names p (List.mem_filter.mp hp).1
  written p hp := h.written p (List.mem_filter.mp hp).1

/-- One end of a range, by operators that are not there yet. -/
theorem bound (h : Means params ops names P) {isLower : Bool} {strict inclusive : String}
    (b : Option Bound) (hstrict : strict ∉ names) (hinclusive : inclusive ∉ names)
    (hne : strict ∉ ["$ne", "$nin", "$param"] ∧ inclusive ∉ ["$ne", "$nin", "$param"])
    (hop : ∀ (a : Bound) (value arg : Json),
      operatorHolds value (if a.inclusive then inclusive else strict) arg =
        (value.order? arg).any (a.test isLower).holds) :
    Means params (Document.bound strict inclusive b ops) (strict :: inclusive :: names) fun value =>
      (∀ a, b = some a →
        (value.order? (a.value.json.bindParams params)).any (a.test isLower).holds = true) ∧
        P value := by
  cases b with
  | none => exact h.imp (by simp) (by simp)
  | some a =>
    have hnew : ∀ p ∈ ops, p.1 ≠ if a.inclusive then inclusive else strict := by
      split
      · exact h.ne_of_notMem hinclusive
      · exact h.ne_of_notMem hstrict
    have hother : (if a.inclusive then inclusive else strict) ∉ ["$ne", "$nin", "$param"] := by
      split
      · exact hne.2
      · exact hne.1
    have hset := h.insert hnew (written_of_not_mem hother a.value.json)
    refine hset.imp ?_ fun value => by rw [hop]; simp
    refine List.cons_subset.mpr ⟨?_, by simp⟩
    split <;> simp

variable {x : Json}

/-- A value excluded beside a list of others, unless it is on the list. -/
theorem exclude_further (h : Means params ops names P) {values : List Json}
    (hnin : Json.lookup "$nin" ops = some (.array values)) (hx : x.IsAtom) :
    Means params (if values.contains x then ops else Json.insert "$nin" (.array (values ++ [x])) ops)
      ("$nin" :: names) fun value => value.same (x.bindParams params) = false ∧ P value := by
  obtain ⟨_, hitems, hatoms⟩ := (h.written _ (Json.lookup_eq_some hnin)).nin rfl
  obtain rfl := Json.array.inj hitems
  have hP := h.holds_of_lookup hnin
  simp only [operatorHolds_nin] at hP
  split
  case isTrue hcontains =>
    have hmem := (Json.IsAtom.contains_iff hatoms x).mp hcontains
    refine h.imp (by simp) fun value => ?_
    constructor
    · intro hv
      exact ⟨((hP value).mp hv).1 x hmem, hv⟩
    · exact And.right
  case isFalse =>
    have harg : Written "$nin" (.array (values ++ [x])) := by
      refine ⟨by decide, by simp, fun _ => ⟨_, rfl, List.forall_mem_append.mpr ⟨hatoms, ?_⟩⟩⟩
      simpa using hx
    refine (h.set (fun _ => Iff.rfl) harg).imp (List.Subset.refl _) fun value => ?_
    rw [hP, operatorHolds_nin, List.forall_mem_append]
    simp only [List.mem_singleton, forall_eq]
    tauto

/-- A value excluded beside a single one: the two become a list. -/
theorem exclude_second (h : Means params ops names P) {previous : Json}
    (hne : Json.lookup "$ne" ops = some previous)
    (hnin : ∀ items, Json.lookup "$nin" ops ≠ some (.array items)) (hx : x.IsAtom) :
    Means params (Json.insert "$nin" (.array (if previous == x then [previous] else [previous, x]))
        (Json.remove "$ne" ops))
      ("$nin" :: names) fun value => value.same (x.bindParams params) = false ∧ P value := by
  have hprevious : previous.IsAtom := (h.written _ (Json.lookup_eq_some hne)).ne rfl
  have hP := h.holds_of_lookup hne
  simp only [operatorHolds_ne] at hP
  have habsent : ∀ p ∈ Json.remove "$ne" ops, p.1 ≠ "$nin" := by
    intro p hp heq
    have hmem := (List.mem_filter.mp hp).1
    obtain ⟨items, hitems, -⟩ := (h.written p hmem).nin heq
    have hlookup := Json.lookup_of_mem (Json.nodup_of_ascending h.ascending) hmem
    rw [heq, hitems] at hlookup
    exact hnin items hlookup
  have hvalues : ∀ i, i ∈ (if previous == x then [previous] else [previous, x]) ↔
      i = previous ∨ i = x := by
    intro i
    split
    · rename_i heq
      rw [hx.eq_of_beq heq]
      simp
    · simp
  have harg : Written "$nin" (.array (if previous == x then [previous] else [previous, x])) := by
    refine ⟨by decide, by simp, fun _ => ⟨_, rfl, fun i hi => ?_⟩⟩
    rcases (hvalues i).mp hi with rfl | rfl
    · exact hprevious
    · exact hx
  refine ((h.remove "$ne").insert habsent harg).imp (List.Subset.refl _) fun value => ?_
  rw [hP, operatorHolds_nin]
  simp only [hvalues, forall_eq_or_imp, forall_eq]
  tauto

theorem exclude (h : Means params ops names P) (hx : x.IsAtom) :
    Means params (Document.exclude x ops) ("$ne" :: "$nin" :: names)
      fun value => value.same (x.bindParams params) = false ∧ P value := by
  have hnames : "$nin" :: names ⊆ "$ne" :: "$nin" :: names := List.subset_cons_self _ _
  unfold Document.exclude
  split
  case h_1 values hnin => exact (h.exclude_further hnin hx).imp hnames fun _ => Iff.rfl
  case h_2 previous hne hnin => exact (h.exclude_second hne hnin hx).imp hnames fun _ => Iff.rfl
  case h_3 hne hnin =>
    refine (h.insert (Json.ne_of_lookup_eq_none hne) ⟨by decide, fun _ => hx, by simp⟩).imp (by simp)
      fun value => ?_
    rw [operatorHolds_ne]

end Means

/-! ### The terms of a field -/

/-- The operators that terms of a kind write. -/
def operators : TermKind → List String
  | .equality => ["$eq"]
  | .range => ["$gt", "$gte", "$lt", "$lte"]
  | .exclusion => ["$ne", "$nin"]
  | .pattern => ["$regex"]

theorem kind_eq_of_operators {k k' : TermKind} {name : String} (h : name ∈ operators k)
    (h' : name ∈ operators k') : k = k' := by
  have hall : ∀ k k' : TermKind, ∀ name ∈ operators k, name ∈ operators k' → k = k' := by
    intro k k'
    cases k <;> cases k' <;> decide
  exact hall k k' name h h'

/-- What the operators of a term say about a value when the parameters are bound. -/
def TermHolds (params : List Value) (value : Json) : Term → Prop
  | .eq _ v => value.same (v.json.bindParams params) = true
  | .ne _ v => value.same (v.json.bindParams params) = false
  | .range _ lower upper =>
    (∀ b, lower = some b →
      (value.order? (b.value.json.bindParams params)).any (b.test true).holds = true) ∧
      ∀ b, upper = some b →
        (value.order? (b.value.json.bindParams params)).any (b.test false).holds = true
  | .isNull _ => value.same .null = true
  | .isNotNull _ => value.same .null = false
  | .like .. => False

namespace Means

theorem addTerm (h : Means params ops names P) {t : Term} (hbindable : t.IsBindable)
    (hnew : t.kind ≠ .exclusion → ∀ name ∈ operators t.kind, name ∉ names) :
    Means params (Document.addTerm t ops) (operators t.kind ++ names)
      fun value => TermHolds params value t ∧ P value := by
  have hatom : ∀ w ∈ t.operands, w.json.IsAtom :=
    fun w hw => TermValue.isAtom_json (hbindable.exact w hw)
  have habsent {name : String} (hne : t.kind ≠ .exclusion) (hname : name ∈ operators t.kind) :
      ∀ p ∈ ops, p.1 ≠ name := h.ne_of_notMem (hnew hne name hname)
  cases t with
  | eq i v =>
    exact h.insert (habsent (fun heq => by cases heq) List.mem_cons_self)
      (written_of_not_mem (by decide) _)
  | isNull i =>
    exact h.insert (habsent (fun heq => by cases heq) List.mem_cons_self)
      (written_of_not_mem (by decide) _)
  | ne i v => exact h.exclude (hatom v List.mem_cons_self)
  | isNotNull i => exact h.exclude (.inl rfl)
  | range i lower upper =>
    have hfresh : ∀ name ∈ operators .range, name ∉ names := hnew fun heq => by cases heq
    have hlower := h.bound lower (hfresh "$gt" (by decide)) (hfresh "$gte" (by decide))
      (by decide) operatorHolds_lower
    have hlt : "$lt" ∉ "$gt" :: "$gte" :: names := by simpa using hfresh "$lt" (by decide)
    have hlte : "$lte" ∉ "$gt" :: "$gte" :: names := by simpa using hfresh "$lte" (by decide)
    have hupper := hlower.bound upper hlt hlte (by decide) operatorHolds_upper
    refine hupper.imp ?_ fun value => ?_
    · intro name hname
      simp only [operators, Term.kind, List.cons_append, List.nil_append, List.mem_cons] at hname ⊢
      tauto
    · simp only [TermHolds]
      tauto
  | like i pattern => exact absurd rfl hbindable.noPattern

/-- Terms of one field, each of which writes its own operators. -/
theorem addTerms {terms : List Term} (h : Means params ops names P)
    (hbindable : ∀ t ∈ terms, t.IsBindable)
    (hjoins : terms.Pairwise fun t t' => t.kind = t'.kind → t.kind = .exclusion)
    (hnew : ∀ t ∈ terms, t.kind ≠ .exclusion → ∀ name ∈ operators t.kind, name ∉ names) :
    ∃ names', Means params (terms.foldl (fun ops t => Document.addTerm t ops) ops) names'
      fun value => P value ∧ ∀ t ∈ terms, TermHolds params value t := by
  induction terms generalizing ops names P with
  | nil => exact ⟨names, h.imp (List.Subset.refl _) (by simp)⟩
  | cons t rest ih =>
    obtain ⟨hfirst, hrest⟩ := List.pairwise_cons.mp hjoins
    have hadd := h.addTerm (hbindable t List.mem_cons_self) (hnew t List.mem_cons_self)
    have hnew' : ∀ t' ∈ rest, t'.kind ≠ .exclusion → ∀ name ∈ operators t'.kind,
        name ∉ operators t.kind ++ names := by
      intro t' ht' hkind name hname hmem
      rcases List.mem_append.mp hmem with hmem | hmem
      · -- terms of different kinds have no operator in common
        have hsame : t.kind = t'.kind := kind_eq_of_operators hmem hname
        exact hkind (hsame ▸ hfirst t' ht' hsame)
      · exact hnew t' (List.mem_cons_of_mem t ht') hkind name hname hmem
    obtain ⟨names', hall⟩ :=
      ih hadd (fun t' ht' => hbindable t' (List.mem_cons_of_mem t ht')) hrest hnew'
    refine ⟨names', hall.imp (List.Subset.refl _) fun value => ?_⟩
    rw [List.forall_mem_cons]
    tauto

end Means

theorem conditionHolds_condition (value : Json) {ops : Json.Members}
    (hunbound : ∀ p ∈ ops, p.1 ≠ "$param") :
    conditionHolds value ((condition ops).bindParams params) = allHold params ops value := by
  have hobject : conditionHolds value ((Json.object ops).bindParams params) =
      allHold params ops value := by
    rw [Json.bindParams_object hunbound, conditionHolds, List.all_map]
    rfl
  rcases ops with _ | ⟨⟨op, arg⟩, _ | ⟨second, rest⟩⟩
  · exact hobject
  · by_cases heq : op = "$eq"
    · subst heq
      cases arg with
      | null => exact hobject
      | object members => exact hobject
      | array items =>
        simp [condition, conditionHolds, allHold, operatorHolds, Json.bindParams_array]
      | _ => simp [condition, conditionHolds, allHold, operatorHolds, Json.bindParams]
    · have hwhole : condition [(op, arg)] = .object [(op, arg)] := by
        cases arg <;> simp [condition, heq]
      rw [hwhole]
      exact hobject
  · exact hobject

/-! ### The fields of a branch -/

/-- The operators of a field, none if it is not there. -/
def operatorsOf (name : String) (fields : Fields) : Json.Members :=
  ((fields.find? (·.1 = name)).map (·.2)).getD []

theorem operatorsOf_atField (name n : String) (f : Json.Members → Json.Members) (fields : Fields) :
    operatorsOf n (atField name f fields) =
      if name = n then f (operatorsOf n fields) else operatorsOf n fields := by
  induction fields with
  | nil => by_cases h : name = n <;> simp [atField, operatorsOf, h]
  | cons p rest ih =>
    unfold operatorsOf at ih ⊢
    unfold atField
    by_cases hp : name = p.1
    · subst hp
      by_cases h : p.1 = n <;> simp [h]
    · by_cases h : p.1 = n
      · have hne : name ≠ n := fun heq => hp (heq.trans h.symm)
        simp [h, hne]
      · simpa [hp, h] using ih

theorem names_atField (name : String) (f : Json.Members → Json.Members) (fields : Fields) :
    (atField name f fields).map (·.1) =
      if name ∈ fields.map (·.1) then fields.map (·.1) else fields.map (·.1) ++ [name] := by
  induction fields with
  | nil => rfl
  | cons p rest ih =>
    unfold atField
    by_cases hp : name = p.1
    · simp [hp]
    · simp only [hp, if_false, List.map_cons, ih, List.mem_cons, false_or]
      split <;> rfl

theorem nodup_names_atField {name : String} {f : Json.Members → Json.Members} {fields : Fields}
    (h : (fields.map (·.1)).Nodup) : ((atField name f fields).map (·.1)).Nodup := by
  rw [names_atField]
  split
  · exact h
  · rename_i hnew
    refine List.nodup_append.mpr ⟨h, List.nodup_singleton _, ?_⟩
    rintro a ha b hb rfl
    exact hnew (List.mem_singleton.mp hb ▸ ha)

theorem operatorsOf_of_mem {fields : Fields} (h : (fields.map (·.1)).Nodup)
    {p : String × Json.Members} (hp : p ∈ fields) : operatorsOf p.1 fields = p.2 := by
  rw [operatorsOf, find?_of_mem h hp]
  rfl

variable {ctx : PushContext}

theorem operatorsOf_addTerms (terms : List Term) (name : String) :
    operatorsOf name (addTerms ctx terms) =
      (terms.filter fun t => ctx.name t.field = name).foldl (fun ops t => addTerm t ops) [] := by
  have hfold (fields : Fields) : operatorsOf name
      (terms.foldl (fun fields t => atField (ctx.name t.field) (addTerm t) fields) fields) =
        (terms.filter fun t => ctx.name t.field = name).foldl (fun ops t => addTerm t ops)
          (operatorsOf name fields) := by
    induction terms generalizing fields with
    | nil => rfl
    | cons t rest ih =>
      rw [List.foldl_cons, ih, operatorsOf_atField]
      by_cases h : ctx.name t.field = name <;> simp [h]
  exact hfold []

theorem names_addTerms (terms : List Term) : ((addTerms ctx terms).map (·.1)).Nodup ∧
    ∀ name, name ∈ (addTerms ctx terms).map (·.1) ↔ ∃ t ∈ terms, ctx.name t.field = name := by
  have hfold (fields : Fields) (h : (fields.map (·.1)).Nodup) :
      let result :=
        terms.foldl (fun fields t => atField (ctx.name t.field) (addTerm t) fields) fields
      (result.map (·.1)).Nodup ∧ ∀ name, name ∈ result.map (·.1) ↔
        name ∈ fields.map (·.1) ∨ ∃ t ∈ terms, ctx.name t.field = name := by
    induction terms generalizing fields with
    | nil => simpa using h
    | cons t rest ih =>
      have hnames := names_atField (ctx.name t.field) (addTerm t) fields
      obtain ⟨hrest, hmem⟩ := ih _ (nodup_names_atField h)
      refine ⟨hrest, fun name => ?_⟩
      rw [List.foldl_cons, hmem, hnames, List.exists_mem_cons_iff]
      split
      · rename_i hold
        have hstays : ctx.name t.field = name → name ∈ fields.map (·.1) := fun heq => heq ▸ hold
        tauto
      · rw [List.mem_append, List.mem_singleton, eq_comm (a := name)]
        tauto
  obtain ⟨hnodup, hmem⟩ := hfold [] List.nodup_nil
  exact ⟨hnodup, fun name => (hmem name).trans (by simp)⟩

/-! ### Exclusions of null -/

/-- The exclusions of null that comparisons with `<>` bring with them. -/
def nullTests (terms : List Term) : List Term :=
  terms.filterMap fun
    | .ne i _ => some (.isNotNull i)
    | _ => none

theorem mem_nullTests {terms : List Term} {t : Term} :
    t ∈ nullTests terms ↔ ∃ i v, Term.ne i v ∈ terms ∧ t = .isNotNull i := by
  rw [nullTests, List.mem_filterMap]
  constructor
  · rintro ⟨t', ht', heq⟩
    cases t' with
    | ne i v => exact ⟨i, v, ht', (Option.some.inj heq).symm⟩
    | _ => cases heq
  · rintro ⟨i, v, ht', rfl⟩
    exact ⟨_, ht', rfl⟩

theorem forall_mem_nullTests (value : Nat → Json) {terms : List Term} :
    (∀ t ∈ terms ++ nullTests terms, TermHolds params (value t.field) t) ↔
      ∀ t ∈ terms, TermHolds params (value t.field) t ∧
        ((∃ i v, t = .ne i v) → (value t.field).same .null = false) := by
  rw [List.forall_mem_append]
  constructor
  · rintro ⟨hterms, htests⟩ t ht
    refine ⟨hterms t ht, ?_⟩
    rintro ⟨i, v, rfl⟩
    exact htests (.isNotNull i) (mem_nullTests.mpr ⟨i, v, ht, rfl⟩)
  · intro h
    refine ⟨fun t ht => (h t ht).1, fun t ht => ?_⟩
    obtain ⟨i, v, hne, rfl⟩ := mem_nullTests.mp ht
    exact (h (.ne i v) hne).2 ⟨i, v, rfl⟩

/-- Excluding null is adding the terms that test for it. -/
theorem excludeNulls_addTerms (terms : List Term) :
    excludeNulls ctx terms (addTerms ctx terms) = addTerms ctx (terms ++ nullTests terms) := by
  have hfold (tests : List Term) (fields : Fields) : excludeNulls ctx tests fields =
      (nullTests tests).foldl (fun fields t => atField (ctx.name t.field) (addTerm t) fields)
        fields := by
    induction tests generalizing fields with
    | nil => rfl
    | cons t rest ih =>
      rw [excludeNulls, List.foldl_cons]
      cases t <;> exact ih _
  rw [hfold, addTerms, addTerms, List.foldl_append]

/-! ### Branches -/

theorem joins_nullTests {terms : List Term} (h : terms.Pairwise Term.Joins) :
    (terms ++ nullTests terms).Pairwise Term.Joins := by
  have hkind : ∀ t ∈ nullTests terms, t.kind = .exclusion := by
    intro t ht
    obtain ⟨i, v, -, rfl⟩ := mem_nullTests.mp ht
    rfl
  refine List.pairwise_append.mpr ⟨h, ?_, ?_⟩
  · exact List.pairwise_of_forall_mem_list fun t ht _ _ _ _ => hkind t ht
  · intro t _ t' ht' _ heq
    rw [heq, hkind t' ht']

theorem isBindable_nullTests {terms : List Term} {t : Term} (ht : t ∈ nullTests terms) :
    t.IsBindable := by
  obtain ⟨i, v, -, rfl⟩ := mem_nullTests.mp ht
  constructor
  · exact fun h => by cases h
  · exact fun w hw => by cases hw

/-- The operators of each field say what the terms of the field say. -/
theorem means_addTerms {terms : List Term} (hnames : ctx.names.Nodup)
    (hnamed : ∀ t ∈ terms, (ctx.name? t.field).isSome = true)
    (hbindable : ∀ t ∈ terms, t.IsBindable) (hjoins : terms.Pairwise Term.Joins) (name : String) :
    ∃ names', Means params (operatorsOf name (addTerms ctx terms)) names' fun value =>
      ∀ t ∈ terms, ctx.name t.field = name → TermHolds params value t := by
  have hfield : ∀ t ∈ terms.filter (fun t => ctx.name t.field = name),
      t ∈ terms ∧ ctx.name t.field = name := by
    intro t ht
    simpa using List.mem_filter.mp ht
  have hjoins' : (terms.filter fun t => ctx.name t.field = name).Pairwise
      fun t t' => t.kind = t'.kind → t.kind = .exclusion := by
    refine (hjoins.filter _).imp_of_mem fun ht ht' hjoin => ?_
    obtain ⟨hmem, hname⟩ := hfield _ ht
    obtain ⟨hmem', hname'⟩ := hfield _ ht'
    exact hjoin (PushContext.field_eq_of_name hnames (hnamed _ hmem) (hnamed _ hmem')
      (hname.trans hname'.symm))
  obtain ⟨names', hmeans⟩ :=
    Means.nil.addTerms (fun t ht => hbindable t (hfield t ht).1) hjoins' (by simp)
  rw [operatorsOf_addTerms]
  exact ⟨names', hmeans.imp (List.Subset.refl _) (by simp)⟩

/-- A query without `$or` asks for the operators of every field that it names. -/
theorem accepts_fields {fields : Fields} (hnodup : (fields.map (·.1)).Nodup)
    (hor : "$or" ∉ fields.map (·.1)) (hparam : "$param" ∉ fields.map (·.1))
    (hunbound : ∀ p ∈ fields, ∀ q ∈ p.2, q.1 ≠ "$param") (doc : Json.Members) :
    accepts doc ((Json.ofMembers (fields.map fun (name, ops) =>
        (name, condition ops))).bindParams params) = true ↔
      ∀ p ∈ fields, allHold params p.2 ((Json.lookup p.1 doc).getD .null) = true := by
  have hkeys : (fields.map fun (name, ops) => (name, condition ops)).map (·.1) =
      fields.map (·.1) := by
    simp
  obtain ⟨members, hobject, hperm⟩ := Json.ofMembers_perm (hkeys ▸ hnodup)
  have hnone {name : String} (hname : name ∉ fields.map (·.1)) : ∀ p ∈ members, p.1 ≠ name := by
    intro p hp heq
    refine hname ?_
    rw [← hkeys, ← heq]
    exact List.mem_map_of_mem (hperm.mem_iff.mp hp)
  have hbound : ∀ p ∈ members.map (fun p => (p.1, p.2.bindParams params)), p.1 ≠ "$or" := by
    intro p hp
    obtain ⟨q, hq, rfl⟩ := List.mem_map.mp hp
    exact hnone hor q hq
  rw [hobject, Json.bindParams_object (hnone hparam), accepts, acceptsAll_eq hbound,
    List.all_map, hperm.all_eq, List.all_map, List.all_eq_true]
  refine forall₂_congr fun p hp => ?_
  simp only [Function.comp_apply, conditionHolds_condition _ (hunbound p hp)]

/-- The query of a branch, with its parameters bound, matches a document when the terms
    of the branch, and the exclusions of null that they bring with them, hold of its
    fields. -/
theorem accepts_bound_branch {terms : List Term} (hnames : ctx.names.Nodup)
    (hdollar : ∀ name ∈ ctx.names, name.toList.head? ≠ some '$') (hmerged : MergedTerms ctx terms)
    (hbindable : ∀ t ∈ terms, t.IsBindable) (doc : Json.Members) :
    accepts doc ((branch ctx terms).bindParams params) = true ↔ ∀ t ∈ terms ++ nullTests terms,
      TermHolds params ((Json.lookup (ctx.name t.field) doc).getD .null) t := by
  have hnamed : ∀ t ∈ terms ++ nullTests terms, (ctx.name? t.field).isSome = true := by
    refine List.forall_mem_append.mpr ⟨hmerged.named, fun t ht => ?_⟩
    obtain ⟨i, v, hne, rfl⟩ := mem_nullTests.mp ht
    exact hmerged.named (.ne i v) hne
  have hbindable' : ∀ t ∈ terms ++ nullTests terms, t.IsBindable :=
    List.forall_mem_append.mpr ⟨hbindable, fun _ => isBindable_nullTests⟩
  have hmeans (name : String) : ∃ names', Means params
      (operatorsOf name (addTerms ctx (terms ++ nullTests terms))) names' _ :=
    means_addTerms hnames hnamed hbindable' (joins_nullTests hmerged.joins) name
  obtain ⟨hnodup, hmem⟩ := @names_addTerms ctx (terms ++ nullTests terms)
  have hplain {name : String} (hname : name.toList.head? = some '$') :
      name ∉ (addTerms ctx (terms ++ nullTests terms)).map (·.1) := by
    intro hlisted
    obtain ⟨t, ht, hfield⟩ := (hmem _).mp hlisted
    obtain ⟨_, hsome⟩ := Option.isSome_iff_exists.mp (hnamed t ht)
    refine hdollar _ (List.mem_of_getElem? hsome) ?_
    rw [← PushContext.name_eq hsome, hfield]
    exact hname
  have hunbound : ∀ p ∈ addTerms ctx (terms ++ nullTests terms), ∀ q ∈ p.2, q.1 ≠ "$param" := by
    intro p hp q hq
    obtain ⟨_, h⟩ := hmeans p.1
    rw [← operatorsOf_of_mem hnodup hp] at hq
    exact (h.written q hq).unbound
  have hholds (name : String) (value : Json) :
      allHold params (operatorsOf name (addTerms ctx (terms ++ nullTests terms))) value = true ↔
        ∀ t ∈ terms ++ nullTests terms, ctx.name t.field = name → TermHolds params value t := by
    obtain ⟨_, h⟩ := hmeans name
    exact h.holds value
  rw [branch, excludeNulls_addTerms, accepts_fields hnodup (hplain rfl) (hplain rfl) hunbound]
  constructor
  · intro h t ht
    obtain ⟨p, hp, hname⟩ := List.mem_map.mp ((hmem _).mpr ⟨t, ht, rfl⟩)
    have hp' := h p hp
    rw [← operatorsOf_of_mem hnodup hp, hholds, hname] at hp'
    exact hp' t ht rfl
  · intro h p hp
    rw [← operatorsOf_of_mem hnodup hp, hholds]
    intro t ht hname
    rw [← hname]
    exact h t ht

/-- Without parameters the query is matched as it is. -/
theorem accepts_branch {terms : List Term} (hnames : ctx.names.Nodup)
    (hdollar : ∀ name ∈ ctx.names, name.toList.head? ≠ some '$') (hmerged : MergedTerms ctx terms)
    (hfixed : ∀ t ∈ terms, t.IsFixed) (doc : Json.Members) :
    accepts doc (branch ctx terms) = true ↔ ∀ t ∈ terms ++ nullTests terms,
      TermHolds [] ((Json.lookup (ctx.name t.field) doc).getD .null) t := by
  have hbindable : ∀ t ∈ terms, t.IsBindable := fun t ht => (hfixed t ht).isBindable
  rw [← accepts_bound_branch hnames hdollar hmerged hbindable, Json.bindParams_nil]

theorem lookup_holding (hnames : ctx.names.Nodup) {row : List Value}
    (hlength : row.length = ctx.names.length) {i : Nat} {a : Value}
    (hname : (ctx.name? i).isSome = true) (ha : row[i]? = some a) :
    Json.lookup (ctx.name i) (holding ctx row) = some a.json := by
  have hvalue : (row.map Value.json)[i]? = some a.json := by
    rw [List.getElem?_map, ha, Option.map_some]
  have hlength' : (row.map Value.json).length = ctx.names.length := by
    rw [List.length_map, hlength]
  rw [Json.lookup, holding, PushContext.find?_zip hnames hlength' hname hvalue]
  rfl

/-- A term holds of the JSON form of its field, and so does the exclusion of null that it
    brings with it, when the field is as the term says. -/
theorem termHolds_iff_holdsOf {a : Value} (hshown : a.isShown = true) {t : Term} :
    (TermHolds [] a.json t ∧ ((∃ i v, t = .ne i v) → a.json.same .null = false)) ↔ t.HoldsOf a := by
  have hnull : a.json = .null ↔ a.isNull = true := Value.json_eq_null_iff hshown
  cases t <;>
    simp [TermHolds, Term.HoldsOf, Json.bindParams_nil, ← Bool.not_eq_true, hnull, and_comm]

theorem accepts_query (doc : Json.Members) (branches : List (List Term)) :
    accepts doc (query ctx branches) =
      branches.any fun terms => accepts doc (branch ctx terms) := by
  unfold query
  split
  · simp
  · rw [accepts_or, List.any_map]
    rfl

/-- A filter that a document store is given matches the documents of the rows that
    satisfy all terms of a branch. -/
theorem accepts_query_document_iff {e : Expr} {support : FilterSupport}
    {accept : Term → Bool} {plan : FilterPlan}
    (hplan : FilterPlan.make e ctx support accept = .ok plan)
    (hnames : ctx.names.Nodup) (hdollar : ∀ name ∈ ctx.names, name.toList.head? ≠ some '$')
    (hfixed : ∀ terms ∈ plan.branches, ∀ t ∈ terms, t.IsFixed) {row : List Value}
    (hlength : row.length = ctx.names.length)
    (hfits : ∀ terms ∈ plan.branches, ∀ t ∈ terms, t.Fits row)
    (hshown : ∀ terms ∈ plan.branches, ∀ t ∈ terms, ∀ a ∈ row[t.field]?, a.isShown = true) :
    accepts (holding ctx row) (query ctx plan.branches) = true ↔
      ∃ terms ∈ plan.branches, ∀ t ∈ terms, t.satisfied row [] = true := by
  rw [accepts_query, List.any_eq_true]
  refine exists_congr fun terms => and_congr_right fun hterms => ?_
  have hmerged := FilterPlan.make_mergedTerms hplan hterms
  rw [accepts_branch hnames hdollar hmerged (hfixed terms hterms), forall_mem_nullTests
    fun i => (Json.lookup (ctx.name i) (holding ctx row)).getD .null]
  refine forall₂_congr fun t ht => ?_
  obtain ⟨a, ha⟩ := hmerged.exists_value ht hlength
  have hfix := hfixed terms hterms t ht
  have hbeside := hmerged.beside ht hfix (hfits terms hterms t ht) ha
  rw [lookup_holding hnames hlength (hmerged.named t ht) ha, Option.getD_some,
    termHolds_iff_holdsOf (hshown terms hterms t ht a ha),
    Term.satisfied_iff_holdsOf hfix.noPattern ha hbeside]

/-- Two exclusions and an equality, or a test for `NULL`. -/
def twoBranches : Expr :=
  let x := Expr.field 0 .bigint
  let y := Expr.field 1 .string
  .apply .or [
    .apply .and [.apply (.compare .ne) [x, .lit (.bigint 4)],
      .apply (.compare .ne) [x, .lit (.bigint 5)],
      .apply (.compare .eq) [y, .lit (.string "a")]],
    .apply .isNull [y]]

theorem accepts_query_document_twoBranches :
    let ctx : PushContext := { names := ["x", "y"] }
    let row := [Value.bigint 6, .string "a"]
    ∃ plan, FilterPlan.make twoBranches ctx support (fun _ => true) = .ok plan ∧
      accepts (holding ctx row) (query ctx plan.branches) = true ∧
      ∃ terms ∈ plan.branches, ∀ t ∈ terms, t.satisfied row [] = true := by
  intro ctx row
  obtain ⟨plan, hplan, hbranches⟩ : ∃ plan,
      FilterPlan.make twoBranches ctx support (fun _ => true) = .ok plan ∧
        plan.branches = [[.ne 0 (.literal (.bigint 4)), .ne 0 (.literal (.bigint 5)),
          .eq 1 (.literal (.string "a"))], [.isNull 1]] := ⟨_, rfl, rfl⟩
  have hfixed : ∀ terms ∈ plan.branches, ∀ t ∈ terms, t.IsFixed := by
    rw [hbranches]
    decide
  have hfits : ∀ terms ∈ plan.branches, ∀ t ∈ terms, t.Fits row := by
    rw [hbranches]
    decide
  have hshown : ∀ terms ∈ plan.branches, ∀ t ∈ terms, ∀ a ∈ row[t.field]?, a.isShown = true := by
    rw [hbranches]
    decide
  have haccepts : accepts (holding ctx row) (query ctx plan.branches) = true := by
    rw [hbranches]
    decide +kernel
  have hiff := accepts_query_document_iff hplan (by decide) (by decide) hfixed rfl hfits hshown
  exact ⟨plan, hplan, haccepts, hiff.mp haccepts⟩

/-- A double that JSON has no number for looks like `NULL` in its document. -/
theorem accepts_query_document_infinite :
    let ctx : PushContext := { names := ["x"] }
    let row := [Value.double (Float.ofBits 0x7FF0000000000000)]
    ∃ plan, FilterPlan.make (.apply .isNull [.field 0 .double]) ctx support (fun _ => true) =
        .ok plan ∧
      (∀ terms ∈ plan.branches, ∀ t ∈ terms, t.IsFixed ∧ t.Fits row) ∧
      accepts (holding ctx row) (query ctx plan.branches) = true ∧
      ¬∃ terms ∈ plan.branches, ∀ t ∈ terms, t.satisfied row [] = true := by
  intro ctx row
  obtain ⟨plan, hplan, hbranches⟩ : ∃ plan,
      FilterPlan.make (.apply .isNull [.field 0 .double]) ctx support (fun _ => true) =
        .ok plan ∧ plan.branches = [[.isNull 0]] := ⟨_, rfl, rfl⟩
  refine ⟨plan, hplan, ?_⟩
  rw [hbranches]
  exact ⟨by decide, by decide +kernel, by decide⟩

end Polystore.Document
