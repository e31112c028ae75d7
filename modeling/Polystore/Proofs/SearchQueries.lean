import Polystore.Proofs.BranchTerms
import Polystore.Pushdown.Search

/-
  Polystore/Proofs/SearchQueries.lean
  ===================================
  **Search queries mean what their terms mean.**  `accepts` reads a `bool` query as a
  search index does: a leaf matches no document that lacks its field, which is how the
  index keeps `NULL`.  Every term adds to the clauses that must match and to those that
  must not, so what the clauses select is followed clause by clause
  (`selects_require`, `selects_forbid`, `selects_requirePresence`), then term by term.
-/

namespace Polystore.Search

/-! ### How a search index reads a query -/

abbrev Doc := List (String × Value)

/-- The value of a field.  A document lacks the fields that are `NULL`. -/
def valueOf (doc : Doc) (name : String) : Option Value :=
  ((doc.find? (·.1 = name)).map (·.2)).filter fun a => !a.isNull

/-- Whether a value is on the right side of one end of a range. -/
def endHolds (value : Json) (op : String) (arg : Json) : Bool :=
  match op with
  | "gt" => (value.order? arg).any Comparison.gt.holds
  | "gte" => (value.order? arg).any Comparison.ge.holds
  | "lt" => (value.order? arg).any Comparison.lt.holds
  | "lte" => (value.order? arg).any Comparison.le.holds
  | _ => false

/-- Whether a document matches a leaf of a query. -/
def acceptsLeaf (doc : Doc) (kind : String) (body : Json.Members) : Bool :=
  match kind, body with
  | "exists", [("field", .string name)] => (valueOf doc name).isSome
  | "term", [(name, arg)] => (valueOf doc name).any fun a => a.json.same arg
  | "range", [(name, .object ends)] =>
    (valueOf doc name).any fun a => ends.all fun (op, arg) => endHolds a.json op arg
  | _, _ => false

mutual

/-- Whether a document matches a query. -/
def accepts (doc : Doc) : Json → Bool
  | .object [("bool", .object sections)] => acceptsSections doc sections
  | .object [(kind, .object body)] => acceptsLeaf doc kind body
  | _ => false

/-- All sections of a `bool` query have to hold.  One clause under `should` is enough, as
    `minimum_should_match` says. -/
def acceptsSections (doc : Doc) : List (String × Json) → Bool
  | [] => true
  | ("must", .array clauses) :: rest => acceptsAll doc clauses && acceptsSections doc rest
  | ("must_not", .array clauses) :: rest => !acceptsAny doc clauses && acceptsSections doc rest
  | ("should", .array clauses) :: rest => acceptsAny doc clauses && acceptsSections doc rest
  | ("minimum_should_match", .int n) :: rest => n == 1 && acceptsSections doc rest
  | _ => false

def acceptsAll (doc : Doc) : List Json → Bool
  | [] => true
  | query :: rest => accepts doc query && acceptsAll doc rest

def acceptsAny (doc : Doc) : List Json → Bool
  | [] => false
  | query :: rest => accepts doc query || acceptsAny doc rest

end

theorem acceptsAll_eq (doc : Doc) (queries : List Json) :
    acceptsAll doc queries = queries.all (accepts doc) := by
  induction queries with
  | nil => rfl
  | cons query rest ih => rw [acceptsAll, ih, List.all_cons]

theorem acceptsAny_eq (doc : Doc) (queries : List Json) :
    acceptsAny doc queries = queries.any (accepts doc) := by
  induction queries with
  | nil => rfl
  | cons query rest ih => rw [acceptsAny, ih, List.any_cons]

/-! ### Clauses -/

/-- A document is selected by clauses when it matches what must match and nothing that
    must not. -/
def Clauses.selects (c : Clauses) (doc : Doc) : Bool :=
  c.must.all (accepts doc) && !c.mustNot.any (accepts doc)

namespace Clauses

variable {c : Clauses} {doc : Doc}

theorem selects_require (clause : Json) :
    (c.require clause).selects doc = (c.selects doc && accepts doc clause) := by
  simp only [selects, require, List.all_append, List.all_cons, List.all_nil, Bool.and_true]
  ac_rfl

theorem selects_forbid (clause : Json) :
    (c.forbid clause).selects doc = (c.selects doc && !accepts doc clause) := by
  simp only [selects, forbid, List.any_append, List.any_cons, List.any_nil, Bool.or_false,
    Bool.not_or]
  ac_rfl

theorem eq_presence_of_beq {name : String} {clause : Json}
    (h : (presence name == clause) = true) : clause = presence name := by
  obtain ⟨body, rfl, hbody⟩ := Json.eq_single_of_beq h
  obtain ⟨field, rfl, hfield⟩ := Json.eq_single_of_beq hbody
  cases field with
  | string n =>
    obtain rfl : name = n := beq_iff_eq.mp hfield
    rfl
  | _ => cases hfield

/-- Asking for the field a second time would not change what is selected. -/
theorem selects_requirePresence (name : String) :
    (c.requirePresence name).selects doc = (c.selects doc && accepts doc (presence name)) := by
  unfold requirePresence
  split
  · rename_i hcontains
    rw [List.contains_eq_any_beq, List.any_eq_true] at hcontains
    obtain ⟨clause, hclause, hbeq⟩ := hcontains
    rw [eq_presence_of_beq hbeq] at hclause
    have hmust : c.selects doc = true → accepts doc (presence name) = true := by
      intro hselects
      exact List.all_eq_true.mp (Bool.and_eq_true_iff.mp hselects).1 _ hclause
    cases hselects : c.selects doc with
    | true => rw [hmust hselects, Bool.and_true]
    | false => rw [Bool.false_and]
  · exact selects_require _

end Clauses

theorem accepts_clauses (c : Clauses) (doc : Doc) :
    accepts doc (.single "bool"
      (.ofMembers (section? "must" c.must ++ section? "must_not" c.mustNot))) =
        c.selects doc := by
  have hboth (must mustNot : List Json) :
      Json.ofMembers [("must", .array must), ("must_not", .array mustNot)] =
        .object [("must", .array must), ("must_not", .array mustNot)] := rfl
  rcases c with ⟨_ | ⟨m, must⟩, _ | ⟨n, mustNot⟩⟩
  · rfl
  · change accepts doc (.object [("bool", .object [("must_not", .array (n :: mustNot))])]) = _
    rw [accepts, acceptsSections, acceptsSections, acceptsAny_eq, Bool.and_true]
    rfl
  · change accepts doc (.object [("bool", .object [("must", .array (m :: must))])]) = _
    rw [accepts, acceptsSections, acceptsSections, acceptsAll_eq]
    rfl
  · change accepts doc (.object [("bool", .ofMembers [("must", .array (m :: must)),
      ("must_not", .array (n :: mustNot))])]) = _
    rw [hboth, accepts, acceptsSections, acceptsSections, acceptsSections, acceptsAll_eq,
      acceptsAny_eq, Bool.and_true]
    rfl

theorem accepts_should (doc : Doc) (queries : List Json) :
    accepts doc (.single "bool" (.ofMembers
      [("should", .array queries), ("minimum_should_match", .int 1)])) =
        queries.any (accepts doc) := by
  have hmembers : Json.ofMembers [("should", .array queries), ("minimum_should_match", .int 1)] =
      .object [("minimum_should_match", .int 1), ("should", .array queries)] := rfl
  rw [hmembers, Json.single, accepts, acceptsSections, acceptsSections, acceptsSections,
    acceptsAny_eq, Bool.and_true]
  rfl

/-! ### Terms -/

section

variable {doc : Doc} {name : String} {a : Value}

/-- The document has the value under the name, or lacks the field if the value is
    `NULL`. -/
def Holds (doc : Doc) (name : String) (a : Value) : Prop :=
  valueOf doc name = if a.isNull then none else some a

theorem accepts_presence (ha : Holds doc name a) :
    accepts doc (presence name) = !a.isNull := by
  have hleaf : accepts doc (presence name) = (valueOf doc name).isSome := rfl
  rw [hleaf, ha]
  cases a.isNull <;> rfl

theorem accepts_match1 {w : TermValue} (ha : Holds doc name a) (hw : w.Beside a) :
    accepts doc (match1 name w) = a.json.same w.json := by
  have hleaf : accepts doc (match1 name w) =
      (valueOf doc name).any fun a => a.json.same w.json := rfl
  rw [hleaf, ha]
  cases hsame : a.json.same w.json with
  | true => simp [hw.isNull_eq_false hsame, hsame]
  | false => cases a.isNull <;> simp [hsame]

theorem accepts_range {lower upper : Option Bound} (ha : Holds doc name a)
    (hended : lower ≠ none ∨ upper ≠ none) :
    accepts doc (.single "range" (.single name
      (.ofMembers (bound "gt" "gte" lower ++ bound "lt" "lte" upper)))) = true ↔
        (∀ b, lower = some b → (a.json.order? b.value.json).any (b.test true).holds = true) ∧
          ∀ b, upper = some b → (a.json.order? b.value.json).any (b.test false).holds = true := by
  have hnodup : ((bound "gt" "gte" lower ++ bound "lt" "lte" upper).map (·.1)).Nodup := by
    rcases lower with _ | ⟨v, _ | _⟩ <;> rcases upper with _ | ⟨w, _ | _⟩ <;> simp [bound]
  obtain ⟨ends, hends, hperm⟩ := Json.ofMembers_perm hnodup
  have hlower (value : Json) : (bound "gt" "gte" lower).all (fun p => endHolds value p.1 p.2) =
      lower.all fun b => (value.order? b.value.json).any (b.test true).holds := by
    rcases lower with _ | ⟨v, _ | _⟩ <;> simp [bound, endHolds, Bound.test]
  have hupper (value : Json) : (bound "lt" "lte" upper).all (fun p => endHolds value p.1 p.2) =
      upper.all fun b => (value.order? b.value.json).any (b.test false).holds := by
    rcases upper with _ | ⟨v, _ | _⟩ <;> simp [bound, endHolds, Bound.test]
  have hleaf : accepts doc (.single "range" (.single name (.object ends))) =
      (valueOf doc name).any fun a => ends.all fun p => endHolds a.json p.1 p.2 := rfl
  rw [hends, hleaf, ha]
  simp only [hperm.all_eq, List.all_append, hlower, hupper]
  cases hnull : a.isNull with
  | true =>
    -- nothing is above or below null, and there is an end
    cases a <;> cases hnull
    rcases lower with _ | b <;> rcases upper with _ | b' <;> simp_all [Value.json]
  | false => cases lower <;> cases upper <;> simp

end

namespace Clauses

variable {ctx : PushContext} {doc : Doc} {c : Clauses} {t : Term} {a : Value}

/-- A term narrows what is selected to the documents that it holds of. -/
theorem selects_addTerm (hpattern : t.kind ≠ .pattern) (hended : t.IsEnded)
    (ha : Holds doc (ctx.name t.field) a) (hbeside : ∀ w ∈ t.operands, w.Beside a) :
    (addTerm ctx c t).selects doc = true ↔ c.selects doc = true ∧ t.HoldsOf a := by
  cases t with
  | eq i w =>
    rw [addTerm, selects_require, accepts_match1 ha (hbeside w (List.mem_singleton_self w)),
      Bool.and_eq_true]
    rfl
  | ne i w =>
    rw [addTerm, selects_requirePresence, selects_forbid, accepts_presence ha,
      accepts_match1 ha (hbeside w (List.mem_singleton_self w))]
    simp only [Term.HoldsOf, Bool.and_eq_true, Bool.not_eq_true']
    tauto
  | range i lower upper =>
    have hends : lower ≠ none ∨ upper ≠ none := by
      by_contra h
      obtain ⟨rfl, rfl⟩ : lower = none ∧ upper = none := by simpa using h
      exact hended i rfl
    rw [addTerm, selects_require, Bool.and_eq_true, accepts_range ha hends]
    rfl
  | isNull i =>
    rw [addTerm, selects_forbid, accepts_presence ha, Bool.not_not, Bool.and_eq_true]
    rfl
  | isNotNull i =>
    rw [addTerm, selects_requirePresence, accepts_presence ha, Bool.and_eq_true,
      Bool.not_eq_true']
    rfl
  | like i pattern => exact absurd rfl hpattern

theorem selects_addTerms {terms : List Term} {P : Term → Prop}
    (h : ∀ t ∈ terms, ∀ c : Clauses,
      (addTerm ctx c t).selects doc = true ↔ c.selects doc = true ∧ P t) :
    (terms.foldl (addTerm ctx) c).selects doc = true ↔
      c.selects doc = true ∧ ∀ t ∈ terms, P t := by
  induction terms generalizing c with
  | nil => simp
  | cons t rest ih =>
    rw [List.foldl_cons, ih fun t' ht' => h t' (List.mem_cons_of_mem t ht'),
      h t List.mem_cons_self, List.forall_mem_cons, and_assoc]

end Clauses

/-! ### Queries -/

theorem holds_zip {ctx : PushContext} (hnames : ctx.names.Nodup) {row : List Value}
    (hlength : row.length = ctx.names.length) {i : Nat} {a : Value}
    (hname : (ctx.name? i).isSome = true) (ha : row[i]? = some a) :
    Holds (ctx.names.zip row) (ctx.name i) a := by
  rw [Holds, valueOf, PushContext.find?_zip hnames hlength hname ha]
  cases hnull : a.isNull <;> simp [hnull]

theorem accepts_query (ctx : PushContext) (doc : Doc) (branches : List (List Term)) :
    accepts doc (query ctx branches) =
      branches.any fun terms => accepts doc (branch ctx terms) := by
  unfold query
  split
  · simp
  · rw [accepts_should, List.any_map]
    rfl

/-- A filter that a search index is given matches the rows that satisfy all terms of a
    branch. -/
theorem accepts_bool_query_iff {e : Expr} {ctx : PushContext} {support : FilterSupport}
    {accept : Term → Bool} {plan : FilterPlan}
    (hplan : FilterPlan.make e ctx support accept = .ok plan) (hnames : ctx.names.Nodup)
    (hfixed : ∀ terms ∈ plan.branches, ∀ t ∈ terms, t.IsFixed) {row : List Value}
    (hlength : row.length = ctx.names.length)
    (hfits : ∀ terms ∈ plan.branches, ∀ t ∈ terms, t.Fits row) :
    accepts (ctx.names.zip row) (query ctx plan.branches) = true ↔
      ∃ terms ∈ plan.branches, ∀ t ∈ terms, t.satisfied row [] = true := by
  rw [accepts_query, List.any_eq_true]
  refine exists_congr fun terms => and_congr_right fun hterms => ?_
  have hmerged := FilterPlan.make_mergedTerms hplan hterms
  have hterm : ∀ t ∈ terms, ∀ c : Clauses, (addTerm ctx c t).selects (ctx.names.zip row) = true ↔
      c.selects (ctx.names.zip row) = true ∧ t.satisfied row [] = true := by
    intro t ht c
    obtain ⟨a, ha⟩ := hmerged.exists_value ht hlength
    have hfix := hfixed terms hterms t ht
    have hbeside := hmerged.beside ht hfix (hfits terms hterms t ht) ha
    rw [Term.satisfied_iff_holdsOf hfix.noPattern ha hbeside]
    exact Clauses.selects_addTerm hfix.noPattern (hmerged.ended t ht)
      (holds_zip hnames hlength (hmerged.named t ht) ha) hbeside
  have hnone : ({} : Clauses).selects (ctx.names.zip row) = true := rfl
  rw [branch, accepts_clauses, Clauses.selects_addTerms hterm, and_iff_right hnone]

/-- Two exclusions beside a bound on the same field, or a test for `NULL`. -/
def excludedOrAbsent : Expr :=
  let x := Expr.field 0 .bigint
  .apply .or [
    .apply .and [.apply (.compare .ne) [x, .lit (.bigint 4)],
      .apply (.compare .ne) [x, .lit (.bigint 5)],
      .apply (.compare .lt) [x, .lit (.bigint 9)]],
    .apply .isNull [.field 1 .string]]

theorem accepts_bool_query_excludedOrAbsent :
    let ctx : PushContext := { names := ["x", "y"] }
    let row := [Value.bigint 6, .string "a"]
    ∃ plan, FilterPlan.make excludedOrAbsent ctx support (fun _ => true) = .ok plan ∧
      accepts (ctx.names.zip row) (query ctx plan.branches) = true ∧
      ∃ terms ∈ plan.branches, ∀ t ∈ terms, t.satisfied row [] = true := by
  intro ctx row
  obtain ⟨plan, hplan, hbranches⟩ : ∃ plan,
      FilterPlan.make excludedOrAbsent ctx support (fun _ => true) = .ok plan ∧
        plan.branches = [[.range 0 none (some ⟨.literal (.bigint 9), false⟩),
          .ne 0 (.literal (.bigint 4)), .ne 0 (.literal (.bigint 5))], [.isNull 1]] :=
    ⟨_, rfl, rfl⟩
  have hfixed : ∀ terms ∈ plan.branches, ∀ t ∈ terms, t.IsFixed := by
    rw [hbranches]
    decide
  have hfits : ∀ terms ∈ plan.branches, ∀ t ∈ terms, t.Fits row := by
    rw [hbranches]
    decide
  have haccepts : accepts (ctx.names.zip row) (query ctx plan.branches) = true := by
    rw [hbranches]
    decide +kernel
  have hiff := accepts_bool_query_iff hplan (by decide) hfixed rfl hfits
  exact ⟨plan, hplan, haccepts, hiff.mp haccepts⟩

end Polystore.Search
