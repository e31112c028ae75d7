import Polystore.Proofs.ProjectStages
import Polystore.Proofs.Truth

/-
  Polystore/Proofs/PushedProjections.lean
  =======================================
  **Projecting in a document store.**  A projection has an output for each expression, by
  its place; a `$project` stage has one for each name.  The stage is an object, so of
  outputs with one name only the last is left, and outputs with names that clash are none
  that a store accepts.  Where the names keep apart, and those of the source fields are
  names that a store knows, no column is lost (`project_outputs_iff`).
-/

namespace Polystore.Document

variable {ctx : PushContext} {exprs : List Expr} {names : List String} {f : Fragment}

/-! ### What a projection asks for -/

/-- A stage computes the expressions under the names: it has an output for each name, and
    of a document that holds a row it makes one that holds their values.  `_id` is in it
    only as an output. -/
structure Projection.Computes (p : Projection) (ctx : PushContext) (exprs : List Expr)
    (names : List String) : Prop where
  outputs : (p.outputs.map (·.1)).Perm names
  values : ∀ row params doc, HoldsRow ctx row doc → ∀ e n, (e, n) ∈ exprs.zip names →
    ∃ v, e.eval row params = .ok v ∧ valueAt (pathOf n) (.object (p.apply doc)) = some v.json
  id : "_id" ∉ names → ∀ doc, Json.lookup "_id" (p.apply doc) = none

/-- Names that outputs can have beside each other, and beside `_id`, which is a member of
    the stage in any case. -/
structure OutputNames (names : List String) : Prop where
  paths : ∀ n ∈ names, isPath n = true
  apart : NoClash names
  id : ∀ n ∈ names, n ≠ "_id" → ¬Clash "_id" n

/-- The expressions are fields with names that a store knows. -/
def KnownSources (ctx : PushContext) (exprs : List Expr) : Prop :=
  ∀ e ∈ exprs, ∀ i ∈ e.asField?, ∀ s ∈ ctx.name? i, isPath s = true

/-! ### The stage -/

/-- The output for an expression with a name. -/
def Copies (ctx : PushContext) (e : Expr × String) (o : String × Formula) : Prop :=
  ∃ i s, e.1.asField? = some i ∧ ctx.name? i = some s ∧ o = (e.2, .path s)

theorem projectFields_eq_some {l : List (Expr × String)} {fields : Json.Members}
    (h : projectFields ctx l = some fields) :
    ∃ outs, List.Forall₂ (Copies ctx) l outs ∧ fields = written Formula.json outs := by
  induction l generalizing fields with
  | nil =>
    obtain rfl := Option.some.inj h
    exact ⟨[], .nil, rfl⟩
  | cons e rest ih =>
    obtain ⟨i, hi, h⟩ := Option.bind_eq_some_iff.mp h
    obtain ⟨s, hs, h⟩ := path?_bind_eq_some.mp h
    obtain ⟨fields', hfields', h⟩ := Option.bind_eq_some_iff.mp h
    obtain rfl := Option.some.inj h
    obtain ⟨outs, houts, rfl⟩ := ih hfields'
    exact ⟨(e.2, .path s) :: outs, .cons ⟨i, s, hi, hs, rfl⟩ houts, rfl⟩

theorem names_of_copies {l : List (Expr × String)} {outs : List (String × Formula)}
    (h : List.Forall₂ (Copies ctx) l outs) : outs.map (·.1) = l.map (·.2) := by
  induction h with
  | nil => rfl
  | cons ho _ ih =>
    obtain ⟨i, s, -, -, rfl⟩ := ho
    rw [List.map_cons, List.map_cons, ih]

/-- The stage hides `_id` if that is not an output. -/
theorem project_eq_some (hlength : exprs.length = names.length)
    (h : project exprs names ctx = some f) :
    ∃ outs, List.Forall₂ (Copies ctx) (exprs.zip names) outs ∧ outs.map (·.1) = names ∧
      projection? f = Projection.read? (Projection.stage outs (decide ("_id" ∉ names))) := by
  simp only [project, Option.bind_eq_bind, Option.bind_eq_some_iff, Option.some.injEq] at h
  obtain ⟨fields, hfields, rfl⟩ := h
  obtain ⟨outs, houts, rfl⟩ := projectFields_eq_some hfields
  have hnames : outs.map (·.1) = names := by
    rw [names_of_copies houts]
    exact List.map_snd_zip hlength.ge
  have hmember : Json.hasMember "_id" (written Formula.json outs) = true ↔ "_id" ∈ names := by
    rw [Json.hasMember_iff, names_written, hnames]
  refine ⟨outs, houts, hnames, ?_⟩
  by_cases hid : "_id" ∈ names
  · rw [if_pos (hmember.mpr hid), decide_eq_false (not_not_intro hid), Projection.stage,
      Projection.suppression, List.append_nil]
    rfl
  · rw [if_neg (mt hmember.mp hid), decide_eq_true hid]
    rfl

section

variable {outs : List (String × Formula)}

/-- A store accepts copies of fields by the names that they have and get. -/
theorem accepted_copies_iff (hlength : exprs.length = names.length)
    (houts : List.Forall₂ (Copies ctx) (exprs.zip names) outs) (hnames : outs.map (·.1) = names) :
    Projection.Accepted outs (decide ("_id" ∉ names)) ↔
      KnownSources ctx exprs ∧ OutputNames names := by
  have hmem {n : String} (hn : n ∈ names) : ∃ o ∈ outs, o.1 = n := by
    rw [← hnames] at hn
    exact List.mem_map.mp hn
  constructor
  · intro haccepted
    refine ⟨?_, ?_, hnames ▸ haccepted.apart, ?_⟩
    · intro e he i hi s hs
      rw [← List.map_fst_zip hlength.le] at he
      obtain ⟨⟨e, n⟩, hen, rfl⟩ := List.mem_map.mp he
      obtain ⟨o, ho, i', s', hi', hs', rfl⟩ := exists_of_forall₂_left houts (e, n) hen
      obtain rfl : i' = i := Option.some.inj (hi'.symm.trans hi)
      obtain rfl : s' = s := Option.some.inj (hs'.symm.trans hs)
      exact (haccepted.known _ ho).2
    · intro n hn
      obtain ⟨o, ho, rfl⟩ := hmem hn
      exact (haccepted.known o ho).1
    · intro n hn hne
      by_cases hid : "_id" ∈ names
      · have hapart : NoClash names := hnames ▸ haccepted.apart
        exact hapart.of_ne hid hn hne.symm
      · obtain ⟨o, ho, rfl⟩ := hmem hn
        exact haccepted.id (decide_eq_true hid) o ho
  · rintro ⟨hsources, hpaths, hapart, hid⟩
    refine ⟨?_, hnames ▸ hapart, ?_⟩
    · intro o ho
      obtain ⟨⟨e, n⟩, hen, i, s, hi, hs, rfl⟩ := exists_of_forall₂_right houts o ho
      have hmem := List.of_mem_zip hen
      exact ⟨hpaths n hmem.2, hsources e hmem.1 i hi s hs⟩
    · intro htrue o ho
      have hn : o.1 ∈ names := hnames ▸ List.mem_map_of_mem ho
      apply hid o.1 hn
      intro heq
      exact of_decide_eq_true htrue (heq ▸ hn)

/-- Copies of fields compute the expressions. -/
theorem computes_of_copies {p : Projection} (hid : p.hidesId = decide ("_id" ∉ names))
    (houts : List.Forall₂ (Copies ctx) (exprs.zip names) outs) (hnames : outs.map (·.1) = names)
    (hperm : p.outputs.Perm outs) : p.Computes ctx exprs names := by
  constructor
  · rw [← hnames]
    exact hperm.map _
  · intro row params doc hrow e n hen
    obtain ⟨o, ho, i, s, hi, hs, rfl⟩ := exists_of_forall₂_left houts (e, n) hen
    obtain ⟨v, hv, hfound⟩ := hrow.exists_value hs
    cases e with
    | field j t =>
      obtain rfl : j = i := Option.some.inj hi
      exact ⟨v, Expr.eval_field hv, p.valueAt_apply (hperm.mem_iff.mpr ho) hfound⟩
    | _ => cases hi
  · intro hno doc
    apply Projection.lookup_id_apply
    rw [hid]
    exact decide_eq_true hno

end

/-- A pushed projection computes all its expressions, and shows `_id` only as an output,
    exactly when no names clash, neither with one another nor with `_id`, and all names are
    such as a store knows. -/
theorem project_outputs_iff (hlength : exprs.length = names.length)
    (h : project exprs names ctx = some f) :
    (∃ p, projection? f = some p ∧ p.Computes ctx exprs names) ↔
      KnownSources ctx exprs ∧ OutputNames names := by
  obtain ⟨outs, houts, hnames, hstage⟩ := project_eq_some hlength h
  rw [hstage, ← accepted_copies_iff hlength houts hnames]
  constructor
  · rintro ⟨p, hp, hcomputes⟩
    apply Projection.accepted_of_read? ?_ hp (hnames ▸ hcomputes.outputs)
    intro o ho i heq
    obtain ⟨e, -, j, s, -, -, rfl⟩ := exists_of_forall₂_right houts o ho
    cases heq
  · intro haccepted
    obtain ⟨p, hp, hid, hperm⟩ := Projection.read?_stage haccepted
    exact ⟨p, hp, computes_of_copies hid houts hnames hperm⟩

/-- One output takes the place of `_id`, another one stands in a subdocument. -/
theorem project_outputs_iff_userAge :
    let ctx : PushContext := { names := ["age", "home.city"] }
    let exprs : List Expr := [.field 1 .string, .field 0 .bigint]
    let names := ["_id", "user.age"]
    ∃ f p, project exprs names ctx = some f ∧ projection? f = some p ∧
      p.Computes ctx exprs names := by
  intro ctx exprs names
  obtain ⟨f, hf⟩ : ∃ f, project exprs names ctx = some f := ⟨_, rfl⟩
  have hsources : KnownSources ctx exprs := by
    unfold KnownSources
    decide
  have hnames : OutputNames names := ⟨by decide, by decide, by decide⟩
  obtain ⟨p, hp, hcomputes⟩ := (project_outputs_iff rfl hf).mpr ⟨hsources, hnames⟩
  exact ⟨f, p, hf, hp, hcomputes⟩

/-- Of two outputs with one name the first is lost. -/
theorem project_loses_output :
    let ctx : PushContext := { names := ["a", "b"] }
    let exprs : List Expr := [.field 0 .bigint, .field 1 .bigint]
    let names := ["x", "x"]
    ∃ f p, project exprs names ctx = some f ∧
      f.body.text = "\x7b\"$project\":\x7b\"_id\":0,\"x\":\"$b\"\x7d\x7d" ∧
      projection? f = some p ∧ p.apply [("a", .int 1), ("b", .int 2)] = [("x", .int 2)] ∧
      exprs.map (Expr.eval [.bigint 1, .bigint 2] []) = [.ok (.bigint 1), .ok (.bigint 2)] ∧
      ¬p.Computes ctx exprs names := by
  intro ctx exprs names
  refine ⟨_, _, rfl, by decide +kernel, rfl, rfl, rfl, ?_⟩
  intro hcomputes
  exact absurd hcomputes.outputs.length_eq (by decide)

end Polystore.Document
