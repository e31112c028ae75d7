import Polystore.Proofs.ProjectStages

/-
  Polystore/Proofs/GroupStages.lean
  =================================
  **What a `$group` stage does.**  The stage makes one document of each group of documents:
  what identifies the group under `_id`, and beside it what each of its accumulators makes
  of the group.  A `$project` stage then gives the results their places.

  How a store adds up or compares values is left to it (`Totals`).  What is relied on is
  that ones and zeros add up to the number of ones, and that of no values there is no
  least, greatest or mean one.
-/

namespace Polystore.Document

variable {doc : Json.Members} {docs : List Json.Members}

/-! ### Accumulators -/

/-- How values are combined. -/
inductive Combination where
  | sum
  | least
  | greatest
  | mean
deriving DecidableEq

namespace Combination

def name : Combination → String
  | sum => "$sum"
  | least => "$min"
  | greatest => "$max"
  | mean => "$avg"

def ofName? : String → Option Combination
  | "$sum" => some sum
  | "$min" => some least
  | "$max" => some greatest
  | "$avg" => some mean
  | _ => none

theorem ofName?_name (c : Combination) : ofName? c.name = some c := by
  cases c <;> rfl

end Combination

/-- How a store combines the values of a group. -/
structure Totals where
  combine : Combination → List Json → Json
  counts : ∀ l : List Bool, combine .sum (l.map fun b => .int b.toNat) = .int (l.count true)
  of_nothing : ∀ c, c ≠ .sum → combine c [] = .null

structure Accumulator where
  combination : Combination
  input : Formula

namespace Accumulator

def json (a : Accumulator) : Json := .single a.combination.name a.input.json

def read? : Json → Option Accumulator
  | .object [(name, j)] => do some ⟨← Combination.ofName? name, ← Formula.read? j⟩
  | _ => none

theorem read?_json (a b : Accumulator) :
    read? a.json = some b ↔ a.input.isKnown = true ∧ b = a := by
  rcases a with ⟨c, φ⟩
  simp only [json, Json.single, read?, Combination.ofName?_name, Option.bind_eq_bind,
    Option.bind_some, Option.bind_eq_some_iff, Formula.read?_json, Option.some.injEq]
  constructor
  · rintro ⟨ψ, ⟨hknown, rfl⟩, rfl⟩
    exact ⟨hknown, rfl⟩
  · rintro ⟨hknown, rfl⟩
    exact ⟨φ, ⟨hknown, rfl⟩, rfl⟩

/-- The values of a formula in a group, without nulls. -/
def values (φ : Formula) (docs : List Json.Members) : List Json :=
  docs.filterMap fun doc => (φ.eval doc).bind Json.nonNull?

def eval (t : Totals) (docs : List Json.Members) (a : Accumulator) : Json :=
  t.combine a.combination (values a.input docs)

theorem values_of_eval {φ : Formula} {f : Json.Members → Int}
    (h : ∀ doc, φ.eval doc = some (.int (f doc))) (docs : List Json.Members) :
    values φ docs = docs.map fun doc => .int (f doc) := by
  have hvalue : (fun doc => (φ.eval doc).bind Json.nonNull?) = some ∘ fun doc => .int (f doc) := by
    funext doc
    rw [h]
    rfl
  rw [values, hvalue, List.filterMap_eq_map]

/-- All documents are counted. -/
theorem eval_count (t : Totals) (docs : List Json.Members) :
    eval t docs ⟨.sum, .number 1⟩ = .int docs.length := by
  have hones : values (.number 1) docs = (docs.map fun _ => true).map fun b => .int b.toNat := by
    rw [values_of_eval fun _ => rfl, List.map_map]
    rfl
  rw [eval, hones, t.counts]
  simp

/-- Only the documents with a value are counted. -/
theorem eval_countPresent (t : Totals) (s : String) (docs : List Json.Members) :
    eval t docs ⟨.sum, .presence s⟩ = .int (values (.path s) docs).length := by
  have hones : values (.presence s) docs =
      (docs.map fun doc => (((Formula.path s).eval doc).bind Json.nonNull?).isSome).map
        fun b => .int b.toNat := by
    rw [values_of_eval (Formula.eval_presence s), List.map_map]
    rfl
  rw [eval, hones, t.counts]
  simp [values, List.length_filterMap_eq_countP, List.count, List.countP_map, Function.comp_def]

end Accumulator

/-! ### Groups -/

/-- What identifies a group: a value or several, each under a name. -/
inductive GroupId where
  | value (φ : Formula)
  | record (parts : List (String × Formula))

namespace GroupId

/-- The identifier of the group of a document. -/
def eval (doc : Json.Members) : GroupId → Json
  | value φ => (φ.eval doc).getD .null
  | record parts => .object (parts.filterMap fun p => (p.2.eval doc).map (p.1, ·))

def json : GroupId → Json
  | value φ => φ.json
  | record parts => .ofMembers (written Formula.json parts)

def read? : Json → Option GroupId
  | .object members => (members.mapM (readNamed? isPlain Formula.read?)).map record
  | j => (Formula.read? j).map value

variable {parts parts' : List (String × Formula)} {id : GroupId}

theorem read?_path {s : String} :
    read? (value (.path s)).json = some id ↔ isPath s = true ∧ id = value (.path s) := by
  have hread : read? (value (.path s)).json = (Formula.read? (Formula.path s).json).map value := rfl
  rw [hread, Option.map_eq_some_iff]
  constructor
  · rintro ⟨φ, hφ, rfl⟩
    obtain ⟨hknown, rfl⟩ := Formula.read?_json.mp hφ
    exact ⟨hknown, rfl⟩
  · rintro ⟨hknown, rfl⟩
    exact ⟨.path s, Formula.read?_json.mpr ⟨hknown, rfl⟩, rfl⟩

theorem ofMembers_written_perm (hnames : (parts.map (·.1)).Nodup) :
    ∃ members, Json.ofMembers (written Formula.json parts) = .object members ∧
      members.Perm (written Formula.json parts) := by
  apply Json.ofMembers_perm
  rw [names_written]
  exact hnames

theorem exists_read?_record (hnames : (parts.map (·.1)).Nodup) :
    (∃ id, read? (record parts).json = some id) ↔
      ∀ p ∈ parts, isPlain p.1 = true ∧ p.2.isKnown = true := by
  obtain ⟨members, hmembers, hperm⟩ := ofMembers_written_perm hnames
  rw [← exists_readNamed? (fun a b => Formula.read?_json) hperm, json, hmembers]
  simp [read?]

theorem read?_record (hnames : (parts.map (·.1)).Nodup)
    (h : read? (record parts).json = some id) :
    ∃ parts', id = record parts' ∧ parts'.Perm parts := by
  obtain ⟨members, hmembers, hperm⟩ := ofMembers_written_perm hnames
  rw [json, hmembers] at h
  obtain ⟨parts', hparts', rfl⟩ := Option.map_eq_some_iff.mp h
  exact ⟨parts', rfl, perm_of_readNamed? (fun a b => Formula.read?_json) hperm hparts'⟩

/-- Each part of an identifier is found under its name. -/
theorem lookup_record (hnames : (parts.map (·.1)).Nodup) {p : String × Formula} (hp : p ∈ parts)
    {v : Json} (hv : p.2.eval doc = some v) :
    Json.lookup p.1 (parts.filterMap fun p => (p.2.eval doc).map (p.1, ·)) = some v := by
  induction parts with
  | nil => cases hp
  | cons q rest ih =>
    obtain ⟨hq, hrest⟩ := List.nodup_cons.mp hnames
    rcases List.mem_cons.mp hp with rfl | hp
    · rw [List.filterMap_cons, hv]
      exact (Json.lookup_cons _ _).trans (if_pos rfl)
    · have hne : q.1 ≠ p.1 := by
        intro heq
        apply hq
        exact List.mem_map.mpr ⟨p, hp, heq.symm⟩
      rw [List.filterMap_cons]
      cases q.2.eval doc with
      | none => exact ih hrest hp
      | some w => exact (Json.lookup_cons _ _).trans ((if_neg hne).trans (ih hrest hp))

theorem eval_record_congr {doc doc' : Json.Members}
    (h : ∀ p ∈ parts, p.2.eval doc = p.2.eval doc') :
    (record parts).eval doc = (record parts).eval doc' := by
  rw [eval, eval]
  congr 1
  apply List.filterMap_congr
  intro p hp
  rw [h p hp]

end GroupId

/-- A `$group` stage.  No two accumulators have one name, and none is named `_id`. -/
structure Grouping where
  id : GroupId
  accumulators : List (String × Accumulator)
  apart : ("_id" :: accumulators.map (·.1)).Nodup

namespace Grouping

/-- The document of a group, one of whose documents leads. -/
def document (t : Totals) (g : Grouping) (leader : Json.Members) (others : List Json.Members) :
    Json.Members :=
  ("_id", g.id.eval leader) :: g.accumulators.map fun a => (a.1, a.2.eval t (leader :: others))

def read? (members : Json.Members) : Option Grouping := do
  let id ← GroupId.read? (← Json.lookup "_id" members)
  let accumulators ←
    (Json.remove "_id" members).mapM (readNamed? isPlain Accumulator.read?)
  if h : ("_id" :: accumulators.map (·.1)).Nodup then some ⟨id, accumulators, h⟩ else none

/-- The members of a stage, set one after the other. -/
def stage (id : GroupId) (accs : List (String × Accumulator)) : Json.Members :=
  (written Accumulator.json accs).foldl (fun m (n, v) => Json.insert n v m) [("_id", id.json)]

variable {t : Totals} {g : Grouping} {leader : Json.Members} {others : List Json.Members}

theorem lookup_document_id :
    Json.lookup "_id" (g.document t leader others) = some (g.id.eval leader) := by
  rw [document, Json.lookup_cons, if_pos rfl]

theorem lookup_document {a : String × Accumulator} (ha : a ∈ g.accumulators) :
    Json.lookup a.1 (g.document t leader others) = some (a.2.eval t (leader :: others)) := by
  apply Json.lookup_of_mem (p := (a.1, a.2.eval t (leader :: others)))
  · have hnames : (g.document t leader others).map (·.1) =
        "_id" :: g.accumulators.map (·.1) := by
      simp [document]
    rw [hnames]
    exact g.apart
  · exact List.mem_cons_of_mem _ (List.mem_map_of_mem ha)

/-- A path of one name leads to what the accumulator of that name made of the group. -/
theorem eval_path_accumulator {a : String × Accumulator} (ha : a ∈ g.accumulators)
    (hname : isPlain a.1 = true) : (Formula.path a.1).eval (g.document t leader others) =
      some (a.2.eval t (leader :: others)) := by
  rw [Formula.eval, pathOf_of_isPlain hname, valueAt_singleton, lookup_document ha]

section

variable {id : GroupId} {accs : List (String × Accumulator)}
  (hnames : ("_id" :: accs.map (·.1)).Nodup)

include hnames in
theorem stage_perm (id : GroupId) :
    (stage id accs).Perm (("_id", id.json) :: written Accumulator.json accs) := by
  apply Json.foldl_insert_perm (List.pairwise_singleton _ _)
  rw [List.map_append, names_written]
  exact hnames

include hnames in
theorem lookup_id_stage (id : GroupId) : Json.lookup "_id" (stage id accs) = some id.json := by
  have hperm := stage_perm hnames id
  have hnodup : ((stage id accs).map (·.1)).Nodup := by
    rw [(hperm.map _).nodup_iff, List.map_cons, names_written]
    exact hnames
  exact Json.lookup_of_mem hnodup (hperm.mem_iff.mpr List.mem_cons_self)

include hnames in
theorem remove_id_stage (id : GroupId) :
    (Json.remove "_id" (stage id accs)).Perm (written Accumulator.json accs) := by
  have hrest : Json.remove "_id" (written Accumulator.json accs) =
      written Accumulator.json accs := by
    apply Json.remove_eq_self
    intro m hm heq
    have hmem := List.mem_map_of_mem (f := (·.1)) hm
    rw [names_written, heq] at hmem
    exact (List.nodup_cons.mp hnames).1 hmem
  have hperm := (stage_perm hnames id).filter (·.1 ≠ "_id")
  rw [List.filter_cons_of_neg (by simp)] at hperm
  rw [← hrest]
  exact hperm

include hnames in
theorem exists_read?_stage : (∃ g, read? (stage id accs) = some g) ↔
    (∃ i, GroupId.read? id.json = some i) ∧
      ∀ a ∈ accs, isPlain a.1 = true ∧ a.2.input.isKnown = true := by
  have hremove := remove_id_stage hnames id
  rw [← exists_readNamed? Accumulator.read?_json hremove]
  simp only [read?, lookup_id_stage hnames, Option.bind_eq_bind, Option.bind_some]
  constructor
  · rintro ⟨g, hg⟩
    obtain ⟨i, hi, hg⟩ := Option.bind_eq_some_iff.mp hg
    obtain ⟨l, hl, -⟩ := Option.bind_eq_some_iff.mp hg
    exact ⟨⟨i, hi⟩, l, hl⟩
  · rintro ⟨⟨i, hi⟩, l, hl⟩
    have hperm : l.Perm accs := perm_of_readNamed? Accumulator.read?_json hremove hl
    have hapart : ("_id" :: l.map (·.1)).Nodup := ((hperm.map _).cons _).nodup_iff.mpr hnames
    refine ⟨⟨i, l, hapart⟩, ?_⟩
    rw [hi, Option.bind_some, hl, Option.bind_some, dif_pos hapart]

include hnames in
theorem read?_stage (h : read? (stage id accs) = some g) :
    GroupId.read? id.json = some g.id ∧ g.accumulators.Perm accs := by
  simp only [read?, lookup_id_stage hnames, Option.bind_eq_bind, Option.bind_some,
    Option.bind_eq_some_iff] at h
  obtain ⟨i, hi, l, hl, h⟩ := h
  split at h
  · obtain rfl := Option.some.inj h
    exact ⟨hi, perm_of_readNamed? Accumulator.read?_json (remove_id_stage hnames id) hl⟩
  · cases h

end

end Grouping

/-- A `$group` stage and the `$project` stage that follows it. -/
structure GroupPipeline where
  grouping : Grouping
  projection : Projection

namespace GroupPipeline

/-- The document that a group ends as. -/
def row (t : Totals) (p : GroupPipeline) (leader : Json.Members) (others : List Json.Members) :
    Json.Members :=
  p.projection.apply (p.grouping.document t leader others)

def read? (group outs : Json.Members) : Option GroupPipeline := do
  some ⟨← Grouping.read? group, ← Projection.read? outs⟩

/-- The stages of an aggregate's fragment. -/
def ofFragment? (f : Fragment) : Option GroupPipeline :=
  match f.body with
  | .json (.array [.object [("$group", .object group)], .object [("$project", .object outs)]]) =>
    read? group outs
  | _ => none

theorem read?_eq_some {group outs : Json.Members} {p : GroupPipeline} :
    read? group outs = some p ↔
      Grouping.read? group = some p.grouping ∧ Projection.read? outs = some p.projection := by
  simp only [read?, Option.bind_eq_bind, Option.bind_eq_some_iff, Option.some.injEq]
  constructor
  · rintro ⟨g, hg, q, hq, rfl⟩
    exact ⟨hg, hq⟩
  · rintro ⟨hg, hq⟩
    exact ⟨p.grouping, hg, p.projection, hq, rfl⟩

end GroupPipeline

end Polystore.Document
