import Polystore.Proofs.DocumentFormulas
import Polystore.Proofs.JsonMembers

/-
  Polystore/Proofs/ProjectStages.lean
  ===================================
  **What a `$project` stage does.**  The stage gives a formula for each of its outputs, and
  0 for a document's own `_id` if that is to go.  The outputs make up the new document, each
  at the place its name leads to.  No place may hold two of them: a store refuses a stage
  in which names clash.

  The stage is an object, so that of several outputs with one name the last one replaces
  the others.  All outputs are there exactly when the store takes them all
  (`read?_stage`, `accepted_of_read?`).
-/

namespace Polystore.Document

/-- The outputs of a `$project` stage, and whether it hides `_id`.  No name clashes with
    another one, or with an `_id` that is hidden. -/
structure Projection where
  hidesId : Bool
  outputs : List (String × Formula)
  apart : NoClash (outputs.map (·.1))
  hidden : hidesId = true → ∀ o ∈ outputs, ¬Clash "_id" o.1

namespace Projection

variable {p : Projection} {doc out : Json.Members} {name : String} {φ : Formula} {v : Json}

/-! ### The document that a stage makes -/

/-- An output is left out if it has no value. -/
def putOutput (doc out : Json.Members) (o : String × Formula) : Json.Members :=
  match o.2.eval doc with
  | some v => put (pathOf o.1) v out
  | none => out

/-- What is there before the outputs: the document's own `_id`, unless it is hidden or an
    output. -/
def start (p : Projection) (doc : Json.Members) : Json.Members :=
  if p.hidesId || p.outputs.any (·.1 = "_id") then []
  else ((Json.lookup "_id" doc).map fun v => ("_id", v)).toList

/-- The document that the stage makes of one.  A stage without outputs keeps the rest. -/
def apply (p : Projection) (doc : Json.Members) : Json.Members :=
  if p.outputs.isEmpty then if p.hidesId then Json.remove "_id" doc else doc
  else p.outputs.foldl (putOutput doc) (p.start doc)

/-- An output leaves alone what its name does not lead to. -/
theorem valueAt_putOutput {o : String × Formula} (h : ¬Clash o.1 name) (doc out : Json.Members) :
    valueAt (pathOf name) (.object (putOutput doc out o)) =
      valueAt (pathOf name) (.object out) := by
  unfold putOutput
  split
  · exact valueAt_put (fun hpre => h (.inl hpre)) (fun hpre => h (.inr hpre)) _ _
  · rfl

theorem valueAt_outputs {outputs : List (String × Formula)} (h : ∀ o ∈ outputs, ¬Clash o.1 name)
    (doc out : Json.Members) :
    valueAt (pathOf name) (.object (outputs.foldl (putOutput doc) out)) =
      valueAt (pathOf name) (.object out) := by
  induction outputs generalizing out with
  | nil => rfl
  | cons o rest ih =>
    obtain ⟨ho, hrest⟩ := List.forall_mem_cons.mp h
    rw [List.foldl_cons, ih hrest, valueAt_putOutput ho]

/-- Of outputs that are apart, each stays where it was put. -/
theorem valueAt_outputs_of_mem {outputs : List (String × Formula)}
    (hapart : NoClash (outputs.map (·.1))) (hmem : (name, φ) ∈ outputs)
    (hv : φ.eval doc = some v) (out : Json.Members) :
    valueAt (pathOf name) (.object (outputs.foldl (putOutput doc) out)) = some v := by
  induction outputs generalizing out with
  | nil => cases hmem
  | cons o rest ih =>
    obtain ⟨hfirst, hrest⟩ := List.pairwise_cons.mp hapart
    rw [List.foldl_cons]
    rcases List.mem_cons.mp hmem with rfl | hmem
    · have hlater : ∀ o ∈ rest, ¬Clash o.1 name := by
        intro o ho hclash
        exact hfirst o.1 (List.mem_map_of_mem ho) hclash.symm
      have hput : putOutput doc out (name, φ) = put (pathOf name) v out := by
        simp only [putOutput, hv]
      rw [valueAt_outputs hlater, hput, valueAt_put_self (pathOf_ne_nil name)]
    · exact ih hrest hmem _

/-- The value of an output is found where its name leads to. -/
theorem valueAt_apply (p : Projection) (hmem : (name, φ) ∈ p.outputs) (hv : φ.eval doc = some v) :
    valueAt (pathOf name) (.object (p.apply doc)) = some v := by
  have hsome : p.outputs.isEmpty = false := by
    rw [List.isEmpty_eq_false_iff]
    exact List.ne_nil_of_mem hmem
  rw [apply, hsome, if_neg Bool.false_ne_true]
  exact valueAt_outputs_of_mem p.apart hmem hv _

theorem lookup_id_apply (h : p.hidesId = true) (doc : Json.Members) :
    Json.lookup "_id" (p.apply doc) = none := by
  unfold apply
  split
  · rw [Json.lookup, Json.remove, List.find?_filter]
    simp
  · have hpath : pathOf "_id" = ["_id"] := by decide
    have hlater : ∀ o ∈ p.outputs, ¬Clash o.1 "_id" := by
      intro o ho hclash
      exact p.hidden h o ho hclash.symm
    rw [← valueAt_singleton, ← hpath, valueAt_outputs hlater, start, h]
    exact valueAt_nil_object (pathOf_ne_nil "_id")

/-! ### Reading a stage -/

/-- The member that hides `_id`. -/
def hides : String × Json → Bool
  | (name, .int 0) => name = "_id"
  | _ => false

/-- A number beside a name would keep or drop what the document holds there; the stages read
    here do so with `_id` only. -/
def readOutputs? (members : Json.Members) : Option (List (String × Formula)) :=
  (members.filter (!hides ·)).mapM (readNamed? isPath Formula.readComputed?)

def read? (members : Json.Members) : Option Projection := do
  let hidesId := members.any hides
  let outputs ← readOutputs? members
  if h : NoClash (outputs.map (·.1)) ∧ (hidesId = true → ∀ o ∈ outputs, ¬Clash "_id" o.1) then
    some ⟨hidesId, outputs, h.1, h.2⟩
  else none

theorem read?_eq_some {members : Json.Members} (h : read? members = some p) :
    p.hidesId = members.any hides ∧ readOutputs? members = some p.outputs := by
  simp only [read?, Option.bind_eq_bind, Option.bind_eq_some_iff] at h
  obtain ⟨outputs, houtputs, h⟩ := h
  split at h
  · obtain rfl := Option.some.inj h
    exact ⟨rfl, houtputs⟩
  · cases h

theorem exists_read? {members : Json.Members} {outputs : List (String × Formula)}
    (h : readOutputs? members = some outputs) (hapart : NoClash (outputs.map (·.1)))
    (hid : members.any hides = true → ∀ o ∈ outputs, ¬Clash "_id" o.1) :
    ∃ p, read? members = some p := by
  refine ⟨⟨members.any hides, outputs, hapart, hid⟩, ?_⟩
  simp only [read?, Option.bind_eq_bind, h, Option.bind_some]
  exact dif_pos ⟨hapart, hid⟩

/-! ### Writing a stage -/

/-- The member that hides `_id`, if it is to be hidden. -/
def suppression : Bool → Json.Members
  | true => [("_id", .int 0)]
  | false => []

/-- The members of a stage, set one after the other. -/
def stage (outs : List (String × Formula)) (hidesId : Bool) : Json.Members :=
  (written Formula.json outs ++ suppression hidesId).foldl (fun m (n, v) => Json.insert n v m) []

/-- Outputs that a store takes for those of one stage. -/
structure Accepted (outs : List (String × Formula)) (hidesId : Bool) : Prop where
  known : ∀ o ∈ outs, isPath o.1 = true ∧ o.2.isComputed = true
  apart : NoClash (outs.map (·.1))
  id : hidesId = true → ∀ o ∈ outs, ¬Clash "_id" o.1

variable {outs : List (String × Formula)} {hidesId : Bool}

theorem mem_suppression {m : String × Json} (hm : m ∈ suppression hidesId) :
    hidesId = true ∧ hides m = true := by
  cases hidesId with
  | false => cases hm
  | true =>
    obtain rfl := List.mem_singleton.mp hm
    exact ⟨rfl, rfl⟩

/-- The last member that is set stays. -/
theorem hides_stage (h : hidesId = true) (outs : List (String × Formula)) :
    (stage outs hidesId).any hides = true := by
  subst h
  have hlast : Json.lookup "_id" (stage outs true) = some (.int 0) := by
    rw [stage, Json.lookup_foldl_insert, suppression, List.reverse_append]
    rfl
  exact List.any_eq_true.mpr ⟨_, Json.lookup_eq_some hlast, rfl⟩

section

variable (hcomputed : ∀ o ∈ outs, ∀ i, o.2 ≠ .number i) (hnames : (outs.map (·.1)).Nodup)
  (hid : hidesId = true → "_id" ∉ outs.map (·.1))

include hcomputed in
theorem hides_written : ∀ m ∈ written Formula.json outs, hides m = false := by
  intro m hm
  obtain ⟨⟨n, φ⟩, ho, rfl⟩ := List.mem_map.mp hm
  cases φ with
  | number i => exact absurd rfl (hcomputed _ ho i)
  | _ => rfl

include hnames hid in
/-- Where names differ, nothing is replaced. -/
theorem stage_perm :
    (stage outs hidesId).Perm (written Formula.json outs ++ suppression hidesId) := by
  apply Json.foldl_insert_perm .nil
  rw [List.nil_append, List.map_append, names_written]
  cases hidesId with
  | false => simpa [suppression] using hnames
  | true => exact List.concat_eq_append ▸ hnames.concat (hid rfl)

include hcomputed hnames hid in
theorem outputs_perm :
    ((stage outs hidesId).filter (!hides ·)).Perm (written Formula.json outs) := by
  have hwritten : (written Formula.json outs).filter (!hides ·) = written Formula.json outs := by
    apply List.filter_eq_self.mpr
    intro m hm
    rw [hides_written hcomputed m hm]
    rfl
  have hsuppression : (suppression hidesId).filter (!hides ·) = [] := by
    apply List.filter_eq_nil_iff.mpr
    intro m hm
    simp [(mem_suppression hm).2]
  have hperm := (stage_perm hnames hid).filter (!hides ·)
  rwa [List.filter_append, hwritten, hsuppression, List.append_nil] at hperm

include hcomputed hnames hid in
theorem any_hides_stage : (stage outs hidesId).any hides = hidesId := by
  cases hhides : hidesId with
  | true => exact hides_stage rfl outs
  | false =>
    subst hhides
    have hwritten : (written Formula.json outs).any hides = false := by
      rw [List.any_eq_false]
      intro m hm
      rw [hides_written hcomputed m hm]
      exact Bool.false_ne_true
    rw [(stage_perm hnames hid).any_eq, List.any_append, hwritten]
    rfl

end

/-- What a store accepts it reads as it was meant. -/
theorem read?_stage (h : Accepted outs hidesId) :
    ∃ p, read? (stage outs hidesId) = some p ∧ p.hidesId = hidesId ∧ p.outputs.Perm outs := by
  have hcomputed : ∀ o ∈ outs, ∀ i, o.2 ≠ .number i := by
    intro o ho i heq
    have hknown := (h.known o ho).2
    rw [heq] at hknown
    cases hknown
  have hid : hidesId = true → "_id" ∉ outs.map (·.1) := by
    intro hhides hmem
    obtain ⟨o, ho, hname⟩ := List.mem_map.mp hmem
    exact h.id hhides o ho (hname ▸ clash_self _)
  have hhides := any_hides_stage hcomputed h.apart.nodup hid
  have hwritten := outputs_perm hcomputed h.apart.nodup hid
  obtain ⟨outputs, houtputs⟩ := (exists_readNamed? Formula.readComputed?_json hwritten).mpr h.known
  have hperm : outputs.Perm outs := perm_of_readNamed? Formula.readComputed?_json hwritten houtputs
  obtain ⟨p, hp⟩ : ∃ p, read? (stage outs hidesId) = some p := by
    apply exists_read? houtputs
    · exact h.apart.perm (hperm.map _).symm
    · intro hany o ho
      exact h.id (hhides ▸ hany) o (hperm.mem_iff.mp ho)
  obtain ⟨hp₁, hp₂⟩ := read?_eq_some hp
  obtain rfl : p.outputs = outputs := Option.some.inj (hp₂.symm.trans houtputs)
  exact ⟨p, hp, hp₁.trans hhides, hperm⟩

/-- A stage has all outputs that were written only if a store accepts them. -/
theorem accepted_of_read? (hcomputed : ∀ o ∈ outs, ∀ i, o.2 ≠ .number i)
    (h : read? (stage outs hidesId) = some p)
    (hnames : (p.outputs.map (·.1)).Perm (outs.map (·.1))) : Accepted outs hidesId := by
  obtain ⟨hhides, hread⟩ := read?_eq_some h
  have hapart : NoClash (outs.map (·.1)) := p.apart.perm hnames
  have hclash : hidesId = true → ∀ o ∈ outs, ¬Clash "_id" o.1 := by
    intro htrue o ho
    obtain ⟨o', ho', hname⟩ := List.mem_map.mp (hnames.mem_iff.mpr (List.mem_map_of_mem ho))
    rw [← hname]
    exact p.hidden (hhides.trans (hides_stage htrue outs)) o' ho'
  have hid : hidesId = true → "_id" ∉ outs.map (·.1) := by
    intro htrue hmem
    obtain ⟨o, ho, hname⟩ := List.mem_map.mp hmem
    exact hclash htrue o ho (hname ▸ clash_self _)
  have hwritten := outputs_perm hcomputed hapart.nodup hid
  exact ⟨(exists_readNamed? Formula.readComputed?_json hwritten).mp ⟨_, hread⟩, hapart, hclash⟩

end Projection

/-- The stage of a projection's fragment. -/
def projection? (f : Fragment) : Option Projection :=
  match f.body with
  | .json (.object [("$project", .object members)]) => Projection.read? members
  | _ => none

/-! ### Rows as documents -/

/-- A document holds the values of a row where the names of the fields lead to. -/
def HoldsRow (ctx : PushContext) (row : List Value) (doc : Json.Members) : Prop :=
  row.length = ctx.names.length ∧ ∀ i s v, ctx.name? i = some s → row[i]? = some v →
    valueAt (pathOf s) (.object doc) = some v.json

theorem HoldsRow.exists_value {ctx : PushContext} {row : List Value} {doc : Json.Members} {i : Nat}
    {s : String} (h : HoldsRow ctx row doc) (hs : ctx.name? i = some s) :
    ∃ v, row[i]? = some v ∧ (Formula.path s).eval doc = some v.json := by
  have hi : i < row.length := by
    rw [h.1]
    exact (List.getElem?_eq_some_iff.mp hs).1
  have hvalue : row[i]? = some row[i] := List.getElem?_eq_getElem hi
  exact ⟨row[i], hvalue, h.2 i s row[i] hs hvalue⟩

end Polystore.Document
