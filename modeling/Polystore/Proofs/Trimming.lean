import Polystore.Expr.Eval
import Polystore.Optimizer.LogicalRules
import Polystore.Proofs.Renumbering

/-
  Polystore/Proofs/Trimming.lean
  ==============================
  **Trimming loses no field that is read.**  An aggregate whose fields its input
  has can be put on a projection to these fields: every ordinal that it mentions
  has a place there, the places are in the order of the ordinals, and the
  aggregate over the projection has the same shape and the same rows.
-/

namespace Polystore

/-- The call on columns with new numbers. -/
def AggCall.renumber (f : Nat → Nat) (c : AggCall) : AggCall :=
  { c with
    args := c.args.map f
    filter := c.filter.map f
    order := c.order.map fun o => { o with field := f o.field } }

/-- The call takes the field as an argument, as its filter or for its order. -/
def AggCall.Reads (c : AggCall) (i : Nat) : Prop :=
  i ∈ c.args ∨ c.filter = some i ∨ ∃ o ∈ c.order, o.field = i

namespace Aggregation

/-- The aggregate on columns with new numbers. -/
def renumber (f : Nat → Nat) (a : Aggregation) : Aggregation :=
  { a with
    key := a.key.renumber f
    sets := a.sets.map (·.renumber f)
    calls := a.calls.map (·.renumber f) }

/-- The aggregate groups by the field, or one of its calls reads it. -/
def Reads (a : Aggregation) (i : Nat) : Prop :=
  a.key.contains i = true ∨ ∃ c ∈ a.calls, c.Reads i

/-- The aggregate reads only fields of a row with so many of them, and its sets
    are within its key. -/
structure ReadsWithin (a : Aggregation) (arity : Nat) : Prop where
  key : ∀ i, a.key.contains i = true → i < arity
  sets : ∀ s ∈ a.sets, ∀ i, s.contains i = true → a.key.contains i = true
  calls : ∀ c ∈ a.calls, ∀ i ∈ c.inputRefs, i < arity

end Aggregation

theorem AggCall.mem_inputRefs {c : AggCall} {i : Nat} : i ∈ c.inputRefs ↔ c.Reads i := by
  simp [inputRefs, Reads]

namespace Aggregation

variable {a : Aggregation} {input : RowType}

/-! ### Row types -/

theorem exists_field {row : RowType} {i : Nat} (h : i < row.arity) :
    ∃ field, row.field i = .ok field :=
  ⟨row.fields.get ⟨i, h⟩, require_eq_ok.mpr (List.getElem?_eq_getElem h)⟩

/-- A valid aggregate whose key columns the input has is well typed. -/
theorem exists_rowType (hvalid : Grouping.validate a.key a.sets = .ok ())
    (hkey : ∀ i, a.key.contains i = true → i < input.arity) : ∃ row, a.rowType input = .ok row := by
  have hfield : ∀ i ∈ a.key.toList, ∃ field, input.field i = .ok field := fun i hi =>
    exists_field (hkey i ((OrdinalSet.mem_toList a.key i).mp hi))
  have hkeys : ∃ keys, a.key.toList.mapM (a.keyField input) = .ok keys := by
    refine exists_mapM_eq_ok fun i hi => ?_
    obtain ⟨field, hfield⟩ := hfield i hi
    exact ⟨_, except_bind_eq_ok.mpr ⟨field, hfield, rfl⟩⟩
  have hindicators : ∃ indicators, a.key.toList.mapM (indicatorField input) = .ok indicators := by
    refine exists_mapM_eq_ok fun i hi => ?_
    obtain ⟨field, hfield⟩ := hfield i hi
    exact ⟨_, except_bind_eq_ok.mpr ⟨field, hfield, rfl⟩⟩
  obtain ⟨keys, hkeys⟩ := hkeys
  obtain ⟨indicators, hindicators⟩ := hindicators
  rw [rowType, hvalid, hkeys, hindicators]
  cases a.indicator <;> exact ⟨_, rfl⟩

/-- The row type depends on the columns, not on their numbers. -/
theorem rowType_renumber {f : Nat → Nat} {u : OrdinalSet} {input' : RowType}
    (hf : StrictMonoOn f {i | u.contains i = true}) (hkey : a.key ⊆ u)
    (hvalid : Grouping.validate a.key a.sets = .ok ())
    (hfield : ∀ i, a.key.contains i = true → input'.field (f i) = input.field i) :
    (a.renumber f).rowType input' = a.rowType input := by
  have hwithin := (Grouping.validate_eq_ok.mp hvalid).2.1
  have hkeys : (a.key.renumber f).toList.mapM ((a.renumber f).keyField input') =
      a.key.toList.mapM (a.keyField input) := by
    rw [OrdinalSet.toList_renumber hf hkey, List.mapM_map]
    refine mapM_congr fun i hi => ?_
    have hi := (OrdinalSet.mem_toList a.key i).mp hi
    have hsets : (a.sets.map (·.renumber f)).all (·.contains (f i)) =
        a.sets.all (·.contains i) := by
      have hcontains : ∀ s ∈ a.sets, (s.renumber f).contains (f i) = s.contains i := fun s hs =>
        OrdinalSet.contains_renumber_apply hf (fun j hj => hkey j (hwithin s hs j hj)) (hkey i hi)
      rw [Bool.eq_iff_iff, List.all_map, List.all_eq_true, List.all_eq_true]
      exact forall₂_congr fun s hs => by rw [Function.comp_apply, hcontains s hs]
    simp only [Function.comp_apply, keyField, hfield i hi, renumber, hsets]
  have hindicators : (a.key.renumber f).toList.mapM (indicatorField input') =
      a.key.toList.mapM (indicatorField input) := by
    rw [OrdinalSet.toList_renumber hf hkey, List.mapM_map]
    refine mapM_congr fun i hi => ?_
    have hi := (OrdinalSet.mem_toList a.key i).mp hi
    simp only [Function.comp_apply, indicatorField, hfield i hi]
  have hcalls (n : Nat) : (a.calls.map (·.renumber f)).mapIdx (fun i c => callField (n + i) c) =
      a.calls.mapIdx fun i c => callField (n + i) c := by
    refine List.ext_getElem? fun i => ?_
    rw [List.getElem?_mapIdx, List.getElem?_mapIdx, List.getElem?_map, Option.map_map]
    rfl
  rw [rowType, rowType, hvalid, show (a.renumber f).key = a.key.renumber f from rfl, hkeys,
    hindicators, show (a.renumber f).calls = a.calls.map (·.renumber f) from rfl,
    show Grouping.validate _ (a.renumber f).sets = _ from
      Grouping.validate_renumber hf hkey hvalid]
  simp only [hcalls]
  rfl

end Aggregation

namespace AggregateTrim

variable {a : Aggregation} {arity : Nat}

theorem usedFields_contains {i : Nat} : (usedFields a).contains i = true ↔ a.Reads i := by
  rw [usedFields, OrdinalSet.contains_union, Bool.or_eq_true, OrdinalSet.contains_ofList,
    List.mem_flatMap]
  simp only [AggCall.mem_inputRefs, Aggregation.Reads]

theorem lt_of_used (ha : a.ReadsWithin arity) {i : Nat} (h : (usedFields a).contains i = true) :
    i < arity := by
  rcases usedFields_contains.mp h with h | ⟨c, hc, hi⟩
  · exact ha.key i h
  · exact ha.calls c hc i (AggCall.mem_inputRefs.mpr hi)

/-! ### The projection -/

theorem exists_projection {row : RowType} (ha : a.ReadsWithin row.arity) (k : NodeId) :
    ∃ n, projection (usedFields a) k row = .ok n := by
  have hfield : ∀ i ∈ (usedFields a).toList, ∃ f, row.field i = .ok f := fun i hi =>
    Aggregation.exists_field (lt_of_used ha ((OrdinalSet.mem_toList _ i).mp hi))
  obtain ⟨fields, hfields⟩ := exists_mapM_eq_ok hfield
  have hexpr : ∀ i ∈ (usedFields a).toList,
      ∃ e, (do return Expr.field i (← row.field i).type : Except Error Expr) = .ok e := by
    intro i hi
    obtain ⟨f, hf⟩ := hfield i hi
    exact ⟨.field i f.type, by rw [hf]; rfl⟩
  obtain ⟨exprs, hexprs⟩ := exists_mapM_eq_ok hexpr
  refine ⟨_, except_bind_eq_ok.mpr ⟨exprs, hexprs, except_bind_eq_ok.mpr ⟨⟨fields⟩, ?_, rfl⟩⟩⟩
  rw [RowType.project, hfields]
  rfl

theorem projection_eq_ok {used : OrdinalSet} {k : NodeId} {row : RowType} {n : Node}
    (h : projection used k row = .ok n) : ∃ exprs row', n = ⟨.project k exprs, {}, row', none⟩ := by
  obtain ⟨exprs, -, h⟩ := except_bind_eq_ok.mp h
  obtain ⟨row', -, h⟩ := except_bind_eq_ok.mp h
  exact ⟨exprs, row', (Except.ok.inj h).symm⟩

theorem projection_inputs {k : NodeId} {row : RowType} {n : Node}
    (h : projection (usedFields a) k row = .ok n) :
    n.inputs = [k] ∧ n.kind = .project ∧ n.convention = .logical := by
  obtain ⟨exprs, row', rfl⟩ := projection_eq_ok h
  exact ⟨rfl, rfl, rfl⟩

/-- A field that is kept has its type and its value at its place. -/
theorem projection_place {used : OrdinalSet} {k : NodeId} {row : RowType} {n : Node}
    (hused : ∀ i, used.contains i = true → i < row.arity) (h : projection used k row = .ok n) :
    (∀ i, used.contains i = true → n.row.field (used.rank i) = row.field i) ∧
    ∃ exprs, n.op = .project k exprs ∧
      ∀ values params : List Value, values.length = row.arity →
        ∃ out, exprs.mapM (Expr.eval values params) = .ok out ∧
          ∀ i, used.contains i = true → out[used.rank i]? = values[i]? := by
  obtain ⟨exprs, hexprs, h⟩ := except_bind_eq_ok.mp h
  obtain ⟨row', hrow, h⟩ := except_bind_eq_ok.mp h
  obtain rfl := Except.ok.inj h
  obtain ⟨fields, hfields, hrow⟩ := except_bind_eq_ok.mp hrow
  obtain rfl := Except.ok.inj hrow
  refine ⟨fun i hi => ?_, exprs, rfl, fun values params hlength => ?_⟩
  · obtain ⟨field, hplace, hfield⟩ :=
      exists_getElem?_of_mapM hfields (OrdinalSet.getElem?_toList_rank hi)
    rw [hfield]
    exact require_eq_ok.mpr hplace
  · have hvalue : ∀ e ∈ exprs, ∃ v, e.eval values params = .ok v := by
      intro e he
      obtain ⟨i, hi, hei⟩ := exists_of_forall₂_right (mapM_eq_ok.mp hexprs) e he
      obtain ⟨field, -, hei⟩ := except_bind_eq_ok.mp hei
      obtain rfl := Except.ok.inj hei
      have hlt : i < values.length :=
        hlength ▸ hused i ((OrdinalSet.mem_toList used i).mp hi)
      exact ⟨values[i], require_eq_ok.mpr (List.getElem?_eq_getElem hlt)⟩
    obtain ⟨out, hout⟩ := exists_mapM_eq_ok hvalue
    refine ⟨out, hout, fun i hi => ?_⟩
    obtain ⟨e, hplace, he⟩ :=
      exists_getElem?_of_mapM hexprs (OrdinalSet.getElem?_toList_rank hi)
    obtain ⟨field, -, he⟩ := except_bind_eq_ok.mp he
    obtain rfl := Except.ok.inj he
    obtain ⟨v, hv, heval⟩ := exists_getElem?_of_mapM hout hplace
    rw [hv, require_eq_ok.mp heval]

/-! ### The aggregate over it -/

theorem place_eq {used : OrdinalSet} {i : Nat} (h : used.contains i = true) :
    place used i = .ok (used.rank i) := by
  rw [place, OrdinalSet.rank?_eq_some h]
  rfl

theorem placeSet_eq {used set : OrdinalSet} (h : set ⊆ used) :
    placeSet used set = .ok (set.renumber used.rank) := by
  have hplaces : set.toList.mapM (place used) = .ok (set.toList.map used.rank) :=
    mapM_eq_map fun i hi => place_eq (h i ((OrdinalSet.mem_toList set i).mp hi))
  rw [placeSet, hplaces]
  rfl

theorem remap_eq {c : AggCall} {place : Nat → Except Error Nat} {f : Nat → Nat}
    (h : ∀ i, c.Reads i → place i = .ok (f i)) : c.remap place = .ok (c.renumber f) := by
  have horder : c.order.mapM (fun o => do return { o with field := ← place o.field }) =
      .ok (c.order.map fun o => { o with field := f o.field }) := by
    refine mapM_eq_map fun o ho => ?_
    rw [h o.field (.inr (.inr ⟨o, ho, rfl⟩))]
    rfl
  have hargs : c.args.mapM place = .ok (c.args.map f) :=
    mapM_eq_map fun i hi => h i (.inl hi)
  have hfilter : c.filter.mapM place = .ok (c.filter.map f) := by
    cases hc : c.filter with
    | none => rfl
    | some i =>
      change some <$> place i = _
      rw [h i (.inr (.inl hc))]
      rfl
  rw [AggCall.remap, horder, hargs, hfilter]
  rfl

/-- The aggregate over the trimmed input mentions every field by its place. -/
theorem trimmed_eq (hsets : ∀ s ∈ a.sets, s ⊆ a.key) :
    trimmed (usedFields a) a = .ok (a.renumber (usedFields a).rank) := by
  have hkey : a.key ⊆ usedFields a := fun i hi => usedFields_contains.mpr (.inl hi)
  have hplaced : a.sets.mapM (placeSet (usedFields a)) =
      .ok (a.sets.map (·.renumber (usedFields a).rank)) :=
    mapM_eq_map fun s hs => placeSet_eq fun i hi => hkey i (hsets s hs i hi)
  have hcalls : a.calls.mapM (AggCall.remap (place (usedFields a))) =
      .ok (a.calls.map (·.renumber (usedFields a).rank)) :=
    mapM_eq_map fun c hc => remap_eq fun i hi =>
      place_eq (usedFields_contains.mpr (.inr ⟨c, hc, hi⟩))
  rw [trimmed, placeSet_eq hkey, hplaced, hcalls]
  rfl

/-- Trimming keeps the aggregate.  With every field by its place in the projection,
    the grouping sets are valid and have their shape, the aggregate reads the values
    that it read, and it has the row type that it had. -/
theorem trimmed_keeps_aggregate {row : RowType} (input : NodeId)
    (hvalid : Grouping.validate a.key a.sets = .ok ()) (hrange : ∀ i, a.Reads i → i < row.arity) :
    ∃ (below : Node) (exprs : List Expr) (f : Nat → Nat) (a' : Aggregation),
      projection (usedFields a) input row = .ok below ∧ below.op = .project input exprs ∧
      trimmed (usedFields a) a = .ok a' ∧ a' = a.renumber f ∧
      Grouping.validate a'.key a'.sets = .ok () ∧
      Grouping.classify a'.key a'.sets = Grouping.classify a.key a.sets ∧
      (∀ i, a.Reads i → place (usedFields a) i = .ok (f i)) ∧
      (∀ values params : List Value, values.length = row.arity →
        ∃ out, exprs.mapM (Expr.eval values params) = .ok out ∧
          ∀ i, a.Reads i → out[f i]? = values[i]?) ∧
      ∃ out, a.rowType row = .ok out ∧ a'.rowType below.row = .ok out := by
  have hwithin := (Grouping.validate_eq_ok.mp hvalid).2.1
  have hreads : a.ReadsWithin row.arity :=
    ⟨fun i hi => hrange i (.inl hi), hwithin,
      fun c hc i hi => hrange i (.inr ⟨c, hc, AggCall.mem_inputRefs.mp hi⟩)⟩
  have hkey : a.key ⊆ usedFields a := fun i hi => usedFields_contains.mpr (.inl hi)
  have hrank := (usedFields a).rank_strictMonoOn
  obtain ⟨below, hbelow⟩ := exists_projection hreads input
  obtain ⟨hfields, exprs, hexprs, hvalues⟩ :=
    projection_place (fun i hi => lt_of_used hreads hi) hbelow
  obtain ⟨out, hout⟩ := Aggregation.exists_rowType hvalid hreads.key
  have hvalid' : Grouping.validate (a.renumber (usedFields a).rank).key
      (a.renumber (usedFields a).rank).sets = .ok () :=
    Grouping.validate_renumber hrank hkey hvalid
  refine ⟨below, exprs, (usedFields a).rank, _, hbelow, hexprs, trimmed_eq hwithin, rfl, hvalid', ?_,
    fun i hi => place_eq (usedFields_contains.mpr hi), fun values params hlength => ?_, out, hout, ?_⟩
  · rw [Grouping.classify, Grouping.classify, hvalid, hvalid']
    exact congrArg Except.ok
      (Grouping.shape_renumber hrank hkey fun s hs i hi => hkey i (hwithin s hs i hi))
  · obtain ⟨values', hvalues', hplaces⟩ := hvalues values params hlength
    exact ⟨values', hvalues', fun i hi => hplaces i (usedFields_contains.mpr hi)⟩
  · rw [Aggregation.rowType_renumber hrank hkey hvalid fun i hi => hfields i (hkey i hi)]
    exact hout

end AggregateTrim

end Polystore
