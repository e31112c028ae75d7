import Polystore.Proofs.WrittenAggregates

/-
  Polystore/Proofs/PushedAggregates.lean
  ======================================
  **Aggregating in a document store.**  The stages that are written for an aggregate put
  rows with the same keys into one group, and make of each group a document with its keys
  and the results of its calls.

  The stages are objects.  A call whose name is taken in the `$group` stage is refused; in
  the `$project` stage the last of several outputs with one name is left, and the member
  that hides `_id` replaces an output of that name.  All columns come out exactly when names
  keep apart, from one another and from `_id`, and are such as a store knows
  (`aggregate_outputs_iff`).
-/

namespace Polystore

open Document (Totals)

/-! ### What an aggregate asks for -/

/-- The values of a field in rows as a store shows them, without nulls. -/
def shownValues (i : Nat) (rows : List (List Value)) : List Json :=
  rows.filterMap fun row => row[i]?.bind fun v => v.json.nonNull?

/-- The result of a call on the rows of a group: a number of rows or of values, or what the
    store makes of the values, `NULL` if there are none. -/
def AggCall.result? (t : Totals) (c : AggCall) (rows : List (List Value)) : Option Json :=
  if c.distinct || c.filter.isSome then none
  else
    match c.kind.combination?, c.args with
    | none, [] => some (.int rows.length)
    | none, [i] => some (.int (shownValues i rows).length)
    | some k, [i] =>
      some (if (shownValues i rows).isEmpty then .null else t.combine k (shownValues i rows))
    | _, _ => none

namespace Document

variable {ctx : PushContext} {a : Aggregation} {names : List String} {f : Fragment}

/-- Stages compute an aggregate.  They have an output for each name; documents are in one
    group when their rows agree on the keys; and a group ends as a document that holds its
    keys, those of the first row, and the results of the calls, and no `_id`. -/
structure GroupPipeline.Computes (p : GroupPipeline) (ctx : PushContext) (a : Aggregation)
    (names : List String) : Prop where
  outputs : (p.projection.outputs.map (·.1)).Perm names
  groups : ∀ row row' doc doc', HoldsRow ctx row doc → HoldsRow ctx row' doc' →
    (p.grouping.id.eval doc = p.grouping.id.eval doc' ↔
      ∀ i ∈ a.key.toList, row[i]?.map Value.json = row'[i]?.map Value.json)
  keys : ∀ t row rows doc docs, List.Forall₂ (HoldsRow ctx) (row :: rows) (doc :: docs) →
    ∀ i n, (i, n) ∈ a.key.toList.zip names →
      ∃ v, row[i]? = some v ∧ valueAt (pathOf n) (.object (p.row t doc docs)) = some v.json
  calls : ∀ t row rows doc docs, List.Forall₂ (HoldsRow ctx) (row :: rows) (doc :: docs) →
    ∀ c n, (c, n) ∈ a.calls.zip (names.drop a.key.toList.length) →
      ∃ j, c.result? t (row :: rows) = some j ∧
        valueAt (pathOf n) (.object (p.row t doc docs)) = some j
  id : ∀ t doc docs, Json.lookup "_id" (p.row t doc docs) = none

/-- Names that the outputs of an aggregate with a number of keys can have.  Accumulators are
    members at the top, and so are several keys in what identifies a group. -/
structure AggregateNames (keys : Nat) (names : List String) : Prop where
  paths : ∀ n ∈ names, isPath n = true
  apart : NoClash ("_id" :: names)
  calls : ∀ n ∈ names.drop keys, isPlain n = true
  keys : 2 ≤ keys → ∀ n ∈ names.take keys, isPlain n = true

/-- The fields that an aggregate reads. -/
def fieldsOf (a : Aggregation) : List Nat := a.key.toList ++ a.calls.flatMap (·.args)

/-- The fields have names that a store knows. -/
def KnownFields (ctx : PushContext) (fields : List Nat) : Prop :=
  ∀ i ∈ fields, ∀ s ∈ ctx.name? i, isPath s = true

/-! ### What the calls compute -/

section

variable {c : AggCall} {name : String} {accs : List (String × Accumulator)} {out : Formula}

theorem CallParts.known_iff (h : CallParts ctx c name accs out) :
    (∀ acc ∈ accs, isPlain acc.1 = true ∧ acc.2.input.isKnown = true) ↔
      isPlain name = true ∧ KnownFields ctx c.args := by
  cases h with
  | rows hkind hargs => simp [hargs, KnownFields, Formula.isKnown]
  | present hkind hargs hs =>
    simp [hargs, hs, KnownFields, Formula.presence, Formula.isKnown]
  | total hkind hargs hs =>
    rename_i i s
    have hfields : KnownFields ctx c.args ↔ isPath s = true := by simp [hargs, hs, KnownFields]
    rw [List.forall_mem_cons, List.forall_mem_singleton, hfields]
    constructor
    · rintro ⟨-, hname, hsource⟩
      exact ⟨hname, hsource⟩
    · rintro ⟨hname, hsource⟩
      have hpresence : (Formula.presence s).isKnown = true := by
        simp [Formula.presence, Formula.isKnown, hsource]
      exact ⟨⟨isPlain_append hname (by decide), hpresence⟩, hname, hsource⟩
  | chosen hkind hsum hargs hs => simp [hargs, hs, KnownFields, Formula.isKnown]

theorem CallParts.not_number (h : CallParts ctx c name accs out) (i : Int) : out ≠ .number i := by
  cases h <;> exact Formula.noConfusion

theorem CallParts.isComputed_out (h : CallParts ctx c name accs out) (hname : isPlain name = true) :
    out.isComputed = true := by
  have hpath : isPath name = true := isPath_of_isPlain hname
  have hseen : isPath (seen name) = true := isPath_of_isPlain (isPlain_append hname (by decide))
  cases h <;> simp [sumOutput, Formula.isComputed, Formula.isKnown, hpath, hseen]

theorem values_path {rows : List (List Value)} {docs : List Json.Members} {i : Nat} {s : String}
    (h : List.Forall₂ (HoldsRow ctx) rows docs) (hs : ctx.name? i = some s) :
    Accumulator.values (.path s) docs = shownValues i rows := by
  induction h with
  | nil => rfl
  | cons hrow _ ih =>
    obtain ⟨v, hv, hfound⟩ := hrow.exists_value hs
    rw [Accumulator.values, shownValues, List.filterMap_cons, List.filterMap_cons, hfound, hv,
      Option.bind_some, Option.bind_some]
    cases v.json.nonNull? with
    | none => exact ih
    | some j => exact congrArg _ ih

/-- The output of a call is its result. -/
theorem CallParts.eval_out (h : CallParts ctx c name accs out)
    (hplain : c.distinct = false ∧ c.filter = none) (hname : isPlain name = true) {t : Totals}
    {row : List Value} {rows : List (List Value)} {doc : Json.Members} {docs : List Json.Members}
    (hrows : List.Forall₂ (HoldsRow ctx) (row :: rows) (doc :: docs)) {g : Grouping}
    (haccs : ∀ acc ∈ accs, acc ∈ g.accumulators) :
    ∃ j, c.result? t (row :: rows) = some j ∧ out.eval (g.document t doc docs) = some j := by
  have hresult : c.result? t (row :: rows) =
      match c.kind.combination?, c.args with
      | none, [] => some (.int (row :: rows).length)
      | none, [i] => some (.int (shownValues i (row :: rows)).length)
      | some k, [i] => some (if (shownValues i (row :: rows)).isEmpty then .null
          else t.combine k (shownValues i (row :: rows)))
      | _, _ => none := by
    rw [AggCall.result?, hplain.1, hplain.2]
    rfl
  rw [hresult]
  cases h with
  | rows hkind hargs =>
    refine ⟨.int (row :: rows).length, by rw [hkind, hargs]; rfl, ?_⟩
    rw [Grouping.eval_path_accumulator (haccs _ List.mem_cons_self) hname, Accumulator.eval_count,
      hrows.length_eq]
  | present hkind hargs hs =>
    rename_i i s
    refine ⟨.int (shownValues i (row :: rows)).length, by rw [hkind, hargs]; rfl, ?_⟩
    rw [Grouping.eval_path_accumulator (haccs _ List.mem_cons_self) hname,
      Accumulator.eval_countPresent, values_path hrows hs]
  | total hkind hargs hs =>
    rename_i i s
    refine ⟨_, by rw [hkind, hargs]; rfl, ?_⟩
    have hseen : (Formula.path (seen name)).eval (g.document t doc docs) =
        some (.int (shownValues i (row :: rows)).length) := by
      rw [Grouping.eval_path_accumulator (haccs _ List.mem_cons_self)
        (isPlain_append hname (by decide)), Accumulator.eval_countPresent, values_path hrows hs]
    have hsum : (Formula.path name).eval (g.document t doc docs) =
        some (t.combine .sum (shownValues i (row :: rows))) := by
      have hlast := haccs (name, ⟨.sum, .path s⟩) (List.mem_cons_of_mem _ List.mem_cons_self)
      rw [Grouping.eval_path_accumulator hlast hname, Accumulator.eval, values_path hrows hs]
    rw [sumOutput, Formula.eval, Formula.isTrue_positive hseen, hsum]
    cases shownValues i (row :: rows) with
    | nil => rfl
    | cons j rest => rfl
  | chosen hkind hsum hargs hs =>
    rename_i i s k
    refine ⟨_, by rw [hkind, hargs], ?_⟩
    rw [Grouping.eval_path_accumulator (haccs _ List.mem_cons_self) hname, Accumulator.eval,
      values_path hrows hs]
    cases hempty : (shownValues i (row :: rows)).isEmpty with
    | true => rw [if_pos rfl, List.isEmpty_iff.mp hempty, t.of_nothing k hsum]
    | false => rw [if_neg Bool.false_ne_true]

end

/-! ### What the keys compute -/

theorem pathOf_id_dot (n : String) : pathOf ("_id." ++ n) = "_id" :: pathOf n := by
  have hname : "_id." ++ n = "_id" ++ "." ++ n := by
    have hid : "_id." = "_id" ++ "." := by decide
    rw [hid]
  rw [hname]
  exact pathOf_append_dot (by decide) n

section

variable {l : List (Nat × String)} {id i : GroupId} {outs : List (String × Formula)}

theorem KeyParts.exists_read?_iff (h : KeyParts ctx l id outs) (hnames : (l.map (·.2)).Nodup) :
    (∃ i, GroupId.read? id.json = some i) ↔
      KnownFields ctx (l.map (·.1)) ∧ (2 ≤ l.length → ∀ k ∈ l, isPlain k.2 = true) := by
  cases h with
  | one hs => simp [GroupId.read?_path, KnownFields, hs]
  | @many _ parts hl hparts =>
    rw [GroupId.exists_read?_record (names_of_readsKey hparts ▸ hnames)]
    constructor
    · intro hknown
      constructor
      · intro j hj s hs
        obtain ⟨k, hk, rfl⟩ := List.mem_map.mp hj
        obtain ⟨p, hp, s', hs', rfl⟩ := exists_of_forall₂_left hparts k hk
        obtain rfl : s' = s := Option.some.inj (hs'.symm.trans hs)
        exact (hknown _ hp).2
      · intro _ k hk
        obtain ⟨p, hp, s, -, rfl⟩ := exists_of_forall₂_left hparts k hk
        exact (hknown _ hp).1
    · rintro ⟨hfields, hplain⟩ p hp
      obtain ⟨k, hk, s, hs, rfl⟩ := exists_of_forall₂_right hparts p hp
      exact ⟨hplain hl k hk, hfields k.1 (List.mem_map_of_mem hk) s hs⟩

theorem KeyParts.not_number (h : KeyParts ctx l id outs) : ∀ o ∈ outs, ∀ i, o.2 ≠ .number i := by
  intro o ho i
  cases h with
  | one hs =>
    obtain rfl := List.mem_singleton.mp ho
    exact Formula.noConfusion
  | many hl hparts =>
    obtain ⟨k, -, rfl⟩ := List.mem_map.mp ho
    exact Formula.noConfusion

theorem KeyParts.isComputed_outs (h : KeyParts ctx l id outs)
    (hpaths : ∀ k ∈ l, isPath k.2 = true) : ∀ o ∈ outs, o.2.isComputed = true := by
  intro o ho
  cases h with
  | one hs =>
    obtain rfl := List.mem_singleton.mp ho
    have hid : isPath "_id" = true := by decide
    exact hid
  | many hl hparts =>
    obtain ⟨k, hk, rfl⟩ := List.mem_map.mp ho
    have hstep : isStep "_id" = true := by decide
    have hpath : isPath ("_id." ++ k.2) = isPath k.2 := by
      rw [isPath, pathOf_id_dot, List.all_cons, hstep, Bool.true_and, isPath]
    exact hpath.trans (hpaths k hk)

/-- Documents are in one group when their rows agree on the keys. -/
theorem KeyParts.eval_eq_iff (h : KeyParts ctx l id outs) (hnames : (l.map (·.2)).Nodup)
    (hread : GroupId.read? id.json = some i) {row row' : List Value} {doc doc' : Json.Members}
    (hrow : HoldsRow ctx row doc) (hrow' : HoldsRow ctx row' doc') :
    i.eval doc = i.eval doc' ↔ ∀ k ∈ l, row[k.1]?.map Value.json = row'[k.1]?.map Value.json := by
  cases h with
  | @one j n s hs =>
    obtain ⟨-, rfl⟩ := GroupId.read?_path.mp hread
    obtain ⟨v, hv, hfound⟩ := hrow.exists_value hs
    obtain ⟨v', hv', hfound'⟩ := hrow'.exists_value hs
    simp [GroupId.eval, hfound, hfound', hv, hv']
  | @many _ parts hl hparts =>
    have hparted : (parts.map (·.1)).Nodup := names_of_readsKey hparts ▸ hnames
    obtain ⟨parts', rfl, hperm⟩ := GroupId.read?_record hparted hread
    have hparted' : (parts'.map (·.1)).Nodup := (hperm.map _).nodup_iff.mpr hparted
    constructor
    · intro heq k hk
      obtain ⟨p, hp, s, hs, rfl⟩ := exists_of_forall₂_left hparts k hk
      obtain ⟨v, hv, hfound⟩ := hrow.exists_value hs
      obtain ⟨v', hv', hfound'⟩ := hrow'.exists_value hs
      have hlookup := GroupId.lookup_record hparted' (hperm.mem_iff.mpr hp) hfound
      have hlookup' := GroupId.lookup_record hparted' (hperm.mem_iff.mpr hp) hfound'
      rw [Json.object.inj heq, hlookup'] at hlookup
      rw [hv, hv', Option.map_some, Option.map_some, hlookup]
    · intro hsame
      apply GroupId.eval_record_congr
      intro p hp
      obtain ⟨k, hk, s, hs, rfl⟩ := exists_of_forall₂_right hparts p (hperm.mem_iff.mp hp)
      obtain ⟨v, hv, hfound⟩ := hrow.exists_value hs
      obtain ⟨v', hv', hfound'⟩ := hrow'.exists_value hs
      have hvalues := hsame k hk
      rw [hv, hv'] at hvalues
      rw [hfound, hfound']
      exact hvalues

/-- The output of a key is its value in the first row. -/
theorem KeyParts.eval_out (h : KeyParts ctx l id outs) (hnames : (l.map (·.2)).Nodup)
    (hplain : 2 ≤ l.length → ∀ k ∈ l, isPlain k.2 = true) {g : Grouping}
    (hread : GroupId.read? id.json = some g.id) {t : Totals} {row : List Value}
    {doc : Json.Members} (docs : List Json.Members) (hrow : HoldsRow ctx row doc) :
    ∀ k ∈ l, ∃ φ v, (k.2, φ) ∈ outs ∧ row[k.1]? = some v ∧
      φ.eval (g.document t doc docs) = some v.json := by
  intro k hk
  cases h with
  | @one j n s hs =>
    obtain rfl := List.mem_singleton.mp hk
    obtain ⟨-, hid⟩ := GroupId.read?_path.mp hread
    obtain ⟨v, hv, hfound⟩ := hrow.exists_value hs
    have hpath : pathOf "_id" = ["_id"] := by decide
    refine ⟨.path "_id", v, List.mem_singleton_self _, hv, ?_⟩
    rw [Formula.eval, hpath, valueAt_singleton, Grouping.lookup_document_id, hid, GroupId.eval,
      hfound, Option.getD_some]
  | @many _ parts hl hparts =>
    have hparted : (parts.map (·.1)).Nodup := names_of_readsKey hparts ▸ hnames
    obtain ⟨parts', hid, hperm⟩ := GroupId.read?_record hparted hread
    obtain ⟨p, hp, s, hs, rfl⟩ := exists_of_forall₂_left hparts k hk
    obtain ⟨v, hv, hfound⟩ := hrow.exists_value hs
    have hlookup := GroupId.lookup_record ((hperm.map _).nodup_iff.mpr hparted)
      (hperm.mem_iff.mpr hp) hfound
    refine ⟨.path ("_id." ++ k.2), v, List.mem_map_of_mem (f := fun k => (k.2, _)) hk, hv, ?_⟩
    rw [Formula.eval, pathOf_id_dot, valueAt_object, Grouping.lookup_document_id, hid,
      Option.bind_some, pathOf_of_isPlain (hplain hl k hk)]
    exact (valueAt_singleton _ _).trans hlookup

end

/-! ### The pushed aggregate -/

section

variable {id : GroupId} {keyOuts : List (String × Formula)} {parts : List CallPart}

theorem Writes.not_number (h : Writes ctx a names id keyOuts parts) :
    ∀ o ∈ keyOuts ++ outputsOf parts, ∀ i, o.2 ≠ .number i := by
  intro o ho i
  rcases List.mem_append.mp ho with ho | ho
  · exact h.keys.not_number o ho i
  · obtain ⟨part, hpart, rfl⟩ := List.mem_map.mp ho
    obtain ⟨c, -, hadds⟩ := exists_of_forall₂_right h.calls part hpart
    exact hadds.parts.not_number i

section

variable (h : Writes ctx a names id keyOuts parts)

include h

/-- The identifier of a group is read if the keys are known. -/
theorem Writes.keys_known_iff (hapart : NoClash names) :
    (∃ i, GroupId.read? id.json = some i) ↔ KnownFields ctx a.key.toList ∧
      (2 ≤ a.key.toList.length → ∀ n ∈ names.take a.key.toList.length, isPlain n = true) := by
  rw [h.keys.exists_read?_iff (h.nodup_keyNames hapart), h.keyFields, h.length_keys, ← h.keyNames,
    List.forall_mem_map]

/-- The accumulators are read if the calls are known. -/
theorem Writes.calls_known_iff :
    (∀ acc ∈ accumulatorsOf parts, isPlain acc.1 = true ∧ acc.2.input.isKnown = true) ↔
      KnownFields ctx (a.calls.flatMap (·.args)) ∧
        ∀ n ∈ names.drop a.key.toList.length, isPlain n = true := by
  constructor
  · intro haccs
    have hcalls : ∀ c ∈ a.calls.zip (names.drop a.key.toList.length),
        isPlain c.2 = true ∧ KnownFields ctx c.1.args := by
      intro c hc
      obtain ⟨part, hpart, hadds⟩ := exists_of_forall₂_left h.calls c hc
      apply hadds.parts.known_iff.mp
      intro acc hacc
      exact haccs acc (List.mem_flatMap.mpr ⟨part, hpart, hacc⟩)
    constructor
    · intro i hi
      obtain ⟨call, hcall, hi⟩ := List.mem_flatMap.mp hi
      rw [← h.namedCalls] at hcall
      obtain ⟨c, hc, rfl⟩ := List.mem_map.mp hcall
      exact (hcalls c hc).2 i hi
    · intro n hn
      rw [← h.callNames] at hn
      obtain ⟨c, hc, rfl⟩ := List.mem_map.mp hn
      exact (hcalls c hc).1
  · rintro ⟨hfields, hnames⟩ acc hacc
    obtain ⟨part, hpart, hacc⟩ := List.mem_flatMap.mp hacc
    obtain ⟨c, hc, hadds⟩ := exists_of_forall₂_right h.calls part hpart
    have hmem := List.of_mem_zip hc
    refine hadds.parts.known_iff.mpr ⟨hnames c.2 hmem.2, ?_⟩ acc hacc
    intro i hi
    exact hfields i (List.mem_flatMap.mpr ⟨c.1, hmem.1, hi⟩)

/-- The outputs are accepted by their names. -/
theorem Writes.accepted_iff
    (hcalls : ∀ n ∈ names.drop a.key.toList.length, isPlain n = true) :
    Projection.Accepted (keyOuts ++ outputsOf parts) true ↔
      (∀ n ∈ names, isPath n = true) ∧ NoClash ("_id" :: names) := by
  constructor
  · intro haccepted
    have houts : ∀ n ∈ names, isPath n = true ∧ ¬Clash "_id" n := by
      intro n hn
      rw [← h.names] at hn
      obtain ⟨o, ho, rfl⟩ := List.mem_map.mp hn
      exact ⟨(haccepted.known o ho).1, haccepted.id rfl o ho⟩
    refine ⟨fun n hn => (houts n hn).1, List.pairwise_cons.mpr ⟨fun n hn => (houts n hn).2, ?_⟩⟩
    exact h.names ▸ haccepted.apart
  · rintro ⟨hpaths, hclash⟩
    obtain ⟨hid, hapart⟩ := List.pairwise_cons.mp hclash
    have hmem : ∀ o ∈ keyOuts ++ outputsOf parts, o.1 ∈ names := by
      intro o ho
      rw [← h.names]
      exact List.mem_map_of_mem ho
    refine ⟨?_, h.names.symm ▸ hapart, fun _ o ho => hid o.1 (hmem o ho)⟩
    intro o ho
    refine ⟨hpaths o.1 (hmem o ho), ?_⟩
    rcases List.mem_append.mp ho with ho | ho
    · apply h.keys.isComputed_outs ?_ o ho
      intro k hk
      exact hpaths k.2 (List.of_mem_zip hk).2
    · obtain ⟨part, hpart, rfl⟩ := List.mem_map.mp ho
      obtain ⟨c, hc, hadds⟩ := exists_of_forall₂_right h.calls part hpart
      exact hadds.parts.isComputed_out (hcalls c.2 (List.of_mem_zip hc).2)

/-- A store takes both stages exactly when it knows all their names. -/
theorem Writes.read_iff :
    (Projection.Accepted (keyOuts ++ outputsOf parts) true ∧
        ∃ g, Grouping.read? (Grouping.stage id (accumulatorsOf parts)) = some g) ↔
      KnownFields ctx (fieldsOf a) ∧ AggregateNames a.key.toList.length names := by
  have hfieldsOf : KnownFields ctx (fieldsOf a) ↔
      KnownFields ctx a.key.toList ∧ KnownFields ctx (a.calls.flatMap (·.args)) :=
    List.forall_mem_append
  rw [Grouping.exists_read?_stage h.fresh, h.calls_known_iff, hfieldsOf]
  constructor
  · rintro ⟨haccepted, hid, hcallFields, hcalls⟩
    obtain ⟨hpaths, hclash⟩ := (h.accepted_iff hcalls).mp haccepted
    obtain ⟨hkeyFields, hkeys⟩ := (h.keys_known_iff (List.pairwise_cons.mp hclash).2).mp hid
    exact ⟨⟨hkeyFields, hcallFields⟩, hpaths, hclash, hcalls, hkeys⟩
  · rintro ⟨⟨hkeyFields, hcallFields⟩, hpaths, hclash, hcalls, hkeys⟩
    refine ⟨(h.accepted_iff hcalls).mpr ⟨hpaths, hclash⟩, ?_, hcallFields, hcalls⟩
    exact (h.keys_known_iff (List.pairwise_cons.mp hclash).2).mpr ⟨hkeyFields, hkeys⟩

/-- Stages that a store reads as they were written compute the aggregate. -/
theorem Writes.computes (hnames : AggregateNames a.key.toList.length names) {p : GroupPipeline}
    (hread : Grouping.read? (Grouping.stage id (accumulatorsOf parts)) = some p.grouping)
    (hid : p.projection.hidesId = true)
    (hperm : p.projection.outputs.Perm (keyOuts ++ outputsOf parts)) : p.Computes ctx a names := by
  obtain ⟨hgroupId, haccs⟩ := Grouping.read?_stage h.fresh hread
  have hnodup := h.nodup_keyNames (List.pairwise_cons.mp hnames.apart).2
  have hplain : 2 ≤ (a.key.toList.zip names).length →
      ∀ k ∈ a.key.toList.zip names, isPlain k.2 = true := by
    intro htwo k hk
    apply hnames.keys (h.length_keys ▸ htwo)
    rw [← h.keyNames]
    exact List.mem_map_of_mem hk
  constructor
  · rw [← h.names]
    exact hperm.map _
  · intro row row' doc doc' hrow hrow'
    rw [h.keys.eval_eq_iff hnodup hgroupId hrow hrow']
    constructor
    · intro hall i hi
      rw [← h.keyFields] at hi
      obtain ⟨k, hk, rfl⟩ := List.mem_map.mp hi
      exact hall k hk
    · intro hall k hk
      exact hall k.1 (List.of_mem_zip hk).1
  · intro t row rows doc docs hrows i n hin
    obtain ⟨hrow, -⟩ := List.forall₂_cons.mp hrows
    obtain ⟨φ, v, ho, hv, hφ⟩ := h.keys.eval_out hnodup hplain hgroupId docs hrow (i, n) hin
    refine ⟨v, hv, p.projection.valueAt_apply ?_ hφ⟩
    exact hperm.mem_iff.mpr (List.mem_append_left _ ho)
  · intro t row rows doc docs hrows c n hcn
    obtain ⟨part, hpart, hadds⟩ := exists_of_forall₂_left h.calls (c, n) hcn
    have hmem : ∀ acc ∈ part.accumulators, acc ∈ p.grouping.accumulators := fun acc hacc =>
      haccs.mem_iff.mpr (List.mem_flatMap.mpr ⟨part, hpart, hacc⟩)
    have hname : isPlain n = true := hnames.calls n (List.of_mem_zip hcn).2
    obtain ⟨j, hj, hout⟩ := hadds.parts.eval_out hadds.plain hname hrows hmem
    refine ⟨j, hj, p.projection.valueAt_apply ?_ hout⟩
    apply hperm.mem_iff.mpr
    apply List.mem_append_right
    exact List.mem_map.mpr ⟨part, hpart, by rw [hadds.name]⟩
  · intro t doc docs
    exact Projection.lookup_id_apply hid _

end

end

/-- A pushed aggregate computes all its keys and calls exactly when no names clash, neither
    with one another nor with `_id`, and all names are such as a store knows, at the top of
    a document where they are those of calls or of several keys. -/
theorem aggregate_outputs_iff (h : aggregate a names ctx = some f) :
    (∃ p, GroupPipeline.ofFragment? f = some p ∧ p.Computes ctx a names) ↔
      KnownFields ctx (fieldsOf a) ∧ AggregateNames a.key.toList.length names := by
  obtain ⟨id, keyOuts, parts, hwrites, hstages⟩ := aggregate_eq_some h
  rw [hstages]
  constructor
  · rintro ⟨p, hp, hcomputes⟩
    obtain ⟨hgroup, hproject⟩ := GroupPipeline.read?_eq_some.mp hp
    have houtputs : (p.projection.outputs.map (·.1)).Perm
        ((keyOuts ++ outputsOf parts).map (·.1)) := by
      rw [hwrites.names]
      exact hcomputes.outputs
    have haccepted := Projection.accepted_of_read? hwrites.not_number hproject houtputs
    exact hwrites.read_iff.mp ⟨haccepted, p.grouping, hgroup⟩
  · rintro ⟨hfields, hnames⟩
    obtain ⟨haccepted, g, hg⟩ := hwrites.read_iff.mpr ⟨hfields, hnames⟩
    obtain ⟨q, hq, hid, hperm⟩ := Projection.read?_stage haccepted
    exact ⟨⟨g, q⟩, GroupPipeline.read?_eq_some.mpr ⟨hg, hq⟩, hwrites.computes hnames hg hid hperm⟩

/-- The integer that a value is. -/
def integer? : Json → Option Int
  | .int i => some i
  | _ => none

/-- A store that adds up and compares integers. -/
def integerTotals : Totals where
  combine c values :=
    let integers := values.filterMap integer?
    match c with
    | .sum => .int integers.sum
    | .least => (integers.min?.map Json.int).getD .null
    | .greatest => (integers.max?.map Json.int).getD .null
    | .mean =>
      if integers.isEmpty then .null
      else .float (Float.ofInt integers.sum / Float.ofNat integers.length)
  counts := by
    intro l
    have hsum : ((l.map fun b => Json.int b.toNat).filterMap integer?).sum = l.count true := by
      induction l with
      | nil => rfl
      | cons b l ih =>
        have hb : integer? (.int b.toNat) = some (b.toNat : Int) := rfl
        rw [List.map_cons, List.filterMap_cons_some hb, List.sum_cons, ih, List.count_cons]
        cases b <;> simp [add_comm]
    exact congrArg Json.int hsum
  of_nothing := by
    intro c hc
    cases c <;> first | rfl | exact absurd rfl hc

/-- Two keys, a sum without values and a count. -/
theorem aggregate_outputs_iff_cityName :
    let ctx : PushContext := { names := ["city", "age", "name"] }
    let a : Aggregation :=
      ⟨.ofList [0, 2], [.ofList [0, 2]], [⟨.sum, [1], false, none, [], .bigint, none⟩,
        ⟨.count, [], false, none, [], .bigint, none⟩], false⟩
    let names := ["city", "name", "total", "n"]
    let row := [Value.string "Basel", .null, .string "Ann"]
    let doc := [("city", Json.string "Basel"), ("age", .null), ("name", .string "Ann")]
    ∃ f p, aggregate a names ctx = some f ∧ GroupPipeline.ofFragment? f = some p ∧
      p.Computes ctx a names ∧ HoldsRow ctx row doc ∧
      valueAt ["total"] (.object (p.row integerTotals doc [])) = some .null := by
  intro ctx a names row doc
  obtain ⟨f, hf⟩ : ∃ f, aggregate a names ctx = some f := ⟨_, rfl⟩
  have hfields : KnownFields ctx (fieldsOf a) := by
    unfold KnownFields
    decide
  have hnames : AggregateNames a.key.toList.length names :=
    ⟨by decide, by decide, by decide, by decide⟩
  obtain ⟨p, hp, hcomputes⟩ := (aggregate_outputs_iff hf).mpr ⟨hfields, hnames⟩
  have hrow : HoldsRow ctx row doc := by
    refine ⟨rfl, ?_⟩
    intro i s v hs hv
    have hi : i < 3 := (List.getElem?_eq_some_iff.mp hs).1
    interval_cases i <;> cases hs <;> cases hv <;> rfl
  obtain ⟨j, hj, htotal⟩ := hcomputes.calls integerTotals row [] doc [] (.cons hrow .nil)
    ⟨.sum, [1], false, none, [], .bigint, none⟩ "total" List.mem_cons_self
  obtain rfl : Json.null = j := Option.some.inj hj
  exact ⟨f, p, hf, hp, hcomputes, hrow, htotal⟩

/-- The key that is named `_id` is hidden with the store's own. -/
theorem aggregate_hides_key :
    let ctx : PushContext := { names := ["_id"] }
    let a : Aggregation :=
      ⟨.ofList [0], [.ofList [0]], [⟨.count, [], false, none, [], .bigint, none⟩], false⟩
    let names := ["_id", "n"]
    ∃ f p, aggregate a names ctx = some f ∧
      f.body.text = "[\x7b\"$group\":\x7b\"_id\":\"$_id\",\"n\":\x7b\"$sum\":1\x7d\x7d\x7d," ++
        "\x7b\"$project\":\x7b\"_id\":0,\"n\":\"$n\"\x7d\x7d]" ∧
      GroupPipeline.ofFragment? f = some p ∧
      p.row integerTotals [("_id", .int 7)] [] = [("n", .int 1)] ∧ ¬p.Computes ctx a names := by
  intro ctx a names
  refine ⟨_, _, rfl, by decide +kernel, rfl, rfl, ?_⟩
  intro hcomputes
  exact absurd hcomputes.outputs.length_eq (by decide)

end Document

end Polystore
