import Polystore.Proofs.Rules

/-
  Polystore/Proofs/StorePushing.lean
  ==================================
  **What the rules of a store do.**  They only enter what is offered.  The tables
  that are scanned are looked up in the catalog, and where it has them nothing
  else fails (`Target.filterRule_sound` and its siblings).
-/

namespace Polystore

open StoreRules

namespace StoreRules.Target

variable {known : Catalog → Prop} {t : Target} {m : Memo Float}

theorem exists_holdsTable {id : TableId} {row : RowType} (h : t.catalog.rowType id = .ok row) :
    ∃ b, t.catalog.holdsTable t.store.id id = .ok b := by
  obtain ⟨columns, hcolumns, -⟩ := except_bind_eq_ok.mp h
  obtain ⟨table, htable, -⟩ := except_bind_eq_ok.mp hcolumns
  exact ⟨_, except_bind_eq_ok.mpr ⟨table, htable, rfl⟩⟩

theorem exists_tableContext {id : TableId} {row : RowType}
    (h : t.catalog.rowType id = .ok row) : ∃ ctx, t.tableContext id = .ok ctx := by
  obtain ⟨columns, hcolumns, -⟩ := except_bind_eq_ok.mp h
  obtain ⟨table, htable, -⟩ := except_bind_eq_ok.mp hcolumns
  exact ⟨_, except_bind_eq_ok.mpr ⟨table, htable, except_bind_eq_ok.mpr ⟨columns, hcolumns, rfl⟩⟩⟩

theorem contextTo_ends (hknown : known t.catalog) (hm : m.WellFormed) (depth : Nat)
    {id : NodeId} (hid : id.n < m.size) :
    Ends (Rule.Fails known m) (t.contextTo m depth id) fun _ => True := by
  induction depth generalizing id with
  | zero => exact Ends.pure trivial
  | succ depth ih =>
    obtain ⟨n, hn⟩ := Memo.exists_node hid
    have hinput : ∀ i ∈ n.inputs, i.n < m.size := fun i hi => hm.input_lt hn hi
    refine Ends.after hn ?_
    cases hop : n.op with
    | scan table =>
      refine Ends.bind (Ends.provided fun hhealthy => ?_) fun _ _ => Ends.pure trivial
      obtain ⟨row, hrow⟩ := hhealthy.tables _ hknown id n table hn hop
      exact exists_tableContext hrow
    | filter input _ => exact ih (hinput input (by simp [Node.inputs, hop, RelOp.inputs]))
    | sort input _ => exact ih (hinput input (by simp [Node.inputs, hop, RelOp.inputs]))
    | project input _ =>
      have h := ih (hinput input (by simp [Node.inputs, hop, RelOp.inputs]))
      exact h.bind fun _ _ => Ends.pure trivial
    | _ => exact Ends.pure trivial

theorem context_ends (hknown : known t.catalog) (hm : m.WellFormed) {id : NodeId}
    (hid : id.n < m.size) :
    Ends (Rule.Fails known m) (t.context m id) fun _ => True :=
  contextTo_ends hknown hm _ hid

theorem scanRule_sound (hknown : known t.catalog) : t.scanRule.Sound known := by
  apply Rule.sound_of_leaf rfl
  intro m r root g hm hroot haccepts
  obtain ⟨-, hc, -⟩ := Pattern.accepts_iff.mp haccepts
  have hstart := Firing.proper_start known hm [r]
  refine Runs.after (Action.matchedNode_run rfl hroot.node) ?_
  cases hop : root.op with
  | scan table =>
    have hrow : m.Healthy known → ∃ row, t.catalog.rowType table.id = .ok row :=
      fun hhealthy => hhealthy.tables _ hknown r root table hroot.node hop
    refine Runs.lift_bind (Ends.provided fun hhealthy => ?_) fun holds _ => ?_
    · obtain ⟨row, hrow⟩ := hrow hhealthy
      exact exists_holdsTable hrow
    cases holds with
    | false => exact Runs.pure hstart
    | true =>
      refine Runs.lift_bind (Ends.provided fun hhealthy => ?_) fun ctx _ => ?_
      · obtain ⟨row, hrow⟩ := hrow hhealthy
        exact exists_tableContext hrow
      have hoffer : m.Offer known (t.pushed root (.scan table) (t.dialect.scan ctx)) (some g) :=
        hop ▸ .scan hknown hroot (hc _ rfl) hop ((Backend.dialect_writesFor _).scan ctx)
      refine Runs.discard ?_
      exact (Action.transformTo_runs Rule.fails_full hstart rfl hroot hoffer
        (by simp [Node.inputs, pushed, RelOp.inputs]) rfl).imp fun _ _ h => h.1
  | _ => exact Runs.pure hstart

theorem converterRule_sound (hknown : known t.catalog) : t.converterRule.Sound known := by
  apply Rule.sound_of_leaf rfl
  intro m r root g hm hroot haccepts
  obtain ⟨-, hc, -⟩ := Pattern.accepts_iff.mp haccepts
  have hstart := Firing.proper_start known hm [r]
  have hoffer := Memo.Offer.convert hknown hroot (hc _ rfl)
  refine Runs.after (Action.matchedId_run rfl)
    (Runs.after (Action.matchedNode_run rfl hroot.node) (Runs.discard ?_))
  refine (Action.transformTo_runs Rule.fails_full hstart rfl hroot hoffer ?_ rfl).imp
    fun _ _ h => h.1
  simpa [Node.inputs, RelOp.inputs] using hroot.lt_size

theorem pushRule_sound (hknown : known t.catalog) {kind : RelKind} {below : List RelKind}
    {description : String} {saying? : Node → Option Saying}
    (hkind : kind ∈ [RelKind.filter, .project, .aggregate, .sort])
    (hsaying : ∀ n say, saying? n = some say →
      ∀ ctx f, say ctx = some f → f.backend = t.store.backend) :
    (t.pushRule kind description (t.above kind below) (t.pushAction saying?)).Sound known := by
  refine Rule.sound_of_over rfl rfl
    fun m r root g i k below h hm hroot haccepts hinputs hgroup hbelow haccepts' => ?_
  obtain ⟨hk, hc, -⟩ := Pattern.accepts_iff.mp haccepts
  obtain ⟨-, hc', -⟩ := Pattern.accepts_iff.mp haccepts'
  have hstart := Firing.proper_start known hm [r, k]
  refine Runs.after (Action.matchedNode_run rfl hroot.node)
    (Runs.after (Action.matchedId_run rfl) (Runs.after (t := ⟨m, [r, k], []⟩) rfl ?_))
  cases hsay : saying? root with
  | none => exact Runs.pure hstart
  | some say =>
    apply Runs.lift_bind (context_ends hknown hm hbelow.lt_size)
    intro ctx _
    cases ctx with
    | none => exact Runs.pure hstart
    | some ctx =>
      cases hf : say ctx with
      | none =>
        simp only [hf]
        exact Runs.pure hstart
      | some f =>
        simp only [hf]
        have hoffer := Memo.Offer.pushed hknown hroot (hc _ rfl) ((hk _ rfl).symm ▸ hkind) hinputs
          hgroup hbelow (hc' _ rfl) (hsaying root say hsay ctx f hf)
        have hlength : [k].length = root.op.inputs.length := by
          rw [show root.op.inputs = [i] from hinputs]
          rfl
        refine Runs.discard ?_
        refine (Action.transformTo_runs Rule.fails_full hstart rfl hroot hoffer ?_ rfl).imp
          fun _ _ h => h.1
        intro j hj
        have hj' : j ∈ (root.op.withInputs [k]).inputs := hj
        rw [RelOp.inputs_withInputs hlength, List.mem_singleton] at hj'
        exact hj' ▸ hbelow.lt_size

theorem projectRule_sound (hknown : known t.catalog) : t.projectRule.Sound known := by
  apply pushRule_sound hknown (by decide)
  intro n say hsay ctx f hf
  unfold project? at hsay
  split at hsay
  · rename_i say' _ hdialect
    obtain rfl := Option.some.inj hsay
    exact ((Backend.dialect_writesFor _).project _ hdialect _ _ ctx f hf).1
  · cases hsay

theorem aggregateRule_sound (hknown : known t.catalog) : t.aggregateRule.Sound known := by
  apply pushRule_sound hknown (by decide)
  intro n say hsay ctx f hf
  unfold aggregate? at hsay
  split at hsay
  · rename_i say' _ hdialect
    split at hsay
    · cases hsay
    · obtain rfl := Option.some.inj hsay
      exact ((Backend.dialect_writesFor _).aggregate _ hdialect _ _ ctx f hf).1
  · cases hsay

theorem sortRule_sound (hknown : known t.catalog) : t.sortRule.Sound known := by
  apply pushRule_sound hknown (by decide)
  intro n say hsay ctx f hf
  unfold sort? at hsay
  split at hsay
  · rename_i say' _ hdialect
    obtain rfl := Option.some.inj hsay
    exact ((Backend.dialect_writesFor _).sort _ hdialect _ ctx f hf).1
  · cases hsay

section

variable {r i k : NodeId} {root below : Node} {g h : GroupId} {condition : Expr} {native : Fragment}

/-- A filter that the store takes whole. -/
theorem filter_full_runs (hknown : known t.catalog) (hm : m.WellFormed) (hroot : m.Has r root g)
    (hlogical : root.convention = .logical) (hop : root.op = .filter i condition)
    (hgroup : m.groupOf i = .ok h) (hbelow : m.Has k below h)
    (hstore : below.convention = t.convention) (hnative : native.backend = t.store.backend) :
    Runs (Rule.Fails known m)
      (discard (Action.transformTo (t.pushed root (.filter k condition) native)) : Action Unit)
      ⟨m, [r, k], []⟩ fun _ f => f.Proper known m := by
  have hfilter : root.kind ∈ [RelKind.filter, .project, .aggregate, .sort] := by
    rw [Node.kind, hop]
    exact List.mem_cons_self
  have hinputs : root.inputs = [i] := by rw [Node.inputs, hop]; rfl
  have hoffer : m.Offer known (t.pushed root (.filter k condition) native) (some g) := by
    have hpushed :=
      Memo.Offer.pushed hknown hroot hlogical hfilter hinputs hgroup hbelow hstore hnative
    rwa [hop] at hpushed
  have hk : ∀ j ∈ [k], j.n < m.size := fun j hj => List.mem_singleton.mp hj ▸ hbelow.lt_size
  refine Runs.discard ?_
  exact (Action.transformTo_runs Rule.fails_full (Firing.proper_start known hm [r, k]) rfl hroot
    hoffer hk rfl).imp fun _ _ h => h.1

/-- A filter of which the store takes a part. -/
theorem filter_split_runs (hknown : known t.catalog) (hm : m.WellFormed) (hroot : m.Has r root g)
    (hlogical : root.convention = .logical) (hop : root.op = .filter i condition)
    (hgroup : m.groupOf i = .ok h) (hbelow : m.Has k below h)
    (hstore : below.convention = t.convention) (hnative : native.backend = t.store.backend)
    (part residual : Expr) :
    Runs (Rule.Fails known m) (do
        let p ← Action.register (t.pushed root (.filter k part) native)
        discard (Action.transformTo
          { root.withConvention .enumerable with op := .filter p residual, native := none }) :
        Action Unit)
      ⟨m, [r, k], []⟩ fun _ f => f.Proper known m := by
  have hpart : m.Offer known (t.pushed root (.filter k part) native) none :=
    .part hknown hroot hlogical hop hgroup hbelow hstore hnative
  have hk : ∀ j ∈ [k], j.n < m.size := fun j hj => List.mem_singleton.mp hj ▸ hbelow.lt_size
  have hregister := Action.register_runs (E := Rule.Fails known m) Rule.fails_full
    (Firing.proper_start known hm [r, k]) hpart hk
  apply hregister.bind
  intro p f hf
  rcases hf with ⟨hproper, hmatched, hgrown⟩
  have hroot' := hgrown.grows.has hm hroot
  have hoffer : f.memo.Offer known { root.withConvention .enumerable with
      op := .filter p residual, native := none } (some _) :=
    .residual hknown hroot' hlogical hop (hgrown.grows.groupOf hm hgroup)
      (hgrown.grows.has hm hbelow) hstore hgrown.keeps
  have hp : p.n < f.memo.size := hgrown.keeps.lt_size
  refine Runs.discard ?_
  exact (Action.transformTo_runs Rule.fails_full hproper (by rw [hmatched]; rfl) hroot' hoffer
    (by simpa [Node.inputs, RelOp.inputs] using hp) rfl).imp fun _ _ h => h.1

end

theorem filterRule_sound (hknown : known t.catalog) : t.filterRule.Sound known := by
  refine Rule.sound_of_over rfl rfl
    fun m r root g i k below h hm hroot haccepts hinputs hgroup hbelow haccepts' => ?_
  obtain ⟨hk, hc, -⟩ := Pattern.accepts_iff.mp haccepts
  obtain ⟨-, hc', -⟩ := Pattern.accepts_iff.mp haccepts'
  have hlogical : root.convention = .logical := hc _ rfl
  have hstore : below.convention = t.convention := hc' _ rfl
  have hstart := Firing.proper_start known hm [r, k]
  refine Runs.after (Action.matchedNode_run rfl hroot.node)
    (Runs.after (Action.matchedId_run rfl) (Runs.after (t := ⟨m, [r, k], []⟩) rfl ?_))
  cases hop : root.op with
  | filter i' condition =>
    obtain rfl : i' = i := by simpa [Node.inputs, hop, RelOp.inputs] using hinputs
    apply Runs.lift_bind (context_ends hknown hm hbelow.lt_size)
    intro ctx _
    cases ctx with
    | none => exact Runs.pure hstart
    | some ctx =>
      have hwrites : ∀ f, (t.dialect.filter condition ctx).native? = some f →
          f.IsClause t.store.backend .filter :=
        (Backend.dialect_writesFor t.store.backend).filter condition ctx
      cases hpush : t.dialect.filter condition ctx with
      | refused reason =>
        simp only [hpush]
        exact Runs.pure hstart
      | full native =>
        have hnative := hwrites native (by rw [hpush]; rfl)
        simp only [hpush]
        exact filter_full_runs hknown hm hroot hlogical hop hgroup hbelow hstore hnative.1
      | split native part residual =>
        have hnative := hwrites native (by rw [hpush]; rfl)
        simp only [hpush]
        exact filter_split_runs hknown hm hroot hlogical hop hgroup hbelow hstore hnative.1 part
          residual
  | _ => exact Runs.pure hstart

end StoreRules.Target

end Polystore
