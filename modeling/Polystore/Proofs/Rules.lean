import Polystore.Proofs.Offers
import Polystore.Proofs.Trimming

/-
  Polystore/Proofs/Rules.lean
  ===========================
  **What each rule does.**  For every rule that comes with the optimizer or with a
  store, whatever its pattern finds in a well-formed memo, its action only enters
  what is offered.  It can fail for two reasons: a table that is scanned is not in
  the catalog, or an aggregate reads fields that its input does not have.  A memo
  in which neither occurs is healthy, and there only the limit on the size of a
  memo is left (`Rule.Standard.sound`).

  The rule that trims aggregates takes the place of the aggregate, so it has to keep
  what it reads, its grouping sets and its row type.  That is said of the two nodes
  which the action enters (`AggregateTrim.action_keeps_aggregate`).
-/

namespace Polystore

open StoreRules

/-! ### Health -/

/-- The catalogs in use have all tables that are scanned, and logical aggregates
    read only what the members of their input's group have. -/
structure Memo.Healthy (known : Catalog → Prop) (m : Memo Float) : Prop where
  tables : ∀ c, known c → ∀ id n t, m.node id = .ok n → n.op = .scan t →
    ∃ row, c.rowType t.id = .ok row
  fields : ∀ {r root g i a h k below}, m.Has r root g → root.convention = .logical →
    root.op = .aggregate i a → m.groupOf i = .ok h → m.Has k below h →
    below.convention = .logical → below.kind ≠ .project → a.ReadsWithin below.row.arity

/-- Where a memo is healthy a rule fails only because the memo gets full. -/
abbrev Rule.Fails (known : Catalog → Prop) (m : Memo Float) (e : Error) : Prop :=
  m.Healthy known → e = Arena.full ∧ m.Overflows known

theorem Rule.fails_full {known : Catalog → Prop} {m : Memo Float} (h : m.Overflows known) :
    Fails known m Arena.full :=
  fun _ => ⟨rfl, h⟩

/-- Whatever the rule's pattern found, in this memo or before it grew, its action
    only enters what is offered, and it fails only in a memo that gets full or is not
    healthy. -/
def Rule.Sound (known : Catalog → Prop) (rule : Rule) : Prop :=
  ∀ (m₀ m : Memo Float), m₀.WellFormed → m.WellFormed → m₀.Extends m →
    ∀ id n, m₀.node id = .ok n →
    Ends (fun _ => False) (rule.pattern.matchesAt m₀ id) fun founds => ∀ found ∈ founds,
      Runs (Rule.Fails known m) rule.action ⟨m, found, []⟩
        fun _ f => f.Proper known m

section

variable {known : Catalog → Prop} {rule : Rule}

theorem Firing.proper_start (known : Catalog → Prop) {m : Memo Float} (hm : m.WellFormed)
    (found : List NodeId) : Firing.Proper known m ⟨m, found, []⟩ :=
  ⟨.refl m, hm, by simp⟩

/-- A rule whose pattern is about one node. -/
theorem Rule.sound_of_leaf (hp : rule.pattern.children = [])
    (h : ∀ (m : Memo Float) r root g, m.WellFormed → m.Has r root g →
      rule.pattern.accepts root = true →
      Runs (Rule.Fails known m) rule.action ⟨m, [r], []⟩
        fun _ f => f.Proper known m) : rule.Sound known := by
  intro m₀ m hm₀ hm hext r root hroot
  obtain ⟨g, hg⟩ := hm₀.exists_groupOf (Arena.lt_size_of_get hroot)
  refine .of_eq (Pattern.matchesAt_leaf hp hroot) ?_
  by_cases haccepts : rule.pattern.accepts root = true
  · simp only [haccepts, if_true, List.mem_singleton, forall_eq]
    exact h m r root _ hm (hext.has hm₀ ⟨hroot, hg⟩) haccepts
  · simp [haccepts]

/-- A rule whose pattern is about a node and a member of its input's group. -/
theorem Rule.sound_of_over {q : Pattern} (hp : rule.pattern.children = [q])
    (hq : q.children = [])
    (h : ∀ (m : Memo Float) r root g i k below h, m.WellFormed → m.Has r root g →
      rule.pattern.accepts root = true → root.inputs = [i] → m.groupOf i = .ok h →
      m.Has k below h → q.accepts below = true →
      Runs (Rule.Fails known m) rule.action
        ⟨m, [r, k], []⟩ fun _ f => f.Proper known m) : rule.Sound known := by
  intro m₀ m hm₀ hm hext r root hroot
  obtain ⟨g, hg⟩ := hm₀.exists_groupOf (Arena.lt_size_of_get hroot)
  apply (Pattern.matchesAt_over hm₀ hp hq hroot).imp
  intro founds hfounds found hfound
  obtain ⟨i, k, below, h', hfinds⟩ := hfounds found hfound
  rw [hfinds.found_eq]
  exact h m r root _ i k below _ hm (hext.has hm₀ ⟨hroot, hg⟩) hfinds.accepts hfinds.inputs
    (hext.groupOf hm₀ hfinds.group) (hext.has hm₀ hfinds.member) hfinds.accepts_below

end

/-! ### Rules without a store -/

section

variable {known : Catalog → Prop}

theorem LocalEngine.rule_runs {kind : RelKind} {E : Error → Prop} (known : Catalog → Prop)
    (hkind : kind ∈ operators) {m : Memo Float} (hfull : m.Overflows known → E Arena.full)
    (hm : m.WellFormed) {r : NodeId} {root : Node} {g : GroupId} (hroot : m.Has r root g)
    (haccepts : (rule kind).pattern.accepts root = true) :
    Runs E (rule kind).action ⟨m, [r], []⟩ fun _ f =>
      f.Proper known m ∧ ∃ q, m.Grown (root.withConvention .enumerable) (some g) q f.memo := by
  obtain ⟨hk, hc, -⟩ := Pattern.accepts_iff.mp haccepts
  have hoffer : m.Offer known (root.withConvention .enumerable) (some g) :=
    .locally hroot (hc _ rfl) ((hk _ rfl).symm ▸ hkind)
  have hinputs : ∀ i ∈ (root.withConvention .enumerable).inputs, i.n < m.size :=
    fun i hi => hm.input_lt hroot.node hi
  have hstart := Firing.proper_start known hm [r]
  refine Runs.after (Action.matchedNode_run rfl hroot.node) (Runs.discard ?_)
  exact (Action.transformTo_runs hfull hstart rfl hroot hoffer hinputs rfl).imp
    fun q _ h => ⟨h.1, q, h.2⟩

theorem LocalEngine.rule_sound {kind : RelKind} (hkind : kind ∈ operators) :
    (rule kind).Sound known := by
  apply Rule.sound_of_leaf rfl
  intro m r root g hm hroot haccepts
  exact (rule_runs known hkind Rule.fails_full hm hroot haccepts).imp fun _ _ h => h.1

theorem FilterMerge.rule_runs {E : Error → Prop} (known : Catalog → Prop) {m : Memo Float}
    (hfull : m.Overflows known → E Arena.full) (hm : m.WellFormed) {r i k j : NodeId}
    {root below : Node} {g h : GroupId} {upper lower : Expr}
    (hroot : m.Has r root g) (hlogical : root.convention = .logical)
    (hop : root.op = .filter i upper) (hgroup : m.groupOf i = .ok h) (hbelow : m.Has k below h)
    (hlogical' : below.convention = .logical) (hop' : below.op = .filter j lower) :
    Runs E rule.action ⟨m, [r, k], []⟩ fun _ f => f.Proper known m ∧
      ∃ q, m.Grown ⟨.filter j (mergedCondition lower upper), root.traits, root.row, none⟩
        (some g) q f.memo := by
  have hstart := Firing.proper_start known hm [r, k]
  have hoffer : m.Offer known _ (some g) :=
    .mergedFilter hroot hlogical hop hgroup hbelow hlogical' hop'
  have hj : j.n < m.size := hm.input_lt hbelow.node (by simp [Node.inputs, hop', RelOp.inputs])
  refine Runs.after (Action.matchedNode_run rfl hroot.node)
    (Runs.after (Action.matchedNode_run rfl hbelow.node) ?_)
  simp only [merged?, hop, hop']
  refine Runs.discard ?_
  exact (Action.transformTo_runs hfull hstart rfl hroot hoffer
    (by simpa [Node.inputs, RelOp.inputs] using hj) rfl).imp fun q _ h => ⟨h.1, q, h.2⟩

theorem Node.exists_filter_of_kind {n : Node} (h : n.kind = .filter) :
    ∃ i condition, n.op = .filter i condition := by
  rw [kind] at h
  cases hop : n.op with
  | filter i condition => exact ⟨i, condition, rfl⟩
  | _ =>
    rw [hop] at h
    cases h

theorem Node.exists_aggregate_of_kind {n : Node} (h : n.kind = .aggregate) :
    ∃ i a, n.op = .aggregate i a := by
  rw [kind] at h
  cases hop : n.op with
  | aggregate i a => exact ⟨i, a, rfl⟩
  | _ =>
    rw [hop] at h
    cases h

/-- A node that the pattern takes for a logical filter is one. -/
theorem Pattern.exists_filter {p : Pattern} {n : Node} (hkind : p.kind = some .filter)
    (hconvention : p.convention = some .logical) (h : p.accepts n = true) :
    n.convention = .logical ∧ ∃ i condition, n.op = .filter i condition := by
  obtain ⟨hk, hc, -⟩ := Pattern.accepts_iff.mp h
  exact ⟨hc _ hconvention, n.exists_filter_of_kind (hk _ hkind)⟩

theorem FilterMerge.rule_sound : rule.Sound known := by
  refine Rule.sound_of_over rfl rfl
    fun m r root g i k below h hm hroot haccepts hinputs hgroup hbelow haccepts' => ?_
  obtain ⟨hlogical, i', upper, hop⟩ := Pattern.exists_filter rfl rfl haccepts
  obtain ⟨hlogical', j, lower, hop'⟩ := Pattern.exists_filter rfl rfl haccepts'
  obtain rfl : i' = i := by simpa [Node.inputs, hop, RelOp.inputs] using hinputs
  exact (rule_runs known Rule.fails_full hm hroot hlogical hop hgroup hbelow hlogical' hop').imp
    fun _ _ h => h.1

namespace AggregateTrim

/-- What the action does with an aggregate and a member of its input's group. -/
theorem action_run {F : Firing} {r k i : NodeId} {top input : Node} {a : Aggregation}
    (hmatched : F.matched = [r, k]) (htop : F.memo.node r = .ok top)
    (hinput : F.memo.node k = .ok input) (hop : top.op = .aggregate i a) :
    action.run F = (if (usedFields a).card = input.row.arity then pure () else do
      let p ← Action.register (← (projection (usedFields a) k input.row : Except Error Node))
      let a' ← (trimmed (usedFields a) a : Except Error Aggregation)
      discard (Action.transformTo ⟨.aggregate p a', top.traits, top.row, none⟩) :
        Action Unit).run F := by
  have hfirst : F.matched[0]? = some r := by rw [hmatched]; rfl
  have hsecond : F.matched[1]? = some k := by rw [hmatched]; rfl
  rw [action, Action.bind_run (Action.matchedNode_run hfirst htop),
    Action.bind_run (Action.matchedId_run hsecond),
    Action.bind_run (Action.matchedNode_run hsecond hinput)]
  simp only [hop, ne_eq, ite_not]

theorem rule_sound : rule.Sound known := by
  refine Rule.sound_of_over rfl rfl
    fun m r root g i k below h hm hroot haccepts hinputs hgroup hbelow haccepts' => ?_
  obtain ⟨hk, hc, -⟩ := Pattern.accepts_iff.mp haccepts
  obtain ⟨-, hc', hguard⟩ := Pattern.accepts_iff.mp haccepts'
  have hlogical : root.convention = .logical := hc _ rfl
  have hlogical' : below.convention = .logical := hc' _ rfl
  have hkind : below.kind ≠ .project := of_decide_eq_true (hguard _ rfl)
  obtain ⟨i', a, hop⟩ := root.exists_aggregate_of_kind (hk _ rfl)
  obtain rfl : i' = i := by simpa [Node.inputs, hop, RelOp.inputs] using hinputs
  have hstart := Firing.proper_start known hm [r, k]
  refine Runs.congr (action_run rfl hroot.node hbelow.node hop) ?_
  split
  · exact Runs.pure hstart
  -- in a healthy memo neither remapping fails
  have ha : m.Healthy known → a.ReadsWithin below.row.arity :=
    fun hhealthy => hhealthy.fields hroot hlogical hop hgroup hbelow hlogical' hkind
  refine Runs.lift_bind (Ends.provided fun hhealthy => exists_projection (ha hhealthy) k)
    fun n hn => ?_
  have hinputs' : ∀ j ∈ n.inputs, j.n < m.size := by
    rw [(projection_inputs hn).1]
    intro j hj
    exact List.mem_singleton.mp hj ▸ hbelow.lt_size
  have hregister := Action.register_runs (E := Rule.Fails known m)
    Rule.fails_full hstart
    (.projection hroot hlogical hop hgroup hbelow hlogical' hkind hn) hinputs'
  apply hregister.bind
  intro p f hf
  rcases hf with ⟨hproper, hmatched, hgrown⟩
  refine Runs.lift_bind (Ends.provided fun hhealthy => ⟨_, trimmed_eq (ha hhealthy).sets⟩)
    fun a' ha' => ?_
  have hroot' := hgrown.grows.has hm hroot
  have hbelow' := hgrown.grows.has hm hbelow
  have hoffer : f.memo.Offer known ⟨.aggregate p a', root.traits, root.row, none⟩ (some _) :=
    .trimmed hroot' hlogical hop (hgrown.grows.groupOf hm hgroup) hbelow' hlogical' hkind hn
      hgrown.keeps ha'
  have hp : p.n < f.memo.size := hgrown.keeps.lt_size
  refine Runs.discard ?_
  exact (Action.transformTo_runs Rule.fails_full hproper (by rw [hmatched]; rfl) hroot' hoffer
    (by simpa [Node.inputs, RelOp.inputs] using hp) rfl).imp fun _ _ h => h.1

/-- What the rule registers and transforms to keeps the aggregate.  The action does nothing
    if all fields are read.  Otherwise it registers a projection and transforms the root to
    an aggregate over it.  With every field by its place in the projection, the grouping
    sets are valid and have their shape, the aggregate reads the values that it read, and
    it has the row type that it had. -/
theorem action_keeps_aggregate {F : Firing} {r k i : NodeId} {top input : Node} {a : Aggregation}
    (hmatched : F.matched = [r, k]) (htop : F.memo.node r = .ok top)
    (hinput : F.memo.node k = .ok input) (hop : top.op = .aggregate i a)
    (hvalid : Grouping.validate a.key a.sets = .ok ())
    (hrange : ∀ i, a.Reads i → i < input.row.arity) :
    ∃ (below : Node) (exprs : List Expr) (f : Nat → Nat) (a' : Aggregation),
      rule.action.run F = (if (usedFields a).card = input.row.arity then pure () else do
        let p ← Action.register below
        discard (Action.transformTo ⟨.aggregate p a', top.traits, top.row, none⟩) :
          Action Unit).run F ∧
      projection (usedFields a) k input.row = .ok below ∧ below.op = .project k exprs ∧
      trimmed (usedFields a) a = .ok a' ∧ a' = a.renumber f ∧
      Grouping.validate a'.key a'.sets = .ok () ∧
      Grouping.classify a'.key a'.sets = Grouping.classify a.key a.sets ∧
      (∀ i, a.Reads i → place (usedFields a) i = .ok (f i)) ∧
      (∀ values params : List Value, values.length = input.row.arity →
        ∃ out, exprs.mapM (Expr.eval values params) = .ok out ∧
          ∀ i, a.Reads i → out[f i]? = values[i]?) ∧
      ∃ out, a.rowType input.row = .ok out ∧ a'.rowType below.row = .ok out := by
  obtain ⟨below, exprs, f, a', hbelow, hexprs, ha', hkeeps⟩ :=
    trimmed_keeps_aggregate k hvalid hrange
  refine ⟨below, exprs, f, a', ?_, hbelow, hexprs, ha', hkeeps⟩
  change action.run F = _
  rw [action_run hmatched htop hinput hop]
  by_cases hcard : (usedFields a).card = input.row.arity
  · rw [if_pos hcard, if_pos hcard]
  · rw [if_neg hcard, if_neg hcard, Action.lift_run hbelow, StateT.run_bind, StateT.run_bind]
    exact bind_congr fun _ => Action.lift_run ha'

/-- Rows of a sale: number, region, price, note, city, paid. -/
def saleRow : RowType :=
  ⟨[⟨"id", .bigint, false⟩, ⟨"region", .string, true⟩, ⟨"price", .double, true⟩,
    ⟨"note", .string, true⟩, ⟨"city", .string, false⟩, ⟨"paid", .bool, false⟩]⟩

/-- Prices of the paid sales by region and city, rolled up. -/
def salesByCity : Aggregation where
  key := .ofList [1, 4]
  sets := [.ofList [1, 4], .ofList [1], .empty]
  calls := [⟨.sum, [2], false, some 5, [⟨4, .descending, .last⟩], .double, none⟩,
    ⟨.count, [], false, none, [], .bigint, some "sales"⟩]
  indicator := true

/-- The sales, scanned. -/
def sales : Node := ⟨.scan ⟨⟨1⟩, "shop", "sales", none⟩, {}, saleRow, none⟩

def groupedSales : Node where
  op := .aggregate ⟨0⟩ salesByCity
  traits := {}
  row := ⟨[⟨"region", .string, true⟩, ⟨"city", .string, true⟩, ⟨"i$region", .bool, false⟩,
    ⟨"i$city", .bool, false⟩, ⟨"$f4", .double, true⟩, ⟨"sales", .bigint, false⟩]⟩

/-- The memo in which the sales are scanned. -/
def scannedSales : Memo Float :=
  (({ defaultRows := 100 } : Memo Float).openGroup (estimateRows sales [] 100)).2.entered sales
    (Memo.digestText sales []) ⟨0⟩

/-- The memo in which they are grouped. -/
def salesMemo : Memo Float :=
  (scannedSales.openGroup (estimateRows groupedSales [scannedSales.rows ⟨0⟩] 100)).2.entered
    groupedSales (Memo.digestText groupedSales [⟨0⟩]) ⟨1⟩

/-- The aggregate over a projection to region, price, city and paid. -/
def trimmedSales : Aggregation where
  key := .ofList [0, 2]
  sets := [.ofList [0, 2], .ofList [0], .empty]
  calls := [⟨.sum, [1], false, some 3, [⟨2, .descending, .last⟩], .double, none⟩,
    ⟨.count, [], false, none, [], .bigint, some "sales"⟩]
  indicator := true

theorem insert_sales :
    ({ defaultRows := 100 } : Memo Float).insert sales none = .ok (⟨0⟩, scannedSales) := by
  rfl

theorem insert_groupedSales : scannedSales.insert groupedSales none = .ok (⟨1⟩, salesMemo) := by
  have hne : Memo.digestText sales [] ≠ Memo.digestText groupedSales [⟨0⟩] := by decide +kernel
  have hnone : scannedSales.digests[Memo.digestText groupedSales [⟨0⟩]]? = none := by
    simp [scannedSales, Memo.entered, Memo.openGroup, hne]
  refine except_bind_eq_ok.mpr ⟨Memo.digestText groupedSales [⟨0⟩], rfl, ?_⟩
  rw [hnone]
  rfl

theorem reads_lt_arity {i : Nat} (h : salesByCity.Reads i) : i < sales.row.arity := by
  have hall : ∀ i ∈ (usedFields salesByCity).toList, i < sales.row.arity := by decide
  exact hall i ((OrdinalSet.mem_toList _ i).mpr (usedFields_contains.mpr h))

theorem action_keeps_aggregate_rollup : ∃ below exprs,
    ({ defaultRows := 100 } : Memo Float).insert sales none = .ok (⟨0⟩, scannedSales) ∧
    scannedSales.insert groupedSales none = .ok (⟨1⟩, salesMemo) ∧
    (rule.action.run ⟨salesMemo, [⟨1⟩, ⟨0⟩], []⟩).toOption.map (·.2.produced) = some [⟨2⟩, ⟨3⟩] ∧
    rule.action.run ⟨salesMemo, [⟨1⟩, ⟨0⟩], []⟩ = (do
      let p ← Action.register below
      discard (Action.transformTo ⟨.aggregate p trimmedSales, {}, groupedSales.row, none⟩) :
        Action Unit).run ⟨salesMemo, [⟨1⟩, ⟨0⟩], []⟩ ∧
    below.op = .project ⟨0⟩ exprs ∧
    Grouping.classify trimmedSales.key trimmedSales.sets = .ok .rollup ∧
    trimmedSales.rowType below.row = .ok groupedSales.row := by
  have hproduced : (rule.action.run ⟨salesMemo, [⟨1⟩, ⟨0⟩], []⟩).toOption.map (·.2.produced) =
      some [⟨2⟩, ⟨3⟩] := by
    decide +kernel
  have htop : salesMemo.node ⟨1⟩ = .ok groupedSales := rfl
  have hinput : salesMemo.node ⟨0⟩ = .ok sales := rfl
  have hvalid : Grouping.validate salesByCity.key salesByCity.sets = .ok () := rfl
  obtain ⟨below, exprs, f, a', hrun, -, hexprs, ha', -, -, hshape, -, -, out, hout, hrow⟩ :=
    action_keeps_aggregate (F := ⟨salesMemo, [⟨1⟩, ⟨0⟩], []⟩) rfl htop hinput rfl hvalid
      fun i hi => reads_lt_arity hi
  have htrimmed : trimmed (usedFields salesByCity) salesByCity = .ok trimmedSales := by decide
  obtain rfl : trimmedSales = a' := Except.ok.inj (htrimmed.symm.trans ha')
  have hgrouped : salesByCity.rowType sales.row = .ok groupedSales.row := by rfl
  obtain rfl : groupedSales.row = out := Except.ok.inj (hgrouped.symm.trans hout)
  have hcard : (usedFields salesByCity).card ≠ sales.row.arity := by decide
  rw [if_neg hcard] at hrun
  have hrollup : Grouping.classify salesByCity.key salesByCity.sets = .ok .rollup := by rfl
  exact ⟨below, exprs, insert_sales, insert_groupedSales, hproduced, hrun, hexprs,
    hshape.trans hrollup, hrow⟩

end AggregateTrim

end

end Polystore
