import Polystore.Proofs.Layouts
import Polystore.Proofs.StoreQueries

/-
  Polystore/Proofs/Fallback.lean
  ==============================
  **There is always a local plan.**  What the rules offer fits the layout of a
  built plan, so no rule fails and every group keeps its level.  When nothing
  changes any more, each logical node has a twin in its group that runs locally,
  and by induction on the nodes the local engine can deliver every group with a
  logical member (`Plan.optimize_fallback`).
-/

namespace Polystore

open StoreRules

/-! ### Places of operators -/

namespace Outline

variable {o : Outline} {known : TableRef → Prop} {n : Node} {inputs : List Place}
  {place below : Place}

/-- A node of an engine fits where its operator does. -/
theorem Fits.of_physical (hplace : o.place? n.kind inputs = some place)
    (hrow : ∀ j, place = .level j → n.row = o.row j) (htable : ∀ t, n.op = .scan t → known t)
    (hc : n.convention ≠ .logical) : o.Fits known n inputs place :=
  ⟨hplace, hrow, htable, fun _ _ _ h => absurd h hc, fun h => absurd h hc⟩

theorem over?_filter (h : o.over? .filter below = some place) :
    ∃ j, below = .level j ∧ place = .level j := by
  cases below with
  | level j =>
    obtain rfl := Option.some.inj h
    exact ⟨j, rfl, rfl⟩
  | trimmed j => cases h

theorem over?_aggregate (h : o.over? .aggregate below = some place) :
    ∃ j, (below = .level j ∨ below = .trimmed j) ∧ place = .level (j + 1) := by
  cases below with
  | level j =>
    obtain rfl := Option.some.inj h
    exact ⟨j, .inl rfl, rfl⟩
  | trimmed j =>
    obtain rfl := Option.some.inj h
    exact ⟨j, .inr rfl, rfl⟩

/-- Only projections and converters stand on a trimmed level. -/
theorem kind_of_trimmed {kind : RelKind} {j : Nat} (h : o.place? kind inputs = some (.trimmed j)) :
    kind = .project ∨ kind = .converter := by
  match inputs with
  | [] =>
    rw [place?] at h
    split at h <;> cases h
  | _ :: _ :: _ => cases h
  | [place] =>
    cases kind with
    | project => exact .inl rfl
    | converter => exact .inr rfl
    | _ => cases place <;> cases h

end Outline

theorem Convention.eq_logical_of_rank {c : Convention} (h : c.rank = Convention.logical.rank) :
    c = .logical := by
  cases c with
  | logical => rfl
  | enumerable => cases h
  | store b name =>
    rw [rank, rank] at h
    omega

theorem Convention.eq_enumerable_of_rank {c : Convention}
    (h : c.rank = Convention.enumerable.rank) : c = .enumerable := by
  cases c with
  | logical => cases h
  | enumerable => rfl
  | store b name =>
    rw [rank, rank] at h
    omega

/-! ### What is offered fits -/

/-- The memo has a place for a node.  The node fits there, the group that it is meant for
    has this place, and a logical node stands on logical ones. -/
structure Memo.HasPlace {α : Type} (m : Memo α) (o : Outline) (known : TableRef → Prop)
    (place : GroupId → Place) (n : Node) (target : Option GroupId) (gs : List GroupId)
    (at_ : Place) : Prop where
  fits : o.Fits known n (gs.map place) at_
  target : ∀ g, target = some g → place (m.find g) = at_
  logical : n.convention = .logical →
    ∀ i ∈ n.inputs, ∃ k, m.node i = .ok k ∧ k.convention = .logical

namespace Memo.LaidOut

variable {m m' : Memo Float} {o : Outline} {known : TableRef → Prop} {stores : Catalog → Prop}
  {place : GroupId → Place}

/-- The input of a logical aggregate that is not trimmed yet. -/
theorem exists_level (h : m.LaidOut o known place) (hm : m.WellFormed) {r i k : NodeId}
    {root below : Node} {g g' : GroupId} {a : Aggregation} (hroot : m.Has r root g)
    (hlogical : root.convention = .logical) (hop : root.op = .aggregate i a)
    (hinput : m.groupOf i = .ok g') (hbelow : m.Has k below g')
    (hlogical' : below.convention = .logical) (hkind : below.kind ≠ .project) :
    ∃ j, place g' = .level j ∧ place g = .level (j + 1) ∧ o.aggregation j = some a ∧
      below.row = o.row j := by
  have hinputs : root.inputs = [i] := by simp [Node.inputs, hop, RelOp.inputs]
  have hfits := h.fits.over hroot hinputs hinput
  have hplace := hfits.place_eq
  rw [Node.kind, hop] at hplace
  obtain ⟨j, hj, hnext⟩ := Outline.over?_aggregate hplace
  obtain ⟨hs, hhs⟩ := hm.exists_inputGroups hbelow.node
  have hbelowFits := h.fits k below g' hs hbelow hhs
  rcases hj with hj | hj
  · refine ⟨j, hj, hnext, hfits.aggregation i a j hlogical hop (by rw [hj]), hbelowFits.row j hj⟩
  · have htrimmed := hbelowFits.place_eq
    rw [hj] at htrimmed
    rcases Outline.kind_of_trimmed htrimmed with hproject | hconverter
    · exact absurd hproject hkind
    · exact absurd hconverter (hbelowFits.kind hlogical')

theorem healthy (hm : m.WellFormed) (h : m.LaidOut o known place)
    (hstores : ∀ c, stores c → ∀ t, known t → ∃ row, c.rowType t.id = .ok row) :
    m.Healthy stores where
  tables := by
    intro c hc id n t hn hop
    obtain ⟨n', g, hid⟩ := hm.exists_has (Arena.lt_size_of_get hn)
    obtain rfl : n = n' := Except.ok.inj (hn.symm.trans hid.node)
    obtain ⟨gs, hgs⟩ := hm.exists_inputGroups hn
    exact hstores c hc t ((h.fits id n g gs hid hgs).table t hop)
  fields {r root g i a g' k below} hroot hlogical hop hinput hbelow hlogical' hkind := by
    obtain ⟨j, -, -, ha, hrow⟩ :=
      h.exists_level hm hroot hlogical hop hinput hbelow hlogical' hkind
    rw [hrow]
    exact o.reads j a ha

theorem place_trimmed {j : Nat} {a : Aggregation} (ha : o.aggregation j = some a) :
    o.place? .project [.level j] = some (.trimmed j) := by
  simp [Outline.place?, Outline.over?, ha]

theorem place_find (hm : m.WellFormed) {r : NodeId} {root : Node} {g : GroupId}
    (hroot : m.Has r root g) : ∀ g', some g = some g' → place (m.find g') = place g := by
  rintro _ ⟨⟩
  rw [hm.find_of_groupOf hroot.group]

section

variable {r i k : NodeId} {root below : Node} {g g' : GroupId} {gs : List GroupId}

/-- An equivalent for an engine has the place of its group if it is one of the same rows. -/
theorem hasPlace_physical (hm : m.WellFormed) (h : m.LaidOut o known place) {n : Node}
    (hroot : m.Has r root g) (hplace : o.place? n.kind (gs.map place) = some (place g))
    (hrow : n.row = root.row) (htable : ∀ t, n.op = .scan t → root.op = .scan t)
    (hc : n.convention ≠ .logical) : m.HasPlace o known place n (some g) gs (place g) where
  fits := by
    obtain ⟨hs, hhs⟩ := hm.exists_inputGroups hroot.node
    have hfits := h.fits r root g hs hroot hhs
    exact .of_physical hplace (fun j hj => hrow.trans (hfits.row j hj))
      (fun t ht => hfits.table t (htable t ht)) hc
  target := place_find hm hroot
  logical hlogical := absurd hlogical hc

/-- A filter is on the level of its input. -/
theorem filter_level (h : m.LaidOut o known place) {condition : Expr} (hroot : m.Has r root g)
    (hop : root.op = .filter i condition) (hinput : m.groupOf i = .ok g') :
    ∃ j, place g' = .level j ∧ place g = .level j := by
  have hinputs : root.inputs = [i] := by simp [Node.inputs, hop, RelOp.inputs]
  have hplace := (h.fits.over hroot hinputs hinput).place_eq
  rw [Node.kind, hop] at hplace
  exact Outline.over?_filter hplace

/-- An operator that is run as it stands. -/
theorem hasPlace_same (hm : m.WellFormed) (h : m.LaidOut o known place) {n : Node}
    (hroot : m.Has r root g) (hgs : root.inputs.mapM m.groupOf = .ok gs) (hop : n.op = root.op)
    (hrow : n.row = root.row) (hc : n.convention ≠ .logical) :
    m.HasPlace o known place n (some g) gs (place g) := by
  refine hasPlace_physical hm h hroot ?_ hrow (fun t ht => hop ▸ ht) hc
  rw [Node.kind, hop]
  exact (h.fits r root g gs hroot hgs).place_eq

theorem hasPlace_mergedFilter (hm : m.WellFormed) (h : m.LaidOut o known place) {j : NodeId}
    {upper lower : Expr} (hroot : m.Has r root g) (hop : root.op = .filter i upper)
    (hinput : m.groupOf i = .ok g') (hbelow : m.Has k below g')
    (hlogical : below.convention = .logical) (hop' : below.op = .filter j lower)
    (hgs : [j].mapM m.groupOf = .ok gs) (condition : Expr) :
    m.HasPlace o known place ⟨.filter j condition, root.traits, root.row, none⟩ (some g) gs
      (place g) := by
  have hinputs : below.inputs = [j] := by simp [Node.inputs, hop', RelOp.inputs]
  obtain ⟨gj, hj⟩ := hm.exists_groupOf (hm.input_lt hbelow.node (i := j) (by simp [hinputs]))
  obtain rfl := mapM_singleton hgs hj
  obtain ⟨l, hl, hl'⟩ := h.filter_level hroot hop hinput
  obtain ⟨l', hj', hsame⟩ := h.filter_level hbelow hop' hj
  obtain rfl : l = l' := Place.level.inj (hl.symm.trans hsame)
  obtain ⟨hs, hhs⟩ := hm.exists_inputGroups hroot.node
  have hfits := h.fits r root g hs hroot hhs
  refine ⟨⟨?_, hfits.row, by rintro t ⟨⟩, by rintro i a j - ⟨⟩,
    fun _ => by simp [Node.kind, RelOp.kind]⟩, place_find hm hroot, fun _ i' hi' => ?_⟩
  · rw [List.map_singleton, hj', hl']
    rfl
  · obtain rfl : i' = j := by simpa [Node.inputs, RelOp.inputs] using hi'
    exact h.logical k below hbelow.node hlogical i' (by simp [hinputs])

/-- A projection to the fields that an aggregate reads is between two levels. -/
theorem hasPlace_projection {n : Node} {a : Aggregation} {j : Nat} (hbelow : m.Has k below g')
    (hlogical : below.convention = .logical) (hj : place g' = .level j)
    (ha : o.aggregation j = some a)
    (hn : AggregateTrim.projection (AggregateTrim.usedFields a) k below.row = .ok n)
    (hgs : n.inputs.mapM m.groupOf = .ok gs) :
    m.HasPlace o known place n none gs (.trimmed j) := by
  obtain ⟨hinputs, hproject, -⟩ := AggregateTrim.projection_inputs hn
  rw [hinputs] at hgs
  obtain rfl := mapM_singleton hgs hbelow.group
  refine ⟨⟨?_, by rintro _ ⟨⟩, fun t ht => ?_, fun i' a' j' _ ha' => ?_,
    fun _ => by simp [hproject]⟩, by simp, fun _ i' hi' => ?_⟩
  · rw [List.map_singleton, hj, hproject]
    exact place_trimmed ha
  · simp [Node.kind, ht, RelOp.kind] at hproject
  · simp [Node.kind, ha', RelOp.kind] at hproject
  · rw [hinputs] at hi'
    obtain rfl := List.mem_singleton.mp hi'
    exact ⟨below, hbelow.node, hlogical⟩

/-- The aggregate over the projection is on the level of the aggregate over all fields. -/
theorem hasPlace_trimmed (hm : m.WellFormed) (h : m.LaidOut o known place) {n : Node} {p : NodeId}
    {a : Aggregation} {j : Nat} (hroot : m.Has r root g) (hbelow : m.Has k below g')
    (hj : place g' = .level j) (hnext : place g = .level (j + 1)) (ha : o.aggregation j = some a)
    (hn : AggregateTrim.projection (AggregateTrim.usedFields a) k below.row = .ok n)
    (hkeeps : m.Keeps n p) (hgs : [p].mapM m.groupOf = .ok gs) (a' : Aggregation) :
    m.HasPlace o known place ⟨.aggregate p a', root.traits, root.row, none⟩ (some g) gs
      (place g) := by
  obtain ⟨hinputs, hproject, hc⟩ := AggregateTrim.projection_inputs hn
  obtain ⟨gp, hgp⟩ := hm.exists_groupOf hkeeps.lt_size
  have htrimmed : place gp = .trimmed j := by
    have hsingle : n.inputs.mapM m.groupOf = .ok [g'] := by
      rw [hinputs]
      exact mapM_eq_ok.mpr (.cons hbelow.group .nil)
    have hplace := h.place_of_keeps hkeeps hgp hsingle
    rw [List.map_singleton, hj, hproject, place_trimmed ha] at hplace
    exact (Option.some.inj hplace).symm
  obtain rfl := mapM_singleton hgs hgp
  obtain ⟨hs, hhs⟩ := hm.exists_inputGroups hroot.node
  have hfits := h.fits r root g hs hroot hhs
  refine ⟨⟨?_, hfits.row, by rintro t ⟨⟩, fun i' a'' j' _ _ hlevel => ?_,
    fun _ => by simp [Node.kind, RelOp.kind]⟩, place_find hm hroot, fun _ i' hi' => ?_⟩
  · rw [List.map_singleton, htrimmed, hnext]
    rfl
  · rw [List.map_singleton, htrimmed] at hlevel
    cases hlevel
  · obtain rfl : i' = p := by simpa [Node.inputs, RelOp.inputs] using hi'
    obtain ⟨kept, -, hkept, -, hrank, -⟩ := hkeeps.exists_alike
    exact ⟨kept, hkept, Convention.eq_logical_of_rank (hrank.trans (by rw [hc]))⟩

/-- An operator that a store runs over a member of the group of its input. -/
theorem hasPlace_pushed (hm : m.WellFormed) (h : m.LaidOut o known place) (t : Target)
    (f : Fragment) (hroot : m.Has r root g) (hscan : root.kind ≠ .scan) (hop : root.inputs = [i])
    (hinput : m.groupOf i = .ok g') (hbelow : m.Has k below g')
    (hgs : (t.pushed root (root.op.withInputs [k]) f).inputs.mapM m.groupOf = .ok gs) :
    m.HasPlace o known place (t.pushed root (root.op.withInputs [k]) f) (some g) gs (place g) := by
  have hkind : (t.pushed root (root.op.withInputs [k]) f).kind = root.kind := RelOp.kind_withInputs
  have hlength : [k].length = root.op.inputs.length := by
    rw [show root.op.inputs = [i] from hop]
    rfl
  rw [show (t.pushed root (root.op.withInputs [k]) f).inputs = [k] from
    RelOp.inputs_withInputs hlength] at hgs
  obtain rfl := mapM_singleton hgs hbelow.group
  refine hasPlace_physical hm h hroot ?_ rfl (fun t' ht => ?_) (by rintro ⟨⟩)
  · rw [hkind]
    exact (h.fits.over hroot hop hinput).place_eq
  · rw [← hkind, Node.kind, ht] at hscan
    exact absurd rfl hscan

/-- The part of a filter that a store takes gets a group of its own on the same level. -/
theorem hasPlace_part (h : m.LaidOut o known place) (t : Target) (f : Fragment)
    {condition : Expr} (hroot : m.Has r root g) (hop : root.op = .filter i condition)
    (hinput : m.groupOf i = .ok g') (hbelow : m.Has k below g')
    (hgs : [k].mapM m.groupOf = .ok gs) (part : Expr) :
    m.HasPlace o known place (t.pushed root (.filter k part) f) none gs (place g) := by
  have hinputs : root.inputs = [i] := by simp [Node.inputs, hop, RelOp.inputs]
  have hfits := h.fits.over hroot hinputs hinput
  have hplace := hfits.place_eq
  rw [Node.kind, hop] at hplace
  obtain rfl := mapM_singleton hgs hbelow.group
  exact ⟨.of_physical hplace hfits.row (by rintro _ ⟨⟩) (by rintro ⟨⟩), by simp, by rintro ⟨⟩⟩

/-- The rest of the filter stands on that part, in the group of the whole filter. -/
theorem hasPlace_residual (hm : m.WellFormed) (h : m.LaidOut o known place) (t : Target)
    (f : Fragment) {p : NodeId} {condition part : Expr} (hroot : m.Has r root g)
    (hop : root.op = .filter i condition) (hinput : m.groupOf i = .ok g')
    (hbelow : m.Has k below g') (hkeeps : m.Keeps (t.pushed root (.filter k part) f) p)
    (hgs : [p].mapM m.groupOf = .ok gs) (rest : Expr) :
    m.HasPlace o known place
      { root.withConvention .enumerable with op := .filter p rest, native := none } (some g) gs
      (place g) := by
  obtain ⟨l, hl, hl'⟩ := h.filter_level hroot hop hinput
  obtain ⟨gp, hgp⟩ := hm.exists_groupOf hkeeps.lt_size
  have hpart : place gp = .level l := by
    have hsingle : (t.pushed root (.filter k part) f).inputs.mapM m.groupOf = .ok [g'] :=
      mapM_eq_ok.mpr (.cons hbelow.group .nil)
    have hplace := h.place_of_keeps hkeeps hgp hsingle
    rw [List.map_singleton, hl] at hplace
    exact (Option.some.inj hplace).symm
  obtain rfl := mapM_singleton hgs hgp
  refine hasPlace_physical hm h hroot ?_ rfl (by rintro _ ⟨⟩) (by rintro ⟨⟩)
  rw [List.map_singleton, hpart, hl']
  rfl

/-- Rows that are taken over stay on their level. -/
theorem hasPlace_convert (hm : m.WellFormed) (h : m.LaidOut o known place) (c : Convention)
    (hroot : m.Has r root g) (hgs : [r].mapM m.groupOf = .ok gs) :
    m.HasPlace o known place
      { root.withConvention .enumerable with op := .converter r c, native := none } (some g) gs
      (place g) := by
  obtain rfl := mapM_singleton hgs hroot.group
  exact hasPlace_physical hm h hroot rfl rfl (by rintro _ ⟨⟩) (by rintro ⟨⟩)

end

/-- There is a place for whatever is offered. -/
theorem hasPlace_of_offer (hm : m.WellFormed) (h : m.LaidOut o known place) {n : Node}
    {target : Option GroupId} {gs : List GroupId} (hoffer : m.Offer stores n target)
    (hgs : n.inputs.mapM m.groupOf = .ok gs) :
    ∃ at_, m.HasPlace o known place n target gs at_ := by
  cases hoffer with
  | locally hroot => exact ⟨_, hasPlace_same hm h hroot hgs rfl rfl (by rintro ⟨⟩)⟩
  | mergedFilter hroot _ hop hinput hbelow hlogical' hop' =>
    exact ⟨_, hasPlace_mergedFilter hm h hroot hop hinput hbelow hlogical' hop' hgs _⟩
  | projection hroot hlogical hop hinput hbelow hlogical' hkind hn =>
    obtain ⟨j, hj, -, ha, -⟩ := h.exists_level hm hroot hlogical hop hinput hbelow hlogical' hkind
    exact ⟨_, hasPlace_projection hbelow hlogical' hj ha hn hgs⟩
  | trimmed hroot hlogical hop hinput hbelow hlogical' hkind hn hkeeps =>
    obtain ⟨j, hj, hnext, ha, -⟩ :=
      h.exists_level hm hroot hlogical hop hinput hbelow hlogical' hkind
    exact ⟨_, hasPlace_trimmed hm h hroot hbelow hj hnext ha hn hkeeps hgs _⟩
  | scan _ hroot _ hop => exact ⟨_, hasPlace_same hm h hroot hgs rfl rfl (by rintro ⟨⟩)⟩
  | pushed _ hroot _ hkind hop hinput hbelow =>
    have hscan : ∀ kind ∈ [RelKind.filter, .project, .aggregate, .sort], kind ≠ .scan := by decide
    exact ⟨_, hasPlace_pushed hm h _ _ hroot (hscan _ hkind) hop hinput hbelow hgs⟩
  | part _ hroot _ hop hinput hbelow =>
    exact ⟨_, h.hasPlace_part _ _ hroot hop hinput hbelow hgs _⟩
  | residual _ hroot _ hop hinput hbelow _ hkeeps =>
    exact ⟨_, hasPlace_residual hm h _ _ hroot hop hinput hbelow hkeeps hgs _⟩
  | convert _ hroot => exact ⟨_, hasPlace_convert hm h _ hroot hgs⟩

theorem steps (hm : m.WellFormed) (h : ∃ place, m.LaidOut o known place)
    (hsteps : m.Steps stores m') : ∃ place, m'.LaidOut o known place := by
  refine hsteps.preserves (P := fun m => ∃ place, m.LaidOut o known place) hm ?_ h
  intro m₁ m₂ n gs target id hm₁ hlaid hoffer hgs htarget hinserted
  rcases hlaid with ⟨place, hlaid⟩
  obtain ⟨at_, hplace⟩ := hlaid.hasPlace_of_offer hm₁ hoffer hgs
  obtain ⟨place', hlaid', -⟩ :=
    hlaid.insert hm₁ hgs htarget hplace.fits hplace.target hplace.logical hinserted
  exact ⟨place', hlaid'⟩

end Memo.LaidOut

/-! ### Local twins -/

/-- A node has a twin in its group that runs locally, or one that cannot be told
    from it. -/
def Memo.RunsLocally (m : Memo Float) (r : NodeId) : Prop :=
  ∃ root q g, m.Has r root g ∧ m.Keeps (root.withConvention .enumerable) q ∧ m.groupOf q = .ok g

theorem Memo.RunsLocally.extends {m m' : Memo Float} {r : NodeId} (hm : m.WellFormed)
    (h : m.RunsLocally r) (hext : m.Extends m') : m'.RunsLocally r := by
  rcases h with ⟨root, q, g, hroot, hkeeps, hq⟩
  exact ⟨root, q, m'.find g, hext.has hm hroot, hext.keeps hm hkeeps, hext.groupOf hm hq⟩

/-- Standard rules keep a memo laid out, fail only in a full one, and run each
    operator locally. -/
def Memo.fallbackPlot {rules : List Rule} {c : Catalog} (o : Outline)
    (hrules : ∀ rule ∈ rules, rule.Standard (· = c)) : Exploration.Plot (· = c) rules where
  Invariant m := m.WellFormed ∧ ∃ place, m.LaidOut o c.Lists place
  Error e := e = Arena.full
  Done rule found m := ∀ kind ∈ LocalEngine.operators, rule = LocalEngine.rule kind →
    ∀ r, found = [r] → m.RunsLocally r
  wellFormed := And.left
  steps hm hsteps := ⟨(hsteps.wellFormed_and_extends hm.1).1, LaidOut.steps hm.1 hm.2 hsteps⟩
  lasts hm hdone hext kind hkind hrule r hr := (hdone kind hkind hrule r hr).extends hm.1 hext
  matches_ends {rule m id n} hrule hm hn := by
    have hsound := (hrules rule hrule).sound m m hm.1 hm.1 (.refl m) id n hn
    exact (hsound.imp fun _ _ => trivial).weaken fun _ h => h.elim
  runs {rule m₀ m id n founds} hrule hm₀ hm hext hn hmatches found hfound := by
    by_cases hlocal : ∃ kind ∈ LocalEngine.operators, rule = LocalEngine.rule kind
    · rcases hlocal with ⟨kind, hkind, rfl⟩
      rw [Pattern.matchesAt_leaf rfl hn] at hmatches
      obtain rfl := Except.ok.inj hmatches
      split at hfound
      · rename_i haccepts
        obtain rfl := List.mem_singleton.mp hfound
        obtain ⟨g, hg⟩ := hm₀.1.exists_groupOf (Arena.lt_size_of_get hn)
        have hroot := hext.has hm₀.1 ⟨hn, hg⟩
        refine (LocalEngine.rule_runs (E := fun e => e = Arena.full) (· = c) hkind (fun _ => rfl)
          hm.1 hroot haccepts).imp fun _ f hf => ?_
        rcases hf with ⟨hproper, q, hgrown⟩
        refine ⟨hproper, fun _ _ _ r hr => ?_⟩
        obtain rfl : id = r := by simpa using hr
        exact ⟨n, q, _, hgrown.grows.has hm.1 hroot, hgrown.keeps, hgrown.groupOf _ rfl⟩
      · cases hfound
    · obtain ⟨place, hlaid⟩ := hm.2
      have hsound := (hrules rule hrule).sound m₀ m hm₀.1 hm.1 hext id n hn
      have hrun := hsound.result hmatches found hfound
      have hhealthy : m.Healthy (· = c) := hlaid.healthy hm.1 (by rintro _ rfl t ht; exact ht)
      refine (hrun.weaken fun _ h => (h hhealthy).1).imp fun _ f hf => ⟨hf, ?_⟩
      intro kind hkind hrule
      exact absurd ⟨kind, hkind, hrule⟩ hlocal

theorem Winners.Available.mono {m : Memo Float} {k l : Nat} {d : Demand}
    (h : Winners.Available m k d) (hle : k ≤ l) : Winners.Available m l d := by
  induction k generalizing l d with
  | zero => exact h.elim
  | succ k ih =>
    rcases h with ⟨id, n, inputs, hmember, hc, hinputs⟩
    obtain ⟨l, rfl⟩ : ∃ l', l = l' + 1 := ⟨l - 1, by omega⟩
    exact ⟨id, n, inputs, hmember, hc, fun g hg => ih (hinputs g hg) (by omega)⟩

theorem LocalEngine.mem_operators {kind : RelKind} (h : kind ≠ .converter) : kind ∈ operators := by
  cases kind with
  | converter => exact absurd rfl h
  | _ => decide

/-- The local engine can deliver the group of each logical node, by induction on
    the numbers of the nodes: inputs are older and logical too. -/
theorem Memo.LaidOut.available {m : Memo Float} {o : Outline} {known : TableRef → Prop}
    {place : GroupId → Place} (hm : m.WellFormed) (h : m.LaidOut o known place)
    (hlocal : ∀ id n, m.node id = .ok n → n.convention = .logical → m.RunsLocally id)
    {id : NodeId} {n : Node} {g : GroupId} (hn : m.Has id n g)
    (hlogical : n.convention = .logical) :
    Winners.Available m (id.n + 1) (g, .enumerable) := by
  obtain ⟨k, hk⟩ : ∃ k, id.n = k := ⟨_, rfl⟩
  induction k using Nat.strongRecOn generalizing id n g with
  | ind k ih =>
    obtain ⟨n', q, g', hn', hkeeps, hq⟩ := hlocal id n hn.node hlogical
    obtain rfl : n = n' := Except.ok.inj (hn.node.symm.trans hn'.node)
    obtain rfl : g = g' := Except.ok.inj (hn.group.symm.trans hn'.group)
    obtain ⟨twin, gs, htwin, hkind, hrank, hgs, hgs'⟩ := hkeeps.exists_alike
    have hc : twin.convention = .enumerable := Convention.eq_enumerable_of_rank hrank
    have hmember : m.Member g q twin gs :=
      ⟨hm.isLive_of_groupOf hq, (hm.mem_members_groupOf hq).mpr hq, htwin, hgs⟩
    have hsame : twin.inputConvention = .enumerable := by
      have hnot : n.kind ≠ .converter := by
        obtain ⟨hs, hhs⟩ := hm.exists_inputGroups hn.node
        exact (h.fits id n g hs hn hhs).kind hlogical
      cases hop : twin.op with
      | converter i source =>
        rw [Node.kind, hop] at hkind
        exact absurd hkind.symm hnot
      | _ => simpa [Node.inputConvention, hop] using hc
    refine ⟨q, twin, gs, hmember, hc, fun below hbelow => ?_⟩
    rw [hsame]
    obtain ⟨i, hi, hgroup⟩ := exists_of_forall₂_right (mapM_eq_ok.mp hgs') below hbelow
    have hi' : i ∈ n.inputs := hi
    have hlt := hm.inputs_older id n hn.node i hi'
    obtain ⟨below', hbelow', hlogical'⟩ := h.logical id n hn.node hlogical i hi'
    have havailable := ih i.n (hk ▸ hlt) ⟨hbelow', hgroup⟩ hlogical' rfl
    exact havailable.mono hlt

/-! ### From the plan on -/

/-- In a memo a node of a chain is a logical one on its level. -/
def Plan.Entered {α : Type} (o : Outline) (known : TableRef → Prop) (level : Nat → Nat) (k : Nat)
    (id : NodeId) (m : Memo α) : Prop :=
  ∃ place n g, m.LaidOut o known place ∧ m.Has id n g ∧ n.convention = .logical ∧
    place g = .level (level k)

section

variable {α : Type} {o : Outline} {known : TableRef → Prop} {level : Nat → Nat} {p : Plan}

theorem Plan.Entered.laidOut {m : Memo α} {k : Nat} {id : NodeId}
    (h : Entered o known level k id m) : ∃ place, m.LaidOut o known place := by
  rcases h with ⟨place, -, -, hlaid, -⟩
  exact ⟨place, hlaid⟩

/-- Entering a logical node that fits. -/
theorem Plan.entered_of_inserted {m m' : Memo α} {place : GroupId → Place} (hm : m.WellFormed)
    (h : m.LaidOut o known place) {n : Node} {gs : List GroupId} {k : Nat} {id : NodeId}
    (hgs : n.inputs.mapM m.groupOf = .ok gs)
    (hfits : o.Fits known n (gs.map place) (.level (level k))) (hc : n.convention = .logical)
    (hlogical : ∀ i ∈ n.inputs, ∃ k, m.node i = .ok k ∧ k.convention = .logical)
    (hinserted : m.Inserted n gs none id m') : Entered o known level k id m' := by
  have hgrown := hinserted.grown hm hgs (by simp)
  obtain ⟨place', hlaid, hplace⟩ :=
    h.insert hm hgs (by simp) hfits (by simp) (fun _ => hlogical) hinserted
  obtain ⟨kept, -, hkept, -, hrank, -⟩ := hgrown.keeps.exists_alike
  obtain ⟨g, hg⟩ := hgrown.wellFormed.exists_groupOf hgrown.keeps.lt_size
  have hrank' : kept.convention.rank = Convention.logical.rank := hrank.trans (by rw [hc])
  exact ⟨place', kept, g, hlaid, ⟨hkept, hg⟩, Convention.eq_logical_of_rank hrank', hplace g hg⟩

theorem Plan.Chain.carries_layout [Quantity α] (hp : p.Chain known)
    (h : p.Outlined known o level p.root.n) :
    Carries p (fun m : Memo α => ∃ place, m.LaidOut o known place) (Entered o known level) := by
  have hle : ∀ {k n}, p.arena.get ⟨k⟩ = .ok n → k ≤ p.root.n := by
    intro k n hn
    have hlt : k < p.arena.size := Arena.lt_size_of_get hn
    have hsize := hp.size_eq
    omega
  refine ⟨fun {m m' n gs id} _ hm hI hn hgs hinserted => ?_,
    fun {m m' k n below gs id} hm hI hat hlt hn hgs hinserted => ?_⟩
  · rcases hI with ⟨place, hlaid⟩
    have hfits := h.fits 0 (hle hn) _ hn
    have hentered : Entered o known level 0 id m' := by
      refine entered_of_inserted hm hlaid hgs ?_ (hp.logical _ _ hn).1
        (by simp [hp.inputs_zero hn]) hinserted
      rw [hp.inputs_zero hn] at hgs
      obtain rfl := Except.ok.inj hgs
      exact hfits
    exact ⟨hentered.laidOut, hentered⟩
  · rcases hat with ⟨place, nb, gb, hlaid, hbelow, hlogical, hplace⟩
    have hfits := h.fits (k + 1) (hle hn) _ hn
    have hinputs : (n.withInputs [below]).inputs = [below] := by
      refine Node.inputs_withInputs ?_
      rw [hp.inputs_succ hn]
      rfl
    have hentered : Entered o known level (k + 1) id m' := by
      refine entered_of_inserted hm hlaid hgs ?_ (hp.logical _ _ hn).1 ?_ hinserted
      · have hsingle : (n.withInputs [below]).inputs.mapM m.groupOf = .ok [gb] := by
          rw [hinputs]
          exact mapM_eq_ok.mpr (.cons hbelow.group .nil)
        obtain rfl : gs = [gb] := Except.ok.inj (hgs.symm.trans hsingle)
        rw [List.map_singleton, hplace]
        exact hfits.withInputs [below]
      · intro i hi
        rw [hinputs] at hi
        obtain rfl := List.mem_singleton.mp hi
        exact ⟨nb, hbelow.node, hlogical⟩
    exact ⟨hentered.laidOut, hentered⟩

end

/-- Where nothing is left to do, each logical node has its local twin. -/
theorem Memo.LaidOut.runsLocally {c : Catalog} {r : Registry} (hr : r.Standard (· = c))
    {m : Memo Float} {o : Outline} {place : GroupId → Place} (hlaid : m.LaidOut o c.Lists place)
    (h : (Memo.fallbackPlot o hr.rules_standard).Saturated m) (hm : m.WellFormed) {id : NodeId}
    {n : Node} (hn : m.node id = .ok n) (hlogical : n.convention = .logical) :
    m.RunsLocally id := by
  obtain ⟨g, hg⟩ := hm.exists_groupOf (Arena.lt_size_of_get hn)
  obtain ⟨gs, hgs⟩ := hm.exists_inputGroups hn
  have hkind := LocalEngine.mem_operators ((hlaid.fits id n g gs ⟨hn, hg⟩ hgs).kind hlogical)
  obtain ⟨founds, hfounds, hdone⟩ := h id (Arena.lt_size_of_get hn) (LocalEngine.rule n.kind)
    (hr.runsLocally hkind)
  have haccepts : (LocalEngine.rule n.kind).pattern.accepts n = true := by
    refine Pattern.accepts_iff.mpr ⟨fun k hk => Option.some.inj hk, fun c hc => ?_, ?_⟩
    · exact hlogical.trans (Option.some.inj hc)
    · intro guard hguard
      exact nomatch hguard
  rw [Pattern.matchesAt_leaf rfl hn, if_pos haccepts] at hfounds
  obtain rfl := Except.ok.inj hfounds
  exact hdone [id] (by simp) n.kind hkind rfl id rfl

namespace Plan

variable {c : Catalog} {p : Plan} {r : Registry} {s s' : OptimizerSettings} {cost : CostSettings}

/-- There is always a local plan.  No rule fails unless the memo gets full, and when
    exploration ends because nothing changes, selection has a pick for the root, so
    that a plan is not refused for want of an alternative. -/
theorem optimize_fallback (hp : p.Built c.Lists)
    (hr : r = Registry.defaults ∨ Registry.defaults.registerStores c s' = .ok r) :
    (∀ err, Memo.ofPlan p (cost.defaultRowCount : Float) = .error err → err = Arena.full) ∧
    ∀ m root, Memo.ofPlan p cost.defaultRowCount = .ok (m, root) →
      (∀ err, m.explore r s = .error err → err = Arena.full) ∧
      ∀ e, m.explore r s = .ok (.settled, e) →
        (∃ w, Winners.select e.memo cost = .ok w ∧ w.Meets (e.memo.find root, .enumerable)) ∧
        ∀ err, p.optimize r s cost = .error err → err.kind ≠ .planning := by
  have hstandard : r.Standard (· = c) := by
    rcases hr with rfl | hr
    · exact .defaults
    · exact Registry.standard_of_registerStores .defaults rfl hr
  have hchain := hp.chain
  have hsize := hchain.size_eq
  obtain ⟨o, level, houtlined⟩ := hchain.exists_outlined (k := p.root.n) (by omega)
  have hentered := hchain.ofPlan_ends (E := fun err => err = Arena.full)
    (hchain.carries_layout houtlined) (cost.defaultRowCount : Float)
    ⟨fun _ => .level 0, .empty _ o c.Lists _⟩
  refine ⟨fun err herr => hentered.error herr, ?_⟩
  intro m root hofPlan
  obtain ⟨hm, hlaid, copy, hcopy, hat⟩ := hentered.result hofPlan
  have hexplored := Memo.explore_ends (s := s) (Memo.fallbackPlot o hstandard.rules_standard)
    ⟨hm, hlaid⟩
  refine ⟨fun err herr => hexplored.error herr, ?_⟩
  intro e he
  have hended := hexplored.result he
  obtain ⟨(hm' : e.memo.WellFormed), place, (hlaid' : e.memo.LaidOut o c.Lists place)⟩ :=
    hended.holds.invariant
  have hext : m.Extends e.memo := hended.holds.grown
  have hlocal : ∀ id n, e.memo.node id = .ok n → n.convention = .logical → e.memo.RunsLocally id :=
    fun _ _ hn hlogical => hlaid'.runsLocally hstandard (hended.settled rfl) hm' hn hlogical
  -- the copy of the plan's root is logical, so its group can be delivered
  rcases hat with ⟨-, n, g, -, hn, hlogical, -⟩
  have hgroup : e.memo.groupOf copy = .ok (e.memo.find root) := hext.groupOf hm hcopy
  have havailable := hlaid'.available hm' hlocal ⟨hext.node _ _ hn.node, hgroup⟩ hlogical
  have hlt : copy.n < e.memo.size := Arena.lt_size_of_get (hext.node _ _ hn.node)
  obtain ⟨w, hw, hsupported, hmeets⟩ :=
    (Winners.select_ends (s := cost) (.inl hm')).exists_result
  have hmet : w.Meets (e.memo.find root, .enumerable) := hmeets _ (havailable.mono (by omega))
  refine ⟨⟨w, hw, hmet⟩, ?_⟩
  intro err herr
  have hoptimize : Ends (fun err => err.kind ≠ .planning) (p.optimize r s cost) fun _ => True := by
    obtain ⟨best, hbest⟩ := id hmet
    refine Ends.after hofPlan (Ends.after he (Ends.after hw ?_))
    refine Ends.after (require_eq_ok.mpr hbest) ?_
    refine ((Winners.plan_ends hsupported _).weaken fun err h => ?_).bind fun _ _ => trivial
    rw [h hmet]
    decide
  exact hoptimize.error herr

/-- The search for the users' plan has a local pick for the root, although the plan that
    is taken runs in the store. -/
theorem optimize_fallback_users : ∃ p r m root e w, countedUsers = .ok p ∧
    Registry.defaults.registerStores .users {} = .ok r ∧
    Memo.ofPlan p ({} : CostSettings).defaultRowCount = .ok (m, root) ∧
    m.explore r { trace := true } = .ok (.settled, e) ∧
    usersRules ⊆ (e.trace.toList.filter (·.changed)).map (·.rule) ∧
    Winners.select e.memo {} = .ok w ∧ w.Meets (e.memo.find root, .enumerable) := by
  obtain ⟨p, r, o, qs, hrun, hending, hfired, -⟩ := exists_optimizedUsers
  obtain ⟨hp, hr, ho, -⟩ := optimizedUsers_eq_ok hrun
  obtain ⟨⟨m, root⟩, hm, h⟩ := except_bind_eq_ok.mp ho
  obtain ⟨⟨ending, e⟩, he, h⟩ := except_bind_eq_ok.mp h
  obtain ⟨winners, -, h⟩ := except_bind_eq_ok.mp h
  obtain ⟨best, -, h⟩ := except_bind_eq_ok.mp h
  obtain ⟨plan, -, h⟩ := except_bind_eq_ok.mp h
  obtain rfl := Except.ok.inj h
  obtain rfl : ending = .settled := hending
  obtain ⟨-, hfallback⟩ := optimize_fallback (built_countedUsers hp) (.inr hr)
  obtain ⟨⟨w, hw, hmeets⟩, -⟩ := (hfallback m root hm).2 e he
  exact ⟨p, r, m, root, e, w, hp, hr, hm, he, hfired, hw, hmeets⟩

end Plan

end Polystore
