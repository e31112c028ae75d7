import Polystore.Plan.StoreQuery
import Polystore.Proofs.Conventions
import Polystore.Proofs.EnteredPlans
import Polystore.Proofs.Rounds
import Polystore.Proofs.StandardRules

/-
  Polystore/Proofs/StoreQueries.lean
  ==================================
  **Optimized plans can be executed.**  Whatever standard rules offer can be run
  by the engine of its convention: a node of a store carries a fragment that was
  written for it, and only the local engine takes over rows of another engine.
  In an optimized plan the nodes below a converter are therefore a chain of one
  store that ends with a scan, and its fragments are a query
  (`Plan.optimize_executable`).
-/

namespace Polystore

open StoreRules

/-! ### Runnable nodes -/

/-- What an engine needs to run a node. -/
structure Node.Runnable (n : Node) : Prop where
  converter : ∀ i source, n.op = .converter i source →
    n.convention = .enumerable ∧ ∃ b name, source = .store b name
  store : ∀ b name, n.convention = .store b name →
    n.kind ∈ [RelKind.scan, .filter, .project, .aggregate, .sort] ∧
      ∃ f, n.native = some f ∧ f.backend = b ∧ (n.kind = .scan → f.clause = .scan)

/-- All nodes of a memo are runnable. -/
def Memo.Runnable {α : Type} (m : Memo α) : Prop := ∀ id n, m.node id = .ok n → n.Runnable

theorem Node.Runnable.withInputs {n : Node} (h : n.Runnable) (inputs : List NodeId) :
    (n.withInputs inputs).Runnable := by
  have hkind : (n.withInputs inputs).kind = n.kind := RelOp.kind_withInputs
  refine ⟨fun i source hop => ?_, fun b name hc => ?_⟩
  · obtain ⟨j, hop⟩ := RelOp.withInputs_eq_converter hop
    exact h.converter j source hop
  · rw [hkind]
    exact h.store b name hc

/-- A node of a store needs a fragment of the store's backend. -/
theorem StoreRules.Target.pushed_runnable {t : Target} {n : Node} {op : RelOp} {f : Fragment}
    (hkind : op.kind ∈ [RelKind.scan, .filter, .project, .aggregate, .sort])
    (hbackend : f.backend = t.store.backend) (hscan : op.kind = .scan → f.clause = .scan) :
    (t.pushed n op f).Runnable := by
  refine ⟨fun i source hop => ?_, fun b name hc => ?_⟩
  · rw [show op = .converter i source from hop] at hkind
    simp [RelOp.kind] at hkind
  · obtain ⟨rfl, rfl⟩ := Convention.store.inj hc
    exact ⟨hkind, f, rfl, hbackend, hscan⟩

/-- A logical node that is no converter needs nothing. -/
theorem Node.runnable_of_logical {n : Node} (hlogical : n.convention = .logical)
    (hkind : n.kind ≠ .converter) : n.Runnable := by
  refine ⟨fun i source hop => absurd ?_ hkind, fun b name hc => ?_⟩
  · rw [Node.kind, hop]
    rfl
  · rw [hlogical] at hc
    cases hc

theorem Memo.Offer.runnable {known : Catalog → Prop} {m : Memo Float} {n : Node}
    {target : Option GroupId} (h : m.Offer known n target) : n.Runnable := by
  cases h with
  | locally hroot hlogical hkind =>
    refine ⟨fun i source hop => ?_, by rintro b name ⟨⟩⟩
    rename_i root _
    have hop : root.op = .converter i source := hop
    rw [Node.kind, hop] at hkind
    simp [RelOp.kind, LocalEngine.operators] at hkind
  | mergedFilter hroot hlogical hop hinput hbelow hlogical' hop' =>
    exact Node.runnable_of_logical hlogical (by simp [Node.kind, RelOp.kind])
  | projection hroot hlogical hop hinput hbelow hlogical' hkind hn =>
    obtain ⟨-, hproject, hc⟩ := AggregateTrim.projection_inputs hn
    exact Node.runnable_of_logical hc (by rw [hproject]; decide)
  | trimmed hroot hlogical hop hinput hbelow hlogical' hkind hn hkeeps ha =>
    exact Node.runnable_of_logical hlogical (by simp [Node.kind, RelOp.kind])
  | scan hknown hroot hlogical hop hf =>
    exact Target.pushed_runnable (by rw [hop]; simp [RelOp.kind]) hf.1 fun _ => hf.2
  | pushed hknown hroot hlogical hkind hop hinput hbelow hbelow' hf =>
    have hsame : ∀ {op : RelOp} {inputs}, (op.withInputs inputs).kind = op.kind :=
      RelOp.kind_withInputs
    refine Target.pushed_runnable ?_ hf fun hscan => ?_
    · rw [hsame]
      exact List.mem_cons_of_mem _ hkind
    · rw [hsame] at hscan
      rw [Node.kind, hscan] at hkind
      simp at hkind
  | part hknown hroot hlogical hop hinput hbelow hbelow' hf =>
    exact Target.pushed_runnable (by simp [RelOp.kind]) hf (by simp [RelOp.kind])
  | residual hknown hroot hlogical hop hinput hbelow hbelow' hkeeps =>
    exact ⟨by rintro i source ⟨⟩, by rintro b name ⟨⟩⟩
  | convert hknown hroot hstore =>
    refine ⟨fun i source hop => ⟨rfl, ?_⟩, by rintro b name ⟨⟩⟩
    obtain ⟨-, rfl⟩ := RelOp.converter.inj hop
    exact ⟨_, _, rfl⟩

/-- Standard rules keep all nodes of a memo runnable. -/
def Memo.runnablePlot {rules : List Rule}
    (hrules : ∀ rule ∈ rules, rule.Standard fun _ => True) :
    Exploration.Plot (fun _ => True) rules where
  Invariant m := m.WellFormed ∧ m.Runnable
  Error _ := True
  Done _ _ _ := True
  wellFormed := And.left
  steps {m m'} hm hsteps := by
    refine hsteps.preserves (P := fun m => m.WellFormed ∧ m.Runnable) hm.1 ?_ hm
    intro m₁ m₂ n inputs target id hm₁ hP hoffer hinputs htarget hinserted
    have hgrown := hinserted.grown hm₁ hinputs htarget
    refine ⟨hgrown.wellFormed, ?_⟩
    intro i k hk
    rcases hgrown.node_cases i k hk with hk | rfl
    · exact hP.2 i k hk
    · exact hoffer.runnable
  lasts _ _ _ := trivial
  runs {rule m₀ m id n founds} hrule hm₀ hm hext hn hmatches found hfound := by
    have hsound := (hrules rule hrule).sound m₀ m hm₀.1 hm.1 hext id n hn
    have hrun := hsound.result hmatches found hfound
    exact (hrun.imp fun _ _ h => ⟨h, trivial⟩).weaken fun _ _ => trivial
  matches_ends _ _ _ := .of_ok (fun _ => trivial) fun _ _ => trivial

/-- The memo of a chain has runnable nodes. -/
theorem Plan.Chain.carries_runnable {known : TableRef → Prop} {p : Plan} (hp : p.Chain known)
    {α : Type} [Quantity α] :
    Carries p (fun m : Memo α => m.Runnable) (fun _ _ _ => True) := by
  have hnode : ∀ {id n}, p.arena.get id = .ok n → n.Runnable := by
    intro id n hn
    obtain ⟨hlogical, -⟩ := hp.logical id n hn
    refine Node.runnable_of_logical hlogical ?_
    rcases id with ⟨_ | k⟩
    · cases hp.bottom n hn with
      | scan hop _ => simp [Node.kind, hop, RelOp.kind]
      | values hop => simp [Node.kind, hop, RelOp.kind]
    · obtain ⟨below, -, hon⟩ := hp.above k n hn
      cases hon with
      | filter hop _ => simp [Node.kind, hop, RelOp.kind]
      | project hop => simp [Node.kind, hop, RelOp.kind]
      | aggregate hop _ => simp [Node.kind, hop, RelOp.kind]
      | sort hop _ => simp [Node.kind, hop, RelOp.kind]
      | modify hop => simp [Node.kind, hop, RelOp.kind]
  refine ⟨fun _ hm hI hn hgs hinserted => ⟨fun i k hk => ?_, trivial⟩,
    fun hm hI _ _ hn hgs hinserted => ⟨fun i k hk => ?_, trivial⟩⟩
  · rcases (hinserted.grown hm hgs (by simp)).node_cases i k hk with hk | rfl
    · exact hI i k hk
    · exact hnode hn
  · rcases (hinserted.grown hm hgs (by simp)).node_cases i k hk with hk | rfl
    · exact hI i k hk
    · exact (hnode hn).withInputs _

/-! ### Walking down -/

/-- Walking down from a node of an extracted plan visits nodes that are there. -/
theorem Arena.descend_ends {α : Type} {m : Memo α} {p : Plan} (hcopies : p.arena.Copies m)
    {depth : Nat} {id : NodeId} {n : Node} (hid : p.Reaches id) (hn : p.arena.get id = .ok n) :
    Ends (fun _ => False) (p.arena.descend depth id) fun ids => ∀ i ∈ ids, p.Reaches i := by
  induction depth generalizing id n with
  | zero => exact Ends.pure (by simp)
  | succ depth ih =>
    refine Ends.after hn ?_
    refine (Ends.mapM (P := fun ids => ∀ i ∈ ids, p.Reaches i) fun i hi => ?_).bind
      fun lists hlists => Ends.pure ?_
    · obtain ⟨-, k, hk, -⟩ := hcopies.placed id n hn i hi
      exact ih (.input hid hn hi) hk
    · intro i hi
      rcases List.mem_cons.mp hi with rfl | hi
      · exact hid
      · obtain ⟨l, hl, hi⟩ := List.mem_flatten.mp hi
        exact hlists l hl i hi

/-- Inputs are older than the node, so walking down deep enough visits the inputs of
    whatever it visits. -/
theorem Arena.descend_closed {α : Type} {m : Memo α} {a : Arena} (hcopies : a.Copies m)
    {depth : Nat} {id : NodeId} {ids : List NodeId} (hdepth : id.n < depth)
    (h : a.descend depth id = .ok ids) :
    id ∈ ids ∧ ∀ j ∈ ids, ∀ n, a.get j = .ok n → ∀ i ∈ n.inputs, i ∈ ids := by
  induction depth generalizing id ids with
  | zero => exact absurd hdepth (Nat.not_lt_zero _)
  | succ depth ih =>
    obtain ⟨n, hn, h⟩ := except_bind_eq_ok.mp h
    obtain ⟨lists, hlists, h⟩ := except_bind_eq_ok.mp h
    obtain rfl := Except.ok.inj h
    have hwalks := mapM_eq_ok.mp hlists
    have hinput : ∀ i ∈ n.inputs, i.n < depth := by
      intro i hi
      obtain ⟨hlt, -⟩ := hcopies.placed id n hn i hi
      omega
    refine ⟨List.mem_cons_self, ?_⟩
    intro j hj k hk i hi
    apply List.mem_cons_of_mem
    apply List.mem_flatten.mpr
    rcases List.mem_cons.mp hj with rfl | hj
    · -- an input of the node itself starts a walk of its own
      obtain rfl : n = k := Except.ok.inj (hn.symm.trans hk)
      obtain ⟨l, hl, hwalk⟩ := exists_of_forall₂_left hwalks i hi
      exact ⟨l, hl, (ih (hinput i hi) hwalk).1⟩
    · obtain ⟨l, hl, hj⟩ := List.mem_flatten.mp hj
      obtain ⟨i', hi', hwalk⟩ := exists_of_forall₂_right hwalks l hl
      exact ⟨l, hl, (ih (hinput i' hi') hwalk).2 j hj k hk i hi⟩

/-- All nodes of a plan are visited. -/
theorem Plan.mem_preorder {α : Type} {m : Memo α} {p : Plan} (hcopies : p.arena.Copies m)
    {ids : List NodeId} (h : p.preorder = .ok ids) {id : NodeId} (hid : p.Reaches id) :
    id ∈ ids := by
  obtain ⟨hroot, hclosed⟩ := Arena.descend_closed hcopies (Nat.lt_succ_self _) h
  induction hid with
  | root => exact hroot
  | input _ hn hi ih => exact hclosed _ ih _ hn _ hi

/-- Below a node of a store all nodes are of that store, down to a scan. -/
theorem Arena.exists_chain {α : Type} {m : Memo α} {a : Arena} (hcopies : a.Copies m)
    (hm : m.Runnable) {b : Backend} {name : String} {depth : Nat} {id : NodeId} {n : Node}
    (hn : a.get id = .ok n) (hdepth : id.n < depth) (hc : n.convention = .store b name) :
    ∃ ids nodes fragments, a.descend depth id = .ok ids ∧ ids.mapM a.get = .ok nodes ∧
      StoreQuery.fragmentsOf (.store b name) nodes = .ok fragments ∧
      nodes.map (·.native) = fragments.map some ∧ (∀ f ∈ fragments, f.backend = b) ∧
      ∃ f, fragments.getLast? = some f ∧ f.clause = .scan := by
  induction depth generalizing id n with
  | zero => exact absurd hdepth (Nat.not_lt_zero _)
  | succ depth ih =>
    obtain ⟨j, n₀, inputs, hn₀, heq⟩ := hcopies.source id n hn
    obtain ⟨hconverter, hstore⟩ : n.Runnable := heq ▸ (hm j n₀ hn₀).withInputs inputs
    obtain ⟨hkind, f, hf, hbackend, hscan⟩ := hstore b name hc
    have hown : ¬ n.convention ≠ .store b name := fun h => h hc
    by_cases hleaf : n.kind = .scan
    · have hinputs : n.inputs = [] := RelOp.inputs_of_scan hleaf
      refine ⟨[id], [n], [f], ?_, ?_, ?_, by simp [hf], by simpa using hbackend, f, rfl,
        hscan hleaf⟩
      · rw [descend]
        refine except_bind_eq_ok.mpr ⟨n, hn, except_bind_eq_ok.mpr ⟨[], ?_, rfl⟩⟩
        rw [hinputs]
        rfl
      · exact mapM_eq_ok.mpr (.cons hn .nil)
      · rw [StoreQuery.fragmentsOf, if_neg hown]
        exact except_bind_eq_ok.mpr ⟨f, require_eq_ok.mpr hf, rfl⟩
    · -- an operator over one input of the same store
      have hvalues : n.kind ≠ .values := by
        intro hvalues
        rw [hvalues] at hkind
        simp at hkind
      obtain ⟨i, hinputs⟩ : ∃ i, n.inputs = [i] := RelOp.exists_input hleaf hvalues
      have hsame : n.inputConvention = .store b name := by
        cases hop : n.op with
        | converter i source =>
          obtain ⟨hlocal, -⟩ := hconverter i source hop
          rw [hlocal] at hc
          cases hc
        | _ => simpa [Node.inputConvention, hop] using hc
      obtain ⟨hlt, k, hk, hkc⟩ := hcopies.placed id n hn i (by simp [hinputs])
      obtain ⟨ids, nodes, fragments, hids, hnodes, hfragments, hnative, hall, last, hlast,
        hclause⟩ :=
        ih hk (by omega) (hkc.trans hsame)
      refine ⟨id :: ids, n :: nodes, f :: fragments, ?_, ?_, ?_, ?_, ?_, last, ?_, hclause⟩
      · rw [descend]
        refine except_bind_eq_ok.mpr ⟨n, hn, except_bind_eq_ok.mpr ⟨[ids], ?_, by simp; rfl⟩⟩
        rw [hinputs]
        exact mapM_eq_ok.mpr (.cons hids .nil)
      · exact mapM_eq_ok.mpr (.cons hn (mapM_eq_ok.mp hnodes))
      · rw [StoreQuery.fragmentsOf, if_neg hown]
        refine except_bind_eq_ok.mpr ⟨f, require_eq_ok.mpr hf, ?_⟩
        exact except_bind_eq_ok.mpr ⟨fragments, hfragments, rfl⟩
      · rw [List.map_cons, List.map_cons, hf, hnative]
      · exact List.forall_mem_cons.mpr ⟨hbackend, hall⟩
      · rw [List.getLast?_cons, hlast]
        rfl

/-! ### Store queries -/

/-- A query has all fragments of the nodes below its converter, innermost first.
    They are written for its backend, and the first one is a scan. -/
structure StoreQuery.Covers (q : StoreQuery) (p : Plan) : Prop where
  reached : p.Reaches q.converter
  below : ∃ n input ids nodes, p.arena.get q.converter = .ok n ∧
    n.op = .converter input (.store q.backend q.store) ∧ p.arena.preorder input = .ok ids ∧
    ids.mapM p.arena.get = .ok nodes ∧ nodes.reverse.map (·.native) = q.fragments.map some
  backend : ∀ f ∈ q.fragments, f.backend = q.backend
  scan : ∃ f rest, q.fragments = f :: rest ∧ f.clause = .scan

/-- Queries for a plan: each covers what is below a converter, and no converter from
    a store is without one. -/
structure Plan.QueriedBy (p : Plan) (qs : List StoreQuery) : Prop where
  covers : ∀ q ∈ qs, q.Covers p
  complete : ∀ id n input b name, p.Reaches id → p.arena.get id = .ok n →
    n.op = .converter input (.store b name) → ∃ q ∈ qs, q.converter = id

/-- The query below a node. -/
theorem StoreQuery.below?_ends {α : Type} {m : Memo α} {p : Plan} (hcopies : p.arena.Copies m)
    (hm : m.Runnable) {id : NodeId} {n : Node} (hid : p.Reaches id)
    (hn : p.arena.get id = .ok n) :
    Ends (fun _ => False) (below? p.arena id) fun q? => ∀ q, q? = some q → q.Covers p := by
  refine Ends.after hn ?_
  split
  · rename_i input b name hop
    obtain ⟨-, k, hk, hc⟩ :=
      hcopies.placed id n hn input (by simp [Node.inputs, hop, RelOp.inputs])
    have hstore : k.convention = .store b name := by
      rw [hc, Node.inputConvention, hop]
    obtain ⟨ids, nodes, fragments, hids, hnodes, hfragments, hnative, hall, f, hlast, hclause⟩ :=
      Arena.exists_chain hcopies hm hk (Nat.lt_succ_self _) hstore
    refine Ends.after hids (Ends.after hnodes (Ends.after hfragments (Ends.pure ?_)))
    rintro q ⟨⟩
    refine ⟨hid, ⟨n, input, ids, nodes, hn, hop, hids, hnodes, ?_⟩, ?_, ?_⟩
    · rw [List.map_reverse, List.map_reverse, hnative]
    · intro f hf
      exact hall f (List.mem_reverse.mp hf)
    · obtain ⟨rest, rfl⟩ := List.getLast?_eq_some_iff.mp hlast
      exact ⟨f, rest.reverse, by simp, hclause⟩
  · exact Ends.pure (by simp)

/-- A converter from a store has a query. -/
theorem StoreQuery.below?_of_converter {a : Arena} {id input : NodeId} {n : Node} {b : Backend}
    {name : String} (hn : a.get id = .ok n) (hop : n.op = .converter input (.store b name))
    {q? : Option StoreQuery} (h : below? a id = .ok q?) : ∃ q, q? = some q ∧ q.converter = id := by
  obtain ⟨n', hn', h⟩ := except_bind_eq_ok.mp h
  obtain rfl : n = n' := Except.ok.inj (hn.symm.trans hn')
  rw [hop] at h
  obtain ⟨ids, -, h⟩ := except_bind_eq_ok.mp h
  obtain ⟨nodes, -, h⟩ := except_bind_eq_ok.mp h
  obtain ⟨fragments, -, h⟩ := except_bind_eq_ok.mp h
  exact ⟨_, (Except.ok.inj h).symm, rfl⟩

namespace Plan

variable {p : Plan} {r : Registry} {s : OptimizerSettings} {cost : CostSettings} {o : Optimized}

theorem exists_storeQueries {α : Type} {m : Memo α} (hcopies : p.arena.Copies m)
    (hm : m.Runnable) {n : Node} (hroot : p.rootNode = .ok n) :
    ∃ qs, p.storeQueries = .ok qs ∧ p.QueriedBy qs := by
  obtain ⟨ids, hids, hreached⟩ := (Arena.descend_ends hcopies .root hroot).exists_result
  have hbelow : ∀ id ∈ ids, ∃ q?, StoreQuery.below? p.arena id = .ok q? ∧
      ∀ q, q? = some q → q.Covers p := by
    intro id hid
    obtain ⟨k, hk⟩ := (hreached id hid).exists_get hcopies ⟨n, hroot⟩
    exact (StoreQuery.below?_ends hcopies hm (hreached id hid) hk).exists_result
  obtain ⟨found, hfound⟩ := exists_mapM_eq_ok fun id hid => (hbelow id hid).imp fun _ h => h.1
  have hall := mapM_eq_ok.mp hfound
  refine ⟨_, except_bind_eq_ok.mpr ⟨ids, hids, except_bind_eq_ok.mpr ⟨found, hfound, rfl⟩⟩, ?_⟩
  constructor
  · intro q hq
    obtain ⟨q?, hq?, heq⟩ := List.mem_filterMap.mp hq
    obtain ⟨id, hid, hresult⟩ := exists_of_forall₂_right hall q? hq?
    obtain ⟨q?', hresult', hcovers⟩ := hbelow id hid
    obtain rfl := Except.ok.inj (hresult.symm.trans hresult')
    exact hcovers q heq
  · intro id k input b name hid hk hop
    obtain ⟨q?, hq?, hresult⟩ :=
      exists_of_forall₂_left hall id (Plan.mem_preorder hcopies hids hid)
    obtain ⟨q, rfl, hq⟩ := StoreQuery.below?_of_converter hk hop hresult
    exact ⟨q, List.mem_filterMap.mpr ⟨some q, hq?, rfl⟩, hq⟩

/-- Nothing logical is left below a node that can be run. -/
theorem Labelled.ne_logical {α : Type} {m : Memo α} (hp : p.Labelled)
    (hcopies : p.arena.Copies m) (hm : m.Runnable) {id : NodeId} (hid : p.Reaches id) :
    ∀ n, p.arena.get id = .ok n → n.convention ≠ .logical := by
  induction hid with
  | root =>
    intro n hn
    obtain ⟨n', hn', hc⟩ := hp.root
    obtain rfl : n = n' := Except.ok.inj (hn.symm.trans hn')
    rw [hc]
    decide
  | @input id i n _ hn hi ih =>
    intro k hk
    obtain ⟨-, k', hk', hc⟩ := hcopies.placed id n hn i hi
    obtain rfl : k = k' := Except.ok.inj (hk.symm.trans hk')
    rw [hc]
    obtain ⟨j, n₀, inputs, hn₀, heq⟩ := hcopies.source id n hn
    obtain ⟨hconverter, -⟩ : n.Runnable := heq ▸ (hm j n₀ hn₀).withInputs inputs
    cases hop : n.op with
    | converter i source =>
      obtain ⟨-, b, name, rfl⟩ := hconverter i source hop
      simp [Node.inputConvention, hop]
    | _ => simpa [Node.inputConvention, hop] using ih n hn

/-- The nodes of the memo in which a built plan is optimized. -/
theorem Built.runnable_of_explore {m : Memo Float} {root : GroupId} {ending : Ending}
    {e : Exploration} (hp : p.Built fun _ => True) (hr : r.Standard fun _ => True)
    (hm : Memo.ofPlan p cost.defaultRowCount = .ok (m, root))
    (he : m.explore r s = .ok (ending, e)) : e.memo.Runnable := by
  have hentered := hp.chain.ofPlan_ends (E := fun _ => True) hp.chain.carries_runnable
    cost.defaultRowCount fun id n hn => by simp [Memo.node_eq_ok, Arena.get_eq_ok] at hn
  obtain ⟨hwf, hrunnable, -⟩ := hentered.result hm
  have hexplored := Memo.explore_ends (s := s) (Memo.runnablePlot hr.rules_standard)
    ⟨hwf, hrunnable⟩
  exact (hexplored.result he).holds.invariant.2

/-! ### Optimized plans -/

/-- An optimized plan is executable as labelled.  Of a built plan and standard rules
    nothing logical is left, and the part of each store is a query of its own. -/
theorem optimize_executable (h : p.optimize r s cost = .ok o) : o.plan.Labelled ∧
    ((p.Built fun _ => True) → (r.Standard fun _ => True) →
      (∀ id n, o.plan.Reaches id → o.plan.arena.get id = .ok n → n.convention ≠ .logical) ∧
      ∃ qs, o.plan.storeQueries = .ok qs ∧ o.plan.QueriedBy qs) := by
  obtain ⟨m, root, ending, e, hm, he, hcopies, hlabelled⟩ := exists_memo_of_optimize h
  refine ⟨hlabelled, ?_⟩
  intro hp hr
  have hrunnable := hp.runnable_of_explore hr hm he
  refine ⟨fun id n hid hn => hlabelled.ne_logical hcopies hrunnable hid n hn, ?_⟩
  obtain ⟨n, hn, -⟩ := hlabelled.root
  exact exists_storeQueries hcopies hrunnable hn

end Plan

/-! ### Grown users of each name -/

/-- A document store with a table of users. -/
def Catalog.users : Catalog where
  version := 5
  lastId := 5
  stores := [⟨⟨1⟩, "docs", .document⟩]
  tables := [⟨⟨2⟩, "app", "users", [⟨3⟩, ⟨4⟩], [], [], some 1000.0, [⟨5⟩], none⟩]
  columns := [⟨⟨3⟩, ⟨2⟩, "age", .bigint, false, 0⟩, ⟨⟨4⟩, ⟨2⟩, "name", .string, true, 1⟩]
  groups := [⟨⟨5⟩, ⟨2⟩, "all", [], true⟩]
  placements := [⟨⟨5⟩, ⟨1⟩, ⟨3⟩⟩, ⟨⟨5⟩, ⟨1⟩, ⟨4⟩⟩]
  locations := []

namespace Plan

/-- How many users above 17 there are of each name. -/
def countedUsers : Except Error Plan := do
  let scanned ← Plan.scan .users "app" "users"
  let grown ← scanned.step .users
    (.filter (.apply (.compare .gt) [.field 0 .bigint, .lit (.bigint 17)]))
  grown.step .users (.groupBy ["name"] [⟨.count, [], false, none, [], .bigint, some "n"⟩])

/-- The plan, the rules for the users' store, what optimization gives and the queries. -/
def optimizedUsers : Except Error (Plan × Registry × Optimized × List StoreQuery) := do
  let p ← countedUsers
  let r ← Registry.defaults.registerStores .users {}
  let o ← p.optimize r { trace := true } {}
  return (p, r, o, ← o.plan.storeQueries)

theorem built_countedUsers {p : Plan} (h : countedUsers = .ok p) : p.Built Catalog.users.Lists := by
  obtain ⟨scanned, hscanned, h⟩ := except_bind_eq_ok.mp h
  obtain ⟨grown, hgrown, h⟩ := except_bind_eq_ok.mp h
  exact .step (.step (built_of_scan hscanned) hgrown) h

theorem optimizedUsers_eq_ok {p : Plan} {r : Registry} {o : Optimized} {qs : List StoreQuery}
    (h : optimizedUsers = .ok (p, r, o, qs)) : countedUsers = .ok p ∧
      Registry.defaults.registerStores .users {} = .ok r ∧
      p.optimize r { trace := true } {} = .ok o ∧ o.plan.storeQueries = .ok qs := by
  obtain ⟨p', hp, h⟩ := except_bind_eq_ok.mp h
  obtain ⟨r', hr, h⟩ := except_bind_eq_ok.mp h
  obtain ⟨o', ho, h⟩ := except_bind_eq_ok.mp h
  obtain ⟨qs', hqs, h⟩ := except_bind_eq_ok.mp h
  obtain ⟨rfl, rfl, rfl, rfl⟩ : p' = p ∧ r' = r ∧ o' = o ∧ qs' = qs := by
    simpa using Except.ok.inj h
  exact ⟨hp, hr, ho, hqs⟩

/-- Rules that change something on the way: the aggregate is trimmed, every operator is
    offered to the store, and rows are taken over from it. -/
def usersRules : List String :=
  ["AggregateInputTrimRule", "AdapterScanRule[DOCUMENT:docs]", "AdapterFilterRule[DOCUMENT:docs]",
    "AdapterAggregateRule[DOCUMENT:docs]", "ConverterRule[DOCUMENT:docs]"]

/-- The search ends by itself, and in the end the store runs all operators. -/
def ShowsPushing (o : Optimized) (qs : List StoreQuery) : Prop :=
  o.ending = .settled ∧ usersRules ⊆ (o.trace.filter (·.changed)).map (·.rule) ∧
    qs.map (·.fragments.map (·.clause)) = [[.scan, .filter, .aggregate]]

instance (o : Optimized) (qs : List StoreQuery) : Decidable (ShowsPushing o qs) :=
  inferInstanceAs (Decidable (_ ∧ _ ∧ _))

set_option maxRecDepth 20000 in
theorem exists_optimizedUsers : ∃ p r o qs, optimizedUsers = .ok (p, r, o, qs) ∧
    ShowsPushing o qs := by
  have hrun : optimizedUsers.toOption.any (fun run => ShowsPushing run.2.2.1 run.2.2.2) = true := by
    decide +kernel
  cases h : optimizedUsers with
  | error err =>
    rw [h] at hrun
    cases hrun
  | ok run =>
    rw [h] at hrun
    exact ⟨run.1, run.2.1, run.2.2.1, run.2.2.2, rfl, of_decide_eq_true hrun⟩

/-- The users' plan is executable, with one query. -/
theorem optimize_executable_users : ∃ p r o qs, countedUsers = .ok p ∧
    Registry.defaults.registerStores .users {} = .ok r ∧
    p.optimize r { trace := true } {} = .ok o ∧ ShowsPushing o qs ∧ o.plan.Labelled ∧
    o.plan.storeQueries = .ok qs ∧ o.plan.QueriedBy qs := by
  obtain ⟨p, r, o, qs, hrun, hshows⟩ := exists_optimizedUsers
  obtain ⟨hp, hr, ho, hqs⟩ := optimizedUsers_eq_ok hrun
  obtain ⟨hlabelled, hbuilt⟩ := optimize_executable ho
  have hplan : p.Built fun _ => True := (built_countedUsers hp).mono fun _ _ => trivial
  have hregistry : r.Standard fun _ => True :=
    Registry.standard_of_registerStores .defaults trivial hr
  obtain ⟨-, qs', hqs', hqueried⟩ := hbuilt hplan hregistry
  obtain rfl : qs = qs' := Except.ok.inj (hqs.symm.trans hqs')
  exact ⟨p, r, o, qs, hp, hr, ho, hshows, hlabelled, hqs, hqueried⟩

end Plan

end Polystore
