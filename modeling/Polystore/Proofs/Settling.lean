import Polystore.Proofs.Fallback
import Polystore.Proofs.Scopes

/-
  Polystore/Proofs/Settling.lean
  ==============================
  **The default rules come to an end.**  The memo of a built plan is within a scope, and
  the default rules keep it there.  So there are finitely many nodes, and finitely many
  matches on which rules can run, and with large enough budgets exploration ends because
  nothing changes any more (`Plan.explore_settles`).  This takes that digests show each NaN
  in the conditions of the plan.
-/

namespace Polystore

open FilterMerge (filterOn)

/-! ### The start -/

/-- The nodes of a plan. -/
def Plan.nodes (p : Plan) : Set Node := {n | ∃ id, p.arena.get id = .ok n}

theorem Plan.finite_nodes (p : Plan) : p.nodes.Finite := by
  refine (List.finite_toSet p.arena.nodes.toList).subset ?_
  rintro n ⟨id, hn⟩
  exact Array.mem_toList_iff.mpr (Array.mem_of_getElem? (Arena.get_eq_ok.mp hn))

/-- A memo of drawn nodes.  If digests show each NaN its groups have weights. -/
structure Memo.Drawn (m : Memo Float) (stock : Set Node) : Prop where
  wellFormed : m.WellFormed
  tallies : m.Tallies
  kinds : ∃ kind, m.Marked (Node.Drawn stock) kind
  weights : Node.Shown stock → ∃ weight, m.Marked Node.Weighs weight

namespace Memo.Drawn

variable {stock : Set Node} {m m' : Memo Float}

theorem empty (rows : Float) (stock : Set Node) : Drawn { defaultRows := rows } stock :=
  ⟨wellFormed_empty rows, .empty rows, ⟨fun _ => .values, .empty rows _ _⟩,
    fun _ => ⟨fun _ => 0, .empty rows _ _⟩⟩

/-- Entering a node of the stock over any inputs. -/
theorem entered (hstock : Node.Unassigned stock) (h : m.Drawn stock) {n : Node} (hn : n ∈ stock)
    {ids : List NodeId} {gs : List GroupId} {id : NodeId}
    (hgs : (n.withInputs ids).inputs.mapM m.groupOf = .ok gs)
    (hinserted : m.Inserted (n.withInputs ids) gs none id m') : m'.Drawn stock := by
  have hm := h.wellFormed
  obtain ⟨kind, hkind⟩ := h.kinds
  have hdrawn : (n.withInputs ids).Drawn stock (gs.map kind) (n.withInputs ids).kind :=
    (Node.From.own hn ids).drawn
  obtain ⟨kind', hkind', -⟩ := hkind.drawn_inserted hm hdrawn (by simp) hgs (by simp) hinserted
  refine ⟨(hinserted.grown hm hgs (by simp)).wellFormed, hinserted.tallies hm (by simp) h.tallies,
    ⟨kind', hkind'⟩, fun hshown => ?_⟩
  obtain ⟨weight, hweight⟩ := h.weights hshown
  obtain ⟨weight', hweight', -⟩ := Marked.weighed_inserted hm hstock hshown hkind hweight hdrawn
    (by simp) hgs (by simp) hinserted
  exact ⟨weight', hweight'⟩

/-- It is within a scope, if its groups have weights. -/
theorem exists_bounds (h : m.Drawn stock) (hfinite : stock.Finite) (hstock : Node.Unassigned stock)
    (hshown : Node.Shown stock) : ∃ S : Scope, S.Bounds m := by
  obtain ⟨kind, hkind⟩ := h.kinds
  obtain ⟨weight, hweight⟩ := h.weights hshown
  exact Scope.exists_bounds hfinite hstock hshown h.wellFormed h.tallies hkind hweight

end Memo.Drawn

namespace Plan.Chain

variable {known : TableRef → Prop} {p : Plan}

theorem unassigned (hp : p.Chain known) : Node.Unassigned p.nodes := by
  rintro n ⟨id, hn⟩
  exact hp.logical id n hn

/-- The memo of a plan is drawn from the plan. -/
theorem ofPlan_drawn (hp : p.Chain known) (rows : Float) :
    Ends (fun _ => False) (Memo.ofPlan p rows) fun r => r.1.Drawn p.nodes := by
  have hcarries : Carries p (fun m : Memo Float => m.Drawn p.nodes) fun _ _ _ => True := by
    refine ⟨fun {m m' n gs id} _ hm h hn hgs hinserted => ⟨?_, trivial⟩,
      fun {m m' k n below gs id} hm h _ _ hn hgs hinserted => ⟨?_, trivial⟩⟩
    · rw [← Node.withInputs_nil n] at hgs hinserted
      exact h.entered hp.unassigned ⟨⟨0⟩, hn⟩ hgs hinserted
    · exact h.entered hp.unassigned ⟨⟨k + 1⟩, hn⟩ hgs hinserted
  exact (hp.ofPlan_ends hcarries rows (.empty rows _)).imp fun _ h => h.2.1

/-- The memo of a plan is laid out. -/
theorem ofPlan_laidOut (hp : p.Chain known) (rows : Float) :
    Ends (fun _ => False) (Memo.ofPlan p rows) fun r => ∃ o place, r.1.LaidOut o known place := by
  have hsize := hp.size_eq
  obtain ⟨o, level, houtlined⟩ := hp.exists_outlined (k := p.root.n) (by omega)
  have hentered := hp.ofPlan_ends (E := fun _ => False) (hp.carries_layout houtlined) rows
    ⟨fun _ => .level 0, .empty _ o known _⟩
  exact hentered.imp fun _ h => ⟨o, h.2.1⟩

end Plan.Chain

/-! ### The rules -/

theorem Registry.isShort_of_defaults {rule : Rule}
    (h : rule ∈ Registry.defaults.rules.map (·.2)) : rule.pattern.IsShort := by
  rw [rules_defaults] at h
  simp only [List.mem_cons, List.mem_map] at h
  rcases h with rfl | rfl | ⟨kind, -, rfl⟩
  · exact .inr ⟨_, rfl, rfl⟩
  · exact .inr ⟨_, rfl, rfl⟩
  · exact .inl rfl

/-- No default rule is about a store. -/
theorem Registry.sound_of_defaults {rule : Rule}
    (h : rule ∈ Registry.defaults.rules.map (·.2)) : rule.Sound fun _ => False :=
  (Standard.defaults.rules_standard rule h).sound

namespace Scope

/-- The runs of so many rules on matches in a memo of the greatest size. -/
theorem finite_runs (S : Scope) (rules : Nat) : {run : Nat × List NodeId |
    run.1 < rules ∧ (∀ i ∈ run.2, i ∈ {i : NodeId | i.n < S.maxSize}) ∧
      run.2.length ≤ 2}.Finite := by
  have hids : {i : NodeId | i.n < S.maxSize}.Finite := by
    refine ((Set.finite_lt_nat S.maxSize).image NodeId.mk).subset ?_
    intro i hi
    exact ⟨i.n, hi, rfl⟩
  exact (Set.finite_lt_nat rules).prod (finite_lists hids 2)

/-- The default rules keep a memo within a scope, and fail only if the scope leaves no
    room. -/
def settlingPlot (S : Scope) (o : Outline) (known : TableRef → Prop) :
    Exploration.Plot (fun _ => False) (Registry.defaults.rules.map (·.2)) where
  Invariant m := S.Bounds m ∧ ∃ place, m.LaidOut o known place
  Error e := e = Arena.full ∧ Arena.capacity ≤ S.maxSize
  Done _ found m := found.length ≤ 2 ∧ ∀ i ∈ found, i.n < m.size
  wellFormed h := h.1.wellFormed
  steps h hsteps := ⟨h.1.steps hsteps, Memo.LaidOut.steps h.1.wellFormed h.2 hsteps⟩
  lasts _ hdone hext := ⟨hdone.1, fun i hi => Nat.lt_of_lt_of_le (hdone.2 i hi) hext.size_le⟩
  matches_ends {rule m id n} hrule h hn := by
    have hm := h.1.wellFormed
    have hsound := Registry.sound_of_defaults hrule m m hm hm (.refl m) id n hn
    exact (hsound.imp fun _ _ => trivial).weaken fun _ h => h.elim
  runs {rule m₀ m id n founds} hrule h₀ h hext hn hmatches found hfound := by
    have hm₀ := h₀.1.wellFormed
    have hm := h.1.wellFormed
    obtain ⟨place, hlaid⟩ := h.2
    have hshort := (Registry.isShort_of_defaults hrule).found hm₀ hn hmatches hfound
    have hsound := Registry.sound_of_defaults hrule m₀ m hm₀ hm hext id n hn
    have hhealthy : m.Healthy fun _ => False := hlaid.healthy hm (by simp)
    refine ((hsound.result hmatches found hfound).weaken fun e hfails => ?_).imp fun _ f hf => ?_
    · obtain ⟨hfull, m', hsteps, hcapacity⟩ := hfails hhealthy
      exact ⟨hfull, Nat.le_trans hcapacity (h.1.steps hsteps).size_le_max⟩
    · have hgrown := (hf.steps.wellFormed_and_extends hm).2
      exact ⟨hf, hshort.1, fun i hi =>
        Nat.lt_of_lt_of_le (hshort.2 i hi) (Nat.le_trans hext.size_le hgrown.size_le)⟩

end Scope

/-! ### Exploration -/

namespace Plan

variable {known : TableRef → Prop} {p : Plan}

/-- From a built plan the default rules make boundedly many nodes, and they cannot run
    more often than a certain number of times.  So exploration ends because a round
    changes nothing when the budgets are as large as that, and it fails only if a memo has
    no room for so many nodes.  No filter of the plan may have a conjunct with a NaN that
    its text does not show. -/
theorem explore_settles (hp : p.Built known) (hshown : Node.Shown p.nodes) (rows : Float) :
    ∃ m root, Memo.ofPlan p rows = .ok (m, root) ∧ ∃ bound, ∀ s : OptimizerSettings,
      (∀ ending e, m.explore .defaults s = .ok (ending, e) →
        e.memo.size ≤ bound ∧ e.memo.version ≤ bound ∧ e.firings ≤ bound ∧
          (bound < s.maxIterations → bound < s.maxRuleFirings → ending = .settled)) ∧
      ∀ err, m.explore .defaults s = .error err → err = Arena.full ∧ Arena.capacity ≤ bound := by
  have hchain := hp.chain
  obtain ⟨⟨m, root⟩, hofPlan, hdrawn⟩ := (hchain.ofPlan_drawn rows).exists_result
  obtain ⟨S, hbounds⟩ := hdrawn.exists_bounds p.finite_nodes hchain.unassigned hshown
  obtain ⟨o, hlaid⟩ := (hchain.ofPlan_laidOut rows).result hofPlan
  let rules := Registry.defaults.rules.map (·.2)
  let runs := (S.finite_runs rules.length).toFinset
  refine ⟨m, root, hofPlan, S.maxSize + S.maxGroups + runs.card, fun s => ?_⟩
  have hexplored := Memo.explore_ends (s := s) (S.settlingPlot o known) ⟨hbounds, hlaid⟩
  refine ⟨fun ending e he => ?_, fun err herr => ?_⟩
  · have hended := hexplored.result he
    have hinvariant : S.Bounds e.memo := hended.holds.invariant.1
    have hsize := hinvariant.size_le_max
    have hversion := hinvariant.version_le_max
    have hfirings : e.firings ≤ runs.card := by
      refine hended.holds.firings_le fun position rule found hrule hdone => ?_
      refine (Set.Finite.mem_toFinset _).mpr ⟨(List.getElem?_eq_some_iff.mp hrule).1,
        fun i hi => Nat.lt_of_lt_of_le (hdone.2 i hi) hsize, hdone.1⟩
    refine ⟨by omega, by omega, by omega, fun hrounds hruns => ?_⟩
    cases ending with
    | settled => rfl
    | outOfRounds =>
      have hspent : m.version + s.maxIterations ≤ e.memo.version := hended.outOfRounds rfl
      omega
    | outOfFirings =>
      have hspent : s.maxRuleFirings ≤ e.firings := hended.outOfFirings rfl
      omega
  · obtain ⟨hfull, hcapacity⟩ := hexplored.error herr
    exact ⟨hfull, by omega⟩

end Plan

/-! ### A NaN that is shown -/

/-- `NaN = NaN`. -/
def Expr.nanEqual : Expr :=
  .apply (.compare .eq) [.lit (.double Float.nan), .lit (.double Float.nan)]

namespace Plan

/-- No rows, filtered by `NaN = NaN`. -/
def nanCompared : Plan := ⟨⟨#[.noRows .logical, filterOn ⟨0⟩ .nanEqual]⟩, ⟨1⟩⟩

theorem nanCompared_built {known : TableRef → Prop} : nanCompared.Built known := by
  have hfilter : noRows.step {} (.filter .nanEqual) = .ok nanCompared := rfl
  exact .step noRows_built hfilter

theorem nanCompared_shown : Node.Shown nanCompared.nodes := by
  rintro _ ⟨k, ⟨id, hk⟩, i, condition, hop, rfl⟩ e he ⟨-, hhidden⟩
  have hmem : k ∈ #[Node.noRows .logical, filterOn ⟨0⟩ .nanEqual] :=
    Array.mem_of_getElem? (Arena.get_eq_ok.mp hk)
  obtain rfl | rfl : k = .noRows .logical ∨ k = filterOn ⟨0⟩ .nanEqual := by simpa using hmem
  · cases hop
  · obtain ⟨-, rfl⟩ := RelOp.filter.inj hop
    obtain rfl : e = .nanEqual := List.mem_singleton.mp he
    exact hhidden List.mem_cons_self

theorem explore_settles_nanCompared :
    nanCompared.Built (fun _ => False) ∧ Node.Shown nanCompared.nodes ∧
      ∃ m root, Memo.ofPlan nanCompared 100 = .ok (m, root) ∧ ∃ bound, ∀ s : OptimizerSettings,
        bound < s.maxIterations → bound < s.maxRuleFirings →
          ∀ ending e, m.explore .defaults s = .ok (ending, e) → ending = .settled := by
  obtain ⟨m, root, hofPlan, bound, hbound⟩ :=
    explore_settles (@nanCompared_built fun _ => False) nanCompared_shown 100
  refine ⟨nanCompared_built, nanCompared_shown, m, root, hofPlan, bound, ?_⟩
  intro s hrounds hruns ending e he
  obtain ⟨-, -, -, hsettled⟩ := (hbound s).1 ending e he
  exact hsettled hrounds hruns

end Plan

end Polystore
