import Polystore.Optimizer.Optimize
import Polystore.Proofs.Selection

/-
  Polystore/Proofs/Conventions.lean
  =================================
  **Conventions in extracted plans.**  A pick for a convention is a node of that
  convention, and it is copied into the plan over picks for the convention in
  which it takes its inputs.  So whatever the rules have done, in an optimized
  plan the convention changes only at converters (`Plan.Labelled`).
-/

namespace Polystore

variable {α : Type} {m : Memo α} {s : CostSettings} {w : Winners α}

/-! ### Extraction -/

/-- A node stands in an arena over older nodes of the convention in which it takes
    its inputs. -/
def Node.Placed (n : Node) (a : Arena) (id : NodeId) : Prop :=
  ∀ i ∈ n.inputs, i.n < id.n ∧ ∃ k, a.get i = .ok k ∧ k.convention = n.inputConvention

/-- The nodes of an arena are placed, and they are nodes of a memo over other
    inputs. -/
structure Arena.Copies (m : Memo α) (a : Arena) : Prop where
  placed : ∀ id n, a.get id = .ok n → n.Placed a id
  source : ∀ id n, a.get id = .ok n → ∃ j n₀ inputs, m.node j = .ok n₀ ∧ n = n₀.withInputs inputs

namespace Extraction

/-- An extraction as it is kept. -/
structure Proper (m : Memo α) (e : Extraction) : Prop where
  copies : e.arena.Copies m
  met : ∀ (d : Demand) id, e.met[d]? = some id →
    ∃ n, e.arena.get id = .ok n ∧ n.convention = d.2

/-- Nodes are only added. -/
def Grew (e e' : Extraction) : Prop :=
  ∀ id n, e.arena.get id = .ok n → e'.arena.get id = .ok n

/-- An extraction with one more node, by which a demand is met. -/
def extended (e : Extraction) (d : Demand) (n : Node) : Extraction :=
  ⟨⟨e.arena.nodes.push n⟩, e.met.insert d ⟨e.arena.size⟩⟩

theorem grew_extended {e : Extraction} {d : Demand} {n : Node} : e.Grew (e.extended d n) :=
  fun _ _ h => Arena.get_push.mpr (.inl h)

/-- Adding the copy of a pick. -/
theorem Proper.add {e : Extraction} (he : e.Proper m) {d : Demand} {j : NodeId} {n₀ : Node}
    {inputs : List NodeId} (hn₀ : m.node j = .ok n₀) (hconvention : n₀.convention = d.2)
    (hlength : inputs.length = n₀.inputs.length)
    (hinputs : ∀ i ∈ inputs, ∃ k, e.arena.get i = .ok k ∧ k.convention = n₀.inputConvention) :
    Proper m (e.extended d (n₀.withInputs inputs)) := by
  have hkeep : e.Grew (e.extended d (n₀.withInputs inputs)) := grew_extended
  refine ⟨⟨fun id n hn => ?_, fun id n hn => ?_⟩, fun d' id hid => ?_⟩
  · rcases Arena.get_push.mp hn with hn | ⟨hid, rfl⟩
    · intro i hi
      obtain ⟨hlt, k, hk, hc⟩ := he.copies.placed id n hn i hi
      exact ⟨hlt, k, hkeep _ _ hk, hc⟩
    · intro i hi
      rw [Node.inputs_withInputs hlength] at hi
      obtain ⟨k, hk, hc⟩ := hinputs i hi
      refine ⟨hid ▸ Arena.lt_size_of_get hk, k, hkeep _ _ hk, ?_⟩
      rw [hc, Node.inputConvention_withInputs]
  · rcases Arena.get_push.mp hn with hn | ⟨-, rfl⟩
    · exact he.copies.source id n hn
    · exact ⟨j, n₀, inputs, hn₀, rfl⟩
  · rcases getElem?_insert_eq_some hid with ⟨rfl, rfl⟩ | ⟨-, hid⟩
    · exact ⟨_, Arena.get_push_self, hconvention⟩
    · obtain ⟨n, hn, hc⟩ := he.met d' id hid
      exact ⟨n, hkeep _ _ hn, hc⟩

/-- Extraction copies a node of the convention that was asked for.  Where there is
    a pick to start from, it does not fail for want of an alternative. -/
theorem extract_runs (hw : w.Supported m) {depth : Nat} {d : Demand} {e : Extraction}
    (he : e.Proper m) :
    Runs (fun err => w.Meets d → err.kind = .internal) (extract m w depth d) e fun id e' =>
      e'.Proper m ∧ e.Grew e' ∧ ∃ n, e'.arena.get id = .ok n ∧ n.convention = d.2 := by
  induction depth generalizing d e with
  | zero =>
    refine Runs.after (t := e) rfl (Runs.lift (Ends.require (fun _ _ => rfl) fun id hid => ?_))
    exact ⟨he, fun _ _ h => h, he.met d id hid⟩
  | succ depth ih =>
    refine Runs.after (t := e) rfl ?_
    cases hmet : e.met[d]? with
    | some id => exact Runs.pure ⟨he, fun _ _ h => h, he.met d id hmet⟩
    | none =>
      refine Runs.lift_bind (Ends.require (fun hnone hd => ?_) fun _ h => h) fun x hx => ?_
      · rcases hd with ⟨x, hx⟩
        rw [hnone] at hx
        cases hx
      obtain ⟨n, groups, hmember, hconvention, hmeets⟩ := hw d x hx
      have hgroups : m.inputGroups x.node = .ok groups :=
        except_bind_eq_ok.mpr ⟨n, hmember.node, hmember.inputs⟩
      refine Runs.lift_after hmember.node (Runs.lift_after hgroups ?_)
      have hinputs := Runs.mapM (E := fun err => err.kind = .internal) (l := groups)
        (f := fun g => extract m w depth (g, n.inputConvention)) (J := Proper m) (R := Grew)
        (D := fun _ i e => ∃ k, e.arena.get i = .ok k ∧ k.convention = n.inputConvention)
        (fun _ _ _ h => h) (fun _ _ _ h h' id n hn => h' id n (h id n hn))
        (fun _ i _ _ _ ⟨k, hk, hc⟩ h => ⟨k, h i k hk, hc⟩)
        (fun g hg _ he => (ih he).weaken fun _ h => h (hmeets g hg)) he
      apply (hinputs.weaken fun _ h _ => h).bind
      intro inputs e₁ h₁
      rcases h₁ with ⟨he₁, hgrew, hall⟩
      have hlength : inputs.length = n.inputs.length := by
        rw [← hall.length_eq, (mapM_eq_ok.mp hmember.inputs).length_eq]
      have hcopied : ∀ i ∈ inputs, ∃ k, e₁.arena.get i = .ok k ∧
          k.convention = n.inputConvention := by
        intro i hi
        obtain ⟨-, -, hk⟩ := exists_of_forall₂_right hall i hi
        exact hk
      refine Runs.after (t := e₁) rfl ?_
      refine Runs.lift_bind (Arena.add_ends (.inl ⟨fun i hi => ?_, .inr fun _ => rfl⟩))
        fun r hr => ?_
      · rw [Node.inputs_withInputs hlength] at hi
        obtain ⟨k, hk, -⟩ := hcopied i hi
        exact Arena.lt_size_of_get hk
      rcases hr with ⟨rfl, -, -⟩
      apply Runs.bind (Runs.modify (P := fun _ t => t = _) rfl)
      intro _ e₂ he₂
      subst he₂
      refine Runs.pure ⟨he₁.add hmember.node hconvention hlength hcopied, fun id k hk => ?_,
        n.withInputs inputs, Arena.get_push_self, hconvention⟩
      exact Arena.get_push.mpr (.inl (hgrew id k hk))

end Extraction

/-! ### Optimized plans -/

/-- The nodes of a plan: its root, and the inputs of its nodes. -/
inductive Plan.Reaches (p : Plan) : NodeId → Prop
  | root : Reaches p p.root
  | input {id i : NodeId} {n : Node} (h : Reaches p id) (hn : p.arena.get id = .ok n)
    (hi : i ∈ n.inputs) : Reaches p i

/-- A plan that runs locally in the end.  Each node gets its inputs in the
    convention in which it takes them, which is another one than its own only for
    a converter from that convention. -/
structure Plan.Labelled (p : Plan) : Prop where
  root : ∃ n, p.rootNode = .ok n ∧ n.convention = .enumerable
  inputs : ∀ id, p.Reaches id → ∃ n, p.arena.get id = .ok n ∧ ∀ i ∈ n.inputs,
    ∃ k, p.arena.get i = .ok k ∧ k.convention = n.inputConvention ∧
      (k.convention ≠ n.convention → n.op = .converter i k.convention)

/-- What is reached is in the arena. -/
theorem Plan.Reaches.exists_get {p : Plan} (hcopies : p.arena.Copies m)
    (hroot : ∃ n, p.rootNode = .ok n) {id : NodeId} (h : p.Reaches id) :
    ∃ n, p.arena.get id = .ok n := by
  cases h with
  | root => exact hroot
  | input _ hn hi =>
    obtain ⟨-, k, hk, -⟩ := hcopies.placed _ _ hn _ hi
    exact ⟨k, hk⟩

theorem Plan.labelled_of_copies {p : Plan} (hcopies : p.arena.Copies m)
    (hroot : ∃ n, p.rootNode = .ok n ∧ n.convention = .enumerable) : p.Labelled := by
  refine ⟨hroot, ?_⟩
  intro id hid
  obtain ⟨n, hn⟩ := hid.exists_get hcopies (hroot.imp fun _ h => h.1)
  refine ⟨n, hn, ?_⟩
  intro i hi
  obtain ⟨-, k, hk, hc⟩ := hcopies.placed id n hn i hi
  refine ⟨k, hk, hc, ?_⟩
  intro hne
  rw [hc] at hne ⊢
  cases hop : n.op with
  | converter j source =>
    obtain rfl : i = j := by simpa [Node.inputs, hop, RelOp.inputs] using hi
    simp [Node.inputConvention, hop]
  | _ => simp [Node.inputConvention, hop] at hne

theorem Winners.plan_ends (hw : w.Supported m) (d : Demand) :
    Ends (fun err => w.Meets d → err.kind = .internal) (w.plan m d) fun p =>
      p.arena.Copies m ∧ ∃ n, p.rootNode = .ok n ∧ n.convention = d.2 := by
  have hempty : Extraction.Proper m {} :=
    ⟨⟨fun id n hn => by simp [Arena.get_eq_ok] at hn, fun id n hn => by
      simp [Arena.get_eq_ok] at hn⟩, fun d id hid => by simp at hid⟩
  refine Ends.bind (Extraction.extract_runs hw hempty) fun r hr => Ends.pure ?_
  rcases hr with ⟨he, -, hroot⟩
  exact ⟨he.copies, hroot⟩

/-- The memo in which an optimized plan was found. -/
theorem Plan.exists_memo_of_optimize {p : Plan} {r : Registry} {s : OptimizerSettings}
    {cost : CostSettings} {o : Optimized} (h : p.optimize r s cost = .ok o) :
    ∃ (m : Memo Float) (root : GroupId) (ending : Ending) (e : Exploration),
      Memo.ofPlan p cost.defaultRowCount = .ok (m, root) ∧
      m.explore r s = .ok (ending, e) ∧ o.plan.arena.Copies e.memo ∧ o.plan.Labelled := by
  obtain ⟨⟨m, root⟩, hm, h⟩ := except_bind_eq_ok.mp h
  obtain ⟨⟨ending, e⟩, he, h⟩ := except_bind_eq_ok.mp h
  obtain ⟨w, hw, h⟩ := except_bind_eq_ok.mp h
  obtain ⟨best, -, h⟩ := except_bind_eq_ok.mp h
  obtain ⟨plan, hplan, h⟩ := except_bind_eq_ok.mp h
  obtain rfl := Except.ok.inj h
  have hselect := Winners.select_ends (m := e.memo) (s := cost) (.inr fun _ => trivial)
    (E := fun _ => True)
  obtain ⟨hcopies, hroot⟩ := (Winners.plan_ends (hselect.result hw).1 _).result hplan
  exact ⟨m, root, ending, e, hm, he, hcopies, labelled_of_copies hcopies hroot⟩

end Polystore
