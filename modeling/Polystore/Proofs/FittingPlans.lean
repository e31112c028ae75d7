import Polystore.Proofs.BuiltPlans

/-
  Polystore/Proofs/FittingPlans.lean
  ==================================
  **Every node of a built plan fits its input.**  A step puts one node on the root
  (`Plan.step_pushes`), so what holds between each node and the one below it
  (`Plan.Stacked`) is what held before the step, and between the new node and the
  old root.  Conditions, expressions, ordinals and grouping sets are checked by the
  step itself.  The type and the filter of an aggregate call are not: they were
  derived when the call was made, for whatever row type it was made for.  So the
  calls of a plan fit their inputs exactly when each of them was given to a step
  over a row type for which it could have been made.
-/

namespace Polystore

/-! ### Fitting an input -/

/-- A call has the type its function gives for the fields it reads, and its filter
    is a boolean field. -/
structure AggCall.Fits (c : AggCall) (row : RowType) : Prop where
  type : ∃ fields, c.args.mapM row.field = .ok fields ∧
    c.kind.resultType? (fields.map (·.type)) = some c.type
  filter : ∀ i ∈ c.filter, ∃ f, row.field i = .ok f ∧ f.type = .bool

/-- The calls that fit are those made for the row type, in any order of values. -/
theorem AggCall.fits_iff {c : AggCall} {row : RowType} :
    c.Fits row ↔
      create c.kind c.args c.distinct c.filter row c.name = .ok { c with order := [] } := by
  unfold create
  rw [except_bind_eq_ok]
  constructor
  · rintro ⟨⟨fields, hfields, htype⟩, hfilter⟩
    refine ⟨fields, hfields, except_bind_eq_ok.mpr ⟨c.type, require_eq_ok.mpr htype, ?_⟩⟩
    cases hc : c.filter with
    | none => rfl
    | some i =>
      obtain ⟨f, hf, hbool⟩ := hfilter i hc
      refine except_bind_eq_ok.mpr ⟨f, hf, except_bind_eq_ok.mpr ⟨(), ?_, rfl⟩⟩
      exact ensure_eq_ok.mpr (decide_eq_true hbool)
  · rintro ⟨fields, hfields, h⟩
    obtain ⟨type, htype, h⟩ := except_bind_eq_ok.mp h
    cases hc : c.filter with
    | none =>
      rw [hc] at h
      obtain rfl : type = c.type := congrArg AggCall.type (Except.ok.inj h)
      exact ⟨⟨fields, hfields, require_eq_ok.mp htype⟩, by simp [hc]⟩
    | some i =>
      rw [hc] at h
      obtain ⟨f, hf, h⟩ := except_bind_eq_ok.mp h
      obtain ⟨_, hbool, h⟩ := except_bind_eq_ok.mp h
      obtain rfl : type = c.type := congrArg AggCall.type (Except.ok.inj h)
      refine ⟨⟨fields, hfields, require_eq_ok.mp htype⟩, fun j hj => ?_⟩
      obtain rfl : i = j := Option.some.inj (hc.symm.trans hj)
      exact ⟨f, hf, of_decide_eq_true (ensure_eq_ok.mp hbool)⟩

namespace Plan

variable {p p' : Plan} {c : Catalog}

/-! ### Stacked nodes -/

/-- A relation between each node and the one below it. -/
def Stacked (R : Node → NodeId → Node → Prop) (p : Plan) : Prop :=
  ∀ k below n, p.arena.get ⟨k⟩ = .ok below → p.arena.get ⟨k + 1⟩ = .ok n → R n ⟨k⟩ below

theorem stacked_push {R : Node → NodeId → Node → Prop} {op : RelOp} {traits : Traits}
    {row : RowType} (hsize : p.arena.size = p.root.n + 1) (h : p.push op traits row = .ok p') :
    p'.Stacked R ↔
      p.Stacked R ∧ ∀ below, p.rootNode = .ok below → R ⟨op, traits, row, none⟩ p.root below := by
  obtain ⟨r, hadd, h⟩ := except_bind_eq_ok.mp h
  obtain ⟨rfl, -, -⟩ := Arena.add_eq_ok hadd
  obtain rfl := Except.ok.inj h
  constructor
  · intro hstacked
    constructor
    · intro k below n hbelow hn
      exact hstacked k below n (Arena.get_push.mpr (.inl hbelow)) (Arena.get_push.mpr (.inl hn))
    · intro below hbelow
      refine hstacked p.root.n below _ (Arena.get_push.mpr (.inl hbelow)) ?_
      exact Arena.get_push.mpr (.inr ⟨hsize.symm, rfl⟩)
  · rintro ⟨hstacked, hroot⟩ k below n hbelow hn
    rcases Arena.get_push.mp hn with hn | ⟨hid, rfl⟩
    · have hlt := Arena.lt_size_of_get hn
      rcases Arena.get_push.mp hbelow with hbelow | ⟨hid, -⟩
      · exact hstacked k below n hbelow hn
      · simp only at hid hlt
        omega
    · have hk : p.root = ⟨k⟩ := by
        have heq : p.root.n = k := by
          simp only at hid
          omega
        rw [← heq]
      rcases Arena.get_push.mp hbelow with hbelow | ⟨hid', -⟩
      · rw [← hk] at hbelow ⊢
        exact hroot below hbelow
      · simp only at hid hid'
        omega

/-! ### Sequences of steps -/

/-- A plan to start from. -/
inductive Leaf : Plan → Prop
  | named {c : Catalog} {space name : String} {p : Plan} (h : Plan.scan c space name = .ok p) :
    Leaf p
  | scan {t : TableRef} {row : RowType} {p : Plan} (h : Plan.scanRef t row = .ok p) : Leaf p
  | values {row : RowType} {tuples : List (List Value)} {p : Plan}
    (h : Plan.values row tuples = .ok p) : Leaf p

/-- The plan after steps that all succeed. -/
def build (c : Catalog) (p : Plan) (steps : List Step) : Except Error Plan := steps.foldlM (step c) p

/-- Every call that a step brings fits the rows of the plan on which it is put. -/
def CallsFit (c : Catalog) (p : Plan) : List Step → Prop
  | [] => True
  | s :: rest => (∀ row, p.rowType = .ok row → ∀ call ∈ s.calls, call.Fits row) ∧
      ∀ p', p.step c s = .ok p' → CallsFit c p' rest

/-- The calls of a node fit the node below it. -/
def CallsFitOn (n : Node) (_ : NodeId) (below : Node) : Prop :=
  ∀ call ∈ n.op.calls, call.Fits below.row

theorem Leaf.chain (h : p.Leaf) : p.Chain fun _ => True := by
  cases h with
  | named h =>
    obtain ⟨t, -, h⟩ := except_bind_eq_ok.mp h
    obtain ⟨row, -, h⟩ := except_bind_eq_ok.mp h
    exact chain_ofLeaf h (.scan rfl trivial)
  | scan h => exact chain_ofLeaf h (.scan rfl trivial)
  | values h =>
    obtain ⟨_, -, h⟩ := except_bind_eq_ok.mp h
    exact chain_ofLeaf h (.values rfl)

theorem Leaf.size_eq_one (h : p.Leaf) : p.arena.size = 1 := by
  have hleaf : ∀ {op row}, ofLeaf op row = .ok p → p.arena.size = 1 := by
    intro op row h
    obtain ⟨r, hadd, h⟩ := except_bind_eq_ok.mp h
    obtain ⟨rfl, -, -⟩ := Arena.add_eq_ok hadd
    obtain rfl := Except.ok.inj h
    rfl
  cases h with
  | named h =>
    obtain ⟨t, -, h⟩ := except_bind_eq_ok.mp h
    obtain ⟨row, -, h⟩ := except_bind_eq_ok.mp h
    exact hleaf h
  | scan h => exact hleaf h
  | values h =>
    obtain ⟨_, -, h⟩ := except_bind_eq_ok.mp h
    exact hleaf h

theorem Leaf.stacked (h : p.Leaf) (R : Node → NodeId → Node → Prop) : p.Stacked R := by
  intro k below n _ hn
  have hlt := Arena.lt_size_of_get hn
  rw [h.size_eq_one] at hlt
  exact absurd (Nat.lt_one_iff.mp hlt) (Nat.succ_ne_zero k)

section

variable {known : TableRef → Prop} {steps : List Step}

theorem chain_build (hp : p.Chain known) (h : build c p steps = .ok p') : p'.Chain known := by
  induction steps generalizing p with
  | nil =>
    obtain rfl := Except.ok.inj h
    exact hp
  | cons s steps ih =>
    obtain ⟨p₁, hstep, h⟩ := except_bind_eq_ok.mp h
    exact ih (chain_step hp hstep) h

/-- Whatever the calls, the nodes fit. -/
theorem fitsOn_build (hp : p.Chain known) (hfits : p.Stacked Node.FitsOn)
    (h : build c p steps = .ok p') : p'.Stacked Node.FitsOn := by
  induction steps generalizing p with
  | nil =>
    obtain rfl := Except.ok.inj h
    exact hfits
  | cons s steps ih =>
    obtain ⟨p₁, hstep, h⟩ := except_bind_eq_ok.mp h
    obtain ⟨op, traits, row, hpush, -, -, hroot⟩ := step_pushes hstep
    exact ih (chain_step hp hstep) ((stacked_push hp.size_eq hpush).mpr ⟨hfits, hroot⟩) h

/-- A step leaves calls that fit exactly when those it brings do. -/
theorem callsFitOn_step {s : Step} (hp : p.Chain known) (h : p.step c s = .ok p') :
    p'.Stacked CallsFitOn ↔ p.Stacked CallsFitOn ∧
      ∀ row, p.rowType = .ok row → ∀ call ∈ s.calls, call.Fits row := by
  obtain ⟨op, traits, row, hpush, -, hcalls, -⟩ := step_pushes h
  rw [stacked_push hp.size_eq hpush, ← hcalls]
  refine and_congr_right fun _ => ⟨fun hfits row hrow => ?_, fun hfits below hbelow => ?_⟩
  · obtain ⟨below, hbelow, rfl⟩ := rowType_eq_ok.mp hrow
    exact hfits below hbelow
  · exact hfits below.row (rowType_eq_ok.mpr ⟨below, hbelow, rfl⟩)

theorem callsFitOn_build (hp : p.Chain known) (h : build c p steps = .ok p') :
    p'.Stacked CallsFitOn ↔ p.Stacked CallsFitOn ∧ CallsFit c p steps := by
  induction steps generalizing p with
  | nil =>
    obtain rfl := Except.ok.inj h
    exact ⟨fun hcalls => ⟨hcalls, trivial⟩, And.left⟩
  | cons s steps ih =>
    obtain ⟨p₁, hstep, h⟩ := except_bind_eq_ok.mp h
    rw [ih (chain_step hp hstep) h, callsFitOn_step hp hstep, and_assoc]
    refine and_congr_right fun _ => and_congr_right fun _ => ⟨fun hrest p₂ hp₂ => ?_, ?_⟩
    · rw [hstep] at hp₂
      obtain rfl := Except.ok.inj hp₂
      exact hrest
    · exact fun hrest => hrest p₁ hstep

/-- What holds between stacked nodes holds between a node and the one it reads. -/
theorem stacked_iff {R : Node → NodeId → Node → Prop} (hp : p.Chain known)
    (hfits : p.Stacked Node.FitsOn) :
    p.Stacked R ↔ ∀ id n i below, p.arena.get id = .ok n → n.inputs = [i] →
      p.arena.get i = .ok below → R n i below := by
  constructor
  · intro hstacked id n i below hn hinputs hbelow
    rcases id with ⟨k | k⟩
    · exfalso
      rw [Node.inputs] at hinputs
      cases hp.bottom n hn with
      | scan hop =>
        rw [hop] at hinputs
        cases hinputs
      | values hop =>
        rw [hop] at hinputs
        cases hinputs
    · obtain ⟨under, hunder, -⟩ := hp.above k n hn
      have heq := (hfits k under n hunder hn).inputs
      rw [hinputs] at heq
      obtain rfl : i = ⟨k⟩ := List.singleton_inj.mp heq
      exact hstacked k below n hbelow hn
  · intro h k below n hbelow hn
    exact h _ n _ below hn (hfits k below n hbelow hn).inputs hbelow

end

/-- Every node of a built plan is a leaf or fits the node it reads.  Its aggregate
    calls fit, too, exactly when each of them was given to a step over rows it
    fits. -/
theorem build_fits {start p : Plan} {steps : List Step} (hstart : start.Leaf)
    (h : build c start steps = .ok p) :
    (∀ id n, p.arena.get id = .ok n → n.IsLeaf (fun _ => True) ∨
      ∃ i below, i.n < id.n ∧ p.arena.get i = .ok below ∧ n.FitsOn i below) ∧
    ((∀ id n i below, p.arena.get id = .ok n → n.inputs = [i] → p.arena.get i = .ok below →
      ∀ call ∈ n.op.calls, call.Fits below.row) ↔ CallsFit c start steps) := by
  have hp := chain_build hstart.chain h
  have hfits := fitsOn_build hstart.chain (hstart.stacked _) h
  constructor
  · intro id n hn
    rcases id with ⟨k | k⟩
    · exact .inl (hp.bottom n hn)
    · obtain ⟨below, hbelow, -⟩ := hp.above k n hn
      exact .inr ⟨⟨k⟩, below, Nat.lt_succ_self k, hbelow, hfits k below n hbelow hn⟩
  · have hread : p.Stacked CallsFitOn ↔ _ := stacked_iff hp hfits
    have hcalls := callsFitOn_build hstart.chain h
    exact hread.symm.trans (hcalls.trans (and_iff_right (hstart.stacked _)))

/-- The plan of no rows with one column. -/
def oneColumn (t : DataType) : Plan :=
  ⟨⟨#[⟨.values [], {}, ⟨[⟨"x", t, false⟩]⟩, none⟩]⟩, ⟨0⟩⟩

theorem oneColumn_leaf (t : DataType) : (oneColumn t).Leaf :=
  have hvalues : Plan.values ⟨[⟨"x", t, false⟩]⟩ [] = .ok (oneColumn t) := rfl
  .values hvalues

/-- A sum made for integers. -/
def totalCall : AggCall := ⟨.sum, [0], false, none, [], .bigint, some "total"⟩

theorem create_totalCall :
    AggCall.create .sum [0] false none ⟨[⟨"x", .bigint, false⟩]⟩ (some "total") = .ok totalCall :=
  rfl

/-- On integers the sum fits. -/
theorem build_fits_total : ∃ p, build {} (oneColumn .bigint) [.groupBy ["x"] [totalCall]] = .ok p ∧
    (∀ id n, p.arena.get id = .ok n → n.IsLeaf (fun _ => True) ∨
      ∃ i below, i.n < id.n ∧ p.arena.get i = .ok below ∧ n.FitsOn i below) ∧
    ∀ id n i below, p.arena.get id = .ok n → n.inputs = [i] → p.arena.get i = .ok below →
      ∀ call ∈ n.op.calls, call.Fits below.row := by
  have hcalls : CallsFit {} (oneColumn .bigint) [.groupBy ["x"] [totalCall]] := by
    refine ⟨fun row hrow call hcall => ?_, fun _ _ => trivial⟩
    obtain rfl := Except.ok.inj hrow
    obtain rfl := List.mem_singleton.mp hcall
    exact AggCall.fits_iff.mpr create_totalCall
  obtain ⟨p, hp⟩ : ∃ p, build {} (oneColumn .bigint) [.groupBy ["x"] [totalCall]] = .ok p :=
    ⟨_, rfl⟩
  obtain ⟨hnodes, hiff⟩ := build_fits (oneColumn_leaf .bigint) hp
  exact ⟨p, hp, hnodes, hiff.mpr hcalls⟩

/-- The same sum is put on texts. -/
theorem build_misfit : ∃ p, build {} (oneColumn .string) [.groupBy ["x"] [totalCall]] = .ok p ∧
    ¬ ∀ id n i below, p.arena.get id = .ok n → n.inputs = [i] → p.arena.get i = .ok below →
      ∀ call ∈ n.op.calls, call.Fits below.row := by
  refine ⟨_, rfl, fun hfits => ?_⟩
  have hcall := hfits ⟨1⟩ _ ⟨0⟩ _ rfl rfl rfl totalCall List.mem_cons_self
  obtain ⟨⟨fields, hfields, htype⟩, -⟩ := hcall
  obtain rfl := Except.ok.inj hfields
  exact absurd htype (by decide)

end Plan

end Polystore
