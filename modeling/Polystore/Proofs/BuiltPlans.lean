import Polystore.Plan.Builder
import Polystore.Proofs.Arenas
import Polystore.Proofs.Trimming

/-
  Polystore/Proofs/BuiltPlans.lean
  ================================
  **What the builder makes.**  A step puts one node on the root, and this node fits
  the row type it reads (`Plan.step_pushes`).  So a built plan is a chain of logical
  nodes without fragments: a leaf at the bottom, and each further node on the one
  before it (`Built.chain`).
-/

namespace Polystore

/-- A plan made by the builder from a leaf and steps.  Of the tables that are
    scanned something may be known. -/
inductive Plan.Built (known : TableRef → Prop) : Plan → Prop
  | scan {t : TableRef} {row : RowType} {p : Plan} (ht : known t)
    (h : Plan.scanRef t row = .ok p) : Built known p
  | values {row : RowType} {tuples : List (List Value)} {p : Plan}
    (h : Plan.values row tuples = .ok p) : Built known p
  | step {c : Catalog} {p p' : Plan} {s : Plan.Step} (hp : Built known p)
    (h : p.step c s = .ok p') : Built known p'

theorem Plan.Built.mono {known known' : TableRef → Prop} (hknown : ∀ t, known t → known' t)
    {p : Plan} (h : p.Built known) : p.Built known' := by
  induction h with
  | scan ht h => exact .scan (hknown _ ht) h
  | values h => exact .values h
  | step _ h ih => exact .step ih h

/-- The table is one of the catalog. -/
def Catalog.Lists (c : Catalog) (t : TableRef) : Prop := ∃ row, c.rowType t.id = .ok row

theorem Plan.built_of_scan {c : Catalog} {space name : String} {p : Plan}
    (h : Plan.scan c space name = .ok p) : p.Built c.Lists := by
  obtain ⟨t, -, h⟩ := except_bind_eq_ok.mp h
  obtain ⟨row, hrow, h⟩ := except_bind_eq_ok.mp h
  have ht : c.Lists ⟨t.id, t.space, t.name, t.rows⟩ := ⟨row, hrow⟩
  exact .scan ht h

/-- A node at the bottom of a plan. -/
inductive Node.IsLeaf (known : TableRef → Prop) (n : Node) : Prop
  | scan {t : TableRef} (hop : n.op = .scan t) (ht : known t)
  | values {tuples : List (List Value)} (hop : n.op = .values tuples)

/-- How a node may stand on another one. -/
inductive Node.StandsOn (n : Node) (i : NodeId) (below : Node) : Prop
  | filter {condition : Expr} (hop : n.op = .filter i condition) (hrow : n.row = below.row)
  | project {exprs : List Expr} (hop : n.op = .project i exprs)
  | aggregate {a : Aggregation} (hop : n.op = .aggregate i a)
    (ha : a.ReadsWithin below.row.arity)
  | sort {o : Ordered} (hop : n.op = .sort i o) (hrow : n.row = below.row)
  | modify {t : TableRef} {kind : ModifyKind} (hop : n.op = .modify i t kind)

/-- The calls of an operator. -/
def RelOp.calls : RelOp → List AggCall
  | aggregate _ a => a.calls
  | _ => []

/-- A node fits the node it reads, up to the types and filters of its calls. -/
inductive Node.FitsOn (n : Node) (i : NodeId) (below : Node) : Prop
  | filter {condition : Expr} (hop : n.op = .filter i condition)
    (hcheck : condition.check below.row = .ok ())
    (htype : condition.type = .bool ∨ condition.type = .any) (hrow : n.row = below.row)
  | project {exprs : List Expr} (hop : n.op = .project i exprs)
    (hcheck : ∀ e ∈ exprs, e.check below.row = .ok ())
    (hrow : n.row.fields.map (·.type) = exprs.map Expr.type)
  | aggregate {a : Aggregation} (hop : n.op = .aggregate i a)
    (hsets : Grouping.validate a.key a.sets = .ok ()) (hreads : a.ReadsWithin below.row.arity)
    (hrow : a.rowType below.row = .ok n.row)
  | sort {o : Ordered} (hop : n.op = .sort i o)
    (hcollation : ∀ x ∈ o.collation, x.field < below.row.arity) (hrow : n.row = below.row)
  | modify {t : TableRef} {kind : ModifyKind} (hop : n.op = .modify i t kind)

theorem Node.FitsOn.inputs {n : Node} {i : NodeId} {below : Node} (h : n.FitsOn i below) :
    n.inputs = [i] := by
  unfold Node.inputs
  cases h with
  | filter hop => rw [hop]; rfl
  | project hop => rw [hop]; rfl
  | aggregate hop => rw [hop]; rfl
  | sort hop => rw [hop]; rfl
  | modify hop => rw [hop]; rfl

theorem Node.FitsOn.standsOn {n : Node} {i : NodeId} {below : Node} (h : n.FitsOn i below) :
    n.StandsOn i below := by
  cases h with
  | filter hop _ _ hrow => exact .filter hop hrow
  | project hop _ _ => exact .project hop
  | aggregate hop _ hreads _ => exact .aggregate hop hreads
  | sort hop _ hrow => exact .sort hop hrow
  | modify hop => exact .modify hop

/-- A plan in which each node stands on the one before it. -/
structure Plan.Chain (known : TableRef → Prop) (p : Plan) : Prop where
  size_eq : p.arena.size = p.root.n + 1
  size_le : p.arena.size ≤ Arena.capacity
  logical : ∀ id n, p.arena.get id = .ok n → n.convention = .logical ∧ n.native = none
  bottom : ∀ n, p.arena.get ⟨0⟩ = .ok n → n.IsLeaf known
  above : ∀ k n, p.arena.get ⟨k + 1⟩ = .ok n →
    ∃ below, p.arena.get ⟨k⟩ = .ok below ∧ n.StandsOn ⟨k⟩ below

namespace Plan

variable {known : TableRef → Prop} {p p' : Plan}

theorem chain_ofLeaf {op : RelOp} {row : RowType} (h : ofLeaf op row = .ok p)
    (hleaf : Node.IsLeaf known ⟨op, {}, row, none⟩) : p.Chain known := by
  obtain ⟨r, hadd, h⟩ := except_bind_eq_ok.mp h
  obtain ⟨rfl, -, hroom⟩ := Arena.add_eq_ok hadd
  obtain rfl := Except.ok.inj h
  have hget : ∀ {id : NodeId} {n : Node}, Arena.get ⟨#[].push ⟨op, {}, row, none⟩⟩ id = .ok n →
      id.n = 0 ∧ n = ⟨op, {}, row, none⟩ := by
    intro id n hn
    rcases Arena.get_push.mp hn with hn | hn
    · simp [Arena.get_eq_ok] at hn
    · exact hn
  refine ⟨rfl, hroom, fun id n hn => ?_, fun n hn => ?_, fun k n hn => ?_⟩
  · rw [(hget hn).2]
    exact ⟨rfl, rfl⟩
  · rw [(hget hn).2]
    exact hleaf
  · exact absurd (hget hn).1 (Nat.succ_ne_zero k)

/-- Putting a node on the root. -/
theorem chain_push (hp : p.Chain known) {op : RelOp} {traits : Traits} {row : RowType}
    (h : p.push op traits row = .ok p') (hlogical : traits.convention = .logical)
    (hstands : ∀ below, p.rootNode = .ok below →
      Node.StandsOn ⟨op, traits, row, none⟩ p.root below) : p'.Chain known := by
  obtain ⟨r, hadd, h⟩ := except_bind_eq_ok.mp h
  obtain ⟨rfl, -, hroom⟩ := Arena.add_eq_ok hadd
  obtain rfl := Except.ok.inj h
  have hsize : Arena.size ⟨p.arena.nodes.push ⟨op, traits, row, none⟩⟩ = p.arena.size + 1 :=
    Array.size_push _
  refine ⟨hsize, hsize ▸ hroom, fun id n hn => ?_, fun n hn => ?_, fun k n hn => ?_⟩
  · rcases Arena.get_push.mp hn with hn | ⟨-, rfl⟩
    · exact hp.logical id n hn
    · exact ⟨hlogical, rfl⟩
  · rcases Arena.get_push.mp hn with hn | ⟨hid, -⟩
    · exact hp.bottom n hn
    · have hsize := hp.size_eq
      have hzero : 0 = p.arena.size := hid
      omega
  · rcases Arena.get_push.mp hn with hn | ⟨hid, rfl⟩
    · obtain ⟨below, hbelow, hon⟩ := hp.above k n hn
      exact ⟨below, Arena.get_push.mpr (.inl hbelow), hon⟩
    · have hsize := hp.size_eq
      have hk : k + 1 = p.arena.size := hid
      have hroot : p.root = ⟨k⟩ := by
        have heq : p.root.n = k := by omega
        cases hr : p.root
        simp_all
      obtain ⟨below, hbelow⟩ : ∃ below, p.arena.get ⟨k⟩ = .ok below :=
        Arena.exists_get (by simp only; omega)
      refine ⟨below, Arena.get_push.mpr (.inl hbelow), ?_⟩
      rw [← hroot] at hbelow ⊢
      exact hstands below hbelow

theorem rowType_eq_ok {row : RowType} :
    p.rowType = .ok row ↔ ∃ n, p.rootNode = .ok n ∧ n.row = row := by
  unfold rowType
  rw [except_bind_eq_ok]
  simp only [pure, Except.pure, Except.ok.injEq]

/-! ### What a step checks -/

theorem readsWithin_of_rowType {a : Aggregation} {row row' : RowType}
    (hcalls : ∀ call ∈ a.calls, ∀ i ∈ call.inputRefs, i < row.arity)
    (h : a.rowType row = .ok row') : a.ReadsWithin row.arity := by
  obtain ⟨_, hvalid, h⟩ := except_bind_eq_ok.mp h
  obtain ⟨keys, hkeys, h⟩ := except_bind_eq_ok.mp h
  refine ⟨fun i hi => ?_, fun s hs i hi => ?_, hcalls⟩
  · have hmem := (OrdinalSet.mem_toList a.key i).mpr hi
    obtain ⟨f, -, hf⟩ := exists_of_forall₂_left (mapM_eq_ok.mp hkeys) i hmem
    obtain ⟨source, hsource, -⟩ := except_bind_eq_ok.mp hf
    exact (List.getElem?_eq_some_iff.mp (require_eq_ok.mp hsource)).1
  · exact (Grouping.validate_eq_ok.mp hvalid).2.1 s hs i hi

theorem lt_arity_of_field (row : RowType) (i : Nat) :
    Ends (fun _ => True) (Functor.discard (row.field i)) fun _ => i < row.arity := by
  refine Ends.discard (Ends.of_ok (fun _ => trivial) fun f hf => ?_)
  exact (List.getElem?_eq_some_iff.mp (require_eq_ok.mp hf)).1

theorem eq_row_of_rootNode {row : RowType} {below : Node} (hrow : p.rowType = .ok row)
    (hbelow : p.rootNode = .ok below) : row = below.row := by
  obtain ⟨n, hn, rfl⟩ := rowType_eq_ok.mp hrow
  rw [hbelow] at hn
  obtain rfl := Except.ok.inj hn
  rfl

/-- A plan with one more node, which fits the old root. -/
def Pushes (p : Plan) (calls : List AggCall) (p' : Plan) : Prop :=
  ∃ op traits row, p.push op traits row = .ok p' ∧ traits.convention = .logical ∧
    op.calls = calls ∧
    ∀ below, p.rootNode = .ok below → Node.FitsOn ⟨op, traits, row, none⟩ p.root below

theorem pushes_filter {condition : Expr} (h : p.filter condition = .ok p') : p.Pushes [] p' := by
  obtain ⟨row, hrow, h⟩ := except_bind_eq_ok.mp h
  obtain ⟨_, hcheck, h⟩ := except_bind_eq_ok.mp h
  obtain ⟨_, htype, h⟩ := except_bind_eq_ok.mp h
  refine ⟨_, _, _, h, rfl, rfl, fun below hbelow => ?_⟩
  obtain rfl := eq_row_of_rootNode hrow hbelow
  have htype := ensure_eq_ok.mp htype
  rw [Bool.or_eq_true, decide_eq_true_eq, decide_eq_true_eq] at htype
  exact .filter rfl hcheck htype rfl

theorem outputField_eq_ok {row : RowType} {i : Nat} {column : Expr × Option String} {f : Field}
    (h : outputField row i column = .ok f) :
    column.1.check row = .ok () ∧ f.type = column.1.type ∧ f.nullable = mayBeNull row column.1 := by
  obtain ⟨_, hcheck, h⟩ := except_bind_eq_ok.mp h
  refine ⟨hcheck, ?_⟩
  -- the three ways to name a field
  split at h
  · obtain rfl := Except.ok.inj h
    exact ⟨rfl, rfl⟩
  · obtain ⟨source, -, h⟩ := except_bind_eq_ok.mp h
    obtain rfl := Except.ok.inj h
    exact ⟨rfl, rfl⟩
  · obtain rfl := Except.ok.inj h
    exact ⟨rfl, rfl⟩

theorem outputFields_eq_ok {row : RowType} {columns : List (Expr × Option String)} {i : Nat}
    {fields : List Field} (h : outputFields row i columns = .ok fields) :
    (∀ e ∈ columns.map (·.1), e.check row = .ok ()) ∧
      fields.map (·.type) = (columns.map (·.1)).map Expr.type ∧
      fields.map (·.nullable) = (columns.map (·.1)).map (mayBeNull row) := by
  induction columns generalizing i fields with
  | nil =>
    obtain rfl := Except.ok.inj h
    simp
  | cons column columns ih =>
    obtain ⟨f, hf, h⟩ := except_bind_eq_ok.mp h
    obtain ⟨rest, hrest, h⟩ := except_bind_eq_ok.mp h
    obtain rfl := Except.ok.inj h
    obtain ⟨hcheck, htype, hnullable⟩ := outputField_eq_ok hf
    obtain ⟨hchecks, htypes, hnullables⟩ := ih hrest
    refine ⟨List.forall_mem_cons.mpr ⟨hcheck, hchecks⟩, ?_, ?_⟩
    · rw [List.map_cons, List.map_cons, List.map_cons, htype, htypes]
    · rw [List.map_cons, List.map_cons, List.map_cons, hnullable, hnullables]

theorem pushes_project {columns : List (Expr × Option String)}
    (h : p.project columns = .ok p') : p.Pushes [] p' := by
  obtain ⟨row, hrow, h⟩ := except_bind_eq_ok.mp h
  obtain ⟨fields, hfields, h⟩ := except_bind_eq_ok.mp h
  refine ⟨_, _, _, h, rfl, rfl, fun below hbelow => ?_⟩
  obtain rfl := eq_row_of_rootNode hrow hbelow
  obtain ⟨hchecks, htypes, -⟩ := outputFields_eq_ok hfields
  exact .project rfl hchecks htypes

theorem pushes_aggregate {a : Aggregation} (h : p.aggregate a = .ok p') : p.Pushes a.calls p' := by
  obtain ⟨row, hrow, h⟩ := except_bind_eq_ok.mp h
  obtain ⟨_, hchecked, h⟩ := except_bind_eq_ok.mp h
  obtain ⟨row', hrow', h⟩ := except_bind_eq_ok.mp h
  have hcalls : ∀ call ∈ a.calls, ∀ i ∈ call.inputRefs, i < row.arity := by
    have hends := Ends.forIn (P := fun call : AggCall => ∀ i ∈ call.inputRefs, i < row.arity)
      fun call (_ : call ∈ a.calls) => Ends.forIn fun i (_ : i ∈ call.inputRefs) =>
        lt_arity_of_field row i
    exact hends.result hchecked
  refine ⟨_, _, _, h, rfl, rfl, fun below hbelow => ?_⟩
  obtain rfl := eq_row_of_rootNode hrow hbelow
  obtain ⟨_, hvalid, -⟩ := except_bind_eq_ok.mp hrow'
  exact .aggregate rfl hvalid (readsWithin_of_rowType hcalls hrow') hrow'

theorem pushes_sort {o : Ordered} (h : p.sort o = .ok p') : p.Pushes [] p' := by
  obtain ⟨row, hrow, h⟩ := except_bind_eq_ok.mp h
  obtain ⟨_, hchecked, h⟩ := except_bind_eq_ok.mp h
  have hcollation : ∀ x ∈ o.collation, x.field < row.arity := by
    have hends := Ends.forIn (P := fun x : FieldCollation => x.field < row.arity)
      fun x (_ : x ∈ o.collation) => lt_arity_of_field row x.field
    exact hends.result hchecked
  refine ⟨_, _, _, h, rfl, rfl, fun below hbelow => ?_⟩
  obtain rfl := eq_row_of_rootNode hrow hbelow
  exact .sort rfl hcollation rfl

/-- The calls that a step brings. -/
def Step.calls : Step → List AggCall
  | .aggregate a => a.calls
  | .groupBy _ calls => calls
  | _ => []

/-- A step puts one node on the root, which fits it and has the calls of the
    step. -/
theorem step_pushes {c : Catalog} {s : Step} (h : p.step c s = .ok p') : p.Pushes s.calls p' := by
  cases s with
  | filter condition => exact pushes_filter h
  | project columns => exact pushes_project h
  | projectFields names =>
    obtain ⟨columns, -, h⟩ := except_bind_eq_ok.mp h
    exact pushes_project h
  | aggregate a => exact pushes_aggregate h
  | groupBy keys calls =>
    obtain ⟨row, -, h⟩ := except_bind_eq_ok.mp h
    obtain ⟨ordinals, -, h⟩ := except_bind_eq_ok.mp h
    exact pushes_aggregate h
  | sort o => exact pushes_sort h
  | limit offset fetch => exact pushes_sort h
  | modify t kind =>
    obtain ⟨target, -, h⟩ := except_bind_eq_ok.mp h
    obtain ⟨row, -, h⟩ := except_bind_eq_ok.mp h
    obtain ⟨_, -, h⟩ := except_bind_eq_ok.mp h
    exact ⟨_, _, _, h, rfl, rfl, fun below _ => .modify rfl⟩

theorem chain_step {c : Catalog} {s : Step} (hp : p.Chain known) (h : p.step c s = .ok p') :
    p'.Chain known := by
  obtain ⟨op, traits, row, hpush, hlogical, -, hfits⟩ := step_pushes h
  exact chain_push hp hpush hlogical fun below hbelow => (hfits below hbelow).standsOn

theorem Built.chain (h : p.Built known) : p.Chain known := by
  induction h with
  | scan ht h => exact chain_ofLeaf h (.scan rfl ht)
  | values h =>
    obtain ⟨_, -, h⟩ := except_bind_eq_ok.mp h
    exact chain_ofLeaf h (.values rfl)
  | step _ h ih => exact chain_step ih h

end Plan

end Polystore
