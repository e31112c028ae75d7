import Polystore.Optimizer.Registry
import Polystore.Proofs.Fragments
import Polystore.Proofs.Matches

/-
  Polystore/Proofs/Offers.lean
  ============================
  **What the rules offer.**  Each rule enters nodes of a few forms into the memo,
  and what is to be known about all rules is said once, as the list of these forms
  (`Memo.Offer`).  Whatever a rule does to a memo is a sequence of insertions of
  offered nodes (`Rule.Standard.runs`), and where the memo is healthy nothing but
  the limit on its size can stop it.
-/

namespace Polystore

open StoreRules

/-! ### Offers -/

/-- The nodes that the rules may enter into a memo, as equivalents of a group or in
    a group of their own.  The stores whose rules run are in known catalogs. -/
inductive Memo.Offer (known : Catalog → Prop) (m : Memo Float) : Node → Option GroupId → Prop
  /-- A logical operator, run locally. -/
  | locally {r : NodeId} {root : Node} {g : GroupId} (hroot : m.Has r root g)
    (hlogical : root.convention = .logical) (hkind : root.kind ∈ LocalEngine.operators) :
    Offer known m (root.withConvention .enumerable) (some g)
  /-- One filter for two. -/
  | mergedFilter {r i k j : NodeId} {root below : Node} {g h : GroupId} {upper lower : Expr}
    (hroot : m.Has r root g) (hlogical : root.convention = .logical)
    (hop : root.op = .filter i upper) (hinput : m.groupOf i = .ok h) (hbelow : m.Has k below h)
    (hlogical' : below.convention = .logical) (hop' : below.op = .filter j lower) :
    Offer known m ⟨.filter j (FilterMerge.mergedCondition lower upper), root.traits, root.row, none⟩
      (some g)
  /-- The fields of an aggregate's input that it reads. -/
  | projection {r i k : NodeId} {root below n : Node} {g h : GroupId} {a : Aggregation}
    (hroot : m.Has r root g) (hlogical : root.convention = .logical)
    (hop : root.op = .aggregate i a) (hinput : m.groupOf i = .ok h) (hbelow : m.Has k below h)
    (hlogical' : below.convention = .logical) (hkind : below.kind ≠ .project)
    (hn : AggregateTrim.projection (AggregateTrim.usedFields a) k below.row = .ok n) :
    Offer known m n none
  /-- An aggregate over the fields that it reads. -/
  | trimmed {r i k p : NodeId} {root below n : Node} {g h : GroupId} {a a' : Aggregation}
    (hroot : m.Has r root g) (hlogical : root.convention = .logical)
    (hop : root.op = .aggregate i a) (hinput : m.groupOf i = .ok h) (hbelow : m.Has k below h)
    (hlogical' : below.convention = .logical) (hkind : below.kind ≠ .project)
    (hn : AggregateTrim.projection (AggregateTrim.usedFields a) k below.row = .ok n)
    (hkeeps : m.Keeps n p)
    (ha : AggregateTrim.trimmed (AggregateTrim.usedFields a) a = .ok a') :
    Offer known m ⟨.aggregate p a', root.traits, root.row, none⟩ (some g)
  /-- A table, read by a store. -/
  | scan {t : Target} {r : NodeId} {root : Node} {g : GroupId} {table : TableRef} {f : Fragment}
    (hknown : known t.catalog) (hroot : m.Has r root g) (hlogical : root.convention = .logical)
    (hop : root.op = .scan table) (hf : f.IsClause t.store.backend .scan) :
    Offer known m (t.pushed root root.op f) (some g)
  /-- A logical operator, run by the store that runs its input. -/
  | pushed {t : Target} {r i k : NodeId} {root below : Node} {g h : GroupId} {f : Fragment}
    (hknown : known t.catalog) (hroot : m.Has r root g) (hlogical : root.convention = .logical)
    (hkind : root.kind ∈ [RelKind.filter, .project, .aggregate, .sort])
    (hop : root.inputs = [i]) (hinput : m.groupOf i = .ok h) (hbelow : m.Has k below h)
    (hbelow' : below.convention = t.convention) (hf : f.backend = t.store.backend) :
    Offer known m (t.pushed root (root.op.withInputs [k]) f) (some g)
  /-- The part of a filter that a store takes. -/
  | part {t : Target} {r i k : NodeId} {root below : Node} {g h : GroupId}
    {condition part : Expr} {f : Fragment} (hknown : known t.catalog) (hroot : m.Has r root g)
    (hlogical : root.convention = .logical) (hop : root.op = .filter i condition)
    (hinput : m.groupOf i = .ok h) (hbelow : m.Has k below h)
    (hbelow' : below.convention = t.convention) (hf : f.backend = t.store.backend) :
    Offer known m (t.pushed root (.filter k part) f) none
  /-- The rest of the filter, run locally over that part. -/
  | residual {t : Target} {r i k p : NodeId} {root below : Node} {g h : GroupId}
    {condition part rest : Expr} {f : Fragment} (hknown : known t.catalog)
    (hroot : m.Has r root g) (hlogical : root.convention = .logical)
    (hop : root.op = .filter i condition) (hinput : m.groupOf i = .ok h)
    (hbelow : m.Has k below h) (hbelow' : below.convention = t.convention)
    (hkeeps : m.Keeps (t.pushed root (.filter k part) f) p) :
    Offer known m { root.withConvention .enumerable with
      op := .filter p rest, native := none } (some g)
  /-- The rows of a store's node, handed to the local engine. -/
  | convert {t : Target} {r : NodeId} {root : Node} {g : GroupId} (hknown : known t.catalog)
    (hroot : m.Has r root g) (hstore : root.convention = t.convention) :
    Offer known m { root.withConvention .enumerable with
      op := .converter r t.convention, native := none } (some g)

/-- A memo comes from another one by entering what is offered. -/
inductive Memo.Steps (known : Catalog → Prop) : Memo Float → Memo Float → Prop
  | refl (m : Memo Float) : Steps known m m
  | step {m m₁ m₂ : Memo Float} {n : Node} {inputs : List GroupId} {target : Option GroupId}
    {id : NodeId} (hsteps : Steps known m m₁) (hoffer : m₁.Offer known n target)
    (hinputs : n.inputs.mapM m₁.groupOf = .ok inputs)
    (htarget : ∀ g, target = some g → g.n < m₁.groups.size)
    (hinserted : m₁.Inserted n inputs target id m₂) : Steps known m m₂

namespace Memo.Steps

variable {known : Catalog → Prop} {m m' : Memo Float}

theorem wellFormed_and_extends (h : m.Steps known m') (hm : m.WellFormed) :
    m'.WellFormed ∧ m.Extends m' := by
  induction h with
  | refl => exact ⟨hm, .refl m⟩
  | step _ _ hinputs htarget hinserted ih =>
    rcases ih with ⟨hm₁, hext⟩
    have hgrown := hinserted.grown hm₁ hinputs htarget
    exact ⟨hgrown.wellFormed, hext.trans hgrown.grows⟩

theorem preserves {P : Memo Float → Prop} (h : m.Steps known m')
    (hm : m.WellFormed) (hstep : ∀ {m₁ m₂ : Memo Float} {n inputs target id}, m₁.WellFormed →
      P m₁ → m₁.Offer known n target → n.inputs.mapM m₁.groupOf = .ok inputs →
      (∀ g, target = some g → g.n < m₁.groups.size) → m₁.Inserted n inputs target id m₂ → P m₂)
    (hP : P m) : P m' := by
  induction h with
  | refl => exact hP
  | step hsteps hoffer hinputs htarget hinserted ih =>
    exact hstep (hsteps.wellFormed_and_extends hm).1 ih hoffer hinputs htarget hinserted

end Memo.Steps

/-- Entering what is offered fills the memo. -/
def Memo.Overflows (known : Catalog → Prop) (m : Memo Float) : Prop :=
  ∃ m', m.Steps known m' ∧ Arena.capacity ≤ m'.size

/-! ### Actions -/

/-- An action under way: so far it has only entered what is offered. -/
structure Firing.Proper (known : Catalog → Prop) (m : Memo Float) (f : Firing) : Prop where
  steps : m.Steps known f.memo
  wellFormed : f.memo.WellFormed
  produced : ∀ p ∈ f.produced, p.n < f.memo.size

namespace Action

variable {known : Catalog → Prop} {E : Error → Prop} {m : Memo Float} {f : Firing} {n root : Node}
  {g : GroupId} {r : NodeId}

theorem matchedId_run {i : Nat} (h : f.matched[i]? = some r) :
    (matchedId i).run f = .ok (r, f) := by
  simp only [matchedId, StateT.run_bind, StateT.run_get]
  simp only [h, require, pure, bind, Except.pure, Except.bind]
  rfl

theorem node_run (h : f.memo.node r = .ok n) : (node r).run f = .ok (n, f) := by
  simp only [node, StateT.run_bind, StateT.run_get]
  simp only [h, pure, bind, Except.pure, Except.bind]
  rfl

/-- What is known to succeed comes first. -/
theorem bind_run {α β : Type} {x : Action α} {k : α → Action β} {f' : Firing} {a : α}
    (hx : x.run f = .ok (a, f')) : (x >>= k).run f = (k a).run f' := by
  rw [StateT.run_bind, hx]
  rfl

theorem lift_run {α β : Type} {x : Except Error α} {k : α → Action β} {a : α} (hx : x = .ok a) :
    ((liftM x : Action α) >>= k).run f = (k a).run f :=
  bind_run (by rw [hx]; rfl)

theorem matchedNode_run {i : Nat} (hr : f.matched[i]? = some r) (h : f.memo.node r = .ok n) :
    (matchedNode i).run f = .ok (n, f) := by
  rw [matchedNode, bind_run (matchedId_run hr)]
  exact node_run h

/-- Entering an offered node. -/
theorem enter_runs (hfull : m.Overflows known → E Arena.full) (hf : f.Proper known m)
    {target : Option GroupId} (hoffer : f.memo.Offer known n target)
    (hinputs : ∀ i ∈ n.inputs, i.n < f.memo.size)
    (htarget : ∀ g, target = some g → g.n < f.memo.groups.size) :
    Runs E (enter n target) f fun id f' =>
      f'.Proper known m ∧ f'.matched = f.matched ∧ f.memo.Grown n target id f'.memo := by
  refine Runs.after (t := f) rfl ?_
  have hroom : f.memo.size < Arena.capacity ∨ E Arena.full :=
    (Nat.lt_or_ge f.memo.size Arena.capacity).imp_right fun hge => hfull ⟨f.memo, hf.steps, hge⟩
  apply Runs.lift_bind (Memo.insert_ends hf.wellFormed (.inl ⟨hinputs, hroom⟩))
  intro r hr
  rcases hr with ⟨gs, hgs, hinserted⟩
  have hgrown := hinserted.grown hf.wellFormed hgs htarget
  rcases r with ⟨id, memo⟩
  refine ⟨⟨.step hf.steps hoffer hgs htarget hinserted, hgrown.wellFormed, ?_⟩, rfl, hgrown⟩
  intro p hp
  rcases List.mem_append.mp hp with hp | hp
  · exact Nat.lt_of_lt_of_le (hf.produced p hp) hgrown.grows.size_le
  · obtain rfl := List.mem_singleton.mp hp
    exact hgrown.keeps.lt_size

theorem register_runs (hfull : m.Overflows known → E Arena.full) (hf : f.Proper known m)
    (hoffer : f.memo.Offer known n none) (hinputs : ∀ i ∈ n.inputs, i.n < f.memo.size) :
    Runs E (register n) f fun id f' =>
      f'.Proper known m ∧ f'.matched = f.matched ∧ f.memo.Grown n none id f'.memo :=
  enter_runs hfull hf hoffer hinputs (by simp)

/-- Entering an equivalent: its rows are those of the root, so its shape is right. -/
theorem transformTo_runs (hfull : m.Overflows known → E Arena.full) (hf : f.Proper known m)
    (hmatched : f.matched[0]? = some r) (hroot : f.memo.Has r root g)
    (hoffer : f.memo.Offer known n (some g)) (hinputs : ∀ i ∈ n.inputs, i.n < f.memo.size)
    (hrow : n.row = root.row) :
    Runs E (transformTo n) f fun id f' =>
      f'.Proper known m ∧ f.memo.Grown n (some g) id f'.memo := by
  refine Runs.after (matchedId_run hmatched) (Runs.after (node_run hroot.node) ?_)
  refine Runs.lift_bind (Q := fun _ => True) ?_ fun _ _ => ?_
  · refine Ends.ensure (fun hshape => ?_) fun _ => trivial
    rw [hrow] at hshape
    simp [RowType.sameShape] at hshape
  · refine Runs.after (t := f) rfl ?_
    refine Runs.lift_after hroot.group ?_
    refine (enter_runs hfull hf hoffer hinputs ?_).imp fun _ _ h => ⟨h.1, h.2.2⟩
    rintro _ ⟨⟩
    exact hf.wellFormed.groupOf_lt hroot.group

end Action

end Polystore
