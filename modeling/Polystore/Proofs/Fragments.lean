import Polystore.Pushdown.Dispatch

/-
  Polystore/Proofs/Fragments.lean
  ===============================
  **What dialects write.**  A fragment that a dialect writes is for the dialect's
  own backend, and it is the clause of the operator for which it was asked.
-/

namespace Polystore

/-- The fragment belongs to a backend and is a given clause. -/
def Fragment.IsClause (b : Backend) (c : Clause) (f : Fragment) : Prop :=
  f.backend = b ∧ f.clause = c

/-- A dialect writes for one backend. -/
structure Dialect.WritesFor (d : Dialect) (b : Backend) : Prop where
  scan : ∀ ctx, (d.scan ctx).IsClause b .scan
  filter : ∀ e ctx f, (d.filter e ctx).native? = some f → f.IsClause b .filter
  project : ∀ say, d.project = some say →
    ∀ exprs names ctx f, say exprs names ctx = some f → f.IsClause b .project
  aggregate : ∀ say, d.aggregate = some say →
    ∀ a names ctx f, say a names ctx = some f → f.IsClause b .aggregate
  sort : ∀ say, d.sort = some say → ∀ o ctx f, say o ctx = some f → f.IsClause b .sort

/-- A pushed filter is written for the backend of the entry that describes it. -/
theorem pushFilter_isClause {e : Expr} {ctx : PushContext} {support : FilterSupport}
    {accept : Term → Bool} {render : PushContext → List (List Term) → FragmentBody}
    {f : Fragment} (h : (pushFilter e ctx support accept render).native? = some f) :
    f.IsClause support.backend .filter := by
  unfold pushFilter at h
  split at h
  · simp [Pushdown.native?] at h
  · split at h <;> obtain rfl := Option.some.inj h <;> exact ⟨rfl, rfl⟩

theorem Document.dialect_writesFor : Document.dialect.WritesFor .document where
  scan _ := ⟨rfl, rfl⟩
  filter e ctx f h := pushFilter_isClause (show (Document.filter e ctx).native? = some f from h)
  project say hsay exprs names ctx f h := by
    obtain rfl := Option.some.inj hsay
    obtain ⟨fields, -, h⟩ := Option.bind_eq_some_iff.mp h
    obtain rfl := Option.some.inj h
    exact ⟨rfl, rfl⟩
  aggregate say hsay a names ctx f h := by
    obtain rfl := Option.some.inj hsay
    unfold Document.aggregate at h
    simp only at h
    split at h
    · cases h
    · obtain ⟨p, -, h⟩ := Option.bind_eq_some_iff.mp h
      obtain ⟨p, -, h⟩ := Option.bind_eq_some_iff.mp h
      obtain rfl := Option.some.inj h
      exact ⟨rfl, rfl⟩
  sort say hsay o ctx f h := by
    obtain rfl := Option.some.inj hsay
    obtain ⟨keys, -, h⟩ := Option.bind_eq_some_iff.mp h
    obtain rfl := Option.some.inj h
    exact ⟨rfl, rfl⟩

theorem WideColumn.dialect_writesFor : WideColumn.dialect.WritesFor .wideColumn where
  scan _ := ⟨rfl, rfl⟩
  filter e ctx f h := pushFilter_isClause (show (WideColumn.filter e ctx).native? = some f from h)
  project say hsay exprs names ctx f h := by
    obtain rfl := Option.some.inj hsay
    obtain ⟨columns, -, h⟩ := Option.bind_eq_some_iff.mp h
    obtain rfl := Option.some.inj h
    exact ⟨rfl, rfl⟩
  aggregate _ h := nomatch h
  sort _ h := nomatch h

theorem Search.dialect_writesFor : Search.dialect.WritesFor .search where
  scan _ := ⟨rfl, rfl⟩
  filter e ctx f h := pushFilter_isClause (show (Search.filter e ctx).native? = some f from h)
  project say hsay exprs names ctx f h := by
    obtain rfl := Option.some.inj hsay
    obtain ⟨sources, -, h⟩ := Option.bind_eq_some_iff.mp h
    obtain rfl := Option.some.inj h
    exact ⟨rfl, rfl⟩
  aggregate say hsay a names ctx f h := by
    obtain rfl := Option.some.inj hsay
    unfold Search.aggregate at h
    simp only at h
    split at h
    · cases h
    · obtain ⟨m, -, h⟩ := Option.bind_eq_some_iff.mp h
      obtain ⟨sources, -, h⟩ := Option.bind_eq_some_iff.mp h
      obtain rfl := Option.some.inj h
      exact ⟨rfl, rfl⟩
  sort _ h := nomatch h

theorem File.dialect_writesFor : File.dialect.WritesFor .file where
  scan _ := ⟨rfl, rfl⟩
  filter e ctx f h := pushFilter_isClause (show (File.filter e ctx).native? = some f from h)
  project _ h := nomatch h
  aggregate _ h := nomatch h
  sort _ h := nomatch h

/-- Every dialect writes for the backend whose dialect it is. -/
theorem Backend.dialect_writesFor (b : Backend) : b.dialect.WritesFor b := by
  cases b with
  | document => exact Document.dialect_writesFor
  | wideColumn => exact WideColumn.dialect_writesFor
  | search => exact Search.dialect_writesFor
  | file => exact File.dialect_writesFor

end Polystore
