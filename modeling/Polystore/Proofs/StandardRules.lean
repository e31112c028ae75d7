import Polystore.Proofs.StorePushing

/-
  Polystore/Proofs/StandardRules.lean
  ===================================
  **Standard rules and registries.**  A standard registry has the default rules
  and the rules of any stores.  All its rules only enter what is offered, and the
  rules that run operators locally are always among them.
-/

namespace Polystore

open StoreRules

/-- The rules that come with the optimizer, and those of stores over known
    catalogs. -/
inductive Rule.Standard (known : Catalog → Prop) : Rule → Prop
  | mergeFilters : Standard known FilterMerge.rule
  | trimAggregate : Standard known AggregateTrim.rule
  | runLocally {kind : RelKind} (h : kind ∈ LocalEngine.operators) :
    Standard known (LocalEngine.rule kind)
  | scan {t : Target} (h : known t.catalog) : Standard known t.scanRule
  | filter {t : Target} (h : known t.catalog) : Standard known t.filterRule
  | project {t : Target} (h : known t.catalog) : Standard known t.projectRule
  | aggregate {t : Target} (h : known t.catalog) : Standard known t.aggregateRule
  | sort {t : Target} (h : known t.catalog) : Standard known t.sortRule
  | convert {t : Target} (h : known t.catalog) : Standard known t.converterRule

/-- Every standard rule only enters what is offered. -/
theorem Rule.Standard.sound {known : Catalog → Prop} {rule : Rule} (h : rule.Standard known) :
    rule.Sound known := by
  cases h with
  | mergeFilters => exact FilterMerge.rule_sound
  | trimAggregate => exact AggregateTrim.rule_sound
  | runLocally h => exact LocalEngine.rule_sound h
  | scan h => exact Target.scanRule_sound h
  | filter h => exact Target.filterRule_sound h
  | project h => exact Target.projectRule_sound h
  | aggregate h => exact Target.aggregateRule_sound h
  | sort h => exact Target.sortRule_sound h
  | convert h => exact Target.converterRule_sound h

/-! ### Registries -/

/-- The default rules, and on top of them the rules of any stores over known
    catalogs. -/
inductive Registry.Standard (known : Catalog → Prop) : Registry → Prop
  | defaults : Standard known Registry.defaults
  | store {r r' : Registry} {c : Catalog} {id : StoreId} {s : OptimizerSettings}
    (hr : Standard known r) (hc : known c) (h : r.registerStore c id s = .ok r') :
    Standard known r'

namespace Registry

variable {known : Catalog → Prop} {r r' : Registry}

theorem mem_register {c c' : Convention} {rule rule' : Rule}
    (h : (c', rule') ∈ (r.register c rule).rules) : (c', rule') ∈ r.rules ∨ rule' = rule := by
  unfold register at h
  split at h
  · exact .inl h
  · rcases List.mem_append.mp h with h | h
    · exact .inl h
    · exact .inr (Prod.mk.inj (List.mem_singleton.mp h)).2

theorem rules_register (c : Convention) (rule : Rule) : r.rules ⊆ (r.register c rule).rules := by
  unfold register
  split
  · exact List.Subset.refl _
  · exact List.subset_append_left _ _

theorem rules_defaults : Registry.defaults.rules.map (·.2) =
    FilterMerge.rule :: AggregateTrim.rule :: LocalEngine.operators.map LocalEngine.rule := rfl

/-- Adding rules one by one. -/
theorem mem_foldl_register {c c' : Convention} {rule : Rule} {l : List Rule}
    (h : (c', rule) ∈ (l.foldl (·.register c) r).rules) :
    (c', rule) ∈ r.rules ∨ rule ∈ l := by
  induction l generalizing r with
  | nil => exact .inl h
  | cons first l ih =>
    rcases ih h with h | h
    · rcases mem_register h with h | rfl
      · exact .inl h
      · exact .inr List.mem_cons_self
    · exact .inr (List.mem_cons_of_mem first h)

theorem rules_foldl_register (c : Convention) (l : List Rule) :
    r.rules ⊆ (l.foldl (·.register c) r).rules := by
  induction l generalizing r with
  | nil => exact List.Subset.refl _
  | cons first l ih => exact List.Subset.trans (rules_register c first) ih

theorem standard_of_mem_ofStore {c : Catalog} {store : Store} {s : OptimizerSettings}
    {rule : Rule} (hc : known c) (h : rule ∈ ofStore c store s) : rule.Standard known := by
  have honly : ∀ {b : Bool} {rule' : Rule}, rule ∈ only b rule' → rule = rule' := by
    intro b rule' hmem
    cases b with
    | false => cases hmem
    | true => exact List.mem_singleton.mp hmem
  simp only [ofStore, List.mem_append, List.mem_cons, List.not_mem_nil, or_false] at h
  rcases h with (((((rfl | rfl) | h) | h) | h) | rfl)
  · exact .scan hc
  · exact .filter hc
  · exact honly h ▸ .project hc
  · exact honly h ▸ .aggregate hc
  · exact honly h ▸ .sort hc
  · exact .convert hc

theorem Standard.rules_standard (h : r.Standard known) :
    ∀ rule ∈ r.rules.map (·.2), rule.Standard known := by
  induction h with
  | defaults =>
    rw [rules_defaults]
    simp only [List.mem_cons, List.mem_map]
    rintro rule (rfl | rfl | ⟨kind, hkind, rfl⟩)
    · exact .mergeFilters
    · exact .trimAggregate
    · exact .runLocally hkind
  | store _ hc h ih =>
    obtain ⟨store, -, h⟩ := except_bind_eq_ok.mp h
    obtain rfl := Except.ok.inj h
    intro rule hrule
    obtain ⟨⟨c', rule'⟩, hmem, rfl⟩ := List.mem_map.mp hrule
    rcases mem_foldl_register hmem with hmem | hmem
    · exact ih _ (List.mem_map_of_mem hmem)
    · exact standard_of_mem_ofStore hc hmem

/-- Every operator of logical plans has its local rule. -/
theorem Standard.runsLocally (h : r.Standard known) {kind : RelKind}
    (hkind : kind ∈ LocalEngine.operators) : LocalEngine.rule kind ∈ r.rules.map (·.2) := by
  induction h with
  | defaults =>
    rw [rules_defaults]
    exact List.mem_cons_of_mem _ (List.mem_cons_of_mem _ (List.mem_map_of_mem hkind))
  | store _ _ h ih =>
    obtain ⟨store, -, h⟩ := except_bind_eq_ok.mp h
    obtain rfl := Except.ok.inj h
    exact List.map_subset _ (rules_foldl_register _ _) ih

theorem standard_of_registerStores {c : Catalog} {s : OptimizerSettings} (hr : r.Standard known)
    (hc : known c) (h : r.registerStores c s = .ok r') : r'.Standard known := by
  unfold registerStores at h
  generalize c.stores = stores at h
  induction stores generalizing r with
  | nil =>
    obtain rfl := Except.ok.inj h
    exact hr
  | cons store stores ih =>
    rw [List.foldlM_cons] at h
    obtain ⟨r₁, hr₁, h⟩ := except_bind_eq_ok.mp h
    exact ih (.store hr hc hr₁) h

end Registry

end Polystore
