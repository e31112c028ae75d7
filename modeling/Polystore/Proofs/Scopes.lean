import Polystore.Proofs.DrawnDigests

/-
  Polystore/Proofs/Scopes.lean
  ===========================
  **Bounds for a memo.**  Each change of a memo is a new node or a merge
  (`Memo.Tallies`), a new node has a new digest, and the nodes that the rules without a
  store enter have digests from a finite set, because they open no more groups than there
  are projections to put below an aggregate.  A scope collects these bounds, and what the
  rules enter stays within it (`Scope.Bounds.inserted`).
-/

namespace Polystore

namespace Memo

variable {α : Type} {m m' : Memo α} {n : Node} {gs : List GroupId} {target : Option GroupId}
  {id : NodeId} {rows : α} {older younger a b : GroupId}

/-! ### Changes -/

/-- The groups that have been merged into others. -/
def absorbed (m : Memo α) : Finset Nat :=
  (Finset.range m.groups.size).filter fun i => (m.next? ⟨i⟩).isSome

/-- Each change was a new node or a group that was merged into another one. -/
def Tallies (m : Memo α) : Prop := m.version = m.size + m.absorbed.card

theorem Tallies.version_le (h : m.Tallies) : m.version ≤ m.size + m.groups.size := by
  have hcard : m.absorbed.card ≤ (Finset.range m.groups.size).card := Finset.card_filter_le _ _
  rw [Finset.card_range] at hcard
  exact h ▸ Nat.add_le_add_left hcard _

theorem Tallies.empty (rows : α) : Tallies ({ defaultRows := rows } : Memo α) := rfl

theorem Tallies.entered (h : m.Tallies) (n : Node) (d : String) (g : GroupId) :
    (m.entered n d g).Tallies := by
  have habsorbed : (m.entered n d g).absorbed = m.absorbed := by
    unfold absorbed
    simp only [next?_entered]
    rw [Memo.entered, Array.size_modify]
  have hsize : (m.entered n d g).size = m.size + 1 := Array.size_push _
  have hversion : (m.entered n d g).version = m.version + 1 := rfl
  rw [Tallies, habsorbed, hsize, hversion, h]
  omega

theorem Tallies.openGroup (h : m.Tallies) (rows : α) : (m.openGroup rows).2.Tallies := by
  have hnone : m.next? ⟨m.groups.size⟩ = none := next?_of_size_le (Nat.le_refl _)
  have habsorbed : (m.openGroup rows).2.absorbed = m.absorbed := by
    unfold absorbed
    simp only [next?_openGroup]
    rw [Memo.openGroup, Array.size_push, Finset.range_add_one, Finset.filter_insert, hnone]
    rfl
  rw [Tallies, habsorbed]
  exact h

theorem Tallies.absorb (h : m.Tallies) (habsorbs : m.Absorbs older younger) :
    (m.absorb older younger).Tallies := by
  obtain ⟨hlt, hnone⟩ := isLive_iff.mp habsorbs.younger_live
  have habsorbed : (m.absorb older younger).absorbed = Insert.insert younger.n m.absorbed := by
    ext i
    simp only [absorbed, Finset.mem_insert, Finset.mem_filter, Finset.mem_range,
      next?_absorb hlt]
    rw [Memo.absorb, Array.size_modify, Array.size_modify]
    by_cases hi : i = younger.n
    · simp [hi, hlt]
    · have hne : (⟨i⟩ : GroupId) ≠ younger := fun heq => hi (congrArg GroupId.n heq)
      simp [hi, hne]
  have hnew : younger.n ∉ m.absorbed := by
    rw [absorbed, Finset.mem_filter, hnone]
    simp
  rw [Tallies, habsorbed, Finset.card_insert_of_notMem hnew]
  exact congrArg (· + 1) h

theorem Inserted.tallies (hm : m.WellFormed) (h : m.Inserted n gs target id m')
    (htarget : ∀ g, target = some g → g.n < m.groups.size) (ht : m.Tallies) : m'.Tallies := by
  cases h with
  | known _ => exact ht
  | @merged _ g current _ hcurrent =>
    have hg := Nat.lt_of_le_of_lt (find_le hm.mergesDown g) (htarget g rfl)
    exact merge_cases (P := Tallies) hm (hm.groupOf_lt hcurrent) hg (fun _ => ht)
      fun _ _ habsorbs _ => ht.absorb habsorbs
  | joined _ _ => exact ht.entered _ _ _
  | opened _ _ => exact (ht.openGroup _).entered _ _ _

/-! ### Known digests -/

/-- Those of some digests under which nodes are known. -/
def knownAmong (m : Memo α) (digests : Finset String) : Finset String :=
  digests.filter fun d => (m.digests[d]?).isSome

theorem Extends.knownAmong_subset (h : m.Extends m') (digests : Finset String) :
    m.knownAmong digests ⊆ m'.knownAmong digests := by
  refine Finset.monotone_filter_right digests fun d _ hd => ?_
  obtain ⟨id, hid⟩ := Option.isSome_iff_exists.mp hd
  exact Option.isSome_iff_exists.mpr ⟨id, h.digests d id hid⟩

/-- A new digest is one more. -/
theorem Inserted.knownAmong_lt (hm : m.WellFormed) (h : m.Inserted n gs target id m')
    (hgs : n.inputs.mapM m.groupOf = .ok gs)
    (htarget : ∀ g, target = some g → g.n < m.groups.size) {digests : Finset String}
    (hmem : digestText n gs ∈ digests) (hnew : m.digests[digestText n gs]? = none) :
    (m.knownAmong digests).card < (m'.knownAmong digests).card := by
  refine Finset.card_lt_card ?_
  rw [Finset.ssubset_iff_of_subset ((h.grown hm hgs htarget).grows.knownAmong_subset digests)]
  refine ⟨digestText n gs, Finset.mem_filter.mpr ⟨hmem, ?_⟩, fun hknown => ?_⟩
  · rw [h.digest_known]
    rfl
  · have hsome := (Finset.mem_filter.mp hknown).2
    rw [hnew] at hsome
    cases hsome

/-- A memo grows by a node only with a new digest. -/
theorem Inserted.size_add_le (hm : m.WellFormed) (h : m.Inserted n gs target id m')
    (hgs : n.inputs.mapM m.groupOf = .ok gs)
    (htarget : ∀ g, target = some g → g.n < m.groups.size) {digests : Finset String}
    (hmem : digestText n gs ∈ digests) :
    m'.size + (m.knownAmong digests).card ≤ m.size + (m'.knownAmong digests).card := by
  have hkept := Finset.card_le_card ((h.grown hm hgs htarget).grows.knownAmong_subset digests)
  have hle := h.size_le
  have hlt := h.knownAmong_lt hm hgs htarget hmem
  cases h with
  | known _ => omega
  | merged _ _ =>
    rw [size_merge] at *
    omega
  | joined _ hnew =>
    have hmore := hlt hnew
    omega
  | opened _ hnew =>
    have hmore := hlt hnew
    omega

/-- A group is opened only for a new digest of a node that is not said to belong to
    one. -/
theorem Inserted.groups_add_le (hm : m.WellFormed) (h : m.Inserted n gs target id m')
    (hgs : n.inputs.mapM m.groupOf = .ok gs)
    (htarget : ∀ g, target = some g → g.n < m.groups.size) {digests : Finset String}
    (hmem : target = none → digestText n gs ∈ digests) :
    m'.groups.size + (m.knownAmong digests).card ≤
      m.groups.size + (m'.knownAmong digests).card := by
  have hkept := Finset.card_le_card ((h.grown hm hgs htarget).grows.knownAmong_subset digests)
  have hlt (hnone : target = none) := h.knownAmong_lt hm hgs htarget (hmem hnone)
  cases h with
  | known _ => omega
  | @merged _ g current _ hcurrent =>
    have hg := Nat.lt_of_le_of_lt (find_le hm.mergesDown g) (htarget g rfl)
    have hsize : (m.merge current (m.find g)).groups.size = m.groups.size :=
      merge_cases (P := fun m' => m'.groups.size = m.groups.size) hm (hm.groupOf_lt hcurrent) hg
        (fun _ => rfl) fun _ _ _ _ => by simp [Memo.absorb]
    omega
  | @joined g _ _ =>
    have hsize : (m.entered n (digestText n gs) (m.find g)).groups.size = m.groups.size :=
      Array.size_modify
    omega
  | @opened rows _ hnew =>
    have hsize : ((m.openGroup rows).2.entered n (digestText n gs)
        (m.openGroup rows).1).groups.size = m.groups.size + 1 := by
      simp [Memo.entered, Memo.openGroup]
    have hmore := hlt rfl hnew
    omega

end Memo

/-! ### Scopes -/

/-- A stock, and bounds for a memo in which the rules without a store run on what is
    drawn from it. -/
structure Scope where
  stock : Set Node
  unassigned : Node.Unassigned stock
  shown : Node.Shown stock
  /-- The weight that no group exceeds. -/
  weight : Nat
  /-- How many groups and nodes there are at first. -/
  groups : Nat
  size : Nat
  /-- The digests of projections over the first groups. -/
  trims : Finset String
  mem_trims : ∀ n g, n.Trims stock → g.n < groups → Memo.digestText n [g] ∈ trims
  /-- The digests of what is drawn, over all groups that there may be. -/
  digests : Finset String
  mem_digests : ∀ n inputs kind gs, n.Drawn stock inputs kind → n.weight [] ≤ weight →
    Node.Over (groups + trims.card) gs → Memo.digestText n gs ∈ digests

namespace Scope

/-- A finite stock has a scope. -/
noncomputable def ofFinite {stock : Set Node} (hfinite : stock.Finite)
    (hunassigned : Node.Unassigned stock) (hshown : Node.Shown stock) (weight groups size : Nat) :
    Scope where
  stock := stock
  unassigned := hunassigned
  shown := hshown
  weight := weight
  groups := groups
  size := size
  trims := (Node.finite_trims_digests hfinite groups).toFinset
  mem_trims n g hn hg := (Set.Finite.mem_toFinset _).mpr ⟨n, g, hn, hg, rfl⟩
  digests := (Node.finite_digests hfinite weight
    (groups + (Node.finite_trims_digests hfinite groups).toFinset.card)).toFinset
  mem_digests n inputs kind gs hn hweight hgs :=
    (Set.Finite.mem_toFinset _).mpr ⟨n, inputs, kind, gs, hn, hweight, hgs, rfl⟩

variable {S : Scope} {m m' : Memo Float}

/-- The groups that there may be. -/
def maxGroups (S : Scope) : Nat := S.groups + S.trims.card

/-- The nodes that there may be. -/
def maxSize (S : Scope) : Nat := S.size + S.digests.card

/-- A memo of drawn nodes that has grown only with new digests. -/
structure Bounds (S : Scope) (m : Memo Float) : Prop where
  wellFormed : m.WellFormed
  tallies : m.Tallies
  /-- Groups that have been opened hold projections. -/
  kinds : ∃ kind, m.Marked (Node.Drawn S.stock) kind ∧
    ∀ g : GroupId, S.groups ≤ g.n → kind g = .project
  weights : ∃ weight, m.Marked Node.Weighs weight ∧ ∀ g, weight g ≤ S.weight
  groups_le : m.groups.size ≤ S.groups + (m.knownAmong S.trims).card
  size_le : m.size ≤ S.size + (m.knownAmong S.digests).card

namespace Bounds

theorem groups_le_max (h : S.Bounds m) : m.groups.size ≤ S.maxGroups :=
  Nat.le_trans h.groups_le (Nat.add_le_add_left (Finset.card_filter_le _ _) _)

theorem size_le_max (h : S.Bounds m) : m.size ≤ S.maxSize :=
  Nat.le_trans h.size_le (Nat.add_le_add_left (Finset.card_filter_le _ _) _)

theorem version_le_max (h : S.Bounds m) : m.version ≤ S.maxSize + S.maxGroups :=
  Nat.le_trans h.tallies.version_le (Nat.add_le_add h.size_le_max h.groups_le_max)

theorem inserted (h : S.Bounds m) {n : Node} {target : Option GroupId} {gs : List GroupId}
    {id : NodeId} (hoffer : m.Offer (fun _ => False) n target)
    (hgs : n.inputs.mapM m.groupOf = .ok gs)
    (htarget : ∀ g, target = some g → g.n < m.groups.size)
    (hinserted : m.Inserted n gs target id m') : S.Bounds m' := by
  have hm := h.wellFormed
  obtain ⟨kind, hkind, hlater⟩ := h.kinds
  obtain ⟨weight, hweight, hle⟩ := h.weights
  obtain ⟨hdrawn, hat, hopens⟩ := hoffer.drawn hm hkind hgs
  have hweighs := hoffer.weight_eq hm hweight hgs
  have hnew (hnone : target = none) : n.weight (gs.map weight) = 0 :=
    Node.weight_of_kind (by simp [(hopens hnone).1.kind_eq])
  have hbound : n.weight (gs.map weight) ≤ S.weight := by
    cases htarget' : target with
    | none => exact (hnew htarget').trans_le (Nat.zero_le _)
    | some g => exact hweighs g htarget' ▸ hle _
  have hover : Node.Over S.maxGroups gs := by
    refine ⟨(mapM_eq_ok.mp hgs).length_eq ▸ Memo.length_inputs_le n, fun g hg => ?_⟩
    obtain ⟨i, -, hi⟩ := exists_of_forall₂_right (mapM_eq_ok.mp hgs) g hg
    exact Nat.lt_of_lt_of_le (hm.groupOf_lt hi) h.groups_le_max
  have hdigest : Memo.digestText n gs ∈ S.digests :=
    S.mem_digests n _ _ gs hdrawn ((Node.weight_nil_le n _).trans hbound) hover
  have htrims (hnone : target = none) : Memo.digestText n gs ∈ S.trims := by
    obtain ⟨htrims, below, rfl, hproject⟩ := hopens hnone
    refine S.mem_trims n below htrims (Nat.lt_of_not_le fun hlate => hproject (hlater below hlate))
  obtain ⟨kind', hkind', hkinds⟩ := hkind.drawn_inserted hm hdrawn hat hgs htarget hinserted
  obtain ⟨weight', hweight', hweights⟩ :=
    Memo.Marked.weighed_inserted hm S.unassigned S.shown hkind hweight hdrawn hweighs hgs htarget
      hinserted
  refine ⟨(hinserted.grown hm hgs htarget).wellFormed, hinserted.tallies hm htarget h.tallies,
    ⟨kind', hkind', fun g hg => ?_⟩, ⟨weight', hweight', fun g => ?_⟩, ?_, ?_⟩
  · rcases hkinds g with hsame | ⟨hnone, hsame⟩
    · rw [hsame, hlater g hg]
    · rw [hsame, (hopens hnone).1.kind_eq]
  · rcases hweights g with hsame | ⟨-, hsame⟩
    · exact hsame ▸ hle g
    · exact hsame ▸ hbound
  · have hgrows := hinserted.groups_add_le hm hgs htarget htrims
    have hbefore := h.groups_le
    omega
  · have hgrows := hinserted.size_add_le hm hgs htarget hdigest
    have hbefore := h.size_le
    omega

theorem steps (h : S.Bounds m) (hsteps : m.Steps (fun _ => False) m') : S.Bounds m' :=
  hsteps.preserves (P := S.Bounds) h.wellFormed
    (fun _ h hoffer hgs htarget hinserted => h.inserted hoffer hgs htarget hinserted) h

end Bounds

/-- A memo of drawn nodes of certain weights is within a scope of its own. -/
theorem exists_bounds {stock : Set Node} (hfinite : stock.Finite)
    (hunassigned : Node.Unassigned stock) (hshown : Node.Shown stock) {kind : GroupId → RelKind}
    {weight : GroupId → Nat} (hm : m.WellFormed) (ht : m.Tallies)
    (hkind : m.Marked (Node.Drawn stock) kind) (hweight : m.Marked Node.Weighs weight) :
    ∃ S : Scope, S.Bounds m := by
  let most := (Finset.range m.groups.size).sup fun i => weight ⟨i⟩
  refine ⟨ofFinite hfinite hunassigned hshown most m.groups.size m.size, hm, ht,
    ⟨_, hkind.beyond hm .project, fun g hg => if_neg (Nat.not_lt.mpr hg)⟩,
    ⟨_, hweight.beyond hm 0, fun g => ?_⟩, Nat.le_add_right _ _, Nat.le_add_right _ _⟩
  by_cases hg : g.n < m.groups.size
  · rw [if_pos hg]
    exact Finset.le_sup (f := fun i => weight ⟨i⟩) (Finset.mem_range.mpr hg)
  · rw [if_neg hg]
    exact Nat.zero_le _

end Scope

end Polystore
