import Polystore.Proofs.EnteredPlans
import Polystore.Proofs.GroupMarks

/-
  Polystore/Proofs/Layouts.lean
  =============================
  **The layout of a memo.**  A built plan has levels: each filter or sort stays on
  the level of its input, each other operator opens the next one, and all rows of
  a level have one type (`Plan.Chain.exists_outline`).  A memo is laid out on
  these levels when each group has a place, a level or a projection of one for an
  aggregate, and each member fits the place of its group (`Memo.LaidOut`).  A
  place is determined by the operator and the places of its inputs, so inserting
  a node that fits keeps the layout even where groups are merged.
-/

namespace Polystore

/-! ### Outlines -/

/-- The levels of a plan. -/
structure Outline where
  /-- The type of the rows of a level. -/
  row : Nat → RowType
  /-- The aggregate over a level that opens the next one. -/
  aggregation : Nat → Option Aggregation
  reads : ∀ j a, aggregation j = some a → a.ReadsWithin (row j).arity

/-- Where a group stands. -/
inductive Place where
  | level (j : Nat)
  /-- Some fields of a level, for the aggregate over it. -/
  | trimmed (j : Nat)

namespace Outline

variable {o o' : Outline} {known : TableRef → Prop} {n : Node} {inputs : List Place}
  {place : Place}

/-- The place of an operator over an input. -/
def over? (o : Outline) : RelKind → Place → Option Place
  | .filter, .level j | .sort, .level j => some (.level j)
  | .project, .level j =>
    some (if (o.aggregation j).isSome then .trimmed j else .level (j + 1))
  | .aggregate, .level j | .aggregate, .trimmed j | .modify, .level j => some (.level (j + 1))
  | .converter, place => some place
  | _, _ => none

/-- The place of an operator over inputs with places. -/
def place? (o : Outline) (kind : RelKind) : List Place → Option Place
  | [] => if kind = .scan ∨ kind = .values then some (.level 0) else none
  | [place] => o.over? kind place
  | _ => none

/-- Only at projections it matters which levels are opened by aggregates. -/
theorem place?_congr {kind : RelKind} (h : ∀ i, kind = .project → inputs = [.level i] →
    (o'.aggregation i).isSome = (o.aggregation i).isSome) :
    o'.place? kind inputs = o.place? kind inputs := by
  match inputs with
  | [] => rfl
  | _ :: _ :: _ => rfl
  | [place] =>
    cases kind with
    | project =>
      cases place with
      | level i => simp only [place?, over?, h i rfl rfl]
      | trimmed i => rfl
    | _ => cases place <;> rfl

/-- A node fits the place of its group. -/
structure Fits (o : Outline) (known : TableRef → Prop) (n : Node) (inputs : List Place)
    (place : Place) : Prop where
  place_eq : o.place? n.kind inputs = some place
  row : ∀ j, place = .level j → n.row = o.row j
  table : ∀ t, n.op = .scan t → known t
  /-- A logical aggregate over a level is the one of the outline. -/
  aggregation : ∀ i a j, n.convention = .logical → n.op = .aggregate i a →
    inputs = [.level j] → o.aggregation j = some a
  kind : n.convention = .logical → n.kind ≠ .converter

/-- What fits does not depend on the numbers of its inputs. -/
theorem Fits.withInputs (h : o.Fits known n inputs place) (ids : List NodeId) :
    o.Fits known (n.withInputs ids) inputs place := by
  have hkind : (n.withInputs ids).kind = n.kind := RelOp.kind_withInputs
  rcases n with ⟨op, traits, row, native⟩
  refine ⟨hkind ▸ h.place_eq, h.row, fun t hop => h.table t ?_, fun i a j hc hop hinputs => ?_,
    fun hc => hkind ▸ h.kind hc⟩
  · cases ids with
    | nil => exact hop
    | cons i ids => cases op <;> simp_all [Node.withInputs, RelOp.withInputs]
  · obtain ⟨i', hop'⟩ : ∃ i', op = .aggregate i' a := by
      cases ids with
      | nil => exact ⟨i, hop⟩
      | cons i ids => cases op <;> simp_all [Node.withInputs, RelOp.withInputs]
    exact h.aggregation i' a j hc hop' hinputs

/-- Below the level that a plan has reached, an outline may be continued. -/
theorem Fits.continued {l : Nat} {j : Nat} (h : o.Fits known n inputs (.level j)) (hj : j ≤ l)
    (hnone : ∀ i, l ≤ i → o.aggregation i = none) (hrow : ∀ i ≤ l, o'.row i = o.row i)
    (haggregation : ∀ i < l, o'.aggregation i = o.aggregation i) :
    o'.Fits known n inputs (.level j) := by
  have hsame : ∀ i, i < l → (o'.aggregation i).isSome = (o.aggregation i).isSome :=
    fun i hi => by rw [haggregation i hi]
  refine ⟨?_, fun i hi => ?_, h.table, fun i a k hc hop hinputs => ?_, h.kind⟩
  · rw [place?_congr fun i hkind hinputs => ?_, h.place_eq]
    have hplace := h.place_eq
    rw [hkind, hinputs] at hplace
    simp only [place?, over?, Option.some.injEq] at hplace
    split at hplace
    · cases hplace
    · obtain rfl := Place.level.inj hplace
      exact hsame i (by omega)
  · obtain rfl := Place.level.inj hi
    rw [hrow j hj]
    exact h.row j rfl
  · have hsome := h.aggregation i a k hc hop hinputs
    by_cases hk : k < l
    · rw [haggregation k hk]
      exact hsome
    · rw [hnone k (by omega)] at hsome
      cases hsome

/-- A leaf fits on a level of its rows at the bottom. -/
theorem Fits.of_leaf (h : n.IsLeaf known) (hrow : n.row = o.row 0) :
    o.Fits known n [] (.level 0) := by
  have hplace : n.kind = .scan ∨ n.kind = .values := by
    cases h with
    | scan hop => exact .inl (by rw [Node.kind, hop]; rfl)
    | values hop => exact .inr (by rw [Node.kind, hop]; rfl)
  refine ⟨if_pos hplace, ?_, ?_, by simp, ?_⟩
  · rintro _ ⟨⟩
    exact hrow
  · intro t hop
    cases h with
    | scan hop' ht =>
      obtain rfl := RelOp.scan.inj (hop'.symm.trans hop)
      exact ht
    | values hop' => cases hop'.symm.trans hop
  · intro _ hkind
    simp [hkind] at hplace

/-- A node over another one is none of the special ones, unless it is an aggregate. -/
theorem Fits.of_standsOn {i : NodeId} {below : Node} {j : Nat} (h : n.StandsOn i below)
    (haggregation : ∀ a, n.op = .aggregate i a → o.aggregation j = some a)
    (hplace : o.over? n.kind (.level j) = some place)
    (hrow : ∀ k, place = .level k → n.row = o.row k) : o.Fits known n [.level j] place := by
  refine ⟨hplace, hrow, fun t hop => ?_, fun i' a k _ hop hk => ?_, fun _ hkind => ?_⟩
  · cases h <;> simp_all
  · obtain rfl : j = k := by simpa using hk
    obtain rfl : i = i' := by cases h <;> simp_all
    exact haggregation a hop
  · rw [Node.kind] at hkind
    cases h <;> simp_all [RelOp.kind]

/-- One more level over the last one. -/
def opened (o : Outline) (l : Nat) (row : RowType) (a? : Option Aggregation)
    (hnone : ∀ i, l ≤ i → o.aggregation i = none)
    (ha : ∀ a, a? = some a → a.ReadsWithin (o.row l).arity) : Outline where
  row i := if i = l + 1 then row else o.row i
  aggregation i := if i = l then a? else o.aggregation i
  reads j a h := by
    by_cases hj : j = l
    · simp only [hj, if_true] at h
      have hne : l ≠ l + 1 := by omega
      simpa only [hj, hne, if_false] using ha a h
    · simp only [hj, if_false] at h
      by_cases hle : l ≤ j
      · rw [hnone j hle] at h
        cases h
      · have hne : j ≠ l + 1 := by omega
        simpa only [hne, if_false] using o.reads j a h

end Outline

/-! ### The levels of a chain -/

namespace Plan

/-- The places below a node of a chain whose nodes are on the given levels. -/
def placesBelow (level : Nat → Nat) : Nat → List Place
  | 0 => []
  | k + 1 => [.level (level k)]

/-- The nodes of a chain up to one are on levels, that one on the last. -/
structure Outlined (p : Plan) (known : TableRef → Prop) (o : Outline) (level : Nat → Nat)
    (last : Nat) : Prop where
  fits : ∀ k ≤ last, ∀ n, p.arena.get ⟨k⟩ = .ok n →
    o.Fits known n (placesBelow level k) (.level (level k))
  le : ∀ k ≤ last, level k ≤ level last
  top : ∀ j, level last ≤ j → o.aggregation j = none

variable {p : Plan} {known : TableRef → Prop} {o : Outline} {level : Nat → Nat} {k : Nat}

/-- One more node, on a level that is the last one now. -/
theorem Outlined.next (h : p.Outlined known o level k) {n : Node}
    (hn : p.arena.get ⟨k + 1⟩ = .ok n) {o' : Outline} {l : Nat} (hl : level k ≤ l)
    (hrow : ∀ i ≤ level k, o'.row i = o.row i)
    (haggregation : ∀ i < level k, o'.aggregation i = o.aggregation i)
    (hnone : ∀ j, l ≤ j → o'.aggregation j = none)
    (hfits : o'.Fits known n [.level (level k)] (.level l)) :
    p.Outlined known o' (fun j => if j = k + 1 then l else level j) (k + 1) := by
  have hold : ∀ {j}, j ≤ k → (if j = k + 1 then l else level j) = level j := by
    intro j hj
    rw [if_neg (by omega)]
  have hbelow : ∀ {j}, j ≤ k + 1 →
      placesBelow (fun j => if j = k + 1 then l else level j) j = placesBelow level j := by
    intro j hj
    cases j with
    | zero => rfl
    | succ j => simp only [placesBelow, hold (j := j) (by omega)]
  refine ⟨fun j hj n' hn' => ?_, fun j hj => ?_, by simpa using hnone⟩
  · rw [hbelow hj]
    rcases Nat.lt_or_eq_of_le hj with hlt | rfl
    · have hjk : j ≤ k := by omega
      simp only [hold hjk]
      exact (h.fits j hjk n' hn').continued (h.le j hjk) h.top hrow haggregation
    · obtain rfl : n = n' := Except.ok.inj (hn.symm.trans hn')
      simpa only [if_true, placesBelow] using hfits
  · rcases Nat.lt_or_eq_of_le hj with hlt | rfl
    · have hjk : j ≤ k := by omega
      simp only [hold hjk, if_true]
      exact Nat.le_trans (h.le j hjk) hl
    · exact Nat.le_refl _

/-- A node that keeps the rows stays on the level. -/
theorem Outlined.stays (h : p.Outlined known o level k) {n below : Node}
    (hn : p.arena.get ⟨k + 1⟩ = .ok n) (hbelow : p.arena.get ⟨k⟩ = .ok below)
    (hon : n.StandsOn ⟨k⟩ below) (hkind : n.kind = .filter ∨ n.kind = .sort)
    (hrow : n.row = below.row) : ∃ o' level', p.Outlined known o' level' (k + 1) := by
  refine ⟨o, _, h.next hn (Nat.le_refl _) (fun _ _ => rfl) (fun _ _ => rfl) h.top ?_⟩
  refine .of_standsOn hon (fun a hop => ?_) ?_ ?_
  · simp [Node.kind, hop, RelOp.kind] at hkind
  · rcases hkind with hkind | hkind <;> rw [hkind] <;> rfl
  · rintro _ ⟨⟩
    exact hrow.trans ((h.fits k (Nat.le_refl k) below hbelow).row _ rfl)

/-- A node with rows of its own opens a level. -/
theorem Outlined.opens (h : p.Outlined known o level k) {n below : Node}
    (hn : p.arena.get ⟨k + 1⟩ = .ok n) (hon : n.StandsOn ⟨k⟩ below) (a? : Option Aggregation)
    (ha : ∀ a, a? = some a → a.ReadsWithin (o.row (level k)).arity)
    (haggregation : ∀ a, n.op = .aggregate ⟨k⟩ a → a? = some a)
    (hplace : (o.opened (level k) n.row a? h.top ha).over? n.kind (.level (level k)) =
      some (.level (level k + 1))) : ∃ o' level', p.Outlined known o' level' (k + 1) := by
  refine ⟨_, _, h.next hn (Nat.le_succ _) (fun i hi => ?_) (fun i hi => ?_) (fun j hj => ?_)
    (.of_standsOn hon (fun a hop => ?_) hplace ?_)⟩
  · exact if_neg (by omega)
  · exact if_neg (by omega)
  · simp only [Outline.opened, show j ≠ level k by omega, if_false]
    exact h.top j (by omega)
  · exact (if_pos rfl).trans (haggregation a hop)
  · rintro _ ⟨⟩
    exact (if_pos rfl).symm

theorem Outlined.step (h : p.Outlined known o level k) {n below : Node}
    (hn : p.arena.get ⟨k + 1⟩ = .ok n) (hbelow : p.arena.get ⟨k⟩ = .ok below)
    (hon : n.StandsOn ⟨k⟩ below) : ∃ o' level', p.Outlined known o' level' (k + 1) := by
  have hrow := (h.fits k (Nat.le_refl k) below hbelow).row _ rfl
  have hstands := hon
  cases hon with
  | filter hop hsame =>
    exact h.stays hn hbelow hstands (.inl (by rw [Node.kind, hop]; rfl)) hsame
  | sort hop hsame =>
    exact h.stays hn hbelow hstands (.inr (by rw [Node.kind, hop]; rfl)) hsame
  | project hop =>
    refine h.opens hn hstands none (by simp) (fun a hop' => ?_) ?_
    · cases hop.symm.trans hop'
    · simp [Outline.over?, Node.kind, hop, RelOp.kind, Outline.opened]
  | modify hop =>
    refine h.opens hn hstands none (by simp) (fun a hop' => ?_) ?_
    · cases hop.symm.trans hop'
    · rw [Node.kind, hop]
      rfl
  | @aggregate a hop ha =>
    refine h.opens hn hstands (some a) ?_ (fun a' hop' => ?_) ?_
    · rintro _ ⟨⟩
      exact hrow ▸ ha
    · rw [(RelOp.aggregate.inj (hop.symm.trans hop')).2]
    · rw [Node.kind, hop]
      rfl

/-- The nodes of a chain are on levels. -/
theorem Chain.exists_outlined (hp : p.Chain known) (hk : k < p.arena.size) :
    ∃ o level, p.Outlined known o level k := by
  induction k with
  | zero =>
    obtain ⟨n, hn⟩ : ∃ n, p.arena.get ⟨0⟩ = .ok n := Arena.exists_get hk
    refine ⟨⟨fun _ => n.row, fun _ => none, by simp⟩, fun _ => 0, fun k hk n' hn' => ?_, by simp,
      by simp⟩
    obtain rfl := Nat.le_zero.mp hk
    obtain rfl : n = n' := Except.ok.inj (hn.symm.trans hn')
    exact .of_leaf (hp.bottom n hn) rfl
  | succ k ih =>
    obtain ⟨o, level, h⟩ := ih (by omega)
    obtain ⟨n, hn⟩ : ∃ n, p.arena.get ⟨k + 1⟩ = .ok n := Arena.exists_get hk
    obtain ⟨below, hbelow, hon⟩ := hp.above k n hn
    exact h.step hn hbelow hon

end Plan

/-! ### Memos -/

/-- The groups of a memo have places that their members fit, and the inputs of
    logical nodes are logical. -/
structure Memo.LaidOut {α : Type} (m : Memo α) (o : Outline) (known : TableRef → Prop)
    (place : GroupId → Place) : Prop where
  fits : m.Marked (o.Fits known) place
  logical : ∀ id n, m.node id = .ok n → n.convention = .logical →
    ∀ i ∈ n.inputs, ∃ k, m.node i = .ok k ∧ k.convention = .logical

namespace Memo.LaidOut

variable {α : Type} {m m' : Memo α} {o : Outline} {known : TableRef → Prop}
  {place : GroupId → Place}

theorem empty (rows : α) (o : Outline) (known : TableRef → Prop) (place : GroupId → Place) :
    LaidOut ({ defaultRows := rows } : Memo α) o known place where
  fits := .empty rows _ place
  logical _ _ h := absurd (Arena.lt_size_of_get h) (Nat.not_lt_zero _)

/-- The place of a node is that of any node which is kept in place of it. -/
theorem place_of_keeps (h : m.LaidOut o known place) {n : Node} {id : NodeId} {g : GroupId}
    {gs : List GroupId} (hkeeps : m.Keeps n id) (hg : m.groupOf id = .ok g)
    (hgs : n.inputs.mapM m.groupOf = .ok gs) : o.place? n.kind (gs.map place) = some (place g) := by
  obtain ⟨k, hs, hk, hkind, -, hhs, hgs'⟩ := hkeeps.exists_alike
  obtain rfl : gs = hs := Except.ok.inj (hgs.symm.trans hgs')
  rw [← hkind]
  exact (h.fits id k g gs ⟨hk, hg⟩ hhs).place_eq

/-- Inserting a node that fits, where it is said to belong. -/
theorem insert (hm : m.WellFormed) (h : m.LaidOut o known place) {n : Node} {gs : List GroupId}
    {target : Option GroupId} {id : NodeId} {at_ : Place} (hgs : n.inputs.mapM m.groupOf = .ok gs)
    (htarget : ∀ g, target = some g → g.n < m.groups.size)
    (hfits : o.Fits known n (gs.map place) at_)
    (hat : ∀ g, target = some g → place (m.find g) = at_)
    (hlogical : n.convention = .logical →
      ∀ i ∈ n.inputs, ∃ k, m.node i = .ok k ∧ k.convention = .logical)
    (hinserted : m.Inserted n gs target id m') :
    ∃ place', m'.LaidOut o known place' ∧ ∀ g, m'.groupOf id = .ok g → place' g = at_ := by
  have hgrown := hinserted.grown hm hgs htarget
  have htold (i : NodeId) (k : Node) (at' : Place) (_ : m.node i = .ok k)
      (hd : digestText k gs = digestText n gs) (hlength : gs.length = k.inputs.length)
      (hk : o.Fits known k (gs.map place) at') : at' = at_ := by
    obtain ⟨hkind, -⟩ := digestText_inj (mapM_eq_ok.mp hgs).length_eq.symm hlength hd
    have hplace := hk.place_eq
    rw [hkind, hfits.place_eq] at hplace
    exact (Option.some.inj hplace).symm
  obtain ⟨place', hfits', hplace, -⟩ := h.fits.insert hm hgs htarget hfits hat htold hinserted
  refine ⟨place', ⟨hfits', fun i k hk hc j hj => ?_⟩, hplace⟩
  have hlogical' : ∃ k, m.node j = .ok k ∧ k.convention = .logical := by
    rcases hgrown.node_cases i k hk with hold | rfl
    · exact h.logical i k hold hc j hj
    · exact hlogical hc j hj
  obtain ⟨below, hbelow, hc'⟩ := hlogical'
  exact ⟨below, hgrown.grows.node _ _ hbelow, hc'⟩

end Memo.LaidOut

end Polystore
