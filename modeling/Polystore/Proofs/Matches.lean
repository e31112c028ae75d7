import Polystore.Proofs.Growth
import Polystore.Proofs.PatternPlaces

/-
  Polystore/Proofs/Matches.lean
  =============================
  **What a pattern finds.**  In a well-formed memo matching does not fail, and it
  finds the lists that assign a node to each test and begin with the node it was
  asked about (`findsAll`).  The patterns of the rules have at most one
  child: without one they find the node itself, and with one the node together
  with a member of its input's group.
-/

namespace Polystore

variable {α : Type} {m m' : Memo α}

/-- Under a number the memo has a node, in a group. -/
structure Memo.Has (m : Memo α) (id : NodeId) (n : Node) (g : GroupId) : Prop where
  node : m.node id = .ok n
  group : m.groupOf id = .ok g

theorem Memo.Has.lt_size {id : NodeId} {n : Node} {g : GroupId} (h : m.Has id n g) :
    id.n < m.size :=
  Arena.lt_size_of_get h.node

theorem Memo.Extends.has (h : m.Extends m') (hm : m.WellFormed) {id : NodeId} {n : Node}
    {g : GroupId} (hid : m.Has id n g) : m'.Has id n (m'.find g) :=
  ⟨h.node _ _ hid.node, h.groupOf hm hid.group⟩

theorem Memo.WellFormed.exists_has (hm : m.WellFormed) {id : NodeId} (h : id.n < m.size) :
    ∃ n g, m.Has id n g := by
  obtain ⟨n, hn⟩ := Memo.exists_node h
  obtain ⟨g, hg⟩ := hm.exists_groupOf h
  exact ⟨n, g, hn, hg⟩

/-- The members of a node's group are the nodes that have this group. -/
theorem Memo.WellFormed.mem_members_groupOf (hm : m.WellFormed) {i k : NodeId} {g : GroupId}
    (hg : m.groupOf i = .ok g) : k ∈ m.members g ↔ m.groupOf k = .ok g := by
  rw [hm.mem_members_iff, hm.find_of_groupOf hg]

namespace Pattern

/-! ### Matching step by step -/

section

variable {p : Pattern} {ps : List Pattern} {id i : NodeId} {inputs : List NodeId} {n : Node}
  {g : GroupId}

/-- A node that does not suit has no match. -/
theorem matchesAt_of_not_suits (hn : m.node id = .ok n) (h : ¬p.Suits n) :
    p.matchesAt m id = .ok [] := by
  rcases p with ⟨kind, convention, guard, children⟩
  unfold matchesAt
  rw [hn]
  by_cases haccepts : accepts ⟨kind, convention, guard, children⟩ n = true
  · have hchildren : children ≠ [] := fun hnil =>
      h (suits_iff.mpr ⟨haccepts, fun hne => absurd hnil hne⟩)
    have hlength : n.inputs.length ≠ children.length := fun heq =>
      h (suits_iff.mpr ⟨haccepts, fun _ => heq⟩)
    simp [haccepts, hchildren, hlength, bind, Except.bind, pure, Except.pure]
  · simp [haccepts, bind, Except.bind, pure, Except.pure]

/-- At a node that suits the matches of the children are put behind the node. -/
theorem matchesAt_of_suits (hn : m.node id = .ok n) (h : p.Suits n) :
    p.matchesAt m id = do
      let founds ← matchesAt.matchesBelow m p.children n.inputs
      return founds.map (id :: ·) := by
  rcases p with ⟨kind, convention, guard, children⟩
  unfold matchesAt
  rw [hn]
  by_cases hchildren : children = []
  · subst hchildren
    simp [h.accepts, matchesAt.matchesBelow, bind, Except.bind, pure, Except.pure]
  · have hlength : n.inputs.length = children.length := h.arity hchildren
    simp [h.accepts, hchildren, hlength, bind, Except.bind]

theorem matchesBelow_nil : matchesAt.matchesBelow m [] inputs = .ok [[]] := by
  simp only [matchesAt.matchesBelow]
  rfl

theorem matchesBelow_cons (hg : m.groupOf i = .ok g) :
    matchesAt.matchesBelow m (p :: ps) (i :: inputs) = do
      let lists ← (m.members g).mapM (p.matchesAt m ·)
      let others ← matchesAt.matchesBelow m ps inputs
      return lists.flatten.flatMap fun first => others.map (first ++ ·) := by
  simp only [matchesAt.matchesBelow, hg]
  rfl

end

/-! ### The matches -/

/-- There is an input for each of several patterns, and all inputs are in the memo. -/
structure Supplies (m : Memo α) (ps : List Pattern) (inputs : List NodeId) : Prop where
  lt_size : ∀ i ∈ inputs, i.n < m.size
  arity : ps ≠ [] → inputs.length = ps.length

theorem Suits.supplies {p : Pattern} {id : NodeId} {n : Node} (h : p.Suits n) (hm : m.WellFormed)
    (hn : m.node id = .ok n) : Supplies m p.children n.inputs :=
  ⟨fun _ hi => hm.input_lt hn hi, h.arity⟩

/-- The first input is in a group of nodes of the memo. -/
theorem Supplies.exists_cons {p : Pattern} {ps : List Pattern} {inputs : List NodeId}
    (h : Supplies m (p :: ps) inputs) (hm : m.WellFormed) :
    ∃ i rest g, inputs = i :: rest ∧ m.groupOf i = .ok g ∧ (∀ k ∈ m.members g, k.n < m.size) ∧
      Supplies m ps rest := by
  have hlength := h.arity (List.cons_ne_nil p ps)
  obtain ⟨i, rest, rfl⟩ := List.exists_cons_of_length_eq_add_one hlength
  obtain ⟨g, hg⟩ := hm.exists_groupOf (h.lt_size i List.mem_cons_self)
  exact ⟨i, rest, g, rfl, hg,
    fun k hk => hm.lt_size_of_groupOf ((hm.mem_members_groupOf hg).mp hk),
    fun j hj => h.lt_size j (List.mem_cons_of_mem i hj), fun _ => Nat.succ.inj hlength⟩

/-- Matching at a node ends with the lists that begin with the node and assign a node to
    each pattern. -/
def FindsAll (m : Memo α) (p : Pattern) (id : NodeId) : Prop :=
  Ends (fun _ => False) (p.matchesAt m id) fun founds =>
    ∀ found, found ∈ founds ↔ found.head? = some id ∧ p.Assigns m found

theorem matchesBelow_ends (hm : m.WellFormed) {ps : List Pattern}
    (h : ∀ p ∈ ps, ∀ id : NodeId, id.n < m.size → p.FindsAll m id) {inputs : List NodeId}
    (hinputs : Supplies m ps inputs) :
    Ends (fun _ => False) (matchesAt.matchesBelow m ps inputs) fun founds =>
      ∀ found, found ∈ founds ↔ AssignsAll m ps inputs found := by
  induction ps generalizing inputs with
  | nil =>
    refine .of_eq matchesBelow_nil fun found => ?_
    rw [assignsAll_nil_iff, List.mem_singleton]
  | cons p ps ih =>
    obtain ⟨i, inputs, g, rfl, hg, hlt, hrest⟩ := hinputs.exists_cons hm
    have hp : ∀ k ∈ m.members g, p.FindsAll m k := fun k hk => h p List.mem_cons_self k (hlt k hk)
    have hps := ih (fun q hq => h q (List.mem_cons_of_mem p hq)) hrest
    obtain ⟨lists, hlists⟩ := exists_mapM_eq_ok fun k hk =>
      ((hp k hk).exists_result).imp fun _ hfounds => hfounds.1
    have hfirst : ∀ first, first ∈ lists.flatten ↔
        (∃ k, first.head? = some k ∧ m.InGroupOf i k) ∧ p.Assigns m first := by
      intro first
      rw [mem_flatten_of_mapM hlists]
      constructor
      · rintro ⟨k, hk, founds, hfounds, hfirst⟩
        obtain ⟨hhead, hassigns⟩ := ((hp k hk).result hfounds first).mp hfirst
        exact ⟨⟨k, hhead, (Memo.inGroupOf_iff hg).mpr hk⟩, hassigns⟩
      · rintro ⟨⟨k, hhead, hgroup⟩, hassigns⟩
        have hk := (Memo.inGroupOf_iff hg).mp hgroup
        obtain ⟨founds, hfounds, hmatches⟩ := (hp k hk).exists_result
        exact ⟨k, hk, founds, hfounds, (hmatches first).mpr ⟨hhead, hassigns⟩⟩
    rw [matchesBelow_cons hg]
    refine Ends.after hlists (hps.bind fun others hothers => Ends.pure fun found => ?_)
    simp only [List.mem_flatMap, List.mem_map, hfirst, hothers, assignsAll_cons_iff]
    constructor
    · rintro ⟨first, ⟨hroot, hassigns⟩, rest, hrest, rfl⟩
      exact ⟨first, rest, rfl, hassigns, hroot, hrest⟩
    · rintro ⟨first, rest, rfl, hassigns, hroot, hrest⟩
      exact ⟨first, ⟨hroot, hassigns⟩, rest, hrest, rfl⟩

/-- In a well-formed memo every pattern finds all its matches at every node. -/
theorem findsAll (hm : m.WellFormed) (p : Pattern) {id : NodeId} (hid : id.n < m.size) :
    p.FindsAll m id := by
  induction p using childInduction generalizing id with
  | pattern p ih =>
    obtain ⟨n, hn⟩ := Memo.exists_node hid
    -- the node at the root is the one that was asked about
    have hroot : ∀ {found}, found.head? = some id ∧ p.Assigns m found ↔ ∃ below,
        found = id :: below ∧ p.Suits n ∧ AssignsAll m p.children n.inputs below := by
      intro found
      rw [assigns_iff]
      constructor
      · rintro ⟨hhead, id', n', below, rfl, hn', hsuits, hbelow⟩
        obtain rfl : id' = id := by simpa using hhead
        obtain rfl : n = n' := Except.ok.inj (hn.symm.trans hn')
        exact ⟨below, rfl, hsuits, hbelow⟩
      · rintro ⟨below, rfl, hsuits, hbelow⟩
        exact ⟨rfl, id, n, below, rfl, hn, hsuits, hbelow⟩
    by_cases hsuits : p.Suits n
    · rw [FindsAll, matchesAt_of_suits hn hsuits]
      have hbelows := matchesBelow_ends hm (fun c hc id hid => ih c hc hid) (hsuits.supplies hm hn)
      refine hbelows.bind fun founds hfounds => Ends.pure fun found => ?_
      rw [hroot, List.mem_map]
      constructor
      · rintro ⟨below, hbelow, rfl⟩
        exact ⟨below, rfl, hsuits, (hfounds below).mp hbelow⟩
      · rintro ⟨below, rfl, -, hbelow⟩
        exact ⟨below, (hfounds below).mpr hbelow, rfl⟩
    · refine .of_eq (matchesAt_of_not_suits hn hsuits) fun found => ?_
      rw [hroot]
      constructor
      · intro h
        cases h
      · rintro ⟨below, -, hsuits', -⟩
        exact absurd hsuits' hsuits

/-! ### Patterns about one node or two -/

/-- A pattern without children finds the node or nothing. -/
theorem matchesAt_leaf {p : Pattern} (hp : p.children = []) {id : NodeId} {n : Node}
    (hn : m.node id = .ok n) :
    p.matchesAt m id = .ok (if p.accepts n then [[id]] else []) := by
  by_cases h : p.accepts n = true
  · have hsuits : p.Suits n := suits_iff.mpr ⟨h, fun hne => absurd hp hne⟩
    rw [matchesAt_of_suits hn hsuits, hp, matchesBelow_nil, if_pos h]
    rfl
  · rw [matchesAt_of_not_suits hn fun hsuits => h hsuits.accepts, if_neg h]

theorem assigns_leaf_iff {q : Pattern} (hq : q.children = []) {found : List NodeId} :
    q.Assigns m found ↔ ∃ id n, found = [id] ∧ m.node id = .ok n ∧ q.accepts n = true := by
  rw [assigns_iff]
  simp only [hq, assignsAll_nil_iff]
  constructor
  · rintro ⟨id, n, below, rfl, hn, hsuits, rfl⟩
    exact ⟨id, n, rfl, hn, hsuits.accepts⟩
  · rintro ⟨id, n, rfl, hn, haccepts⟩
    exact ⟨id, n, [], rfl, hn, suits_iff.mpr ⟨haccepts, fun hne => absurd hq hne⟩, rfl⟩

theorem assigns_over_iff {p q : Pattern} (hp : p.children = [q]) (hq : q.children = [])
    {found : List NodeId} : p.Assigns m found ↔ ∃ id n i k below, found = [id, k] ∧
      m.node id = .ok n ∧ p.accepts n = true ∧ n.inputs = [i] ∧ m.InGroupOf i k ∧
      m.node k = .ok below ∧ q.accepts below = true := by
  rw [assigns_iff]
  constructor
  · rintro ⟨id, n, found, rfl, hn, hsuits, hfound⟩
    have hlength := hsuits.arity (by rw [hp]; exact List.cons_ne_nil q [])
    rw [hp] at hlength hfound
    obtain ⟨i, hi⟩ := List.length_eq_one_iff.mp hlength
    rw [hi, assignsAll_cons_iff] at hfound
    obtain ⟨first, rest, rfl, hfirst, ⟨k, hk, hgroup⟩, hrest⟩ := hfound
    obtain ⟨k', below, rfl, hbelow, haccepts⟩ := (assigns_leaf_iff hq).mp hfirst
    obtain rfl : k' = k := by simpa using hk
    obtain rfl := assignsAll_nil_iff.mp hrest
    exact ⟨id, n, i, k', below, rfl, hn, hsuits.accepts, hi, hgroup, hbelow, haccepts⟩
  · rintro ⟨id, n, i, k, below, rfl, hn, haccepts, hi, hgroup, hbelow, hk⟩
    refine ⟨id, n, [k], rfl, hn, suits_iff.mpr ⟨haccepts, fun _ => by rw [hi, hp]; rfl⟩, ?_⟩
    rw [hp, hi, assignsAll_cons_iff]
    exact ⟨[k], [], rfl, (assigns_leaf_iff hq).mpr ⟨k, below, rfl, hbelow, hk⟩, ⟨k, rfl, hgroup⟩,
      assignsAll_nil_iff.mpr rfl⟩

/-- What a pattern with one child finds at a node. -/
structure Finds (p q : Pattern) (m : Memo α) (id : NodeId) (n : Node) (found : List NodeId)
    (i k : NodeId) (below : Node) (g : GroupId) : Prop where
  found_eq : found = [id, k]
  accepts : p.accepts n = true
  inputs : n.inputs = [i]
  group : m.groupOf i = .ok g
  member : m.Has k below g
  accepts_below : q.accepts below = true

/-- A pattern with one child finds the node with a member of its input's group. -/
theorem matchesAt_over {p q : Pattern} (hm : m.WellFormed) (hp : p.children = [q])
    (hq : q.children = []) {id : NodeId} {n : Node} (hn : m.node id = .ok n) :
    Ends (fun _ => False) (p.matchesAt m id) fun founds =>
      ∀ found ∈ founds, ∃ i k below g, p.Finds q m id n found i k below g := by
  refine (findsAll hm p (Arena.lt_size_of_get hn)).imp fun founds hfounds found hfound => ?_
  obtain ⟨hhead, hassigns⟩ := (hfounds found).mp hfound
  obtain ⟨id', n', i, k, below, rfl, hn', haccepts, hi, ⟨g, hg, hk⟩, hbelow, haccepts'⟩ :=
    (assigns_over_iff hp hq).mp hassigns
  obtain rfl : id' = id := by simpa using hhead
  obtain rfl : n = n' := Except.ok.inj (hn.symm.trans hn')
  exact ⟨i, k, below, g, rfl, haccepts, hi, hg, ⟨hbelow, (hm.mem_members_groupOf hg).mp hk⟩,
    haccepts'⟩

/-- All members that are accepted are found. -/
theorem mem_matchesAt_over {p q : Pattern} (hm : m.WellFormed) (hp : p.children = [q])
    (hq : q.children = []) {id : NodeId} {n : Node} {i k : NodeId} {below : Node} {g : GroupId}
    (hn : m.node id = .ok n) (haccepts : p.accepts n = true) (hi : n.inputs = [i])
    (hg : m.groupOf i = .ok g) (hk : m.Has k below g) (hbelow : q.accepts below = true)
    {founds : List (List NodeId)} (h : p.matchesAt m id = .ok founds) : [id, k] ∈ founds := by
  have hgroup : m.InGroupOf i k :=
    (Memo.inGroupOf_iff hg).mpr ((hm.mem_members_groupOf hg).mpr hk.group)
  refine ((findsAll hm p (Arena.lt_size_of_get hn)).result h [id, k]).mpr ⟨rfl, ?_⟩
  exact (assigns_over_iff hp hq).mpr
    ⟨id, n, i, k, below, rfl, hn, haccepts, hi, hgroup, hk.node, hbelow⟩

/-- A pattern about one node, or about a node and a member of its input's group. -/
def IsShort (p : Pattern) : Prop := p.children = [] ∨ ∃ q, p.children = [q] ∧ q.children = []

/-- What a short pattern finds are one or two nodes of the memo. -/
theorem IsShort.found {p : Pattern} (h : p.IsShort) (hm : m.WellFormed) {id : NodeId} {n : Node}
    (hn : m.node id = .ok n) {founds : List (List NodeId)}
    (hmatches : p.matchesAt m id = .ok founds) {found : List NodeId} (hfound : found ∈ founds) :
    found.length ≤ 2 ∧ ∀ i ∈ found, i.n < m.size := by
  have hid : id.n < m.size := Arena.lt_size_of_get hn
  rcases h with hp | ⟨q, hp, hq⟩
  · rw [matchesAt_leaf hp hn] at hmatches
    obtain rfl := Except.ok.inj hmatches
    split at hfound
    · obtain rfl := List.mem_singleton.mp hfound
      exact ⟨by simp, by simpa using hid⟩
    · cases hfound
  · obtain ⟨i, k, below, g, hfinds⟩ := (matchesAt_over hm hp hq hn).result hmatches found hfound
    have hk := hfinds.member.lt_size
    rw [hfinds.found_eq]
    exact ⟨by simp, by simpa using ⟨hid, hk⟩⟩

end Pattern

end Polystore
