import Polystore.Optimizer.Pattern
import Polystore.Proofs.Groups

/-
  Polystore/Proofs/PatternPlaces.lean
  ===================================
  **The places of a match.**  A match lists a node for each test of a pattern, in
  the order in which the tests are written down, parents first
  (`Pattern.preorder`).  Whether a list is a match is said place by place
  (`Pattern.Assigns`): the node there has to pass the test, and the nodes at the
  places of the child tests have to be in the groups of its inputs.

  Matching recurses over a pattern and over its children.  A list for a pattern
  is a node and the list for its children (`assigns_iff`), and a list for several
  patterns is one for the first followed by one for the others
  (`assignsAll_cons_iff`).
-/

namespace Polystore

namespace Pattern

/-- Induction on patterns: a pattern may assume the property of its children. -/
@[elab_as_elim]
theorem childInduction {motive : Pattern → Prop}
    (pattern : ∀ p : Pattern, (∀ c ∈ p.children, motive c) → motive p) (p : Pattern) : motive p :=
  @Pattern.rec motive (fun ps => ∀ c ∈ ps, motive c)
    (fun kind convention guard children ih => pattern ⟨kind, convention, guard, children⟩ ih)
    (fun _ h => nomatch h)
    (fun _ _ hhead htail c hc => (List.mem_cons.mp hc).elim (fun h => h ▸ hhead) (htail c))
    p

/-! ### Places -/

/-- The pattern and all patterns below it, parents first. -/
def preorder : Pattern → List Pattern
  | ⟨kind, convention, guard, children⟩ =>
    ⟨kind, convention, guard, children⟩ :: preorderAll children
where
  preorderAll : List Pattern → List Pattern
    | [] => []
    | p :: rest => preorder p ++ preorderAll rest

theorem preorder_eq (p : Pattern) : p.preorder = p :: preorder.preorderAll p.children := by
  cases p
  simp only [preorder]

theorem size_eq (p : Pattern) : p.size = size.sizeAll p.children + 1 := by
  cases p
  simp only [size, Nat.add_comm]

theorem length_preorderAll {ps : List Pattern} (h : ∀ p ∈ ps, p.preorder.length = p.size) :
    (preorder.preorderAll ps).length = size.sizeAll ps := by
  induction ps with
  | nil => rfl
  | cons p ps ih =>
    have hrest := ih fun q hq => h q (List.mem_cons_of_mem p hq)
    simp only [preorder.preorderAll, size.sizeAll, List.length_append, hrest,
      h p List.mem_cons_self]

theorem length_preorder (p : Pattern) : p.preorder.length = p.size := by
  induction p using childInduction with
  | pattern p ih => rw [preorder_eq, size_eq, List.length_cons, length_preorderAll ih]

theorem size_pos (p : Pattern) : 0 < p.size := by
  rw [size_eq]
  exact Nat.succ_pos _

section

variable {p q c : Pattern} {ps : List Pattern} {j k : Nat}

theorem preorderAll_drop (h : ∀ p ∈ ps, ∀ {k q}, p.preorder[k]? = some q →
      ∃ rest, p.preorder.drop k = q.preorder ++ rest)
    (hq : (preorder.preorderAll ps)[k]? = some q) :
    ∃ rest, (preorder.preorderAll ps).drop k = q.preorder ++ rest := by
  induction ps generalizing k with
  | nil => cases hq
  | cons p ps ih =>
    simp only [preorder.preorderAll] at hq ⊢
    rcases Nat.lt_or_ge k p.preorder.length with hk | hk
    · rw [List.getElem?_append_left hk] at hq
      obtain ⟨rest, hrest⟩ := h p List.mem_cons_self hq
      exact ⟨rest ++ preorder.preorderAll ps, by
        rw [List.drop_append_of_le_length (Nat.le_of_lt hk), hrest, List.append_assoc]⟩
    · rw [List.getElem?_append_right hk] at hq
      rw [List.drop_append, List.drop_eq_nil_of_le hk, List.nil_append]
      exact ih (fun r hr => h r (List.mem_cons_of_mem p hr)) hq

/-- At the place of a pattern everything below it follows. -/
theorem preorder_drop (h : p.preorder[k]? = some q) :
    ∃ rest, p.preorder.drop k = q.preorder ++ rest := by
  induction p using childInduction generalizing k q with
  | pattern p ih =>
    rw [preorder_eq] at h ⊢
    cases k with
    | zero =>
      obtain rfl : p = q := by simpa using h
      exact ⟨[], by rw [List.append_nil, preorder_eq, List.drop_zero]⟩
    | succ k => exact preorderAll_drop (fun c hc => ih c hc) (by simpa using h)

theorem place_add_size_le (h : p.preorder[k]? = some q) : k + q.size ≤ p.size := by
  obtain ⟨rest, hrest⟩ := preorder_drop h
  have hlength := congrArg List.length hrest
  have hpos := q.size_pos
  rw [List.length_drop, List.length_append, length_preorder, length_preorder] at hlength
  omega

/-- Where a pattern's child is, if the pattern itself is at place `k`: behind it and
    the children before. -/
def childPlace (p : Pattern) (k j : Nat) : Nat := k + 1 + size.sizeAll (p.children.take j)

theorem preorderAll_take (h : ps[j]? = some c) :
    ∃ rest, (preorder.preorderAll ps).drop (size.sizeAll (ps.take j)) = c.preorder ++ rest := by
  induction ps generalizing j with
  | nil => cases h
  | cons p ps ih =>
    cases j with
    | zero =>
      obtain rfl : p = c := by simpa using h
      exact ⟨_, rfl⟩
    | succ j =>
      obtain ⟨rest, hrest⟩ := ih (j := j) (by simpa using h)
      refine ⟨rest, ?_⟩
      rw [← hrest]
      simp only [List.take_succ_cons, size.sizeAll, preorder.preorderAll, ← length_preorder p,
        List.drop_append, List.drop_eq_nil_of_le (Nat.le_add_right _ _), Nat.add_sub_cancel_left,
        List.nil_append]

theorem sizeAll_take_add_le (h : ps[j]? = some c) :
    size.sizeAll (ps.take j) + c.size ≤ size.sizeAll ps := by
  obtain ⟨rest, hrest⟩ := preorderAll_take h
  have hlength := congrArg List.length hrest
  have hpos := c.size_pos
  rw [List.length_drop, List.length_append, length_preorder,
    length_preorderAll fun p _ => length_preorder p] at hlength
  omega

theorem childPlace_lt (h : p.children[j]? = some c) : p.childPlace k j < k + p.size := by
  have hle := sizeAll_take_add_le h
  have hpos := c.size_pos
  rw [size_eq, childPlace]
  omega

end

/-! ### What a match assigns -/

/-- A node has the operator and the convention that a pattern names and passes its guard,
    and if the pattern has children it has as many inputs. -/
structure Suits (p : Pattern) (n : Node) : Prop where
  kind : ∀ k, p.kind = some k → n.kind = k
  convention : ∀ c, p.convention = some c → n.convention = c
  guard : ∀ passes, p.guard = some passes → passes n = true
  arity : p.children ≠ [] → n.inputs.length = p.children.length

theorem accepts_iff {p : Pattern} {n : Node} : p.accepts n = true ↔
    (∀ k, p.kind = some k → n.kind = k) ∧ (∀ c, p.convention = some c → n.convention = c) ∧
      ∀ passes, p.guard = some passes → passes n = true := by
  simp only [accepts, Bool.and_eq_true, Option.all_eq_true, decide_eq_true_eq, and_assoc,
    @eq_comm _ n.kind, @eq_comm _ n.convention]

theorem suits_iff {p : Pattern} {n : Node} : p.Suits n ↔
    p.accepts n = true ∧ (p.children ≠ [] → n.inputs.length = p.children.length) := by
  rw [accepts_iff]
  constructor
  · rintro ⟨hkind, hconvention, hguard, harity⟩
    exact ⟨⟨hkind, hconvention, hguard⟩, harity⟩
  · rintro ⟨⟨hkind, hconvention, hguard⟩, harity⟩
    exact ⟨hkind, hconvention, hguard, harity⟩

theorem Suits.accepts {p : Pattern} {n : Node} (h : p.Suits n) : p.accepts n = true :=
  (suits_iff.mp h).1

end Pattern

variable {α : Type} {m : Memo α}

/-- A node is a member of the group that an input is in now. -/
def Memo.InGroupOf (m : Memo α) (i below : NodeId) : Prop :=
  ∃ g, m.groupOf i = .ok g ∧ below ∈ m.members g

theorem Memo.inGroupOf_iff {i below : NodeId} {g : GroupId} (h : m.groupOf i = .ok g) :
    m.InGroupOf i below ↔ below ∈ m.members g := by
  constructor
  · rintro ⟨g', hg', hbelow⟩
    obtain rfl : g = g' := Except.ok.inj (h.symm.trans hg')
    exact hbelow
  · exact fun hbelow => ⟨g, h, hbelow⟩

namespace Pattern

/-- The list has a suitable node at the place of a pattern, and members of the groups
    of its inputs at the places of the children. -/
structure Placed (m : Memo α) (found : List NodeId) (k : Nat) (q : Pattern) (id : NodeId)
    (n : Node) : Prop where
  at_place : found[k]? = some id
  node : m.node id = .ok n
  suits : q.Suits n
  below : ∀ j c i, q.children[j]? = some c → n.inputs[j]? = some i →
    ∃ below, found[q.childPlace k j]? = some below ∧ m.InGroupOf i below

/-- The list has suitable nodes at the places of all patterns of another list. -/
def PlacedAll (m : Memo α) (found : List NodeId) (patterns : List Pattern) : Prop :=
  ∀ k q, patterns[k]? = some q → ∃ id n, Placed m found k q id n

/-- The list assigns a node to each of the patterns of a tree. -/
structure Assigns (m : Memo α) (p : Pattern) (found : List NodeId) : Prop where
  length : found.length = p.size
  placed : PlacedAll m found p.preorder

/-- Where several patterns follow each other, the first node for each of them is in
    the group of one input. -/
def Rooted (m : Memo α) (ps : List Pattern) (inputs found : List NodeId) : Prop :=
  ∀ j c i, ps[j]? = some c → inputs[j]? = some i →
    ∃ below, found[size.sizeAll (ps.take j)]? = some below ∧ m.InGroupOf i below

/-- The list assigns nodes to several patterns, one after the other. -/
structure AssignsAll (m : Memo α) (ps : List Pattern) (inputs found : List NodeId) : Prop where
  length : found.length = size.sizeAll ps
  placed : PlacedAll m found (preorder.preorderAll ps)
  roots : Rooted m ps inputs found

section

variable {p q : Pattern} {ps : List Pattern} {id i : NodeId} {n : Node} {k : Nat}
  {inputs found first rest : List NodeId}

/-- What is said about a place reads the list only as far as the pattern there
    reaches. -/
theorem Placed.move {found' : List NodeId} {k' : Nat} (h : Placed m found k q id n)
    (hsame : ∀ d < q.size, found[k + d]? = found'[k' + d]?) : Placed m found' k' q id n where
  at_place := (hsame 0 q.size_pos).symm.trans h.at_place
  node := h.node
  suits := h.suits
  below j c i hc hi := by
    obtain ⟨below, hbelow, hgroup⟩ := h.below j c i hc hi
    have hlt : 1 + size.sizeAll (q.children.take j) < q.size := by
      have hplace := childPlace_lt (k := 0) hc
      rwa [childPlace, Nat.zero_add, Nat.zero_add] at hplace
    refine ⟨below, ?_, hgroup⟩
    rw [← hbelow, childPlace, childPlace, Nat.add_assoc, Nat.add_assoc, hsame _ hlt]

theorem placed_cons_iff {x : NodeId} :
    Placed m (x :: found) (k + 1) q id n ↔ Placed m found k q id n := by
  have hsame : ∀ d, (x :: found)[k + 1 + d]? = found[k + d]? := fun d => by
    rw [Nat.add_right_comm, List.getElem?_cons_succ]
  exact ⟨fun h => h.move fun d _ => hsame d, fun h => h.move fun d _ => (hsame d).symm⟩

theorem placed_append_right_iff :
    Placed m (first ++ rest) (first.length + k) q id n ↔ Placed m rest k q id n := by
  have hsame : ∀ d, (first ++ rest)[first.length + k + d]? = rest[k + d]? := fun d => by
    rw [Nat.add_assoc, List.getElem?_append_right (Nat.le_add_right _ _), Nat.add_sub_cancel_left]
  exact ⟨fun h => h.move fun d _ => hsame d, fun h => h.move fun d _ => (hsame d).symm⟩

theorem placed_append_left_iff (hle : k + q.size ≤ first.length) :
    Placed m (first ++ rest) k q id n ↔ Placed m first k q id n := by
  have hsame : ∀ d < q.size, (first ++ rest)[k + d]? = first[k + d]? := fun d hd =>
    List.getElem?_append_left (by omega)
  exact ⟨fun h => h.move hsame, fun h => h.move fun d hd => (hsame d hd).symm⟩

theorem placedAll_cons_iff {x : NodeId} : PlacedAll m (x :: found) (p :: ps) ↔
    (∃ id n, Placed m (x :: found) 0 p id n) ∧ PlacedAll m found ps := by
  constructor
  · refine fun h => ⟨h 0 p rfl, fun k q hq => ?_⟩
    obtain ⟨id, n, hplaced⟩ := h (k + 1) q hq
    exact ⟨id, n, placed_cons_iff.mp hplaced⟩
  · rintro ⟨hroot, hrest⟩ k q hq
    cases k with
    | zero =>
      obtain rfl : p = q := by simpa using hq
      exact hroot
    | succ k =>
      obtain ⟨id, n, hplaced⟩ := hrest k q (by simpa using hq)
      exact ⟨id, n, placed_cons_iff.mpr hplaced⟩

theorem placedAll_append_iff (hfirst : first.length = p.size) :
    PlacedAll m (first ++ rest) (p.preorder ++ ps) ↔
      PlacedAll m first p.preorder ∧ PlacedAll m rest ps := by
  have hlength : p.preorder.length = first.length := (length_preorder p).trans hfirst.symm
  -- what is below a pattern of the tree stays in the tree's part of the list
  have hwithin : ∀ {k q}, p.preorder[k]? = some q → k + q.size ≤ first.length := fun hq =>
    hfirst ▸ place_add_size_le hq
  constructor
  · refine fun h => ⟨fun k q hq => ?_, fun k q hq => ?_⟩
    · have hlt : k < p.preorder.length := (List.getElem?_eq_some_iff.mp hq).1
      obtain ⟨id, n, hplaced⟩ := h k q (by rw [List.getElem?_append_left hlt, hq])
      exact ⟨id, n, (placed_append_left_iff (hwithin hq)).mp hplaced⟩
    · obtain ⟨id, n, hplaced⟩ := h (first.length + k) q (by
        rw [← hlength, List.getElem?_append_right (Nat.le_add_right _ _),
          Nat.add_sub_cancel_left, hq])
      exact ⟨id, n, placed_append_right_iff.mp hplaced⟩
  · rintro ⟨hplaced, hrest⟩ k q hq
    rcases Nat.lt_or_ge k p.preorder.length with hlt | hge
    · rw [List.getElem?_append_left hlt] at hq
      obtain ⟨id, n, hk⟩ := hplaced k q hq
      exact ⟨id, n, (placed_append_left_iff (hwithin hq)).mpr hk⟩
    · obtain ⟨d, rfl⟩ := Nat.exists_eq_add_of_le hge
      rw [List.getElem?_append_right hge, Nat.add_sub_cancel_left] at hq
      obtain ⟨id, n, hd⟩ := hrest d q hq
      exact ⟨id, n, hlength ▸ placed_append_right_iff.mpr hd⟩

theorem rooted_cons_iff (hfirst : first.length = p.size) :
    Rooted m (p :: ps) (i :: inputs) (first ++ rest) ↔
      (∃ k, first.head? = some k ∧ m.InGroupOf i k) ∧ Rooted m ps inputs rest := by
  have hhead : (first ++ rest)[0]? = first.head? := by
    rw [List.head?_eq_getElem?, List.getElem?_append_left (hfirst ▸ p.size_pos)]
  have htail : ∀ d, (first ++ rest)[p.size + d]? = rest[d]? := fun d => by
    rw [← hfirst, List.getElem?_append_right (Nat.le_add_right _ _), Nat.add_sub_cancel_left]
  constructor
  · refine fun h => ⟨?_, fun j c i' hc hi => ?_⟩
    · rw [← hhead]
      exact h 0 p i rfl rfl
    · rw [← htail]
      exact h (j + 1) c i' hc hi
  · rintro ⟨hroot, hrest⟩ j c i' hc hi
    cases j with
    | zero =>
      obtain rfl : i = i' := by simpa using hi
      rw [← hhead] at hroot
      exact hroot
    | succ j =>
      rw [List.take_succ_cons, size.sizeAll, htail]
      exact hrest j c i' (by simpa using hc) (by simpa using hi)

/-- A list for a pattern is a node and a list for the children. -/
theorem assigns_iff : p.Assigns m found ↔ ∃ id n below, found = id :: below ∧
    m.node id = .ok n ∧ p.Suits n ∧ AssignsAll m p.children n.inputs below := by
  have hbehind : ∀ j, p.childPlace 0 j = size.sizeAll (p.children.take j) + 1 := fun j => by
    rw [childPlace, Nat.zero_add, Nat.add_comm]
  constructor
  · rintro ⟨hlength, hplaced⟩
    rw [size_eq] at hlength
    obtain ⟨x, below, rfl⟩ := List.exists_cons_of_length_eq_add_one hlength
    rw [preorder_eq, placedAll_cons_iff] at hplaced
    obtain ⟨⟨id, n, hroot⟩, hrest⟩ := hplaced
    obtain rfl : x = id := by simpa using hroot.at_place
    refine ⟨x, n, below, rfl, hroot.node, hroot.suits, Nat.succ.inj hlength, hrest, ?_⟩
    intro j c i hc hi
    have hbelow := hroot.below j c i hc hi
    rwa [hbehind, List.getElem?_cons_succ] at hbelow
  · rintro ⟨id, n, below, rfl, hn, hsuits, hbelow⟩
    refine ⟨by rw [List.length_cons, hbelow.length, size_eq], ?_⟩
    rw [preorder_eq, placedAll_cons_iff]
    refine ⟨⟨id, n, rfl, hn, hsuits, fun j c i hc hi => ?_⟩, hbelow.placed⟩
    rw [hbehind, List.getElem?_cons_succ]
    exact hbelow.roots j c i hc hi

theorem assignsAll_nil_iff : AssignsAll m [] inputs found ↔ found = [] := by
  constructor
  · intro h
    exact List.length_eq_zero_iff.mp h.length
  · rintro rfl
    exact ⟨rfl, fun _ _ hq => (nomatch hq), fun _ _ _ hc => (nomatch hc)⟩

/-- A list for several patterns is a list for the first, which begins in the group of
    the first input, and a list for the others. -/
theorem assignsAll_cons_iff : AssignsAll m (p :: ps) (i :: inputs) found ↔
    ∃ first rest, found = first ++ rest ∧ p.Assigns m first ∧
      (∃ k, first.head? = some k ∧ m.InGroupOf i k) ∧ AssignsAll m ps inputs rest := by
  constructor
  · rintro ⟨hlength, hplaced, hroots⟩
    rw [size.sizeAll] at hlength
    obtain ⟨first, rest, rfl, hfirst⟩ : ∃ first rest, found = first ++ rest ∧
        first.length = p.size :=
      ⟨found.take p.size, found.drop p.size, (List.take_append_drop _ _).symm,
        List.length_take_of_le (by omega)⟩
    rw [List.length_append, hfirst] at hlength
    obtain ⟨hplaced, hothers⟩ := (placedAll_append_iff hfirst).mp hplaced
    obtain ⟨hroot, hroots⟩ := (rooted_cons_iff hfirst).mp hroots
    exact ⟨first, rest, rfl, ⟨hfirst, hplaced⟩, hroot,
      ⟨Nat.add_left_cancel hlength, hothers, hroots⟩⟩
  · rintro ⟨first, rest, rfl, hfirst, hroot, hrest⟩
    refine ⟨?_, (placedAll_append_iff hfirst.length).mpr ⟨hfirst.placed, hrest.placed⟩,
      (rooted_cons_iff hfirst.length).mpr ⟨hroot, hrest.roots⟩⟩
    rw [List.length_append, hfirst.length, hrest.length, size.sizeAll]

end

end Pattern

end Polystore
