import Polystore.Optimizer.Select
import Polystore.Proofs.Groups

/-
  Polystore/Proofs/Selection.lean
  ===============================
  **What selection does step by step.**  A member of a group is considered in one
  of three ways: its inputs are not available, it is no better than the pick, or
  it becomes the pick (`Considered`).  What holds before a round and is kept by
  each of them holds of the picks in the end (`improve_ends`); in particular the
  inputs of a pick have picks, and no demand is left unmet that members of groups
  can meet (`select_ends`).
-/

namespace Polystore

variable {α : Type} {m : Memo α} {s : CostSettings}

/-- A member of a live group, as selection reads it. -/
structure Memo.Member (m : Memo α) (g : GroupId) (id : NodeId) (n : Node)
    (inputs : List GroupId) : Prop where
  live : m.isLive g = true
  mem : id ∈ m.members g
  node : m.node id = .ok n
  inputs : n.inputs.mapM m.groupOf = .ok inputs

/-- The cost of a member of a group without its inputs. -/
def Memo.ownCost [Quantity α] (m : Memo α) (s : CostSettings) (g : GroupId) (n : Node)
    (inputs : List GroupId) : Cost α :=
  selfCost s n (inputs.map m.rows) (m.rows g)

namespace Winners

variable {w : Winners α} {g : GroupId} {id : NodeId} {n : Node} {inputs : List GroupId}

theorem mem_candidates : (g, id) ∈ candidates m ↔ m.isLive g = true ∧ id ∈ m.members g := by
  simp only [candidates, Memo.liveGroups, List.mem_flatMap, List.mem_filter, List.mem_map,
    List.mem_range]
  constructor
  · rintro ⟨h, ⟨-, hlive⟩, i, hi, heq⟩
    obtain ⟨rfl, rfl⟩ := Prod.mk.inj heq
    exact ⟨hlive, hi⟩
  · rintro ⟨hlive, hid⟩
    exact ⟨g, ⟨⟨g.n, (Memo.isLive_iff.mp hlive).1, rfl⟩, hlive⟩, id, hid, rfl⟩

/-- In a well-formed memo all candidates can be read. -/
theorem exists_member (hm : m.WellFormed) (h : (g, id) ∈ candidates m) :
    ∃ n inputs, m.Member g id n inputs := by
  obtain ⟨hlive, hid⟩ := mem_candidates.mp h
  obtain ⟨n, hn⟩ := Memo.exists_node (hm.lt_size_of_groupOf ((hm.mem_members_iff g id).mp hid))
  obtain ⟨inputs, hinputs⟩ := hm.exists_inputGroups hn
  exact ⟨n, inputs, hlive, hid, hn, hinputs⟩

/-! ### Picks and their inputs -/

/-- There is a pick for a demand. -/
def Meets (w : Winners α) (d : Demand) : Prop := ∃ x, w[d]? = some x

/-- Each pick is a member of the group in the convention, and there are picks for
    its inputs. -/
def Supported (m : Memo α) (w : Winners α) : Prop :=
  ∀ (d : Demand) x, w[d]? = some x → ∃ n inputs, m.Member d.1 x.node n inputs ∧
    n.convention = d.2 ∧ ∀ h ∈ inputs, w.Meets (h, n.inputConvention)

/-- A demand that is met by following members of groups down to so many levels. -/
def Available (m : Memo α) : Nat → Demand → Prop
  | 0, _ => False
  | k + 1, d => ∃ id n inputs, m.Member d.1 id n inputs ∧ n.convention = d.2 ∧
    ∀ h ∈ inputs, Available m k (h, n.inputConvention)

theorem Meets.insert {d d' : Demand} {x : Winner α} (h : w.Meets d) :
    Meets (Std.TreeMap.insert w d' x) d := by
  rw [Meets, Std.TreeMap.getElem?_insert]
  split
  · exact ⟨x, rfl⟩
  · exact h

theorem meets_insert_self {d : Demand} {x : Winner α} : Meets (Std.TreeMap.insert w d x) d := by
  rw [Meets, Std.TreeMap.getElem?_insert_self]
  exact ⟨x, rfl⟩

/-- Taking a member as the pick when its inputs have picks. -/
theorem Supported.insert (hw : w.Supported m) (hmember : m.Member g id n inputs)
    (hinputs : ∀ h ∈ inputs, w.Meets (h, n.inputConvention)) (cost : Cost α) :
    Supported m (Std.TreeMap.insert w (g, n.convention) ⟨id, cost⟩) := by
  intro d x hx
  rcases getElem?_insert_eq_some hx with ⟨rfl, rfl⟩ | ⟨-, hx⟩
  · exact ⟨n, inputs, hmember, rfl, fun h hh => (hinputs h hh).insert⟩
  · obtain ⟨n', inputs', hmember', hc, hinputs'⟩ := hw d x hx
    exact ⟨n', inputs', hmember', hc, fun h hh => (hinputs' h hh).insert⟩

/-! ### Considering a candidate -/

variable [Quantity α]

/-- How a member of a group is considered. -/
inductive Considered (m : Memo α) (s : CostSettings) (w : Winners α) (b : Bool) (g : GroupId)
    (id : NodeId) (n : Node) (inputs : List GroupId) : Winners α × Bool → Prop
  | unavailable (h : w.inputsCost n.inputConvention inputs = none) :
    Considered m s w b g id n inputs (w, b)
  | kept {below : Cost α} (h : w.inputsCost n.inputConvention inputs = some below)
    (hworse : w.improves s (g, n.convention) (below + m.ownCost s g n inputs) = false) :
    Considered m s w b g id n inputs (w, b)
  | taken {below : Cost α} (h : w.inputsCost n.inputConvention inputs = some below)
    (hbetter : w.improves s (g, n.convention) (below + m.ownCost s g n inputs) = true) :
    Considered m s w b g id n inputs
      (w.insert (g, n.convention) ⟨id, below + m.ownCost s g n inputs⟩, true)

theorem memberCost_eq (h : m.Member g id n inputs) : w.memberCost m s g id =
    .ok ((w.inputsCost n.inputConvention inputs).map (· + m.ownCost s g n inputs)) := by
  have hinputs : m.inputGroups id = .ok inputs :=
    except_bind_eq_ok.mpr ⟨n, h.node, h.inputs⟩
  exact except_bind_eq_ok.mpr ⟨n, h.node, except_bind_eq_ok.mpr ⟨inputs, hinputs, rfl⟩⟩

theorem consider_eq_ok (h : m.Member g id n inputs) (b : Bool) :
    ∃ r, consider m s (w, b) (g, id) = .ok r ∧ Considered m s w b g id n inputs r := by
  have hcost := memberCost_eq (s := s) (w := w) h
  cases hbelow : w.inputsCost n.inputConvention inputs with
  | none =>
    rw [hbelow] at hcost
    exact ⟨_, except_bind_eq_ok.mpr ⟨_, hcost, rfl⟩, .unavailable hbelow⟩
  | some below =>
    rw [hbelow] at hcost
    by_cases hbetter : w.improves s (g, n.convention) (below + m.ownCost s g n inputs) = true
    · refine ⟨_, except_bind_eq_ok.mpr ⟨_, hcost, ?_⟩, .taken hbelow hbetter⟩
      refine except_bind_eq_ok.mpr ⟨n, h.node, ?_⟩
      rw [if_pos hbetter]
      rfl
    · refine ⟨_, except_bind_eq_ok.mpr ⟨_, hcost, ?_⟩, .kept hbelow (eq_false_of_ne_true hbetter)⟩
      refine except_bind_eq_ok.mpr ⟨n, h.node, ?_⟩
      rw [if_neg hbetter]
      rfl

/-- Considering a candidate fails only where it cannot be read. -/
theorem consider_ends {E : Error → Prop} (hread : m.WellFormed ∨ ∀ e, E e)
    (hcandidate : (g, id) ∈ candidates m) (b : Bool) :
    Ends E (consider m s (w, b) (g, id)) fun r => ∃ n inputs, m.Member g id n inputs ∧
      Considered m s w b g id n inputs r := by
  rcases hread with hm | hbad
  · obtain ⟨n, inputs, hmember⟩ := exists_member hm hcandidate
    obtain ⟨r, hr, hconsidered⟩ := consider_eq_ok (s := s) (w := w) hmember b
    exact .of_eq hr ⟨n, inputs, hmember, hconsidered⟩
  · refine .of_ok hbad ?_
    intro r hr
    obtain ⟨cost, hcost, -⟩ := except_bind_eq_ok.mp hr
    obtain ⟨n, hn, hcost⟩ := except_bind_eq_ok.mp hcost
    obtain ⟨inputs, hinputs, -⟩ := except_bind_eq_ok.mp hcost
    obtain ⟨n', hn', hinputs⟩ := except_bind_eq_ok.mp hinputs
    obtain rfl : n = n' := Except.ok.inj (hn.symm.trans hn')
    obtain ⟨hlive, hmem⟩ := mem_candidates.mp hcandidate
    have hmember : m.Member g id n inputs := ⟨hlive, hmem, hn, hinputs⟩
    obtain ⟨r', hr', hconsidered⟩ := consider_eq_ok (s := s) (w := w) hmember b
    obtain rfl : r = r' := Except.ok.inj (hr.symm.trans hr')
    exact ⟨n, inputs, hmember, hconsidered⟩

/-! ### Rounds -/

/-- No member of a group is better than the pick. -/
def Settled (m : Memo α) (s : CostSettings) (w : Winners α) : Prop :=
  ∀ {g id n inputs below}, m.Member g id n inputs →
    w.inputsCost n.inputConvention inputs = some below →
    w.improves s (g, n.convention) (below + m.ownCost s g n inputs) = false

/-- One round.  An invariant of the picks is kept, and what each candidate stands
    for lasts; if nothing has improved, no candidate is better than the pick. -/
theorem round_ends {E : Error → Prop} (hread : m.WellFormed ∨ ∀ e, E e) {J : Winners α → Prop}
    {R : Winners α → Winners α → Prop} {D : GroupId → NodeId → Winners α → Prop}
    (hrefl : ∀ w, R w w) (htrans : ∀ w₁ w₂ w₃, R w₁ w₂ → R w₂ w₃ → R w₁ w₃)
    (hmono : ∀ g id w₁ w₂, J w₁ → D g id w₁ → R w₁ w₂ → D g id w₂)
    (hstep : ∀ {w b g id n inputs r}, J w → m.Member g id n inputs →
      Considered m s w b g id n inputs r → J r.1 ∧ R w r.1 ∧ D g id r.1) (hw : J w) :
    Ends E ((candidates m).foldlM (consider m s) (w, false)) fun r => J r.1 ∧ R w r.1 ∧
      (∀ {g id n inputs}, m.Member g id n inputs → D g id r.1) ∧
      (r.2 = false → r.1 = w ∧ Settled m s w) := by
  -- as long as nothing has improved, the picks are those at the start of the round
  have hfold := Ends.foldlM (E := E) (l := candidates m) (f := consider m s) (s := (w, false))
    (J := fun p : Winners α × Bool => J p.1 ∧ (p.2 = false → p.1 = w))
    (R := fun p q : Winners α × Bool => R p.1 q.1 ∧ (q.2 = false → p.2 = false))
    (D := fun (c : GroupId × NodeId) (p : Winners α × Bool) => D c.1 c.2 p.1 ∧ (p.2 = false →
      ∀ n inputs below, m.Member c.1 c.2 n inputs →
        w.inputsCost n.inputConvention inputs = some below →
        w.improves s (c.1, n.convention) (below + m.ownCost s c.1 n inputs) = false))
    (fun p => ⟨hrefl p.1, id⟩)
    (fun p q r hpq hqr => ⟨htrans p.1 q.1 r.1 hpq.1 hqr.1, fun h => hpq.2 (hqr.2 h)⟩)
    (fun c p q hp hc hpq => ⟨hmono c.1 c.2 p.1 q.1 hp.1 hc.1 hpq.1, fun h => hc.2 (hpq.2 h)⟩)
    ?_ ⟨hw, fun _ => rfl⟩
  · apply hfold.imp
    intro r hr
    rcases hr with ⟨⟨hJ, hsame⟩, ⟨hR, -⟩, hall⟩
    refine ⟨hJ, hR, fun hmember => ?_, fun hfalse => ⟨hsame hfalse, fun hmember hbelow => ?_⟩⟩
    · exact (hall _ (mem_candidates.mpr ⟨hmember.live, hmember.mem⟩)).1
    · exact (hall _ (mem_candidates.mpr ⟨hmember.live, hmember.mem⟩)).2 hfalse _ _ _ hmember hbelow
  · rintro ⟨g, id⟩ hcandidate ⟨w', b⟩ ⟨hJ, hsame⟩
    apply (consider_ends hread hcandidate b).imp
    intro r hr
    rcases hr with ⟨n, inputs, hmember, hconsidered⟩
    obtain ⟨hJ', hR, hD⟩ := hstep hJ hmember hconsidered
    have honly : ∀ {n' inputs'}, m.Member g id n' inputs' → n' = n ∧ inputs' = inputs := by
      intro n' inputs' hmember'
      obtain rfl : n' = n := Except.ok.inj (hmember'.node.symm.trans hmember.node)
      exact ⟨rfl, Except.ok.inj (hmember'.inputs.symm.trans hmember.inputs)⟩
    cases hconsidered with
    | unavailable h =>
      refine ⟨⟨hJ', hsame⟩, ⟨hR, fun h => h⟩, hD, ?_⟩
      intro hfalse n' inputs' below hmember' hbelow
      obtain ⟨rfl, rfl⟩ := honly hmember'
      obtain rfl : w' = w := hsame hfalse
      rw [h] at hbelow
      cases hbelow
    | kept h hworse =>
      refine ⟨⟨hJ', hsame⟩, ⟨hR, fun h => h⟩, hD, ?_⟩
      intro hfalse n' inputs' below hmember' hbelow
      obtain ⟨rfl, rfl⟩ := honly hmember'
      obtain rfl : w' = w := hsame hfalse
      rw [h] at hbelow
      obtain rfl := Option.some.inj hbelow
      exact hworse
    | taken h hbetter => exact ⟨⟨hJ', by simp⟩, ⟨hR, by simp⟩, hD, by simp⟩

/-- All rounds, from one on.  They end when no candidate is better than the pick,
    or when they are used up. -/
theorem improve_ends {E : Error → Prop} {J : Nat → Winners α → Prop}
    (hround : ∀ k w, J k w → Ends E ((candidates m).foldlM (consider m s) (w, false)) fun r =>
      J (k + 1) r.1 ∧ (r.2 = false → r.1 = w ∧ Settled m s w))
    {k rounds : Nat} (hw : J k w) : Ends E (improve m s w rounds) fun w' =>
      ∃ k', J k' w' ∧ (k' = k + rounds ∨ Settled m s w') := by
  induction rounds generalizing k w with
  | zero => exact Ends.pure ⟨k, hw, .inl rfl⟩
  | succ rounds ih =>
    apply (hround k w hw).bind
    intro r hr
    rcases r with ⟨w', improved⟩
    rcases hr with ⟨hw', hsettled⟩
    cases improved with
    | false =>
      obtain ⟨rfl, hsettled⟩ := hsettled rfl
      exact Ends.pure ⟨k, hw, .inr hsettled⟩
    | true =>
      apply (ih hw').imp
      intro w₂ h
      rcases h with ⟨k', hk', hend⟩
      exact ⟨k', hk', hend.imp_left fun h => by omega⟩

/-! ### Meeting demands -/

theorem exists_inputsCost {c : Convention} {inputs : List GroupId} :
    (∃ below, w.inputsCost c inputs = some below) ↔ ∀ h ∈ inputs, w.Meets (h, c) := by
  have hfold : ∀ start : Cost α, (∃ below, inputs.foldlM (fun (total : Cost α) h => do
      return total + (← w[((h, c) : Demand)]?).cost) start = some below) ↔
        ∀ h ∈ inputs, w.Meets (h, c) := by
    induction inputs with
    | nil => intro start; simp
    | cons h rest ih =>
      intro start
      rw [List.forall_mem_cons, List.foldlM_cons]
      cases hx : w[((h, c) : Demand)]? with
      | none => simp [Meets, hx]
      | some x =>
        have hmeets : w.Meets (h, c) := ⟨x, hx⟩
        simp only [hmeets, true_and]
        exact ih (start + x.cost)
  exact hfold Cost.zero

theorem Considered.supported {b : Bool} {r : Winners α × Bool} (hw : w.Supported m)
    (hmember : m.Member g id n inputs) (h : Considered m s w b g id n inputs r) :
    r.1.Supported m := by
  cases h with
  | unavailable _ => exact hw
  | kept _ _ => exact hw
  | taken h _ => exact hw.insert hmember (exists_inputsCost.mp ⟨_, h⟩) _

/-- A member whose inputs have picks gets one. -/
theorem Considered.meets {b : Bool} {r : Winners α × Bool}
    (h : Considered m s w b g id n inputs r)
    (hinputs : ∀ h ∈ inputs, w.Meets (h, n.inputConvention)) : r.1.Meets (g, n.convention) := by
  obtain ⟨below, hbelow⟩ := exists_inputsCost.mpr hinputs
  cases h with
  | unavailable h =>
    rw [h] at hbelow
    cases hbelow
  | kept _ hworse =>
    cases hx : w[((g, n.convention) : Demand)]? with
    | none => simp [improves, hx] at hworse
    | some x => exact ⟨x, hx⟩
  | taken _ _ => exact meets_insert_self

theorem Considered.keeps {b : Bool} {r : Winners α × Bool}
    (h : Considered m s w b g id n inputs r) {d : Demand} (hd : w.Meets d) : r.1.Meets d := by
  cases h with
  | unavailable _ => exact hd
  | kept _ _ => exact hd
  | taken _ _ => exact hd.insert

/-- When nothing is better than the picks, all demands are met that can be. -/
theorem Settled.meets (hw : Settled m s w) {k : Nat} {d : Demand} (hd : Available m k d) :
    w.Meets d := by
  induction k generalizing d with
  | zero => exact hd.elim
  | succ k ih =>
    rcases hd with ⟨id, n, inputs, hmember, hc, hinputs⟩
    obtain ⟨below, hbelow⟩ := exists_inputsCost.mpr fun h hh => ih (hinputs h hh)
    have hworse := hw hmember hbelow
    rw [hc] at hworse
    cases hx : w[d]? with
    | none => simp [improves, hx] at hworse
    | some x => exact ⟨x, hx⟩

/-- One more round meets the demands of one more level. -/
theorem round_meets {E : Error → Prop} (hread : m.WellFormed ∨ ∀ e, E e) {k : Nat}
    (hw : w.Supported m) (hk : ∀ d, Available m k d → w.Meets d) :
    Ends E ((candidates m).foldlM (consider m s) (w, false)) fun r =>
      (r.1.Supported m ∧ ∀ d, Available m (k + 1) d → r.1.Meets d) ∧
        (r.2 = false → r.1 = w ∧ Settled m s w) := by
  have hround := round_ends (s := s) hread
    (J := fun w' => w'.Supported m ∧ ∀ d, w.Meets d → w'.Meets d)
    (R := fun w₁ w₂ => ∀ d, w₁.Meets d → w₂.Meets d)
    (D := fun g id w' => ∀ n inputs, m.Member g id n inputs →
      (∀ h ∈ inputs, w.Meets (h, n.inputConvention)) → w'.Meets (g, n.convention))
    (fun _ _ h => h) (fun _ _ _ h h' d hd => h' d (h d hd))
    (fun _ _ _ _ _ hmet hkeeps n inputs hmember hinputs =>
      hkeeps _ (hmet n inputs hmember hinputs)) ?_ ⟨hw, fun _ h => h⟩
  · apply hround.imp
    intro r hr
    rcases hr with ⟨⟨hsupported, -⟩, -, hmet, hend⟩
    refine ⟨⟨hsupported, fun d hd => ?_⟩, hend⟩
    rcases hd with ⟨id, n, inputs, hmember, hc, hinputs⟩
    have hd := hmet hmember n inputs hmember fun h hh => hk _ (hinputs h hh)
    rwa [hc] at hd
  · intro w' b g id n inputs r hw' hmember hconsidered
    refine ⟨⟨hconsidered.supported hw'.1 hmember, fun d hd => hconsidered.keeps (hw'.2 d hd)⟩,
      fun d hd => hconsidered.keeps hd, fun n' inputs' hmember' hinputs => ?_⟩
    obtain rfl : n' = n := Except.ok.inj (hmember'.node.symm.trans hmember.node)
    obtain rfl : inputs' = inputs := Except.ok.inj (hmember'.inputs.symm.trans hmember.inputs)
    exact hconsidered.meets fun h hh => hw'.2 _ (hinputs h hh)

/-- Selection meets every demand that can be met down to as many levels as there
    are nodes, and its picks have picks for their inputs. -/
theorem select_ends {E : Error → Prop} (hread : m.WellFormed ∨ ∀ e, E e) :
    Ends E (select m s) fun w =>
      w.Supported m ∧ ∀ d, Available m (m.size + 1) d → w.Meets d := by
  have hends : Ends E (improve m s {} (m.size + 1)) _ := improve_ends (k := 0)
    (J := fun k w => w.Supported m ∧ ∀ d, Available m k d → w.Meets d)
    (fun k w hw => round_meets hread hw.1 hw.2)
    ⟨fun d x hx => by simp at hx, fun d hd => hd.elim⟩
  apply hends.imp
  intro w hw
  rcases hw with ⟨k, ⟨hsupported, hmet⟩, hk | hsettled⟩
  · rw [Nat.zero_add] at hk
    exact ⟨hsupported, hk ▸ hmet⟩
  · exact ⟨hsupported, fun d hd => hsettled.meets hd⟩

end Winners

end Polystore
