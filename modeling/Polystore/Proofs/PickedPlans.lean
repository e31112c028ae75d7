import Polystore.Proofs.BestPicks
import Polystore.Proofs.StoreQueries

/-
  Polystore/Proofs/PickedPlans.lean
  =================================
  **The plan of the best picks.**  When no pick can be improved, the picks below a
  demand make a tree, in which no demand comes back below itself; so extraction
  never runs in a circle, and what it makes is a copy of that tree.  Together with
  what selection does, the plan is one of the cheapest of all, and its cost is that
  of its nodes (`select_optimal`).
-/

namespace Polystore

variable {m : Memo ℝ} {s : CostSettings} {w : Winners ℝ} {d : Demand}

/-! ### Following the picks -/

namespace Derivation

/-- Each node of a tree is the pick for its demand and costs with all its inputs
    what the pick does. -/
def Follows (w : Winners ℝ) (s : CostSettings) : {d : Demand} → Derivation m d → Prop
  | _, @node _ _ g id n _ h below =>
    (∃ x, w[((g, n.convention) : Demand)]? = some x ∧ x.node = id ∧
      x.cost = (node h below).cost s) ∧ ∀ i, (below i).Follows w s

theorem Follows.exists_pick {t : Derivation m d} (h : t.Follows w s) :
    ∃ x, w[d]? = some x ∧ x.cost = t.cost s := by
  cases t with
  | node hmember below =>
    rcases h with ⟨⟨x, hx, -, hcost⟩, -⟩
    exact ⟨x, hx, hcost⟩

/-- Trees of picks for the same demands cost the same. -/
theorem Follows.cost_eq {t t' : Derivation m d} (h : t.Follows w s) (h' : t'.Follows w s) :
    t.cost s = t'.cost s := by
  obtain ⟨x, hx, hcost⟩ := h.exists_pick
  obtain ⟨x', hx', hcost'⟩ := h'.exists_pick
  obtain rfl := Option.some.inj (hx.symm.trans hx')
  exact hcost.symm.trans hcost'

theorem Follows.replace {g : GroupId} {id : NodeId} {n : Node} {inputs : List GroupId}
    {hmember : m.Member g id n inputs}
    {below below' : ∀ i : Fin inputs.length, Derivation m (inputs.get i, n.inputConvention)}
    (h : (node hmember below).Follows w s) (h' : ∀ i, (below' i).Follows w s) :
    (node hmember below').Follows w s := by
  obtain ⟨⟨x, hx, hid, hcost⟩, hbelow⟩ := h
  have hcosts : ∀ i, (below i).cost s = (below' i).cost s := fun i => (hbelow i).cost_eq (h' i)
  refine ⟨⟨x, hx, hid, ?_⟩, h'⟩
  rw [hcost, cost_node, cost_node]
  simp only [hcosts]

theorem delivers (hm : m.WellFormed) (t : Derivation m d) : m.Delivers d := by
  cases t with
  | node h below => exact h.delivers hm

/-- In an arena a node with all that is below it is a copy of a tree. -/
def Shows (a : Arena) : {d : Demand} → Derivation m d → NodeId → Prop
  | _, @node _ _ _ _ n inputs _ below, k => ∃ copies : Fin inputs.length → NodeId,
    a.get k = .ok (n.withInputs (List.ofFn copies)) ∧ ∀ i, (below i).Shows a (copies i)

theorem Shows.lt_size {a : Arena} {t : Derivation m d} {k : NodeId} (h : t.Shows a k) :
    k.n < a.size := by
  cases t with
  | node hmember below =>
    rcases h with ⟨copies, hk, -⟩
    exact Arena.lt_size_of_get hk

/-- Copies stay when nodes are added. -/
theorem Shows.grew {e e' : Extraction} {t : Derivation m d} {k : NodeId}
    (h : t.Shows e.arena k) (hgrew : e.Grew e') : t.Shows e'.arena k := by
  induction t generalizing k with
  | @node g id n inputs hmember below ih =>
    rcases h with ⟨copies, hk, hbelow⟩
    exact ⟨copies, hgrew _ _ hk, fun i => ih i (hbelow i)⟩

end Derivation

/-- Below each pick that cannot be improved there is a tree of such picks. -/
theorem Winners.Sound.exists_follows (hw : w.Sound m s) (hsettled : Settled m s w) {x : Winner ℝ}
    (hx : w[d]? = some x) : ∃ t : Derivation m d, t.Follows w s ∧ t.Simple := by
  obtain ⟨rank, hrank⟩ := hw.ranked
  suffices h : ∃ t : Derivation m d, t.Follows w s ∧ t.Simple ∧ ∀ d', t.Has d' → rank d' ≤ rank d by
    rcases h with ⟨t, hfollows, hsimple, -⟩
    exact ⟨t, hfollows, hsimple⟩
  obtain ⟨r, hr⟩ : ∃ r, rank d = r := ⟨_, rfl⟩
  induction r using Nat.strongRecOn generalizing d x with
  | ind r ih =>
    rcases d with ⟨g, c⟩
    obtain ⟨n, inputs, sum, hmember, rfl, hsum, hcases⟩ := hrank _ x hx
    -- a stale pick could be improved
    obtain ⟨hcost, hlower⟩ : x.cost = sum + m.ownCost s g n inputs ∧
        ∀ h ∈ inputs, rank (h, n.inputConvention) < rank (g, n.convention) := by
      apply hcases.resolve_right
      intro hstale
      obtain ⟨x', hx', hle⟩ := improves_eq_false.mp (hsettled hmember hsum)
      obtain rfl : x = x' := Option.some.inj (hx.symm.trans hx')
      exact absurd hstale (not_lt.mpr hle)
    obtain ⟨f, hf, rfl⟩ := inputsCost_eq_some.mp hsum
    have hless : ∀ i, rank (inputs.get i, n.inputConvention) < rank (g, n.convention) :=
      fun i => hlower _ (List.get_mem inputs i)
    choose below hfollows hsimple hhas using fun i => ih _ (hr ▸ hless i) (hf i) rfl
    have hcosts : ∀ i, (f i).cost = (below i).cost s := by
      intro i
      obtain ⟨x', hx', hcost'⟩ := (hfollows i).exists_pick
      obtain rfl := Option.some.inj ((hf i).symm.trans hx')
      exact hcost'
    refine ⟨.node hmember below, ⟨⟨x, hx, rfl, ?_⟩, hfollows⟩,
      fun i => ⟨fun hback => ?_, hsimple i⟩, ?_⟩
    · rw [Derivation.cost_node, hcost]
      simp only [hcosts]
    · exact Nat.lt_irrefl _ ((hhas i _ hback).trans_lt (hless i))
    · rintro d' (rfl | ⟨i, hi⟩)
      · exact Nat.le_refl _
      · exact (hhas i d' hi).trans (hless i).le

/-! ### Extraction -/

namespace Extraction

/-- An extraction in which each demand that is met has a copy of a tree of picks. -/
structure Tracks (m : Memo ℝ) (s : CostSettings) (w : Winners ℝ) (e : Extraction) : Prop where
  size_eq : e.arena.size = e.met.size
  met : ∀ (d : Demand) id, e.met[d]? = some id →
    ∃ t : Derivation m d, t.Follows w s ∧ t.Shows e.arena id

/-- There is room for a node as long as a demand is not met. -/
theorem Tracks.size_lt {e : Extraction} (hm : m.WellFormed) (he : e.Tracks m s w)
    (hnone : e.met[d]? = none) (hd : m.Delivers d) : e.arena.size < Arena.capacity := by
  have hnodup : (d :: e.met.keys).Nodup := by
    refine List.nodup_cons.mpr ⟨fun hmem => ?_, Std.TreeMap.nodup_keys⟩
    have hd : d ∈ e.met := Std.TreeMap.mem_keys.mp hmem
    rw [Std.TreeMap.getElem?_eq_some_getElem hd] at hnone
    cases hnone
  have hdelivers : ∀ d' ∈ d :: e.met.keys, m.Delivers d' := by
    refine List.forall_mem_cons.mpr ⟨hd, ?_⟩
    intro d' hd'
    have hmem : d' ∈ e.met := Std.TreeMap.mem_keys.mp hd'
    obtain ⟨t, -⟩ := he.met d' _ (Std.TreeMap.getElem?_eq_some_getElem hmem)
    exact t.delivers hm
  have hle := Memo.length_le_size_of_delivers hnodup hdelivers
  rw [List.length_cons, Std.TreeMap.length_keys, ← he.size_eq] at hle
  exact hle.trans hm.size_le

/-- A demand that was not met is met by a copy of a tree. -/
theorem Tracks.extended {e : Extraction} (he : e.Tracks m s w) (hnone : e.met[d]? = none) {n : Node}
    {t : Derivation m d} (hfollows : t.Follows w s)
    (hshows : t.Shows (e.extended d n).arena ⟨e.arena.size⟩) :
    Tracks m s w (e.extended d n) := by
  constructor
  · have hmem : d ∉ e.met := by
      intro hmem
      rw [Std.TreeMap.getElem?_eq_some_getElem hmem] at hnone
      cases hnone
    simp [Extraction.extended, Arena.size, Std.TreeMap.size_insert, hmem, ← he.size_eq]
  · intro d' id hid
    rcases getElem?_insert_eq_some hid with ⟨rfl, rfl⟩ | ⟨-, hid⟩
    · exact ⟨t, hfollows, hshows⟩
    · obtain ⟨t', hfollows', hshows'⟩ := he.met d' id hid
      exact ⟨t', hfollows', hshows'.grew grew_extended⟩

/-- Nodes are only added, and only some demands are newly met. -/
def GrewFor (P : Demand → Prop) (e e' : Extraction) : Prop :=
  e.Grew e' ∧ ∀ d, ¬ P d → e.met[d]? = none → e'.met[d]? = none

theorem GrewFor.refl {P : Demand → Prop} (e : Extraction) : GrewFor P e e :=
  ⟨fun _ _ h => h, fun _ _ h => h⟩

theorem GrewFor.trans {P : Demand → Prop} {e₁ e₂ e₃ : Extraction} (h : GrewFor P e₁ e₂)
    (h' : GrewFor P e₂ e₃) : GrewFor P e₁ e₃ :=
  ⟨fun id n hn => h'.1 id n (h.1 id n hn), fun d hd hnone => h'.2 d hd (h.2 d hd hnone)⟩

theorem GrewFor.mono {P P' : Demand → Prop} {e e' : Extraction} (h : GrewFor P e e')
    (hP : ∀ d, P d → P' d) : GrewFor P' e e' :=
  ⟨h.1, fun d hd => h.2 d fun hd' => hd (hP d hd')⟩

theorem GrewFor.extended {P : Demand → Prop} (e : Extraction) {d : Demand} (hd : P d) (n : Node) :
    GrewFor P e (e.extended d n) := by
  refine ⟨grew_extended, ?_⟩
  intro d' hd' hnone
  have hne : d ≠ d' := fun heq => hd' (heq ▸ hd)
  rw [Extraction.extended, getElem?_insert_of_ne hne]
  exact hnone

/-- Extraction along a tree of picks ends with a copy of such a tree, and what it
    meets on the way is in the tree. -/
theorem extract_follows (hm : m.WellFormed) {depth : Nat} {t : Derivation m d}
    (ht : t.Follows w s) (hsimple : t.Simple) (hdepth : t.Within depth) {e : Extraction}
    (he : e.Tracks m s w) :
    Runs (fun _ => False) (extract m w depth d) e fun id e' => e'.Tracks m s w ∧
      GrewFor (t.Has ·) e e' ∧ ∃ t' : Derivation m d, t'.Follows w s ∧ t'.Shows e'.arena id := by
  induction depth generalizing d e with
  | zero =>
    cases t with
    | node h below => exact hdepth.elim
  | succ depth ih =>
    refine Runs.after (t := e) rfl ?_
    cases hmet : e.met[d]? with
    | some id => exact Runs.pure ⟨he, .refl e, he.met d id hmet⟩
    | none =>
      have hdelivers := t.delivers hm
      cases t with
      | @node g id n inputs hmember below =>
        have hpick := ht
        rcases hpick with ⟨⟨x, hx, rfl, -⟩, hfollows⟩
        have hgroups : m.inputGroups x.node = .ok inputs :=
          except_bind_eq_ok.mpr ⟨n, hmember.node, hmember.inputs⟩
        refine Runs.lift_after (require_eq_ok.mpr hx) ?_
        refine Runs.lift_after hmember.node (Runs.lift_after hgroups ?_)
        have hinputs := Runs.mapM (E := fun _ => False) (l := inputs)
          (f := fun g => extract m w depth (g, n.inputConvention)) (J := Tracks m s w)
          (R := GrewFor fun d' => ∃ i, (below i).Has d')
          (D := fun g id e => ∃ t' : Derivation m (g, n.inputConvention),
            t'.Follows w s ∧ t'.Shows e.arena id)
          .refl (fun _ _ _ => .trans)
          (fun _ _ _ _ _ ⟨t', hfollows', hshows⟩ hgrew => ⟨t', hfollows', hshows.grew hgrew.1⟩)
          ?_ he
        · apply hinputs.bind
          intro copies e₁ h₁
          rcases h₁ with ⟨he₁, hgrew, hall⟩
          have hnone : e₁.met[((g, n.convention) : Demand)]? = none :=
            hgrew.2 _ (fun ⟨i, hi⟩ => (hsimple i).1 hi) hmet
          have hlength : copies.length = n.inputs.length := by
            rw [← hall.length_eq, (mapM_eq_ok.mp hmember.inputs).length_eq]
          obtain ⟨copy, rfl, hcopy⟩ := exists_ofFn_of_forall₂ hall
          choose tree htree hshows using hcopy
          refine Runs.after (t := e₁) rfl ?_
          refine Runs.lift_bind (Arena.add_ends (.inl ⟨fun i hi => ?_, .inl ?_⟩)) fun r hr => ?_
          · rw [Node.inputs_withInputs hlength] at hi
            obtain ⟨j, rfl⟩ := List.mem_ofFn.mp hi
            exact (hshows j).lt_size
          · exact he₁.size_lt hm hnone hdelivers
          rcases hr with ⟨rfl, -, -⟩
          apply Runs.bind (Runs.modify (P := fun _ t => t = _) rfl)
          intro _ e₂ he₂
          subst he₂
          have hfollows' := ht.replace htree
          have hshows' : (Derivation.node hmember tree).Shows
              (e₁.extended (g, n.convention) (n.withInputs (List.ofFn copy))).arena
              ⟨e₁.arena.size⟩ :=
            ⟨copy, Arena.get_push_self, fun i => (hshows i).grew grew_extended⟩
          exact Runs.pure ⟨he₁.extended hnone hfollows' hshows',
            (hgrew.mono fun d' hd' => .inr hd').trans (.extended e₁ (.inl rfl) _), _, hfollows',
            hshows'⟩
        · intro h hh e he
          obtain ⟨i, rfl⟩ := List.get_of_mem hh
          apply (ih (hfollows i) (hsimple i).2 (hdepth i) he).imp
          intro id e' h
          rcases h with ⟨he', hgrew, ht'⟩
          exact ⟨he', hgrew.mono fun d' hd' => ⟨i, hd'⟩, ht'⟩

end Extraction

/-! ### The best plans -/

namespace Winners

/-- From each pick a plan is extracted: a copy of a tree of picks, at the cost of
    the pick. -/
theorem Sound.exists_plan (hm : m.WellFormed) (hw : w.Sound m s) (hsettled : Settled m s w)
    {x : Winner ℝ} (hx : w[d]? = some x) : ∃ p, w.plan m d = .ok p ∧
      ∃ t : Derivation m d, t.Shows p.arena p.root ∧ x.cost = t.cost s := by
  obtain ⟨t, hfollows, hsimple⟩ := hw.exists_follows hsettled hx
  have hwithin : t.Within (m.size + 1) :=
    hsimple.within hm List.nodup_nil (by simp) (by simp)
  have hempty : Extraction.Tracks m s w {} := ⟨by simp [Arena.size], fun d id hid => by simp at hid⟩
  obtain ⟨⟨root, e⟩, hrun, -, -, t', hfollows', hshows⟩ :=
    Ends.exists_result (Extraction.extract_follows hm hfollows hsimple hwithin hempty)
  refine ⟨⟨e.arena, root⟩, except_bind_eq_ok.mpr ⟨_, hrun, rfl⟩, t', hshows, ?_⟩
  obtain ⟨x', hx', hcost⟩ := hfollows'.exists_pick
  obtain rfl : x = x' := Option.some.inj (hx.symm.trans hx')
  exact hcost

/-- Selection picks the best for each demand that can be met at all, and from each
    pick a plan can be extracted whose nodes have together the cost of the pick. -/
theorem select_optimal (hm : m.Reachable) (hs : s.NonNegative) (hrows : ∀ g, 0 ≤ m.rows g) :
    ∃ w, select m s = .ok w ∧
      (∀ d, Nonempty (Derivation m d) → ∃ x, w[d]? = some x ∧
        IsLeast (Set.range fun t : Derivation m d => (t.cost s).value s) (x.cost.value s)) ∧
      ∀ (d : Demand) x, w[d]? = some x → ∃ p, w.plan m d = .ok p ∧
        ∃ t : Derivation m d, t.Shows p.arena p.root ∧ x.cost = (t.selfCosts s).sum := by
  obtain ⟨w, hw, hsound, hsettled⟩ := select_best hs hrows hm.wellFormed
  refine ⟨w, hw, fun d ⟨t⟩ => ?_, fun d x hx => hsound.exists_plan hm.wellFormed hsettled hx⟩
  obtain ⟨x, hx, -⟩ := hsettled.atMost t
  refine ⟨x, hx, ?_, ?_⟩
  · obtain ⟨best, hbest⟩ := hsound.derived d x hx
    exact ⟨best, by simp only [hbest]⟩
  · rintro _ ⟨t', rfl⟩
    obtain ⟨x', hx', hle⟩ := hsettled.atMost t'
    obtain rfl : x = x' := Option.some.inj (hx.symm.trans hx')
    exact hle

end Winners

/-! ### A group that contains itself -/

/-- A filter that keeps all rows. -/
def Node.keepAll (i : NodeId) : Node :=
  ⟨.filter i (.literal (.bool true) .bool), {}, ⟨[]⟩, none⟩

namespace Memo

/-- A filter is entered over literal rows, and found to give the same rows. -/
noncomputable def filtered : Memo ℝ :=
  ((noRows 100).openGroup (estimateRows (Node.keepAll ⟨0⟩) [(noRows 100).rows ⟨0⟩] 100)).2.entered
    (Node.keepAll ⟨0⟩) (digestText (Node.keepAll ⟨0⟩) [⟨0⟩]) ⟨1⟩

noncomputable def looped : Memo ℝ := filtered.merge ⟨0⟩ ⟨1⟩

theorem insert_keepAll :
    (noRows (100 : ℝ)).insert (Node.keepAll ⟨0⟩) none = .ok (⟨1⟩, filtered) := by
  have hnone : (noRows (100 : ℝ)).digests[digestText (Node.keepAll ⟨0⟩) [⟨0⟩]]? = none := by
    have hne : digestText (Node.noRows .logical) [] ≠ digestText (Node.keepAll ⟨0⟩) [⟨0⟩] := by
      decide
    simp [noRows, entered, openGroup, hne]
  refine except_bind_eq_ok.mpr ⟨digestText (Node.keepAll ⟨0⟩) [⟨0⟩], rfl, ?_⟩
  rw [hnone]
  rfl

theorem looped_reachable : looped.Reachable := by
  have hrows : (noRows (100 : ℝ)).Reachable := .insert (.empty 100) (by simp) (insert_empty 100)
  have hfiltered : filtered.Reachable := .insert hrows (by simp) insert_keepAll
  exact .merge hfiltered Nat.zero_lt_two Nat.one_lt_two

theorem looped_estimated : looped.Estimated := by
  have hdefault : looped.defaultRows = 100 := rfl
  apply looped_reachable.estimated (by norm_num [hdefault])
  intro id n hn
  rw [looped, node_merge] at hn
  rcases Arena.get_push.mp hn with hn | ⟨-, rfl⟩
  · rcases Arena.get_push.mp hn with hn | ⟨-, rfl⟩
    · exact absurd (Arena.lt_size_of_get hn) (Nat.not_lt_zero _)
    · intro _ _ h
      exact nomatch h
  · intro _ _ h
    exact nomatch h

theorem member_looped : looped.Member ⟨0⟩ ⟨0⟩ (Node.noRows .logical) [] where
  live := rfl
  mem := List.mem_cons_self
  node := rfl
  inputs := rfl

end Memo

theorem CostSettings.default_nonNegative : NonNegative {} where
  cpu := by
    have hone : Number.parts 1.0 = .finite false (2 ^ 52) (-52) := by decide +kernel
    exact Quantity.ofFloat_nonneg hone
  io := by
    have hfour : Number.parts 4.0 = .finite false (2 ^ 52) (-50) := by decide +kernel
    exact Quantity.ofFloat_nonneg hfour
  multiplier := by
    have hlisted : ∀ p ∈ ({} : CostSettings).multipliers, p.2 = 0.8 := by
      simp
    have hparts : Number.parts 0.8 = .finite false 7205759403792794 (-53) := by decide +kernel
    intro p hp
    rw [hlisted p hp]
    exact Quantity.ofFloat_nonneg hparts

/-- The best picks where a group contains itself and no node costs anything. -/
theorem Winners.select_optimal_looped :
    ∃ w x p, select Memo.looped {} = .ok w ∧ w[((⟨0⟩, .logical) : Demand)]? = some x ∧
      IsLeast (Set.range fun t : Derivation Memo.looped (⟨0⟩, .logical) => (t.cost {}).value {})
        (x.cost.value {}) ∧ w.plan Memo.looped (⟨0⟩, .logical) = .ok p := by
  obtain ⟨w, hw, hbest, hplan⟩ := select_optimal Memo.looped_reachable
    CostSettings.default_nonNegative Memo.looped_estimated.rows_nonneg
  obtain ⟨x, hx, hleast⟩ := hbest (⟨0⟩, .logical) ⟨.node Memo.member_looped fun i => i.elim0⟩
  obtain ⟨p, hp, -⟩ := hplan (⟨0⟩, .logical) x hx
  exact ⟨w, x, p, hw, hx, hleast, hp⟩

end Polystore
