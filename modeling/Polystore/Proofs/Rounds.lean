import Mathlib.Data.Finset.Card
import Polystore.Optimizer.Explore
import Polystore.Proofs.Offers

/-
  Polystore/Proofs/Rounds.lean
  ============================
  **What exploration preserves and reaches.**  An invariant of the memo that no
  insertion of an offered node breaks holds after every round.  When a round
  changes nothing the memo is saturated: on every match that there is now the rule
  has run, and what its run brought about is still there.  And exploration ends
  otherwise only when there have been so many changes, or so many different matches,
  as the budgets allow (`explore_ends`).
-/

namespace Polystore

/-- What is to be carried through an exploration with some rules: an invariant of
    the memo, which errors may occur, and what a rule that has run on a match has
    brought about. -/
structure Exploration.Plot (known : Catalog → Prop) (rules : List Rule) where
  Invariant : Memo Float → Prop
  Error : Error → Prop
  Done : Rule → List NodeId → Memo Float → Prop
  wellFormed : ∀ {m}, Invariant m → m.WellFormed
  steps : ∀ {m m'}, Invariant m → m.Steps known m' → Invariant m'
  /-- What has been brought about lasts. -/
  lasts : ∀ {rule found m m'}, Invariant m → Done rule found m → m.Extends m' → Done rule found m'
  /-- A run on a match that was found in this memo or before it grew. -/
  runs : ∀ {rule m₀ m id n founds}, rule ∈ rules → Invariant m₀ → Invariant m → m₀.Extends m →
    m₀.node id = .ok n → rule.pattern.matchesAt m₀ id = .ok founds → ∀ found ∈ founds,
      Runs Error rule.action ⟨m, found, []⟩ fun _ f => f.Proper known m ∧ Done rule found f.memo
  /-- Matching does not fail. -/
  matches_ends : ∀ {rule m id n}, rule ∈ rules → Invariant m → m.node id = .ok n →
    Ends Error (rule.pattern.matchesAt m id) fun _ => True

namespace Exploration

variable {known : Catalog → Prop} {rules : List Rule} {plot : Plot known rules}
  {s : OptimizerSettings}

/-- The invariant of an exploration that started with a memo: what has been fired
    has been brought about, and each run was on a match of its own. -/
structure Plot.Holds (plot : Plot known rules) (m : Memo Float) (e : Exploration) : Prop where
  invariant : plot.Invariant e.memo
  grown : m.Extends e.memo
  fired : ∀ position found, e.fired.contains (position, found) = true →
    ∃ rule, rules[position]? = some rule ∧ plot.Done rule found e.memo
  counted : e.firings = e.fired.size

/-- There were no more runs than there are matches of rules. -/
theorem Plot.Holds.firings_le {m : Memo Float} {e : Exploration} (he : plot.Holds m e)
    {runs : Finset Occasion} (hruns : ∀ position rule found,
      rules[position]? = some rule → plot.Done rule found e.memo → (position, found) ∈ runs) :
    e.firings ≤ runs.card := by
  have hnodup : e.fired.toList.Nodup :=
    Std.TreeSet.distinct_toList.imp Std.ReflCmp.ne_of_cmp_ne_eq
  have hsubset : e.fired.toList ⊆ runs.toList := by
    rintro ⟨position, found⟩ hfired
    obtain ⟨rule, hrule, hdone⟩ := he.fired position found
      (Std.TreeSet.contains_iff_mem.mpr (Std.TreeSet.mem_toList.mp hfired))
    exact Finset.mem_toList.mpr (hruns position rule found hrule hdone)
  have hle := (List.subperm_of_subset hnodup hsubset).length_le
  rwa [Std.TreeSet.length_toList, Finset.length_toList, ← he.counted] at hle

/-- The memo has only grown. -/
def Grew (e e' : Exploration) : Prop := e.memo.Extends e'.memo

theorem fire_runs {m₀ : Memo Float} {rule : Rule} {e : Exploration} {id : NodeId} {n : Node}
    {founds found : List _} (hrule : rule ∈ rules) (hm₀ : plot.Invariant m₀)
    (he : plot.Invariant e.memo) (hext : m₀.Extends e.memo) (hid : m₀.node id = .ok n)
    (hmatches : rule.pattern.matchesAt m₀ id = .ok founds) (hfound : found ∈ founds) :
    Runs plot.Error (fire s rule id found) e fun _ e' => plot.Invariant e'.memo ∧ e.Grew e' ∧
      plot.Done rule found e'.memo ∧ e'.fired = e.fired ∧ e'.firings = e.firings := by
  have hrun := plot.runs hrule hm₀ he hext hid hmatches found hfound
  refine Runs.after (t := e) rfl (Runs.lift_bind hrun fun p hp => ?_)
  rcases hp with ⟨hproper, hdone⟩
  rcases p with ⟨u, f⟩
  have hinv := plot.steps he hproper.steps
  have hgrown := (hproper.steps.wellFormed_and_extends (plot.wellFormed he)).2
  refine Runs.after (t := { e with memo := f.memo }) rfl ?_
  split
  · -- the entry of the trace names nodes that are there
    have hentry : ∃ entry, Exploration.entry rule e.memo id f = .ok entry := by
      have hproduced : ∀ q ∈ f.produced, ∃ k, f.memo.node q = .ok k :=
        fun q hq => Memo.exists_node (hproper.produced q hq)
      obtain ⟨nodes, hnodes⟩ := exists_mapM_eq_ok hproduced
      exact ⟨_, except_bind_eq_ok.mpr ⟨n, hext.node _ _ hid,
        except_bind_eq_ok.mpr ⟨nodes, hnodes, rfl⟩⟩⟩
    rcases hentry with ⟨entry, hentry⟩
    exact Runs.lift_after hentry (Runs.modify ⟨hinv, hgrown, hdone, rfl, rfl⟩)
  · exact Runs.pure ⟨hinv, hgrown, hdone, rfl, rfl⟩

/-- All runs have been used. -/
def Spent (s : OptimizerSettings) (e : Exploration) : Prop := s.maxRuleFirings ≤ e.firings

theorem visitMatch_runs {m m₀ : Memo Float} {position : Nat} {rule : Rule} {e : Exploration}
    {id : NodeId} {n : Node} {founds found : List _} (hrule : rules[position]? = some rule)
    (hm₀ : plot.Invariant m₀) (he : plot.Holds m e) (hext : m₀.Extends e.memo)
    (hid : m₀.node id = .ok n) (hmatches : rule.pattern.matchesAt m₀ id = .ok founds)
    (hfound : found ∈ founds) :
    Runs plot.Error (visitMatch s position rule id found) e fun b e' =>
      plot.Holds m e' ∧ e.Grew e' ∧ (b = true → plot.Done rule found e'.memo) ∧
        (b = false → e'.Spent s) := by
  have hsame {rule' : Rule} (h : rules[position]? = some rule') : rule' = rule :=
    Option.some.inj (h.symm.trans hrule)
  refine Runs.after (t := e) rfl ?_
  split
  · rename_i hspent
    exact Runs.pure ⟨he, .refl _, by simp, fun _ => hspent⟩
  · by_cases hfired : e.fired.contains (position, found) = true
    · simp only [hfired, Bool.not_true, Bool.false_eq_true, if_false]
      obtain ⟨rule', hrule', hdone⟩ := he.fired position found hfired
      exact Runs.pure ⟨he, .refl _, fun _ => hsame hrule' ▸ hdone, by simp⟩
    · simp only [hfired, Bool.not_false, if_true]
      let e₁ : Exploration :=
        { e with fired := e.fired.insert (position, found), firings := e.firings + 1 }
      refine Runs.after (t := e₁) rfl ?_
      have hfire := fire_runs (s := s) (e := e₁) (List.mem_of_getElem? hrule) hm₀ he.invariant hext
        hid hmatches hfound
      refine hfire.bind fun _ e' he' => Runs.pure ?_
      rcases he' with ⟨hinv, hgrew, hdone, hset, hcount⟩
      refine ⟨⟨hinv, he.grown.trans hgrew, fun position' found' hcontains => ?_, ?_⟩,
        hgrew, fun _ => hdone, by simp⟩
      · rw [hset, Std.TreeSet.contains_insert, Bool.or_eq_true] at hcontains
        rcases hcontains with heq | hcontains
        · obtain ⟨rfl, rfl⟩ := Prod.mk.inj (Std.LawfulEqCmp.eq_of_compare (eq_of_beq heq))
          exact ⟨rule, hrule, hdone⟩
        · obtain ⟨rule', hrule', hdone'⟩ := he.fired _ _ hcontains
          exact ⟨rule', hrule', plot.lasts he.invariant hdone' hgrew⟩
      · rw [hset, hcount, Std.TreeSet.size_insert, if_neg hfired]
        exact congrArg (· + 1) he.counted

/-- Since a memo, all matches that a rule had at a node at some time have been taken
    up. -/
def Plot.Visited (plot : Plot known rules) (m : Memo Float) (id : NodeId) (rule : Rule)
    (e : Exploration) : Prop :=
  ∃ m₁ founds, m.Extends m₁ ∧ m₁.Extends e.memo ∧ rule.pattern.matchesAt m₁ id = .ok founds ∧
    ∀ found ∈ founds, plot.Done rule found e.memo

theorem Plot.Visited.grew {m m' : Memo Float} {id : NodeId} {rule : Rule} {e e' : Exploration}
    (h : plot.Visited m id rule e) (he : plot.Holds m' e) (hgrew : e.Grew e') :
    plot.Visited m id rule e' := by
  rcases h with ⟨m₁, founds, hext, hext', hmatches, hdone⟩
  refine ⟨m₁, founds, hext, hext'.trans hgrew, hmatches, ?_⟩
  intro found hfound
  exact plot.lasts he.invariant (hdone found hfound) hgrew

/-- Taking up all matches of a rule at a node. -/
theorem visitRule_runs {m : Memo Float} {position : Nat} {rule : Rule} {e : Exploration}
    {id : NodeId} (hrule : rules[position]? = some rule) (he : plot.Holds m e)
    (hid : id.n < m.size) :
    Runs plot.Error (visitRule s id position rule) e fun b e' =>
      plot.Holds m e' ∧ e.Grew e' ∧ (b = true → plot.Visited m id rule e') ∧
        (b = false → e'.Spent s) := by
  obtain ⟨n, hn⟩ := Memo.exists_node (Nat.lt_of_lt_of_le hid he.grown.size_le)
  have hends := plot.matches_ends (List.mem_of_getElem? hrule) he.invariant hn
  refine Runs.after (t := e) rfl ?_
  refine Runs.lift_bind (Q := fun founds => rule.pattern.matchesAt e.memo id = .ok founds) ?_
    fun founds hmatches => ?_
  · cases hmatches : rule.pattern.matchesAt e.memo id with
    | error err => exact hends.error hmatches
    | ok founds => rfl
  have hall : Runs plot.Error (founds.allM (visitMatch s position rule id)) e fun b e' =>
      (plot.Holds m e' ∧ e.Grew e') ∧ e.Grew e' ∧
        (b = true → ∀ found ∈ founds, plot.Done rule found e'.memo) ∧
          (b = false → e'.Spent s) := by
    refine Runs.allM (fun _ => .refl _) (fun _ _ _ h h' => h.trans h') ?_ ?_ ⟨he, .refl _⟩
    · intro found e₁ e₂ he₁ hdone hgrew
      exact plot.lasts he₁.1.invariant hdone hgrew
    · intro found hfound e₁ ⟨he₁, hgrew⟩
      apply (visitMatch_runs hrule he.invariant he₁ hgrew hn hmatches hfound).imp
      intro b e₂ h
      rcases h with ⟨hholds, hgrew', hdone⟩
      exact ⟨⟨hholds, hgrew.trans hgrew'⟩, hgrew', hdone⟩
  apply hall.imp
  intro b e' h
  rcases h with ⟨⟨hholds, hgrew⟩, -, hdone, hspent⟩
  exact ⟨hholds, hgrew, fun hb => ⟨e.memo, founds, he.grown, hgrew, hmatches, hdone hb⟩, hspent⟩

theorem visitNode_runs {m : Memo Float} {e : Exploration} {id : NodeId} (he : plot.Holds m e)
    (hid : id.n < m.size) :
    Runs plot.Error (visitNode s rules.zipIdx id) e fun b e' =>
      plot.Holds m e' ∧ e.Grew e' ∧ (b = true → ∀ rule ∈ rules, plot.Visited m id rule e') ∧
        (b = false → e'.Spent s) := by
  have hall : Runs plot.Error (visitNode s rules.zipIdx id) e fun b e' =>
      plot.Holds m e' ∧ e.Grew e' ∧
        (b = true → ∀ p ∈ rules.zipIdx, plot.Visited m id p.1 e') ∧ (b = false → e'.Spent s) := by
    refine Runs.allM (fun _ => .refl _) (fun _ _ _ h h' => h.trans h') ?_ ?_ he
    · intro p e₁ e₂ he₁ hvisited hgrew
      exact hvisited.grew he₁ hgrew
    · intro p hp e₁ he₁
      exact visitRule_runs (List.mem_zipIdx_iff_getElem?.mp hp) he₁ hid
  refine hall.imp fun b e' h => ⟨h.1, h.2.1, ?_, h.2.2.2⟩
  intro hb rule hrule
  obtain ⟨position, hposition⟩ := List.mem_iff_getElem?.mp hrule
  exact h.2.2.1 hb (rule, position) (List.mem_zipIdx_iff_getElem?.mpr hposition)

theorem round_runs {e : Exploration} (he : plot.Holds e.memo e) :
    Runs plot.Error (round s rules.zipIdx) e fun b e' =>
      plot.Holds e.memo e' ∧ e.Grew e' ∧
        (b = true → ∀ id ∈ e.memo.ids, ∀ rule ∈ rules, plot.Visited e.memo id rule e') ∧
        (b = false → e'.Spent s) := by
  let e₁ : Exploration := { e with rounds := e.rounds + 1 }
  have he₁ : plot.Holds e.memo e₁ := ⟨he.invariant, he.grown, he.fired, he.counted⟩
  refine Runs.after (t := e₁) rfl (Runs.after (t := e₁) rfl ?_)
  have hall : Runs plot.Error (e.memo.ids.allM (visitNode s rules.zipIdx)) e₁ fun b e' =>
      plot.Holds e.memo e' ∧ e₁.Grew e' ∧
        (b = true → ∀ id ∈ e.memo.ids, ∀ rule ∈ rules, plot.Visited e.memo id rule e') ∧
        (b = false → e'.Spent s) := by
    refine Runs.allM (R := Grew) (D := fun id e' => ∀ rule ∈ rules, plot.Visited e.memo id rule e')
      (fun _ => .refl _) (fun _ _ _ h h' => h.trans h') ?_ ?_ he₁
    · intro id e₂ e₃ he₂ hvisited hgrew rule hrule
      exact (hvisited rule hrule).grew he₂ hgrew
    · intro id hid e₂ he₂
      refine visitNode_runs he₂ ?_
      obtain ⟨i, hi, rfl⟩ := List.mem_map.mp hid
      exact List.mem_range.mp hi
  exact hall

/-- On every match that there is, the rule has run. -/
def Plot.Saturated (plot : Plot known rules) (m : Memo Float) : Prop :=
  ∀ id, id.n < m.size → ∀ rule ∈ rules, ∃ founds, rule.pattern.matchesAt m id = .ok founds ∧
    ∀ found ∈ founds, plot.Done rule found m

/-- A round that changes nothing leaves nothing to do. -/
theorem saturated_of_round {e e' : Exploration}
    (hvisited : ∀ id ∈ e.memo.ids, ∀ rule ∈ rules, plot.Visited e.memo id rule e')
    (hgrew : e.Grew e') (hversion : e'.memo.version = e.memo.version) :
    plot.Saturated e'.memo := by
  have heq : e'.memo = e.memo := hgrew.eq_of_version hversion
  intro id hid rule hrule
  rw [heq] at hid
  have hmem : id ∈ e.memo.ids := List.mem_map.mpr ⟨id.n, List.mem_range.mpr hid, rfl⟩
  obtain ⟨m₁, founds, hext, hext', hmatches, hdone⟩ := hvisited id hmem rule hrule
  have hm₁ : m₁ = e.memo := by
    have hle := hext'.version_le
    have hle' := hext.version_le
    exact hext.eq_of_version (by omega)
  rw [hm₁, ← heq] at hmatches
  exact ⟨founds, hmatches, hdone⟩

theorem run_runs {rounds : Nat} {e : Exploration} {m : Memo Float} (he : plot.Holds m e) :
    Runs plot.Error (run s rules.zipIdx rounds) e fun ending e' => plot.Holds m e' ∧
      (ending = .settled → plot.Saturated e'.memo) ∧
      (ending = .outOfRounds → e.memo.version + rounds ≤ e'.memo.version) ∧
      (ending = .outOfFirings → e'.Spent s) := by
  induction rounds generalizing e with
  | zero => exact Runs.pure ⟨he, by simp, fun _ => Nat.le_refl _, by simp⟩
  | succ rounds ih =>
    refine Runs.after (t := e) rfl ?_
    apply (round_runs ⟨he.invariant, .refl _, he.fired, he.counted⟩).bind
    intro b e₁ h
    rcases h with ⟨he₁, hgrew, hvisited, hspent⟩
    have hholds : plot.Holds m e₁ :=
      ⟨he₁.invariant, he.grown.trans hgrew, he₁.fired, he₁.counted⟩
    cases b with
    | false => exact Runs.pure ⟨hholds, by simp, by simp, fun _ => hspent rfl⟩
    | true =>
      refine Runs.after (t := e₁) rfl ?_
      by_cases hversion : e₁.memo.version = e.memo.version
      · simp only [hversion, if_true]
        exact Runs.pure ⟨hholds, fun _ => saturated_of_round (hvisited rfl) hgrew hversion,
          by simp, by simp⟩
      · -- each further round has changed something
        simp only [hversion, if_false]
        have hlt : e.memo.version + 1 ≤ e₁.memo.version :=
          Nat.lt_of_le_of_ne hgrew.version_le (Ne.symm hversion)
        refine (ih hholds).imp fun ending e' h => ⟨h.1, h.2.1, fun hrounds => ?_, h.2.2.2⟩
        have hle := h.2.2.1 hrounds
        omega

/-- What the end of an exploration of a memo stands for. -/
structure Plot.Ended (plot : Plot known rules) (s : OptimizerSettings) (m : Memo Float)
    (ending : Ending) (e : Exploration) : Prop where
  holds : plot.Holds m e
  settled : ending = .settled → plot.Saturated e.memo
  outOfRounds : ending = .outOfRounds → m.version + s.maxIterations ≤ e.memo.version
  outOfFirings : ending = .outOfFirings → e.Spent s

end Exploration

/-- An exploration keeps the invariant.  If it ends because nothing changes the memo is
    saturated; otherwise one of the budgets has been used. -/
theorem Memo.explore_ends {known : Catalog → Prop} {r : Registry} {s : OptimizerSettings}
    {m : Memo Float} (plot : Exploration.Plot known (r.rules.map (·.2))) (hm : plot.Invariant m) :
    Ends plot.Error (m.explore r s) fun p => plot.Ended s m p.1 p.2 := by
  have he : plot.Holds m { memo := m } := ⟨hm, .refl m, by simp, rfl⟩
  exact Ends.imp (Exploration.run_runs he) fun p h => ⟨h.1, h.2.1, h.2.2.1, h.2.2.2⟩

end Polystore
