import Polystore.Proofs.Matches
import Polystore.Proofs.MemoPartition
import Polystore.Proofs.PickedPlans

/-
  Polystore/Proofs/PatternMatches.lean
  ====================================
  **Every match, once.**  A group of a memo lists no node twice.  Matches that
  begin with different members are different, and two matches of a pattern are
  equally long, so that putting one behind the other keeps different pairs apart.
  So matching finds nothing twice (`matchesAt_nodup`), and in every memo that
  comes about by inserting and merging its result is the list of all matches
  (`matchesAt_exact`).
-/

namespace Polystore

/-- Lists of results whose elements show what they are a result of have nothing in common. -/
theorem nodup_flatten_of_mapM {α β : Type} {f : α → Except Error (List β)} {l : List α}
    {lists : List (List β)} (h : l.mapM f = .ok lists) (hl : l.Nodup) (origin : β → Option α)
    (horigin : ∀ a ∈ l, ∀ bs, f a = .ok bs → ∀ b ∈ bs, origin b = some a)
    (hnodup : ∀ a ∈ l, ∀ bs, f a = .ok bs → bs.Nodup) : lists.flatten.Nodup := by
  induction l generalizing lists with
  | nil =>
    cases mapM_eq_ok.mp h
    exact List.nodup_nil
  | cons a l ih =>
    obtain ⟨ha, hl⟩ := List.nodup_cons.mp hl
    cases mapM_eq_ok.mp h with
    | @cons _ bs _ lists hbs hlists =>
      have hrest := mapM_eq_ok.mpr hlists
      rw [List.flatten_cons, List.nodup_append']
      refine ⟨hnodup a List.mem_cons_self bs hbs, ?_, fun b hb hothers => ?_⟩
      · exact ih hrest hl (fun a' ha' => horigin a' (List.mem_cons_of_mem a ha'))
          (fun a' ha' => hnodup a' (List.mem_cons_of_mem a ha'))
      · obtain ⟨a', ha', bs', hbs', hb'⟩ := (mem_flatten_of_mapM hrest).mp hothers
        have hsame : some a = some a' :=
          (horigin a List.mem_cons_self bs hbs b hb).symm.trans
            (horigin a' (List.mem_cons_of_mem a ha') bs' hbs' b hb')
        exact ha (Option.some.inj hsame ▸ ha')

/-- Lists of one length, each continued in different ways, are different. -/
theorem nodup_flatMap_append {β : Type} {firsts others : List (List β)} {k : Nat}
    (hfirsts : firsts.Nodup) (hothers : others.Nodup) (hlength : ∀ first ∈ firsts, first.length = k) :
    (firsts.flatMap fun first => others.map (first ++ ·)).Nodup := by
  refine List.nodup_flatMap.mpr ⟨fun first _ => hothers.map (List.append_right_injective first), ?_⟩
  refine hfirsts.imp_of_mem fun {first first'} hfirst hfirst' hne found hleft hright => hne ?_
  obtain ⟨rest, -, rfl⟩ := List.mem_map.mp hleft
  obtain ⟨rest', -, heq⟩ := List.mem_map.mp hright
  exact List.append_inj_left heq.symm ((hlength first hfirst).trans (hlength first' hfirst').symm)

namespace Pattern

variable {α : Type} {m : Memo α}

theorem matchesBelow_nodup (hm : m.WellFormed) (hmembers : ∀ g, (m.members g).Nodup)
    {ps : List Pattern}
    (h : ∀ p ∈ ps, ∀ id : NodeId, id.n < m.size → ∀ founds, p.matchesAt m id = .ok founds →
      founds.Nodup)
    {inputs : List NodeId} (hinputs : Supplies m ps inputs) {founds : List (List NodeId)}
    (hfounds : matchesAt.matchesBelow m ps inputs = .ok founds) : founds.Nodup := by
  induction ps generalizing inputs founds with
  | nil =>
    rw [matchesBelow_nil] at hfounds
    obtain rfl := Except.ok.inj hfounds
    exact List.nodup_singleton []
  | cons p ps ih =>
    obtain ⟨i, inputs, g, rfl, hg, hlt, hrest⟩ := hinputs.exists_cons hm
    rw [matchesBelow_cons hg] at hfounds
    obtain ⟨lists, hlists, hfounds⟩ := except_bind_eq_ok.mp hfounds
    obtain ⟨others, hothers, hfounds⟩ := except_bind_eq_ok.mp hfounds
    obtain rfl := Except.ok.inj hfounds
    have hfound : ∀ k ∈ m.members g, ∀ bs, p.matchesAt m k = .ok bs → ∀ first ∈ bs,
        first.head? = some k ∧ p.Assigns m first := fun k hk bs hbs first hfirst =>
      ((findsAll hm p (hlt k hk)).result hbs first).mp hfirst
    -- the node that a match begins with shows which member it was found at
    have hfirsts : lists.flatten.Nodup :=
      nodup_flatten_of_mapM hlists (hmembers g) List.head?
        (fun k hk bs hbs first hfirst => (hfound k hk bs hbs first hfirst).1)
        (fun k hk => h p List.mem_cons_self k (hlt k hk))
    refine nodup_flatMap_append (k := p.size) hfirsts ?_ fun first hfirst => ?_
    · exact ih (fun q hq => h q (List.mem_cons_of_mem p hq)) hrest hothers
    · obtain ⟨k, hk, bs, hbs, hfirst⟩ := (mem_flatten_of_mapM hlists).mp hfirst
      exact (hfound k hk bs hbs first hfirst).2.length

/-- Where no group lists a node twice, nothing is found twice. -/
theorem matchesAt_nodup (hm : m.WellFormed) (hmembers : ∀ g, (m.members g).Nodup) (p : Pattern)
    {id : NodeId} (hid : id.n < m.size) {founds : List (List NodeId)}
    (hfounds : p.matchesAt m id = .ok founds) : founds.Nodup := by
  induction p using childInduction generalizing id founds with
  | pattern p ih =>
    obtain ⟨n, hn⟩ := Memo.exists_node hid
    by_cases hsuits : p.Suits n
    · rw [matchesAt_of_suits hn hsuits] at hfounds
      obtain ⟨belows, hbelows, hfounds⟩ := except_bind_eq_ok.mp hfounds
      obtain rfl := Except.ok.inj hfounds
      have hnodup : belows.Nodup := matchesBelow_nodup hm hmembers
        (fun c hc id hid founds hfounds => ih c hc hid hfounds) (hsuits.supplies hm hn) hbelows
      exact hnodup.map List.cons_injective
    · rw [matchesAt_of_not_suits hn hsuits] at hfounds
      obtain rfl := Except.ok.inj hfounds
      exact List.nodup_nil

/-- At every node of a memo that comes about by inserting and merging, a pattern finds
    exactly the lists that begin with the node and assign a suitable node to each of its
    tests, none of them twice. -/
theorem matchesAt_exact [Quantity α] (h : m.Reachable) (p : Pattern) {id : NodeId}
    (hid : id ∈ m.ids) : ∃ founds, p.matchesAt m id = .ok founds ∧ founds.Nodup ∧
      ∀ found, found ∈ founds ↔ found.head? = some id ∧ p.Assigns m found := by
  have hm := h.wellFormed
  have hmembers : ∀ g, (m.members g).Nodup := fun g => h.tidy.nodup (m.find g)
  have hlt := Memo.mem_ids.mp hid
  obtain ⟨founds, hfounds, hexact⟩ := (findsAll hm p hlt).exists_result
  exact ⟨founds, hfounds, matchesAt_nodup hm hmembers p hlt hfounds, hexact⟩

/-- Two filters, one on the other. -/
def stacked : Pattern :=
  { kind := some .filter, children := [{ kind := some .filter, children := [{}] }] }

/-- The matches of two filters where one filter is a member of its own input's group. -/
theorem matchesAt_exact_looped :
    Memo.looped.Reachable ∧ (⟨1⟩ : NodeId) ∈ Memo.looped.ids ∧
      stacked.matchesAt Memo.looped ⟨1⟩ = .ok [[⟨1⟩, ⟨1⟩, ⟨0⟩], [⟨1⟩, ⟨1⟩, ⟨1⟩]] ∧
      ∀ found : List NodeId, found.head? = some ⟨1⟩ ∧ stacked.Assigns Memo.looped found ↔
        found = [⟨1⟩, ⟨1⟩, ⟨0⟩] ∨ found = [⟨1⟩, ⟨1⟩, ⟨1⟩] := by
  have hid : (⟨1⟩ : NodeId) ∈ Memo.looped.ids := Memo.mem_ids.mpr Nat.one_lt_two
  have hlisted : stacked.matchesAt Memo.looped ⟨1⟩ = .ok [[⟨1⟩, ⟨1⟩, ⟨0⟩], [⟨1⟩, ⟨1⟩, ⟨1⟩]] := rfl
  obtain ⟨founds, hfounds, -, hexact⟩ := matchesAt_exact Memo.looped_reachable stacked hid
  obtain rfl := Except.ok.inj (hlisted.symm.trans hfounds)
  refine ⟨Memo.looped_reachable, hid, hlisted, fun found => ?_⟩
  rw [← hexact, List.mem_cons, List.mem_singleton]

end Pattern

end Polystore
