import Mathlib.Data.List.Nodup
import Polystore.Proofs.PartitionedTables

/-
  Polystore/Proofs/Routing.lean
  =============================
  **Routing is total and loses no row.**  Routing a list of values enters one
  position after the other under the group of its value.  After each step the
  lists of positions divide the positions so far among the groups (`Divides`).
  Since a table that the router has partitioned has a group for every value, a
  list of values is routed to the end.
-/

namespace Polystore

namespace Router

/-! ### Tables of positions -/

/-- The position lists divide the positions of the values among the groups. -/
structure Divides (target : Value → Except Error PartitionId) (values : List Value)
    (routed : ByGroup (List Nat)) : Prop where
  groups : routed.Pairwise fun e e' => e.1.n < e'.1.n
  ascending : ∀ e ∈ routed, e.2.Pairwise (· < ·)
  disjoint : routed.Pairwise fun e e' => e.2.Disjoint e'.2
  covers : (routed.flatMap (·.2)).Perm (List.range values.length)
  listed : ∀ i v, values[i]? = some v → ∃ e ∈ routed, target v = .ok e.1 ∧ i ∈ e.2

/-- An entry is changed in its place, or a new one takes its place in the order. -/
theorem ByGroup.modify_cases {α : Type} {g : PartitionId} {d : α} {f : α → α} {l : ByGroup α}
    (h : l.Pairwise fun e e' => e.1.n < e'.1.n) :
    ∃ before a after, ByGroup.modify g d f l = before ++ (g, f a) :: after ∧
      (before ++ (g, f a) :: after).Pairwise (fun e e' => e.1.n < e'.1.n) ∧
      (l = before ++ (g, a) :: after ∨ l = before ++ after ∧ a = d) := by
  induction l with
  | nil => exact ⟨[], d, [], rfl, by simp, .inr ⟨rfl, rfl⟩⟩
  | cons first rest ih =>
    obtain ⟨hfirst, hrest⟩ := List.pairwise_cons.mp h
    obtain ⟨g', b⟩ := first
    unfold ByGroup.modify
    by_cases hsame : g = g'
    · subst hsame
      rw [if_pos rfl]
      exact ⟨[], b, rest, rfl, List.pairwise_cons.mpr ⟨hfirst, hrest⟩, .inl rfl⟩
    · rw [if_neg hsame]
      by_cases hlt : g.n < g'.n
      · rw [if_pos hlt]
        refine ⟨[], d, (g', b) :: rest, rfl, ?_, .inr ⟨rfl, rfl⟩⟩
        refine List.pairwise_cons.mpr ⟨?_, h⟩
        intro e he
        rcases List.mem_cons.mp he with rfl | he
        · exact hlt
        · exact Nat.lt_trans hlt (hfirst e he)
      · rw [if_neg hlt]
        have hgt : g'.n < g.n := by
          have hne : g.n ≠ g'.n := fun heq => hsame (congrArg PartitionId.mk heq)
          omega
        obtain ⟨before, a, after, hmodify, hsorted, hl⟩ := ih hrest
        refine ⟨(g', b) :: before, a, after, by rw [hmodify]; rfl, ?_, ?_⟩
        · refine List.pairwise_cons.mpr ⟨?_, hsorted⟩
          intro e he
          -- every other entry was there before, behind the first one
          have hold : e.1.n = g.n ∨ e ∈ rest := by
            rcases List.mem_append.mp he with he | he
            · rcases hl with rfl | ⟨rfl, -⟩ <;> simp [he]
            · rcases List.mem_cons.mp he with rfl | he
              · exact .inl rfl
              · rcases hl with rfl | ⟨rfl, -⟩ <;> simp [he]
          rcases hold with heq | he
          · rw [heq]
            exact hgt
          · exact hfirst e he
        · rcases hl with rfl | ⟨rfl, rfl⟩
          · exact .inl rfl
          · exact .inr ⟨rfl, rfl⟩

namespace Divides

variable {target : Value → Except Error PartitionId} {values : List Value}
  {routed : ByGroup (List Nat)}

theorem nil (target : Value → Except Error PartitionId) : Divides target [] [] where
  groups := .nil
  ascending := by simp
  disjoint := .nil
  covers := .refl _
  listed := by simp

theorem lt_length (h : Divides target values routed) {e : PartitionId × List Nat} (he : e ∈ routed)
    {i : Nat} (hi : i ∈ e.2) : i < values.length :=
  List.mem_range.mp (h.covers.subset (List.mem_flatMap.mpr ⟨e, he, hi⟩))

/-- Lists without a common position, since no position is listed twice. -/
theorem disjoint_of_covers {n : Nat} (h : (routed.flatMap (·.2)).Perm (List.range n)) :
    routed.Pairwise fun e e' => e.2.Disjoint e'.2 :=
  (List.nodup_flatMap.mp (h.nodup_iff.mpr List.nodup_range)).2

/-- One more value. -/
theorem snoc (h : Divides target values routed) {v : Value} {g : PartitionId}
    (hv : target v = .ok g) :
    Divides target (values ++ [v]) (routed.modify g [] (· ++ [values.length])) := by
  obtain ⟨before, positions, after, hmodify, hsorted, hrouted⟩ :=
    ByGroup.modify_cases (g := g) (d := []) (f := (· ++ [values.length])) h.groups
  rw [hmodify]
  have hflat : routed.flatMap (·.2) =
      before.flatMap (·.2) ++ (positions ++ after.flatMap (·.2)) := by
    rcases hrouted with rfl | ⟨rfl, rfl⟩ <;> simp
  have hold : ∀ e, e ∈ before ∨ e ∈ after → e ∈ routed := by
    intro e he
    rcases hrouted with rfl | ⟨rfl, -⟩ <;> rcases he with he | he <;> simp [he]
  have hpositions : positions.Pairwise (· < ·) ∧ ∀ i ∈ positions, i < values.length := by
    rcases hrouted with hrouted | ⟨-, rfl⟩
    · have hmem : (g, positions) ∈ routed := by rw [hrouted]; simp
      exact ⟨h.ascending _ hmem, fun i hi => h.lt_length hmem hi⟩
    · simp
  have hcovers : ((before ++ (g, positions ++ [values.length]) :: after).flatMap (·.2)).Perm
      (List.range (values ++ [v]).length) := by
    rw [List.length_append, List.length_singleton, List.range_succ]
    refine .trans ?_ (h.covers.append_right [values.length])
    rw [hflat, List.flatMap_append, List.flatMap_cons, List.append_assoc, List.append_assoc,
      List.append_assoc]
    exact .append_left _ (.append_left _ List.perm_append_comm)
  refine ⟨hsorted, ?_, disjoint_of_covers hcovers, hcovers, ?_⟩
  · intro e he
    rcases List.mem_append.mp he with he | he
    · exact h.ascending e (hold e (.inl he))
    · rcases List.mem_cons.mp he with rfl | he
      · refine List.pairwise_append.mpr ⟨hpositions.1, by simp, ?_⟩
        intro i hi j hj
        rw [List.mem_singleton.mp hj]
        exact hpositions.2 i hi
      · exact h.ascending e (hold e (.inr he))
  · intro i w hw
    rcases Nat.lt_or_ge i values.length with hi | hi
    · rw [List.getElem?_append_left hi] at hw
      obtain ⟨e, he, hgroup, hmem⟩ := h.listed i w hw
      rcases hrouted with rfl | ⟨rfl, -⟩
      · rcases List.mem_append.mp he with he | he
        · exact ⟨e, List.mem_append_left _ he, hgroup, hmem⟩
        · rcases List.mem_cons.mp he with rfl | he
          · exact ⟨(g, positions ++ [values.length]), by simp, hgroup, List.mem_append_left _ hmem⟩
          · exact ⟨e, by simp [he], hgroup, hmem⟩
      · rcases List.mem_append.mp he with he | he
        · exact ⟨e, List.mem_append_left _ he, hgroup, hmem⟩
        · exact ⟨e, by simp [he], hgroup, hmem⟩
    · obtain ⟨rfl, rfl⟩ : i = values.length ∧ w = v := by
        rw [List.getElem?_append_right hi, List.getElem?_singleton] at hw
        split at hw
        case isTrue hzero => exact ⟨by omega, (Option.some.inj hw).symm⟩
        case isFalse => cases hw
      exact ⟨(g, positions ++ [values.length]), by simp, hv, by simp⟩

end Divides

variable {c : Catalog} {id : TableId}

/-- The rest of the values. -/
theorem routeFrom_divides (htotal : ∀ v, ∃ g, target c id v = .ok g) {seen rest : List Value}
    {routed : ByGroup (List Nat)} (h : Divides (target c id) seen routed) :
    ∃ result, routeFrom c id routed seen.length rest = .ok result ∧
      Divides (target c id) (seen ++ rest) result := by
  induction rest generalizing seen routed with
  | nil => exact ⟨routed, rfl, by rwa [List.append_nil]⟩
  | cons v rest ih =>
    obtain ⟨g, hg⟩ := htotal v
    obtain ⟨result, hresult, hdivides⟩ := ih (h.snoc hg)
    rw [List.length_append, List.length_singleton] at hresult
    rw [List.append_assoc, List.singleton_append] at hdivides
    exact ⟨result, except_bind_eq_ok.mpr ⟨g, hg, hresult⟩, hdivides⟩

theorem route_divides (htotal : ∀ v, ∃ g, target c id v = .ok g) (values : List Value) :
    ∃ routed, route c id values = .ok routed ∧ Divides (target c id) values routed :=
  routeFrom_divides htotal (.nil _)

/-! ### Partitioned tables -/

theorem exists_target {kind : PartitionKind} {x : Column} {groups : List PartitionGroup}
    (hc : c.Reachable) (h : c.Partitioned id kind x groups)
    (hfits : Partition.Fits kind x.type groups) (v : Value) :
    ∃ g ∈ groups.map (·.id), target c id v = .ok g := by
  obtain ⟨g, hg, htarget⟩ := hfits.exists_target v
  exact ⟨g.id, List.mem_map_of_mem hg, (h.target_eq hc.linked v).trans htarget⟩

/-- A table that the router has partitioned routes every value to one of the groups
    that it has been given, and every list of values without losing a position,
    whatever calls follow, as long as none partitions it anew. -/
theorem partition_routes {settings : PartitionSettings} {kind : PartitionKind}
    {columnName : String} {count : Nat} {qualifiers : List (List String)} {gs : List PartitionId}
    (hc : c.Reachable)
    (hok : (partition settings id kind columnName count qualifiers).result c = .ok gs)
    (calls : List CatalogCall)
    (hcalls : CatalogCall.Throughout (fun x c => ¬x.Repartitions id c) calls
      ((partition settings id kind columnName count qualifiers).after c)) :
    let c' := CatalogCall.run calls
      ((partition settings id kind columnName count qualifiers).after c)
    (∀ v, ∃ g ∈ gs, target c' id v = .ok g) ∧
      ∀ values, ∃ routed,
        route c' id values = .ok routed ∧ Divides (target c' id) values routed := by
  intro c'
  obtain ⟨hreachable, x, groups, -, rfl, hfits, hpartitioned⟩ := partition_eq_ok hc hok
  have htotal : ∀ v, ∃ g ∈ groups.map (·.id), target c' id v = .ok g :=
    exists_target (CatalogCall.reachable_run hreachable calls)
      (CatalogCall.partitioned_run hpartitioned hcalls) hfits
  refine ⟨htotal, route_divides ?_⟩
  intro v
  obtain ⟨g, -, hg⟩ := htotal v
  exact ⟨g, hg⟩

theorem partition_routes_countries :
    let session := partition {} ⟨1⟩ .list "country" 3 [["de", "at"], ["fr"]]
    let c := (Catalog.createTable
      ⟨"app", "users", [⟨"country", .string, true⟩], [], [], none⟩).after {}
    let calls := [CatalogCall.addGroup ⟨1⟩ "spare" [] false, .addStore "docs" .document]
    let c' := CatalogCall.run calls (session.after c)
    (∃ g ∈ [⟨4⟩, ⟨5⟩, ⟨6⟩], target c' ⟨1⟩ .null = .ok g) ∧
      ∃ routed, route c' ⟨1⟩ [.string "fr", .bigint 7, .string "fr"] = .ok routed ∧
        Divides (target c' ⟨1⟩) [.string "fr", .bigint 7, .string "fr"] routed := by
  intro session c calls c'
  have hcalls : CatalogCall.Throughout (fun x c => ¬x.Repartitions ⟨1⟩ c) calls
      (session.after c) := by
    refine ⟨?_, ?_, trivial⟩
    · rintro ⟨⟨p, groups, hinstall⟩, -⟩
      cases hinstall
    · rintro ⟨⟨p, groups, hinstall⟩, -⟩
      cases hinstall
  have hok : session.result c = .ok [⟨4⟩, ⟨5⟩, ⟨6⟩] := rfl
  obtain ⟨htarget, hroute⟩ := partition_routes (.createTable _ .empty) hok calls hcalls
  exact ⟨htarget .null, hroute _⟩

end Router

end Polystore
