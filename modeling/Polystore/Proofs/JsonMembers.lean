import Mathlib
import Polystore.Json.Basic

/-
  Polystore/Proofs/JsonMembers.lean
  =================================
  **The members of an object.**  Members are kept in ascending order of their names, so
  that no name occurs twice.  What matters to a reader of an object is which members it
  has, not in which order: setting a member puts it in the place of the one of that name
  (`insert_perm`), and an object made of members with different names has these members
  (`ofMembers_perm`).  Under each name the last member set is found (`lookup_foldl_insert`),
  and what is found tells the members (`eq_of_lookup_eq`).
-/

namespace Polystore

/-- Where keys differ, looking for a key finds its entry. -/
theorem find?_of_mem {α : Type} {entries : List (String × α)} (h : (entries.map (·.1)).Nodup)
    {p : String × α} (hp : p ∈ entries) : entries.find? (·.1 = p.1) = some p := by
  cases hfind : entries.find? (·.1 = p.1) with
  | none =>
    have hne : p.1 ≠ p.1 := by simpa using List.find?_eq_none.mp hfind p hp
    exact absurd rfl hne
  | some q =>
    have hkey : q.1 = p.1 := by simpa using List.find?_some hfind
    rw [List.inj_on_of_nodup_map h (List.mem_of_find?_eq_some hfind) hp hkey]

namespace Json

variable {m : Members} {name : String} {v : Json}

/-- One member a name, in ascending order. -/
abbrev Ascending (m : Members) : Prop := m.Pairwise fun p q => p.1 < q.1

theorem mem_insert {p : String × Json} (h : p ∈ insert name v m) : p = (name, v) ∨ p ∈ m := by
  induction m with
  | nil => exact .inl (List.mem_singleton.mp h)
  | cons q rest ih =>
    unfold insert at h
    split at h
    · exact List.mem_cons.mp h
    · split at h
      · rcases List.mem_cons.mp h with h | h
        · exact .inl h
        · exact .inr (List.mem_cons_of_mem q h)
      · rcases List.mem_cons.mp h with rfl | h
        · exact .inr List.mem_cons_self
        · exact (ih h).imp_right (List.mem_cons_of_mem q)

theorem ascending_insert (h : Ascending m) : Ascending (insert name v m) := by
  induction m with
  | nil => exact List.pairwise_singleton _ _
  | cons q rest ih =>
    obtain ⟨hq, hrest⟩ := List.pairwise_cons.mp h
    unfold insert
    by_cases hlt : name < q.1
    · rw [if_pos hlt]
      refine List.pairwise_cons.mpr ⟨?_, h⟩
      intro p hp
      rcases List.mem_cons.mp hp with rfl | hp
      · exact hlt
      · exact lt_trans hlt (hq p hp)
    · rw [if_neg hlt]
      by_cases heq : name = q.1
      · rw [if_pos heq]
        refine List.pairwise_cons.mpr ⟨?_, hrest⟩
        intro p hp
        rw [heq]
        exact hq p hp
      · rw [if_neg heq]
        refine List.pairwise_cons.mpr ⟨?_, ih hrest⟩
        intro p hp
        rcases mem_insert hp with rfl | hp
        · exact lt_of_le_of_ne (le_of_not_gt hlt) (Ne.symm heq)
        · exact hq p hp

theorem ascending_remove (h : Ascending m) : Ascending (remove name m) := List.Pairwise.filter _ h

theorem remove_eq_self (h : ∀ p ∈ m, p.1 ≠ name) : remove name m = m := by
  refine List.filter_eq_self.mpr fun p hp => ?_
  simpa using h p hp

theorem insert_perm (h : Ascending m) : (insert name v m).Perm ((name, v) :: remove name m) := by
  induction m with
  | nil => exact .refl _
  | cons q rest ih =>
    obtain ⟨hq, hrest⟩ := List.pairwise_cons.mp h
    unfold insert
    by_cases hlt : name < q.1
    · have hnone : ∀ p ∈ q :: rest, p.1 ≠ name := by
        intro p hp heq
        rcases List.mem_cons.mp hp with rfl | hp
        · exact absurd hlt (heq ▸ lt_irrefl _)
        · exact absurd (lt_trans hlt (hq p hp)) (heq ▸ lt_irrefl _)
      rw [if_pos hlt, remove_eq_self hnone]
    · rw [if_neg hlt]
      by_cases heq : name = q.1
      · have hnone : ∀ p ∈ rest, p.1 ≠ name := by
          intro p hp hp'
          exact absurd (hq p hp) (by rw [hp', heq]; exact lt_irrefl _)
        have hremove : remove name (q :: rest) = rest := by
          rw [remove, List.filter_cons_of_neg (by simp [heq])]
          exact remove_eq_self hnone
        rw [if_pos heq, hremove]
      · have hremove : remove name (q :: rest) = q :: remove name rest := by
          rw [remove, List.filter_cons_of_pos (by simpa using Ne.symm heq)]
          rfl
        rw [if_neg heq, hremove]
        exact ((ih hrest).cons q).trans (.swap _ _ _)

theorem lookup_eq_some (h : lookup name m = some v) : (name, v) ∈ m := by
  obtain ⟨⟨n, w⟩, hfind, rfl⟩ := Option.map_eq_some_iff.mp h
  have hname : n = name := by simpa using List.find?_some hfind
  rw [← hname]
  exact List.mem_of_find?_eq_some hfind

theorem ne_of_lookup_eq_none (h : lookup name m = none) : ∀ p ∈ m, p.1 ≠ name := by
  have hfind : m.find? (·.1 = name) = none := by simpa [lookup] using h
  intro p hp
  simpa using List.find?_eq_none.mp hfind p hp

theorem lookup_of_mem (h : (m.map (·.1)).Nodup) {p : String × Json} (hp : p ∈ m) :
    lookup p.1 m = some p.2 := by
  rw [lookup, find?_of_mem h hp]
  rfl

theorem nodup_of_ascending (h : Ascending m) : (m.map (·.1)).Nodup :=
  List.pairwise_map.mpr (h.imp ne_of_lt)

theorem perm_of_lookup (h : Ascending m) (hlookup : lookup name m = some v) :
    m.Perm ((name, v) :: remove name m) := by
  induction m with
  | nil => cases hlookup
  | cons q rest ih =>
    obtain ⟨hq, hrest⟩ := List.pairwise_cons.mp h
    by_cases heq : q.1 = name
    · have hnone : ∀ p ∈ rest, p.1 ≠ name := by
        intro p hp hp'
        exact absurd (hq p hp) (by rw [hp', heq]; exact lt_irrefl _)
      have hremove : remove name (q :: rest) = rest := by
        rw [remove, List.filter_cons_of_neg (by simp [heq])]
        exact remove_eq_self hnone
      have hmember : q = (name, v) := by
        simp only [lookup, List.find?_cons, heq, decide_true, Option.map_some] at hlookup
        exact Prod.ext heq (Option.some.inj hlookup)
      rw [hremove, hmember]
    · have hremove : remove name (q :: rest) = q :: remove name rest := by
        rw [remove, List.filter_cons_of_pos (by simpa using heq)]
        rfl
      have hlookup' : lookup name rest = some v := by
        simpa [lookup, List.find?_cons, heq] using hlookup
      rw [hremove]
      exact ((ih hrest hlookup').cons q).trans (.swap _ _ _)

theorem foldl_insert_perm {new : Members} (h : Ascending m)
    (hnames : ((m ++ new).map (·.1)).Nodup) :
    (new.foldl (fun m (n, v) => insert n v m) m).Perm (m ++ new) := by
  induction new generalizing m with
  | nil => simp
  | cons p rest ih =>
    have hperm : (insert p.1 p.2 m).Perm (p :: m) := by
      refine (insert_perm h).trans ?_
      rw [remove_eq_self]
      intro q hq heq
      rw [List.map_append, List.nodup_append] at hnames
      exact hnames.2.2 q.1 (List.mem_map_of_mem hq) p.1 (by simp) heq
    have hmoved : (insert p.1 p.2 m ++ rest).Perm (m ++ p :: rest) :=
      (hperm.append_right rest).trans List.perm_middle.symm
    rw [List.foldl_cons]
    refine (ih (ascending_insert h) ?_).trans hmoved
    exact (hmoved.map (·.1)).nodup_iff.mpr hnames

/-- Members with different names become those of the object. -/
theorem ofMembers_perm (hnames : (m.map (·.1)).Nodup) :
    ∃ members, ofMembers m = .object members ∧ members.Perm m :=
  ⟨_, rfl, foldl_insert_perm .nil hnames⟩

/-! ### What is found under a name -/

section

variable {m' : Members}

theorem lookup_cons (p : String × Json) (m : Members) :
    lookup name (p :: m) = if p.1 = name then some p.2 else lookup name m := by
  by_cases h : p.1 = name <;> simp [lookup, h]

theorem hasMember_iff : hasMember name m = true ↔ name ∈ m.map (·.1) := by
  simp [hasMember, lookup]

theorem lookup_append (m m' : Members) :
    lookup name (m ++ m') = (lookup name m).or (lookup name m') := by
  rw [lookup, List.find?_append, Option.map_or]
  rfl

theorem lookup_remove_of_ne {n : String} (h : n ≠ name) (m : Members) :
    lookup n (remove name m) = lookup n m := by
  rw [lookup, lookup, remove, List.find?_filter]
  congr 2
  funext p
  by_cases hp : p.1 = n <;> simp [hp, h]

/-- Setting a member changes what is found under its name and nothing else. -/
theorem lookup_insert (n : String) (m : Members) :
    lookup n (insert name v m) = if name = n then some v else lookup n m := by
  induction m with
  | nil => exact lookup_cons (name, v) []
  | cons p rest ih =>
    unfold insert
    by_cases hlt : name < p.1
    · rw [if_pos hlt, lookup_cons]
    · rw [if_neg hlt]
      by_cases heq : name = p.1
      · rw [if_pos heq, lookup_cons, lookup_cons, ← heq]
        split <;> rfl
      · rw [if_neg heq, lookup_cons, lookup_cons, ih]
        by_cases hp : p.1 = n
        · rw [if_pos hp, if_pos hp, if_neg]
          exact fun hn => heq (hn.trans hp.symm)
        · rw [if_neg hp, if_neg hp]

theorem mem_names_insert {n : String} :
    n ∈ (insert name v m).map (·.1) ↔ n = name ∨ n ∈ m.map (·.1) := by
  rw [← hasMember_iff, ← hasMember_iff, hasMember, hasMember, lookup_insert]
  by_cases h : name = n
  · simp [h]
  · simp [h, Ne.symm h]

theorem ascending_foldl_insert {new : Members} (h : Ascending m) :
    Ascending (new.foldl (fun m (n, v) => insert n v m) m) := by
  induction new generalizing m with
  | nil => exact h
  | cons p rest ih => exact ih (ascending_insert h)

/-- Of several members of one name the last one counts. -/
theorem lookup_foldl_insert (new m : Members) :
    lookup name (new.foldl (fun m (n, v) => insert n v m) m) =
      (lookup name new.reverse).or (lookup name m) := by
  induction new generalizing m with
  | nil => rfl
  | cons p rest ih =>
    rw [List.foldl_cons, ih, lookup_insert, List.reverse_cons, lookup_append, lookup_cons]
    cases lookup name rest.reverse with
    | some w => rfl
    | none =>
      by_cases hp : p.1 = name
      · simp [hp]
      · simp [hp, lookup]

/-- Members in ascending order are known by what is found under each name. -/
theorem eq_of_lookup_eq (h : Ascending m) (h' : Ascending m')
    (hlookup : ∀ name, lookup name m = lookup name m') : m = m' := by
  have hsubset {m m' : Members} (h : Ascending m)
      (hlookup : ∀ name, lookup name m = lookup name m') {p : String × Json} (hp : p ∈ m) :
      p ∈ m' := by
    apply lookup_eq_some
    rw [← hlookup p.1]
    exact lookup_of_mem (nodup_of_ascending h) hp
  have hperm : m.Perm m' := by
    apply (List.perm_ext_iff_of_nodup (nodup_of_ascending h).of_map
      (nodup_of_ascending h').of_map).mpr
    intro p
    exact ⟨hsubset h hlookup, hsubset h' fun name => (hlookup name).symm⟩
  refine hperm.eq_of_pairwise ?_ h h'
  intro p q _ _ hpq hqp
  exact absurd (lt_trans hpq hqp) (lt_irrefl _)

end

end Json

end Polystore
