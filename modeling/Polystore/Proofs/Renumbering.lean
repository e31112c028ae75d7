import Mathlib.Data.List.Sort
import Mathlib.Order.Monotone.Basic
import Polystore.Grouping
import Polystore.Proofs.OrdinalSets
import Polystore.Proofs.Outcomes

/-
  Polystore/Proofs/Renumbering.lean
  =================================
  **Renumbering keeps grouping sets.**  When the columns of a row are given new
  numbers in the same order, a set of columns becomes the set of the new numbers.
  Cardinality, inclusion, the highest member and the order of grouping sets carry
  over, and with them the validity and the shape of a list of grouping sets.
-/

namespace Polystore

namespace OrdinalSet

instance : HasSubset OrdinalSet := ⟨fun s t => ∀ i, s.contains i = true → t.contains i = true⟩

theorem containsAll_iff {s t : OrdinalSet} : s.containsAll t = true ↔ t ⊆ s :=
  containsAll_iff_forall

/-! ### New numbers -/

/-- The set of the numbers that `f` gives to the members. -/
def renumber (f : Nat → Nat) (s : OrdinalSet) : OrdinalSet := .ofList (s.toList.map f)

variable {f : Nat → Nat} {u s t : OrdinalSet}

theorem contains_renumber {j : Nat} :
    (s.renumber f).contains j = true ↔ ∃ i, s.contains i = true ∧ f i = j := by
  rw [renumber, contains_ofList, List.mem_map]
  simp only [mem_toList]

/-- Numbers in the same order make lists in the same order. -/
theorem compare_map {f : Nat → Nat} {S : Set Nat} (hf : StrictMonoOn f S) {a b : List Nat}
    (ha : ∀ i ∈ a, i ∈ S) (hb : ∀ j ∈ b, j ∈ S) : compare (a.map f) (b.map f) = compare a b := by
  induction a generalizing b with
  | nil => cases b <;> rfl
  | cons i a ih =>
    cases b with
    | nil => rfl
    | cons j b =>
      have hi := ha i List.mem_cons_self
      have hj := hb j List.mem_cons_self
      have hij : compare (f i) (f j) = compare i j := by
        rw [← cmp_eq_compare, ← cmp_eq_compare, hf.cmp_map_eq hi hj]
      rw [List.map_cons, List.map_cons, List.compare_cons_cons, List.compare_cons_cons, hij,
        ih (fun k hk => ha k (List.mem_cons_of_mem i hk)) fun k hk => hb k (List.mem_cons_of_mem j hk)]

section

variable (hf : StrictMonoOn f {i | u.contains i = true})
include hf

theorem contains_renumber_apply (hs : s ⊆ u) {i : Nat} (hi : u.contains i = true) :
    (s.renumber f).contains (f i) = s.contains i := by
  rw [Bool.eq_iff_iff, contains_renumber]
  constructor
  · rintro ⟨j, hj, hji⟩
    rw [← hf.injOn (hs j hj) hi hji]
    exact hj
  · intro h
    exact ⟨i, h, rfl⟩

theorem toList_renumber (hs : s ⊆ u) : (s.renumber f).toList = s.toList.map f := by
  refine List.Pairwise.eq_of_mem_iff (toList_pairwise _) ?_ fun j => ?_
  · refine List.pairwise_map.mpr (s.toList_pairwise.imp_of_mem fun {i j} hi hj hlt => ?_)
    exact hf (hs i ((mem_toList s i).mp hi)) (hs j ((mem_toList s j).mp hj)) hlt
  · rw [mem_toList, renumber, contains_ofList]

theorem card_renumber (hs : s ⊆ u) : (s.renumber f).card = s.card := by
  rw [card_eq_length, toList_renumber hf hs, List.length_map, card_eq_length]

theorem renumber_subset_iff (hs : s ⊆ u) (ht : t ⊆ u) : s.renumber f ⊆ t.renumber f ↔ s ⊆ t := by
  constructor
  · intro h i hi
    have hi' := h (f i) ((contains_renumber_apply hf hs (hs i hi)).trans hi)
    rwa [contains_renumber_apply hf ht (hs i hi)] at hi'
  · intro h j hj
    obtain ⟨i, hi, hij⟩ := contains_renumber.mp hj
    exact contains_renumber.mpr ⟨i, h i hi, hij⟩

theorem containsAll_renumber (hs : s ⊆ u) (ht : t ⊆ u) :
    (s.renumber f).containsAll (t.renumber f) = s.containsAll t := by
  rw [Bool.eq_iff_iff, containsAll_iff, containsAll_iff, renumber_subset_iff hf ht hs]

theorem renumber_inj (hs : s ⊆ u) (ht : t ⊆ u) : s.renumber f = t.renumber f ↔ s = t := by
  constructor
  · intro h
    have hst := (renumber_subset_iff hf hs ht).mp (h ▸ fun _ hi => hi)
    have hts := (renumber_subset_iff hf ht hs).mp (h ▸ fun _ hi => hi)
    exact ext_contains fun i => Bool.eq_iff_iff.mpr ⟨hst i, hts i⟩
  · rintro rfl
    rfl

theorem lexCompare_renumber (hs : s ⊆ u) (ht : t ⊆ u) :
    (s.renumber f).lexCompare (t.renumber f) = s.lexCompare t := by
  have hmember {r : OrdinalSet} (hr : r ⊆ u) : ∀ i ∈ r.toList, i ∈ {i | u.contains i = true} :=
    fun i hi => hr i ((mem_toList r i).mp hi)
  rw [lexCompare_eq_compare, lexCompare_eq_compare, toList_renumber hf hs, toList_renumber hf ht]
  exact compare_map hf (hmember hs) (hmember ht)

theorem groupingCompare_renumber (hs : s ⊆ u) (ht : t ⊆ u) :
    (s.renumber f).groupingCompare (t.renumber f) = s.groupingCompare t := by
  simp only [groupingCompare, renumber_inj hf hs ht, containsAll_renumber hf hs ht,
    containsAll_renumber hf ht hs, lexCompare_renumber hf hs ht]

theorem max?_renumber (hs : s ⊆ u) : (s.renumber f).max? = s.max?.map f := by
  cases hmax : s.max? with
  | none =>
    rw [Option.map_none, max?_eq_none]
    intro j
    refine Bool.eq_false_iff.mpr fun hj => ?_
    obtain ⟨i, hi, -⟩ := contains_renumber.mp hj
    rw [max?_eq_none.mp hmax i] at hi
    cases hi
  | some m =>
    obtain ⟨hm, hle⟩ := max?_eq_some.mp hmax
    refine max?_eq_some.mpr ⟨contains_renumber.mpr ⟨m, hm, rfl⟩, fun j hj => ?_⟩
    obtain ⟨i, hi, rfl⟩ := contains_renumber.mp hj
    exact (hf.le_iff_le (hs i hi) (hs m hm)).mpr (hle i hi)

theorem erase_renumber (hs : s ⊆ u) {i : Nat} (hi : u.contains i = true) :
    (s.renumber f).erase (f i) = (s.erase i).renumber f := by
  refine ext_contains fun j => ?_
  rw [Bool.eq_iff_iff, contains_erase, Bool.and_eq_true, decide_eq_true_eq, contains_renumber,
    contains_renumber]
  constructor
  · rintro ⟨⟨k, hk, rfl⟩, hne⟩
    exact ⟨k, by simpa [contains_erase, hk] using fun h => hne (congrArg f h), rfl⟩
  · rintro ⟨k, hk, rfl⟩
    rw [contains_erase, Bool.and_eq_true, decide_eq_true_eq] at hk
    exact ⟨⟨k, hk.1, rfl⟩, fun h => hk.2 (hf.injOn hi (hs k hk.1) h)⟩

end

/-! ### Places among the members -/

/-- The number of members below `i`. -/
def rank (u : OrdinalSet) (i : Nat) : Nat := (List.range i).countP u.contains

/-- The numbers below a member, the member and the numbers behind it. -/
theorem exists_toList_eq {i : Nat} (h : u.contains i = true) :
    ∃ n, u.toList = (List.range i).filter u.contains ++
      i :: ((List.range n).map (i + 1 + ·)).filter u.contains := by
  obtain ⟨n, hn⟩ := Nat.exists_eq_add_of_lt (lt_bound_of_contains h)
  refine ⟨n, ?_⟩
  rw [toList_eq_filter, hn, Nat.add_right_comm, List.range_add, List.range_succ]
  simp [h]

theorem rank?_eq_some {i : Nat} (h : u.contains i = true) : u.rank? i = some (u.rank i) := by
  obtain ⟨n, hlist⟩ := exists_toList_eq h
  have hbelow : ∀ j ∈ (List.range i).filter u.contains, decide (j < i) = true := fun j hj =>
    decide_eq_true (List.mem_range.mp (List.mem_filter.mp hj).1)
  rw [rank?, if_pos h, hlist, List.takeWhile_append_of_pos hbelow,
    List.takeWhile_cons_of_neg (by simp), List.append_nil, rank, List.countP_eq_length_filter]

theorem rank_strictMonoOn (u : OrdinalSet) : StrictMonoOn u.rank {i | u.contains i = true} := by
  intro i hi j _ hij
  have hsublist : (List.range (i + 1)).Sublist (List.range j) := List.range_sublist.mpr hij
  have hsucc : u.rank (i + 1) = u.rank i + 1 := by
    have hi : u.contains i = true := hi
    simp [rank, List.range_succ, hi]
  have hle : u.rank (i + 1) ≤ u.rank j := hsublist.countP_le
  omega

/-- A member stands at its place in the ascending list. -/
theorem getElem?_toList_rank {i : Nat} (h : u.contains i = true) :
    u.toList[u.rank i]? = some i := by
  obtain ⟨n, hlist⟩ := exists_toList_eq h
  have hlength : ((List.range i).filter u.contains).length = u.rank i :=
    (List.countP_eq_length_filter).symm
  rw [hlist, ← hlength, List.getElem?_append_right (Nat.le_refl _)]
  simp

end OrdinalSet

/-! ### Lists of grouping sets -/

namespace Grouping

open OrdinalSet

variable {f : Nat → Nat} {u key : OrdinalSet} {sets : List OrdinalSet}

theorem validate_eq_ok : validate key sets = .ok () ↔
    sets ≠ [] ∧ (∀ s ∈ sets, s ⊆ key) ∧ firstUnordered? sets = none := by
  have hstray : sets.find? (!key.containsAll ·) = none ↔ ∀ s ∈ sets, s ⊆ key := by
    simp [containsAll_iff]
  rw [validate, except_bind_eq_ok, ← hstray]
  simp only [ensure_eq_ok]
  cases sets.find? (!key.containsAll ·) <;> cases firstUnordered? sets <;>
    simp [bind, Except.bind, pure, Except.pure, throw, throwThe, MonadExceptOf.throw]

section

variable (hf : StrictMonoOn f {i | u.contains i = true})
include hf

theorem firstUnordered?_renumber (hsets : ∀ s ∈ sets, s ⊆ u) :
    firstUnordered? (sets.map (renumber f)) =
      (firstUnordered? sets).map (Prod.map (renumber f) (renumber f)) := by
  fun_induction firstUnordered? sets with
  | case1 a b rest hlt ih =>
    have hab := groupingCompare_renumber hf (hsets a (by simp)) (hsets b (by simp))
    simp only [List.map_cons, firstUnordered?, hab, hlt, if_true]
    exact ih fun s hs => hsets s (List.mem_cons_of_mem a hs)
  | case2 a b rest hlt =>
    have hab := groupingCompare_renumber hf (hsets a (by simp)) (hsets b (by simp))
    simp [firstUnordered?, hab, hlt]
  | case3 sets hshort =>
    cases sets with
    | nil => rfl
    | cons a rest =>
      cases rest with
      | nil => rfl
      | cons b rest => exact absurd rfl (hshort a b rest)

theorem validate_renumber (hkey : key ⊆ u) (h : validate key sets = .ok ()) :
    validate (key.renumber f) (sets.map (renumber f)) = .ok () := by
  obtain ⟨hne, hwithin, hordered⟩ := validate_eq_ok.mp h
  have hsets : ∀ s ∈ sets, s ⊆ u := fun s hs i hi => hkey i (hwithin s hs i hi)
  refine validate_eq_ok.mpr ⟨by simpa using hne, ?_, ?_⟩
  · intro s' hs'
    obtain ⟨s, hs, rfl⟩ := List.mem_map.mp hs'
    exact (renumber_subset_iff hf (hsets s hs) hkey).mpr (hwithin s hs)
  · rw [firstUnordered?_renumber hf hsets, hordered]
    rfl

theorem descends_renumber {expected : OrdinalSet} (hexpected : expected ⊆ u)
    (hsets : ∀ s ∈ sets, s ⊆ u) :
    descends (expected.renumber f) (sets.map (renumber f)) = descends expected sets := by
  induction sets generalizing expected with
  | nil => rfl
  | cons set rest ih =>
    have hrest : ∀ s ∈ rest, s ⊆ u := fun s hs => hsets s (List.mem_cons_of_mem set hs)
    simp only [List.map_cons, descends, renumber_inj hf (hsets set (by simp)) hexpected,
      max?_renumber hf hexpected]
    cases hmax : expected.max? with
    | none => exact congrArg _ (ih hexpected hrest)
    | some top =>
      have htop := hexpected top (max?_eq_some.mp hmax).1
      have hsmaller : expected.erase top ⊆ u := by
        intro i hi
        rw [contains_erase, Bool.and_eq_true] at hi
        exact hexpected i hi.1
      simp only [Option.map_some, erase_renumber hf hexpected htop, ih hsmaller hrest]

theorem shape_renumber (hkey : key ⊆ u) (hsets : ∀ s ∈ sets, s ⊆ u) :
    shape (key.renumber f) (sets.map (renumber f)) = shape key sets := by
  have hsimple : sets.map (renumber f) = [key.renumber f] ↔ sets = [key] := by
    constructor
    · intro h
      obtain ⟨s, hs, hsk⟩ := List.map_eq_singleton_iff.mp h
      rw [hs, (renumber_inj hf (hsets s (by simp [hs])) hkey).mp hsk]
    · rintro rfl
      rfl
  unfold shape isRollup
  rw [card_renumber hf hkey, List.length_map, descends_renumber hf hkey hsets]
  by_cases hs : sets = [key]
  · rw [if_pos hs, if_pos (hsimple.mpr hs)]
  · rw [if_neg hs, if_neg (mt hsimple.mp hs)]

end

end Grouping

end Polystore
