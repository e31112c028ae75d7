import Mathlib.Order.Bounds.Defs
import Polystore.Proofs.SubsetOrder

/-
  Polystore/Proofs/MemberOrder.lean
  =================================
  **Sets compared by their members.**  The order of grouping sets has two parts that go
  in different directions: by inclusion larger sets come first, by words shorter lists of
  members do.  Both are settled at the least number that only one of two sets has, so they
  fit together to a strict total order (`groupingCompare_order`).
-/

namespace Polystore.OrdinalSet

variable {s t u : OrdinalSet} {i : Nat}

theorem groupingCompare_eq_eq : s.groupingCompare t = .eq ↔ s = t := by
  constructor
  · intro h
    have hle := isLE_groupingCompare.mp (Ordering.isLE_of_eq_eq h)
    refine hle.resolve_right fun hleads => ?_
    rw [groupingCompare_eq_lt.mpr hleads] at h
    cases h
  · rintro rfl
    rw [groupingCompare, if_pos rfl]

theorem groupingCompare_swap (s t : OrdinalSet) :
    t.groupingCompare s = (s.groupingCompare t).swap := by
  by_cases hst : s = t
  · rw [groupingCompare_eq_eq.mpr hst, groupingCompare_eq_eq.mpr hst.symm]
    rfl
  · obtain ⟨i, hi, hbelow⟩ := exists_least_difference hst
    rw [groupingCompare_of_least hi hbelow,
      groupingCompare_of_least hi.symm fun j hj => (hbelow j hj).symm]
    cases hs : s.contains i <;> cases ht : t.contains i
    · exact absurd (hs.trans ht.symm) hi
    · rfl
    · rfl
    · exact absurd (hs.trans ht.symm) hi

/-- The numbers that only one of the two sets has. -/
def Differ (s t : OrdinalSet) : Set Nat := {i | s.contains i ≠ t.contains i}

theorem leads_iff : s.Leads t ↔ ∃ i, IsLeast (s.Differ t) i ∧ s.contains i = true := by
  constructor
  · rintro ⟨i, hs, ht, hbelow⟩
    refine ⟨i, ⟨fun heq => ?_, fun j hj => ?_⟩, hs⟩
    · rw [hs, ht] at heq
      cases heq
    · exact Nat.le_of_not_lt fun hlt => hj (hbelow j hlt)
  · rintro ⟨i, ⟨hi, hleast⟩, hs⟩
    refine ⟨i, hs, ?_, fun j hj => ?_⟩
    · rw [Differ, Set.mem_ofPred_eq, hs] at hi
      simpa using hi.symm
    · exact not_not.mp fun hne => Nat.not_le_of_lt hj (hleast hne)

/-- The comparison of grouping sets is a strict total order.  The set with the least
    difference comes first, so a set precedes its proper subsets, and the comparison to
    which it falls back is the lexicographic one of the ascending members. -/
theorem groupingCompare_order (s t u : OrdinalSet) :
    (s.groupingCompare t = .eq ↔ s = t) ∧
    t.groupingCompare s = (s.groupingCompare t).swap ∧
    (s.groupingCompare t = .lt → t.groupingCompare u = .lt → s.groupingCompare u = .lt) ∧
    (s.groupingCompare t = .lt ↔ ∃ i, IsLeast (s.Differ t) i ∧ s.contains i = true) ∧
    (t ⊆ s → t ≠ s → s.groupingCompare t = .lt) ∧
    s.lexCompare t = compare s.toList t.toList := by
  refine ⟨groupingCompare_eq_eq, groupingCompare_swap s t, ?_, ?_, ?_, lexCompare_eq_compare s t⟩
  · intro hst htu
    rw [groupingCompare_eq_lt] at hst htu ⊢
    exact hst.trans htu
  · rw [groupingCompare_eq_lt, leads_iff]
  · intro hsub hne
    exact groupingCompare_eq_lt.mpr (leads_of_subset hsub hne)

/-- `{0, 1}` precedes its subset `{0}`, which precedes `{1, 2}` by words. -/
theorem groupingCompare_order_mixed :
    (ofList [0, 1]).groupingCompare (ofList [0]) = .lt ∧
      (ofList [0]).groupingCompare (ofList [1, 2]) = .lt ∧
      (ofList [0, 1]).groupingCompare (ofList [1, 2]) = .lt := by
  have hsubset : (ofList [0]) ⊆ (ofList [0, 1]) := containsAll_iff.mp (by decide)
  have horder := groupingCompare_order (ofList [0, 1]) (ofList [0]) (ofList [1, 2])
  have hfirst := horder.2.2.2.2.1 hsubset (by decide)
  have hsecond : (ofList [0]).groupingCompare (ofList [1, 2]) = .lt := by decide
  exact ⟨hfirst, hsecond, horder.2.2.1 hfirst hsecond⟩

end Polystore.OrdinalSet
