/-
  Polystore/Text/CodePoints.lean
  ==============================
  **Sets of code points.**  A property of characters is kept as a table of ranges
  in ascending order.  `Ranges.contains` stops at the first range above the code
  point, which is right for an ascending table: `contains_iff` says that the
  answer is membership in one of the ranges.
-/

namespace Polystore.Text

/-- Ranges of code points, each by its first and its last member. -/
abbrev Ranges := List (Nat × Nat)

namespace Ranges

def contains : Ranges → Nat → Bool
  | [], _ => false
  | (first, last) :: rest, n => if n < first then false else n ≤ last || contains rest n

/-- Whether the ranges are not empty, ascending, disjoint and at least `floor`. -/
def ascendingFrom (floor : Nat) : Ranges → Bool
  | [] => true
  | (first, last) :: rest => floor ≤ first && first ≤ last && ascendingFrom (last + 1) rest

/-- Whether the ranges are in ascending order. -/
def ascending (r : Ranges) : Bool := r.ascendingFrom 0

theorem le_of_ascendingFrom {r : Ranges} {floor : Nat} (h : r.ascendingFrom floor = true)
    {p : Nat × Nat} (hp : p ∈ r) : floor ≤ p.1 := by
  induction r generalizing floor with
  | nil => cases hp
  | cons q rest ih =>
    obtain ⟨first, last⟩ := q
    simp only [ascendingFrom, Bool.and_eq_true, decide_eq_true_eq] at h
    obtain ⟨⟨h1, h2⟩, h3⟩ := h
    rcases List.mem_cons.mp hp with rfl | hp'
    · exact h1
    · have h4 := ih h3 hp'
      omega

theorem contains_iff_of_ascendingFrom {r : Ranges} {floor : Nat}
    (h : r.ascendingFrom floor = true) (n : Nat) :
    r.contains n = true ↔ ∃ p ∈ r, p.1 ≤ n ∧ n ≤ p.2 := by
  induction r generalizing floor with
  | nil => simp [contains]
  | cons q rest ih =>
    obtain ⟨first, last⟩ := q
    simp only [ascendingFrom, Bool.and_eq_true, decide_eq_true_eq] at h
    obtain ⟨⟨h1, h2⟩, h3⟩ := h
    simp only [contains]
    by_cases hn : n < first
    · simp only [hn, if_true, Bool.false_eq_true, false_iff]
      rintro ⟨p, hp, hp1, -⟩
      rcases List.mem_cons.mp hp with rfl | hp'
      · exact absurd hp1 (Nat.not_le_of_lt hn)
      · have h4 := le_of_ascendingFrom h3 hp'
        omega
    · simp only [hn, if_false, Bool.or_eq_true, decide_eq_true_eq, ih h3, List.mem_cons,
        exists_eq_or_imp]
      constructor
      · rintro (h4 | h4)
        · exact Or.inl ⟨Nat.le_of_not_lt hn, h4⟩
        · exact Or.inr h4
      · rintro (h4 | h4)
        · exact Or.inl h4.2
        · exact Or.inr h4

/-- In an ascending table, stopping early loses nothing. -/
theorem contains_iff {r : Ranges} (h : r.ascending = true) (n : Nat) :
    r.contains n = true ↔ ∃ p ∈ r, p.1 ≤ n ∧ n ≤ p.2 :=
  contains_iff_of_ascendingFrom h n

end Ranges

end Polystore.Text
