import Polystore.Proofs.FieldComparisons
import Polystore.Pushdown.Merge

/-
  Polystore/Proofs/ComparisonChains.lean
  ======================================
  **How far the comparison is an order.**  Turned around, a comparison has the opposite
  answer, whatever the values are.  Two comparisons in a row give a third one
  (`Transits`) among integers and among doubles, and among values of any other type.

  With two integers and a double this may fail: the integers are compared as they are,
  and each of them is rounded to be compared with the double.  Then the three are
  `Conflated`, two integers that are not equal and a double that is equal to both, and
  in one of three orders.  Nothing else fails (`compare?_transits_iff`), and the integers
  are too long for a double.  A bound that is such an integer may be lost when it is
  merged with the double (`MeetIn.mergeBound_loses`).
-/

namespace Polystore

theorem OrderingChain.isLE {ab bc ac : Ordering} (h : OrderingChain ab bc ac)
    (hab : ab.isLE = true) (hbc : bc.isLE = true) :
    ac.isLE = true ∧ (ac = .eq → ab = .eq ∧ bc = .eq) := by
  obtain ⟨hleft, hright, hsame⟩ := h
  cases ab with
  | gt => cases hab
  | eq =>
    rw [hleft rfl]
    exact ⟨hbc, fun h => ⟨rfl, h⟩⟩
  | lt =>
    have hac : ac = .lt := by
      cases bc with
      | gt => cases hbc
      | eq => exact hright rfl
      | lt => exact hsame rfl
    rw [hac]
    exact ⟨rfl, fun h => by cases h⟩

namespace Value

variable {a b c : Value} {i j : Int64} {x y z : Float}

/-! ### Chains of doubles -/

theorem compareDouble_chain {xy yz : Ordering} (hxy : compareDouble x y = some xy)
    (hyz : compareDouble y z = some yz) :
    ∃ xz, compareDouble x z = some xz ∧ OrderingChain xy yz xz := by
  rw [compareDouble_eq_position] at hxy hyz ⊢
  obtain ⟨p, hp, hxy⟩ := Option.bind_eq_some_iff.mp hxy
  obtain ⟨q, hq, rfl⟩ := Option.map_eq_some_iff.mp hxy
  obtain ⟨q', hq', hyz⟩ := Option.bind_eq_some_iff.mp hyz
  obtain ⟨r, hr, rfl⟩ := Option.map_eq_some_iff.mp hyz
  obtain rfl : q = q' := Option.some.inj (hq.symm.trans hq')
  rw [hp, hr]
  exact ⟨_, rfl, orderingChain_of_transCmp Number.Position.order p q r⟩

/-- Rounding does not turn the order of two integers around. -/
theorem exists_compareDouble_of_isLE (h : (compare i.toInt j.toInt).isLE = true) :
    ∃ o, compareDouble (Float.ofInt i.toInt) (Float.ofInt j.toInt) = some o ∧ o.isLE = true := by
  rcases compareDouble_ofInt i j with heq | hcompare
  · exact ⟨.eq, heq, rfl⟩
  · exact ⟨_, hcompare, h⟩

/-! ### Comparing twice -/

/-- If `a` is at most `b`, and `b` at most `c`, then `a` is at most `c`, and equal to it
    only if all three are equal. -/
def Transits (a b c : Value) : Prop :=
  ∀ ab bc, a.compare? b = some ab → b.compare? c = some bc →
    ab.isLE = true → bc.isLE = true →
    ∃ ac, a.compare? c = some ac ∧ ac.isLE = true ∧ (ac = .eq → ab = .eq ∧ bc = .eq)

theorem transits_of_chain (h : ∀ {ab bc}, a.compare? b = some ab → b.compare? c = some bc →
    ∃ ac, a.compare? c = some ac ∧ OrderingChain ab bc ac) : Transits a b c := by
  intro ab bc hab hbc hle hle'
  obtain ⟨ac, hac, hchain⟩ := h hab hbc
  exact ⟨ac, hac, hchain.isLE hle hle'⟩

/-- Two integers, the first one less than the second one, and a double that is equal to
    both. -/
structure MeetIn (i j : Int64) (x : Float) : Prop where
  lt : i.toInt < j.toInt
  first : (Float.ofInt i.toInt == x) = true
  second : (Float.ofInt j.toInt == x) = true

/-- The three of them in an order in which it shows. -/
inductive Conflated : Value → Value → Value → Prop
  | below {i j : Int64} {x : Float} (h : MeetIn i j x) :
    Conflated (bigint i) (bigint j) (double x)
  | above {i j : Int64} {x : Float} (h : MeetIn i j x) :
    Conflated (double x) (bigint i) (bigint j)
  | between {i j : Int64} {x : Float} (h : MeetIn i j x) :
    Conflated (bigint j) (double x) (bigint i)

theorem compare_eq_of_isLE {m n : Int} (hle : (compare m n).isLE = true) (h : ¬m < n) :
    compare m n = .eq := by
  have hmn : m ≤ n := Int.isLE_compare.mp hle
  exact Int.compare_eq_eq.mpr (by omega)

theorem transits_below (h : ¬Conflated (bigint i) (bigint j) (double x)) :
    Transits (bigint i) (bigint j) (double x) := by
  intro ab bc hab hbc hle hle'
  obtain rfl : compare i.toInt j.toInt = ab := Option.some.inj hab
  obtain ⟨o, ho, hole⟩ := exists_compareDouble_of_isLE hle
  obtain ⟨ac, hac, hchain⟩ := compareDouble_chain ho hbc
  obtain ⟨hacle, heq⟩ := hchain.isLE hole hle'
  refine ⟨ac, hac, hacle, ?_⟩
  rintro rfl
  obtain ⟨-, rfl⟩ := heq rfl
  -- of two integers that are equal to the double the first one is not the smaller one
  refine ⟨compare_eq_of_isLE hle fun hlt => h ?_, rfl⟩
  exact .below ⟨hlt, compareDouble_eq_iff.mp hac, compareDouble_eq_iff.mp hbc⟩

theorem transits_above (h : ¬Conflated (double x) (bigint i) (bigint j)) :
    Transits (double x) (bigint i) (bigint j) := by
  intro ab bc hab hbc hle hle'
  obtain rfl : compare i.toInt j.toInt = bc := Option.some.inj hbc
  obtain ⟨o, ho, hole⟩ := exists_compareDouble_of_isLE hle'
  obtain ⟨ac, hac, hchain⟩ := compareDouble_chain hab ho
  obtain ⟨hacle, heq⟩ := hchain.isLE hle hole
  refine ⟨ac, hac, hacle, ?_⟩
  rintro rfl
  obtain ⟨rfl, -⟩ := heq rfl
  refine ⟨rfl, compare_eq_of_isLE hle' fun hlt => h ?_⟩
  exact .above ⟨hlt, Number.beq_symm (compareDouble_eq_iff.mp hab),
    Number.beq_symm (compareDouble_eq_iff.mp hac)⟩

theorem transits_between (h : ¬Conflated (bigint i) (double x) (bigint j)) :
    Transits (bigint i) (double x) (bigint j) := by
  intro ab bc hab hbc hle hle'
  obtain ⟨o, ho, hchain⟩ := compareDouble_chain hab hbc
  obtain ⟨hole, heq⟩ := hchain.isLE hle hle'
  rcases compareDouble_ofInt i j with hequal | hcompare
  · -- the doubles are equal, and nothing is known of the integers
    obtain rfl : Ordering.eq = o := Option.some.inj (hequal.symm.trans ho)
    obtain ⟨rfl, rfl⟩ := heq rfl
    refine ⟨_, rfl, ?_, fun _ => ⟨rfl, rfl⟩⟩
    rw [Int.isLE_compare]
    by_contra hgt
    exact h (.between ⟨Int.not_le.mp hgt, Number.beq_symm (compareDouble_eq_iff.mp hbc),
      compareDouble_eq_iff.mp hab⟩)
  · obtain rfl : compare i.toInt j.toInt = o := Option.some.inj (hcompare.symm.trans ho)
    exact ⟨_, rfl, hole, heq⟩

theorem Conflated.not_transits (h : Conflated a b c) : ¬Transits a b c := by
  intro htransits
  cases h with
  | @below i j x hmeet =>
    obtain ⟨hlt, hi, hj⟩ := hmeet
    obtain ⟨ac, hac, -, heq⟩ := htransits .lt .eq (congrArg some (Int.compare_eq_lt.mpr hlt))
      (compareDouble_eq_iff.mpr hj) rfl rfl
    obtain rfl : Ordering.eq = ac := Option.some.inj ((compareDouble_eq_iff.mpr hi).symm.trans hac)
    cases (heq rfl).1
  | @above i j x hmeet =>
    obtain ⟨hlt, hi, hj⟩ := hmeet
    obtain ⟨ac, hac, -, heq⟩ := htransits .eq .lt (compareDouble_eq_iff.mpr (Number.beq_symm hi))
      (congrArg some (Int.compare_eq_lt.mpr hlt)) rfl rfl
    obtain rfl : Ordering.eq = ac :=
      Option.some.inj ((compareDouble_eq_iff.mpr (Number.beq_symm hj)).symm.trans hac)
    cases (heq rfl).2
  | @between i j x hmeet =>
    obtain ⟨hlt, hi, hj⟩ := hmeet
    obtain ⟨ac, hac, hle, -⟩ := htransits .eq .eq (compareDouble_eq_iff.mpr hj)
      (compareDouble_eq_iff.mpr (Number.beq_symm hi)) rfl rfl
    obtain rfl : compare j.toInt i.toInt = ac := Option.some.inj hac
    rw [Int.compare_eq_gt.mpr hlt] at hle
    cases hle

/-! ### All values -/

/-- Only numbers are compared with numbers. -/
theorem isSome_asDouble?_of_compare? {o : Ordering} (h : a.compare? b = some o) :
    a.asDouble?.isSome = b.asDouble?.isSome := by
  cases a <;> cases b <;> simp_all [compare?, asDouble?]

theorem isSome_asDouble?_of_isDouble (h : a.isDouble = true) : a.asDouble?.isSome = true := by
  cases a <;> simp_all [isDouble, asDouble?]

theorem number_cases (h : a.asDouble?.isSome = true) :
    (∃ i, a = bigint i) ∨ ∃ x, a = double x := by
  cases a <;> simp_all [asDouble?]

/-- Numbers, one of them a double. -/
theorem transits_of_isDouble (h : ¬Conflated a b c) (ha : a.asDouble?.isSome = true)
    (hb : b.asDouble?.isSome = true) (hc : c.asDouble?.isSome = true)
    (hdouble : a.isDouble = true ∨ b.isDouble = true ∨ c.isDouble = true) : Transits a b c := by
  rcases number_cases ha with ⟨i, rfl⟩ | ⟨x, rfl⟩ <;>
    rcases number_cases hb with ⟨j, rfl⟩ | ⟨y, rfl⟩ <;>
    rcases number_cases hc with ⟨k, rfl⟩ | ⟨z, rfl⟩
  · rcases hdouble with hdouble | hdouble | hdouble <;> cases hdouble
  · exact transits_below h
  · exact transits_between h
  · exact transits_of_chain compareDouble_chain
  · exact transits_above h
  -- two doubles or three, and only doubles are compared
  all_goals exact transits_of_chain compareDouble_chain

theorem transits_of_not_conflated (h : ¬Conflated a b c) : Transits a b c := by
  intro ab bc hab hbc
  by_cases hdouble : a.isDouble = true ∨ b.isDouble = true ∨ c.isDouble = true
  · have hsame := isSome_asDouble?_of_compare? hab
    have hsame' := isSome_asDouble?_of_compare? hbc
    have hb : b.asDouble?.isSome = true := by
      rcases hdouble with ha | hb | hc
      · exact hsame ▸ isSome_asDouble?_of_isDouble ha
      · exact isSome_asDouble?_of_isDouble hb
      · exact hsame' ▸ isSome_asDouble?_of_isDouble hc
    exact transits_of_isDouble h (hsame.trans hb) hb (hsame'.symm.trans hb) hdouble ab bc hab hbc
  · simp only [not_or, Bool.not_eq_true] at hdouble
    exact transits_of_chain (compare?_chain hdouble.1 hdouble.2.1 hdouble.2.2) ab bc hab hbc

theorem MeetIn.sameDouble (h : MeetIn i j x) : SameDouble i j := by
  refine ⟨?_, (Number.beq_congr (Number.beq_symm h.second) _).mp h.first⟩
  rintro rfl
  exact absurd h.lt (Int.lt_irrefl _)

theorem Conflated.exists_sameDouble (h : Conflated a b c) :
    ∃ i j, SameDouble i j ∧ ∀ k, bigint k ∈ [a, b, c] → k = i ∨ k = j := by
  cases h with
  | @below i j x hmeet => exact ⟨i, j, hmeet.sameDouble, by simp⟩
  | @above i j x hmeet => exact ⟨i, j, hmeet.sameDouble, by simp⟩
  | @between i j x hmeet => exact ⟨i, j, hmeet.sameDouble, by simp [or_comm]⟩

theorem Conflated.long (h : Conflated a b c) :
    ∀ i, bigint i ∈ [a, b, c] → 2 ^ 53 ≤ i.toInt.natAbs := by
  obtain ⟨i, j, ⟨hne, heq⟩, hmem⟩ := h.exists_sameDouble
  obtain ⟨hi, hj⟩ := Number.long_of_beq hne heq
  intro k hk
  rcases hmem k hk with rfl | rfl
  · exact hi
  · exact hj

/-- Swapping the operands swaps the answer.  Values that stand in a chain stand in order
    at its ends, and are equal there only if all three are, unless two integers and a
    double are conflated; then this fails, and the integers have at least fifty-four
    bits. -/
theorem compare?_transits_iff (a b c : Value) :
    b.compare? a = (a.compare? b).map Ordering.swap ∧
      (Transits a b c ↔ ¬Conflated a b c) ∧
      (Conflated a b c → ∀ i, bigint i ∈ [a, b, c] → 2 ^ 53 ≤ i.toInt.natAbs) :=
  ⟨compare?_oriented a b,
    ⟨fun htransits hconflated => hconflated.not_transits htransits, transits_of_not_conflated⟩,
    Conflated.long⟩

/-- The integers `2 ^ 53 + 1` and `2 ^ 53` are both equal to the double `2 ^ 53`, and the
    first one is greater than the second one. -/
theorem compare?_not_transitive :
    let a := bigint 9007199254740993
    let b := double (Float.ofBits 0x4340000000000000)
    let c := bigint 9007199254740992
    a.compare? b = some .eq ∧ b.compare? c = some .eq ∧ a.compare? c = some .gt ∧
      ¬Transits a b c := by
  intro a b c
  have hab : a.compare? b = some .eq := by decide +kernel
  have hbc : b.compare? c = some .eq := by decide +kernel
  have hac : a.compare? c = some .gt := by decide
  refine ⟨hab, hbc, hac, fun htransits => ?_⟩
  obtain ⟨o, ho, hle, -⟩ := htransits .eq .eq hab hbc rfl rfl
  obtain rfl : Ordering.gt = o := Option.some.inj (hac.symm.trans ho)
  cases hle

/-! ### Merged bounds -/

/-- The stronger one of two bounds is lost beside a double that it is equal to: the other
    one lets an integer through that is below it, and nothing is left over. -/
theorem MeetIn.mergeBound_loses (h : MeetIn i j x) (e e' : Expr) :
    let weak : Bound := ⟨.literal (double x), true⟩
    let strong : Bound := ⟨.literal (bigint j), true⟩
    FieldTerms.mergeBound true (some (weak, e)) strong e' = (some (weak, e), []) ∧
      weak.satisfied true [bigint i] [] 0 = true ∧
      strong.satisfied true [bigint i] [] 0 = false := by
  intro weak strong
  have hequal : (bigint j).compare? (double x) = some .eq := compareDouble_eq_iff.mpr h.second
  have hthrough : (bigint i).compare? (double x) = some .eq := compareDouble_eq_iff.mpr h.first
  have hbelow : (bigint i).compare? (bigint j) = some .lt :=
    congrArg some (Int.compare_eq_lt.mpr h.lt)
  refine ⟨?_, ?_, ?_⟩
  · simp [FieldTerms.mergeBound, FieldTerms.isStronger?, TermValue.compare?, weak, strong, hequal]
  · simp [Bound.satisfied, Bound.test, Comparison.satisfied, TermValue.read, weak, hthrough,
      Comparison.holds]
  · simp [Bound.satisfied, Bound.test, Comparison.satisfied, TermValue.read, strong, hbelow,
      Comparison.holds]

end Value

end Polystore
