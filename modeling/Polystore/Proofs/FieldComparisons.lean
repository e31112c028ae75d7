import Polystore.Proofs.CheckedExprs
import Polystore.Proofs.DoubleOrder
import Polystore.Proofs.EqualValues
import Polystore.Proofs.TermMeaning

/-
  Polystore/Proofs/FieldComparisons.lean
  ======================================
  **Comparisons of a field with a value in normal form.**  A comparison that is
  recognized is known further on by its normal form only: the field without a cast on
  the left, and on the right the value as this field sees it.

    * Turned around, a comparison has the same answer (`compareValues_reverse`).  Among
      doubles this is so because they are compared by their positions.
    * Beside a double that is a whole number, a field of integers may be compared with
      the integer.  Only short numbers are taken, and a short integer is told by its
      double from all the others (`compare?_widened`).
    * Beside a literal that is an integer the cast is dropped whatever its length.  Two
      long integers may have one double (`SameDouble`), and then they are equal for the
      comparison, but not for its normal form.

  Apart from that the two have the same value, or both fail (`eval_normalized`).
-/

namespace Polystore

namespace Value

/-! ### Comparing doubles -/

theorem compareDouble_eq_position (x y : Float) : compareDouble x y =
    (Number.position? x).bind fun p => (Number.position? y).map fun q => p.order q := by
  unfold compareDouble
  simp only [Number.lt_iff, Number.beq_iff, Number.compare_toModel]
  cases Number.position? x with
  | none => simp
  | some p =>
    cases Number.position? y with
    | none => simp
    | some q =>
      have hswap : q.order p = (p.order q).swap := Std.OrientedCmp.eq_swap
      cases hpq : p.order q <;> simp [hswap, hpq]

theorem compareDouble_swap (x y : Float) :
    compareDouble y x = (compareDouble x y).map Ordering.swap := by
  rw [compareDouble_eq_position, compareDouble_eq_position]
  cases Number.position? x with
  | none => cases Number.position? y <;> rfl
  | some p =>
    cases Number.position? y with
    | none => rfl
    | some q => exact congrArg some Std.OrientedCmp.eq_swap

/-- Swapping the operands swaps the answer, also of doubles. -/
theorem compare?_oriented (a b : Value) : b.compare? a = (a.compare? b).map Ordering.swap := by
  cases a <;> cases b <;>
    first
    | exact compare?_swap rfl rfl
    | exact compareDouble_swap _ _
    | rfl

/-- Doubles of integers are compared as the integers are, unless they are equal. -/
theorem compareDouble_ofInt (v w : Int64) :
    compareDouble (Float.ofInt v.toInt) (Float.ofInt w.toInt) = some .eq ∨
      compareDouble (Float.ofInt v.toInt) (Float.ofInt w.toInt) =
        some (compare v.toInt w.toInt) := by
  -- the order is kept, and so only `.eq` is possible beside the order of the integers
  have hle {v w : Int64} (h : v ≤ w) : ∃ o,
      compareDouble (Float.ofInt v.toInt) (Float.ofInt w.toInt) = some o ∧ o.isLE = true := by
    obtain ⟨p, q, hp, hq, ho⟩ := Number.le_iff_position.mp (Number.ofInt_mono h)
    refine ⟨p.order q, ?_, ho⟩
    rw [compareDouble_eq_position, hp, hq]
    rfl
  rcases Int.lt_trichotomy v.toInt w.toInt with hlt | heq | hgt
  · obtain ⟨o, ho, hisLE⟩ := hle (Int64.le_of_lt (Int64.lt_iff_toInt_lt.mpr hlt))
    rw [ho, Int.compare_eq_lt.mpr hlt]
    cases o with
    | lt => exact .inr rfl
    | eq => exact .inl rfl
    | gt => cases hisLE
  · rw [Int64.toInt_inj.mp heq, compareDouble_eq_iff]
    have hself : Float.ofInt w.toInt ≤ Float.ofInt w.toInt := Number.ofInt_mono (Int64.le_refl w)
    exact .inl (Number.beq_of_le_of_le hself hself)
  · obtain ⟨o, ho, hisLE⟩ := hle (Int64.le_of_lt (Int64.lt_iff_toInt_lt.mpr hgt))
    rw [compareDouble_swap, ho, Int.compare_eq_gt.mpr hgt]
    cases o with
    | lt => exact .inr rfl
    | eq => exact .inl rfl
    | gt => cases hisLE

/-- Two integers that are rounded to the same double. -/
def SameDouble (v w : Int64) : Prop :=
  v ≠ w ∧ (Float.ofInt v.toInt == Float.ofInt w.toInt) = true

theorem compareDouble_of_not_sameDouble {v w : Int64} (h : ¬SameDouble v w) :
    compareDouble (Float.ofInt v.toInt) (Float.ofInt w.toInt) =
      some (compare v.toInt w.toInt) := by
  rcases compareDouble_ofInt v w with heq | hcompare
  · have hvw : v = w := by
      by_contra hne
      exact h ⟨hne, compareDouble_eq_iff.mp heq⟩
    rw [heq, hvw, Int.compare_eq_eq.mpr rfl]
  · exact hcompare

end Value

/-- A double is taken for an integer only if it is short. -/
theorem FieldComparison.exactInteger?_double {x : Float} {n : Int64}
    (h : exactInteger? (.double x) = some n) :
    ∃ i, (Number.parts x).whole? = some i ∧ i.natAbs < 2 ^ 53 ∧ n = Int64.ofInt i := by
  rw [exactInteger?] at h
  split at h
  · split at h
    · exact ⟨_, ‹_›, ‹_›, (Option.some.inj h).symm⟩
    · cases h
  · cases h

namespace Value

/-- A literal that is taken for an integer compares with a field that is widened as the
    integer does with the field itself. -/
theorem compare?_widened {b : Value} {v n : Int64}
    (hexact : FieldComparison.exactInteger? b = some n)
    (hlong : b = .bigint n → ¬SameDouble v n) :
    (double (Float.ofInt v.toInt)).compare? b = (bigint v).compare? (.bigint n) := by
  cases b with
  | bigint m =>
    obtain rfl := Option.some.inj hexact
    exact compareDouble_of_not_sameDouble (hlong rfl)
  | double y =>
    obtain ⟨i, hwhole, hshort, rfl⟩ := FieldComparison.exactInteger?_double hexact
    have hi : (Int64.ofInt i).toInt = i := Int64.toInt_ofInt_of_le (by omega) (by omega)
    have hnot : ¬SameDouble v (.ofInt i) := by
      rintro ⟨hne, heq⟩
      have hlong := (Number.long_of_beq hne heq).2
      omega
    have hposition : Number.position? y = Number.position? (Float.ofInt (Int64.ofInt i).toInt) := by
      rw [hi]
      exact Number.position?_of_whole hwhole hshort
    change compareDouble _ y = _
    rw [compareDouble_eq_position, hposition, ← compareDouble_eq_position]
    exact compareDouble_of_not_sameDouble hnot
  | _ => cases hexact

end Value

/-! ### Evaluating comparisons -/

namespace Expr

variable {row params : List Value} {op : Comparison} {a b v : Value} {l r : Expr} {t u : DataType}

theorem compareValues_of_compare? {o : Ordering} (h : a.compare? b = some o) :
    compareValues op a b = .ok (.bool (op.holds o)) := by
  obtain ⟨ha, hb⟩ := Value.isNull_of_compare? h
  simp [compareValues, ha, hb, h]

/-- Turned around, a comparison has the same answer. -/
theorem compareValues_reverse :
    compareValues op.reverse b a = .ok v ↔ compareValues op a b = .ok v := by
  unfold compareValues
  rw [Bool.or_comm, Value.compare?_oriented a b]
  split
  · exact .rfl
  · cases a.compare? b with
    | none => simp
    | some o => simp [Comparison.holds_reverse]

theorem eval_reverse : (call (.compare op.reverse) [r, l] t).eval row params = .ok v ↔
    (call (.compare op) [l, r] u).eval row params = .ok v := by
  rw [eval_comparison_eq_ok, eval_comparison_eq_ok, exists_comm]
  simp only [compareValues_reverse, and_left_comm]

theorem eval_comparison (hl : l.eval row params = .ok a) (hr : r.eval row params = .ok b) :
    (call (.compare op) [l, r] t).eval row params = compareValues op a b := by
  simp [eval, eval.evalAll, hl, hr, applyValues, pair, bind, Except.bind, pure, Except.pure]

theorem eval_cast {e : Expr} : (call .cast [e] t).eval row params =
    (do castValue (← e.eval row params) t) := by
  cases h : e.eval row params <;>
    simp [eval, eval.evalAll, h, applyValues, single, bind, Except.bind, pure, Except.pure]

/-- The fields that are read hold `NULL` or values of the types they are declared with. -/
def FitsRow (row : List Value) (e : Expr) : Prop :=
  ∀ i t, (field i t).OccursIn e → ∀ v, row[i]? = some v → t = .any ∨ v.HasType t

theorem FitsRow.operand {op : Operator} {operands : List Expr} {e : Expr}
    (h : FitsRow row (call op operands t)) (he : e ∈ operands) : FitsRow row e :=
  fun i s hi => h i s (.operand he hi)

/-- A cast to the declared type changes nothing. -/
theorem eval_cast_field {i : Nat} (h : FitsRow row (call .cast [field i t] t)) :
    (call .cast [field i t] t).eval row params = (field i t).eval row params := by
  rw [eval_cast]
  cases hv : row[i]? with
  | none => rw [eval_field_missing hv]; rfl
  | some v =>
    rw [eval_field hv]
    have htype := h i t (.operand List.mem_cons_self .self) v hv
    have hkept : (v.isNull || t = .any || v.dataType = t) = true := by
      rcases htype with h | h | h <;> simp [h]
    exact if_pos hkept

end Expr

/-! ### The normal form -/

namespace FieldComparison

open Value (SameDouble)

/-- The field, declared with any type, on the left, and its right-hand side. -/
def normalForm (c : FieldComparison) (t u : DataType) : Expr :=
  .call (.compare c.op) [.field c.field t, c.operand] u

/-- The field of integers as a double. -/
def widened (i : Nat) : Expr := .call .cast [.field i .bigint] .double

variable {row params : List Value} {op : Comparison} {i : Nat} {side operand value : Expr}
  {t u w : DataType}

theorem eval_widened {a : Value} (h : row[i]? = some a) :
    (widened i).eval row params = Expr.castValue a .double := by
  rw [widened, Expr.eval_cast, Expr.eval_field h]
  rfl

/-- A comparison with the field on the left may be replaced by its normal form. -/
theorem eval_uncast (huncast : Uncast i operand side value) (hrow : side.FitsRow row)
    (hlong : ∀ v n t, side = widened i → operand = .literal (.bigint n) t →
      row[i]? = some (.bigint v) → ¬SameDouble v n) (a : Value) :
    (Expr.call (.compare op) [side, operand] u).eval row params = .ok a ↔
      (Expr.call (.compare op) [.field i t, value] w).eval row params = .ok a := by
  cases huncast with
  | field =>
    rw [Expr.eval_comparison_eq_ok, Expr.eval_comparison_eq_ok]
    exact .rfl
  | sameType =>
    rw [Expr.eval_comparison_eq_ok, Expr.eval_comparison_eq_ok, Expr.eval_cast_field hrow]
    exact .rfl
  | @widened b n hoperand hexact =>
    obtain ⟨s, rfl⟩ := Expr.asLiteral?_eq_some hoperand
    cases hv : row[i]? with
    | none =>
      rw [Expr.eval_comparison_eq_ok, Expr.eval_comparison_eq_ok, Expr.eval_cast,
        Expr.eval_field_missing hv, Expr.eval_field_missing hv]
      simp [bind, Except.bind]
    | some v =>
      have htype : v.HasType .bigint :=
        (hrow i .bigint (.operand List.mem_cons_self .self) v hv).resolve_left (by decide)
      rw [Expr.eval_comparison (Expr.eval_field hv) rfl]
      rcases htype.bigint_cases with rfl | ⟨k, rfl⟩
      · have hside : (widened i).eval row params = .ok .null := eval_widened hv
        rw [← widened, Expr.eval_comparison hside rfl]
        exact .rfl
      · have hside : (widened i).eval row params = .ok (.double (Float.ofInt k.toInt)) :=
          eval_widened hv
        have hcompare := Value.compare?_widened hexact fun hb =>
          hlong k n s rfl (by rw [hb]) hv
        rw [← widened, Expr.eval_comparison hside rfl,
          Expr.compareValues_of_compare? hcompare, Expr.compareValues_of_compare? rfl]

/-- On the row a widened field is compared with another integer that has its double. -/
inductive Blurred (row : List Value) (i : Nat) (v n : Int64) : Expr → Prop
  | left {op : Comparison} {t u : DataType} (hv : row[i]? = some (.bigint v))
    (hsame : SameDouble v n) :
    Blurred row i v n (.call (.compare op) [widened i, .literal (.bigint n) t] u)
  | right {op : Comparison} {t u : DataType} (hv : row[i]? = some (.bigint v))
    (hsame : SameDouble v n) :
    Blurred row i v n (.call (.compare op) [.literal (.bigint n) t, widened i] u)

variable {e : Expr} {c : FieldComparison} {v n : Int64}

theorem eval_of_blurred (h : ofExpr? e = some c) (hblurred : Blurred row c.field v n e)
    (params : List Value) (t u : DataType) :
    e.eval row params = .ok (.bool (c.op.holds .eq)) ∧
      (c.normalForm t u).eval row params = .ok (.bool (c.op.holds (compare v.toInt n.toInt))) := by
  have hwidened {i : Nat} (hv : row[i]? = some (.bigint v)) :
      (widened i).eval row params = .ok (.double (Float.ofInt v.toInt)) := eval_widened hv
  generalize hi : c.field = i at hblurred
  cases hblurred with
  | @left op s s' hv hsame =>
    obtain rfl : (⟨i, op, .lit (.bigint n)⟩ : FieldComparison) = c := Option.some.inj h
    have heq : (Value.double (Float.ofInt v.toInt)).compare? (.bigint n) = some .eq :=
      Value.compareDouble_eq_iff.mpr hsame.2
    constructor
    · rw [Expr.eval_comparison (hwidened hv) rfl, Expr.compareValues_of_compare? heq]
    · rw [normalForm, Expr.eval_comparison (Expr.eval_field hv) rfl,
        Expr.compareValues_of_compare? rfl]
  | @right op s s' hv hsame =>
    obtain rfl : (⟨i, op.reverse, .lit (.bigint n)⟩ : FieldComparison) = c := Option.some.inj h
    have heq : (Value.bigint n).compare? (.double (Float.ofInt v.toInt)) = some .eq :=
      Value.compareDouble_eq_iff.mpr (Number.beq_symm hsame.2)
    constructor
    · rw [Expr.eval_comparison rfl (hwidened hv), Expr.compareValues_of_compare? heq,
        ← Comparison.holds_reverse]
      rfl
    · rw [normalForm, Expr.eval_comparison (Expr.eval_field hv) rfl,
        Expr.compareValues_of_compare? rfl]

theorem Blurred.sameDouble (h : Blurred row i v n e) : SameDouble v n := by
  cases h <;> assumption

/-- Recognizing a comparison does not change its answer, except beside long integers:
    where a widened field holds one integer and is compared with another one that has
    the same double, the two are taken for equal before and told apart after. -/
theorem eval_normalForm (h : ofExpr? e = some c) (hrow : e.FitsRow row) (params : List Value)
    (t u : DataType) :
    (∀ v n, Blurred row c.field v n e →
      (2 ^ 53 ≤ v.toInt.natAbs ∧ 2 ^ 53 ≤ n.toInt.natAbs) ∧
      e.eval row params = .ok (.bool (c.op.holds .eq)) ∧
      (c.normalForm t u).eval row params =
        .ok (.bool (c.op.holds (compare v.toInt n.toInt)))) ∧
    ((∀ v n, ¬Blurred row c.field v n e) →
      ∀ a, e.eval row params = .ok a ↔ (c.normalForm t u).eval row params = .ok a) := by
  constructor
  · intro v n hblurred
    exact ⟨Number.long_of_beq hblurred.sameDouble.1 hblurred.sameDouble.2,
      eval_of_blurred h hblurred params t u⟩
  · intro hclear a
    obtain ⟨op, left, right, s, rfl, hdirect | hdirect⟩ := direct?_of_ofExpr? h
    · obtain ⟨hop, huncast⟩ := uncast_of_direct? hdirect
      rw [normalForm, hop]
      refine eval_uncast huncast (hrow.operand (by simp)) ?_ a
      rintro v n s' rfl rfl hv hsame
      exact hclear v n (.left hv hsame)
    · obtain ⟨hop, huncast⟩ := uncast_of_direct? hdirect
      rw [normalForm, hop, ← Expr.eval_reverse (t := s)]
      refine eval_uncast huncast (hrow.operand (by simp)) ?_ a
      rintro v n s' rfl rfl hv hsame
      exact hclear v n (.right hv hsame)

/-- The double `2.0` is less than the field `$1`, widened. -/
def aboveTwo : Expr :=
  .call (.compare .lt) [.lit (.double (Float.ofBits 0x4000000000000000)), widened 1] .bool

theorem eval_normalForm_aboveTwo :
    let c : FieldComparison := ⟨1, .gt, .lit (.bigint 2)⟩
    let row := [Value.bool true, .bigint 7]
    ofExpr? aboveTwo = some c ∧ aboveTwo.FitsRow row ∧
      (∀ v n, ¬Blurred row c.field v n aboveTwo) ∧
      (c.normalForm .bigint .bool).eval row [] = .ok (.bool true) := by
  intro c row
  have h : ofExpr? aboveTwo = some c := rfl
  have hrow : aboveTwo.FitsRow row := by
    intro i t hfield v hv
    have hi : i = 1 ∧ t = .bigint := by
      simpa [aboveTwo, widened, Expr.lit] using hfield
    obtain ⟨rfl, rfl⟩ := hi
    obtain rfl := Option.some.inj hv
    exact .inr (.inr rfl)
  have hclear : ∀ v n, ¬Blurred row c.field v n aboveTwo := by
    intro v n hblurred
    cases hblurred
  exact ⟨h, hrow, hclear, ((eval_normalForm h hrow [] .bigint .bool).2 hclear _).mp rfl⟩

/-- The integer `2 ^ 53 + 1` has the double of `2 ^ 53`, and so the comparison is `TRUE`
    and its normal form `FALSE`. -/
theorem normalForm_tells_apart :
    let e := Expr.call (.compare .eq) [widened 0, .lit (.bigint 9007199254740993)] .bool
    let c : FieldComparison := ⟨0, .eq, .lit (.bigint 9007199254740993)⟩
    ofExpr? e = some c ∧ e.eval [.bigint 9007199254740992] [] = .ok (.bool true) ∧
      (c.normalForm .bigint .bool).eval [.bigint 9007199254740992] [] = .ok (.bool false) := by
  intro e c
  have h : ofExpr? e = some c := rfl
  have hsame : SameDouble 9007199254740992 9007199254740993 := ⟨by decide, by decide +kernel⟩
  have hblurred : Blurred [.bigint 9007199254740992] c.field _ _ e := .left rfl hsame
  have hcompare : compare (9007199254740992 : Int64).toInt (9007199254740993 : Int64).toInt =
      .lt := by decide
  have hboth := eval_of_blurred h hblurred [] .bigint .bool
  rw [hcompare] at hboth
  exact ⟨h, hboth⟩

end FieldComparison

end Polystore
