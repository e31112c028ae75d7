import Polystore.Value

/-
  Polystore/Proofs/ValueOrder.lean
  ================================
  **The order of values that are not doubles.**  Without doubles, whether two
  values can be compared depends on their types only, and on each type the order
  is total.  Swapping the operands swaps the answer (`compare?_swap`), two
  comparisons in a row give a third one (`compare?_chain`), and values that are
  equal for the program are the same value (`eq_of_beq`).
-/

namespace Polystore

/-! ### Comparing twice -/

/-- What the order of `a` and `b` and that of `b` and `c` say about the order of
    `a` and `c`. -/
def OrderingChain (ab bc ac : Ordering) : Prop :=
  (ab = .eq → ac = bc) ∧ (bc = .eq → ac = ab) ∧ (ab = bc → ac = ab)

/-- Every comparison that is transitive chains. -/
theorem orderingChain_of_transCmp {α : Type} (cmp : α → α → Ordering) [Std.TransCmp cmp]
    (a b c : α) : OrderingChain (cmp a b) (cmp b c) (cmp a c) := by
  refine ⟨fun h => Std.TransCmp.congr_left h, fun h => (Std.TransCmp.congr_right h).symm, ?_⟩
  intro h
  cases hab : cmp a b with
  | lt => exact Std.TransCmp.lt_trans hab (h ▸ hab)
  | eq => exact Std.TransCmp.eq_trans hab (h ▸ hab)
  | gt => exact Std.TransCmp.gt_trans hab (h ▸ hab)

namespace Value

/-- Whether the value is a double. -/
def isDouble : Value → Bool
  | double _ => true
  | _ => false

/-! ### Byte strings -/

/-- The order of bytes. -/
abbrev compareByte : UInt8 → UInt8 → Ordering := compareOn UInt8.toNat

/-- Byte strings are compared like words. -/
theorem compareBytes_eq_compareLex (a b : List UInt8) :
    compareBytes a b = List.compareLex compareByte a b := by
  induction a generalizing b with
  | nil => cases b <;> rfl
  | cons x xs ih =>
    cases b with
    | nil => rfl
    | cons y ys =>
      simp only [compareBytes, List.compareLex_cons_cons, ih, compareByte, compareOn]

theorem compareBytes_swap (a b : List UInt8) :
    compareBytes b a = (compareBytes a b).swap := by
  rw [compareBytes_eq_compareLex, compareBytes_eq_compareLex]
  exact Std.OrientedCmp.eq_swap

theorem compareBytes_chain (a b c : List UInt8) :
    OrderingChain (compareBytes a b) (compareBytes b c) (compareBytes a c) := by
  simp only [compareBytes_eq_compareLex]
  exact orderingChain_of_transCmp _ a b c

theorem eq_of_compareBytes {as bs : List UInt8} (h : compareBytes as bs = .eq) : as = bs := by
  induction as generalizing bs with
  | nil =>
    cases bs with
    | nil => rfl
    | cons => cases h
  | cons x as ih =>
    cases bs with
    | nil => cases h
    | cons y bs =>
      obtain ⟨hfirst, hrest⟩ := Ordering.then_eq_eq.mp h
      rw [UInt8.toNat_inj.mp (Nat.compare_eq_eq.mp hfirst), ih hrest]

theorem compareBytes_self (as : List UInt8) : compareBytes as as = .eq := by
  rw [compareBytes_eq_compareLex]
  exact Std.ReflCmp.compare_self

/-! ### Values -/

theorem compare?_swap {a b : Value} (ha : a.isDouble = false) (hb : b.isDouble = false) :
    b.compare? a = (a.compare? b).map Ordering.swap := by
  cases a <;> cases b <;>
    first
    | rfl
    | (simp only [isDouble, Bool.true_eq_false] at ha hb; done)
    | (simp only [compare?, Option.map_some, Option.some.injEq]
       first
       | exact Std.OrientedCmp.eq_swap
       | exact compareBytes_swap _ _)

theorem compare?_chain {a b c : Value} {ab bc : Ordering}
    (ha : a.isDouble = false) (hb : b.isDouble = false) (hc : c.isDouble = false)
    (hab : a.compare? b = some ab) (hbc : b.compare? c = some bc) :
    ∃ ac, a.compare? c = some ac ∧ OrderingChain ab bc ac := by
  cases a <;> cases b <;> simp only [compare?, isDouble, reduceCtorEq, Bool.true_eq_false,
    Option.some.injEq] at ha hb hab <;> cases c <;>
    simp only [compare?, isDouble, reduceCtorEq, Bool.true_eq_false, Option.some.injEq] at hc hbc
  all_goals
    subst hab hbc
    refine ⟨_, rfl, ?_⟩
    first
    | exact orderingChain_of_transCmp compare _ _ _
    | exact compareBytes_chain _ _ _

/-- Only values that are not `NULL` can be compared. -/
theorem isNull_of_compare? {a b : Value} {o : Ordering} (h : a.compare? b = some o) :
    a.isNull = false ∧ b.isNull = false := by
  cases a <;> cases b <;> simp_all [compare?, isNull]

theorem compare?_self {a : Value} (ha : a.isDouble = false) (hnull : a.isNull = false) :
    a.compare? a = some .eq := by
  cases a
  case null => cases hnull
  case double => cases ha
  case binary bytes => exact congrArg some (compareBytes_self bytes)
  all_goals exact congrArg some Std.ReflCmp.compare_self

/-- Values of one type can be compared, doubles and `NULL` apart. -/
theorem compare?_of_dataType {a b : Value} (hb : b.isDouble = false) (hnull : b.isNull = false)
    (htype : a.dataType = b.dataType) : ∃ o, a.compare? b = some o := by
  cases a <;> cases b <;> cases htype
  case null.null => cases hnull
  case double.double => cases hb
  all_goals exact ⟨_, rfl⟩

/-- Values that the program takes for equal are the same. -/
theorem eq_of_beq {a b : Value} (ha : a.isDouble = false) (h : (a == b) = true) : a = b := by
  cases a <;> cases b <;>
    first
    | rfl
    | (exact absurd h (by decide))
    | (exact congrArg _ (LawfulBEq.eq_of_beq h))
    | (simp only [isDouble, Bool.true_eq_false] at ha; done)
    | simp only [BEq.beq, instBEqValue.beq, Bool.false_eq_true] at h

end Value

end Polystore
