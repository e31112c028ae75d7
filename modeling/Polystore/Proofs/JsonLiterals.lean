import Polystore.Proofs.EqualValues
import Polystore.Proofs.JsonComparison
import Polystore.Pushdown.Document

/-
  Polystore/Proofs/JsonLiterals.lean
  ==================================
  **Constants in query documents.**  On one type the JSON form of a value tells it from
  all values that it is not equal to (`json_beq_iff`), and it is not null: only the
  doubles that JSON has no number for are null, all of them alike.  A comparison with a
  constant becomes a condition of its own form (`compared`), whatever the constant is:
  the operator is never one of those that test for null, and the constant can be read
  off the condition.  So a pushed comparison with a value that is shown does not become
  a test for null, and it is no other comparison with another constant.  A double that is
  not shown leaves null in its place: all of these are compared alike, and equality with
  one of them is the test for null (`json_keeps_constants`).
-/

namespace Polystore

/-! ### Constants -/

namespace Json

/-- Neither null nor a nested value. -/
def isConstant : Json → Bool
  | .bool _ | .int _ | .float _ | .string _ => true
  | .null | .array _ | .object _ => false

theorem single_beq_single {n m : String} {a b : Json} :
    (single n a == single m b) = true ↔ n = m ∧ (a == b) = true := by
  simp [beq_eq, single, Json.beq, Json.beq.beqMembers]

theorem constant_beq_single {v a : Json} {n : String} (hv : v.isConstant = true) :
    (v == single n a) = false ∧ (single n a == v) = false := by
  cases v <;> first | exact ⟨rfl, rfl⟩ | cases hv

/-- Null or a constant. -/
def isScalar : Json → Bool
  | .null => true
  | v => v.isConstant

theorem eq_null_of_isScalar {v : Json} (hv : v.isScalar = true) (hc : ¬v.isConstant = true) :
    v = .null := by
  cases v <;> first | rfl | exact absurd rfl hc | cases hv

theorem null_beq_constant {v : Json} (hv : v.isConstant = true) :
    (v == .null) = false ∧ (Json.null == v) = false := by
  cases v <;> first | exact ⟨rfl, rfl⟩ | cases hv

theorem pair_null_beq {v w : Json} :
    (Json.array [v, .null] == .array [w, .null]) = true ↔ (v == w) = true := by
  simp [beq_eq, Json.beq, Json.beq.beqItems]

theorem pair_beq_singleton (v w : Json) :
    (Json.array [v, .null] == .array [w]) = false ∧ (Json.array [w] == .array [v, .null]) = false := by
  simp [beq_eq, Json.beq, Json.beq.beqItems]

end Json

namespace Value

variable {a b : Value}

theorem json_of_not_isShown (ha : a.isShown = false) : a.json = .null := by
  cases a with
  | double x =>
    have hfinite : ¬x.isFinite = true := Bool.eq_false_iff.mp ha
    rw [json, if_neg hfinite]
  | _ => cases ha

theorem isScalar_json (a : Value) : a.json.isScalar = true := by
  cases a with
  | double x =>
    rw [json]
    split <;> rfl
  | _ => rfl

theorem json_null_iff (hnull : a.isNull = false) : a.json = .null ↔ a.isShown = false := by
  refine ⟨fun h => ?_, json_of_not_isShown⟩
  cases hshown : a.isShown with
  | false => rfl
  | true =>
    rw [(json_eq_null_iff hshown).mp h] at hnull
    cases hnull

theorem json_beq_iff_of_exact (hb : b.isDouble = false) (hnull : b.isNull = false)
    (htype : a.dataType = b.dataType) :
    (a.json == b.json) = true ↔ a.compare? b = some .eq := by
  constructor
  · intro hbeq
    rw [← same_json hb hnull fun _ => htype, Json.same, hbeq, Bool.true_or]
  · intro heq
    have ha : a.isDouble = false := by
      cases a <;> cases b <;> first | rfl | cases htype
      cases hb
    rcases eq_or_asDouble?_eq heq with rfl | ⟨hdouble, -⟩
    · exact Json.beq_self (isPlain_json hb)
    · rw [ha, hb] at hdouble
      rcases hdouble with hdouble | hdouble <;> cases hdouble

theorem isFinite_congr {x y : Float} (h : (x == y) = true) : x.isFinite = y.isFinite := by
  rcases Number.eq_or_zeros_of_beq h with rfl | ⟨s, t, hx, hy⟩
  · rfl
  · change x.toModel.unpack.isFinite = y.toModel.unpack.isFinite
    rw [hx, hy]
    rfl

theorem json_beq_iff_double (x y : Float) :
    ((double x).json == (double y).json) = true ↔
      (double x).compare? (double y) = some .eq ∨ x.isFinite = false ∧ y.isFinite = false := by
  have heq : (double x).compare? (double y) = some .eq ↔ (x == y) = true := compareDouble_eq_iff
  rw [heq, json, json]
  cases hx : x.isFinite <;> cases hy : y.isFinite
  case false.false => simp [Json.beq_eq, Json.beq]
  case true.true => simp [Json.beq_eq, Json.beq]
  -- doubles that compare equal are both finite or neither is
  all_goals
    have hne : ¬(x == y) = true := by
      intro hbeq
      have hsame := isFinite_congr hbeq
      rw [hx, hy] at hsame
      cases hsame
    simp [Json.beq_eq, Json.beq, hne]

/-- The JSON forms of two values of one type are the same only when the values are equal,
    or when JSON has no number for either. -/
theorem json_beq_iff (hnull : b.isNull = false) (htype : a.dataType = b.dataType) :
    (a.json == b.json) = true ↔
      a.compare? b = some .eq ∨ a.isShown = false ∧ b.isShown = false := by
  cases hb : b.isDouble with
  | true =>
    obtain ⟨y, rfl⟩ : ∃ y, b = double y := by
      cases b <;> first | exact ⟨_, rfl⟩ | cases hb
    obtain ⟨x, rfl⟩ : ∃ x, a = double x := by
      cases a <;> first | exact ⟨_, rfl⟩ | cases htype
    exact json_beq_iff_double x y
  | false =>
    rw [json_beq_iff_of_exact hb hnull htype, isShown_of_exact hb]
    simp

end Value

namespace Document

variable {ctx : PushContext} {i j : Nat} {op op' : Comparison} {v w : Json} {a b : Value}

/-! ### The conditions of comparisons -/

/-- The operator that a comparison is written with. -/
def operator : Comparison → String
  | .eq => "$eq"
  | .ne => "$nin"
  | .gt => "$gt"
  | .ge => "$gte"
  | .lt => "$lt"
  | .le => "$lte"

/-- What it is written with; null is excluded with a constant. -/
def argument (op : Comparison) (v : Json) : Json :=
  if op = .ne then .array (if v.isConstant = true then [v, .null] else [.null]) else v

/-- The condition that a comparison with a constant or null puts on its field. -/
def compared (op : Comparison) (v : Json) : Json :=
  if op = .eq ∧ v.isConstant = true then v else .single (operator op) (argument op v)

/-- A single term is the condition of its field.  With a value, null is excluded. -/
theorem branch_singleton (t : Term) : branch ctx [t] = .single (ctx.name t.field)
    (condition (match t with
      | .ne _ w => exclude .null (exclude w.json [])
      | t => addTerm t [])) := by
  cases t with
  | ne i w =>
    have hsame : excludeNulls ctx [.ne i w] (addTerms ctx [.ne i w]) =
        [(ctx.name i, exclude .null (exclude w.json []))] := if_pos rfl
    rw [branch, hsame]
    rfl
  | _ => rfl

theorem branch_ofComparison (ctx : PushContext) (i : Nat) (op : Comparison) (a : Value) :
    branch ctx [.ofComparison i op (.literal a)] = .single (ctx.name i) (compared op a.json) := by
  rw [branch_singleton]
  have ha := Value.isScalar_json a
  have hjson : (TermValue.literal a).json = a.json := rfl
  generalize a.json = v at ha hjson
  cases op <;> simp only [Term.ofComparison, addTerm, hjson, bound] <;>
    cases v <;> first | rfl | cases ha

/-! ### Telling conditions apart -/

theorem operator_injective (h : operator op = operator op') : op = op' := by
  cases op <;> cases op' <;> simp_all [operator]

theorem argument_beq_argument (hv : v.isScalar = true) (hw : w.isScalar = true) :
    (argument op v == argument op w) = true ↔ (v == w) = true := by
  unfold argument
  by_cases hne : op = .ne
  · rw [if_pos hne, if_pos hne]
    by_cases hcv : v.isConstant = true <;> by_cases hcw : w.isConstant = true
    · rw [if_pos hcv, if_pos hcw]
      exact Json.pair_null_beq
    · obtain rfl := Json.eq_null_of_isScalar hw hcw
      rw [if_pos hcv, if_neg hcw, (Json.pair_beq_singleton v .null).1, (Json.null_beq_constant hcv).1]
    · obtain rfl := Json.eq_null_of_isScalar hv hcv
      rw [if_neg hcv, if_pos hcw, (Json.pair_beq_singleton w .null).2, (Json.null_beq_constant hcw).2]
    · obtain rfl := Json.eq_null_of_isScalar hv hcv
      obtain rfl := Json.eq_null_of_isScalar hw hcw
      exact iff_of_true rfl rfl
  · rw [if_neg hne, if_neg hne]

theorem single_argument_beq (hv : v.isScalar = true) (hw : w.isScalar = true) :
    (Json.single (operator op) (argument op v) == .single (operator op') (argument op' w)) = true ↔
      op = op' ∧ (v == w) = true := by
  rw [Json.single_beq_single]
  constructor
  · rintro ⟨hname, hargument⟩
    obtain rfl := operator_injective hname
    exact ⟨rfl, (argument_beq_argument hv hw).mp hargument⟩
  · rintro ⟨rfl, hvw⟩
    exact ⟨rfl, (argument_beq_argument hv hw).mpr hvw⟩

/-- A bare constant is the same as another one only, and null is never written bare. -/
theorem compared_beq_compared (hv : v.isScalar = true) (hw : w.isScalar = true) :
    (compared op v == compared op' w) = true ↔ op = op' ∧ (v == w) = true := by
  unfold compared
  by_cases hbare : op = .eq ∧ v.isConstant = true <;>
    by_cases hbare' : op' = .eq ∧ w.isConstant = true
  · rw [if_pos hbare, if_pos hbare', hbare.1, hbare'.1]
    simp
  · rw [if_pos hbare, if_neg hbare', (Json.constant_beq_single hbare.2).1]
    refine iff_of_false Bool.false_ne_true ?_
    rintro ⟨rfl, hvw⟩
    obtain rfl := Json.eq_null_of_isScalar hw fun hc => hbare' ⟨hbare.1, hc⟩
    rw [(Json.null_beq_constant hbare.2).1] at hvw
    cases hvw
  · rw [if_neg hbare, if_pos hbare', (Json.constant_beq_single hbare'.2).2]
    refine iff_of_false Bool.false_ne_true ?_
    rintro ⟨rfl, hvw⟩
    obtain rfl := Json.eq_null_of_isScalar hv fun hc => hbare ⟨hbare'.1, hc⟩
    rw [(Json.null_beq_constant hbare'.2).2] at hvw
    cases hvw
  · rw [if_neg hbare, if_neg hbare']
    exact single_argument_beq hv hw

/-- The test for null is the equality with null. -/
theorem branch_isNull (ctx : PushContext) (j : Nat) :
    branch ctx [.isNull j] = .single (ctx.name j) (compared .eq .null) := by
  rw [branch_singleton]
  rfl

/-- No comparison is written with the operator under which null alone is excluded. -/
theorem compared_beq_isNotNull (op : Comparison) (v : Json) :
    (compared op v == .single "$ne" .null) = false := by
  unfold compared
  by_cases hbare : op = .eq ∧ v.isConstant = true
  · rw [if_pos hbare]
    exact (Json.constant_beq_single hbare.2).1
  · have hname : operator op ≠ "$ne" := by
      cases op <;> simp [operator]
    rw [if_neg hbare, ← Bool.not_eq_true, Json.single_beq_single]
    exact fun h => hname h.1

/-- A value other than `NULL` is null in JSON exactly when it is a double that JSON has no
    number for, and on one type its form tells it from all values that it is not equal
    to, these doubles apart.  Comparisons with two values are written alike only if they
    compare fields of one name, in the same way and with values of one form.  Equality
    with a value that is not shown is the test for null, and no other comparison is; in
    general such a value is compared as null. -/
theorem json_keeps_constants (ha : a.isNull = false) (hb : b.isNull = false)
    (htype : a.dataType = b.dataType) :
    (a.json = .null ↔ a.isShown = false) ∧
    ((a.json == b.json) = true ↔
      a.compare? b = some .eq ∨ a.isShown = false ∧ b.isShown = false) ∧
    ∀ ctx i op,
      (∀ j, ((branch ctx [.ofComparison i op (.literal a)] == branch ctx [.isNull j]) = true ↔
          ctx.name i = ctx.name j ∧ op = .eq ∧ a.isShown = false) ∧
        (branch ctx [.ofComparison i op (.literal a)] == branch ctx [.isNotNull j]) = false) ∧
      (a.isShown = false → branch ctx [.ofComparison i op (.literal a)] =
        .single (ctx.name i) (.single (operator op) (if op = .ne then .array [.null] else .null))) ∧
      ∀ j op',
        (branch ctx [.ofComparison i op (.literal a)] ==
            branch ctx [.ofComparison j op' (.literal b)]) = true ↔
          ctx.name i = ctx.name j ∧ op = op' ∧
            (a.compare? b = some .eq ∨ a.isShown = false ∧ b.isShown = false) := by
  have hscalar := Value.isScalar_json a
  refine ⟨Value.json_null_iff ha, Value.json_beq_iff hb htype, fun ctx i op => ⟨?_, ?_, ?_⟩⟩
  · intro j
    rw [branch_ofComparison, branch_isNull, branch_singleton (.isNotNull j)]
    constructor
    · rw [Json.single_beq_single, compared_beq_compared hscalar rfl, ← Value.json_null_iff ha]
      refine and_congr_right fun _ => and_congr_right fun _ => ?_
      constructor
      · intro hnull
        refine Json.eq_null_of_isScalar hscalar fun hconstant => ?_
        rw [(Json.null_beq_constant hconstant).1] at hnull
        cases hnull
      · intro hnull
        rw [hnull]
        rfl
    · rw [← Bool.not_eq_true, Json.single_beq_single]
      rintro ⟨-, htest⟩
      exact Bool.eq_false_iff.mp (compared_beq_isNotNull op a.json) htest
  · intro hshown
    rw [branch_ofComparison, Value.json_of_not_isShown hshown]
    cases op <;> rfl
  · intro j op'
    rw [branch_ofComparison, branch_ofComparison, Json.single_beq_single,
      compared_beq_compared hscalar (Value.isScalar_json b), Value.json_beq_iff hb htype]

/-- Two byte strings, one of them a beginning of the other. -/
theorem json_keeps_constants_bytes :
    let a := Value.binary [0]
    let b := Value.binary [0, 0]
    a.isNull = false ∧ b.isNull = false ∧ a.dataType = b.dataType ∧
      ((a.json == b.json) = true ↔
        a.compare? b = some .eq ∨ a.isShown = false ∧ b.isShown = false) := by
  intro a b
  have ha : a.isNull = false := rfl
  have hb : b.isNull = false := rfl
  have htype : a.dataType = b.dataType := rfl
  exact ⟨ha, hb, htype, (json_keeps_constants ha hb htype).2.1⟩

/-- The infinities are both null, and equality with one of them is pushed in full as a test
    for null. -/
theorem json_of_infinities :
    let a := Value.double (Float.ofBits 0x7FF0000000000000)
    let b := Value.double (Float.ofBits 0xFFF0000000000000)
    let ctx : PushContext := { names := ["x"] }
    a.isNull = false ∧ b.isNull = false ∧ a.dataType = b.dataType ∧ a.json = .null ∧
      (a.json == b.json) = true ∧ a.compare? b = some .gt ∧
      branch ctx [.ofComparison 0 .eq (.literal a)] = branch ctx [.isNull 0] ∧
      filter (.apply (.compare .eq) [.field 0 .double, .lit a]) ctx =
        .full ⟨.document, .filter, .json (branch ctx [.isNull 0]), .empty⟩ := by
  intro a b ctx
  have ha : a.json = .null := Value.json_of_not_isShown (by decide +kernel)
  have hb : b.json = .null := Value.json_of_not_isShown (by decide +kernel)
  have hequality : branch ctx [.ofComparison 0 .eq (.literal a)] =
      .single "x" (condition [("$eq", a.json)]) := rfl
  have htest : branch ctx [.ofComparison 0 .eq (.literal a)] = branch ctx [.isNull 0] := by
    rw [hequality, ha]
    rfl
  refine ⟨rfl, rfl, rfl, ha, ?_, by decide +kernel, htest, ?_⟩
  · rw [ha, hb]
    rfl
  · rw [← htest]
    rfl

end Document

end Polystore
