import Polystore.Proofs.KeyCoverage
import Polystore.Proofs.Renumbering

/-
  Polystore/Proofs/FieldSubstitution.lean
  =======================================
  **New numbers for fields are a substitution.**  An expression whose field references
  are replaced reads the fields at the new numbers and the parameters as before.  On a
  row that has the values there it evaluates as before: operands are evaluated in the
  same order, so the first error is the same one, and only an error about a missing field
  names its number (`eval_remap_outcome`).  Moving all references by an offset is the case
  in which the values of the row have moved along.
-/

namespace Polystore.Expr

variable {f : Nat → Nat} {row row' params : List Value} {refs : List Nat} {e : Expr}

/-! ### What an expression reads -/

theorem paramLists_eq_flatMap (es : List Expr) :
    paramList.paramLists es = es.flatMap paramList := by
  induction es with
  | nil => rfl
  | cons e es ih => rw [paramList.paramLists, ih, List.flatMap_cons]

theorem remap_call (op : Operator) (es : List Expr) (t : DataType) :
    (call op es t).remap f = call op (es.map (remap f)) t := by
  have hall : remap.remapAll f es = es.map (remap f) := by
    induction es with
    | nil => rfl
    | cons e es ih => rw [remap.remapAll, ih, List.map_cons]
  rw [remap, hall]

theorem fieldList_remap (f : Nat → Nat) (e : Expr) :
    (e.remap f).fieldList = e.fieldList.map f := by
  induction e using operandInduction with
  | literal v t => rfl
  | field i t => rfl
  | param i t => rfl
  | call op es t ih =>
    calc ((call op es t).remap f).fieldList
        = es.flatMap fun x => (x.remap f).fieldList := by
          rw [remap_call, fieldList, fieldLists_eq_flatMap, List.flatMap_map]
      _ = es.flatMap fun x => x.fieldList.map f := List.flatMap_congr ih
      _ = (call op es t).fieldList.map f := by
          rw [fieldList, fieldLists_eq_flatMap, List.map_flatMap]

theorem paramList_remap (f : Nat → Nat) (e : Expr) : (e.remap f).paramList = e.paramList := by
  induction e using operandInduction with
  | literal v t => rfl
  | field i t => rfl
  | param i t => rfl
  | call op es t ih =>
    calc ((call op es t).remap f).paramList
        = es.flatMap fun x => (x.remap f).paramList := by
          rw [remap_call, paramList, paramLists_eq_flatMap, List.flatMap_map]
      _ = es.flatMap paramList := List.flatMap_congr ih
      _ = (call op es t).paramList := by rw [paramList, paramLists_eq_flatMap]

/-- The fields read are the images of the fields read before. -/
theorem inputRefs_remap (f : Nat → Nat) (e : Expr) :
    (e.remap f).inputRefs = e.inputRefs.renumber f := by
  refine OrdinalSet.ext_contains fun j => ?_
  rw [Bool.eq_iff_iff, contains_inputRefs, fieldList_remap, List.mem_map,
    OrdinalSet.contains_renumber]
  simp only [contains_inputRefs]

/-! ### Outcomes on two rows -/

/-- The outcome on `row'` is the one on `row`, unless both rows miss a field that was read:
    then each outcome is the error that names the field by its number there. -/
inductive CarriesOver (f : Nat → Nat) (refs : List Nat) (row row' : List Value) {α : Type} :
    Except Error α → Except Error α → Prop where
  | same (x : Except Error α) : CarriesOver f refs row row' x x
  | missing {i : Nat} (read : i ∈ refs) (absent : row[i]? = none) (absent' : row'[f i]? = none) :
    CarriesOver f refs row row' (.error (fieldMissing i row.length))
      (.error (fieldMissing (f i) row'.length))

namespace CarriesOver

variable {α β : Type} {x x' : Except Error α}

theorem bind {g g' : α → Except Error β} (hx : CarriesOver f refs row row' x x')
    (hg : ∀ a, CarriesOver f refs row row' (g a) (g' a)) :
    CarriesOver f refs row row' (x >>= g) (x' >>= g') := by
  cases hx with
  | same =>
    cases x with
    | error err => exact .same (.error err)
    | ok a => exact hg a
  | missing read absent absent' => exact .missing read absent absent'

/-- The first outcome that is an error decides on both sides. -/
theorem mapM {g g' : α → Except Error β} {l : List α}
    (h : ∀ a ∈ l, CarriesOver f refs row row' (g a) (g' a)) :
    CarriesOver f refs row row' (l.mapM g) (l.mapM g') := by
  induction l with
  | nil => exact .same (.ok [])
  | cons a l ih =>
    have hl : CarriesOver f refs row row' (l.mapM g) (l.mapM g') := by
      apply ih
      intro b hb
      exact h b (List.mem_cons_of_mem a hb)
    rw [List.mapM_cons, List.mapM_cons]
    exact (h a List.mem_cons_self).bind fun b => hl.bind fun bs => .same (.ok (b :: bs))

/-- Where no field is missing the outcomes are equal. -/
theorem eq_of_present (h : CarriesOver f refs row row' x x') (hrefs : ∀ i ∈ refs, i < row.length) :
    x = x' := by
  cases h with
  | same => rfl
  | missing read absent =>
    have hlong := List.getElem?_eq_none_iff.mp absent
    exact absurd (hrefs _ read) (Nat.not_lt_of_le hlong)

end CarriesOver

/-- An expression with new numbers has the same outcome on a row that has the same values,
    or misses the same fields, under the new numbers. -/
theorem eval_remap_outcome (hreads : e.fieldList ⊆ refs) (hrow : ∀ i ∈ refs, row'[f i]? = row[i]?) :
    CarriesOver f refs row row' (e.eval row params) ((e.remap f).eval row' params) := by
  induction e using operandInduction with
  | literal v t => exact .same _
  | param i t => exact .same _
  | field i t =>
    have hi : i ∈ refs := hreads (List.mem_singleton_self i)
    cases hv : row[i]? with
    | some v =>
      rw [remap, eval_field hv, eval_field ((hrow i hi).trans hv)]
      exact .same _
    | none =>
      have hv' : row'[f i]? = none := (hrow i hi).trans hv
      rw [remap, eval_field_missing hv, eval_field_missing hv']
      exact .missing hi hv hv'
  | call op es t ih =>
    have hoperand : ∀ x ∈ es, x.fieldList ⊆ refs := by
      intro x hx
      exact List.Subset.trans (OccursIn.operand hx .self).fieldList_subset hreads
    rw [remap_call, eval, eval, evalAll_eq_mapM, evalAll_eq_mapM, List.mapM_map]
    -- the operator and the type of the call are unchanged, so equal values have one result
    refine (CarriesOver.mapM ?_).bind fun vs => .same (applyValues op vs t)
    intro x hx
    exact ih x hx (hoperand x hx)

theorem eval_remap
    (h : ∀ i, e.inputRefs.contains i = true → i < row.length ∧ row'[f i]? = row[i]?) :
    (e.remap f).eval row' params = e.eval row params := by
  simp only [contains_inputRefs] at h
  have houtcome : CarriesOver f e.fieldList row row' (e.eval row params)
      ((e.remap f).eval row' params) := by
    apply eval_remap_outcome (List.Subset.refl e.fieldList)
    intro i hi
    exact (h i hi).2
  symm
  apply houtcome.eq_of_present
  intro i hi
  exact (h i hi).1

/-! ### Offsets -/

/-- An ordinal that stays within a word moves by the offset. -/
theorem shiftOrdinal_of_lt {k : Int} {i : Nat} (h : (i + k).toNat < 2 ^ 64) :
    shiftOrdinal k i = (i + k).toNat :=
  Nat.min_eq_left (Nat.le_pred_of_lt h)

theorem eval_shift {k : Int} (hrow' : row'.length ≤ 2 ^ 64)
    (h : ∀ i, e.inputRefs.contains i = true →
      i < row.length ∧ row'[(i + k).toNat]? = row[i]?) :
    (e.shift k).eval row' params = e.eval row params := by
  apply eval_remap
  intro i hi
  obtain ⟨hpresent, hmoved⟩ := h i hi
  -- the place exists in the moved row, so the ordinal does not stop at the end of a word
  have hlt : (i + k).toNat < row'.length := by
    refine Nat.lt_of_not_le fun hle => ?_
    rw [List.getElem?_eq_none hle, List.getElem?_eq_getElem hpresent] at hmoved
    cases hmoved
  rw [shiftOrdinal_of_lt (Nat.lt_of_lt_of_le hlt hrow')]
  exact ⟨hpresent, hmoved⟩

/-- Replacing the field references of an expression by `f` leaves its parameters alone and
    makes its fields their images, and on a row with the values of the fields at the images
    it evaluates as before, errors included.  In particular an expression that is moved by an
    offset evaluates as before on a row whose values have moved along.  The bound on the row
    is that its places are words, which is where the ordinals stop. -/
theorem remap_substitutes (e : Expr) :
    (∀ f : Nat → Nat, (e.remap f).params = e.params ∧
      (e.remap f).inputRefs = e.inputRefs.renumber f ∧
      ∀ row row' params : List Value,
        (∀ i, e.inputRefs.contains i = true → i < row.length ∧ row'[f i]? = row[i]?) →
          (e.remap f).eval row' params = e.eval row params) ∧
    ∀ (k : Int) (row row' params : List Value), row'.length ≤ 2 ^ 64 →
      (∀ i, e.inputRefs.contains i = true →
        -k ≤ i ∧ i < row.length ∧ row'[(i + k).toNat]? = row[i]?) →
        (e.shift k).eval row' params = e.eval row params := by
  refine ⟨fun f => ⟨?params, inputRefs_remap f e, fun row row' params => eval_remap⟩, ?offset⟩
  case params => rw [Expr.params, Expr.params, paramList_remap]
  case offset =>
    intro k row row' params hrow' h
    exact eval_shift hrow' fun i hi => (h i hi).2

/-- Whether the quotient of the fields 3 and 1 is less than the parameter. -/
def quotientBelow : Expr :=
  .apply (.compare .lt)
    [.apply (.arith .divide) [.field 3 .bigint, .field 1 .bigint], .param 0 .bigint]

theorem contains_quotientBelow {i : Nat} (h : quotientBelow.inputRefs.contains i = true) :
    i = 3 ∨ i = 1 := by
  rw [contains_inputRefs] at h
  simpa [quotientBelow, apply, fieldList, fieldList.fieldLists] using h

/-- Both fields in one place, where the quotient is 1; and the row without its first value,
    where the division fails as before. -/
theorem remap_substitutes_quotientBelow :
    (quotientBelow.remap fun _ => 0).eval [.bigint 7] [.bigint 2] = .ok (.bool true) ∧
      (quotientBelow.shift (-1)).eval [.bigint 0, .null, .bigint 7] [.bigint 2] =
        .error divisionByZero := by
  let pair := [Value.null, .bigint 7, .null, .bigint 7]
  let zero := [Value.null, .bigint 0, .null, .bigint 7]
  have hpair : quotientBelow.eval pair [.bigint 2] = .ok (.bool true) := by rfl
  have hzero : quotientBelow.eval zero [.bigint 2] = .error divisionByZero := by rfl
  have hsubst := remap_substitutes quotientBelow
  constructor
  · refine ((hsubst.1 fun _ => 0).2.2 pair _ _ fun i hi => ?_).trans hpair
    rcases contains_quotientBelow hi with rfl | rfl <;> exact ⟨by decide, rfl⟩
  · refine (hsubst.2 (-1) zero _ _ (by decide) fun i hi => ?_).trans hzero
    rcases contains_quotientBelow hi with rfl | rfl <;> exact ⟨by decide, by decide, rfl⟩

end Polystore.Expr
