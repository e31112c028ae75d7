import Polystore.Proofs.FieldComparisons
import Polystore.Proofs.ReadingBack

/-
  Polystore/Proofs/TextCasts.lean
  ===============================
  **Casts through text.**  A cast to `VARCHAR` writes the canonical text of a value, and a
  cast of a text reads it, whatever the type asked for.  So a cast to `VARCHAR` and on to
  another type reads the canonical text (`eval_cast_text`), and leads back to a truth
  value, an integer, a string, a date or a timestamp (`cast_text_keeps`).
-/

namespace Polystore.Expr

variable {row params : List Value} {e : Expr} {v : Value}

theorem castValue_string (h : v.isNull = false) :
    castValue v .string = .ok (.string v.canonical) := by
  cases v with
  | null => cases h
  | bool | bigint | double | string | binary | date | timestamp => rfl

/-- A string that is asked for as it is, is read as it is. -/
theorem castValue_of_string (s : String) (t : DataType) :
    castValue (.string s) t = Value.parse s t := by
  cases t <;> rfl

/-- A value that is cast to text and on is read from its canonical text. -/
theorem eval_cast_text (he : e.eval row params = .ok v) (hv : v.isNull = false) (t : DataType) :
    ((e.castTo .string).castTo t).eval row params = Value.parse v.canonical t := by
  calc ((e.castTo .string).castTo t).eval row params
      = (do castValue (← (e.castTo .string).eval row params) t) := eval_cast
    _ = (do castValue (← (do castValue (← e.eval row params) .string)) t) := by
        rw [castTo, eval_cast]
    _ = (do castValue (← castValue v .string) t) := by
        rw [he]
        rfl
    _ = castValue (.string v.canonical) t := by
        rw [castValue_string hv]
        rfl
    _ = Value.parse v.canonical t := castValue_of_string _ t

/-- A truth value, an integer, a string, a date or a timestamp is read from its canonical
    text, so casting an expression with that value to text and back changes nothing. -/
theorem cast_text_keeps (hv : v.dataType ∈ Value.textTypes) :
    Value.parse v.canonical v.dataType = .ok v ∧
      ∀ (e : Expr) (row params : List Value), e.eval row params = .ok v →
        ((e.castTo .string).castTo v.dataType).eval row params = .ok v := by
  have hread := Value.parse_canonical hv
  refine ⟨hread, fun e row params he => ?_⟩
  have hnull : v.isNull = false := by
    cases v with
    | null => simp [Value.dataType, Value.textTypes] at hv
    | bool | bigint | double | string | binary | date | timestamp => rfl
  rw [eval_cast_text he hnull, hread]

/-- The least integer as a field, a string with white space around it as a parameter, and
    the last day. -/
theorem cast_text_keeps_extremes :
    ((((field 0 .bigint).castTo .string).castTo .bigint).eval [.bigint Int64.minValue] [] =
        .ok (.bigint Int64.minValue)) ∧
      (((param 0 .string).castTo .string).castTo .string).eval [] [.string "\t+7 "] =
        .ok (.string "\t+7 ") ∧
      Value.parse (Value.date Int32.maxValue).canonical .date = .ok (.date Int32.maxValue) :=
  have hleast : (Value.bigint Int64.minValue).dataType ∈ Value.textTypes := by decide
  have hpadded : (Value.string "\t+7 ").dataType ∈ Value.textTypes := by decide
  have hlast : (Value.date Int32.maxValue).dataType ∈ Value.textTypes := by decide
  ⟨(cast_text_keeps hleast).2 _ _ _ rfl, (cast_text_keeps hpadded).2 _ _ _ rfl,
    (cast_text_keeps hlast).1⟩

end Polystore.Expr
