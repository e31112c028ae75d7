import Polystore.Proofs.Outcomes
import Polystore.Proofs.WholeNumerals
import Polystore.Value

/-
  Polystore/Proofs/ReadingBack.lean
  =================================
  **Reading what was written.**  Decimal digits denote the number of which they are
  the digits, and the canonical text of an integer has no white space to take off.
  So the canonical text of a truth value, an integer, a string, a date or a
  timestamp is read as that value (`parse_canonical`).
-/

namespace Polystore

/-! ### Numerals -/

namespace Text

/-- A text without white space is trimmed already. -/
theorem trim_eq_self {cs : List Char} (h : ∀ c ∈ cs, isBlank c = false) : trim cs = cs := by
  have hkept : ∀ ds : List Char, (∀ c ∈ ds, isBlank c = false) → ds.dropWhile isBlank = ds := by
    intro ds hds
    cases ds with
    | nil => rfl
    | cons d ds => rw [List.dropWhile_cons_of_neg (by simp [hds d (by simp)])]
  unfold trim
  rw [hkept cs h, hkept cs.reverse (by simpa using h), List.reverse_reverse]

theorem isBlank_of_isDigit {c : Char} (h : c.isDigit = true) : isBlank c = false := by
  simp only [Char.isDigit, Bool.and_eq_true, decide_eq_true_eq, UInt32.le_iff_toNat_le] at h
  have hlow : 48 ≤ c.toNat := h.1
  have hhigh : c.toNat ≤ 57 := h.2
  simp only [isBlank, Bool.or_eq_false_iff, Bool.and_eq_false_iff, decide_eq_false_iff_not]
  omega

end Text

namespace Number

theorem isDigit_of_mem_digitsOf {n : Nat} {c : Char} (h : c ∈ digitsOf n) : c.isDigit = true :=
  Nat.isDigit_of_mem_toDigits (by decide) (by decide) h

theorem readNat?_digitsOf (n : Nat) : readNat? (digitsOf n) = some n := by
  have hne : digitsOf n ≠ [] := Nat.toDigits_ne_nil
  have hdigits : (digitsOf n).all Char.isDigit = true :=
    List.all_eq_true.mpr fun _ hc => isDigit_of_mem_digitsOf hc
  have hvalue : digitsValue (digitsOf n) = n := by
    rw [digitsValue, ← Nat.ofDigitChars_eq_foldl]
    exact Nat.ofDigitChars_ten_toDigits
  simp [readNat?, hne, hdigits, hvalue]

/-- What starts with a digit has no sign. -/
theorem splitSign_of_isDigit {cs : List Char} (h : ∀ c ∈ cs, c.isDigit = true) :
    splitSign cs = (false, cs) := by
  unfold splitSign
  split
  · exact absurd (h '-' (by simp)) (by decide)
  · exact absurd (h '+' (by simp)) (by decide)
  · rfl

theorem intText_toList (i : Int) :
    (intText i).toList = (if i < 0 then ['-'] else []) ++ digitsOf i.natAbs := by
  rw [intText_eq, String.toList_ofList]

theorem readInt?_intText (i : Int) : readInt? (intText i).toList = some i := by
  rw [intText_toList]
  unfold readInt?
  by_cases hi : i < 0
  · simp only [hi, if_true, List.singleton_append, splitSign, readNat?_digitsOf, Option.map_some,
      signed]
    congr 1
    omega
  · have hsign : splitSign (digitsOf i.natAbs) = (false, digitsOf i.natAbs) :=
      splitSign_of_isDigit fun _ hc => isDigit_of_mem_digitsOf hc
    simp only [hi, if_false, List.nil_append, hsign, readNat?_digitsOf, Option.map_some, signed,
      Bool.false_eq_true]
    congr 1
    omega

theorem trim_intText (i : Int) : Text.trim (intText i).toList = (intText i).toList := by
  apply Text.trim_eq_self
  intro c hc
  rw [intText_toList] at hc
  rcases List.mem_append.mp hc with hc | hc
  · split at hc
    · obtain rfl := List.mem_singleton.mp hc
      decide
    · cases hc
  · exact Text.isBlank_of_isDigit (isDigit_of_mem_digitsOf hc)

theorem int64?_toInt (i : Int64) : int64? i.toInt = some i := by
  have hlow : minInt64 ≤ i.toInt := i.le_toInt
  have hhigh : i.toInt < 2 ^ 63 := i.toInt_lt
  have hmax : maxInt64 = 2 ^ 63 - 1 := rfl
  rw [int64?, if_pos ⟨hlow, by omega⟩, Int64.ofInt_toInt]

theorem int32?_toInt (i : Int32) : int32? i.toInt = some i := by
  rw [int32?, if_pos ⟨i.le_toInt, i.toInt_lt⟩, Int32.ofInt_toInt]

end Number

/-! ### Values -/

namespace Value

/-- The types whose values have a text that is read back. -/
def textTypes : List DataType := [.bool, .bigint, .string, .date, .timestamp]

theorem parse_canonical {v : Value} (h : v.dataType ∈ textTypes) :
    parse v.canonical v.dataType = .ok v := by
  cases v with
  | null | double | binary => simp [dataType, textTypes] at h
  | bool b => cases b <;> rfl
  | string s => rfl
  | bigint i =>
    simp only [parse, canonical, dataType, Number.trim_intText, Number.readInt?_intText,
      Option.bind_some, Number.int64?_toInt, Option.map_some, require]
  | date d =>
    simp only [parse, canonical, dataType, Number.trim_intText, Number.readInt?_intText,
      Option.bind_some, Number.int32?_toInt, Option.map_some, require]
  | timestamp t =>
    simp only [parse, canonical, dataType, Number.trim_intText, Number.readInt?_intText,
      Option.bind_some, Number.int64?_toInt, Option.map_some, require]

/-- What is read has the type asked for; where any type will do, a text is a
    string. -/
theorem dataType_of_parse {s : String} {t : DataType} {v : Value} (h : parse s t = .ok v) :
    v.dataType = if t = .any then .string else t := by
  have hread {α : Type} {e : Error} {o : Option α} {f : α → Value} {t' : DataType}
      (h : require e (o.map f) = .ok v) (hf : ∀ a, (f a).dataType = t') : v.dataType = t' := by
    obtain ⟨a, -, rfl⟩ := Option.map_eq_some_iff.mp (require_eq_ok.mp h)
    exact hf a
  cases t with
  | bool | bigint | double | date | timestamp => exact hread h fun _ => rfl
  | string | any =>
    obtain rfl := Except.ok.inj h
    rfl
  | null | binary => cases h

end Value

end Polystore
