import Mathlib
import Polystore.Proofs.ValueOrder
import Polystore.Pushdown.Literal

/-
  Polystore/Proofs/JsonComparison.lean
  ====================================
  **Comparing JSON forms.**  A store compares what it holds with the constants of a
  query, both in JSON.  Values of one type, doubles apart, are compared by their JSON
  forms as they are by themselves (`order?_json`), and their forms are the same only
  when they are equal (`same_json`).  Bytes are the only values whose form is of another
  sort: hexadecimal digits are as far apart as the numbers they stand for, so that
  texts of them are ordered like the bytes.
-/

namespace Polystore

/-! ### How a store compares -/

namespace Json

/-- The order of two JSON values: numbers are compared with numbers, texts with texts
    and truth values with truth values. -/
def order? : Json → Json → Option Ordering
  | .int a, .int b => some (compare a b)
  | .int a, .float b => Value.compareDouble (Float.ofInt a) b
  | .float a, .int b => Value.compareDouble a (Float.ofInt b)
  | .float a, .float b => Value.compareDouble a b
  | .string a, .string b => some (compare a b)
  | .bool a, .bool b => some (compare a.toNat b.toNat)
  | _, _ => none

/-- Whether a store takes two JSON values for equal. -/
def same (a b : Json) : Bool := a == b || a.order? b = some .eq

/-- Neither a number that may be rounded nor a nested value. -/
def isPlain : Json → Bool
  | .null | .bool _ | .int _ | .string _ => true
  | .float _ | .array _ | .object _ => false

theorem beq_eq (a b : Json) : (a == b) = Json.beq a b := rfl

theorem eq_of_beq {a b : Json} (hb : b.isPlain = true) (h : (a == b) = true) : a = b := by
  rw [beq_eq] at h
  cases b <;> cases hb <;> cases a <;> simp_all [Json.beq]

theorem eq_single_of_beq {name : String} {a b : Json} (h : (single name a == b) = true) :
    ∃ a', b = single name a' ∧ (a == a') = true := by
  rw [beq_eq, single] at h
  cases b with
  | object members =>
    rcases members with _ | ⟨⟨n, a'⟩, _ | ⟨p, rest⟩⟩
    · cases h
    · simp only [Json.beq, Json.beq.beqMembers, Bool.and_true, Bool.and_eq_true, beq_iff_eq] at h
      obtain ⟨rfl, ha⟩ := h
      exact ⟨a', rfl, ha⟩
    · simp [Json.beq, Json.beq.beqMembers] at h
  | _ => cases h

theorem beq_self {a : Json} (ha : a.isPlain = true) : (a == a) = true := by
  rw [beq_eq]
  cases a <;> cases ha <;> simp [Json.beq]

@[simp] theorem same_null_iff {a : Json} : a.same .null = true ↔ a = .null := by
  rw [same, beq_eq]
  cases a <;> simp [Json.beq, order?]

@[simp] theorem order?_null (a : Json) : Json.null.order? a = none := rfl

@[simp] theorem order?_right_null (a : Json) : a.order? .null = none := by
  cases a <;> rfl

end Json

/-! ### The forms of values -/

namespace Value

theorem digitChar_lt {m n : Nat} (h : m < n) (hn : n < 16) : Nat.digitChar m < Nat.digitChar n := by
  have hall : ∀ n : Fin 16, ∀ m : Fin 16, m < n → Nat.digitChar m < Nat.digitChar n := by decide
  exact hall ⟨n, hn⟩ ⟨m, by omega⟩ h

theorem hexText_toList (bytes : List UInt8) : (hexText bytes).toList =
    bytes.flatMap fun b => [Nat.digitChar (b.toNat / 16), Nat.digitChar (b.toNat % 16)] :=
  String.toList_ofList

theorem hexText_lt {as bs : List UInt8} (h : compareBytes as bs = .lt) :
    hexText as < hexText bs := by
  rw [String.lt_iff_toList_lt, hexText_toList, hexText_toList]
  induction as generalizing bs with
  | nil =>
    cases bs with
    | nil => cases h
    | cons b bs => exact List.nil_lt_cons _ _
  | cons a as ih =>
    cases bs with
    | nil => cases h
    | cons b bs =>
      have hb : b.toNat < 256 := b.toNat_lt
      rw [List.flatMap_cons, List.flatMap_cons]
      change Nat.digitChar (a.toNat / 16) :: Nat.digitChar (a.toNat % 16) :: _ <
        Nat.digitChar (b.toNat / 16) :: Nat.digitChar (b.toNat % 16) :: _
      rw [List.cons_lt_cons_iff, List.cons_lt_cons_iff]
      rcases Nat.lt_trichotomy a.toNat b.toNat with hlt | heq | hgt
      · by_cases hhigh : a.toNat / 16 < b.toNat / 16
        · exact .inl (digitChar_lt hhigh (by omega))
        · have hsame : a.toNat / 16 = b.toNat / 16 := by omega
          exact .inr ⟨by rw [hsame], .inl (digitChar_lt (by omega) (by omega))⟩
      · rw [heq]
        refine .inr ⟨rfl, .inr ⟨rfl, ih ?_⟩⟩
        simpa [compareBytes, Nat.compare_eq_eq.mpr heq] using h
      · simp [compareBytes, Nat.compare_eq_gt.mpr hgt] at h

theorem compare_hexText (as bs : List UInt8) :
    compare (hexText as) (hexText bs) = compareBytes as bs := by
  cases h : compareBytes as bs with
  | lt => exact compare_lt_iff_lt.mpr (hexText_lt h)
  | eq => rw [eq_of_compareBytes h, compare_eq_iff_eq.mpr rfl]
  | gt =>
    refine compare_gt_iff_gt.mpr (hexText_lt ?_)
    rw [compareBytes_swap, h]
    rfl

variable {a b : Value}

theorem isPlain_json (ha : a.isDouble = false) : a.json.isPlain = true := by
  cases a <;> first | rfl | cases ha

/-- Any value but a double that JSON has no number for. -/
def isShown : Value → Bool
  | .double x => x.isFinite
  | _ => true

theorem isShown_of_exact (ha : a.isDouble = false) : a.isShown = true := by
  cases a <;> first | rfl | cases ha

theorem json_eq_null_iff (ha : a.isShown = true) : a.json = .null ↔ a.isNull = true := by
  cases a with
  | double x =>
    have hfinite : x.isFinite = true := ha
    simp [json, hfinite, isNull]
  | _ => simp [json, isNull]

theorem json_eq_null_iff_of_exact (ha : a.isDouble = false) : a.json = .null ↔ a.isNull = true :=
  json_eq_null_iff (isShown_of_exact ha)

theorem order?_json_of_dataType (hb : b.isDouble = false) (htype : a.dataType = b.dataType) :
    a.json.order? b.json = a.compare? b := by
  cases a <;> cases b <;> cases htype
  case binary.binary => exact congrArg some (compare_hexText _ _)
  all_goals first | rfl | cases hb

/-- Values of one type are compared by their JSON forms as they are, and `NULL` with
    nothing. -/
theorem order?_json (hb : b.isDouble = false)
    (htype : a.isNull = false → a.dataType = b.dataType) : a.json.order? b.json = a.compare? b := by
  cases hnull : a.isNull with
  | true =>
    cases a <;> cases hnull
    rfl
  | false => exact order?_json_of_dataType hb (htype hnull)

theorem compare?_right_null (a : Value) : a.compare? .null = none := by
  cases a <;> rfl

theorem order?_json_of_present (hb : b.isDouble = false)
    (htype : a.isNull = false → b.isNull = false → a.dataType = b.dataType) :
    a.json.order? b.json = a.compare? b := by
  cases hnull : b.isNull with
  | true =>
    cases b <;> cases hnull
    rw [compare?_right_null]
    exact Json.order?_right_null _
  | false => exact order?_json hb fun ha => htype ha hnull

/-- The JSON forms of two values of one type are the same only when the values are
    equal. -/
theorem same_json (hb : b.isDouble = false) (hnull : b.isNull = false)
    (htype : a.isNull = false → a.dataType = b.dataType) :
    a.json.same b.json = true ↔ a.compare? b = some .eq := by
  rw [← order?_json hb htype, Json.same, Bool.or_eq_true, decide_eq_true_iff,
    or_iff_right_iff_imp]
  intro hbeq
  rw [Json.eq_of_beq (isPlain_json hb) hbeq, order?_json hb fun _ => rfl]
  exact compare?_self hb hnull

end Value

end Polystore
