import Polystore.Proofs.JsonComparison
import Polystore.Proofs.TermMeaning

/-
  Polystore/Proofs/Placeholders.lean
  ==================================
  **Binding parameters in JSON.**  A query that was written before its parameters were
  known holds a placeholder for each of them.  Binding puts the JSON form of the value
  in the place of the placeholder and leaves the rest as it is.
-/

namespace Polystore.Json

/-- The parameter for which an object stands. -/
def placeholder? : Json → Option Nat
  | .object [("$param", .int (.ofNat i))] => some i
  | _ => none

/-- Put the values of parameters in the place of their placeholders.  A placeholder
    whose parameter has no value stays. -/
def bindParams (params : List Value) : Json → Json
  | .object members =>
    match (placeholder? (.object members)).bind (params[·]?) with
    | some v => v.json
    | none => .object (bindMembers members)
  | .array items => .array (bindItems items)
  | j => j
where
  bindItems : List Json → List Json
    | [] => []
    | x :: rest => bindParams params x :: bindItems rest
  bindMembers : List (String × Json) → List (String × Json)
    | [] => []
    | (name, x) :: rest => (name, bindParams params x) :: bindMembers rest

variable {params : List Value}

theorem bindItems_eq_map (items : List Json) :
    bindParams.bindItems params items = items.map (bindParams params) := by
  induction items with
  | nil => rfl
  | cons x rest ih => rw [bindParams.bindItems, ih, List.map_cons]

theorem bindMembers_eq_map (members : Members) :
    bindParams.bindMembers params members = members.map fun p => (p.1, p.2.bindParams params) := by
  induction members with
  | nil => rfl
  | cons p rest ih => rw [bindParams.bindMembers, ih, List.map_cons]

theorem bindParams_array (items : List Json) :
    (Json.array items).bindParams params = .array (items.map (bindParams params)) := by
  rw [bindParams, bindItems_eq_map]

theorem placeholder?_eq_some {j : Json} {i : Nat} :
    j.placeholder? = some i ↔ j = single "$param" (.nat i) := by
  constructor
  · intro h
    unfold placeholder? at h
    split at h
    · obtain rfl := Option.some.inj h
      rfl
    · cases h
  · rintro rfl
    rfl

/-- An object without a member of the placeholder's name is bound member by member. -/
theorem bindParams_object {members : Members} (h : ∀ p ∈ members, p.1 ≠ "$param") :
    (Json.object members).bindParams params =
      .object (members.map fun p => (p.1, p.2.bindParams params)) := by
  have hnone : placeholder? (.object members) = none := by
    cases hp : placeholder? (.object members) with
    | none => rfl
    | some i =>
      have hmembers := Json.object.inj (placeholder?_eq_some.mp hp)
      exact absurd rfl (h ("$param", .nat i) (by rw [hmembers]; exact List.mem_cons_self))
  rw [bindParams, hnone, bindMembers_eq_map]
  rfl

theorem bindParams_of_isPlain {j : Json} (h : j.isPlain = true) : j.bindParams params = j := by
  cases j with
  | float _ => rfl
  | array _ => cases h
  | object _ => cases h
  | _ => rfl

/-- Without parameters nothing is bound. -/
theorem bindParams_nil (j : Json) : j.bindParams [] = j := by
  have hnone (o : Option Nat) : o.bind (([] : List Value)[·]?) = none := by
    cases o <;> rfl
  refine bindParams.induct [] (fun items => bindParams.bindItems [] items = items)
    (fun j => j.bindParams [] = j) (fun members => bindParams.bindMembers [] members = members)
    ?bound ?members ?items ?leaf rfl ?item rfl ?member j
  case bound =>
    intro members v h
    rw [hnone] at h
    cases h
  case members =>
    intro members h ih
    rw [bindParams, h, ih]
  case items =>
    intro items ih
    rw [bindParams, ih]
  case leaf =>
    intro j hobject harray
    cases j with
    | object members => exact (hobject members rfl).elim
    | array items => exact (harray items rfl).elim
    | _ => rfl
  case item =>
    intro x rest hx hrest
    rw [bindParams.bindItems, hx, hrest]
  case member =>
    intro name x rest hx hrest
    rw [bindParams.bindMembers, hx, hrest]

/-! ### Atoms -/

/-- A right-hand side in JSON: a plain value or a placeholder. -/
def IsAtom (j : Json) : Prop := j.isPlain = true ∨ ∃ i, j.placeholder? = some i

namespace IsAtom

theorem eq_of_beq {a b : Json} (hb : b.IsAtom) (h : (a == b) = true) : a = b := by
  rcases hb with hb | ⟨i, hb⟩
  · exact Json.eq_of_beq hb h
  · obtain rfl := placeholder?_eq_some.mp hb
    rw [beq_eq, single] at h
    cases a with
    | object members =>
      rcases members with _ | ⟨⟨name, x⟩, _ | ⟨p, rest⟩⟩
      · cases h
      · simp only [Json.beq, Json.beq.beqMembers, Bool.and_true, Bool.and_eq_true, beq_iff_eq] at h
        obtain ⟨rfl, hx⟩ := h
        rw [Json.eq_of_beq (b := .nat i) rfl hx, single]
      · simp [Json.beq, Json.beq.beqMembers] at h
    | _ => cases h

theorem beq_self {a : Json} (ha : a.IsAtom) : (a == a) = true := by
  rcases ha with ha | ⟨i, ha⟩
  · exact Json.beq_self ha
  · obtain rfl := placeholder?_eq_some.mp ha
    simp [beq_eq, single, Json.nat, Json.beq, Json.beq.beqMembers]

theorem contains_iff {items : List Json} (h : ∀ i ∈ items, i.IsAtom) (a : Json) :
    items.contains a = true ↔ a ∈ items := by
  rw [List.contains_eq_any_beq, List.any_eq_true]
  constructor
  · rintro ⟨i, hi, hbeq⟩
    rw [(h i hi).eq_of_beq hbeq]
    exact hi
  · intro ha
    exact ⟨a, ha, (h a ha).beq_self⟩

end IsAtom

end Polystore.Json

namespace Polystore.TermValue

variable {params : List Value} {w : TermValue}

theorem isAtom_json (hw : w.isExact = true) : w.json.IsAtom := by
  cases w with
  | literal v => exact .inl (Value.isPlain_json (by simpa [isExact] using hw))
  | param i => exact .inr ⟨i, rfl⟩

/-- What is bound is the form of the value that is read. -/
theorem bindParams_json {b : Value} (hb : b.isDouble = false) (h : w.read params = some b) :
    w.json.bindParams params = b.json := by
  cases w with
  | literal v =>
    obtain rfl := Option.some.inj h
    exact Json.bindParams_of_isPlain (Value.isPlain_json hb)
  | param i =>
    have hvalue : params[i]? = some b := h
    have hfound : (Json.placeholder? (.object [("$param", .nat i)])).bind (params[·]?) = some b :=
      hvalue
    rw [json, Json.single, Json.bindParams, hfound]

end Polystore.TermValue
