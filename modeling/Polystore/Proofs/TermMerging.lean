import Polystore.Proofs.TermMeaning
import Polystore.Pushdown.Merge

/-
  Polystore/Proofs/TermMerging.lean
  =================================
  **Merging terms keeps their meaning.**  While the conjuncts of a branch are
  taken in, what has been merged together with what has been left over holds on a
  row exactly when all conjuncts taken in so far do: this is the invariant behind
  `FieldTerms.add_takenIn` and `TermTable.add_takenIn`.  At the end the terms for
  the backend and the residual share the conjuncts among them
  (`FieldTerms.kept_and_residual`): an equality may take the place of the bounds
  that it implies and of the test that the field is not `NULL`, because all these
  are `TRUE` wherever the equality is.
-/

namespace Polystore

/-! ### Comparing bounds -/

/-- The side of a bound on which the fields lie that are strictly inside. -/
def Bound.inside (isLower : Bool) : Ordering := if isLower then .gt else .lt

/-- A field is inside a bound if it is strictly inside, or equal to it and the
    bound is inclusive. -/
theorem Bound.holds_test (isLower : Bool) (b : Bound) (o : Ordering) :
    (b.test isLower).holds o = true ↔ o = inside isLower ∨ b.inclusive = true ∧ o = .eq := by
  cases isLower <;> cases h : b.inclusive <;> cases o <;>
    simp [test, inside, h, Comparison.holds]

/-- A bound that is tighter at planning time is tighter on every row. -/
theorem Bound.holds_of_tighter {isLower : Bool} {tight loose : Bound} {o o' o'' : Ordering}
    (hchain : OrderingChain o o' o'')
    (htight : o' = inside isLower ∨
      o' = .eq ∧ (tight.inclusive = true → loose.inclusive = true))
    (h : (tight.test isLower).holds o = true) : (loose.test isLower).holds o'' = true := by
  rcases hchain with ⟨hleft, hright, hsame⟩
  rw [Bound.holds_test] at h ⊢
  rcases htight with ho' | ⟨ho', hincl⟩
  · -- the tight bound is strictly inside the loose one, and so is the field
    left
    rcases h with ho | ⟨-, ho⟩
    · exact (hsame (ho.trans ho'.symm)).trans ho
    · exact (hleft ho).trans ho'
  · -- both bounds are at the same value
    rw [hright ho']
    rcases h with ho | ⟨hi, ho⟩
    · exact Or.inl ho
    · exact Or.inr ⟨hincl hi, ho⟩

section

variable {row params : List Value}

/-- A field that is inside the tighter of two bounds is inside the other one. -/
theorem Bound.satisfied_of_tighter {isLower : Bool} {field : Nat} {tight loose : Bound}
    {o : Ordering} (hrow : ∀ a ∈ row, a.isDouble = false)
    (htight : tight.value.isExact = true) (hloose : loose.value.isExact = true)
    (hcmp : tight.value.compare? loose.value = some o)
    (ho : o = inside isLower ∨
      o = .eq ∧ (tight.inclusive = true → loose.inclusive = true))
    (h : tight.satisfied isLower row params field = true) :
    loose.satisfied isLower row params field = true := by
  unfold Bound.satisfied at h ⊢
  obtain ⟨a, b, ab, ha, hb, -, -, hab, hholds⟩ := (Comparison.satisfied_iff _ _ _).mp h
  match htv : tight.value, hlv : loose.value, hcmp with
  | .literal v, .literal w, hcmp =>
    rw [htv] at hb htight
    rw [hlv] at hloose
    obtain rfl : v = b := Option.some.inj hb
    obtain ⟨aw, haw, hchain⟩ := Value.compare?_chain (hrow a (List.mem_of_getElem? ha))
      (by simpa [TermValue.isExact] using htight) (by simpa [TermValue.isExact] using hloose)
      hab hcmp
    have hw : (loose.test isLower).holds aw = true := Bound.holds_of_tighter hchain ho hholds
    rw [ha]
    simp [TermValue.read, Comparison.satisfied, haw, hw]

/-- A field that is equal to a value is inside the bounds that the value
    implies. -/
theorem FieldTerms.satisfied_of_implies {isLower : Bool} {field : Nat} {value : TermValue}
    {b : Bound} (hrow : ∀ a ∈ row, a.isDouble = false)
    (hvalue : value.isExact = true) (hb : b.value.isExact = true)
    (himplies : FieldTerms.implies isLower value b = true)
    (h : (Term.eq field value).satisfied row params = true) :
    b.satisfied isLower row params field = true := by
  unfold FieldTerms.implies at himplies
  have hinclusive : (⟨value, true⟩ : Bound).satisfied isLower row params field = true := by
    unfold Bound.satisfied
    obtain ⟨a, v, o, ha, hv, -, -, hav, ho⟩ := (Comparison.satisfied_iff _ _ _).mp h
    rw [ha, hv]
    have heq : o = .eq := by simpa [Comparison.holds] using ho
    cases isLower <;>
      simp [Bound.test, Comparison.satisfied, hav, heq, Comparison.holds]
  cases hcmp : value.compare? b.value with
  | none => simp [hcmp] at himplies
  | some o =>
    refine Bound.satisfied_of_tighter hrow hvalue hb hcmp ?_ hinclusive
    cases o <;> cases isLower <;> simp_all [Bound.inside]

/-! ### One slot -/

/-- What is in a slot has a property. -/
def Slot {α : Type} (P : α → Expr → Prop) (slot : Option (From α)) : Prop :=
  ∀ a e, slot = some (a, e) → P a e

theorem Slot.none {α : Type} {P : α → Expr → Prop} : Slot P none := nofun

@[simp] theorem Slot.none_iff {α : Type} {P : α → Expr → Prop} : Slot P Option.none ↔ True :=
  iff_true_intro Slot.none

@[simp] theorem Slot.some_iff {α : Type} {P : α → Expr → Prop} {a : α} {e : Expr} :
    Slot P (some (a, e)) ↔ P a e := by
  constructor
  · intro h
    exact h a e rfl
  · intro h b x hb
    cases hb
    exact h

/-- The conjunct behind an entry is `TRUE`. -/
abbrev SourceHolds (row params : List Value) {α : Type} (_ : α) (e : Expr) : Prop :=
  e.Is row params true

/-- A slot has taken in an entry that came from `e`: nothing but `e` is left over,
    and slot and left-over together hold when slot and entry did. -/
structure TakenIn (row params : List Value) {α : Type} (P : α → Expr → Prop)
    (old : Option (From α)) (e : Expr) (new : Option (From α) × List Expr) : Prop where
  entries : Slot P new.1
  left : ∀ x ∈ new.2, x = e
  holds_iff : (Slot (SourceHolds row params) new.1 ∧ ∀ x ∈ new.2, x.Is row params true) ↔
    (Slot (SourceHolds row params) old ∧ e.Is row params true)

variable {α : Type} {P : α → Expr → Prop}

/-- An entry of an empty slot. -/
theorem TakenIn.first {a : α} {e : Expr} (h : P a e) :
    TakenIn row params P none e (some (a, e), []) where
  entries := Slot.some_iff.mpr h
  left := by simp
  holds_iff := by simp [Slot.some_iff, Slot.none]

/-- An entry that follows from the one in the slot is dropped. -/
theorem TakenIn.dropped {a : α} {source e : Expr} (h : P a source)
    (hfollows : source.Is row params true → e.Is row params true) :
    TakenIn row params P (some (a, source)) e (some (a, source), []) where
  entries := Slot.some_iff.mpr h
  left := by simp
  holds_iff := by simpa [Slot.some_iff] using hfollows

/-- An entry from which the one in the slot follows replaces it. -/
theorem TakenIn.replaced {a b : α} {source e : Expr} (h : P b e)
    (hfollows : e.Is row params true → source.Is row params true) :
    TakenIn row params P (some (a, source)) e (some (b, e), []) where
  entries := Slot.some_iff.mpr h
  left := by simp
  holds_iff := by simpa [Slot.some_iff] using hfollows

/-- An entry is left over beside the one in the slot. -/
theorem TakenIn.leftOver {a : α} {source e : Expr} (h : P a source) :
    TakenIn row params P (some (a, source)) e (some (a, source), [e]) where
  entries := Slot.some_iff.mpr h
  left := by simp
  holds_iff := by simp [Slot.some_iff]

/-- A conjunct and the term that expresses it on the row. -/
structure Expresses (row params : List Value) (t : Term) (e : Expr) : Prop where
  simple : t.IsSimple
  hasTruth : e.HasTruth row params
  is_true_iff : e.Is row params true ↔ t.satisfied row params = true

/-- Two conjuncts that one term expresses are `TRUE` together. -/
theorem Expresses.follows {t : Term} {source e : Expr} (hs : Expresses row params t source)
    (he : Expresses row params t e) (h : source.Is row params true) : e.Is row params true :=
  he.is_true_iff.mpr (hs.is_true_iff.mp h)

namespace FieldTerms

/-- Keeping the first entry, where an equal one says the same. -/
theorem keepFirst_takenIn [BEq α] {old : Option (From α)} {e : Expr}
    (hold : Slot P old) (new : α) (hnew : P new e)
    (hsame : ∀ a source, P a source → (a == new) = true →
      source.Is row params true → e.Is row params true) :
    TakenIn row params P old e (keepFirst old new e) := by
  match old with
  | none => exact .first hnew
  | some (a, source) =>
    have ha : P a source := hold a source rfl
    unfold keepFirst
    by_cases heq : (a == new) = true
    · simp only [heq, if_true]
      exact .dropped ha (hsame a source ha heq)
    · simp only [heq, Bool.false_eq_true, if_false]
      exact .leftOver ha

/-- A bound as a term. -/
def boundTerm (isLower : Bool) (field : Nat) (b : Bound) : Term :=
  if isLower then .range field (some b) none else .range field none (some b)

/-- A bound and the conjunct that it came from say the same. -/
abbrev BoundExpresses (row params : List Value) (isLower : Bool) (field : Nat) (b : Bound)
    (e : Expr) : Prop :=
  Expresses row params (boundTerm isLower field b) e

theorem boundTerm_satisfied {isLower : Bool} {field : Nat} {b : Bound} :
    (boundTerm isLower field b).satisfied row params = b.satisfied isLower row params field := by
  cases isLower <;> simp [boundTerm, Term.satisfied]

theorem isExact_of_boundTerm {isLower : Bool} {field : Nat} {b : Bound}
    (h : (boundTerm isLower field b).IsSimple) : b.value.isExact = true := by
  cases isLower <;>
  · cases h
    assumption

/-- Keeping the stronger of two bounds. -/
theorem mergeBound_takenIn {isLower : Bool} {field : Nat} {old : Option (From Bound)}
    {e : Expr} (hrow : ∀ a ∈ row, a.isDouble = false)
    (hold : Slot (BoundExpresses row params isLower field) old) (new : Bound)
    (hnew : BoundExpresses row params isLower field new e) :
    TakenIn row params (BoundExpresses row params isLower field) old e
      (mergeBound isLower old new e) := by
  match old with
  | none => exact .first hnew
  | some (b, source) =>
    have hb : BoundExpresses row params isLower field b source := hold b source rfl
    have hbe := isExact_of_boundTerm hb.simple
    have hne := isExact_of_boundTerm hnew.simple
    simp only [mergeBound]
    cases hs : isStronger? isLower b new with
    | none => exact .leftOver (P := BoundExpresses row params isLower field) hb
    | some stronger =>
      obtain ⟨o, hcmp, ho⟩ := Option.map_eq_some_iff.mp hs
      cases stronger with
      | true =>
        refine .replaced (P := BoundExpresses row params isLower field) hnew ?_
        intro h
        rw [hnew.is_true_iff, boundTerm_satisfied] at h
        rw [hb.is_true_iff, boundTerm_satisfied]
        refine Bound.satisfied_of_tighter hrow hne hbe hcmp ?_ h
        cases o <;> cases isLower <;> simp_all [Bound.inside]
      | false =>
        refine .dropped (P := BoundExpresses row params isLower field) hb ?_
        intro h
        rw [hb.is_true_iff, boundTerm_satisfied] at h
        rw [hnew.is_true_iff, boundTerm_satisfied]
        -- the old bound is the tighter one, so the comparison is read backwards
        have hswap : b.value.compare? new.value = some o.swap := by
          match hbv : b.value, hnv : new.value, hcmp with
          | .literal v, .literal w, hcmp =>
            rw [hbv] at hbe
            rw [hnv] at hne
            have := Value.compare?_swap (a := w) (b := v)
              (by simpa [TermValue.isExact] using hne) (by simpa [TermValue.isExact] using hbe)
            simp only [TermValue.compare?] at hcmp ⊢
            rw [this, hcmp]
            rfl
        refine Bound.satisfied_of_tighter hrow hbe hne hswap ?_ h
        cases o <;> cases isLower <;> cases hi : new.inclusive <;> simp_all [Bound.inside]

/-! ### One field -/

/-- A test for `NULL` as a term. -/
def nullTerm (field : Nat) (isNull : Bool) : Term :=
  if isNull then .isNull field else .isNotNull field

/-- Every entry has a property, which may depend on the term it stands for. -/
structure Every (P : Term → Expr → Prop) (field : Nat) (s : FieldTerms) : Prop where
  eq : Slot (fun v => P (.eq field v)) s.eq
  lower : Slot (fun b => P (boundTerm true field b)) s.lower
  upper : Slot (fun b => P (boundTerm false field b)) s.upper
  notEq : ∀ p ∈ s.notEq, P (.ne field p.1) p.2
  isNull : Slot (fun b => P (nullTerm field b)) s.isNull
  like : Slot (fun pattern => P (.like field pattern)) s.like

theorem Every.empty {P : Term → Expr → Prop} {field : Nat} : Every P field {} where
  eq := .none
  lower := .none
  upper := .none
  notEq := by simp
  isNull := .none
  like := .none

theorem Every.imp {P Q : Term → Expr → Prop} {field : Nat} {s : FieldTerms}
    (h : s.Every P field) (hpq : ∀ t e, P t e → Q t e) : s.Every Q field where
  eq a e he := hpq _ _ (h.eq a e he)
  lower a e he := hpq _ _ (h.lower a e he)
  upper a e he := hpq _ _ (h.upper a e he)
  notEq p hp := hpq _ _ (h.notEq p hp)
  isNull a e he := hpq _ _ (h.isNull a e he)
  like a e he := hpq _ _ (h.like a e he)

/-- The conjuncts behind all entries are `TRUE`. -/
abbrev Holds (row params : List Value) (field : Nat) (s : FieldTerms) : Prop :=
  s.Every (fun _ e => e.Is row params true) field

/-- The terms of a field have taken in one that came from `e`. -/
structure Added (row params : List Value) (field : Nat) (old : FieldTerms) (e : Expr)
    (new : FieldTerms × List Expr) : Prop where
  every : new.1.Every (Expresses row params) field
  left : ∀ x ∈ new.2, x = e
  holds_iff : (new.1.Holds row params field ∧ ∀ x ∈ new.2, x.Is row params true) ↔
    (old.Holds row params field ∧ e.Is row params true)

/-- Values that are equal at planning time are equal on every row. -/
theorem eq_of_termValue_beq {v w : TermValue} (hv : v.isExact = true) (h : (v == w) = true) :
    v = w := by
  match v, w, hv, h with
  | .literal a, .literal b, hv, h =>
    exact congrArg _ (Value.eq_of_beq (by simpa [TermValue.isExact] using hv) h)
  | .param i, .param j, _, h => exact congrArg _ (LawfulBEq.eq_of_beq h)

/-- What a slot has taken in, the terms of the field have taken in. -/
theorem Added.of_slot {field : Nat} {s : FieldTerms} {e : Expr} {mk : α → Term}
    {put : Option (From α) → FieldTerms} {slot : Option (From α)}
    {new : Option (From α) × List Expr}
    (hput : ∀ (P : Term → Expr → Prop) x,
      (put x).Every P field ↔ Slot (fun a => P (mk a)) x ∧ (put none).Every P field)
    (hold : put slot = s) (hs : s.Every (Expresses row params) field)
    (h : TakenIn row params (fun a => Expresses row params (mk a)) slot e new) :
    Added row params field s e (put new.1, new.2) := by
  subst hold
  have hrest := ((hput _ _).mp hs).2
  refine ⟨(hput _ _).mpr ⟨h.entries, hrest⟩, h.left, ?_⟩
  unfold Holds
  rw [hput _ new.1, hput _ slot, and_right_comm, and_right_comm (c := e.Is row params true)]
  exact and_congr_left fun _ => h.holds_iff

section

variable (P : Term → Expr → Prop) (field : Nat) (s : FieldTerms)

theorem every_eq_iff (x : Option (From TermValue)) :
    Every P field { s with eq := x } ↔
      Slot (fun v => P (.eq field v)) x ∧ Every P field { s with eq := none } :=
  ⟨fun h => ⟨h.eq, { h with eq := .none }⟩, fun h => { h.2 with eq := h.1 }⟩

theorem every_lower_iff (x : Option (From Bound)) :
    Every P field { s with lower := x } ↔
      Slot (fun b => P (boundTerm true field b)) x ∧ Every P field { s with lower := none } :=
  ⟨fun h => ⟨h.lower, { h with lower := .none }⟩, fun h => { h.2 with lower := h.1 }⟩

theorem every_upper_iff (x : Option (From Bound)) :
    Every P field { s with upper := x } ↔
      Slot (fun b => P (boundTerm false field b)) x ∧ Every P field { s with upper := none } :=
  ⟨fun h => ⟨h.upper, { h with upper := .none }⟩, fun h => { h.2 with upper := h.1 }⟩

theorem every_isNull_iff (x : Option (From Bool)) :
    Every P field { s with isNull := x } ↔
      Slot (fun b => P (nullTerm field b)) x ∧ Every P field { s with isNull := none } :=
  ⟨fun h => ⟨h.isNull, { h with isNull := .none }⟩, fun h => { h.2 with isNull := h.1 }⟩

theorem every_like_iff (x : Option (From String)) :
    Every P field { s with like := x } ↔
      Slot (fun pattern => P (.like field pattern)) x ∧ Every P field { s with like := none } :=
  ⟨fun h => ⟨h.like, { h with like := .none }⟩, fun h => { h.2 with like := h.1 }⟩

end

/-- An inequality is dropped if it is there already, and added otherwise. -/
theorem addNe_added {field : Nat} {s : FieldTerms} {v : TermValue} {e : Expr}
    (hs : s.Every (Expresses row params) field) (ht : Expresses row params (.ne field v) e) :
    Added row params field s e (s.add (.ne field v) e) := by
  unfold add
  by_cases hany : s.notEq.any (·.1 == v) = true
  · simp only [hany, if_true]
    refine ⟨hs, by simp, ?_⟩
    obtain ⟨p, hp, hbeq⟩ := List.any_eq_true.mp hany
    have hpv := hs.notEq p hp
    have hexact : p.1.isExact = true := by
      cases hpv.simple
      assumption
    rw [eq_of_termValue_beq hexact hbeq] at hpv
    constructor
    · rintro ⟨h, -⟩
      exact ⟨h, hpv.follows ht (h.notEq p hp)⟩
    · rintro ⟨h, -⟩
      exact ⟨h, by simp⟩
  · simp only [hany, Bool.false_eq_true, if_false]
    refine ⟨{ hs with notEq := ?_ }, by simp, ?_⟩
    · intro p hp
      rcases List.mem_append.mp hp with hp | hp
      · exact hs.notEq p hp
      · obtain rfl := List.mem_singleton.mp hp
        exact ht
    · constructor
      · rintro ⟨h, -⟩
        refine ⟨{ h with notEq := fun p hp => h.notEq p (List.mem_append_left _ hp) }, ?_⟩
        exact h.notEq (v, e) (by simp)
      · rintro ⟨h, he⟩
        refine ⟨{ h with notEq := ?_ }, by simp⟩
        intro p hp
        rcases List.mem_append.mp hp with hp | hp
        · exact h.notEq p hp
        · obtain rfl := List.mem_singleton.mp hp
          exact he

theorem add_added {s : FieldTerms} {t : Term} {e : Expr}
    (hrow : ∀ a ∈ row, a.isDouble = false)
    (hs : s.Every (Expresses row params) t.field) (ht : Expresses row params t e) :
    Added row params t.field s e (s.add t e) := by
  cases ht.simple with
  | @eq i v hv =>
    refine .of_slot (fun P => every_eq_iff P i s) rfl hs (keepFirst_takenIn hs.eq v ht ?_)
    intro w source hw hbeq
    have hexact : w.isExact = true := by
      cases hw.simple
      assumption
    rw [eq_of_termValue_beq hexact hbeq] at hw
    exact hw.follows ht
  | ne => exact addNe_added hs ht
  | @lower i b hb =>
    have h : Added row params i s e _ := .of_slot (fun P => every_lower_iff P i s) rfl hs
      (mergeBound_takenIn hrow hs.lower b ht)
    simpa [add, Term.field] using h
  | @upper i b hb =>
    exact .of_slot (fun P => every_upper_iff P i s) rfl hs
      (mergeBound_takenIn hrow hs.upper b ht)
  | @isNull i =>
    refine .of_slot (fun P => every_isNull_iff P i s) rfl hs
      (keepFirst_takenIn hs.isNull true ht ?_)
    intro b source hb hbeq
    obtain rfl : b = true := LawfulBEq.eq_of_beq hbeq
    exact hb.follows ht
  | @isNotNull i =>
    refine .of_slot (fun P => every_isNull_iff P i s) rfl hs
      (keepFirst_takenIn hs.isNull false ht ?_)
    intro b source hb hbeq
    obtain rfl : b = false := LawfulBEq.eq_of_beq hbeq
    exact hb.follows ht
  | @like i pattern =>
    refine .of_slot (fun P => every_like_iff P i s) rfl hs (keepFirst_takenIn hs.like pattern ht ?_)
    intro p source hp hbeq
    rw [LawfulBEq.eq_of_beq hbeq] at hp
    exact hp.follows ht

/-! ### What the backend is given -/

/-- A term for the backend says what the conjuncts say from which it came. -/
def Given (row params : List Value) (p : Term × List Expr) : Prop :=
  (∀ e ∈ p.2, e.Is row params true) ↔ p.1.satisfied row params = true

theorem Given.of_expresses {t : Term} {e : Expr} (h : Expresses row params t e) :
    Given row params (t, [e]) := by
  unfold Given
  simpa using h.is_true_iff

/-- The two ends of a range. -/
theorem Given.of_bounds {field : Nat} {lower upper : Option (From Bound)}
    (hl : Slot (BoundExpresses row params true field) lower)
    (hu : Slot (BoundExpresses row params false field) upper) :
    Given row params (.range field (lower.map (·.1)) (upper.map (·.1)),
      (lower.map (·.2)).toList ++ (upper.map (·.2)).toList) := by
  have hside : ∀ {isLower : Bool} {slot : Option (From Bound)},
      Slot (BoundExpresses row params isLower field) slot →
      ((∀ e ∈ (slot.map (·.2)).toList, e.Is row params true) ↔
        (slot.map (·.1)).all (Bound.satisfied isLower row params field) = true) := by
    intro isLower slot h
    match slot with
    | none => simp
    | some (b, e) =>
      have hb := (h b e rfl).is_true_iff
      rw [boundTerm_satisfied] at hb
      simpa using hb
  unfold Given
  rw [List.forall_mem_append, hside hl, hside hu, Term.satisfied, Bool.and_eq_true]

/-- Where a term for the backend comes from. -/
inductive KeptFrom (field : Nat) (s : FieldTerms) : Term × List Expr → Prop
  | eq {v : TermValue} {e : Expr} (h : s.eq = some (v, e)) : KeptFrom field s (.eq field v, [e])
  | range (h : s.lower.isSome = true ∨ s.upper.isSome = true) :
    KeptFrom field s (.range field (s.lower.map (·.1)) (s.upper.map (·.1)),
      (s.lower.map (·.2)).toList ++ (s.upper.map (·.2)).toList)
  | nullTest {b : Bool} {e : Expr} (h : s.isNull = some (b, e)) :
    KeptFrom field s (nullTerm field b, [e])
  | ne {q : From TermValue} (h : q ∈ s.notEq) : KeptFrom field s (.ne field q.1, [q.2])
  | like {pattern : String} {e : Expr} (h : s.like = some (pattern, e)) :
    KeptFrom field s (.like field pattern, [e])

theorem keptFrom {field : Nat} {s : FieldTerms} {p : Term × List Expr} (hp : p ∈ s.kept field) :
    s.KeptFrom field p := by
  simp only [kept, List.mem_append, List.mem_map] at hp
  rcases hp with (hp | ⟨q, hq, rfl⟩) | ⟨q, hq, rfl⟩
  · split at hp
    · rename_i v e heq
      obtain rfl := List.mem_singleton.mp hp
      exact .eq heq
    · rcases List.mem_append.mp hp with hp | hp
      · split at hp
        · rename_i hbounds
          obtain rfl := List.mem_singleton.mp hp
          exact .range (by simpa using hbounds)
        · cases hp
      · split at hp
        · rename_i e hnull
          obtain rfl := List.mem_singleton.mp hp
          exact .nullTest hnull
        · rename_i e hnull
          obtain rfl := List.mem_singleton.mp hp
          exact .nullTest hnull
        · cases hp
  · exact .ne hq
  · exact .like (Option.mem_toList.mp hq)

theorem kept_given {field : Nat} {s : FieldTerms} (hs : s.Every (Expresses row params) field)
    {p : Term × List Expr} (hp : p ∈ s.kept field) : Given row params p := by
  cases keptFrom hp with
  | eq h => exact .of_expresses (hs.eq _ _ h)
  | range => exact .of_bounds hs.lower hs.upper
  | nullTest h => exact .of_expresses (hs.isNull _ _ h)
  | ne h => exact .of_expresses (hs.notEq _ h)
  | like h => exact .of_expresses (hs.like _ _ h)

/-! ### What is left over -/

/-- Every conjunct behind a term for the backend is behind an entry. -/
theorem kept_sources {Q : Expr → Prop} {field : Nat} {s : FieldTerms}
    (hs : s.Every (fun _ e => Q e) field) : ∀ p ∈ s.kept field, ∀ e ∈ p.2, Q e := by
  intro p hp e he
  cases keptFrom hp with
  | eq h =>
    obtain rfl := List.mem_singleton.mp he
    exact hs.eq _ _ h
  | range =>
    simp only [List.mem_append, Option.mem_toList, Option.map_eq_some_iff] at he
    rcases he with ⟨q, hq, rfl⟩ | ⟨q, hq, rfl⟩
    · exact hs.lower q.1 q.2 hq
    · exact hs.upper q.1 q.2 hq
  | nullTest h =>
    obtain rfl := List.mem_singleton.mp he
    exact hs.isNull _ _ h
  | ne h =>
    obtain rfl := List.mem_singleton.mp he
    exact hs.notEq _ h
  | like h =>
    obtain rfl := List.mem_singleton.mp he
    exact hs.like _ _ h

/-- Every left-over conjunct is behind an entry. -/
theorem residual_sources {Q : Expr → Prop} {field : Nat} {s : FieldTerms}
    (hs : s.Every (fun _ e => Q e) field) : ∀ e ∈ s.residual, Q e := by
  intro e he
  have hleft : ∀ {isLower : Bool} {value : TermValue} {slot : Option (From Bound)},
      Slot (fun _ e => Q e) slot → e ∈ leftover isLower value slot → Q e := by
    intro isLower value slot hslot hmem
    match slot with
    | none => cases hmem
    | some (b, x) =>
      simp only [leftover] at hmem
      split at hmem
      · cases hmem
      · obtain rfl := List.mem_singleton.mp hmem
        exact hslot b e rfl
  unfold residual at he
  split at he
  · cases he
  · simp only [List.mem_append] at he
    rcases he with (he | he) | he
    · exact hleft hs.lower he
    · exact hleft hs.upper he
    · split at he
      · rename_i x hnull
        obtain rfl := List.mem_singleton.mp he
        exact hs.isNull true e hnull
      · cases he

/-- Without an equality, everything is given to the backend. -/
theorem holds_of_kept {field : Nat} {s : FieldTerms} (heq : s.eq = none)
    (h : ∀ p ∈ s.kept field, ∀ e ∈ p.2, e.Is row params true) : s.Holds row params field where
  eq := heq ▸ .none
  lower b e hb := h (.range field (s.lower.map (·.1)) (s.upper.map (·.1)),
    (s.lower.map (·.2)).toList ++ (s.upper.map (·.2)).toList) (by simp [kept, heq, hb]) e
    (by simp [hb])
  upper b e hb := h (.range field (s.lower.map (·.1)) (s.upper.map (·.1)),
    (s.lower.map (·.2)).toList ++ (s.upper.map (·.2)).toList) (by simp [kept, heq, hb]) e
    (by simp [hb])
  notEq p hp := h (.ne field p.1, [p.2]) (by simp [kept, hp]) p.2 (by simp)
  isNull b e hb := h (nullTerm field b, [e])
    (by cases b <;> simp [kept, heq, hb, nullTerm]) e (by simp)
  like pattern e hp := h (.like field pattern, [e]) (by simp [kept, hp]) e (by simp)

/-- An equality makes `TRUE` what it takes the place of. -/
theorem holds_of_equality {field : Nat} {s : FieldTerms} {v : TermValue} {x : Expr}
    (hrow : ∀ a ∈ row, a.isDouble = false)
    (hs : s.Every (Expresses row params) field) (heq : s.eq = some (v, x))
    (hkept : ∀ p ∈ s.kept field, ∀ e ∈ p.2, e.Is row params true)
    (hleft : ∀ e ∈ s.residual, e.Is row params true) : s.Holds row params field := by
  have hx : x.Is row params true := hkept (.eq field v, [x]) (by simp [kept, heq]) x (by simp)
  have hve := hs.eq v x heq
  have hsat := hve.is_true_iff.mp hx
  have hv : v.isExact = true := by
    cases hve.simple
    assumption
  have hbound : ∀ {isLower : Bool} {b : Bound} {e : Expr},
      BoundExpresses row params isLower field b e →
      (implies isLower v b = false → e ∈ s.residual) → e.Is row params true := by
    intro isLower b e hb hres
    by_cases himp : implies isLower v b = true
    · rw [hb.is_true_iff, boundTerm_satisfied]
      exact satisfied_of_implies hrow hv (isExact_of_boundTerm hb.simple) himp hsat
    · exact hleft e (hres (by simpa using himp))
  constructor
  · rw [heq]
    exact Slot.some_iff.mpr hx
  · intro b e hb
    exact hbound (hs.lower b e hb) fun himp => by simp [residual, heq, leftover, hb, himp]
  · intro b e hb
    exact hbound (hs.upper b e hb) fun himp => by simp [residual, heq, leftover, hb, himp]
  · intro p hp
    exact hkept (.ne field p.1, [p.2]) (by simp [kept, hp]) p.2 (by simp)
  · intro b e hb
    cases b with
    | true => exact hleft e (by simp [residual, heq, hb])
    | false =>
      -- only a field that is not `NULL` is equal to something
      obtain ⟨a, w, o, ha, -, hnull, -⟩ := (Comparison.satisfied_iff _ _ _).mp hsat
      rw [(hs.isNull false e hb).is_true_iff]
      simp [nullTerm, Term.satisfied, ha, hnull]
  · intro pattern e hp
    exact hkept (.like field pattern, [e]) (by simp [kept, hp]) e (by simp)

/-- The terms for the backend and the residual share the conjuncts among them. -/
theorem kept_and_residual {field : Nat} {s : FieldTerms}
    (hrow : ∀ a ∈ row, a.isDouble = false) (hs : s.Every (Expresses row params) field) :
    s.Holds row params field ↔
      (∀ p ∈ s.kept field, p.1.satisfied row params = true) ∧
        ∀ e ∈ s.residual, e.Is row params true := by
  have hgiven : (∀ p ∈ s.kept field, p.1.satisfied row params = true) ↔
      ∀ p ∈ s.kept field, ∀ e ∈ p.2, e.Is row params true :=
    forall₂_congr fun p hp => (kept_given hs hp).symm
  rw [hgiven]
  constructor
  · intro h
    exact ⟨kept_sources h, residual_sources h⟩
  · rintro ⟨hkept, hleft⟩
    match heq : s.eq with
    | none => exact holds_of_kept heq hkept
    | some (v, x) => exact holds_of_equality hrow hs heq hkept hleft

end FieldTerms

end

end Polystore
