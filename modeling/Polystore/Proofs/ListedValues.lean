import Polystore.Proofs.EqualValues
import Polystore.Proofs.ReadingBack

/-
  Polystore/Proofs/ListedValues.lean
  ==================================
  **Which qualifier lists share a value.**  The check of a LIST partitioning
  compares qualifiers as they are spelled, white space around them apart; routing
  compares the values that they are read as.  The two agree on strings, where
  different spellings are different values.  On the other types one value has many
  spellings, and the lists that pass the check leave no value to two groups exactly
  when no two qualifiers of different lists are read alike
  (`unambiguous_iff_not_readAlike`).  Only then the order of the groups does not
  matter (`targetList_perm`).
-/

namespace Polystore

/-! ### Values equal to a third one -/

namespace Value

variable {a b v : Value} {x : Float}

/-- Whether some value is equal to both: numbers meet where their doubles are equal,
    other values where they are the same. -/
def meets (a b : Value) : Bool :=
  match a.asDouble?, b.asDouble? with
  | some x, some y => x == y
  | _, _ => a.compare? b = some .eq

theorem compare?_double (ha : a.asDouble? = some x) (y : Float) :
    a.compare? (.double y) = some .eq ↔ (x == y) = true := by
  cases a <;> cases ha <;> exact compareDouble_eq_iff

/-- What is equal to a number is a number with an equal double. -/
theorem exists_asDouble?_of_compare? (h : a.compare? v = some .eq) (ha : a.asDouble? = some x) :
    ∃ y, v.asDouble? = some y ∧ (x == y) = true := by
  rcases eq_or_asDouble?_eq h with heq | ⟨-, x', y, hx', hy, heq⟩
  · subst heq
    refine ⟨x, ha, ?_⟩
    match a, ha with
    | .double y, rfl => exact compareDouble_eq_iff.mp h
    | .bigint i, rfl =>
      have hlow := i.le_toInt
      have hhigh := i.toInt_lt
      refine Float.beq_self_iff.mpr fun hnan => ?_
      refine Number.parts_ofInt_ne_nan (i := i.toInt) (by omega) ?_
      rw [hnan]
      rfl
  · obtain rfl := Option.some.inj (ha.symm.trans hx')
    exact ⟨y, hy, heq⟩

theorem eq_of_compare?_eq (h : a.compare? b = some .eq) (ha : a.asDouble? = none) : a = b := by
  rcases eq_or_asDouble?_eq h with heq | ⟨-, x, y, hx, -⟩
  · exact heq
  · cases ha.symm.trans hx

theorem asDouble?_eq_none (h : v.dataType.isNumeric = false) : v.asDouble? = none := by
  cases v <;> first | rfl | cases h

theorem meets_iff : a.meets b = true ↔
    ∃ v, a.compare? v = some .eq ∧ b.compare? v = some .eq := by
  unfold meets
  cases ha : a.asDouble? with
  | some x =>
    cases hb : b.asDouble? with
    | some y =>
      constructor
      · intro h
        exact ⟨.double y, (compare?_double ha y).mpr h,
          (compare?_double hb y).mpr (Number.beq_self (Number.beq_symm h))⟩
      · rintro ⟨v, hav, hbv⟩
        obtain ⟨z, hz, hxz⟩ := exists_asDouble?_of_compare? hav ha
        obtain ⟨z', hz', hyz⟩ := exists_asDouble?_of_compare? hbv hb
        obtain rfl := Option.some.inj (hz.symm.trans hz')
        exact (Number.beq_congr (Number.beq_symm hyz) x).mp hxz
    | none =>
      rw [decide_eq_true_eq]
      constructor
      · intro h
        obtain ⟨y, hy, -⟩ := exists_asDouble?_of_compare? h ha
        cases hb.symm.trans hy
      · rintro ⟨v, hav, hbv⟩
        obtain ⟨y, hy, -⟩ := exists_asDouble?_of_compare? hav ha
        rw [← eq_of_compare?_eq hbv hb] at hy
        cases hb.symm.trans hy
  | none =>
    rw [decide_eq_true_eq]
    constructor
    · intro h
      obtain rfl := eq_of_compare?_eq h ha
      exact ⟨a, h, h⟩
    · rintro ⟨v, hav, hbv⟩
      obtain rfl := eq_of_compare?_eq hav ha
      rcases eq_or_asDouble?_eq hbv with rfl | ⟨-, x, y, -, hy, -⟩
      · exact hbv
      · cases ha.symm.trans hy

end Value

/-! ### Qualifiers read alike -/

namespace Partition

variable {t : DataType} {p q : String} {v : Value}

/-- Whether two qualifiers are read as values to both of which some value is equal. -/
def readAlike (t : DataType) (p q : String) : Bool :=
  match Value.parse p t, Value.parse q t with
  | .ok v, .ok w => v.meets w
  | _, _ => false

/-- A qualifier that is not read matches no value that a read one matches. -/
theorem ne_canonical_of_parse {w : Value} {e : Error} (hnumeric : t.isNumeric = false)
    (hp : Value.parse p t = .ok w) (hq : Value.parse q t = .error e)
    (h : w.compare? v = some .eq) : q ≠ v.canonical := by
  rintro rfl
  have htype := Value.dataType_of_parse hp
  have hnumber : w.asDouble? = none := by
    apply Value.asDouble?_eq_none
    rw [htype]
    split
    · rfl
    · exact hnumeric
  obtain rfl := Value.eq_of_compare?_eq h hnumber
  cases t with
  | bool | date | timestamp =>
    have hread := Value.parse_canonical (v := w) (by rw [htype]; decide)
    rw [htype] at hread
    cases hread.symm.trans hq
  | bigint | double => cases hnumeric
  | null | binary => cases hp
  | string | any => cases hq

/-- Qualifiers that are spelled differently match a common value exactly when they are
    read alike. -/
theorem exists_both_match_iff (hspelled : trimmed p ≠ trimmed q)
    (hnumeric : t.isNumeric = true →
      (∃ w, Value.parse p t = .ok w) ∧ ∃ w, Value.parse q t = .ok w) :
    (∃ v, qualifierMatches p t v = true ∧ qualifierMatches q t v = true) ↔
      readAlike t p q = true := by
  have hnonnumeric {s : String} {e : Error} (hs : s = p ∨ s = q) (h : Value.parse s t = .error e) :
      t.isNumeric = false := by
    cases ht : t.isNumeric with
    | false => rfl
    | true =>
      obtain ⟨⟨w, hw⟩, ⟨w', hw'⟩⟩ := hnumeric ht
      rcases hs with rfl | rfl
      · cases hw.symm.trans h
      · cases hw'.symm.trans h
  unfold readAlike qualifierMatches
  cases hp : Value.parse p t with
  | ok w =>
    cases hq : Value.parse q t with
    | ok w' =>
      simp only [Bool.and_eq_true, decide_eq_true_eq, Value.meets_iff]
      constructor
      · rintro ⟨v, ⟨-, h⟩, -, h'⟩
        exact ⟨v, h, h'⟩
      · rintro ⟨v, h, h'⟩
        have hnull := (Value.isNull_of_compare? h).2
        exact ⟨v, ⟨by rw [hnull]; rfl, h⟩, by rw [hnull]; rfl, h'⟩
    | error e =>
      simp only [Bool.and_eq_true, decide_eq_true_eq, Bool.false_eq_true, iff_false, not_exists]
      rintro v ⟨⟨-, h⟩, -, h'⟩
      exact ne_canonical_of_parse (hnonnumeric (.inr rfl) hq) hp hq h h'
  | error e =>
    cases hq : Value.parse q t with
    | ok w' =>
      simp only [Bool.and_eq_true, decide_eq_true_eq, Bool.false_eq_true, iff_false, not_exists]
      rintro v ⟨⟨-, h⟩, -, h'⟩
      exact ne_canonical_of_parse (hnonnumeric (.inl rfl) hp) hq hp h' h
    | error e' =>
      simp only [Bool.and_eq_true, decide_eq_true_eq, Bool.false_eq_true, iff_false, not_exists]
      rintro v ⟨⟨-, h⟩, -, h'⟩
      exact hspelled (by rw [h, h'])

/-- Where texts are not read as something else, different spellings are different
    values. -/
theorem readAlike_of_text (ht : t ∈ [.null, .string, .binary, .any])
    (hspelled : trimmed p ≠ trimmed q) : readAlike t p q = false := by
  have hstring : Value.meets (.string p) (.string q) = false := by
    refine Bool.eq_false_iff.mpr fun h => hspelled ?_
    have heq := Value.eq_of_compare?_eq (a := .string p) (of_decide_eq_true h) rfl
    rw [Value.string.inj heq]
  cases t with
  | null | binary => rfl
  | string | any => exact hstring
  | bool | bigint | double | date | timestamp => simp at ht

/-! ### Lists that pass the check -/

theorem validateQualifiers_seen {seen seen' : List (List Char)} {qualifiers : List String}
    (h : validateQualifiers t seen qualifiers = .ok seen') :
    seen' = (qualifiers.map trimmed).reverse ++ seen ∧ (qualifiers.map trimmed).Nodup ∧
      ∀ q ∈ qualifiers, trimmed q ∉ seen := by
  induction qualifiers generalizing seen with
  | nil =>
    obtain rfl := Except.ok.inj h
    simp
  | cons q rest ih =>
    obtain ⟨_, -, h⟩ := except_bind_eq_ok.mp h
    obtain ⟨_, hnew, hrest⟩ := except_bind_eq_ok.mp h
    obtain ⟨hseen, hnodup, hfresh⟩ := ih hrest
    have hq : trimmed q ∉ seen := by simpa using ensure_eq_ok.mp hnew
    refine ⟨by simp [hseen], ?_, ?_⟩
    · rw [List.map_cons, List.nodup_cons]
      refine ⟨?_, hnodup⟩
      intro hmem
      obtain ⟨q', hq', heq⟩ := List.mem_map.mp hmem
      exact hfresh q' hq' (by simp [heq])
    · intro q' hq'
      rcases List.mem_cons.mp hq' with rfl | hq'
      · exact hq
      · exact fun hmem => hfresh q' hq' (List.mem_cons_of_mem _ hmem)

/-- No two lists have a spelling in common. -/
theorem validateLists_distinct {seen : List (List Char)} {i : Nat} {lists : List (List String)}
    {u : Unit} (h : validateLists t seen i lists = .ok u) :
    lists.Pairwise (fun a b => ∀ p ∈ a, ∀ q ∈ b, trimmed p ≠ trimmed q) ∧
      ∀ list ∈ lists, ∀ q ∈ list, trimmed q ∉ seen := by
  induction lists generalizing seen i with
  | nil => simp
  | cons list rest ih =>
    obtain ⟨_, -, h⟩ := except_bind_eq_ok.mp h
    obtain ⟨seen', hlist, hrest⟩ := except_bind_eq_ok.mp h
    obtain ⟨rfl, -, hfresh⟩ := validateQualifiers_seen hlist
    obtain ⟨hdistinct, hlater⟩ := ih hrest
    refine ⟨List.pairwise_cons.mpr ⟨?_, hdistinct⟩, ?_⟩
    · intro other hother p hp q hq heq
      refine hlater other hother q hq (List.mem_append_left _ ?_)
      rw [← heq]
      exact List.mem_reverse.mpr (List.mem_map_of_mem hp)
    · intro other hother q hq
      rcases List.mem_cons.mp hother with rfl | hother
      · exact hfresh q hq
      · exact fun hmem => hlater other hother q hq (List.mem_append_right _ hmem)

/-- What the check of a LIST partitioning has compared. -/
theorem validateList_distinct {r : PartitionRequest} {s : PartitionSettings} {u : Unit}
    (h : validateList r s = .ok u) :
    r.qualifiers.Pairwise fun a b => ∀ p ∈ a, ∀ q ∈ b, trimmed p ≠ trimmed q := by
  obtain ⟨_, -, h⟩ := except_bind_eq_ok.mp h
  obtain ⟨_, -, h⟩ := except_bind_eq_ok.mp h
  obtain ⟨_, hlists, -⟩ := except_bind_eq_ok.mp h
  exact (validateLists_distinct hlists).1

/-! ### Groups that share a value -/

/-- Some qualifier of the list matches the value. -/
def Listed (t : DataType) (v : Value) (list : List String) : Prop :=
  ∃ q ∈ list, qualifierMatches q t v = true

/-- No value is left to two of the lists. -/
def Unambiguous (t : DataType) (lists : List (List String)) : Prop :=
  ∀ v, lists.Pairwise fun a b => ¬(Listed t v a ∧ Listed t v b)

/-- Lists that pass the check are unambiguous when no qualifiers of two lists are read
    alike, and only then. -/
theorem unambiguous_iff_not_readAlike {r : PartitionRequest} {s : PartitionSettings}
    (h : validateList r s = .ok ()) : Unambiguous r.type r.qualifiers ↔
      r.qualifiers.Pairwise fun a b => ∀ p ∈ a, ∀ q ∈ b, readAlike r.type p q = false := by
  have hread (hnumeric : r.type.isNumeric = true) := validateList_eq_ok h hnumeric
  have hdistinct := List.pairwise_iff_getElem.mp (validateList_distinct h)
  unfold Unambiguous
  simp only [List.pairwise_iff_getElem]
  have hboth (i j : Nat) (hi : i < r.qualifiers.length) (hj : j < r.qualifiers.length)
      (hij : i < j) : (∃ v, Listed r.type v r.qualifiers[i] ∧ Listed r.type v r.qualifiers[j]) ↔
        ∃ p ∈ r.qualifiers[i], ∃ q ∈ r.qualifiers[j], readAlike r.type p q = true := by
    have hone {p q : String} (hp : p ∈ r.qualifiers[i]) (hq : q ∈ r.qualifiers[j]) :=
      exists_both_match_iff (t := r.type) (hdistinct i j hi hj hij p hp q hq) fun hnumeric =>
        ⟨hread hnumeric _ (List.getElem_mem hi) p hp, hread hnumeric _ (List.getElem_mem hj) q hq⟩
    constructor
    · rintro ⟨v, ⟨p, hp, hpv⟩, q, hq, hqv⟩
      exact ⟨p, hp, q, hq, (hone hp hq).mp ⟨v, hpv, hqv⟩⟩
    · rintro ⟨p, hp, q, hq, halike⟩
      obtain ⟨v, hpv, hqv⟩ := (hone hp hq).mpr halike
      exact ⟨v, ⟨p, hp, hpv⟩, q, hq, hqv⟩
  constructor
  · intro hall i j hi hj hij p hp q hq
    refine Bool.eq_false_iff.mpr fun halike => ?_
    obtain ⟨v, hv⟩ := (hboth i j hi hj hij).mpr ⟨p, hp, q, hq, halike⟩
    exact hall v i j hi hj hij hv
  · intro hall v i j hi hj hij hv
    obtain ⟨p, hp, q, hq, halike⟩ := (hboth i j hi hj hij).mp ⟨v, hv⟩
    rw [hall i j hi hj hij p hp q hq] at halike
    cases halike

/-- Unambiguous lists give every value its group in whatever order the groups are. -/
theorem targetList_perm {groups groups' : List PartitionGroup}
    (hlists : Unambiguous t ((groups.filter (!·.unbound)).map (·.qualifiers)))
    (hunbound : ∀ g ∈ groups, ∀ g' ∈ groups, g.unbound = true → g'.unbound = true → g = g')
    (hperm : groups.Perm groups') (v : Value) : targetList groups t v = targetList groups' t v := by
  have hlisted : groups.find? (fun g => !g.unbound && g.qualifiers.any (qualifierMatches · t v)) =
      groups'.find? (fun g => !g.unbound && g.qualifiers.any (qualifierMatches · t v)) := by
    refine List.find?_eq_find?_of_perm hperm ?_
    rintro g ⟨hg, htest⟩ g' ⟨hg', htest'⟩
    rw [Bool.and_eq_true, List.any_eq_true] at htest htest'
    by_contra hne
    have hsymm : Std.Symm fun g g' : PartitionGroup =>
        ¬(Listed t v g.qualifiers ∧ Listed t v g'.qualifiers) := ⟨fun _ _ h h' => h h'.symm⟩
    have hapart := (List.pairwise_map.mp (hlists v)).forall
      (List.mem_filter.mpr ⟨hg, htest.1⟩) (List.mem_filter.mpr ⟨hg', htest'.1⟩) hne
    exact hapart ⟨htest.2, htest'.2⟩
  have hother : groups.find? (·.unbound) = groups'.find? (·.unbound) := by
    refine List.find?_eq_find?_of_perm hperm ?_
    rintro g ⟨hg, htest⟩ g' ⟨hg', htest'⟩
    exact hunbound g hg g' hg' htest htest'
  unfold targetList unboundGroup
  rw [hlisted, hother]

/-- The qualifiers that the check of a LIST partitioning accepts leave no value to two
    groups exactly when no two qualifiers of different groups are read alike, which they
    never are where they are not read as something else than texts.  The group of a
    value then does not depend on the order of the groups. -/
theorem list_unambiguous_iff {r : PartitionRequest} {s : PartitionSettings}
    (h : validateList r s = .ok ()) :
    (Unambiguous r.type r.qualifiers ↔
      r.qualifiers.Pairwise fun a b => ∀ p ∈ a, ∀ q ∈ b, readAlike r.type p q = false) ∧
    (r.type ∈ [.null, .string, .binary, .any] → Unambiguous r.type r.qualifiers) ∧
    (Unambiguous r.type r.qualifiers → ∀ (groups groups' : List PartitionGroup) (v : Value),
      (groups.filter (!·.unbound)).map (·.qualifiers) = r.qualifiers →
      (∀ g ∈ groups, ∀ g' ∈ groups, g.unbound = true → g'.unbound = true → g = g') →
      groups.Perm groups' → targetList groups r.type v = targetList groups' r.type v) := by
  refine ⟨unambiguous_iff_not_readAlike h, ?_, ?_⟩
  · intro htype
    refine (unambiguous_iff_not_readAlike h).mpr ((validateList_distinct h).imp ?_)
    intro a b hdistinct p hp q hq
    exact readAlike_of_text htype (hdistinct p hp q hq)
  · rintro hunambiguous groups groups' v hlists hunbound hperm
    rw [← hlists] at hunambiguous
    exact targetList_perm hunambiguous hunbound hperm v

theorem list_unambiguous_iff_digits :
    Unambiguous .bigint [["7", "+8"], ["09"]] ∧
      let seven : PartitionGroup := ⟨⟨1⟩, ⟨0⟩, "p0", ["7", "+8"], false⟩
      let nine : PartitionGroup := ⟨⟨2⟩, ⟨0⟩, "p1", ["09"], false⟩
      let other : PartitionGroup := ⟨⟨3⟩, ⟨0⟩, "UNBOUND", [], true⟩
      targetList [seven, nine, other] .bigint (.bigint 9) =
        targetList [other, nine, seven] .bigint (.bigint 9) := by
  have hvalid : validateList ⟨.bigint, 3, [["7", "+8"], ["09"]]⟩ {} = .ok () := rfl
  obtain ⟨hiff, -, horder⟩ := list_unambiguous_iff hvalid
  have hunambiguous : Unambiguous .bigint [["7", "+8"], ["09"]] := by
    refine hiff.mpr (List.pairwise_pair.mpr ?_)
    decide +kernel
  refine ⟨hunambiguous, horder hunambiguous _ _ _ rfl ?_ (by decide)⟩
  simp

/-- Lists that pass the check although they leave a value to two groups: the group that
    comes first takes it. -/
theorem list_ambiguous :
    validateList ⟨.bigint, 3, [["7"], ["+7"]]⟩ {} = .ok () ∧
      ¬Unambiguous .bigint [["7"], ["+7"]] ∧
      let plain : PartitionGroup := ⟨⟨1⟩, ⟨0⟩, "p0", ["7"], false⟩
      let signed : PartitionGroup := ⟨⟨2⟩, ⟨0⟩, "p1", ["+7"], false⟩
      let other : PartitionGroup := ⟨⟨3⟩, ⟨0⟩, "UNBOUND", [], true⟩
      targetList [plain, signed, other] .bigint (.bigint 7) = .ok ⟨1⟩ ∧
        targetList [signed, plain, other] .bigint (.bigint 7) = .ok ⟨2⟩ := by
  refine ⟨rfl, ?_, rfl, rfl⟩
  intro h
  refine List.pairwise_pair.mp (h (.bigint 7)) ⟨⟨"7", by simp, ?_⟩, "+7", by simp, ?_⟩
  · decide
  · decide

end Partition

end Polystore
