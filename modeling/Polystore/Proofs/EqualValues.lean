import Mathlib.Data.List.Find
import Polystore.Proofs.Routing
import Polystore.Proofs.ValueOrder
import Polystore.Proofs.WholeNumerals

/-
  Polystore/Proofs/EqualValues.lean
  =================================
  **Equal values belong to the same group.**  Values that compare equal are the
  same, or they are numbers with equal doubles (`eq_or_asDouble?_eq`).  RANGE reads
  the double of a value, LIST compares the value with its qualifiers, and HASH takes
  its canonical text.  An integer of at most fifty-three bits is told by its double,
  so there the three readings identify what the comparison identifies.  Beside a
  longer one (`blurred`) equality does not say much: integers that are not equal to
  each other are equal to the same double.  What a function has to see alike in two
  equal values for them to meet is `PartitionKind.Agrees`.
-/

namespace Polystore

namespace Value

variable {a b v w : Value} {x : Float}

/-! ### What equal values have in common -/

theorem compareDouble_eq_iff {x y : Float} : compareDouble x y = some .eq ↔ (x == y) = true := by
  unfold compareDouble
  constructor
  · intro h
    by_cases hlt : x < y
    · rw [if_pos hlt] at h
      cases h
    · rw [if_neg hlt] at h
      by_cases heq : (x == y) = true
      · exact heq
      · rw [if_neg heq] at h
        split at h <;> cases h
  · intro h
    have hlt : ¬x < y := by
      rw [Number.lt_iff, (Number.beq_iff x y).mp h]
      exact fun hlt => by cases hlt
    rw [if_neg hlt, if_pos h]

/-- Equal values are the same, or numbers with equal doubles, one of them a double. -/
theorem eq_or_asDouble?_eq (h : a.compare? b = some .eq) :
    a = b ∨ (a.isDouble = true ∨ b.isDouble = true) ∧
      ∃ x y, a.asDouble? = some x ∧ b.asDouble? = some y ∧ (x == y) = true := by
  cases a <;> cases b <;> try cases h
  case bool.bool p q =>
    refine .inl (congrArg _ ?_)
    cases p <;> cases q <;> first | rfl | cases h
  case bigint.bigint i j =>
    exact .inl (congrArg _ (Int64.toInt_inj.mp (Int.compare_eq_eq.mp (Option.some.inj h))))
  case bigint.double i y =>
    exact .inr ⟨.inr rfl, _, y, rfl, rfl, compareDouble_eq_iff.mp h⟩
  case double.bigint x j =>
    exact .inr ⟨.inl rfl, x, _, rfl, rfl, compareDouble_eq_iff.mp h⟩
  case double.double x y =>
    exact .inr ⟨.inl rfl, x, y, rfl, rfl, compareDouble_eq_iff.mp h⟩
  case string.string s t =>
    have hst : compare s t = .eq := Option.some.inj h
    exact .inl (congrArg _ (Std.LawfulEqOrd.eq_of_compare hst))
  case binary.binary as bs =>
    exact .inl (congrArg _ (eq_of_compareBytes (Option.some.inj h)))
  case date.date d e =>
    exact .inl (congrArg _ (Int32.toInt_inj.mp (Int.compare_eq_eq.mp (Option.some.inj h))))
  case timestamp.timestamp s t =>
    exact .inl (congrArg _ (Int64.toInt_inj.mp (Int.compare_eq_eq.mp (Option.some.inj h))))

/-- An integer that may share its double with other integers, beside a double. -/
def blurred : Value → Value → Bool
  | bigint i, double _ | double _, bigint i => decide (2 ^ 53 ≤ i.toInt.natAbs)
  | _, _ => false

theorem blurred_comm (a b : Value) : a.blurred b = b.blurred a := by
  cases a <;> cases b <;> rfl

theorem natAbs_lt_of_not_blurred {i : Int64} (h : (bigint i).blurred v = false)
    (hv : v.isDouble = true) : i.toInt.natAbs < 2 ^ 53 := by
  cases v <;> try cases hv
  exact Nat.lt_of_not_le (of_decide_eq_false h)

/-- The value is an integer only if its double is exact. -/
def Exact (v : Value) : Prop := ∀ i, v = bigint i → i.toInt.natAbs < 2 ^ 53

theorem exact_of_not_blurred (h : a.blurred b = false)
    (hdouble : a.isDouble = true ∨ b.isDouble = true) : a.Exact ∧ b.Exact := by
  constructor
  · rintro i rfl
    exact natAbs_lt_of_not_blurred h (hdouble.resolve_left (fun hi => by cases hi))
  · rintro i rfl
    rw [blurred_comm] at h
    exact natAbs_lt_of_not_blurred h (hdouble.resolve_right (fun hi => by cases hi))

/-! ### Comparing with a third value -/

/-- What is equal to a number is a number with the same double. -/
theorem compare?_eq_iff (hx : v.asDouble? = some x) (hself : (x == x) = true)
    (hexact : ∀ k, w = bigint k → v.Exact) :
    w.compare? v = some .eq ↔ ∃ z, w.asDouble? = some z ∧ (z == x) = true := by
  have hdouble {z : Float} (hz : w.asDouble? = some z) (hw : w.compare? v = compareDouble z x) :
      w.compare? v = some .eq ↔ ∃ z, w.asDouble? = some z ∧ (z == x) = true := by
    rw [hw, compareDouble_eq_iff, hz]
    constructor
    · intro h
      exact ⟨z, rfl, h⟩
    · rintro ⟨z', hz', h⟩
      rwa [Option.some.inj hz']
  cases v <;> try cases hx
  case double =>
    cases w with
    | double z => exact hdouble rfl rfl
    | bigint k => exact hdouble rfl rfl
    | _ => simp [compare?, asDouble?]
  case bigint i =>
    cases w with
    | double z => exact hdouble rfl rfl
    | bigint k =>
      have hi : i.toInt.natAbs < 2 ^ 53 := hexact k rfl i rfl
      have hk : k.toInt.natAbs ≤ 2 ^ 63 := Number.natAbs_toInt_le k
      constructor
      · intro h
        obtain heq : k.toInt = i.toInt := Int.compare_eq_eq.mp (Option.some.inj h)
        refine ⟨_, rfl, ?_⟩
        rw [heq]
        exact hself
      · rintro ⟨z, hz, h⟩
        rw [← Option.some.inj hz] at h
        have heq : i.toInt = k.toInt := Number.ofInt_injective hi hk (Number.beq_symm h)
        rw [compare?, heq]
        exact congrArg some (Int.compare_eq_eq.mpr rfl)
    | _ => simp [compare?, asDouble?]

/-- Equal values are equal to the same values. -/
theorem compare?_congr (h : a.compare? b = some .eq)
    (hblurred : ∀ k, w = bigint k → a.blurred b = false) :
    w.compare? a = some .eq ↔ w.compare? b = some .eq := by
  rcases eq_or_asDouble?_eq h with rfl | ⟨hdouble, x, y, hx, hy, heq⟩
  · exact .rfl
  · have hself : (y == y) = true := Number.beq_self (Number.beq_symm heq)
    rw [compare?_eq_iff hx (Number.beq_self heq) fun k hk =>
        (exact_of_not_blurred (hblurred k hk) hdouble).1,
      compare?_eq_iff hy hself fun k hk => (exact_of_not_blurred (hblurred k hk) hdouble).2]
    exact exists_congr fun z => and_congr_right fun _ => Number.beq_congr heq z

/-! ### Canonical texts -/

theorem canonical_eq_render (hx : v.asDouble? = some x) (hexact : v.Exact) :
    v.canonical = Number.plain.render x := by
  cases v <;> try cases hx
  case bigint i => exact (Number.render_ofInt (hexact i rfl)).symm
  case double => rfl

/-- Whether the value is the zero that has a sign. -/
def isNegativeZero (v : Value) : Bool :=
  v.asDouble?.map Number.parts = some (.finite true 0 (-1074))

/-- Equal values have the same canonical text, unless one of them is the negative
    zero and the other one another zero. -/
theorem canonical_cases (h : a.compare? b = some .eq) (hblurred : a.blurred b = false) :
    a.canonical = b.canonical ∧ a.isNegativeZero = b.isNegativeZero ∨
      a.canonical ≠ b.canonical ∧ a.isNegativeZero ≠ b.isNegativeZero ∧
        a.canonical ∈ ["0", "-0"] ∧ b.canonical ∈ ["0", "-0"] := by
  rcases eq_or_asDouble?_eq h with rfl | ⟨hdouble, x, y, hx, hy, heq⟩
  · exact .inl ⟨rfl, rfl⟩
  · obtain ⟨ha, hb⟩ := exact_of_not_blurred hblurred hdouble
    rw [canonical_eq_render hx ha, canonical_eq_render hy hb, isNegativeZero, isNegativeZero, hx,
      hy, Option.map_some, Option.map_some]
    unfold Number.Layout.render
    rcases Number.parts_of_beq heq with hparts | ⟨s, t, hs, ht⟩
    · rw [hparts]
      exact .inl ⟨rfl, rfl⟩
    · rw [hs, ht]
      cases s <;> cases t <;> decide

/-- The values have the same canonical text; of equal values it is enough to know
    that no integer is blurred and that no negative zero stands beside another zero. -/
def SameText (a b : Value) : Prop :=
  a.canonical = b.canonical ∨ a.blurred b = false ∧ a.isNegativeZero = b.isNegativeZero

/-- Where no integer is blurred, equal values are written differently only as zeros of
    two signs. -/
theorem canonical_eq_iff (h : a.compare? b = some .eq) (hblurred : a.blurred b = false) :
    a.canonical = b.canonical ↔ a.isNegativeZero = b.isNegativeZero := by
  rcases canonical_cases h hblurred with ⟨htext, hzero⟩ | ⟨htext, hzero, -⟩
  · exact iff_of_true htext hzero
  · exact iff_of_false htext hzero

theorem sameText_iff (h : a.compare? b = some .eq) : a.SameText b ↔ a.canonical = b.canonical := by
  constructor
  · rintro (htext | ⟨hblurred, hzero⟩)
    · exact htext
    · exact (canonical_eq_iff h hblurred).mpr hzero
  · exact .inl

end Value

/-! ### What a function reads of a value -/

open Value

/-- What the function reads of the values does not tell them apart if they are equal.
    LIST reads qualifiers as values of the column's type; those that are not read are
    compared with the canonical text. -/
def PartitionKind.ReadsAlike (kind : PartitionKind) (t : DataType) (a b : Value) : Prop :=
  match kind, t with
  | .range, _ => True
  | .list, .double | .list, .string | .list, .any => True
  | .list, .bigint | .list, .date | .list, .timestamp => a.blurred b = false
  | .list, _ | .hash, _ => a.SameText b

namespace Partition

variable {a b : Value} {type : DataType} {groups : List PartitionGroup} {q : String}

theorem targetHash_congr (htext : a.canonical = b.canonical) :
    targetHash groups a = targetHash groups b := by
  unfold targetHash hash
  rw [htext]

theorem rangeContaining?_congr {x y : Float} (h : (x == y) = true) :
    rangeContaining? type x groups = rangeContaining? type y groups := by
  induction groups with
  | nil => rfl
  | cons g rest ih =>
    unfold rangeContaining?
    rw [ih]
    refine bind_congr ?_
    rintro ⟨lower, upper⟩
    simp only [(Number.le_congr h lower).1, (Number.le_congr h upper).2]

theorem targetRange_congr (hunbound : ∃ g ∈ groups, g.unbound = true)
    (h : a.compare? b = some .eq) : targetRange groups type a = targetRange groups type b := by
  obtain ⟨g, -, -, hother⟩ := exists_unboundGroup hunbound
  rcases eq_or_asDouble?_eq h with rfl | ⟨-, x, y, hx, hy, heq⟩
  · rfl
  · unfold targetRange
    rw [hx, hy, hother a, hother b]
    dsimp only
    rw [rangeContaining?_congr heq]

/-- Only qualifiers of a BIGINT column are read as integers. -/
theorem eq_bigint_of_parse {k : Int64} (h : Value.parse q type = .ok (.bigint k)) :
    type = .bigint := by
  have hother {α : Type} {e : Error} {o : Option α} {f : α → Value}
      (h : require e (o.map f) = .ok (.bigint k)) (hf : ∀ x, f x ≠ .bigint k) : type = .bigint := by
    obtain ⟨x, -, hx⟩ := Option.map_eq_some_iff.mp (require_eq_ok.mp h)
    exact absurd hx (hf x)
  cases type with
  | bigint => rfl
  | bool | double | date | timestamp => exact hother h (fun _ hx => by cases hx)
  | null | string | binary | any => cases h

/-- A qualifier that is not read says the same about both values. -/
theorem eq_canonical_congr {e : Error} (h : a.compare? b = some .eq)
    (halike : PartitionKind.list.ReadsAlike type a b)
    (hlisted : type.isNumeric = true → ∃ w, Value.parse q type = .ok w)
    (hparse : Value.parse q type = .error e) : q = a.canonical ↔ q = b.canonical := by
  have hzero (hreads : ∀ s ∈ ["0", "-0"], (Value.parse s type).isOk = true)
      (hblurred : a.blurred b = false) : q = a.canonical ↔ q = b.canonical := by
    rcases canonical_cases h hblurred with ⟨heq, -⟩ | ⟨-, -, ha, hb⟩
    · rw [heq]
    · have hdiffer : ∀ s ∈ ["0", "-0"], q ≠ s := by
        rintro s hs rfl
        have hok := hreads q hs
        rw [hparse] at hok
        cases hok
      exact iff_of_false (hdiffer _ ha) (hdiffer _ hb)
  cases type with
  | bigint | double =>
    obtain ⟨w, hw⟩ := hlisted rfl
    cases hparse.symm.trans hw
  | string | any => cases hparse
  | date | timestamp => exact hzero (by decide) halike
  | null | bool | binary => rw [(sameText_iff h).mp halike]

theorem qualifierMatches_congr (h : a.compare? b = some .eq)
    (halike : PartitionKind.list.ReadsAlike type a b)
    (hlisted : type.isNumeric = true → ∃ w, Value.parse q type = .ok w) :
    qualifierMatches q type a = qualifierMatches q type b := by
  obtain ⟨ha, hb⟩ := isNull_of_compare? h
  unfold qualifierMatches
  rw [ha, hb]
  cases hparse : Value.parse q type with
  | ok w =>
    have hblurred : ∀ k, w = .bigint k → a.blurred b = false := by
      rintro k rfl
      obtain rfl := eq_bigint_of_parse hparse
      exact halike
    simp only [compare?_congr h hblurred]
  | error e =>
    simp only [eq_canonical_congr h halike hlisted hparse]

theorem targetList_congr (hunbound : ∃ g ∈ groups, g.unbound = true)
    (hlisted : type.isNumeric = true →
      ∀ g ∈ groups, g.unbound = false → ∀ q ∈ g.qualifiers, ∃ w, Value.parse q type = .ok w)
    (h : a.compare? b = some .eq) (halike : PartitionKind.list.ReadsAlike type a b) :
    targetList groups type a = targetList groups type b := by
  obtain ⟨other, -, -, hother⟩ := exists_unboundGroup hunbound
  have hfind : groups.find? (fun g => !g.unbound && g.qualifiers.any (qualifierMatches · type a)) =
      groups.find? (fun g => !g.unbound && g.qualifiers.any (qualifierMatches · type b)) := by
    refine List.find?_congr ?_
    intro g hg
    cases hbound : g.unbound with
    | true => rfl
    | false =>
      have hsame : ∀ q ∈ g.qualifiers, qualifierMatches q type a = qualifierMatches q type b := by
        intro q hq
        exact qualifierMatches_congr h halike fun hnumeric => hlisted hnumeric g hg hbound q hq
      have hany : g.qualifiers.any (qualifierMatches · type a) =
          g.qualifiers.any (qualifierMatches · type b) := by
        rw [Bool.eq_iff_iff, List.any_eq_true, List.any_eq_true]
        exact exists_congr fun q => and_congr_right fun hq => by rw [hsame q hq]
      rw [hany]
  unfold targetList
  rw [hfind, hother a, hother b]

/-- Equal values have the same group. -/
theorem Fits.target_congr {kind : PartitionKind} (hfits : Fits kind type groups)
    (h : a.compare? b = some .eq) (halike : kind.ReadsAlike type a b) :
    kind.target groups type a = kind.target groups type b := by
  cases kind with
  | hash => exact targetHash_congr ((sameText_iff h).mp halike)
  | list => exact targetList_congr (hfits.unbound rfl) (hfits.listed rfl) h halike
  | range => exact targetRange_congr (hfits.unbound rfl) h

/-! ### What has to agree -/

/-- The group has a qualifier that denotes the value. -/
def Lists (t : DataType) (g : PartitionGroup) (v : Value) : Prop :=
  (!g.unbound && g.qualifiers.any (qualifierMatches · t v)) = true

/-- The first group that lists a value. -/
def listing? (groups : List PartitionGroup) (t : DataType) (v : Value) : Option PartitionGroup :=
  groups.find? fun g => !g.unbound && g.qualifiers.any (qualifierMatches · t v)

/-- Two searches find the same when each finds what the other one looks for. -/
theorem find?_eq_find?_iff {α : Type} {p q : α → Bool} {l : List α} : l.find? p = l.find? q ↔
    (∀ x, l.find? p = some x → q x = true) ∧ ∀ x, l.find? q = some x → p x = true := by
  induction l with
  | nil => simp
  | cons y l ih =>
    rw [List.find?_cons, List.find?_cons]
    cases hp : p y <;> cases hq : q y
    · exact ih
    · simp only [hp, Option.some.injEq, forall_eq', Bool.false_eq_true, and_false, iff_false]
      intro hfind
      have hfound := List.find?_some hfind
      rw [hp] at hfound
      cases hfound
    · simp only [hq, Option.some.injEq, forall_eq', Bool.false_eq_true, false_and, iff_false]
      intro hfind
      have hfound := List.find?_some hfind.symm
      rw [hq] at hfound
      cases hfound
    · simp [hp, hq]

theorem listing?_bound {g : PartitionGroup} (h : listing? groups type a = some g) :
    g ∈ groups ∧ g.unbound = false := by
  have hlists := List.find?_some h
  rw [Bool.and_eq_true, Bool.not_eq_true'] at hlists
  exact ⟨List.mem_of_find?_eq_some h, hlists.1⟩

/-- LIST takes the first group that lists the value, or else the one without bounds. -/
theorem exists_targetList_eq (hunbound : ∃ g ∈ groups, g.unbound = true) :
    ∃ other ∈ groups, other.unbound = true ∧
      ∀ t v, targetList groups t v = .ok ((listing? groups t v).getD other).id := by
  obtain ⟨other, hother, hopen, htarget⟩ := exists_unboundGroup hunbound
  refine ⟨other, hother, hopen, fun t v => ?_⟩
  unfold targetList
  cases hg : listing? groups t v with
  | some g => rw [show groups.find? _ = some g from hg, Option.getD_some]
  | none =>
    rw [show groups.find? _ = none from hg, Option.getD_none]
    exact htarget v

theorem targetList_eq_iff (hdistinct : (groups.map (·.id)).Nodup)
    (hunbound : ∃ g ∈ groups, g.unbound = true) :
    targetList groups type a = targetList groups type b ↔
      listing? groups type a = listing? groups type b := by
  obtain ⟨other, hother, hopen, htarget⟩ := exists_targetList_eq hunbound
  have hmem (v : Value) : (listing? groups type v).getD other ∈ groups := by
    cases hg : listing? groups type v with
    | none => exact hother
    | some g => exact (listing?_bound hg).1
  have hne {v : Value} {g : PartitionGroup} (hg : listing? groups type v = some g) :
      g ≠ other := by
    rintro rfl
    rw [(listing?_bound hg).2] at hopen
    cases hopen
  rw [htarget, htarget, Except.ok.injEq]
  constructor
  · intro hids
    have hsame := List.inj_on_of_nodup_map hdistinct (hmem a) (hmem b) hids
    cases ha : listing? groups type a with
    | none =>
      cases hb : listing? groups type b with
      | none => rfl
      | some g =>
        rw [ha, hb] at hsame
        exact absurd hsame.symm (hne hb)
    | some g =>
      cases hb : listing? groups type b with
      | none =>
        rw [ha, hb] at hsame
        exact absurd hsame (hne ha)
      | some g' =>
        rw [ha, hb] at hsame
        exact congrArg some hsame
  · intro h
    rw [h]

theorem targetHash_eq_iff (hdistinct : (groups.map (·.id)).Nodup) (hne : groups ≠ []) :
    targetHash groups a = targetHash groups b ↔
      (hash a).toNat % groups.length = (hash b).toNat % groups.length := by
  have hlt (v : Value) : (hash v).toNat % groups.length < (groups.map (·.id)).length := by
    rw [List.length_map]
    exact Nat.mod_lt _ (List.length_pos_iff.mpr hne)
  have htarget (v : Value) : targetHash groups v = .ok ((groups.map (·.id)).get ⟨_, hlt v⟩) := by
    rw [targetHash, ← List.getElem?_map, List.getElem?_eq_getElem (hlt v)]
    rfl
  rw [htarget, htarget, Except.ok.injEq, hdistinct.get_inj_iff, Fin.mk.injEq]

end Partition

/-- Whether the function has no way to tell the values apart.  LIST finds them in the same
    group: the first one that lists either of them lists the other.  HASH depends on the
    remainder only. -/
def PartitionKind.Agrees (kind : PartitionKind) (groups : List PartitionGroup) (t : DataType)
    (a b : Value) : Prop :=
  match kind with
  | .range => True
  | .list => (∀ g, Partition.listing? groups t a = some g → Partition.Lists t g b) ∧
      ∀ g, Partition.listing? groups t b = some g → Partition.Lists t g a
  | .hash =>
    (Partition.hash a).toNat % groups.length = (Partition.hash b).toNat % groups.length

/-- Equal values have the same group exactly if the function does not tell them apart. -/
theorem Partition.Fits.target_eq_iff {kind : PartitionKind} {groups : List PartitionGroup}
    {type : DataType} {a b : Value} (hfits : Fits kind type groups)
    (h : a.compare? b = some .eq) :
    kind.target groups type a = kind.target groups type b ↔ kind.Agrees groups type a b := by
  cases kind with
  | hash => exact targetHash_eq_iff hfits.distinct hfits.nonempty
  | list => exact (targetList_eq_iff hfits.distinct (hfits.unbound rfl)).trans find?_eq_find?_iff
  | range => exact iff_of_true (targetRange_congr (hfits.unbound rfl) h) trivial

namespace Router

variable {c : Catalog} {id : TableId}

/-- In a table that the router has partitioned two equal values both have a group, whatever
    calls follow, as long as none partitions it anew.  It is the same one exactly if the
    function does not tell the values apart, and however the groups were made that is so for
    values that it reads alike. -/
theorem equal_values_meet {settings : PartitionSettings} {kind : PartitionKind}
    {columnName : String} {count : Nat} {qualifiers : List (List String)} {gs : List PartitionId}
    {x : Column} {a b : Value} (hc : c.Reachable)
    (hok : (partition settings id kind columnName count qualifiers).result c = .ok gs)
    (hx : c.columnNamed id columnName = .ok x) (calls : List CatalogCall)
    (hcalls : CatalogCall.Throughout (fun call c => ¬call.Repartitions id c) calls
      ((partition settings id kind columnName count qualifiers).after c))
    (h : a.compare? b = some .eq) :
    let c' := CatalogCall.run calls
      ((partition settings id kind columnName count qualifiers).after c)
    ∃ groups, c'.groupsOf id = .ok groups ∧ gs = groups.map (·.id) ∧
      ∃ g ∈ gs, ∃ g' ∈ gs, target c' id a = .ok g ∧ target c' id b = .ok g' ∧
        (g = g' ↔ kind.Agrees groups x.type a b) ∧ (kind.ReadsAlike x.type a b → g = g') := by
  intro c'
  obtain ⟨hreachable, x', groups, hx', rfl, hfits, hpartitioned⟩ := partition_eq_ok hc hok
  obtain rfl := Except.ok.inj (hx.symm.trans hx')
  have hc' : c'.Reachable := CatalogCall.reachable_run hreachable calls
  have hpartitioned' : c'.Partitioned id kind x groups :=
    CatalogCall.partitioned_run hpartitioned hcalls
  obtain ⟨g, hg, htarget⟩ := exists_target hc' hpartitioned' hfits a
  obtain ⟨g', hg', htarget'⟩ := exists_target hc' hpartitioned' hfits b
  refine ⟨groups, hpartitioned'.groupsOf_eq hc'.linked, rfl, g, hg, g', hg', htarget, htarget',
    ?_, ?_⟩
  · rw [← hfits.target_eq_iff h, ← hpartitioned'.target_eq hc'.linked a,
      ← hpartitioned'.target_eq hc'.linked b, htarget, htarget', Except.ok.injEq]
  · intro halike
    have hsame := hfits.target_congr h halike
    rw [← hpartitioned'.target_eq hc'.linked a, ← hpartitioned'.target_eq hc'.linked b, htarget,
      htarget'] at hsame
    exact Except.ok.inj hsame

theorem equal_values_meet_sevens :
    let session := partition {} ⟨1⟩ .hash "n" 2 []
    let c := (Catalog.createTable ⟨"app", "users", [⟨"n", .bigint, true⟩], [], [], none⟩).after {}
    let calls := [CatalogCall.setRows ⟨1⟩ 100]
    let c' := CatalogCall.run calls (session.after c)
    let seven := Value.double (Float.ofBits 0x401C000000000000)
    ∃ g ∈ [⟨4⟩, ⟨5⟩], target c' ⟨1⟩ (.bigint 7) = .ok g ∧ target c' ⟨1⟩ seven = .ok g := by
  intro session c calls c' seven
  have hok : session.result c = .ok [⟨4⟩, ⟨5⟩] := rfl
  have hcalls : CatalogCall.Throughout (fun call c => ¬call.Repartitions ⟨1⟩ c) calls
      (session.after c) := by
    refine ⟨?_, trivial⟩
    rintro ⟨⟨p, groups, hinstall⟩, -⟩
    cases hinstall
  have halike : PartitionKind.hash.ReadsAlike .bigint (.bigint 7) seven := by
    exact .inr (by decide)
  have hequal : (Value.bigint 7).compare? seven = some .eq := rfl
  obtain ⟨-, -, -, g, hg, g', -, htarget, htarget', -, hmeet⟩ :=
    equal_values_meet (.createTable _ .empty) hok rfl calls hcalls hequal
  exact ⟨g, hg, htarget, hmeet halike ▸ htarget'⟩

theorem equal_values_apart :
    let c := (Catalog.createTable ⟨"app", "users", [⟨"n", .bigint, true⟩], [], [], none⟩).after {}
    let listed := partition {} ⟨1⟩ .list "n" 2 [["9007199254740993"]]
    let hashed := partition {} ⟨1⟩ .hash "n" 2 []
    let x := Value.double (Float.ofBits 0x4340000000000000)
    let y := Value.double (Float.ofBits 0x4340000000000002)
    let z := Value.double (Float.ofBits 0x8000000000000000)
    (listed.result c = .ok [⟨4⟩, ⟨5⟩] ∧ (Value.bigint 9007199254740992).compare? x = some .eq ∧
      target (listed.after c) ⟨1⟩ (.bigint 9007199254740992) = .ok ⟨5⟩ ∧
      target (listed.after c) ⟨1⟩ x = .ok ⟨4⟩) ∧
    hashed.result c = .ok [⟨4⟩, ⟨5⟩] ∧
      ((Value.bigint 9007199254740995).compare? y = some .eq ∧
        target (hashed.after c) ⟨1⟩ (.bigint 9007199254740995) = .ok ⟨4⟩ ∧
        target (hashed.after c) ⟨1⟩ y = .ok ⟨5⟩) ∧
      (Value.bigint 0).compare? z = some .eq ∧
        target (hashed.after c) ⟨1⟩ (.bigint 0) = .ok ⟨4⟩ ∧
        target (hashed.after c) ⟨1⟩ z = .ok ⟨5⟩ := by
  decide +kernel

end Router

end Polystore
