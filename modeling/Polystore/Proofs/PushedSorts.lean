import Polystore.Proofs.BranchTerms
import Polystore.Proofs.JsonMembers
import Polystore.Pushdown.Document

/-
  Polystore/Proofs/PushedSorts.lean
  =================================
  **Sorting in a document store.**  A `$sort` stage names its keys in the order of their
  significance: the first key on which two documents differ decides.  The stage is an
  object, and the members of an object stand in ascending order of their names, whatever
  the order in which they were set.  So the order of a collation survives only where it
  happens to be the order of the names (`sort_significance_iff`).

  A collation may name a field again.  The later mention is without effect there, because
  the first one has decided; in the object it is the last one that counts.
-/

namespace Polystore

variable {α : Type} [LinearOrder α]

/-! ### What a collation asks for -/

/-- The order of two values of a field; `none` is `NULL`. -/
def FieldCollation.order (c : FieldCollation) : Option α → Option α → Ordering
  | none, none => .eq
  | none, some _ => if c.nulls = .first then .lt else .gt
  | some _, none => if c.nulls = .first then .gt else .lt
  | some x, some y => if c.direction = .ascending then compare x y else compare y x

/-- The order of two rows: the first field on which they differ decides. -/
def Collation.order (c : Collation) (a b : Nat → Option α) : Ordering :=
  c.foldr (fun k rest => (k.order (a k.field) (b k.field)).then rest) .eq

namespace Document

/-! ### What a store does -/

/-- The members of the `$sort` stage with which a fragment begins, none without one. -/
def sortMembers (f : Fragment) : Json.Members :=
  match f.body with
  | .json (.array (.object [("$sort", .object keys)] :: _)) => keys
  | _ => []

/-- Null and missing values are lowest. -/
def nullsLowest : Option α → Option α → Ordering
  | none, none => .eq
  | none, some _ => .lt
  | some _, none => .gt
  | some x, some y => compare x y

/-- The order on one key: descending if its direction is negative. -/
def keyOrder (direction : Json) (x y : Option α) : Ordering :=
  match direction with
  | .int (.negSucc _) => (nullsLowest x y).swap
  | _ => nullsLowest x y

/-- The order of two documents, each given by what it holds under a name. -/
def sortOrder (keys : Json.Members) (a b : String → Option α) : Ordering :=
  keys.foldr (fun k rest => (keyOrder k.2 (a k.1) (b k.1)).then rest) .eq

/-- A document holds the values of a row under the names of the fields. -/
def HoldsFields (ctx : PushContext) (row : Nat → Option α) (doc : String → Option α) : Prop :=
  ∀ i name, ctx.name? i = some name → doc name = row i

/-- The keys order the documents of rows as the collation orders the rows. -/
def OrdersAs (α : Type) [LinearOrder α] (ctx : PushContext) (keys : Json.Members) (c : Collation) :
    Prop :=
  ∀ (a b : Nat → Option α) (da db : String → Option α), HoldsFields ctx a da →
    HoldsFields ctx b db → sortOrder keys da db = Collation.order c a b

variable {ctx : PushContext} {keys : Json.Members} {a b : String → Option α}

theorem nullsLowest_self (x : Option α) : nullsLowest x x = .eq := by
  cases x with
  | none => rfl
  | some x => exact compare_eq_iff_eq.mpr rfl

theorem keyOrder_eq_eq {direction : Json} {x y : Option α} (h : nullsLowest x y = .eq) :
    keyOrder direction x y = .eq := by
  unfold keyOrder
  split
  · rw [h]
    rfl
  · exact h

theorem nullsLowest_eq_of_keyOrder {direction : Json} {x y : Option α}
    (h : keyOrder direction x y = .eq) : nullsLowest x y = .eq := by
  unfold keyOrder at h
  split at h
  · exact Ordering.swap_eq_eq.mp h
  · exact h

theorem sortOrder_cons (k : String × Json) (keys : Json.Members) (a b : String → Option α) :
    sortOrder (k :: keys) a b = (keyOrder k.2 (a k.1) (b k.1)).then (sortOrder keys a b) := rfl

/-! ### Repeated keys -/

/-- The first member of each name. -/
def firstMentions : Json.Members → Json.Members
  | [] => []
  | k :: rest => k :: Json.remove k.1 (firstMentions rest)

/-- A key on which two documents agree does not tell them apart. -/
theorem sortOrder_remove {name : String} (h : nullsLowest (a name) (b name) = .eq)
    (keys : Json.Members) : sortOrder (Json.remove name keys) a b = sortOrder keys a b := by
  induction keys with
  | nil => rfl
  | cons k rest ih =>
    by_cases hk : k.1 = name
    · have hremove : Json.remove name (k :: rest) = Json.remove name rest := by
        simp [Json.remove, hk]
      rw [hremove, ih, sortOrder_cons, hk, keyOrder_eq_eq h]
      rfl
    · have hremove : Json.remove name (k :: rest) = k :: Json.remove name rest := by
        simp [Json.remove, hk]
      rw [hremove, sortOrder_cons, sortOrder_cons, ih]

theorem sortOrder_firstMentions (keys : Json.Members) (a b : String → Option α) :
    sortOrder (firstMentions keys) a b = sortOrder keys a b := by
  induction keys with
  | nil => rfl
  | cons k rest ih =>
    rw [firstMentions, sortOrder_cons, sortOrder_cons]
    cases hk : keyOrder k.2 (a k.1) (b k.1) with
    | eq => rw [sortOrder_remove (nullsLowest_eq_of_keyOrder hk), ih]
    | _ => rfl

theorem lookup_firstMentions (name : String) (keys : Json.Members) :
    Json.lookup name (firstMentions keys) = Json.lookup name keys := by
  induction keys with
  | nil => rfl
  | cons k rest ih =>
    rw [firstMentions, Json.lookup_cons, Json.lookup_cons]
    split
    · rfl
    · rename_i hk
      rw [Json.lookup_remove_of_ne (Ne.symm hk), ih]

theorem nodup_firstMentions (keys : Json.Members) : ((firstMentions keys).map (·.1)).Nodup := by
  induction keys with
  | nil => exact List.nodup_nil
  | cons k rest ih =>
    rw [firstMentions, List.map_cons, List.nodup_cons]
    constructor
    · intro hmem
      obtain ⟨p, hp, hname⟩ := List.mem_map.mp hmem
      have hne : p.1 ≠ k.1 := by simpa using (List.mem_filter.mp hp).2
      exact hne hname
    · refine ih.sublist (List.Sublist.map _ ?_)
      exact List.filter_sublist

theorem firstMentions_subset (keys : Json.Members) : firstMentions keys ⊆ keys := by
  induction keys with
  | nil => exact List.Subset.refl _
  | cons k rest ih =>
    apply List.cons_subset_cons
    exact List.Subset.trans (List.filter_subset_self _) ih

/-! ### Keys that order alike -/

def IsDirection (j : Json) : Prop := j = .int 1 ∨ j = .int (-1)

theorem keyOrder_ascending (x y : Option α) : keyOrder (.int 1) x y = nullsLowest x y := rfl

theorem keyOrder_descending (x y : Option α) :
    keyOrder (.int (-1)) x y = (keyOrder (.int 1) x y).swap := rfl

theorem sortOrder_congr {a' b' : String → Option α}
    (h : ∀ k ∈ keys, a k.1 = a' k.1 ∧ b k.1 = b' k.1) :
    sortOrder keys a b = sortOrder keys a' b' := by
  induction keys with
  | nil => rfl
  | cons k rest ih =>
    obtain ⟨hk, hrest⟩ := List.forall_mem_cons.mp h
    rw [sortOrder_cons, sortOrder_cons, hk.1, hk.2, ih hrest]

variable {k k' : String × Json} {rest rest' : Json.Members}

/-- What follows the first key decides on documents that agree on that key. -/
theorem sortOrder_rest_eq (hrest : k.1 ∉ rest.map (·.1)) (hrest' : k.1 ∉ rest'.map (·.1))
    (h : ∀ a b : String → Option α, sortOrder (k :: rest) a b = sortOrder (k :: rest') a b)
    (a b : String → Option α) : sortOrder rest a b = sortOrder rest' a b := by
  have hsame (keys : Json.Members) (hmem : k.1 ∉ keys.map (·.1)) :
      sortOrder keys (Function.update a k.1 none) (Function.update b k.1 none) =
        sortOrder keys a b := by
    apply sortOrder_congr
    intro p hp
    have hne : p.1 ≠ k.1 := fun heq => hmem (heq ▸ List.mem_map_of_mem hp)
    exact ⟨Function.update_of_ne hne none a, Function.update_of_ne hne none b⟩
  have horder := h (Function.update a k.1 none) (Function.update b k.1 none)
  rw [sortOrder_cons, sortOrder_cons, hsame rest hrest, hsame rest' hrest',
    Function.update_self, Function.update_self, keyOrder_eq_eq (nullsLowest_self none)] at horder
  exact horder

section

variable [Nonempty α]

theorem exists_keyOrder_eq_lt {direction : Json} (h : IsDirection direction) :
    ∃ x y : Option α, keyOrder direction x y = .lt ∧ keyOrder direction y x = .gt := by
  obtain ⟨v⟩ := ‹Nonempty α›
  rcases h with rfl | rfl
  · exact ⟨none, some v, rfl, rfl⟩
  · exact ⟨some v, none, rfl, rfl⟩

theorem exists_sortOrder_ne_eq {k : String × Json} (hk : IsDirection k.2) (rest : Json.Members) :
    ∃ a b : String → Option α, sortOrder (k :: rest) a b ≠ .eq := by
  obtain ⟨x, y, hlt, -⟩ := exists_keyOrder_eq_lt (α := α) hk
  refine ⟨fun _ => x, fun _ => y, ?_⟩
  rw [sortOrder_cons, hlt]
  exact Ordering.noConfusion

/-- Two documents that differ nowhere but on the first keys show what these are. -/
theorem first_key_eq (hk : IsDirection k.2) (hk' : IsDirection k'.2)
    (h : ∀ a b : String → Option α, sortOrder (k :: rest) a b = sortOrder (k' :: rest') a b) :
    k = k' := by
  obtain ⟨x, y, hlt, hgt⟩ := exists_keyOrder_eq_lt (α := α) hk
  obtain ⟨x', y', hlt', hgt'⟩ := exists_keyOrder_eq_lt (α := α) hk'
  have hname : k.1 = k'.1 := by
    by_contra hne
    have horder := h (fun n => if n = k.1 then x else y') (fun n => if n = k.1 then y else x')
    simp only [sortOrder_cons, if_true, if_neg (Ne.symm hne), hlt, hgt'] at horder
    cases horder
  have hdirection : k.2 = k'.2 := by
    have horder := h (fun _ => x) fun _ => y
    rw [sortOrder_cons, sortOrder_cons, hlt] at horder
    rcases hk with hk | hk <;> rcases hk' with hk' | hk'
    · rw [hk, hk']
    · rw [hk] at hlt
      rw [hk', keyOrder_descending, hlt] at horder
      cases horder
    · have hgt : keyOrder (.int 1) x y = .gt := by simpa [hk, keyOrder_descending] using hlt
      rw [hk', hgt] at horder
      cases horder
    · rw [hk, hk']
  exact Prod.ext hname hdirection

/-- Keys that order all documents alike are the same. -/
theorem eq_of_sortOrder_eq {keys keys' : Json.Members} (hkeys : (keys.map (·.1)).Nodup)
    (hkeys' : (keys'.map (·.1)).Nodup) (hdirection : ∀ k ∈ keys, IsDirection k.2)
    (hdirection' : ∀ k ∈ keys', IsDirection k.2)
    (h : ∀ a b : String → Option α, sortOrder keys a b = sortOrder keys' a b) : keys = keys' := by
  induction keys generalizing keys' with
  | nil =>
    cases keys' with
    | nil => rfl
    | cons k' rest' =>
      obtain ⟨a, b, hne⟩ :=
        exists_sortOrder_ne_eq (α := α) (hdirection' k' List.mem_cons_self) rest'
      exact absurd (h a b).symm hne
  | cons k rest ih =>
    cases keys' with
    | nil =>
      obtain ⟨a, b, hne⟩ := exists_sortOrder_ne_eq (α := α) (hdirection k List.mem_cons_self) rest
      exact absurd (h a b) hne
    | cons k' rest' =>
      obtain rfl : k = k' :=
        first_key_eq (hdirection k List.mem_cons_self) (hdirection' k' List.mem_cons_self) h
      obtain ⟨hfirst, hnodup⟩ := List.nodup_cons.mp hkeys
      obtain ⟨hfirst', hnodup'⟩ := List.nodup_cons.mp hkeys'
      have hrests : rest = rest' := by
        apply ih hnodup hnodup'
        · exact fun p hp => hdirection p (List.mem_cons_of_mem k hp)
        · exact fun p hp => hdirection' p (List.mem_cons_of_mem k hp)
        · exact sortOrder_rest_eq hfirst hfirst' h
      rw [hrests]

end

/-! ### The stage -/

/-- The key that the order on a field asks for. -/
def sortMember (ctx : PushContext) (c : FieldCollation) : String × Json :=
  (ctx.name c.field, .int (if c.direction = .ascending then 1 else -1))

/-- The keys that a collation asks for, the most significant first. -/
def asked (ctx : PushContext) (c : Collation) : Json.Members := c.map (sortMember ctx)

/-- Nulls are placed where they are the lowest values. -/
def PlacesNullsLowest (c : FieldCollation) : Prop :=
  c.nulls = if c.direction = .ascending then .first else .last

theorem isDirection_of_mem_asked {c : Collation} : ∀ k ∈ asked ctx c, IsDirection k.2 := by
  intro k hk
  obtain ⟨p, -, rfl⟩ := List.mem_map.mp hk
  unfold sortMember IsDirection
  split
  · exact .inl rfl
  · exact .inr rfl

theorem direction?_eq_some (ctx : PushContext) {c : FieldCollation} {j : Json}
    (h : direction? c = some j) : (sortMember ctx c).2 = j ∧ PlacesNullsLowest c := by
  unfold direction? at h
  split at h
  · rename_i hdirection hnulls
    obtain rfl := Option.some.inj h
    simp [sortMember, PlacesNullsLowest, hdirection, hnulls]
  · rename_i hdirection hnulls
    obtain rfl := Option.some.inj h
    simp [sortMember, PlacesNullsLowest, hdirection, hnulls]
  · cases h

theorem sortKeys_eq_some {c : Collation} {keys : Json.Members} (h : sortKeys ctx c = some keys) :
    keys = asked ctx c ∧ ∀ k ∈ c, (ctx.name? k.field).isSome = true ∧ PlacesNullsLowest k := by
  induction c generalizing keys with
  | nil =>
    obtain rfl := Option.some.inj h
    exact ⟨rfl, by simp⟩
  | cons k rest ih =>
    simp only [sortKeys, Option.bind_eq_bind, Option.bind_eq_some_iff, Option.some.injEq] at h
    obtain ⟨direction, hdirection, name, hname, keys', hkeys', rfl⟩ := h
    obtain ⟨rfl, hrest⟩ := ih hkeys'
    obtain ⟨hmember, hnulls⟩ := direction?_eq_some ctx hdirection
    constructor
    · rw [asked, asked, List.map_cons, ← hmember, ← PushContext.name_eq hname]
      rfl
    · refine List.forall_mem_cons.mpr ⟨⟨?_, hnulls⟩, hrest⟩
      rw [hname]
      rfl

theorem sortMembers_eq {o : Ordered} {f : Fragment} (h : sort o ctx = some f) :
    sortMembers f = (asked ctx o.collation).foldl (fun m (n, v) => Json.insert n v m) [] ∧
      ∀ k ∈ o.collation, (ctx.name? k.field).isSome = true ∧ PlacesNullsLowest k := by
  simp only [sort, Option.bind_eq_bind, Option.bind_eq_some_iff, Option.some.injEq] at h
  obtain ⟨keys, hkeys, rfl⟩ := h
  obtain ⟨rfl, hall⟩ := sortKeys_eq_some hkeys
  refine ⟨?_, hall⟩
  cases asked ctx o.collation with
  | nil =>
    rcases o with ⟨c, _ | m, _ | n⟩ <;> rfl
  | cons k rest => rfl

/-- The order of a field is that of the key that it asks for. -/
theorem keyOrder_sortMember {c : FieldCollation} (hnulls : PlacesNullsLowest c) (x y : Option α) :
    keyOrder (sortMember ctx c).2 x y = c.order x y := by
  have hswap (v w : α) : (compare v w).swap = compare w v := Std.OrientedOrd.eq_swap.symm
  unfold PlacesNullsLowest at hnulls
  cases hdirection : c.direction with
  | ascending =>
    have hkey : (sortMember ctx c).2 = .int 1 := by simp [sortMember, hdirection]
    rw [hkey, keyOrder_ascending]
    cases x <;> cases y <;> simp [nullsLowest, FieldCollation.order, hdirection, hnulls]
  | descending =>
    have hkey : (sortMember ctx c).2 = .int (-1) := by simp [sortMember, hdirection]
    rw [hkey, keyOrder_descending, keyOrder_ascending]
    cases x <;> cases y <;> simp [nullsLowest, FieldCollation.order, hdirection, hnulls, hswap]

theorem sortOrder_asked {c : Collation}
    (hc : ∀ k ∈ c, (ctx.name? k.field).isSome = true ∧ PlacesNullsLowest k)
    {a b : Nat → Option α} {da db : String → Option α} (ha : HoldsFields ctx a da)
    (hb : HoldsFields ctx b db) : sortOrder (asked ctx c) da db = Collation.order c a b := by
  induction c with
  | nil => rfl
  | cons k rest ih =>
    obtain ⟨⟨hnamed, hnulls⟩, hrest⟩ := List.forall_mem_cons.mp hc
    obtain ⟨name, hname⟩ := Option.isSome_iff_exists.mp hnamed
    have hfield : (sortMember ctx k).1 = name := PushContext.name_eq hname
    rw [asked, List.map_cons, sortOrder_cons, hfield, ha _ _ hname, hb _ _ hname,
      keyOrder_sortMember hnulls]
    exact congrArg _ (ih hrest)

/-- Keys order rows as a collation does if they order all documents like the keys that the
    collation asks for. -/
theorem ordersAs_iff {c : Collation}
    (hc : ∀ k ∈ c, (ctx.name? k.field).isSome = true ∧ PlacesNullsLowest k)
    {keys : Json.Members} : OrdersAs α ctx keys c ↔
      ∀ da db : String → Option α, sortOrder keys da db = sortOrder (asked ctx c) da db := by
  constructor
  · intro h da db
    have hholds (d : String → Option α) : HoldsFields ctx (fun i => d (ctx.name i)) d := by
      intro i name hname
      exact congrArg d (PushContext.name_eq hname).symm
    rw [h _ _ da db (hholds da) (hholds db), sortOrder_asked hc (hholds da) (hholds db)]
  · intro h a b da db ha hb
    rw [h da db, sortOrder_asked hc ha hb]

/-! ### Significance -/

/-- The keys are named in ascending order, and a key that is named again is named last as
    it was first. -/
structure KeepsSignificance (keys : Json.Members) : Prop where
  ascending : Json.Ascending (firstMentions keys)
  repeated : ∀ name, Json.lookup name keys = Json.lookup name keys.reverse

/-- A `$sort` stage has one key for each field of the collation, in ascending order of their
    names, and with the direction in which the collation names the field last.  This is
    the order that the collation asks for, key by key or for the rows, exactly when the
    collation keeps to that order and repeats no field in the other direction. -/
theorem sort_significance_iff [Nonempty α] {o : Ordered} {f : Fragment}
    (h : sort o ctx = some f) :
    Json.Ascending (sortMembers f) ∧
      (∀ name, Json.lookup name (sortMembers f) =
        Json.lookup name (asked ctx o.collation).reverse) ∧
      (sortMembers f = firstMentions (asked ctx o.collation) ↔
        KeepsSignificance (asked ctx o.collation)) ∧
      (OrdersAs α ctx (sortMembers f) o.collation ↔
        KeepsSignificance (asked ctx o.collation)) := by
  obtain ⟨hmembers, hfields⟩ := sortMembers_eq h
  have hascending : Json.Ascending (sortMembers f) := by
    rw [hmembers]
    exact Json.ascending_foldl_insert .nil
  have hlookup : ∀ name, Json.lookup name (sortMembers f) =
      Json.lookup name (asked ctx o.collation).reverse := by
    intro name
    rw [hmembers, Json.lookup_foldl_insert]
    exact Option.or_none
  have hkeys : sortMembers f = firstMentions (asked ctx o.collation) ↔
      KeepsSignificance (asked ctx o.collation) := by
    constructor
    · intro heq
      refine ⟨heq ▸ hascending, fun name => ?_⟩
      rw [← hlookup, heq, lookup_firstMentions]
    · intro hkeeps
      apply Json.eq_of_lookup_eq hascending hkeeps.ascending
      intro name
      rw [hlookup, lookup_firstMentions, hkeeps.repeated]
  refine ⟨hascending, hlookup, hkeys, ?_⟩
  rw [ordersAs_iff hfields, ← hkeys]
  constructor
  · intro horder
    apply eq_of_sortOrder_eq (α := α) (Json.nodup_of_ascending hascending) (nodup_firstMentions _)
    · intro k hk
      have hfound := Json.lookup_of_mem (Json.nodup_of_ascending hascending) hk
      rw [hlookup] at hfound
      exact isDirection_of_mem_asked k (List.mem_reverse.mp (Json.lookup_eq_some hfound))
    · intro k hk
      exact isDirection_of_mem_asked k (firstMentions_subset _ hk)
    · intro da db
      rw [horder, sortOrder_firstMentions]
  · intro heq da db
    rw [heq, sortOrder_firstMentions]

/-- Keys in the order of their names. -/
theorem sort_significance_iff_cityName :
    let ctx : PushContext := { names := ["city", "name"] }
    let o : Ordered := ⟨[⟨0, .descending, .last⟩, ⟨1, .ascending, .first⟩], none, some 10⟩
    ∃ f, sort o ctx = some f ∧ sortMembers f = [("city", .int (-1)), ("name", .int 1)] ∧
      OrdersAs Int ctx (sortMembers f) o.collation := by
  intro ctx o
  obtain ⟨f, hf, hmembers⟩ : ∃ f, sort o ctx = some f ∧
      sortMembers f = [("city", .int (-1)), ("name", .int 1)] := ⟨_, rfl, by rfl⟩
  obtain ⟨-, -, hkeys, horder⟩ := sort_significance_iff (α := Int) hf
  exact ⟨f, hf, hmembers, horder.mpr (hkeys.mp hmembers)⟩

/-- The less significant key decides, because its name comes first. -/
theorem sort_against_names :
    let ctx : PushContext := { names := ["a", "b"] }
    let o : Ordered := ⟨[⟨1, .descending, .last⟩, ⟨0, .descending, .last⟩], none, some 1⟩
    let row (x y : Int) (i : Nat) : Option Int := if i = 0 then x else y
    let doc (x y : Int) (name : String) : Option Int := if name = "a" then x else y
    ∃ f, sort o ctx = some f ∧
      f.body.text = "[\x7b\"$sort\":\x7b\"a\":-1,\"b\":-1\x7d\x7d,\x7b\"$limit\":1\x7d]" ∧
      asked ctx o.collation = [("b", .int (-1)), ("a", .int (-1))] ∧
      Collation.order o.collation (row 2 1) (row 1 2) = .gt ∧
      sortOrder (sortMembers f) (doc 2 1) (doc 1 2) = .lt := by
  intro ctx o row doc
  exact ⟨_, rfl, by decide +kernel, rfl, rfl, rfl⟩

end Document

end Polystore
