import Mathlib.Data.List.Induction
import Polystore.Proofs.SubsetOrder

/-
  Polystore/Proofs/GroupingShapes.lean
  ====================================
  **Shapes of grouping sets.**  A list of grouping sets is told by its shape: every
  subset of the key (`ListsSubsets`), or the sets left by removing the highest column
  again and again (`RollsUp`).  The check looks at lengths and compares neighbours, and
  that is enough: of a list in strict order the length alone decides whether all subsets
  are there (`classify_exact`).  The two builders of lists give what they are for, a
  rollup exactly when its keys are ascending (`built_lists`).
-/

namespace Polystore

/-! ### The highest member -/

namespace OrdinalSet

variable {s : OrdinalSet} {m : Nat}

/-- The highest member stands behind all others. -/
theorem toList_eq_concat (h : s.max? = some m) : s.toList = (s.erase m).toList ++ [m] := by
  obtain ⟨hm, hmax⟩ := max?_eq_some.mp h
  have herase (i : Nat) : i ∈ (s.erase m).toList ↔ s.contains i = true ∧ m ≠ i := by
    rw [mem_toList, contains_erase, Bool.and_eq_true, decide_eq_true_eq]
  refine List.Pairwise.eq_of_mem_iff s.toList_pairwise ?_ fun i => ?_
  · refine List.pairwise_append.mpr ⟨toList_pairwise _, List.pairwise_singleton _ _, ?_⟩
    intro i hi j hj
    obtain ⟨hi, hne⟩ := (herase i).mp hi
    rw [List.mem_singleton.mp hj]
    exact Nat.lt_of_le_of_ne (hmax i hi) hne.symm
  · rw [mem_toList, List.mem_append, List.mem_singleton, herase]
    constructor
    · intro hi
      by_cases him : m = i
      · exact .inr him.symm
      · exact .inl ⟨hi, him⟩
    · rintro (⟨hi, -⟩ | rfl)
      · exact hi
      · exact hm

theorem card_eq_succ (h : s.max? = some m) : s.card = (s.erase m).card + 1 := by
  rw [card_eq_length, card_eq_length, toList_eq_concat h, List.length_append,
    List.length_singleton]

theorem eq_empty_of_max?_eq_none (h : s.max? = none) : s = .empty :=
  ext_contains fun i => (max?_eq_none.mp h i).trans (contains_empty i).symm

theorem card_eq_zero : s.card = 0 ↔ s = .empty := by
  constructor
  · intro h
    cases hmax : s.max? with
    | none => exact eq_empty_of_max?_eq_none hmax
    | some m => rw [card_eq_succ hmax] at h; cases h
  · rintro rfl
    rfl

end OrdinalSet

namespace Grouping

open OrdinalSet

variable {key : OrdinalSet} {sets : List OrdinalSet}

/-! ### Lists that pass the check -/

/-- The list is not empty, its sets are within the key, and every set precedes all that
    are listed after it. -/
@[mk_iff]
structure Valid (key : OrdinalSet) (sets : List OrdinalSet) : Prop where
  ne_nil : sets ≠ []
  within : ∀ s ∈ sets, s ⊆ key
  ascending : sets.Pairwise fun s t => s.groupingCompare t = .lt

/-- Neighbours in order are enough, because the order is transitive. -/
theorem firstUnordered?_eq_none : firstUnordered? sets = none ↔ sets.Pairwise Leads := by
  rw [← List.isChain_iff_pairwise]
  fun_induction firstUnordered? sets with
  | case1 a b rest hlt ih =>
    rw [ih, List.isChain_cons_cons, and_iff_right (groupingCompare_eq_lt.mp hlt)]
  | case2 a b rest hlt =>
    rw [List.isChain_cons_cons, ← groupingCompare_eq_lt]
    simp [hlt]
  | case3 sets hshort =>
    cases sets with
    | nil => simp
    | cons a rest =>
      cases rest with
      | nil => simp
      | cons b rest => exact absurd rfl (hshort a b rest)

theorem pairwise_leads_iff :
    sets.Pairwise Leads ↔ sets.Pairwise fun s t => s.groupingCompare t = .lt := by
  simp only [groupingCompare_eq_lt]

theorem validate_iff : validate key sets = .ok () ↔ Valid key sets := by
  rw [validate_eq_ok, firstUnordered?_eq_none, pairwise_leads_iff, valid_iff]

theorem Valid.pairwise (h : Valid key sets) : sets.Pairwise Leads :=
  pairwise_leads_iff.mpr h.ascending

theorem Valid.nodup (h : Valid key sets) : sets.Nodup := h.pairwise.imp Leads.ne

/-- The check of the list is all that can refuse it. -/
theorem classify_eq_error :
    (∃ err, classify key sets = .error err) ↔ ¬Valid key sets := by
  rw [← validate_iff, classify]
  cases validate key sets <;> simp [bind, Except.bind, pure, Except.pure]

theorem classify_eq_ok {shape : GroupingShape} :
    classify key sets = .ok shape ↔ Valid key sets ∧ Grouping.shape key sets = shape := by
  rw [classify, except_bind_eq_ok, ← validate_iff]
  constructor
  · rintro ⟨_, hvalid, hshape⟩
    exact ⟨hvalid, Except.ok.inj hshape⟩
  · rintro ⟨hvalid, rfl⟩
    exact ⟨(), hvalid, rfl⟩

/-! ### Shapes -/

/-- A set, then what is left when its highest member is removed, and so on down to the
    empty set. -/
inductive Descent : OrdinalSet → List OrdinalSet → Prop
  | empty : Descent .empty [.empty]
  | remove {s : OrdinalSet} {m : Nat} {rest : List OrdinalSet} (hm : s.contains m = true)
      (hmax : ∀ i, s.contains i = true → i ≤ m) (hrest : Descent (s.erase m) rest) :
      Descent s (s :: rest)

/-- Every subset of the key is listed, and there is more than one. -/
def ListsSubsets (key : OrdinalSet) (sets : List OrdinalSet) : Prop :=
  key ≠ .empty ∧ ∀ s, s ⊆ key → s ∈ sets

/-- The key and what is left of it step by step; for one column that is every subset. -/
def RollsUp (key : OrdinalSet) (sets : List OrdinalSet) : Prop := 2 ≤ key.card ∧ Descent key sets

/-- What the names of the shapes mean. -/
def HasShape (key : OrdinalSet) (sets : List OrdinalSet) : GroupingShape → Prop
  | .simple => sets = [key]
  | .cube => ListsSubsets key sets
  | .rollup => RollsUp key sets
  | .other => sets ≠ [key] ∧ ¬ListsSubsets key sets ∧ ¬RollsUp key sets

/-- The empty set is all there is below the empty set. -/
theorem descent_of_none (h : key.max? = none) : Descent key sets ↔ sets = [key] := by
  obtain rfl := eq_empty_of_max?_eq_none h
  constructor
  · intro hsets
    cases hsets with
    | empty => rfl
    | remove hm _ _ => rw [contains_empty] at hm; cases hm
  · rintro rfl
    exact .empty

theorem descent_of_some {m : Nat} {set : OrdinalSet} (h : key.max? = some m) :
    Descent key (set :: sets) ↔ set = key ∧ Descent (key.erase m) sets := by
  constructor
  · intro hsets
    cases hsets with
    | empty => cases h
    | remove hm hmax hrest =>
      obtain rfl := Option.some.inj (h.symm.trans (max?_eq_some.mpr ⟨hm, hmax⟩))
      exact ⟨rfl, hrest⟩
  · rintro ⟨rfl, hrest⟩
    obtain ⟨hm, hmax⟩ := max?_eq_some.mp h
    exact .remove hm hmax hrest

theorem Descent.length_eq (h : Descent key sets) : sets.length = key.card + 1 := by
  induction h with
  | empty => rfl
  | remove hm hmax _ ih =>
    rw [List.length_cons, ih, card_eq_succ (max?_eq_some.mpr ⟨hm, hmax⟩)]

theorem Descent.head?_eq (h : Descent key sets) : sets.head? = some key := by
  cases h <;> rfl

/-- The loop that removes the highest members recognizes a descent. -/
theorem isRollup_iff : isRollup key sets = true ↔ Descent key sets := by
  induction sets generalizing key with
  | nil => exact iff_of_false (by simp [isRollup]) fun h => nomatch h
  | cons set rest ih =>
    cases hmax : key.max? with
    | none =>
      have hcard := card_eq_zero.mpr (eq_empty_of_max?_eq_none hmax)
      rw [descent_of_none hmax, List.cons.injEq]
      simp only [isRollup, descends, hmax, hcard, List.length_cons, Nat.add_eq_right,
        List.length_eq_zero_iff, Bool.and_eq_true, decide_eq_true_eq]
      constructor
      · rintro ⟨hrest, hset, -⟩
        exact ⟨hset, hrest⟩
      · rintro ⟨hset, rfl⟩
        exact ⟨rfl, hset, rfl⟩
    | some top =>
      rw [descent_of_some hmax, ← ih]
      simp only [isRollup, descends, hmax, card_eq_succ hmax, List.length_cons,
        Nat.add_right_cancel_iff, Bool.and_eq_true, decide_eq_true_eq]
      exact and_left_comm

/-! ### What the shape says -/

/-- Two subsets are listed, so that the key is not alone. -/
theorem ListsSubsets.not_simple (h : ListsSubsets key sets) : sets ≠ [key] := by
  rintro rfl
  have hempty := h.2 .empty (empty_subset key)
  exact h.1 (List.mem_singleton.mp hempty).symm

theorem RollsUp.not_simple (h : RollsUp key sets) : sets ≠ [key] := by
  rintro rfl
  have hlength := h.2.length_eq
  have hcard := h.1
  rw [List.length_singleton] at hlength
  omega

theorem succ_ne_two_pow {n : Nat} (h : 2 ≤ n) : n + 1 ≠ Nat.pow 2 n := by
  obtain ⟨m, rfl⟩ := Nat.exists_eq_add_of_le h
  have hpower : Nat.pow 2 (2 + m) = 4 * 2 ^ m := Nat.pow_add 2 2 m
  have hlt : m < 2 ^ m := Nat.lt_two_pow_self
  omega

/-- From two columns on a rollup leaves subsets out. -/
theorem RollsUp.length_ne (h : RollsUp key sets) : sets.length ≠ Nat.pow 2 key.card := by
  rw [h.2.length_eq]
  exact succ_ne_two_pow h.1

theorem Descent.rollsUp (h : Descent key sets) (hsimple : sets ≠ [key])
    (hlength : sets.length ≠ Nat.pow 2 key.card) : RollsUp key sets := by
  refine ⟨?_, h⟩
  rw [h.length_eq] at hlength
  match hcard : key.card with
  | 0 =>
    obtain rfl := card_eq_zero.mp hcard
    exact absurd ((descent_of_none (max?_eq_none.mpr contains_empty)).mp h) hsimple
  | 1 =>
    rw [hcard] at hlength
    exact absurd rfl hlength
  | n + 2 => omega

/-- The number of sets alone decides whether all subsets are listed. -/
theorem listsSubsets_iff (hvalid : Valid key sets) (hsimple : sets ≠ [key]) :
    ListsSubsets key sets ↔ sets.length = Nat.pow 2 key.card := by
  rw [ListsSubsets, forall_subset_mem_iff hvalid.within hvalid.nodup, and_iff_right_iff_imp]
  rintro hlength rfl
  -- the empty key has one subset
  obtain ⟨s, rfl⟩ := List.length_eq_one_iff.mp (show sets.length = 1 from hlength)
  have hs : s = .empty := eq_of_subset (hvalid.within s List.mem_cons_self) (empty_subset s)
  exact hsimple (congrArg (fun s => [s]) hs)

/-- The check finds the shape that a list has, if the number of all subsets is in reach
    of it. -/
theorem shape_eq_iff (hkey : ListsSubsets key sets → key.card < 64) (hvalid : Valid key sets)
    {shape : GroupingShape} : Grouping.shape key sets = shape ↔ HasShape key sets shape := by
  unfold Grouping.shape
  by_cases hsimple : sets = [key]
  · have hcube : ¬ListsSubsets key sets := fun h => h.not_simple hsimple
    have hrollup : ¬RollsUp key sets := fun h => h.not_simple hsimple
    rw [if_pos hsimple]
    subst hsimple
    cases shape <;> simp [HasShape, hcube, hrollup]
  · rw [if_neg hsimple]
    by_cases hlength : sets.length = Nat.pow 2 key.card
    · have hcube : ListsSubsets key sets := (listsSubsets_iff hvalid hsimple).mpr hlength
      have hrollup : ¬RollsUp key sets := fun h => h.length_ne hlength
      rw [if_pos ⟨hkey hcube, hlength⟩]
      cases shape <;> simp [HasShape, hsimple, hcube, hrollup]
    · have hcube : ¬ListsSubsets key sets := mt (listsSubsets_iff hvalid hsimple).mp hlength
      have hrollup : isRollup key sets = true ↔ RollsUp key sets := by
        rw [isRollup_iff]
        exact ⟨fun h => h.rollsUp hsimple hlength, And.right⟩
      rw [if_neg fun h => hlength h.2]
      by_cases h : RollsUp key sets
      · rw [if_pos (hrollup.mpr h)]
        cases shape <;> simp [HasShape, hsimple, hcube, h]
      · rw [if_neg (mt hrollup.mp h)]
        cases shape <;> simp [HasShape, hsimple, hcube, h]

/-- A list of grouping sets is refused exactly if it is empty, strays from the key or is
    not in strict order, and every other list is given the one shape that it has. -/
theorem classify_exact (hkey : key.card < 64) (sets : List OrdinalSet) :
    ((∃ err, classify key sets = .error err) ↔
      sets = [] ∨ (∃ s ∈ sets, ¬s ⊆ key) ∨
        ¬sets.Pairwise fun s t => s.groupingCompare t = .lt) ∧
    ∀ shape, classify key sets = .ok shape ↔ Valid key sets ∧ HasShape key sets shape := by
  constructor
  · rw [classify_eq_error, valid_iff]
    simp only [ne_eq, not_and_or, not_not, not_forall, exists_prop]
  · intro shape
    rw [classify_eq_ok]
    exact and_congr_right fun hvalid => shape_eq_iff (fun _ => hkey) hvalid

/-- Two columns, in different words. -/
def regionAndYear : OrdinalSet := .ofList [1, 70]

/-- Four sets of two columns in order are all subsets; the key cannot stand second. -/
theorem classify_exact_regionAndYear :
    regionAndYear.card < 64 ∧
      (∀ s, s ⊆ regionAndYear →
        s ∈ [regionAndYear, .ofList [1], .ofList [70], OrdinalSet.empty]) ∧
      ∃ err, classify regionAndYear [.ofList [1], regionAndYear] = .error err := by
  have hkey : regionAndYear.card < 64 := by decide
  have hcube : classify regionAndYear [regionAndYear, .ofList [1], .ofList [70], .empty] =
      .ok .cube := by rfl
  have hunordered : ¬[.ofList [1], regionAndYear].Pairwise
      fun s t => s.groupingCompare t = .lt := by decide
  exact ⟨hkey, (((classify_exact hkey _).2 .cube).mp hcube).2.2,
    (classify_exact hkey _).1.mpr (.inr (.inr hunordered))⟩

/-! ### Building lists -/

variable {keys : List Nat}

theorem card_ofList (h : keys.Nodup) : (OrdinalSet.ofList keys).card = keys.length := by
  have hperm : (OrdinalSet.ofList keys).toList.Perm keys :=
    (List.perm_ext_iff_of_nodup (toList_pairwise _).nodup h).mpr fun i => by
      rw [mem_toList, contains_ofList]
  rw [card_eq_length, hperm.length_eq]

/-- A rollup of one more key begins with the set of all keys. -/
theorem rollup_concat (keys : List Nat) (k : Nat) :
    rollup (keys ++ [k]) = .ofList (keys ++ [k]) :: rollup keys := by
  have hlength : (keys ++ [k]).length = keys.length + 1 := by simp
  rw [rollup, rollup, hlength, List.range_succ, List.reverse_append, List.reverse_singleton,
    List.singleton_append, List.map_cons, List.take_of_length_le hlength.le]
  refine congrArg _ (List.map_congr_left fun n hn => ?_)
  have hn : n ≤ keys.length := by
    simpa [Nat.lt_succ_iff] using hn
  rw [List.take_append_of_le_length hn]

theorem length_rollup (keys : List Nat) : (rollup keys).length = keys.length + 1 := by
  simp [rollup]

/-- The sets of a rollup are sets of some of its keys. -/
theorem subset_of_mem_rollup {s : OrdinalSet} (h : s ∈ rollup keys) : s ⊆ .ofList keys := by
  obtain ⟨n, -, rfl⟩ := List.mem_map.mp h
  intro i hi
  rw [contains_ofList] at hi ⊢
  exact List.mem_of_mem_take hi

theorem head?_rollup (keys : List Nat) : (rollup keys).head? = some (.ofList keys) := by
  rcases List.eq_nil_or_concat keys with rfl | ⟨front, k, rfl⟩
  · rfl
  · rw [List.concat_eq_append, rollup_concat, List.head?_cons]

/-- Without repeated keys every set includes all that follow. -/
theorem rollup_valid (h : keys.Nodup) : Valid (.ofList keys) (rollup keys) := by
  refine ⟨by simp [rollup], fun s hs => subset_of_mem_rollup hs, pairwise_leads_iff.mp ?_⟩
  induction keys using List.reverseRecOn with
  | nil => exact List.pairwise_singleton _ _
  | append_singleton keys k ih =>
    obtain ⟨hkeys, -, hk⟩ := List.nodup_append.mp h
    rw [rollup_concat]
    refine List.pairwise_cons.mpr ⟨fun s hs => ?_, ih hkeys⟩
    have hsub := subset_of_mem_rollup hs
    refine leads_of_subset (fun i hi => ?_) ?_
    · have := (contains_ofList keys i).mp (hsub i hi)
      exact (contains_ofList _ i).mpr (List.mem_append_left _ this)
    · rintro rfl
      have hmem := hsub k ((contains_ofList _ k).mpr (by simp))
      exact hk k ((contains_ofList keys k).mp hmem) k (by simp) rfl

theorem max?_ofList_concat {k : Nat} (hk : k ∉ keys) :
    (OrdinalSet.ofList (keys ++ [k])).max? = some k ↔ ∀ i ∈ keys, i < k := by
  rw [max?_eq_some]
  simp only [contains_ofList, List.mem_append, List.mem_singleton]
  constructor
  · rintro ⟨-, hle⟩ i hi
    exact Nat.lt_of_le_of_ne (hle i (.inl hi)) fun h => hk (h ▸ hi)
  · intro hlt
    refine ⟨.inr trivial, ?_⟩
    rintro i (hi | rfl)
    · exact (hlt i hi).le
    · exact Nat.le_refl i

theorem erase_ofList_concat {k : Nat} (hk : k ∉ keys) :
    (OrdinalSet.ofList (keys ++ [k])).erase k = .ofList keys := by
  refine ext_contains fun i => ?_
  rw [Bool.eq_iff_iff, contains_erase, Bool.and_eq_true, decide_eq_true_eq, contains_ofList,
    contains_ofList, List.mem_append, List.mem_singleton]
  constructor
  · rintro ⟨hi | hi, hne⟩
    · exact hi
    · exact absurd hi.symm hne
  · exact fun hi => ⟨.inl hi, fun h => hk (h ▸ hi)⟩

/-- The last key is what the first step of a rollup removes. -/
theorem descent_rollup_concat {k : Nat} (hk : k ∉ keys) :
    Descent (.ofList (keys ++ [k])) (rollup (keys ++ [k])) ↔
      Descent (.ofList keys) (rollup keys) ∧ ∀ i ∈ keys, i < k := by
  rw [rollup_concat, ← max?_ofList_concat hk]
  cases hmax : (OrdinalSet.ofList (keys ++ [k])).max? with
  | none =>
    have hmem := max?_eq_none.mp hmax k
    rw [(contains_ofList _ k).mpr (by simp)] at hmem
    cases hmem
  | some m =>
    rw [descent_of_some hmax, and_iff_right rfl, Option.some.injEq]
    constructor
    · intro h
      -- the set without its highest member is the next one, which is without `k`
      have hnext : (OrdinalSet.ofList (keys ++ [k])).erase m = .ofList keys :=
        Option.some.inj (h.head?_eq.symm.trans (head?_rollup keys))
      have hm : m = k := by
        by_contra hne
        have hmem : ((OrdinalSet.ofList (keys ++ [k])).erase m).contains k = true := by
          rw [contains_erase, (contains_ofList _ k).mpr (by simp), decide_eq_true hne]
          rfl
        rw [hnext] at hmem
        exact hk ((contains_ofList keys k).mp hmem)
      exact ⟨hnext ▸ h, hm⟩
    · rintro ⟨h, rfl⟩
      rw [erase_ofList_concat hk]
      exact h

/-- A rollup removes the highest member at each step exactly if its keys are ascending. -/
theorem descent_rollup (h : keys.Nodup) :
    Descent (.ofList keys) (rollup keys) ↔ keys.Pairwise (· < ·) := by
  induction keys using List.reverseRecOn with
  | nil => exact iff_of_true .empty .nil
  | append_singleton keys k ih =>
    obtain ⟨hkeys, -, hk⟩ := List.nodup_append.mp h
    have hk : k ∉ keys := fun hmem => hk k hmem k (by simp) rfl
    rw [descent_rollup_concat hk, ih hkeys, List.pairwise_append]
    simp

theorem powerset_valid (key : OrdinalSet) : Valid key key.powerset where
  ne_nil := List.ne_nil_of_mem (mem_powerset.mpr fun _ hi => hi)
  within _ hs := mem_powerset.mp hs
  ascending := pairwise_leads_iff.mp key.powerset_ascending

theorem classify_powerset {key : OrdinalSet} (hkey : key.card < 64) :
    classify key key.powerset = .ok (if key = .empty then .simple else .cube) := by
  have hvalid := powerset_valid key
  refine classify_eq_ok.mpr ⟨hvalid, (shape_eq_iff (fun _ => hkey) hvalid).mpr ?_⟩
  split
  · next hempty =>
    have hlength := length_powerset key
    rw [card_eq_zero.mpr hempty] at hlength
    obtain ⟨s, hs⟩ := List.length_eq_one_iff.mp hlength
    have hmem : key ∈ key.powerset := mem_powerset.mpr fun _ hi => hi
    rw [hs, List.mem_singleton] at hmem
    exact hmem ▸ hs
  · next hempty => exact ⟨hempty, fun s hs => mem_powerset.mpr hs⟩

theorem classify_rollup (h : keys.Nodup) (htwo : 2 ≤ keys.length) :
    classify (.ofList keys) (rollup keys) =
      .ok (if keys.Pairwise (· < ·) then .rollup else .other) := by
  have hvalid := rollup_valid h
  have hcard := card_ofList h
  have hsimple : rollup keys ≠ [.ofList keys] := fun hsets => by
    have hlength := length_rollup keys
    rw [hsets, List.length_singleton] at hlength
    omega
  have hcube : ¬ListsSubsets (.ofList keys) (rollup keys) := by
    rw [listsSubsets_iff hvalid hsimple, length_rollup, hcard]
    exact succ_ne_two_pow htwo
  refine classify_eq_ok.mpr ⟨hvalid, (shape_eq_iff (fun h => absurd h hcube) hvalid).mpr ?_⟩
  split
  · next hasc => exact ⟨hcard ▸ htwo, (descent_rollup h).mpr hasc⟩
  · next hasc => exact ⟨hsimple, hcube, fun hrollup => hasc ((descent_rollup h).mp hrollup.2)⟩

/-- The list of all subsets of a key has each of them once and in order, from the key to
    the empty set.  A rollup of distinct keys is a valid list as well, and has the shape of
    one exactly if the keys are ascending. -/
theorem built_lists :
    (∀ key : OrdinalSet, key.card < 64 →
      cube key = key.powerset ∧
      (∀ s, s ∈ key.powerset ↔ s ⊆ key) ∧ key.powerset.Nodup ∧
      key.powerset.Pairwise (fun s t => s.groupingCompare t = .lt) ∧
      key.powerset.head? = some key ∧ key.powerset.getLast? = some .empty ∧
      classify key key.powerset = .ok (if key = .empty then .simple else .cube)) ∧
    ∀ keys : List Nat, keys.Nodup →
      (rollup keys).length = keys.length + 1 ∧
      validate (.ofList keys) (rollup keys) = .ok () ∧
      (2 ≤ keys.length → classify (.ofList keys) (rollup keys) =
        .ok (if keys.Pairwise (· < ·) then .rollup else .other)) := by
  constructor
  · intro key hkey
    have hpairwise := key.powerset_ascending
    refine ⟨rfl, fun s => mem_powerset, key.nodup_powerset, pairwise_leads_iff.mp hpairwise,
      ?first, ?last, classify_powerset hkey⟩
    case first =>
      refine head?_eq_of_leads hpairwise (mem_powerset.mpr fun _ hi => hi) fun s hs hne => ?_
      exact leads_of_subset (mem_powerset.mp hs) hne
    case last =>
      refine getLast?_eq_of_leads hpairwise (mem_powerset.mpr (empty_subset key)) fun s _ hne => ?_
      exact leads_of_subset (empty_subset s) hne.symm
  · intro keys hkeys
    exact ⟨length_rollup keys, validate_iff.mpr (rollup_valid hkeys), classify_rollup hkeys⟩

/-- Columns of two words make a cube, and keys out of order a list without a name. -/
theorem built_lists_twoColumns :
    classify regionAndYear (cube regionAndYear) = .ok .cube ∧
      classify (.ofList [70, 1]) (rollup [70, 1]) = .ok .other := by
  obtain ⟨hcubes, hrollups⟩ := built_lists
  have hkey : regionAndYear.card < 64 := by decide
  have hkeys : [70, 1].Nodup := by decide
  obtain ⟨hcube, -, -, -, -, -, hclass⟩ := hcubes regionAndYear hkey
  rw [hcube, hclass]
  exact ⟨rfl, (hrollups [70, 1] hkeys).2.2 (by decide)⟩

end Grouping

end Polystore
