import Mathlib.Data.List.Nodup
import Polystore.Proofs.Renumbering

/-
  Polystore/Proofs/SubsetOrder.lean
  =================================
  **The order of grouping sets.**  The order is described in two parts, by inclusion and
  by words, but it has one rule: of two sets the one that comes first has the least
  number that only one of them has (`groupingCompare_eq_lt`).  So it is a strict total
  order in which a set precedes its subsets.  The subsets of a set come as masks of its
  members, of which a member more makes twice as many (`selections_cons`), and they have one
  ascending list (`powerset_ascending`).  A list of distinct subsets holds all of them
  exactly if it is as long as that (`forall_subset_mem_iff`).
-/

namespace Polystore

namespace OrdinalSet

variable {s t u key : OrdinalSet} {i : Nat}

/-! ### The lists from a number on -/

theorem compare_append_left (front a b : List Nat) :
    compare (front ++ a) (front ++ b) = compare a b := by
  induction front with
  | nil => rfl
  | cons n front ih =>
    rw [List.cons_append, List.cons_append, List.compare_cons_cons, Std.ReflOrd.compare_self, ih]
    rfl

/-- A list that goes on with `i` precedes those that go on with larger numbers, but not
    the one that is at its end. -/
theorem compare_cons_of_lt {a b : List Nat} (h : ∀ j ∈ b, i < j) :
    compare (i :: a) b = if b = [] then .gt else .lt := by
  cases b with
  | nil => rfl
  | cons j b =>
    have hij : compare i j = .lt := Nat.compare_eq_lt.mpr (h j List.mem_cons_self)
    rw [List.compare_cons_cons, hij, if_neg (List.cons_ne_nil j b)]
    rfl

/-- The members below a number and the members from it on. -/
theorem toList_split (s : OrdinalSet) (i : Nat) :
    s.toList = s.toList.filter (· < i) ++ s.toList.filter (i ≤ ·) := by
  refine List.Pairwise.eq_of_mem_iff s.toList_pairwise (List.pairwise_append.mpr
    ⟨s.toList_pairwise.filter _, s.toList_pairwise.filter _, fun j hj k hk => ?_⟩) fun j => ?_
  · simp only [List.mem_filter, decide_eq_true_eq] at hj hk
    exact Nat.lt_of_lt_of_le hj.2 hk.2
  · simp only [List.mem_append, List.mem_filter, decide_eq_true_eq]
    have hside : j < i ∨ i ≤ j := Nat.lt_or_ge j i
    tauto

theorem below_congr (h : ∀ j < i, s.contains j = t.contains j) :
    s.toList.filter (· < i) = t.toList.filter (· < i) := by
  refine List.Pairwise.eq_of_mem_iff (s.toList_pairwise.filter _) (t.toList_pairwise.filter _)
    fun j => ?_
  simp only [List.mem_filter, decide_eq_true_eq, mem_toList]
  exact and_congr_left fun hj => by rw [h j hj]

/-- From a member on, the list starts with it. -/
theorem from_member (h : s.contains i = true) :
    s.toList.filter (i ≤ ·) = i :: s.toList.filter (i + 1 ≤ ·) := by
  refine List.Pairwise.eq_of_mem_iff (s.toList_pairwise.filter _) (List.pairwise_cons.mpr
    ⟨fun j hj => of_decide_eq_true (List.mem_filter.mp hj).2, s.toList_pairwise.filter _⟩)
    fun j => ?_
  simp only [List.mem_cons, List.mem_filter, decide_eq_true_eq, mem_toList]
  constructor
  · rintro ⟨hj, hle⟩
    exact (Nat.eq_or_lt_of_le hle).imp Eq.symm fun hlt => ⟨hj, hlt⟩
  · rintro (rfl | ⟨hj, hlt⟩)
    · exact ⟨h, Nat.le_refl j⟩
    · exact ⟨hj, Nat.le_of_lt hlt⟩

/-- Without it, it starts behind the number. -/
theorem lt_of_mem_from (h : s.contains i = false) : ∀ j ∈ s.toList.filter (i ≤ ·), i < j := by
  intro j hj
  simp only [List.mem_filter, decide_eq_true_eq, mem_toList] at hj
  refine Nat.lt_of_le_of_ne hj.2 ?_
  rintro rfl
  rw [h] at hj
  cases hj.1

theorem from_eq_nil_iff (h : s.contains i = false) :
    s.toList.filter (i ≤ ·) = [] ↔ (s.next? (i + 1)).isSome = false := by
  rw [← Bool.not_eq_true, isSome_next?, List.filter_eq_nil_iff, not_exists]
  refine forall_congr' fun j => ?_
  rw [mem_toList, decide_eq_true_eq]
  constructor
  · exact fun hj hmem => hj hmem.2 (Nat.le_of_lt hmem.1)
  · intro hj hmem hle
    have hlt := lt_of_mem_from h j (by simpa [mem_toList] using ⟨hmem, hle⟩)
    exact hj ⟨hlt, hmem⟩

/-! ### The order by words -/

/-- The lists part at the least number that only the first set has. -/
theorem compare_toList_of_least (hs : s.contains i = true) (ht : t.contains i = false)
    (hbelow : ∀ j < i, s.contains j = t.contains j) :
    compare s.toList t.toList = if (t.next? (i + 1)).isSome then .lt else .gt := by
  rw [s.toList_split i, t.toList_split i, below_congr hbelow, compare_append_left,
    from_member hs, compare_cons_of_lt (lt_of_mem_from ht)]
  cases hnext : (t.next? (i + 1)).isSome with
  | true => rw [if_neg (by simp [from_eq_nil_iff ht, hnext]), if_pos rfl]
  | false => rw [if_pos ((from_eq_nil_iff ht).mpr hnext), if_neg Bool.false_ne_true]

/-- The order by words is settled at the least member of exactly one set: the other set
    goes on with a larger number there, or it is at its end. -/
theorem lexCompare_of_least (hi : s.contains i ≠ t.contains i)
    (hbelow : ∀ j < i, s.contains j = t.contains j) :
    s.lexCompare t =
      if s.contains i then if (t.next? (i + 1)).isSome then .lt else .gt
      else if (s.next? (i + 1)).isSome then .gt else .lt := by
  rw [lexCompare_eq_compare]
  cases hs : s.contains i with
  | true =>
    have ht : t.contains i = false := by simpa [hs] using hi.symm
    rw [if_pos rfl, compare_toList_of_least hs ht hbelow]
  | false =>
    have ht : t.contains i = true := by simpa [hs] using hi.symm
    rw [if_neg Bool.false_ne_true, Std.OrientedOrd.eq_swap,
      compare_toList_of_least ht hs fun j hj => (hbelow j hj).symm]
    split <;> rfl

/-- The members of exactly one of the two. -/
def symmDiff (s t : OrdinalSet) : OrdinalSet :=
  zipWords (· ^^^ ·) (max s.words.length t.words.length) s t

theorem contains_symmDiff (s t : OrdinalSet) (i : Nat) :
    (s.symmDiff t).contains i = (s.contains i ^^ t.contains i) := by
  refine contains_zipWords (fun w v j _ => BitVec.getLsbD_xor) (fun i hi => ?_) i
  rw [contains_eq_false_of_length_le (s := s) (by omega),
    contains_eq_false_of_length_le (s := t) (by omega), Bool.xor_self]

/-- The order by words needs one look at the words: for the least member of exactly one
    set, and for a member behind it. -/
theorem lexCompare_eq_symmDiff (s t : OrdinalSet) :
    s.lexCompare t =
      match (s.symmDiff t).min? with
      | none => .eq
      | some i =>
        if s.contains i then if (t.next? (i + 1)).isSome then .lt else .gt
        else if (s.next? (i + 1)).isSome then .gt else .lt := by
  cases hmin : (s.symmDiff t).min? with
  | none =>
    have hst : s = t := ext_contains fun i => by
      have hi := next?_eq_none hmin (Nat.zero_le i)
      simpa [contains_symmDiff] using hi
    rw [hst, lexCompare_eq_compare, Std.ReflOrd.compare_self]
  | some i =>
    obtain ⟨-, hi, hclear⟩ := next?_eq_some hmin
    refine lexCompare_of_least (by simpa [contains_symmDiff] using hi) fun j hj => ?_
    simpa [contains_symmDiff] using hclear j (Nat.zero_le j) hj

/-- Two different sets differ at a least number. -/
theorem exists_least_difference {s t : OrdinalSet} (h : s ≠ t) :
    ∃ i, s.contains i ≠ t.contains i ∧ ∀ j < i, s.contains j = t.contains j := by
  have hdiff : ∃ i, s.contains i ≠ t.contains i := by
    by_contra hsame
    push Not at hsame
    exact h (ext_contains hsame)
  refine ⟨Nat.find hdiff, Nat.find_spec hdiff, fun j hj => ?_⟩
  exact not_not.mp (Nat.find_min hdiff hj)

/-! ### Which set comes first -/

/-- The first set has the least number that only one of the two has. -/
def Leads (s t : OrdinalSet) : Prop :=
  ∃ i, s.contains i = true ∧ t.contains i = false ∧ ∀ j < i, s.contains j = t.contains j

theorem exists_of_not_subset (h : ¬s ⊆ t) : ∃ i, s.contains i = true ∧ t.contains i = false := by
  by_contra hall
  refine h fun i hi => ?_
  cases ht : t.contains i with
  | true => rfl
  | false => exact absurd ⟨i, hi, ht⟩ hall

/-- Behind the least difference there is a number of the set that is without it, unless
    the other set includes this one. -/
theorem isSome_next?_of_not_subset {i : Nat} (h : ¬t ⊆ s) (hi : s.contains i = true)
    (hbelow : ∀ j < i, s.contains j = t.contains j) : (t.next? (i + 1)).isSome = true := by
  obtain ⟨j, htj, hsj⟩ := exists_of_not_subset h
  refine isSome_next?.mpr ⟨j, ?_, htj⟩
  rcases Nat.lt_trichotomy i j with hlt | rfl | hlt
  · exact hlt
  · rw [hi] at hsj
    cases hsj
  · rw [hbelow j hlt, htj] at hsj
    cases hsj

/-- Both parts of the order are settled at the least difference. -/
theorem groupingCompare_of_least {i : Nat} (hi : s.contains i ≠ t.contains i)
    (hbelow : ∀ j < i, s.contains j = t.contains j) :
    s.groupingCompare t = if s.contains i then .lt else .gt := by
  have hne : s ≠ t := by
    rintro rfl
    exact hi rfl
  rw [groupingCompare, if_neg hne]
  cases hs : s.contains i with
  | true =>
    have hst : ¬s ⊆ t := fun h => hi (hs.trans (h i hs).symm)
    by_cases hts : t ⊆ s
    · rw [if_pos (containsAll_iff.mpr hts), if_pos rfl]
    · rw [if_neg (mt containsAll_iff.mp hts), if_neg (mt containsAll_iff.mp hst),
        lexCompare_of_least hi hbelow, if_pos hs,
        if_pos (isSome_next?_of_not_subset hts hs hbelow), if_pos rfl]
  | false =>
    have ht : t.contains i = true := by simpa [hs] using hi.symm
    have hts : ¬t ⊆ s := fun h => by
      rw [h i ht] at hs
      cases hs
    rw [if_neg (mt containsAll_iff.mp hts), if_neg Bool.false_ne_true]
    by_cases hst : s ⊆ t
    · rw [if_pos (containsAll_iff.mpr hst)]
    · have hbehind := isSome_next?_of_not_subset hst ht fun j hj => (hbelow j hj).symm
      rw [if_neg (mt containsAll_iff.mp hst), lexCompare_of_least hi hbelow, hs,
        if_neg Bool.false_ne_true, if_pos hbehind]

/-- The order of grouping sets has one rule. -/
theorem groupingCompare_eq_lt : s.groupingCompare t = .lt ↔ s.Leads t := by
  constructor
  · intro h
    have hne : s ≠ t := by
      rintro rfl
      rw [groupingCompare, if_pos rfl] at h
      cases h
    obtain ⟨i, hi, hbelow⟩ := exists_least_difference hne
    rw [groupingCompare_of_least hi hbelow] at h
    cases hs : s.contains i with
    | true => exact ⟨i, hs, by simpa [hs] using hi.symm, hbelow⟩
    | false => simp [hs] at h
  · rintro ⟨i, hs, ht, hbelow⟩
    rw [groupingCompare_of_least (by rw [hs, ht]; decide) hbelow, if_pos hs]

theorem isLE_groupingCompare : (s.groupingCompare t).isLE = true ↔ s = t ∨ s.Leads t := by
  rw [Ordering.isLE_iff_eq_lt_or_eq_eq, groupingCompare_eq_lt, or_comm]
  refine or_congr_left ⟨fun h => ?_, ?_⟩
  · by_contra hne
    obtain ⟨i, hi, hbelow⟩ := exists_least_difference hne
    rw [groupingCompare_of_least hi hbelow] at h
    split at h <;> cases h
  · rintro rfl
    rw [groupingCompare, if_pos rfl]

theorem Leads.ne (h : s.Leads t) : s ≠ t := by
  rintro rfl
  obtain ⟨i, hs, hs', -⟩ := h
  rw [hs] at hs'
  cases hs'

/-- The lower one of the two differences is the one that counts. -/
theorem Leads.trans (hst : s.Leads t) (htu : t.Leads u) : s.Leads u := by
  obtain ⟨i, hsi, hti, hi⟩ := hst
  obtain ⟨j, htj, huj, hj⟩ := htu
  rcases Nat.lt_trichotomy i j with hlt | rfl | hlt
  · exact ⟨i, hsi, hj i hlt ▸ hti, fun k hk => (hi k hk).trans (hj k (hk.trans hlt))⟩
  · rw [hti] at htj
    cases htj
  · exact ⟨j, (hi j hlt).trans htj, huj, fun k hk => (hi k (hk.trans hlt)).trans (hj k hk)⟩

theorem Leads.asymm (h : s.Leads t) : ¬t.Leads s := fun h' => (h.trans h').ne rfl

theorem leads_or_leads (h : s ≠ t) : s.Leads t ∨ t.Leads s := by
  obtain ⟨i, hi, hbelow⟩ := exists_least_difference h
  cases hs : s.contains i with
  | true => exact .inl ⟨i, hs, by simpa [hs] using hi.symm, hbelow⟩
  | false => exact .inr ⟨i, by simpa [hs] using hi.symm, hs, fun j hj => (hbelow j hj).symm⟩

/-- A set precedes its proper subsets. -/
theorem leads_of_subset (h : t ⊆ s) (hne : t ≠ s) : s.Leads t := by
  rw [← groupingCompare_eq_lt, groupingCompare, if_neg hne.symm, if_pos (containsAll_iff.mpr h)]

theorem empty_subset (s : OrdinalSet) : empty ⊆ s := fun i hi => by
  rw [contains_empty] at hi
  cases hi

theorem eq_of_subset (h : s ⊆ t) (h' : t ⊆ s) : s = t :=
  ext_contains fun i => Bool.eq_iff_iff.mpr ⟨h i, h' i⟩

instance : Trans Leads Leads Leads := ⟨Leads.trans⟩

/-! ### The ends of an ascending list -/

/-- What precedes all others stands first. -/
theorem head?_eq_of_leads {sets : List OrdinalSet} (hsets : sets.Pairwise Leads) (hs : s ∈ sets)
    (hfirst : ∀ t ∈ sets, t ≠ s → s.Leads t) : sets.head? = some s := by
  cases sets with
  | nil => cases hs
  | cons a rest =>
    by_contra hne
    have has : a ≠ s := fun h => hne (congrArg some h)
    have hrest : s ∈ rest := (List.mem_cons.mp hs).resolve_left has.symm
    exact (hfirst a List.mem_cons_self has).asymm (List.rel_of_pairwise_cons hsets hrest)

/-- What follows all others stands last. -/
theorem getLast?_eq_of_leads {sets : List OrdinalSet} (hsets : sets.Pairwise Leads) (hs : s ∈ sets)
    (hlast : ∀ t ∈ sets, t ≠ s → t.Leads s) : sets.getLast? = some s := by
  rcases List.eq_nil_or_concat sets with rfl | ⟨front, a, rfl⟩
  · cases hs
  · rw [List.concat_eq_append] at hs hsets hlast ⊢
    rw [List.getLast?_concat]
    by_contra hne
    have has : a ≠ s := fun h => hne (congrArg some h)
    have hfront : s ∈ front := by simpa [has.symm] using hs
    have hlead := (List.pairwise_append.mp hsets).2.2 s hfront a (by simp)
    exact hlead.asymm (hlast a (by simp) has)

/-! ### All subsets -/

theorem insert_erase {i : Nat} (h : s.contains i = true) : (s.erase i).insert i = s := by
  refine ext_contains fun j => ?_
  rw [contains_insert, contains_erase]
  by_cases hij : i = j
  · rw [← hij, h]
    simp
  · simp [hij]

theorem range_mul_two (n : Nat) :
    List.range (2 * n) = (List.range n).flatMap fun k => [2 * k, 2 * k + 1] := by
  induction n with
  | zero => rfl
  | succ n ih => simp [Nat.mul_succ, List.range_succ, ih]

theorem ofList_cons (n : Nat) (l : List Nat) : ofList (n :: l) = (ofList l).insert n := by
  refine ext_contains fun i => Bool.eq_iff_iff.mpr ?_
  rw [contains_insert, contains_ofList, Bool.or_eq_true, contains_ofList, decide_eq_true_eq,
    List.mem_cons, or_comm, eq_comm]

/-- The lowest bit of a mask is for the first number, the others are for the rest. -/
theorem selection_cons (n : Nat) (l : List Nat) (mask : Nat) :
    selection (n :: l) mask =
      if mask.testBit 0 then (selection l (mask / 2)).insert n else selection l (mask / 2) := by
  have hrest : ((l.zipIdx 1).filter fun p => mask.testBit p.2).map (·.1) =
      (l.zipIdx.filter fun p => (mask / 2).testBit p.2).map (·.1) := by
    rw [List.zipIdx_succ, List.filter_map, List.map_map]
    simp only [Function.comp_def, Nat.testBit_succ]
  rw [selection, List.zipIdx_cons, List.filter_cons]
  by_cases hn : mask.testBit 0 = true
  · rw [if_pos hn, if_pos hn, List.map_cons, hrest, ofList_cons, selection]
  · rw [if_neg hn, if_neg hn, hrest, selection]

theorem selections_nil : selections [] = [empty] := rfl

/-- The selections without the first number and those with it take turns. -/
theorem selections_cons (n : Nat) (l : List Nat) :
    selections (n :: l) = (selections l).flatMap fun s => [s, s.insert n] := by
  have heven (k : Nat) : selection (n :: l) (2 * k) = selection l k := by
    simp [selection_cons]
  have hodd (k : Nat) : selection (n :: l) (2 * k + 1) = (selection l k).insert n := by
    rw [selection_cons, show (2 * k + 1) / 2 = k by omega]
    simp
  have hdouble : Nat.pow 2 (n :: l).length = 2 * Nat.pow 2 l.length := Nat.pow_succ'
  rw [selections, hdouble, range_mul_two, List.map_flatMap, selections, List.flatMap_map]
  simp only [List.map_cons, List.map_nil, heven, hodd]

/-- The selections from a list of numbers are the sets of some of them. -/
theorem mem_selections {l : List Nat} :
    s ∈ selections l ↔ ∀ i, s.contains i = true → i ∈ l := by
  induction l generalizing s with
  | nil =>
    rw [selections_nil]
    simp only [List.mem_singleton, List.not_mem_nil, imp_false, Bool.not_eq_true]
    constructor
    · rintro rfl i
      exact contains_empty i
    · exact fun h => ext_contains fun i => (h i).trans (contains_empty i).symm
  | cons n l ih =>
    simp only [selections_cons, List.mem_flatMap, List.mem_cons, List.not_mem_nil, or_false]
    constructor
    · rintro ⟨r, hr, rfl | rfl⟩ i hi
      · exact .inr (ih.mp hr i hi)
      · rw [contains_insert, Bool.or_eq_true, decide_eq_true_eq] at hi
        exact hi.symm.imp Eq.symm (ih.mp hr i)
    · intro h
      by_cases hn : s.contains n = true
      · refine ⟨s.erase n, ih.mpr fun i hi => ?_, .inr (insert_erase hn).symm⟩
        rw [contains_erase, Bool.and_eq_true, decide_eq_true_eq] at hi
        exact (h i hi.1).resolve_left hi.2.symm
      · exact ⟨s, ih.mpr fun i hi => (h i hi).resolve_left fun heq => hn (heq ▸ hi), .inl rfl⟩

theorem length_selections (l : List Nat) : (selections l).length = Nat.pow 2 l.length := by
  rw [selections, List.length_map, List.length_range]

theorem insert_inj {n : Nat} (hs : s.contains n = false) (ht : t.contains n = false)
    (h : s.insert n = t.insert n) : s = t := by
  refine ext_contains fun i => ?_
  have hi := congrArg (·.contains i) h
  simp only [contains_insert] at hi
  by_cases hin : n = i
  · rw [← hin, hs, ht]
  · simpa [hin] using hi

/-- Distinct numbers make distinct selections: whether the first one is among them can
    be seen. -/
theorem nodup_selections {l : List Nat} (h : l.Nodup) : (selections l).Nodup := by
  induction l with
  | nil =>
    rw [selections_nil]
    exact List.nodup_singleton _
  | cons n l ih =>
    obtain ⟨hn, hl⟩ := List.nodup_cons.mp h
    have hwithout : ∀ r ∈ selections l, r.contains n = false := fun r hr =>
      Bool.eq_false_iff.mpr fun hr' => hn (mem_selections.mp hr n hr')
    have hne {r r' : OrdinalSet} (hr : r ∈ selections l) : r ≠ r'.insert n := by
      rintro rfl
      simpa [contains_insert] using hwithout _ hr
    rw [selections_cons, List.nodup_flatMap]
    refine ⟨fun r hr => by simpa using hne hr, (ih hl).imp_of_mem fun {r r'} hr hr' hrr' => ?_⟩
    simp only [Function.onFun, List.disjoint_left, List.mem_cons, List.not_mem_nil, or_false]
    rintro _ (rfl | rfl) (h | h)
    · exact hrr' h
    · exact hne hr h
    · exact hne hr' h.symm
    · exact hrr' (insert_inj (hwithout r hr) (hwithout r' hr') h)

theorem mem_powerset : s ∈ key.powerset ↔ s ⊆ key := by
  rw [powerset, List.mem_mergeSort, mem_selections]
  exact forall₂_congr fun i _ => mem_toList key i

theorem length_powerset (key : OrdinalSet) : key.powerset.length = Nat.pow 2 key.card := by
  rw [powerset, List.length_mergeSort, length_selections, card_eq_length]

theorem nodup_powerset (key : OrdinalSet) : key.powerset.Nodup :=
  (List.mergeSort_perm _ _).nodup_iff.mpr (nodup_selections key.toList_pairwise.nodup)

/-- The subsets are listed in strict order. -/
theorem powerset_ascending (key : OrdinalSet) : key.powerset.Pairwise Leads := by
  have hsorted : key.powerset.Pairwise fun a b => (a.groupingCompare b).isLE = true := by
    apply List.pairwise_mergeSort
    · intro a b c hab hbc
      rw [isLE_groupingCompare] at hab hbc ⊢
      rcases hab with rfl | hab
      · exact hbc
      · rcases hbc with rfl | hbc
        · exact .inr hab
        · exact .inr (hab.trans hbc)
    · intro a b
      rw [Bool.or_eq_true, isLE_groupingCompare, isLE_groupingCompare]
      by_cases h : a = b
      · exact .inl (.inl h)
      · exact (leads_or_leads h).imp .inr .inr
  refine (hsorted.and key.nodup_powerset).imp fun {a b} hab => ?_
  exact (isLE_groupingCompare.mp hab.1).resolve_left hab.2

/-- Distinct subsets are all subsets exactly if there are as many of them. -/
theorem forall_subset_mem_iff {sets : List OrdinalSet} (hsets : ∀ s ∈ sets, s ⊆ key)
    (hnodup : sets.Nodup) : (∀ s, s ⊆ key → s ∈ sets) ↔ sets.length = Nat.pow 2 key.card := by
  have hsubperm : sets.Subperm key.powerset :=
    List.subperm_of_subset hnodup fun s hs => mem_powerset.mpr (hsets s hs)
  rw [← length_powerset]
  constructor
  · intro hall
    have hback : key.powerset.Subperm sets :=
      List.subperm_of_subset key.nodup_powerset fun s hs => hall s (mem_powerset.mp hs)
    exact Nat.le_antisymm hsubperm.length_le hback.length_le
  · intro hlength s hs
    exact (hsubperm.perm_of_length_le hlength.ge).mem_iff.mpr (mem_powerset.mpr hs)

end OrdinalSet

end Polystore
