import Mathlib.Data.Finset.Sort
import Polystore.Proofs.Renumbering

/-
  Polystore/Proofs/SetCompositions.lean
  =====================================
  **Sets of ordinals are finite sets.**  A set that is composed of the operations has
  the members that the same operations give on finite sets of numbers, whatever
  numbers of words the operands have.  Its members settle everything that can be asked
  of it: its words, so that equality of words is equality of members, its size, its
  ends, the next member from a number on, the ascending list and the places in that
  list.
-/

namespace Polystore

namespace OrdinalSet

variable {s : OrdinalSet} {m : Finset Nat}

/-! ### Answers -/

/-- The set of ordinals answers every question as the finite set of numbers does. -/
structure Represents (s : OrdinalSet) (m : Finset Nat) : Prop where
  contains : ∀ i, s.contains i = true ↔ i ∈ m
  isEmpty : s.isEmpty = true ↔ m = ∅
  card : s.card = m.card
  min? : ∀ i, s.min? = some i ↔ IsLeast (m : Set Nat) i
  max? : ∀ i, s.max? = some i ↔ IsGreatest (m : Set Nat) i
  next? : ∀ start i, s.next? start = some i ↔ IsLeast {j | j ∈ m ∧ start ≤ j} i
  toList : s.toList = m.sort
  rank? : ∀ i, s.rank? i = if i ∈ m then some (m.filter (· < i)).card else none

theorem next?_eq_some_iff {start i : Nat} :
    s.next? start = some i ↔ IsLeast {j | s.contains j = true ∧ start ≤ j} i := by
  have hleast {i : Nat} (h : s.next? start = some i) :
      IsLeast {j | s.contains j = true ∧ start ≤ j} i := by
    obtain ⟨hle, hi, hclear⟩ := next?_eq_some h
    refine ⟨⟨hi, hle⟩, fun j ⟨hj, hstart⟩ => Nat.le_of_not_lt fun hlt => ?_⟩
    rw [hclear j hstart hlt] at hj
    cases hj
  constructor
  · exact hleast
  · intro h
    obtain ⟨n, hn⟩ := Option.isSome_iff_exists.mp (isSome_next?.mpr ⟨i, h.1.2, h.1.1⟩)
    rw [hn, (hleast hn).unique h]

/-- The rank of a number is the number of members below it. -/
theorem rank_eq_card (h : ∀ i, s.contains i = true ↔ i ∈ m) (i : Nat) :
    s.rank i = (m.filter (· < i)).card := by
  have hfilter : m.filter (· < i) = ((List.range i).filter s.contains).toFinset := by
    ext j
    rw [Finset.mem_filter, List.mem_toFinset, List.mem_filter, List.mem_range, h, and_comm]
  rw [hfilter, List.toFinset_card_of_nodup (List.nodup_range.filter _), rank,
    List.countP_eq_length_filter]

/-- The members decide all answers. -/
theorem Represents.of_contains (h : ∀ i, s.contains i = true ↔ i ∈ m) : s.Represents m := by
  have hnone : (∀ i, s.contains i = false) ↔ m = ∅ := by
    rw [Finset.eq_empty_iff_forall_notMem]
    exact forall_congr' fun i => by rw [← h, Bool.not_eq_true]
  have hsort : s.toList = m.sort := by
    refine List.Pairwise.eq_of_mem_iff s.toList_pairwise m.sortedLT_sort.pairwise fun i => ?_
    rw [mem_toList, Finset.mem_sort, h]
  constructor
  case contains => exact h
  case isEmpty => rw [isEmpty_iff, hnone]
  case card => rw [card_eq_length, hsort, Finset.length_sort]
  case min? =>
    intro i
    rw [OrdinalSet.min?, next?_eq_some_iff]
    simp only [Nat.zero_le, and_true, h, Finset.setOfPred_mem]
  case max? =>
    intro i
    rw [max?_eq_some]
    simp only [h]
    rfl
  case next? =>
    intro start i
    rw [next?_eq_some_iff]
    simp only [h]
  case toList => exact hsort
  case rank? =>
    intro i
    by_cases hi : i ∈ m
    · rw [if_pos hi, rank?_eq_some ((h i).mpr hi), rank_eq_card h]
    · rw [if_neg hi, OrdinalSet.rank?, if_neg (mt (h i).mp hi)]

end OrdinalSet

/-! ### Compositions -/

/-- An expression over sets of numbers. -/
inductive SetExpr
  | empty
  | ofList (l : List Nat)
  | range (n : Nat)
  | insert (e : SetExpr) (i : Nat)
  | erase (e : SetExpr) (i : Nat)
  | union (e f : SetExpr)
  | inter (e f : SetExpr)
  | diff (e f : SetExpr)

namespace SetExpr

/-- The set of ordinals that the operations make. -/
def ordinals : SetExpr → OrdinalSet
  | empty => .empty
  | ofList l => .ofList l
  | range n => .range n
  | insert e i => e.ordinals.insert i
  | erase e i => e.ordinals.erase i
  | union e f => e.ordinals.union f.ordinals
  | inter e f => e.ordinals.inter f.ordinals
  | diff e f => e.ordinals.diff f.ordinals

/-- The finite set that the expression denotes. -/
def members : SetExpr → Finset Nat
  | empty => ∅
  | ofList l => l.toFinset
  | range n => Finset.range n
  | insert e i => Insert.insert i e.members
  | erase e i => e.members.erase i
  | union e f => e.members ∪ f.members
  | inter e f => e.members ∩ f.members
  | diff e f => e.members \ f.members

open OrdinalSet

theorem contains_ordinals (e : SetExpr) (i : Nat) :
    e.ordinals.contains i = true ↔ i ∈ e.members := by
  induction e with
  | empty => simp [ordinals, members, contains_empty]
  | ofList l => rw [ordinals, members, contains_ofList, List.mem_toFinset]
  | range n => rw [ordinals, members, contains_range, Finset.mem_range]
  | insert e j ih =>
    rw [ordinals, members, contains_insert, Bool.or_eq_true, decide_eq_true_eq, ih,
      Finset.mem_insert, or_comm, eq_comm]
  | erase e j ih =>
    rw [ordinals, members, contains_erase, Bool.and_eq_true, decide_eq_true_eq, ih,
      Finset.mem_erase, and_comm, ne_comm]
  | union e f ihe ihf =>
    rw [ordinals, members, contains_union, Bool.or_eq_true, ihe, ihf, Finset.mem_union]
  | inter e f ihe ihf =>
    rw [ordinals, members, contains_inter, Bool.and_eq_true, ihe, ihf, Finset.mem_inter]
  | diff e f ihe ihf =>
    rw [ordinals, members, contains_diff, Bool.and_eq_true, Bool.not_eq_true',
      ← Bool.not_eq_true, ihe, ihf, Finset.mem_sdiff]

/-- Composed sets have the same words exactly if they denote the same finite set,
    include one another exactly if the denoted sets do, and answer as these do. -/
theorem ordinals_represent (e f : SetExpr) :
    (e.ordinals.words = f.ordinals.words ↔ e.members = f.members) ∧
      (e.ordinals.containsAll f.ordinals = true ↔ f.members ⊆ e.members) ∧
      e.ordinals.Represents e.members := by
  refine ⟨?words, ?inclusion, .of_contains e.contains_ordinals⟩
  case words =>
    constructor
    · intro h
      ext i
      rw [← contains_ordinals, ← contains_ordinals, contains_eq_hasBit, contains_eq_hasBit, h]
    · intro h
      refine congrArg words (ext_contains fun i => ?_)
      rw [Bool.eq_iff_iff, contains_ordinals, contains_ordinals, h]
  case inclusion =>
    rw [containsAll_iff_forall]
    exact forall_congr' fun i => by rw [contains_ordinals, contains_ordinals]

end SetExpr

end Polystore
