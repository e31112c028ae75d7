import Mathlib.Data.List.Sort
import Mathlib.Data.List.TakeWhile
import Polystore.OrdinalSet

/-
  Polystore/Proofs/OrdinalSets.lean
  =================================
  **Sets of ordinals by their members.**  What the operations on sets of ordinals
  do to membership.  A number is looked up in a list of words first (`hasBit`),
  where places behind the last word have no bits; zeros at the end then make no
  difference, and trimmed lists with the same bits are the same.
-/

namespace Polystore

/-! ### Bits of a word -/

namespace Word

/-- A word that is not zero has a lowest bit. -/
theorem trailingZeros_least {w : Word} (h : w ≠ 0#64) :
    trailingZeros w < 64 ∧ w.getLsbD (trailingZeros w) = true ∧
      ∀ i < trailingZeros w, w.getLsbD i = false := by
  unfold trailingZeros
  cases hfind : (List.range 64).find? w.getLsbD with
  | none =>
    refine absurd (BitVec.eq_of_getLsbD_eq fun i hi => ?_) h
    rw [BitVec.getLsbD_zero]
    exact Bool.eq_false_iff.mpr (List.find?_eq_none.mp hfind i (List.mem_range.mpr hi))
  | some z =>
    obtain ⟨hbit, hz, hbelow⟩ := List.find?_range_eq_some.mp hfind
    exact ⟨List.mem_range.mp hz, hbit, fun i hi => by simpa using hbelow i hi⟩

/-- A word that is not zero has a highest bit. -/
theorem leadingZeros_greatest {w : Word} (h : w ≠ 0#64) :
    leadingZeros w < 64 ∧ w.getLsbD (63 - leadingZeros w) = true ∧
      ∀ i < 64, 63 - leadingZeros w < i → w.getLsbD i = false := by
  unfold leadingZeros
  cases hfind : (List.range 64).find? fun i => w.getLsbD (63 - i) with
  | none =>
    refine absurd (BitVec.eq_of_getLsbD_eq fun i hi => ?_) h
    have hmem : 63 - i ∈ List.range 64 := List.mem_range.mpr (by omega)
    have hclear := List.find?_eq_none.mp hfind (63 - i) hmem
    rw [show 63 - (63 - i) = i by omega] at hclear
    rw [BitVec.getLsbD_zero]
    exact Bool.eq_false_iff.mpr hclear
  | some z =>
    obtain ⟨hbit, hz, hbelow⟩ := List.find?_range_eq_some.mp hfind
    refine ⟨List.mem_range.mp hz, hbit, fun i hi hlt => ?_⟩
    rw [Option.getD_some] at hlt
    have hclear := hbelow (63 - i) (by omega)
    rw [show 63 - (63 - i) = i by omega] at hclear
    simpa using hclear

end Word

/-! ### Bits of a list of words -/

namespace Words

/-- Whether the bit of a number is set in one of the words. -/
def hasBit (ws : List Word) (i : Nat) : Bool := (ws[i / 64]?.getD 0#64).getLsbD (i % 64)

variable {ws vs : List Word} {w : Word} {i j : Nat}

theorem hasBit_nil : hasBit [] i = false := by
  rw [hasBit, List.getElem?_nil, Option.getD_none, BitVec.getLsbD_zero]

theorem hasBit_cons_low (hi : i < 64) : hasBit (w :: ws) i = w.getLsbD i := by
  rw [hasBit, Nat.div_eq_of_lt hi, Nat.mod_eq_of_lt hi]
  rfl

theorem hasBit_cons_high : hasBit (w :: ws) (64 + i) = hasBit ws i := by
  rw [hasBit, Nat.add_div_left _ (by decide), Nat.add_mod_left, hasBit, List.getElem?_cons_succ]

theorem hasBit_drop (k : Nat) : hasBit (ws.drop k) i = hasBit ws (64 * k + i) := by
  rw [hasBit, hasBit, List.getElem?_drop, Nat.mul_add_div (by decide), Nat.mul_add_mod]

theorem lt_of_hasBit (h : hasBit ws i = true) : i < 64 * ws.length := by
  by_contra hge
  have hplace : ws.length ≤ i / 64 := by omega
  rw [hasBit, List.getElem?_eq_none hplace, Option.getD_none, BitVec.getLsbD_zero] at h
  cases h

theorem hasBit_append_zeros (k : Nat) : hasBit (ws ++ List.replicate k 0#64) i = hasBit ws i := by
  unfold hasBit
  by_cases hlt : i / 64 < ws.length
  · rw [List.getElem?_append_left hlt]
  · rw [List.getElem?_append_right (by omega), List.getElem?_replicate,
      List.getElem?_eq_none (by omega)]
    split <;> rfl

/-- Zeros at the end are all that trimming removes. -/
theorem trim_append_zeros (ws : List Word) : ∃ k, trim ws ++ List.replicate k 0#64 = ws := by
  let zero : Word → Bool := fun w => w = 0#64
  have hzeros : ∀ w ∈ ws.reverse.takeWhile zero, w = 0#64 := fun w hw => by
    simpa [zero] using List.mem_takeWhile_imp hw
  have hsplit := congrArg List.reverse (List.takeWhile_append_dropWhile (p := zero) (l := ws.reverse))
  rw [List.reverse_append, List.reverse_reverse,
    List.eq_replicate_iff.mpr ⟨rfl, hzeros⟩, List.reverse_replicate] at hsplit
  exact ⟨_, hsplit⟩

theorem hasBit_trim : hasBit (trim ws) i = hasBit ws i := by
  obtain ⟨k, hk⟩ := trim_append_zeros ws
  rw [← hasBit_append_zeros k, hk]

/-- A word made for every place below `n`. -/
theorem hasBit_map_range (f : Nat → Word) (n : Nat) :
    hasBit ((List.range n).map f) i = (decide (i / 64 < n) && (f (i / 64)).getLsbD (i % 64)) := by
  rw [hasBit, List.getElem?_map]
  by_cases hlt : i / 64 < n
  · rw [List.getElem?_range hlt, decide_eq_true hlt, Bool.true_and]
    rfl
  · rw [List.getElem?_eq_none (by rw [List.length_range]; omega), decide_eq_false hlt,
      Bool.false_and]
    exact BitVec.getLsbD_zero

/-- Only bits of the word at `k` are changed, if there is one. -/
theorem hasBit_modify (f : Word → Word) (k : Nat) :
    hasBit (ws.modify k f) j =
      if k = j / 64 ∧ k < ws.length then (f (ws[k]?.getD 0#64)).getLsbD (j % 64)
      else hasBit ws j := by
  rw [hasBit, List.getElem?_modify]
  by_cases hk : k = j / 64
  · subst hk
    by_cases hlt : j / 64 < ws.length
    · rw [if_pos ⟨rfl, hlt⟩, List.getElem?_eq_getElem hlt]
      simp
    · rw [if_neg fun h => hlt h.2, hasBit, List.getElem?_eq_none (by omega)]
      rfl
  · rw [if_neg fun h => hk h.1, hasBit]
    simp [hk]

theorem hasBit_setBit : hasBit (setBit ws i) j = (hasBit ws j || decide (i = j)) := by
  have hi : i % 64 < 64 := Nat.mod_lt i (by decide)
  have hlength : i / 64 < (ws ++ List.replicate (i / 64 + 1 - ws.length) (0#64 : Word)).length := by
    rw [List.length_append, List.length_replicate]
    omega
  rw [setBit, hasBit_modify]
  by_cases hplace : i / 64 = j / 64
  · rw [if_pos ⟨hplace, hlength⟩, hplace, BitVec.getLsbD_or, Word.getLsbD_bit hi]
    change (hasBit (ws ++ List.replicate (j / 64 + 1 - ws.length) 0#64) j || _) = _
    rw [hasBit_append_zeros, decide_eq_decide.mpr (show i % 64 = j % 64 ↔ i = j by omega)]
  · rw [if_neg fun h => hplace h.1, hasBit_append_zeros, decide_eq_false (by omega), Bool.or_false]

theorem hasBit_foldl_setBit (l : List Nat) :
    hasBit (l.foldl setBit ws) i = true ↔ hasBit ws i = true ∨ i ∈ l := by
  induction l generalizing ws with
  | nil => simp
  | cons j l ih =>
    rw [List.foldl_cons, ih, hasBit_setBit, Bool.or_eq_true, decide_eq_true_eq, or_assoc,
      List.mem_cons, eq_comm (a := j)]

/-- Trimmed lists with the same bits are the same. -/
theorem ext_hasBit (hws : Trimmed ws) (hvs : Trimmed vs) (h : ∀ i, hasBit ws i = hasBit vs i) :
    ws = vs := by
  have hword (k : Nat) : ws[k]?.getD 0#64 = vs[k]?.getD 0#64 := by
    refine BitVec.eq_of_getLsbD_eq fun i hi => ?_
    have hbit := h (64 * k + i)
    rwa [hasBit, hasBit, Nat.mul_add_div (by decide), Nat.div_eq_of_lt hi, Nat.add_zero,
      Nat.mul_add_mod, Nat.mod_eq_of_lt hi] at hbit
  -- the last word of the longer list would be zero in the shorter one
  have hle {us us' : List Word} (htrimmed : Trimmed us')
      (hsame : ∀ k : Nat, us[k]?.getD 0#64 = us'[k]?.getD 0#64) : us'.length ≤ us.length := by
    by_contra hlt
    have hlast := hsame (us'.length - 1)
    have hget : us'[us'.length - 1]? = some us'[us'.length - 1] :=
      List.getElem?_eq_getElem (by omega)
    rw [List.getElem?_eq_none (by omega), hget] at hlast
    refine htrimmed ?_
    rw [List.getLast?_eq_getElem?, hget]
    exact congrArg some hlast.symm
  have hlength : ws.length = vs.length :=
    Nat.le_antisymm (hle hws fun k => (hword k).symm) (hle hvs hword)
  refine List.ext_getElem hlength fun k hk hk' => ?_
  have hget := hword k
  rwa [List.getElem?_eq_getElem hk, List.getElem?_eq_getElem hk'] at hget

/-- The scan ends at the lowest bit, which may lie behind words that are zero. -/
theorem scan_eq_some {k n : Nat} (h : scan k ws = some n) :
    ∃ i, n = 64 * k + i ∧ hasBit ws i = true ∧ ∀ j < i, hasBit ws j = false := by
  induction ws generalizing k with
  | nil => cases h
  | cons w ws ih =>
    rw [scan] at h
    split at h
    · next hw =>
      obtain ⟨hlt, hbit, hbelow⟩ := Word.trailingZeros_least hw
      cases h
      refine ⟨_, by omega, (hasBit_cons_low hlt).trans hbit, fun j hj => ?_⟩
      rw [hasBit_cons_low (by omega), hbelow j hj]
    · next hw =>
      obtain ⟨i, rfl, hbit, hbelow⟩ := ih h
      refine ⟨64 + i, by omega, hasBit_cons_high.trans hbit, fun j hj => ?_⟩
      by_cases hlow : j < 64
      · rw [hasBit_cons_low hlow, Decidable.not_not.mp hw, BitVec.getLsbD_zero]
      · obtain ⟨j, rfl⟩ := Nat.exists_eq_add_of_le (Nat.le_of_not_lt hlow)
        rw [hasBit_cons_high, hbelow j (by omega)]

theorem scan_eq_none {k : Nat} (h : scan k ws = none) (i : Nat) : hasBit ws i = false := by
  induction ws generalizing k i with
  | nil => exact hasBit_nil
  | cons w ws ih =>
    rw [scan] at h
    split at h
    · cases h
    · next hw =>
      by_cases hlow : i < 64
      · rw [hasBit_cons_low hlow, Decidable.not_not.mp hw, BitVec.getLsbD_zero]
      · obtain ⟨i, rfl⟩ := Nat.exists_eq_add_of_le (Nat.le_of_not_lt hlow)
        rw [hasBit_cons_high, ih h i]

/-- The bits are counted word by word. -/
theorem foldr_ones (ws : List Word) :
    ws.foldr (fun w n => Word.ones w + n) 0 = (List.range (64 * ws.length)).countP (hasBit ws) := by
  induction ws with
  | nil => rfl
  | cons w ws ih =>
    have hlow : (List.range 64).countP (hasBit (w :: ws)) = Word.ones w :=
      List.countP_congr fun i hi => by rw [hasBit_cons_low (List.mem_range.mp hi)]
    have hhigh : hasBit (w :: ws) ∘ (64 + ·) = hasBit ws := funext fun i => hasBit_cons_high
    rw [List.foldr_cons, ih, List.length_cons, Nat.mul_succ, Nat.add_comm _ 64,
      List.range_add, List.countP_append, List.countP_map, hlow, hhigh]

end Words

/-! ### Membership -/

namespace OrdinalSet

open Words

variable {s t : OrdinalSet} {i j : Nat}

theorem contains_eq_hasBit (s : OrdinalSet) (i : Nat) : s.contains i = hasBit s.words i := by
  have hi : i % 64 < 64 := Nat.mod_lt i (by decide)
  unfold contains hasBit
  cases s.words[i / 64]? with
  | none => simp
  | some w =>
    rw [Option.any_some, Option.getD_some, Bool.eq_iff_iff, decide_eq_true_eq,
      Word.and_bit_ne_zero hi]

theorem contains_ofWords (ws : List Word) (i : Nat) : (ofWords ws).contains i = hasBit ws i := by
  rw [contains_eq_hasBit, ofWords, hasBit_trim]

theorem getLsbD_word (s : OrdinalSet) (i : Nat) :
    (s.word (i / 64)).getLsbD (i % 64) = s.contains i :=
  (contains_eq_hasBit s i).symm

/-- A set is determined by its members. -/
theorem ext_contains (h : ∀ i, s.contains i = t.contains i) : s = t := by
  have hwords : s.words = t.words := ext_hasBit s.trimmed t.trimmed fun i => by
    rw [← contains_eq_hasBit, ← contains_eq_hasBit, h]
  cases s
  cases t
  cases hwords
  rfl

theorem lt_bound_of_contains (h : s.contains i = true) : i < s.bound :=
  lt_of_hasBit ((contains_eq_hasBit s i).symm.trans h)

theorem contains_empty (i : Nat) : empty.contains i = false := by
  rw [contains_eq_hasBit, empty, hasBit_nil]

theorem isEmpty_iff : s.isEmpty = true ↔ ∀ i, s.contains i = false := by
  rw [isEmpty, List.isEmpty_iff]
  constructor
  · intro h i
    rw [contains_eq_hasBit, h, hasBit_nil]
  · intro h
    have hempty : s = empty := ext_contains fun i => (h i).trans (contains_empty i).symm
    rw [hempty, empty]

theorem contains_insert (s : OrdinalSet) (i j : Nat) :
    (s.insert i).contains j = (s.contains j || decide (i = j)) := by
  rw [contains_eq_hasBit, insert, hasBit_setBit, contains_eq_hasBit]

theorem contains_erase (s : OrdinalSet) (i j : Nat) :
    (s.erase i).contains j = (s.contains j && decide (i ≠ j)) := by
  have hi : i % 64 < 64 := Nat.mod_lt i (by decide)
  have hj : j % 64 < 64 := Nat.mod_lt j (by decide)
  rw [erase, contains_ofWords, hasBit_modify, contains_eq_hasBit]
  by_cases hplace : i / 64 = j / 64 ∧ i / 64 < s.words.length
  · rw [if_pos hplace, hplace.1, BitVec.getLsbD_and, BitVec.getLsbD_not, Word.getLsbD_bit hi,
      decide_eq_true hj, Bool.true_and, ← decide_not, hasBit,
      decide_eq_decide.mpr (show ¬i % 64 = j % 64 ↔ i ≠ j by omega)]
  · rw [if_neg hplace]
    cases hbit : hasBit s.words j with
    | false => rfl
    | true =>
      have hlt := lt_of_hasBit hbit
      rw [decide_eq_true (by omega), Bool.and_true]

theorem contains_ofList (l : List Nat) (i : Nat) : (ofList l).contains i = true ↔ i ∈ l := by
  rw [ofList, contains_ofWords, hasBit_foldl_setBit, hasBit_nil]
  simp

theorem contains_range (n i : Nat) : (range n).contains i = true ↔ i < n := by
  rw [range, contains_ofList, List.mem_range]

/-- Words that are combined bit by bit; there are no bits behind the words of both. -/
theorem contains_zipWords {f : Word → Word → Word} {b : Bool → Bool → Bool} {n : Nat}
    (hf : ∀ w v j, j < 64 → (f w v).getLsbD j = b (w.getLsbD j) (v.getLsbD j))
    (hn : ∀ i, n ≤ i / 64 → b (s.contains i) (t.contains i) = false) (i : Nat) :
    (zipWords f n s t).contains i = b (s.contains i) (t.contains i) := by
  rw [zipWords, contains_ofWords, hasBit_map_range, hf _ _ _ (Nat.mod_lt i (by decide)),
    getLsbD_word, getLsbD_word]
  by_cases hlt : i / 64 < n
  · rw [decide_eq_true hlt, Bool.true_and]
  · rw [decide_eq_false hlt, Bool.false_and, hn i (by omega)]

theorem contains_eq_false_of_length_le (h : s.words.length ≤ i / 64) : s.contains i = false := by
  refine Bool.eq_false_iff.mpr fun hi => ?_
  have hlt := lt_bound_of_contains hi
  rw [bound] at hlt
  omega

theorem contains_union (s t : OrdinalSet) (i : Nat) :
    (s.union t).contains i = (s.contains i || t.contains i) := by
  refine contains_zipWords (fun w v j _ => BitVec.getLsbD_or) (fun i hi => ?_) i
  rw [contains_eq_false_of_length_le (s := s) (by omega),
    contains_eq_false_of_length_le (s := t) (by omega), Bool.or_false]

theorem contains_inter (s t : OrdinalSet) (i : Nat) :
    (s.inter t).contains i = (s.contains i && t.contains i) := by
  refine contains_zipWords (fun w v j _ => BitVec.getLsbD_and) (fun i hi => ?_) i
  rcases Nat.le_total s.words.length t.words.length with hle | hle
  · rw [contains_eq_false_of_length_le (s := s) (by omega), Bool.false_and]
  · rw [contains_eq_false_of_length_le (s := t) (by omega), Bool.and_false]

theorem contains_diff (s t : OrdinalSet) (i : Nat) :
    (s.diff t).contains i = (s.contains i && !t.contains i) := by
  refine contains_zipWords (b := fun x y => x && !y) (fun w v j hj => ?_) (fun i hi => ?_) i
  · rw [BitVec.getLsbD_and, BitVec.getLsbD_not, decide_eq_true hj, Bool.true_and]
  · rw [contains_eq_false_of_length_le (s := s) hi, Bool.false_and]

theorem containsAll_iff_forall :
    s.containsAll t = true ↔ ∀ i, t.contains i = true → s.contains i = true := by
  rw [containsAll, List.all_eq_true]
  constructor
  · intro h i hi
    have hlt := lt_bound_of_contains hi
    rw [bound] at hlt
    have hget : t.words[i / 64]? = some (t.word (i / 64)) := by
      rw [word, List.getElem?_eq_getElem (by omega), Option.getD_some]
    have hzero := congrArg (·.getLsbD (i % 64))
      (of_decide_eq_true (h _ (List.mk_mem_zipIdx_iff_getElem?.mpr hget)))
    simp only [BitVec.getLsbD_and, BitVec.getLsbD_not, BitVec.getLsbD_zero, getLsbD_word, hi,
      Nat.mod_lt i (show 0 < 64 by decide), decide_true, Bool.true_and] at hzero
    simpa using hzero
  · rintro h ⟨w, k⟩ hw
    have hword : t.word k = w := by
      rw [word, List.mk_mem_zipIdx_iff_getElem?.mp hw, Option.getD_some]
    refine decide_eq_true (BitVec.eq_of_getLsbD_eq fun j hj => ?_)
    have hbit (r : OrdinalSet) : (r.word k).getLsbD j = r.contains (64 * k + j) := by
      rw [← getLsbD_word, Nat.mul_add_div (by decide), Nat.div_eq_of_lt hj, Nat.add_zero,
        Nat.mul_add_mod, Nat.mod_eq_of_lt hj]
    rw [BitVec.getLsbD_and, BitVec.getLsbD_not, BitVec.getLsbD_zero, ← hword, hbit, hbit,
      decide_eq_true hj, Bool.true_and]
    have hmember := h (64 * k + j)
    cases ht : t.contains (64 * k + j) with
    | false => rfl
    | true => rw [hmember ht]; rfl

/-! ### The ends and the next member -/

theorem max?_eq_none : s.max? = none ↔ ∀ i, s.contains i = false := by
  rw [← isEmpty_iff, isEmpty, List.isEmpty_iff, max?, Option.map_eq_none_iff]
  rcases List.eq_nil_or_concat s.words with hnil | ⟨init, w, hwords⟩
  · simp [hnil]
  · have hw : w ≠ 0#64 := fun h => s.trimmed (by simp [hwords, h])
    simp [hwords, List.zipIdx_append, hw]

theorem max?_eq_some {m : Nat} :
    s.max? = some m ↔ s.contains m = true ∧ ∀ i, s.contains i = true → i ≤ m := by
  have htop {m : Nat} (h : s.max? = some m) :
      s.contains m = true ∧ ∀ i, s.contains i = true → i ≤ m := by
    rcases List.eq_nil_or_concat s.words with hnil | ⟨init, w, hwords⟩
    · rw [max?, hnil] at h
      cases h
    · have hw : w ≠ 0#64 := fun h => s.trimmed (by simp [hwords, h])
      have hm : init.length * 64 + (63 - Word.leadingZeros w) = m := by
        simpa [max?, hwords, List.zipIdx_append, hw] using h
      obtain ⟨hz, hbit, habove⟩ := Word.leadingZeros_greatest hw
      have hlast {j : Nat} (hj : j < 64) :
          s.contains (init.length * 64 + j) = w.getLsbD j := by
        rw [contains_eq_hasBit, hwords, Nat.mul_comm, ← hasBit_drop]
        simpa using hasBit_cons_low hj
      subst hm
      refine ⟨(hlast (by omega)).trans hbit, fun i hi => ?_⟩
      by_contra hlt
      have hbound := lt_bound_of_contains hi
      rw [bound, hwords, List.concat_eq_append, List.length_append] at hbound
      simp only [List.length_cons, List.length_nil] at hbound
      obtain ⟨j, rfl⟩ := Nat.exists_eq_add_of_le (show init.length * 64 ≤ i by omega)
      rw [hlast (by omega), habove j (by omega) (by omega)] at hi
      cases hi
  constructor
  · exact htop
  · rintro ⟨hm, hmax⟩
    cases hs : s.max? with
    | none => rw [max?_eq_none.mp hs m] at hm; cases hm
    | some m' =>
      obtain ⟨hm', hmax'⟩ := htop hs
      rw [Nat.le_antisymm (hmax m' hm') (hmax' m hm)]

/-- The bits of the first word that are below `start` are masked. -/
theorem hasBit_masked {w : Word} {ws : List Word} {k : Nat} :
    hasBit ((w &&& Word.upFrom k) :: ws) i =
      (hasBit (w :: ws) i && (decide (k ≤ i) || decide (64 ≤ i))) := by
  by_cases hlow : i < 64
  · rw [hasBit_cons_low hlow, hasBit_cons_low hlow, BitVec.getLsbD_and, Word.getLsbD_upFrom hlow,
      decide_eq_false (p := 64 ≤ i) (by omega), Bool.or_false]
  · obtain ⟨i, rfl⟩ := Nat.exists_eq_add_of_le (Nat.le_of_not_lt hlow)
    rw [hasBit_cons_high, hasBit_cons_high, decide_eq_true (p := 64 ≤ 64 + i) (by omega),
      Bool.or_true, Bool.and_true]

theorem next?_eq_none {start : Nat} (h : s.next? start = none) (hi : start ≤ i) :
    s.contains i = false := by
  obtain ⟨j, rfl⟩ := Nat.exists_eq_add_of_le (show 64 * (start / 64) ≤ i by omega)
  rw [contains_eq_hasBit, ← hasBit_drop]
  rw [next?] at h
  cases hdrop : s.words.drop (start / 64) with
  | nil => exact hasBit_nil
  | cons w rest =>
    rw [hdrop] at h
    have hclear := scan_eq_none h j
    rw [hasBit_masked, decide_eq_true (by omega), Bool.true_or, Bool.and_true] at hclear
    exact hclear

theorem next?_eq_some {start n : Nat} (h : s.next? start = some n) :
    start ≤ n ∧ s.contains n = true ∧ ∀ i, start ≤ i → i < n → s.contains i = false := by
  rw [next?] at h
  cases hdrop : s.words.drop (start / 64) with
  | nil => rw [hdrop] at h; cases h
  | cons w rest =>
    have hcontains (i : Nat) : s.contains (64 * (start / 64) + i) = hasBit (w :: rest) i := by
      rw [contains_eq_hasBit, ← hdrop, hasBit_drop]
    rw [hdrop] at h
    obtain ⟨j, rfl, hbit, hbelow⟩ := scan_eq_some h
    rw [hasBit_masked, Bool.and_eq_true, Bool.or_eq_true, decide_eq_true_eq,
      decide_eq_true_eq] at hbit
    refine ⟨by omega, (hcontains j).trans hbit.1, fun i hi hlt => ?_⟩
    obtain ⟨i, rfl⟩ := Nat.exists_eq_add_of_le (show 64 * (start / 64) ≤ i by omega)
    have hclear := hbelow i (by omega)
    rw [hasBit_masked, decide_eq_true (by omega), Bool.true_or, Bool.and_true] at hclear
    rw [hcontains, hclear]

theorem isSome_next? {start : Nat} :
    (s.next? start).isSome = true ↔ ∃ i, start ≤ i ∧ s.contains i = true := by
  cases h : s.next? start with
  | none =>
    simp only [Option.isSome_none, Bool.false_eq_true, false_iff, not_exists, not_and]
    exact fun i hi => Bool.eq_false_iff.mp (next?_eq_none h hi)
  | some n =>
    obtain ⟨hle, hn, -⟩ := next?_eq_some h
    exact iff_of_true rfl ⟨n, hle, hn⟩

/-! ### The members in order -/

/-- The list is ascending and has only members from `start` on. -/
theorem listFrom_ascending (s : OrdinalSet) (most start : Nat) :
    (s.listFrom most start).Pairwise (· < ·) ∧
      ∀ i ∈ s.listFrom most start, start ≤ i ∧ s.contains i = true := by
  induction most generalizing start with
  | zero => exact ⟨.nil, fun i hi => absurd hi List.not_mem_nil⟩
  | succ most ih =>
    rw [listFrom]
    cases hnext : s.next? start with
    | none => exact ⟨.nil, fun i hi => absurd hi List.not_mem_nil⟩
    | some n =>
      obtain ⟨hle, hn, -⟩ := next?_eq_some hnext
      obtain ⟨hsorted, hmembers⟩ := ih (n + 1)
      refine ⟨List.pairwise_cons.mpr ⟨fun i hi => (hmembers i hi).1, hsorted⟩, fun i hi => ?_⟩
      rcases List.mem_cons.mp hi with rfl | hi
      · exact ⟨hle, hn⟩
      · have := hmembers i hi
        exact ⟨by omega, this.2⟩

/-- Every step passes at least one number, so so many steps find all members in reach. -/
theorem mem_listFrom (hi : s.contains i = true) (most start : Nat) (hle : start ≤ i)
    (hlt : i < start + most) : i ∈ s.listFrom most start := by
  induction most generalizing start with
  | zero => omega
  | succ most ih =>
    rw [listFrom]
    cases hnext : s.next? start with
    | none => rw [next?_eq_none hnext hle] at hi; cases hi
    | some n =>
      obtain ⟨hstart, -, hclear⟩ := next?_eq_some hnext
      rcases Nat.lt_trichotomy i n with hin | rfl | hin
      · rw [hclear i hle hin] at hi; cases hi
      · exact List.mem_cons_self
      · exact List.mem_cons_of_mem n (ih (n + 1) (by omega) (by omega))

theorem mem_toList (s : OrdinalSet) (i : Nat) : i ∈ s.toList ↔ s.contains i = true := by
  constructor
  · exact fun h => ((s.listFrom_ascending _ _).2 i h).2
  · intro h
    have hlt := lt_bound_of_contains h
    exact mem_listFrom h _ _ (Nat.zero_le i) (by omega)

theorem toList_pairwise (s : OrdinalSet) : s.toList.Pairwise (· < ·) :=
  (s.listFrom_ascending _ _).1

theorem toList_eq_filter (s : OrdinalSet) : s.toList = (List.range s.bound).filter s.contains := by
  refine List.Pairwise.eq_of_mem_iff s.toList_pairwise (List.pairwise_lt_range.filter _) fun i => ?_
  rw [mem_toList, List.mem_filter, List.mem_range]
  exact ⟨fun h => ⟨lt_bound_of_contains h, h⟩, And.right⟩

theorem card_eq_length (s : OrdinalSet) : s.card = s.toList.length := by
  rw [card, foldr_ones, toList_eq_filter, ← List.countP_eq_length_filter, bound,
    funext s.contains_eq_hasBit]

/-! ### The order by words -/

theorem listFrom_eq_toList {most : Nat} (h : s.bound ≤ most) : s.listFrom most 0 = s.toList := by
  refine List.Pairwise.eq_of_mem_iff (s.listFrom_ascending most 0).1 s.toList_pairwise fun i => ?_
  rw [mem_toList]
  constructor
  · exact fun hi => ((s.listFrom_ascending most 0).2 i hi).2
  · intro hi
    have hlt := lt_bound_of_contains hi
    exact mem_listFrom hi most 0 (Nat.zero_le i) (by omega)

/-- A turn of the comparison takes one member of each list. -/
theorem lexFrom_eq_compare (s t : OrdinalSet) (most start : Nat) :
    s.lexFrom t most start = compare (s.listFrom most start) (t.listFrom most start) := by
  induction most generalizing start with
  | zero => rfl
  | succ most ih =>
    rw [lexFrom, listFrom, listFrom]
    cases hs : s.next? start with
    | none => cases ht : t.next? start <;> rfl
    | some i =>
      cases ht : t.next? start with
      | none => rfl
      | some j =>
        simp only [List.compare_cons_cons]
        by_cases hij : i = j
        · subst hij
          simp only [ne_eq, not_true_eq_false, if_false, Std.ReflOrd.compare_self, ih]
          rfl
        · have hne : compare i j ≠ .eq := fun h => hij (Nat.compare_eq_eq.mp h)
          rw [if_pos hij]
          cases hcompare : compare i j with
          | eq => exact absurd hcompare hne
          | _ => rfl

/-- The order by words compares the ascending lists of members. -/
theorem lexCompare_eq_compare (s t : OrdinalSet) :
    s.lexCompare t = compare s.toList t.toList := by
  rw [lexCompare, lexFrom_eq_compare, listFrom_eq_toList (Nat.le_max_left ..),
    listFrom_eq_toList (Nat.le_max_right ..)]

end OrdinalSet

end Polystore
