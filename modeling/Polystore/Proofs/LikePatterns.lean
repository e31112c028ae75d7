import Mathlib.Data.List.Forall2
import Polystore.Like

/-
  Polystore/Proofs/LikePatterns.lean
  ==================================
  **What the items of a pattern match.**  A text matches when it is divided into
  consecutive pieces, one for each item (`LikeItem.Divide`).  The matcher looks for such
  a division from left to right and tries every length for a piece of `%`
  (`matchItems_iff`); that it drops repeated `%` items first makes no difference
  (`divide_collapse`).  The items are those that the rules of the pattern language allow,
  which read every pattern in one way (`reads_iff`), so that matching is exact
  (`likeMatch_exact`).
-/

namespace Polystore

namespace LikeItem

/-- The pieces of a text for which an item stands. -/
def Takes : LikeItem → List Char → Prop
  | anySequence, _ => True
  | anyChar, piece => piece.length = 1
  | exactly c, piece => piece = [c]

/-- The items divide the text into consecutive pieces, one for each of them. -/
def Divide (items : List LikeItem) (text : List Char) : Prop :=
  ∃ pieces, List.Forall₂ Takes items pieces ∧ pieces.flatten = text

variable {items : List LikeItem} {text : List Char}

theorem divide_nil : Divide [] text ↔ text = [] := by
  simp [Divide, eq_comm]

theorem divide_cons {item : LikeItem} : Divide (item :: items) text ↔
    ∃ piece rest, item.Takes piece ∧ Divide items rest ∧ piece ++ rest = text := by
  constructor
  · rintro ⟨pieces, h, rfl⟩
    obtain ⟨piece, pieces, hpiece, hpieces, rfl⟩ := List.forall₂_cons_left_iff.mp h
    exact ⟨piece, pieces.flatten, hpiece, ⟨pieces, hpieces, rfl⟩, rfl⟩
  · rintro ⟨piece, _, hpiece, ⟨pieces, hpieces, rfl⟩, rfl⟩
    exact ⟨piece :: pieces, .cons hpiece hpieces, rfl⟩

theorem divide_anySequence : Divide (anySequence :: items) text ↔
    ∃ piece rest, Divide items rest ∧ piece ++ rest = text := by
  simp [divide_cons, Takes]

theorem divide_anyChar : Divide (anyChar :: items) text ↔
    ∃ c rest, Divide items rest ∧ text = c :: rest := by
  rw [divide_cons]
  constructor
  · rintro ⟨piece, rest, hpiece, hrest, rfl⟩
    obtain ⟨c, rfl⟩ := List.length_eq_one_iff.mp hpiece
    exact ⟨c, rest, hrest, rfl⟩
  · rintro ⟨c, rest, hrest, rfl⟩
    exact ⟨[c], rest, rfl, hrest, rfl⟩

theorem divide_exactly {c : Char} : Divide (exactly c :: items) text ↔
    ∃ rest, Divide items rest ∧ text = c :: rest := by
  simp [divide_cons, Takes, eq_comm]

/-- Two `%` in a row take what one takes. -/
theorem divide_anySequence_twice :
    Divide (anySequence :: anySequence :: items) text ↔ Divide (anySequence :: items) text := by
  rw [divide_anySequence]
  constructor
  · rintro ⟨piece, text', htext', rfl⟩
    obtain ⟨piece', rest, hrest, rfl⟩ := divide_anySequence.mp htext'
    exact divide_anySequence.mpr ⟨piece ++ piece', rest, hrest, List.append_assoc ..⟩
  · intro h
    exact ⟨[], text, h, rfl⟩

theorem divide_collapse : Divide (collapse items) text ↔ Divide items text := by
  fun_induction collapse items generalizing text with
  | case1 rest ih => rw [ih, divide_anySequence_twice]
  | case2 item rest _ ih => simp only [divide_cons, ih]
  | case3 => exact .rfl

end LikeItem

open LikeItem

theorem anySuffix_iff {test : List Char → Bool} {text : List Char} :
    anySuffix test text = true ↔ ∃ piece rest, test rest = true ∧ piece ++ rest = text := by
  induction text with
  | nil => simp [anySuffix]
  | cons c text ih =>
    rw [anySuffix, Bool.or_eq_true, ih]
    constructor
    · rintro (h | ⟨piece, rest, h, rfl⟩)
      · exact ⟨[], c :: text, h, rfl⟩
      · exact ⟨c :: piece, rest, h, rfl⟩
    · rintro ⟨piece, rest, h, heq⟩
      cases piece with
      | nil => exact .inl (heq ▸ h)
      | cons d piece => exact .inr ⟨piece, rest, h, (List.cons.inj heq).2⟩

/-- The matcher finds a division if there is one. -/
theorem matchItems_iff {items : List LikeItem} {text : List Char} :
    matchItems items text = true ↔ Divide items text := by
  induction items generalizing text with
  | nil => rw [divide_nil, matchItems, List.isEmpty_iff]
  | cons item items ih =>
    cases item with
    | anySequence => simp only [matchItems, anySuffix_iff, divide_anySequence, ih]
    | anyChar =>
      rw [divide_anyChar]
      cases text <;> simp [matchItems, ih]
    | exactly c =>
      rw [divide_exactly]
      cases text <;> simp [matchItems, ih, and_comm]

theorem likeMatch_iff {text pattern : String} :
    likeMatch text pattern = true ↔ Divide (likeItems pattern.toList) text.toList := by
  rw [likeMatch, matchItems_iff, divide_collapse]

/-! ### Reading a pattern -/

/-- The rules by which a pattern is read into items.  Only a backslash looks at what
    follows it. -/
inductive LikeItem.Reads : List Char → List LikeItem → Prop
  | nil : Reads [] []
  | percent {rest : List Char} {items : List LikeItem} (h : Reads rest items) :
      Reads ('%' :: rest) (.anySequence :: items)
  | underscore {rest : List Char} {items : List LikeItem} (h : Reads rest items) :
      Reads ('_' :: rest) (.anyChar :: items)
  | escaped (c : Char) {rest : List Char} {items : List LikeItem} (h : Reads rest items) :
      Reads ('\\' :: c :: rest) (.exactly c :: items)
  | finalBackslash : Reads ['\\'] [.exactly '\\']
  | ordinary {c : Char} (hc : c ≠ '%' ∧ c ≠ '_' ∧ c ≠ '\\') {rest : List Char}
      {items : List LikeItem} (h : Reads rest items) : Reads (c :: rest) (.exactly c :: items)

/-- The rules leave no choice, and there is one for every pattern. -/
theorem reads_iff {pattern : List Char} {items : List LikeItem} :
    Reads pattern items ↔ likeItems pattern = items := by
  constructor
  · intro h
    induction h with
    | nil => rfl
    | percent _ ih => rw [likeItems, ih]
    | underscore _ ih => rw [likeItems, ih]
    | escaped c _ ih => rw [likeItems, ih]
    | finalBackslash => rfl
    | ordinary hc _ ih =>
      rw [likeItems, ih]
      · exact hc.1
      · exact hc.2.1
      · exact fun _ _ heq => absurd heq hc.2.2
  · rintro rfl
    fun_induction likeItems pattern with
    | case1 => exact .nil
    | case2 rest ih => exact .percent ih
    | case3 rest ih => exact .underscore ih
    | case4 c rest ih => exact .escaped c ih
    | case5 c rest hany hone hesc ih =>
      by_cases hc : c = '\\'
      · -- no character follows the backslash
        cases rest with
        | nil => exact hc ▸ .finalBackslash
        | cons d rest => exact absurd rfl (hesc d rest hc)
      · exact .ordinary ⟨hany, hone, hc⟩ ih

/-- A pattern is read in one way, and a text matches it exactly if it can be cut into
    consecutive pieces, one for each item of the pattern. -/
theorem likeMatch_exact (text pattern : String) :
    (∃! items, Reads pattern.toList items) ∧
      (likeMatch text pattern = true ↔
        ∃ items, Reads pattern.toList items ∧
          ∃ pieces, List.Forall₂ Takes items pieces ∧ pieces.flatten = text.toList) := by
  simp only [reads_iff]
  constructor
  · exact ⟨_, rfl, fun _ h => h.symm⟩
  · rw [likeMatch_iff]
    constructor
    · intro h
      exact ⟨_, rfl, h⟩
    · rintro ⟨_, rfl, h⟩
      exact h

/-- A backslash at the end of a pattern makes nothing else an ordinary character. -/
example : likeMatch "a%\\" "a\\%\\" = true := by decide

end Polystore
