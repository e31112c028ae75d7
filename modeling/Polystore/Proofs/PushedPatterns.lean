import Polystore.Proofs.LikePatterns
import Polystore.Pushdown.Literal

/-
  Polystore/Proofs/PushedPatterns.lean
  ====================================
  **Patterns in the languages of stores.**  A LIKE pattern is pushed as a regular
  expression or as a wildcard, character by character, so that a backslash becomes an
  ordinary character (`plainItem`).  In a pattern a backslash makes the next character
  stand for itself.  So the pushed forms match what the pattern matches exactly when no
  backslash of the pattern stands before a character (`pushed_pattern_iff`).
-/

namespace Polystore

open LikeItem

/-! ### How stores read patterns -/

/-- What a regular expression says after the `^` with which it begins, if it is made of
    characters and of `.` and `.*` and ends with `$`.  A backslash makes the next
    character an ordinary one. -/
def regexBody? : List Char → Option (List LikeItem)
  | [] => none
  | ['$'] => some []
  | '.' :: '*' :: rest => (regexBody? rest).map (.anySequence :: ·)
  | '.' :: rest => (regexBody? rest).map (.anyChar :: ·)
  | '\\' :: c :: rest => (regexBody? rest).map (.exactly c :: ·)
  | c :: rest => if isRegexSpecial c then none else (regexBody? rest).map (.exactly c :: ·)

def regexItems? : List Char → Option (List LikeItem)
  | '^' :: body => regexBody? body
  | _ => none

/-- The text matches the regular expression from its beginning to its end. -/
def MatchesRegex (regex text : String) : Prop :=
  ∃ items, regexItems? regex.toList = some items ∧ Divide items text.toList

/-- What a wildcard says: `*` is any sequence, `?` any character, and a backslash makes
    the next character an ordinary one. -/
def wildcardItems : List Char → List LikeItem
  | [] => []
  | '*' :: rest => .anySequence :: wildcardItems rest
  | '?' :: rest => .anyChar :: wildcardItems rest
  | '\\' :: c :: rest => .exactly c :: wildcardItems rest
  | c :: rest => .exactly c :: wildcardItems rest

def MatchesWildcard (wildcard text : String) : Prop :=
  Divide (wildcardItems wildcard.toList) text.toList

/-! ### What is pushed -/

/-- A character of a pattern read without looking at its neighbours. -/
def plainItem (c : Char) : LikeItem :=
  if c = '%' then .anySequence else if c = '_' then .anyChar else .exactly c

@[simp] theorem plainItem_backslash : plainItem '\\' = .exactly '\\' := rfl

theorem plainItem_of_ne {c : Char} (hany : c ≠ '%') (hone : c ≠ '_') :
    plainItem c = .exactly c := by
  rw [plainItem, if_neg hany, if_neg hone]

theorem regexBody?_any {rest : List Char} (h : rest.head? ≠ some '*') :
    regexBody? ('.' :: rest) = (regexBody? rest).map (.anyChar :: ·) := by
  cases rest with
  | nil => rfl
  | cons c rest =>
    have hc : c ≠ '*' := by simpa using h
    rw [regexBody?]
    simpa using hc

theorem regexBody?_regexChar {c : Char} {rest : List Char} (h : rest.head? ≠ some '*') :
    regexBody? (regexChar c ++ rest) = (regexBody? rest).map (plainItem c :: ·) := by
  unfold regexChar plainItem
  by_cases hany : c = '%'
  · simp only [hany, if_true]
    rfl
  · by_cases hone : c = '_'
    · simp only [hone, if_true]
      exact regexBody?_any h
    · simp only [hany, hone, if_false]
      by_cases hspecial : isRegexSpecial c = true
      · simp only [hspecial, if_true]
        rfl
      · have hne (d : Char) (hd : isRegexSpecial d = true) : c ≠ d := by
          rintro rfl
          exact hspecial hd
        simp only [hspecial, Bool.false_eq_true, if_false, List.singleton_append]
        rw [regexBody?]
        · simp only [hspecial, Bool.false_eq_true, if_false]
        · exact fun heq _ => hne '$' rfl heq
        · exact fun _ heq _ => hne '.' rfl heq
        · exact fun heq => hne '.' rfl heq
        · exact fun _ _ heq _ => hne '\\' rfl heq

theorem exists_regexChar (c : Char) : ∃ d rest, regexChar c = d :: rest ∧ d ≠ '*' := by
  unfold regexChar
  by_cases hany : c = '%'
  · exact ⟨'.', ['*'], if_pos hany, by decide⟩
  · by_cases hone : c = '_'
    · exact ⟨'.', [], by simp [hone], by decide⟩
    · by_cases hspecial : isRegexSpecial c = true
      · exact ⟨'\\', [c], by simp [hany, hone, hspecial], by decide⟩
      · refine ⟨c, [], by simp [hany, hone, hspecial], ?_⟩
        rintro rfl
        exact hspecial rfl

/-- The regular expression of a pattern says what the pattern says without escapes. -/
theorem regexItems?_likeRegex (pattern : String) :
    regexItems? (likeRegex pattern).toList = some (pattern.toList.map plainItem) := by
  rw [likeRegex, String.toList_ofList]
  change regexBody? (pattern.toList.flatMap regexChar ++ ['$']) = _
  induction pattern.toList with
  | nil => rfl
  | cons c rest ih =>
    rw [List.flatMap_cons, List.append_assoc, regexBody?_regexChar, ih]
    · rfl
    · -- no character is written with a star in front
      cases rest with
      | nil => simp
      | cons d rest =>
        obtain ⟨x, xs, hd, hx⟩ := exists_regexChar d
        simpa [hd] using hx

theorem wildcardItems_wildcardChar (c : Char) (rest : List Char) :
    wildcardItems (wildcardChar c ++ rest) = plainItem c :: wildcardItems rest := by
  unfold wildcardChar plainItem
  by_cases hany : c = '%'
  · simp only [hany, if_true]
    rfl
  · by_cases hone : c = '_'
    · simp only [hone, if_true]
      rfl
    · simp only [hany, hone, if_false]
      by_cases hspecial : c = '*' ∨ c = '?' ∨ c = '\\'
      · simp only [hspecial, if_true]
        rfl
      · simp only [hspecial, if_false, List.singleton_append]
        simp only [not_or] at hspecial
        rw [wildcardItems]
        · exact hspecial.1
        · exact hspecial.2.1
        · exact fun _ _ heq _ => hspecial.2.2 heq

theorem wildcardItems_likeWildcard (pattern : String) :
    wildcardItems (likeWildcard pattern).toList = pattern.toList.map plainItem := by
  rw [likeWildcard, String.toList_ofList]
  induction pattern.toList with
  | nil => rfl
  | cons c rest ih =>
    rw [List.flatMap_cons, wildcardItems_wildcardChar, ih, List.map_cons]

theorem matchesRegex_likeRegex {pattern text : String} : MatchesRegex (likeRegex pattern) text ↔
    Divide (pattern.toList.map plainItem) text.toList := by
  simp [MatchesRegex, regexItems?_likeRegex]

theorem matchesWildcard_likeWildcard {pattern text : String} :
    MatchesWildcard (likeWildcard pattern) text ↔
      Divide (pattern.toList.map plainItem) text.toList := by
  rw [MatchesWildcard, wildcardItems_likeWildcard]

/-! ### Escapes -/

theorem notMem_dropLast_cons {c d : Char} {rest : List Char} :
    d ∉ (c :: rest).dropLast ↔ (c = d → rest = []) ∧ d ∉ rest.dropLast := by
  cases rest with
  | nil => simp
  | cons e rest => simp [List.dropLast_cons_cons, eq_comm]

/-- Without a backslash before a character a pattern is read character by character. -/
theorem likeItems_eq_map {pattern : List Char} (h : '\\' ∉ pattern.dropLast) :
    likeItems pattern = pattern.map plainItem := by
  fun_induction likeItems pattern with
  | case1 => rfl
  | case2 rest ih => rw [ih (notMem_dropLast_cons.mp h).2]; rfl
  | case3 rest ih => rw [ih (notMem_dropLast_cons.mp h).2]; rfl
  | case4 c rest ih => simp at h
  | case5 c rest hany hone _ ih =>
    rw [ih (notMem_dropLast_cons.mp h).2, List.map_cons, plainItem_of_ne hany hone]

/-- A shortest text for which an item stands. -/
def LikeItem.shortest : LikeItem → List Char
  | .anySequence => []
  | .anyChar => ['_']
  | .exactly c => [c]

@[simp] theorem LikeItem.shortest_anySequence : shortest .anySequence = [] := rfl

@[simp] theorem LikeItem.shortest_exactly (c : Char) : shortest (.exactly c) = [c] := rfl

theorem LikeItem.takes_shortest (item : LikeItem) : item.Takes (shortest item) := by
  cases item with
  | anySequence => trivial
  | anyChar => rfl
  | exactly c => rfl

theorem LikeItem.divide_shortest (items : List LikeItem) :
    Divide items (items.flatMap shortest) := by
  induction items with
  | nil => exact divide_nil.mpr rfl
  | cons item items ih =>
    exact divide_cons.mpr ⟨shortest item, _, takes_shortest item, ih, rfl⟩

theorem LikeItem.length_shortest_le {items : List LikeItem} {text : List Char}
    (h : Divide items text) : (items.flatMap shortest).length ≤ text.length := by
  induction items generalizing text with
  | nil => simp
  | cons item items ih =>
    obtain ⟨piece, rest, hpiece, hrest, rfl⟩ := divide_cons.mp h
    have hitem : (shortest item).length ≤ piece.length := by
      cases item with
      | anySequence => simp [shortest]
      | anyChar => exact Nat.le_of_eq hpiece.symm
      | exactly c => rw [hpiece]; simp [shortest]
    have := ih hrest
    simp only [List.flatMap_cons, List.length_append]
    omega

theorem length_shortest_likeItems_le (pattern : List Char) :
    ((likeItems pattern).flatMap shortest).length
      ≤ ((pattern.map plainItem).flatMap shortest).length := by
  fun_induction likeItems pattern with
  | case1 => exact Nat.le_refl _
  | case2 rest ih => exact ih
  | case3 rest ih => exact Nat.succ_le_succ ih
  | case4 c rest ih =>
    simp only [List.map_cons, List.flatMap_cons, List.length_append, plainItem_backslash,
      shortest_exactly, List.length_singleton]
    omega
  | case5 c rest hany hone _ ih =>
    rw [List.map_cons, plainItem_of_ne hany hone]
    exact Nat.succ_le_succ ih

/-- A shortest text of a pattern with an escape is not one of the pattern read without
    escapes: there the character after the backslash needs a piece of its own. -/
theorem notMem_dropLast_of_divide {pattern : List Char}
    (h : Divide (pattern.map plainItem) ((likeItems pattern).flatMap shortest)) :
    '\\' ∉ pattern.dropLast := by
  fun_induction likeItems pattern with
  | case1 => simp
  | case2 rest ih =>
    obtain ⟨piece, text, htext, heq⟩ := divide_anySequence.mp h
    -- nothing is left for the piece of the `%`
    have hle := Nat.le_trans (length_shortest_likeItems_le rest) (length_shortest_le htext)
    have hlen := congrArg List.length heq
    simp only [List.flatMap_cons, shortest_anySequence, List.nil_append, List.length_append]
      at hlen
    have hpiece : piece = [] := List.length_eq_zero_iff.mp (by omega)
    subst hpiece
    refine notMem_dropLast_cons.mpr ⟨by simp, ih ?_⟩
    simpa [shortest_anySequence] using heq ▸ htext
  | case3 rest ih =>
    obtain ⟨d, text, htext, heq⟩ := divide_anyChar.mp h
    obtain ⟨rfl, rfl⟩ := List.cons.inj heq
    exact notMem_dropLast_cons.mpr ⟨by simp, ih htext⟩
  | case4 c rest ih =>
    simp only [List.map_cons, List.flatMap_cons, plainItem_backslash, shortest_exactly,
      List.singleton_append] at h
    obtain ⟨text, htext, heq⟩ := divide_exactly.mp h
    obtain ⟨rfl, rfl⟩ := List.cons.inj heq
    obtain ⟨text, htext, heq⟩ := divide_exactly.mp htext
    have hle := Nat.le_trans (length_shortest_likeItems_le rest) (length_shortest_le htext)
    have hlen := congrArg List.length heq
    rw [List.length_cons] at hlen
    omega
  | case5 c rest hany hone hesc ih =>
    rw [List.map_cons, plainItem_of_ne hany hone] at h
    obtain ⟨text, htext, heq⟩ := divide_exactly.mp h
    obtain ⟨-, rfl⟩ := List.cons.inj heq
    refine notMem_dropLast_cons.mpr ⟨fun hc => ?_, ih htext⟩
    cases rest with
    | nil => rfl
    | cons d rest => exact absurd rfl (hesc d rest hc)

/-- The pattern read without escapes matches what the pattern matches if no backslash of
    it stands before a character, and only then. -/
theorem divide_map_plainItem_iff (pattern : String) :
    (∀ text : String, Divide (pattern.toList.map plainItem) text.toList ↔
      likeMatch text pattern = true) ↔ '\\' ∉ pattern.toList.dropLast := by
  simp only [likeMatch_iff]
  constructor
  · intro h
    refine notMem_dropLast_of_divide ?_
    have hshort := h (.ofList ((likeItems pattern.toList).flatMap shortest))
    rw [String.toList_ofList] at hshort
    exact hshort.mpr (divide_shortest _)
  · intro h text
    rw [likeItems_eq_map h]

/-- A pushed pattern matches what the pattern matches if no backslash of it stands before
    a character, and only then. -/
theorem pushed_pattern_iff (pattern : String) :
    ((∀ text, MatchesRegex (likeRegex pattern) text ↔ likeMatch text pattern = true) ↔
      '\\' ∉ pattern.toList.dropLast) ∧
    ((∀ text, MatchesWildcard (likeWildcard pattern) text ↔ likeMatch text pattern = true) ↔
      '\\' ∉ pattern.toList.dropLast) := by
  simp only [matchesRegex_likeRegex, matchesWildcard_likeWildcard]
  exact ⟨divide_map_plainItem_iff pattern, divide_map_plainItem_iff pattern⟩

/-- The pattern `50\%` matches `50%`, and its pushed forms match `50\x` instead. -/
theorem pushed_pattern_escapedPercent :
    (likeMatch "50%" "50\\%" = true ∧
      ¬ MatchesRegex (likeRegex "50\\%") "50%" ∧ ¬ MatchesWildcard (likeWildcard "50\\%") "50%") ∧
    (likeMatch "50\\x" "50\\%" = false ∧
      MatchesRegex (likeRegex "50\\%") "50\\x" ∧
      MatchesWildcard (likeWildcard "50\\%") "50\\x") := by
  simp only [matchesRegex_likeRegex, matchesWildcard_likeWildcard, ← matchItems_iff]
  decide

end Polystore
