import Mathlib.Data.List.Forall2
import Polystore.Proofs.Outcomes
import Polystore.Text.Lines

/-
  Polystore/Proofs/Legibility.lean
  ================================
  **Taking texts apart.**  A label is a line of texts, one after the other, and nothing
  is escaped.  What such a line says is clear as long as each text shows where it ends.
  Here two texts are compared together with what follows them: if the two lines are the
  same, and what follows begins in a way in which the texts cannot go on, then the texts
  say the same and the same follows (`Tells`).  Lists and optional parts pass this on.
-/

namespace Polystore.Text

/-! ### The end of a word -/

section

variable {x y u v : List Char} {c d : Char}

/-- The first marked characters of two equal lines are in the same place. -/
theorem eq_of_append_marks {Mark : Char → Prop} (hx : ∀ a ∈ x, ¬Mark a) (hy : ∀ a ∈ y, ¬Mark a)
    (hc : Mark c) (hd : Mark d) (h : x ++ c :: u = y ++ d :: v) : x = y ∧ c :: u = d :: v := by
  induction x generalizing y with
  | nil =>
    cases y with
    | nil => exact ⟨rfl, h⟩
    | cons b y =>
      obtain ⟨rfl, -⟩ := List.cons.inj h
      exact absurd hc (hy c List.mem_cons_self)
  | cons a x ih =>
    cases y with
    | nil =>
      obtain ⟨rfl, -⟩ := List.cons.inj h
      exact absurd hd (hx a List.mem_cons_self)
    | cons b y =>
      obtain ⟨rfl, htail⟩ := List.cons.inj h
      obtain ⟨rfl, hrest⟩ := ih (fun e he => hx e (List.mem_cons_of_mem a he))
        (fun e he => hy e (List.mem_cons_of_mem a he)) htail
      exact ⟨rfl, hrest⟩

theorem eq_of_append_cons (hx : c ∉ x) (hy : c ∉ y) (h : x ++ c :: u = y ++ c :: v) :
    x = y ∧ u = v := by
  have hmark {l : List Char} (hl : c ∉ l) : ∀ a ∈ l, ¬a = c := by
    rintro a ha rfl
    exact hl ha
  obtain ⟨hword, hrest⟩ := eq_of_append_marks (hmark hx) (hmark hy) rfl rfl h
  exact ⟨hword, (List.cons.inj hrest).2⟩

theorem eq_of_append_cons_right (hu : c ∉ u) (hv : c ∉ v) (h : x ++ c :: u = y ++ c :: v) :
    x = y ∧ u = v := by
  have hreverse : u.reverse ++ c :: x.reverse = v.reverse ++ c :: y.reverse := by
    simpa using congrArg List.reverse h
  have hsame := eq_of_append_cons (by simpa using hu) (by simpa using hv) hreverse
  exact ⟨List.reverse_injective hsame.2, List.reverse_injective hsame.1⟩

end

/-! ### What follows -/

/-- The characters that end a word. -/
def delimiters : List Char := [' ', ',', '(', ')', '[', ']', '\x7d']

def IsWord (x : List Char) : Prop := ∀ c ∈ x, c ∉ delimiters

/-- A line goes on with one of the stops. -/
def GoesOn (stops : List (List Char)) (rest : List Char) : Prop := ∃ s ∈ stops, s <+: rest

/-- Each stop begins with a mark. -/
def Marked (marks : List Char) (stops : List (List Char)) : Prop :=
  ∀ s ∈ stops, s.head?.any marks.contains = true

instance (marks : List Char) (stops : List (List Char)) : Decidable (Marked marks stops) :=
  inferInstanceAs (Decidable (∀ s ∈ stops, s.head?.any marks.contains = true))

/-- The stops begin with characters that end a word. -/
abbrev Delimiting (stops : List (List Char)) : Prop := Marked delimiters stops

variable {stops more : List (List Char)} {x y u v rest : List Char} {P Q : Prop}

theorem GoesOn.of_mem {s : List Char} (hs : s ∈ stops) (rest : List Char) :
    GoesOn stops (s ++ rest) := ⟨s, hs, List.prefix_append s rest⟩

theorem GoesOn.mono (h : GoesOn stops rest) (hsub : stops ⊆ more) : GoesOn more rest := by
  obtain ⟨s, hs, hrest⟩ := h
  exact ⟨s, hsub hs, hrest⟩

theorem GoesOn.exists_mark {marks : List Char} (hstops : Marked marks stops)
    (h : GoesOn stops rest) : ∃ c ∈ marks, ∃ tail, rest = c :: tail := by
  obtain ⟨s, hs, tail, rfl⟩ := h
  obtain ⟨c, hc, hmem⟩ := (Option.any_eq_true _ _).mp (hstops s hs)
  obtain ⟨s', rfl⟩ := List.head?_eq_some_iff.mp hc
  exact ⟨c, List.contains_iff_mem.mp hmem, s' ++ tail, rfl⟩

/-- A text that begins otherwise than the stops. -/
def Apart (stops : List (List Char)) (x : List Char) : Prop := ∀ rest, ¬GoesOn stops (x ++ rest)

theorem apart_of_not_prefix (h : ∀ s ∈ stops, ¬s <+: x ∧ ¬x <+: s) : Apart stops x := by
  rintro rest ⟨s, hs, hrest⟩
  rcases List.prefix_or_prefix_of_prefix hrest (List.prefix_append x rest) with hx | hx
  · exact (h s hs).1 hx
  · exact (h s hs).2 hx

theorem apart_of_notMem (hstops : Delimiting stops) {c : Char} (hc : c ∉ delimiters)
    (x : List Char) : Apart stops (c :: x) := by
  intro rest hgoes
  obtain ⟨d, hd, tail, hrest⟩ := hgoes.exists_mark hstops
  obtain ⟨rfl, -⟩ := List.cons.inj hrest
  exact hc hd

theorem Apart.append (h : Apart stops x) (y : List Char) : Apart stops (x ++ y) := by
  intro rest
  rw [List.append_assoc]
  exact h (y ++ rest)

/-! ### Telling -/

/-- Two texts tell that something holds: it does if they and what follows them are the
    same, each time a stop following, and then the same follows. -/
def Tells (stops : List (List Char)) (x y : List Char) (P : Prop) : Prop :=
  ∀ rest rest', GoesOn stops rest → GoesOn stops rest' → x ++ rest = y ++ rest' → P ∧ rest = rest'

namespace Tells

theorem imp (h : Tells stops x y P) (hPQ : P → Q) : Tells stops x y Q := by
  intro rest rest' hrest hrest' heq
  exact (h rest rest' hrest hrest' heq).imp_left hPQ

/-- A text without marks ends where a mark begins to stand. -/
theorem unmarked {marks : List Char} (hstops : Marked marks stops) (hx : ∀ c ∈ x, c ∉ marks)
    (hy : ∀ c ∈ y, c ∉ marks) (h : x = y → P) : Tells stops x y P := by
  intro rest rest' hrest hrest' heq
  obtain ⟨c, hc, tail, rfl⟩ := hrest.exists_mark hstops
  obtain ⟨d, hd, tail', rfl⟩ := hrest'.exists_mark hstops
  obtain ⟨hword, hsame⟩ := eq_of_append_marks hx hy hc hd heq
  exact ⟨h hword, hsame⟩

theorem word (hstops : Delimiting stops) (hx : IsWord x) (hy : IsWord y) (h : x = y → P) :
    Tells stops x y P := unmarked hstops hx hy h

theorem same (p : List Char) (h : Tells stops x y P) : Tells stops (p ++ x) (p ++ y) P := by
  intro rest rest' hrest hrest' heq
  rw [List.append_assoc, List.append_assoc] at heq
  exact h rest rest' hrest hrest' (List.append_cancel_left heq)

theorem append (hxy : Tells more x y P) (huv : Tells stops u v Q)
    (hu : ∀ rest, GoesOn stops rest → GoesOn more (u ++ rest))
    (hv : ∀ rest, GoesOn stops rest → GoesOn more (v ++ rest)) :
    Tells stops (x ++ u) (y ++ v) (P ∧ Q) := by
  intro rest rest' hrest hrest' heq
  rw [List.append_assoc, List.append_assoc] at heq
  obtain ⟨hP, hmid⟩ := hxy _ _ (hu rest hrest) (hv rest' hrest') heq
  obtain ⟨hQ, hend⟩ := huv rest rest' hrest hrest' hmid
  exact ⟨⟨hP, hQ⟩, hend⟩

/-- A text that ends with a stop of its own may be followed by anything. -/
theorem closed {close : List Char} (h : Tells [close] x y P) :
    Tells stops (x ++ close) (y ++ close) P := by
  intro rest rest' _ _ heq
  rw [List.append_assoc, List.append_assoc] at heq
  have hgoes (rest : List Char) : GoesOn [close] (close ++ rest) :=
    .of_mem (List.mem_singleton_self close) rest
  obtain ⟨hP, hsame⟩ := h _ _ (hgoes rest) (hgoes rest') heq
  exact ⟨hP, List.append_cancel_left hsame⟩

theorem closed_append {close : List Char} (h : Tells [close] x y P) (huv : Tells stops u v Q) :
    Tells stops (x ++ close ++ u) (y ++ close ++ v) (P ∧ Q) := by
  have hany (x : List Char) : GoesOn [[]] x := .of_mem (List.mem_singleton_self []) x
  exact h.closed.append huv (fun _ _ => hany _) fun _ _ => hany _

/-- A part that may be left out is there if the line does not go on with a stop. -/
theorem optional {α : Type} {f : α → List Char} {R : α → α → Prop} {o o' : Option α}
    (h : ∀ a ∈ o, ∀ b ∈ o', Tells stops (f a) (f b) (R a b)) (hapart : ∀ a, Apart stops (f a)) :
    Tells stops (o.elim [] f) (o'.elim [] f) (Option.Rel R o o') := by
  intro rest rest' hrest hrest' heq
  cases o with
  | none =>
    cases o' with
    | none => exact ⟨.none, heq⟩
    | some b => exact absurd (heq ▸ hrest) (hapart b rest')
  | some a =>
    cases o' with
    | none => exact absurd (heq.symm ▸ hrest') (hapart a rest)
    | some b => exact (h a rfl b rfl rest rest' hrest hrest' heq).imp_left .some

/-- A part of fixed text that stands there under a condition. -/
theorem flag {p : List Char} (hapart : Apart stops p) (A B : Prop) [Decidable A] [Decidable B] :
    Tells stops (if A then p else []) (if B then p else []) (A ↔ B) := by
  intro rest rest' hrest hrest' heq
  by_cases hA : A <;> by_cases hB : B
  · simp only [hA, hB, if_true] at heq
    exact ⟨iff_of_true hA hB, List.append_cancel_left heq⟩
  · simp only [hA, hB, if_true, if_false] at heq
    have hends : p ++ rest = rest' := heq
    rw [← hends] at hrest'
    exact absurd hrest' (hapart rest)
  · simp only [hA, hB, if_true, if_false] at heq
    have hends : rest = p ++ rest' := heq
    rw [hends] at hrest
    exact absurd hrest (hapart rest')
  · simp only [hA, hB, if_false] at heq
    exact ⟨iff_of_false hA hB, heq⟩

/-- What stands before such a part. -/
theorem beforeFlag {p : List Char} {A B : Prop} [Decidable A] [Decidable B]
    (h : Tells (p :: stops) x y P) (hapart : Apart stops p) :
    Tells stops (x ++ if A then p else []) (y ++ if B then p else []) (P ∧ (A ↔ B)) := by
  have hgoes (C : Prop) [Decidable C] (rest : List Char) (hrest : GoesOn stops rest) :
      GoesOn (p :: stops) ((if C then p else []) ++ rest) := by
    split
    · exact .of_mem List.mem_cons_self rest
    · exact hrest.mono (List.subset_cons_self p stops)
  exact h.append (flag hapart A B) (hgoes A) (hgoes B)

/-- What stands before a part that may be left out and begins in a fixed way. -/
theorem beforeOptional {α : Type} {p : List Char} {f : α → List Char} {R : α → α → Prop}
    {o o' : Option α} (h : Tells (p :: stops) x y P) (hapart : Apart stops p)
    (hpart : ∀ a ∈ o, ∀ b ∈ o', Tells stops (f a) (f b) (R a b)) :
    Tells stops (x ++ o.elim [] fun a => p ++ f a) (y ++ o'.elim [] fun a => p ++ f a)
      (P ∧ Option.Rel R o o') := by
  have hgoes (o : Option α) (rest : List Char) (hrest : GoesOn stops rest) :
      GoesOn (p :: stops) ((o.elim [] fun a => p ++ f a) ++ rest) := by
    cases o with
    | none => exact hrest.mono (List.subset_cons_self p stops)
    | some a =>
      rw [Option.elim_some, List.append_assoc]
      exact .of_mem List.mem_cons_self _
  refine h.append (optional (fun a ha b hb => ?_) fun a => hapart.append _) (hgoes o) (hgoes o')
  exact .same p (hpart a ha b hb)

end Tells

/-! ### Lists -/

/-- What follows the first item of a list. -/
def furtherItems : List String → List Char
  | [] => []
  | x :: xs => ',' :: ' ' :: (commaList (x :: xs)).toList

theorem commaList_cons (x : String) (xs : List String) :
    (commaList (x :: xs)).toList = x.toList ++ furtherItems xs := by
  cases xs with
  | nil => simp [commaList, furtherItems]
  | cons y ys => simp [commaList, furtherItems, String.intercalate_cons_cons]

theorem GoesOn.commaList {p : List Char} {items : List String} (h : GoesOn stops rest)
    (hitems : ∀ x ∈ items, p <+: x.toList) :
    GoesOn (p :: stops) ((commaList items).toList ++ rest) := by
  cases items with
  | nil => exact h.mono (List.subset_cons_self p stops)
  | cons x xs =>
    rw [commaList_cons, List.append_assoc]
    exact ⟨p, List.mem_cons_self, (hitems x List.mem_cons_self).trans (List.prefix_append _ _)⟩

theorem mem_commaList {items : List String} {c : Char} (h : c ∈ (commaList items).toList) :
    c ∈ [',', ' '] ∨ ∃ x ∈ items, c ∈ x.toList := by
  induction items with
  | nil => cases h
  | cons x xs ih =>
    rw [commaList_cons] at h
    rcases List.mem_append.mp h with hx | hxs
    · exact .inr ⟨x, List.mem_cons_self, hx⟩
    · cases xs with
      | nil => cases hxs
      | cons y ys =>
        simp only [furtherItems, List.mem_cons] at hxs
        rcases hxs with rfl | rfl | hxs
        · exact .inl (by decide)
        · exact .inl (by decide)
        · refine (ih hxs).imp_right ?_
          rintro ⟨z, hz, hc⟩
          exact ⟨z, List.mem_cons_of_mem x hz, hc⟩

/-- The items of a list tell what they tell one by one, if none of them, and no comma, can
    be taken for the end of the list. -/
theorem Tells.commaList {α : Type} {f : α → String} {R : α → α → Prop} {xs ys : List α}
    (hitem : ∀ a ∈ xs, ∀ b ∈ ys, Tells ([',', ' '] :: stops) (f a).toList (f b).toList (R a b))
    (hx : ∀ a ∈ xs, Apart stops (f a).toList) (hy : ∀ b ∈ ys, Apart stops (f b).toList)
    (hcomma : Apart stops [',', ' ']) :
    Tells stops (commaList (xs.map f)).toList (commaList (ys.map f)).toList
      (List.Forall₂ R xs ys) := by
  intro rest rest' hrest hrest' heq
  induction xs generalizing ys with
  | nil =>
    cases ys with
    | nil => exact ⟨.nil, heq⟩
    | cons b ys =>
      rw [List.map_cons, commaList_cons, List.append_assoc] at heq
      have hends : rest = (f b).toList ++ (furtherItems (ys.map f) ++ rest') := heq
      rw [hends] at hrest
      exact absurd hrest (hy b List.mem_cons_self _)
  | cons a xs ih =>
    cases ys with
    | nil =>
      rw [List.map_cons, commaList_cons, List.append_assoc] at heq
      have hends : (f a).toList ++ (furtherItems (xs.map f) ++ rest) = rest' := heq
      rw [← hends] at hrest'
      exact absurd hrest' (hx a List.mem_cons_self _)
    | cons b ys =>
      have hgoes (l : List String) {rest : List Char} (h : GoesOn stops rest) :
          GoesOn ([',', ' '] :: stops) (furtherItems l ++ rest) := by
        cases l with
        | nil => exact h.mono (List.subset_cons_self _ _)
        | cons c l => exact .of_mem List.mem_cons_self _
      simp only [List.map_cons, commaList_cons, List.append_assoc] at heq
      obtain ⟨hR, hfurther⟩ := hitem a List.mem_cons_self b List.mem_cons_self _ _
        (hgoes _ hrest) (hgoes _ hrest') heq
      cases xs with
      | nil =>
        cases ys with
        | nil => exact ⟨.cons hR .nil, hfurther⟩
        | cons d ys =>
          have hends : rest = [',', ' '] ++ _ := hfurther
          rw [hends] at hrest
          exact absurd hrest (hcomma _)
      | cons c xs =>
        cases ys with
        | nil =>
          have hends : [',', ' '] ++ _ = rest' := hfurther
          rw [← hends] at hrest'
          exact absurd hrest' (hcomma _)
        | cons d ys =>
          obtain ⟨hall, hsame⟩ := ih (fun e he e' he' => hitem e (List.mem_cons_of_mem a he) e'
              (List.mem_cons_of_mem b he')) (fun e he => hx e (List.mem_cons_of_mem a he))
            (fun e he => hy e (List.mem_cons_of_mem b he))
            (List.cons.inj (List.cons.inj hfurther).2).2
          exact ⟨.cons hR hall, hsame⟩

theorem Tells.commaList_eq {α : Type} {f : α → String} {xs ys : List α}
    (hitem : ∀ a ∈ xs, ∀ b ∈ ys, Tells ([',', ' '] :: stops) (f a).toList (f b).toList (a = b))
    (hx : ∀ a ∈ xs, Apart stops (f a).toList) (hy : ∀ b ∈ ys, Apart stops (f b).toList)
    (hcomma : Apart stops [',', ' ']) :
    Tells stops (Text.commaList (xs.map f)).toList (Text.commaList (ys.map f)).toList (xs = ys) := by
  refine (Tells.commaList hitem hx hy hcomma).imp fun h => ?_
  rwa [List.forall₂_eq_eq_eq] at h

/-- Items with the same texts make the same list. -/
theorem map_eq_of_forall₂ {α : Type} {f : α → String} {R : α → α → Prop} {xs ys : List α}
    (h : List.Forall₂ R xs ys) (hf : ∀ a ∈ xs, ∀ b, R a b → f a = f b) : xs.map f = ys.map f := by
  induction h with
  | nil => rfl
  | cons hab _ ih =>
    obtain ⟨ha, hrest⟩ := List.forall_mem_cons.mp hf
    rw [List.map_cons, List.map_cons, ha _ hab, ih hrest]

end Polystore.Text
