import Polystore.Proofs.JsonComparison
import Polystore.Proofs.Legibility
import Polystore.Proofs.ReadingBack

/-
  Polystore/Proofs/ValueTexts.lean
  ================================
  **Values in labels.**  The literal form of a value shows where it ends and what the
  value is (`Value.text_tells`): a string doubles the quotes inside it, bytes and dates
  are enclosed, and all else is one word.  Doubles with the same digits cannot be told
  apart; from everything else a double differs by a point, an exponent or a letter.
-/

namespace Polystore

open Text (IsWord Delimiting Tells GoesOn delimiters)

variable {stops : List (List Char)}

/-! ### Numerals -/

namespace Number

theorem notMem_delimiters_of_isDigit {c : Char} (h : c.isDigit = true) : c ∉ delimiters := by
  intro hmem
  have hnone : ∀ d ∈ delimiters, d.isDigit = false := by simp [delimiters]
  rw [hnone c hmem] at h
  cases h

theorem digitsOf_injective {m n : Nat} (h : digitsOf m = digitsOf n) : m = n := by
  have hread : some m = some n := by rw [← readNat?_digitsOf m, h, readNat?_digitsOf n]
  exact Option.some.inj hread

theorem exists_digitsOf (n : Nat) : ∃ c rest, digitsOf n = c :: rest ∧ c.isDigit = true := by
  cases hdigits : digitsOf n with
  | nil => exact absurd hdigits Nat.toDigits_ne_nil
  | cons c rest =>
    have hmem : c ∈ digitsOf n := hdigits ▸ List.mem_cons_self
    exact ⟨c, rest, rfl, isDigit_of_mem_digitsOf hmem⟩

theorem natText_toList (n : Nat) : (natText n).toList = digitsOf n := String.toList_ofList

theorem isWord_natText (n : Nat) : IsWord (natText n).toList := by
  rw [natText_toList]
  exact fun c hc => notMem_delimiters_of_isDigit (isDigit_of_mem_digitsOf hc)

theorem natText_tells (hstops : Delimiting stops) (m n : Nat) :
    Tells stops (natText m).toList (natText n).toList (m = n) := by
  refine .word hstops (isWord_natText m) (isWord_natText n) fun h => ?_
  rw [natText_toList, natText_toList] at h
  exact digitsOf_injective h

theorem mem_intText {i : Int} {c : Char} (h : c ∈ (intText i).toList) :
    c.isDigit = true ∨ c = '-' := by
  rw [intText_toList] at h
  rcases List.mem_append.mp h with h | h
  · split at h
    · exact .inr (List.mem_singleton.mp h)
    · cases h
  · exact .inl (isDigit_of_mem_digitsOf h)

theorem isWord_intText (i : Int) : IsWord (intText i).toList := by
  intro c hc
  rcases mem_intText hc with hdigit | rfl
  · exact notMem_delimiters_of_isDigit hdigit
  · decide

theorem intText_injective {i j : Int} (h : intText i = intText j) : i = j := by
  have hread : some i = some j := by rw [← readInt?_intText i, h, readInt?_intText j]
  exact Option.some.inj hread

/-- The characters of doubles besides the digits. -/
def doubleMarks : List Char := ['-', '+', '.', 'e', 'N', 'a', 'i', 'n', 'f']

def IsDoubleText (x : List Char) : Prop := ∀ c ∈ x, c.isDigit = true ∨ c ∈ doubleMarks

theorem isDoubleText_digitsOf (n : Nat) : IsDoubleText (digitsOf n) :=
  fun _ hc => .inl (isDigit_of_mem_digitsOf hc)

theorem IsDoubleText.append {x y : List Char} (hx : IsDoubleText x) (hy : IsDoubleText y) :
    IsDoubleText (x ++ y) := List.forall_mem_append.mpr ⟨hx, hy⟩

theorem isDoubleText_zeros (n : Nat) : IsDoubleText (List.replicate n '0') := by
  intro c hc
  rw [List.eq_of_mem_replicate hc]
  exact .inl (by decide)

theorem isDoubleText_intText (i : Int) : IsDoubleText (intText i).toList := by
  intro c hc
  rcases mem_intText hc with hdigit | rfl
  · exact .inl hdigit
  · exact .inr (by decide)

/-- What is said of the text of a double that is not negative. -/
structure IsDecimal (x : List Char) : Prop where
  chars : IsDoubleText x
  marked : '.' ∈ x ∨ 'e' ∈ x
  leading : ∃ c rest, x = c :: rest ∧ c.isDigit = true

theorem isDecimal_positionalText (d : Decimal) : IsDecimal (positionalText true d) := by
  have hdigits := isDoubleText_digitsOf d.digits
  obtain ⟨c, rest, hlead, hc⟩ := exists_digitsOf d.digits
  unfold positionalText
  dsimp only
  split
  · refine ⟨(hdigits.append (isDoubleText_zeros _)).append ?_, .inl (by simp), ?_⟩
    · intro e he
      simp at he
      rcases he with rfl | rfl <;> simp [doubleMarks]
    · rw [hlead]
      exact ⟨c, _, rfl, hc⟩
  · -- padding leaves a digit in front of the point
    set places := (-d.exponent).toNat
    set padded := List.replicate (places + 1 - (digitsOf d.digits).length) '0' ++ digitsOf d.digits
    have hpadded : ∀ e ∈ padded, e.isDigit = true := by
      refine List.forall_mem_append.mpr ⟨fun e he => ?_, fun e he => isDigit_of_mem_digitsOf he⟩
      rw [List.eq_of_mem_replicate he]
      decide
    have hlength : places < padded.length := by
      simp only [padded, List.length_append, List.length_replicate]
      omega
    have hfront : padded.take (padded.length - places) ≠ [] := by
      simp only [ne_eq, List.take_eq_nil_iff, not_or]
      refine ⟨by omega, fun h => ?_⟩
      rw [h] at hlength
      cases hlength
    obtain ⟨e, front, he⟩ := List.exists_cons_of_ne_nil hfront
    have hmem : e ∈ padded.take (padded.length - places) := he ▸ List.mem_cons_self
    refine ⟨?_, .inl (by simp), e, _, by rw [he]; rfl, hpadded e (List.mem_of_mem_take hmem)⟩
    refine IsDoubleText.append (fun a ha => .inl (hpadded a (List.mem_of_mem_take ha))) ?_
    refine List.forall_mem_cons.mpr ⟨.inr (by decide), fun a ha => ?_⟩
    exact .inl (hpadded a (List.mem_of_mem_drop ha))

theorem isDecimal_exponentText (plus : Bool) (d : Decimal) : IsDecimal (exponentText plus d) := by
  have hdigits := isDoubleText_digitsOf d.digits
  obtain ⟨c, rest, hlead, hc⟩ := exists_digitsOf d.digits
  have hpoint : IsDoubleText ['.'] := by simp [IsDoubleText, doubleMarks]
  have hmark (signed : Bool) : IsDoubleText ('e' :: if signed then ['+'] else []) := by
    cases signed <;> simp [IsDoubleText, doubleMarks]
  unfold exponentText
  dsimp only
  rw [hlead] at hdigits ⊢
  cases rest with
  | nil =>
    refine ⟨(hdigits.append (hmark _)).append (isDoubleText_intText _), .inr (by simp), ?_⟩
    exact ⟨c, _, rfl, hc⟩
  | cons e rest =>
    obtain ⟨hfirst, hrest⟩ := List.forall_mem_cons.mp hdigits
    have hmantissa : IsDoubleText (c :: '.' :: e :: rest) :=
      IsDoubleText.append (List.forall_mem_singleton.mpr hfirst) (hpoint.append hrest)
    refine ⟨(hmantissa.append (hmark _)).append (isDoubleText_intText _), .inr (by simp), ?_⟩
    exact ⟨c, _, rfl, hc⟩

theorem isDecimal_literal (d : Decimal) : IsDecimal (literal.decimal d) := by
  unfold Layout.decimal
  dsimp only
  split
  · exact isDecimal_positionalText d
  · exact isDecimal_exponentText false d

theorem render_cases (x : Float) : literal.render x = "NaN" ∨ literal.render x = "inf" ∨
    literal.render x = "-inf" ∨ ∃ d, IsDecimal d ∧
      ((literal.render x).toList = d ∨ (literal.render x).toList = '-' :: d) := by
  unfold Layout.render
  cases parts x with
  | nan => exact .inl rfl
  | infinite negative => cases negative <;> simp
  | finite negative significand exponent =>
    right; right; right
    refine ⟨_, isDecimal_literal (shortest literal.tie significand exponent), ?_⟩
    cases negative <;> simp

end Number

/-! ### Quotes -/

namespace Text

/-- The characters of a text with each mark written twice. -/
def double (mark : Char) (x : List Char) : List Char :=
  x.flatMap fun c => if c = mark then [c, c] else [c]

theorem double_cons (mark c : Char) (x : List Char) :
    double mark (c :: x) = c :: ((if c = mark then [c] else []) ++ double mark x) := by
  rw [double, List.flatMap_cons]
  split <;> rfl

theorem doubled_toList (mark : Char) (text : String) :
    (doubled mark text).toList = mark :: (double mark text.toList ++ [mark]) := by
  rw [doubled, String.toList_ofList]
  rfl

/-- A mark that is not written twice ends the text. -/
theorem eq_of_double {mark : Char} {x y u v : List Char} (hu : u.head? ≠ some mark)
    (hv : v.head? ≠ some mark) (h : double mark x ++ mark :: u = double mark y ++ mark :: v) :
    x = y ∧ u = v := by
  induction x generalizing y with
  | nil =>
    cases y with
    | nil => exact ⟨rfl, (List.cons.inj h).2⟩
    | cons b y =>
      rw [double_cons] at h
      obtain ⟨rfl, htail⟩ := List.cons.inj h
      rw [if_pos rfl] at htail
      rw [htail] at hu
      exact absurd rfl hu
  | cons a x ih =>
    cases y with
    | nil =>
      rw [double_cons] at h
      obtain ⟨rfl, htail⟩ := List.cons.inj h
      rw [if_pos rfl] at htail
      rw [← htail] at hv
      exact absurd rfl hv
    | cons b y =>
      simp only [double_cons, List.cons_append, List.cons.injEq, List.append_assoc] at h
      obtain ⟨rfl, htail⟩ := h
      obtain ⟨rfl, hsame⟩ := ih (List.append_cancel_left htail)
      exact ⟨rfl, hsame⟩

theorem doubled_tells (hstops : Delimiting stops) {mark : Char} (hmark : mark ∉ delimiters)
    (a b : String) : Tells stops (doubled mark a).toList (doubled mark b).toList (a = b) := by
  intro rest rest' hrest hrest' heq
  have hends {rest : List Char} (h : GoesOn stops rest) : rest.head? ≠ some mark := by
    obtain ⟨c, hc, tail, rfl⟩ := h.exists_mark hstops
    intro hhead
    obtain rfl := Option.some.inj hhead
    exact hmark hc
  rw [doubled_toList, doubled_toList] at heq
  simp only [List.cons_append, List.cons.injEq, true_and, List.append_assoc] at heq
  obtain ⟨htext, hsame⟩ := eq_of_double (hends hrest) (hends hrest') heq
  exact ⟨String.toList_inj.mp htext, hsame⟩

end Text

namespace Value

theorem hexText_injective {as bs : List UInt8} (h : hexText as = hexText bs) : as = bs := by
  have hcompare := compare_hexText as bs
  rw [h, compare_eq_iff_eq.mpr rfl] at hcompare
  exact eq_of_compareBytes hcompare.symm

theorem mem_hexText {bytes : List UInt8} {c : Char} (h : c ∈ (hexText bytes).toList) :
    ∃ n < 16, c = Nat.digitChar n := by
  rw [hexText_toList] at h
  obtain ⟨b, -, hmem⟩ := List.mem_flatMap.mp h
  have hb : b.toNat < 256 := b.toNat_lt
  rcases List.mem_pair.mp hmem with rfl | rfl
  · exact ⟨_, by omega, rfl⟩
  · exact ⟨_, by omega, rfl⟩

theorem quote_notMem_hexText (bytes : List UInt8) : '\'' ∉ (hexText bytes).toList := by
  have hdigit : ∀ n < 16, '\'' ≠ Nat.digitChar n := by decide
  intro h
  obtain ⟨n, hn, heq⟩ := mem_hexText h
  exact hdigit n hn heq

end Value

/-! ### How a text begins -/

/-- What the beginning of an expression in a label shows. -/
inductive Lead where
  | null
  | bool
  | number
  | string
  | binary
  | date
  | timestamp
  | field
  | param
  | call
  /-- No expression begins here. -/
  | stop
deriving DecidableEq

/-- Two characters are enough to know a literal, a field or a parameter. -/
def Lead.of : List Char → Lead
  | [] => .stop
  | c :: rest =>
    if c.isDigit then .number
    else
      match c with
      | '\'' => .string
      | 'X' => .binary
      | 'D' => .date
      | 'T' => if rest.head? = some 'R' then .bool else .timestamp
      | 'F' => .bool
      | 'N' =>
        if rest.head? = some 'U' then .null
        else if rest.head? = some 'a' then .number
        else .call
      | 'i' => .number
      | '-' => if rest.head? = some '(' then .call else .number
      | '$' => .field
      | '?' => .param
      | c => if c ∈ delimiters then .stop else .call

theorem Lead.of_digit {c : Char} (hc : c.isDigit = true) (x : List Char) :
    Lead.of (c :: x) = .number := by
  simp [of, hc]

theorem Lead.of_minus {c : Char} (hc : c.isDigit = true) (x : List Char) :
    Lead.of ('-' :: c :: x) = .number := by
  have hne : c ≠ '(' := by
    rintro rfl
    cases hc
  simp [of, hne]

theorem Lead.of_goesOn (hstops : Delimiting stops) {x : List Char} (h : GoesOn stops x) :
    Lead.of x = .stop := by
  obtain ⟨c, hc, rest, rfl⟩ := h.exists_mark hstops
  simp only [delimiters, List.mem_cons, List.not_mem_nil, or_false] at hc
  rcases hc with rfl | rfl | rfl | rfl | rfl | rfl | rfl <;> rfl

/-- What begins like an expression is not taken for the end of a list. -/
theorem Lead.apart (hstops : Delimiting stops) {x : List Char}
    (h : ∀ rest, Lead.of (x ++ rest) ≠ .stop) : Text.Apart stops x :=
  fun rest hgoes => h rest (of_goesOn hstops hgoes)

namespace Value

def lead : Value → Lead
  | null => .null
  | bool _ => .bool
  | bigint _ | double _ => .number
  | string _ => .string
  | binary _ => .binary
  | date _ => .date
  | timestamp _ => .timestamp

theorem lead_of_text (v : Value) (rest : List Char) : Lead.of (v.text.toList ++ rest) = v.lead := by
  cases v with
  | null => rfl
  | bool b => cases b <;> rfl
  | bigint i =>
    obtain ⟨c, digits, hdigits, hc⟩ := Number.exists_digitsOf i.toInt.natAbs
    rw [text, Number.intText_toList, hdigits]
    split
    · exact Lead.of_minus hc _
    · exact Lead.of_digit hc _
  | double x =>
    rw [text]
    rcases Number.render_cases x with h | h | h | ⟨d, ⟨-, -, c, digits, rfl, hc⟩, h | h⟩
    · rw [h]
      rfl
    · rw [h]
      rfl
    · rw [h]
      rfl
    · rw [h]
      exact Lead.of_digit hc _
    · rw [h]
      exact Lead.of_minus hc _
  | string s =>
    rw [text, Text.doubled_toList]
    rfl
  | binary bytes => simp [text, Lead.of, lead]
  | date d => simp [text, Lead.of, lead]
  | timestamp t => simp [text, Lead.of, lead]

theorem apart_text (hstops : Delimiting stops) (v : Value) : Text.Apart stops v.text.toList := by
  refine Lead.apart hstops fun rest hstop => ?_
  rw [v.lead_of_text rest] at hstop
  cases v <;> cases hstop

/-- Values of one literal form: only doubles may differ. -/
inductive ReadsAs : Value → Value → Prop
  | same (v : Value) : ReadsAs v v
  | double {x y : Float} (h : Number.literal.render x = Number.literal.render y) :
    ReadsAs (double x) (double y)

theorem ReadsAs.text_eq {v w : Value} (h : v.ReadsAs w) : v.text = w.text := by
  cases h with
  | same => rfl
  | double h => exact h

theorem isWord_render (x : Float) : IsWord (Number.literal.render x).toList := by
  have hmark : ∀ c ∈ Number.doubleMarks, c ∉ delimiters := by simp [Number.doubleMarks, delimiters]
  have hdecimal {d : List Char} (hd : Number.IsDoubleText d) : IsWord d := by
    intro c hc
    rcases hd c hc with hdigit | hmem
    · exact Number.notMem_delimiters_of_isDigit hdigit
    · exact hmark c hmem
  rcases Number.render_cases x with h | h | h | ⟨d, ⟨hd, -, -⟩, h | h⟩
  · rw [h]
    simp [IsWord, delimiters]
  · rw [h]
    simp [IsWord, delimiters]
  · rw [h]
    simp [IsWord, delimiters]
  · rw [h]
    exact hdecimal hd
  · rw [h]
    exact List.forall_mem_cons.mpr ⟨by simp [delimiters], hdecimal hd⟩

/-- A double is not written like an integer. -/
theorem intText_ne_render (i : Int) (x : Float) : Number.intText i ≠ Number.literal.render x := by
  intro heq
  have hmark : ∃ c ∈ (Number.literal.render x).toList, c ∈ ['.', 'e', 'a', 'i'] := by
    rcases Number.render_cases x with h | h | h | ⟨d, ⟨-, hd, -⟩, h | h⟩
    · rw [h]
      exact ⟨'a', by decide, by decide⟩
    · rw [h]
      exact ⟨'i', by decide, by decide⟩
    · rw [h]
      exact ⟨'i', by decide, by decide⟩
    · rw [h]
      rcases hd with hd | hd
      · exact ⟨'.', hd, by decide⟩
      · exact ⟨'e', hd, by decide⟩
    · rw [h]
      rcases hd with hd | hd
      · exact ⟨'.', List.mem_cons_of_mem _ hd, by decide⟩
      · exact ⟨'e', List.mem_cons_of_mem _ hd, by decide⟩
  obtain ⟨c, hc, hmem⟩ := hmark
  rw [← heq] at hc
  rcases Number.mem_intText hc with hdigit | rfl
  · have hnone : ∀ c ∈ ['.', 'e', 'a', 'i'], c.isDigit = false := by simp
    rw [hnone c hmem] at hdigit
    cases hdigit
  · exact absurd hmem (by decide)

/-- A number in parentheses after a word. -/
theorem call_tells (f : String) (i j : Int) :
    Tells stops (f ++ Number.intText i ++ ")").toList (f ++ Number.intText j ++ ")").toList
      (i = j) := by
  simp only [String.toList_append]
  refine Tells.closed (.same _ ?_)
  refine .word (by decide) (Number.isWord_intText i) (Number.isWord_intText j) fun h => ?_
  exact Number.intText_injective (String.toList_inj.mp h)

/-- The literal form of a value tells the value. -/
theorem text_tells (hstops : Delimiting stops) (v w : Value) :
    Tells stops v.text.toList w.text.toList (v.ReadsAs w) := by
  intro rest rest' hrest hrest' heq
  have hlead : v.lead = w.lead := by
    rw [← v.lead_of_text rest, ← w.lead_of_text rest', heq]
  have hword {x y : String} (hx : IsWord x.toList) (hy : IsWord y.toList)
      (h : x.toList ++ rest = y.toList ++ rest') : x = y ∧ rest = rest' :=
    Tells.word hstops hx hy String.toList_inj.mp rest rest' hrest hrest' h
  cases v <;> cases w <;> try cases hlead
  case null.null => exact ⟨.same _, List.append_cancel_left heq⟩
  case bool.bool b c =>
    have hbool (b : Bool) : IsWord (Value.bool b).text.toList := by
      cases b <;> simp [text, IsWord, delimiters]
    obtain ⟨htext, hsame⟩ := hword (hbool b) (hbool c) heq
    cases b <;> cases c <;> first | exact ⟨.same _, hsame⟩ | exact absurd htext (by decide)
  case bigint.bigint i j =>
    obtain ⟨htext, hsame⟩ := hword (Number.isWord_intText _) (Number.isWord_intText _) heq
    rw [Int64.toInt_inj.mp (Number.intText_injective htext)]
    exact ⟨.same _, hsame⟩
  case bigint.double i y =>
    obtain ⟨htext, -⟩ := hword (Number.isWord_intText _) (isWord_render y) heq
    exact absurd htext (intText_ne_render _ y)
  case double.bigint x j =>
    obtain ⟨htext, -⟩ := hword (isWord_render x) (Number.isWord_intText _) heq
    exact absurd htext.symm (intText_ne_render _ x)
  case double.double x y =>
    obtain ⟨htext, hsame⟩ := hword (isWord_render x) (isWord_render y) heq
    exact ⟨.double htext, hsame⟩
  case string.string s t =>
    obtain ⟨rfl, hsame⟩ := Text.doubled_tells hstops (by decide) s t rest rest' hrest hrest' heq
    exact ⟨.same _, hsame⟩
  case binary.binary as bs =>
    simp only [text, String.toList_append, List.append_assoc] at heq
    obtain ⟨hhex, hsame⟩ := Text.eq_of_append_cons (quote_notMem_hexText as)
      (quote_notMem_hexText bs) (List.append_cancel_left heq)
    rw [hexText_injective (String.toList_inj.mp hhex)]
    exact ⟨.same _, hsame⟩
  case date.date d e =>
    obtain ⟨hdate, hsame⟩ := call_tells "DATE(" _ _ rest rest' hrest hrest' heq
    rw [Int32.toInt_inj.mp hdate]
    exact ⟨.same _, hsame⟩
  case timestamp.timestamp d e =>
    obtain ⟨htimestamp, hsame⟩ := call_tells "TIMESTAMP(" _ _ rest rest' hrest hrest' heq
    rw [Int64.toInt_inj.mp htimestamp]
    exact ⟨.same _, hsame⟩

end Value

end Polystore
