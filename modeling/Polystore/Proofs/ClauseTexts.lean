import Polystore.Proofs.KeyCoverage
import Polystore.Proofs.ValueTexts

/-
  Polystore/Proofs/ClauseTexts.lean
  =================================
  **A clause says what its terms are.**  The text of a filter is a line of conditions with
  ` AND ` between them, and a range with two ends is two conditions.  The names of
  columns and the values stand in it as they are, apart from quotes.  A quote inside a
  name or a string is doubled, so that the one which ends it is known by what follows,
  and all other values are words that no space is in.  So each condition shows where
  it ends and what it says (`Condition.text_tells`), whatever a string may look like.
  Fields ascend from term to term, and therefore the conditions of one term are those of
  its field (`Term.filter_flatMap_demands`).

  How a value is written does not show its type: an integer and a date may look alike.
  The terms are compared for columns that have their types.
-/

namespace Polystore

open Text (IsWord Delimiting Tells GoesOn delimiters)

variable {stops : List (List Char)}

/-! ### Values -/

namespace Value

variable {v w : Value}

/-- Values other than strings and doubles are words, and no colon is in them. -/
theorem notMem_clauseText (hdouble : v.isDouble = false) (hstring : v.dataType ≠ .string) {c : Char}
    (hc : c ∈ ':' :: delimiters) : c ∉ v.clauseText.toList := by
  have hint (i : Int) : c ∉ (Number.intText i).toList := by
    intro h
    have hnone : ∀ c ∈ ':' :: delimiters, ¬c.isDigit = true ∧ c ≠ '-' := by simp [delimiters]
    rcases Number.mem_intText h with hdigit | hminus
    · exact (hnone c hc).1 hdigit
    · exact (hnone c hc).2 hminus
  cases v with
  | null => simp [clauseText, canonical]
  | bool b =>
    have hnone : ∀ c ∈ ':' :: delimiters, c ∉ "true".toList ∧ c ∉ "false".toList := by
      simp [delimiters]
    cases b with
    | true => exact (hnone c hc).1
    | false => exact (hnone c hc).2
  | bigint i => exact hint _
  | double x => cases hdouble
  | string s => exact absurd rfl hstring
  | binary bytes =>
    intro h
    have hstart : ∀ c ∈ "0x".toList, c ∉ ':' :: delimiters := by simp [delimiters]
    have hdigit : ∀ n < 16, Nat.digitChar n ∉ ':' :: delimiters := by decide
    rw [clauseText, String.toList_append] at h
    rcases List.mem_append.mp h with h | h
    · exact hstart c h hc
    · obtain ⟨n, hn, rfl⟩ := mem_hexText h
      exact hdigit n hn hc
  | date d => exact hint _
  | timestamp t => exact hint _

theorem clauseText_injective (hdouble : v.isDouble = false) (hstring : v.dataType ≠ .string)
    (htype : v.dataType = w.dataType) (h : v.clauseText = w.clauseText) : v = w := by
  cases v <;> cases w <;> cases htype
  case null.null.refl => rfl
  case bool.bool.refl b c => cases b <;> cases c <;> first | rfl | exact absurd h (by decide)
  case bigint.bigint.refl i j => rw [Int64.toInt_inj.mp (Number.intText_injective h)]
  case double.double.refl => cases hdouble
  case string.string.refl => exact absurd rfl hstring
  case binary.binary.refl as bs =>
    rw [hexText_injective (String.append_right_inj _ |>.mp h)]
  case date.date.refl d e => rw [Int32.toInt_inj.mp (Number.intText_injective h)]
  case timestamp.timestamp.refl d e => rw [Int64.toInt_inj.mp (Number.intText_injective h)]

theorem isWord_clauseText (hdouble : v.isDouble = false) (hstring : v.dataType ≠ .string) :
    IsWord v.clauseText.toList :=
  fun _ hc hmem => notMem_clauseText hdouble hstring (List.mem_cons_of_mem _ hmem) hc

/-- What is written for values of one type tells them apart, doubles left out. -/
theorem clauseText_tells (hstops : Delimiting stops) (hv : v.isDouble = false)
    (hw : w.isDouble = false) (htype : v.dataType = w.dataType) :
    Tells stops v.clauseText.toList w.clauseText.toList (v = w) := by
  by_cases hstring : v.dataType = .string
  · obtain ⟨s, rfl⟩ : ∃ s, v = string s := by cases v <;> first | exact ⟨_, rfl⟩ | cases hstring
    obtain ⟨t, rfl⟩ : ∃ t, w = string t := by cases w <;> first | exact ⟨_, rfl⟩ | cases htype
    exact (Text.doubled_tells hstops (by decide) s t).imp (congrArg string)
  · refine .word hstops (isWord_clauseText hv hstring) (isWord_clauseText hw (htype ▸ hstring)) ?_
    exact fun h => clauseText_injective hv hstring htype (String.toList_inj.mp h)

end Value

/-! ### Right-hand sides -/

namespace TermValue

/-- A parameter, or a value of the type that is not a double. -/
def IsOf (t : DataType) (w : TermValue) : Prop :=
  ∀ v, w = .literal v → v.isDouble = false ∧ v.dataType = t

theorem param_clauseText_toList (i : Nat) :
    (TermValue.param i).clauseText.toList = ':' :: 'p' :: (Number.natText i).toList := by
  rw [clauseText, String.toList_append]
  rfl

theorem param_tells (hstops : Delimiting stops) (i j : Nat) :
    Tells stops (param i).clauseText.toList (param j).clauseText.toList (param i = param j) := by
  rw [param_clauseText_toList, param_clauseText_toList]
  exact ((Number.natText_tells hstops i j).imp (congrArg param)).same [':', 'p']

/-- A value does not begin as a parameter does. -/
theorem head?_literal (hstops : Delimiting stops) {v : Value} (hv : v.isDouble = false)
    {rest : List Char} (hrest : GoesOn stops rest) :
    ((literal v).clauseText.toList ++ rest).head? ≠ some ':' := by
  change (v.clauseText.toList ++ rest).head? ≠ some ':'
  by_cases hstring : v.dataType = .string
  · obtain ⟨s, rfl⟩ : ∃ s, v = .string s := by
      cases v <;> first | exact ⟨_, rfl⟩ | cases hstring
    rw [Value.clauseText, Text.doubled_toList]
    simp
  · have hcolon := Value.notMem_clauseText hv hstring (List.mem_cons_self (a := ':'))
    intro hhead
    cases htext : v.clauseText.toList with
    | nil =>
      obtain ⟨c, hc, tail, rfl⟩ := hrest.exists_mark hstops
      rw [htext] at hhead
      obtain rfl : c = ':' := Option.some.inj hhead
      exact absurd hc (by decide)
    | cons c text =>
      rw [htext] at hhead hcolon
      obtain rfl : c = ':' := Option.some.inj hhead
      exact hcolon List.mem_cons_self

theorem clauseText_tells (hstops : Delimiting stops) {t : DataType} {w w' : TermValue}
    (hw : w.IsOf t) (hw' : w'.IsOf t) :
    Tells stops w.clauseText.toList w'.clauseText.toList (w = w') := by
  cases w with
  | literal v =>
    obtain ⟨hdouble, htype⟩ := hw v rfl
    cases w' with
    | literal v' =>
      obtain ⟨hdouble', htype'⟩ := hw' v' rfl
      exact (Value.clauseText_tells hstops hdouble hdouble' (htype.trans htype'.symm)).imp
        (congrArg literal)
    | param j =>
      intro rest rest' hrest hrest' heq
      refine absurd ?_ (head?_literal hstops hdouble hrest)
      rw [heq, param_clauseText_toList]
      rfl
  | param i =>
    cases w' with
    | literal v' =>
      obtain ⟨hdouble', -⟩ := hw' v' rfl
      intro rest rest' hrest hrest' heq
      refine absurd ?_ (head?_literal hstops hdouble' hrest')
      rw [← heq, param_clauseText_toList]
      rfl
    | param j => exact param_tells hstops i j

end TermValue

/-! ### Conditions -/

/-- One condition of a clause. -/
@[ext]
structure Condition where
  field : Nat
  test : Comparison
  value : TermValue

namespace Condition

def text (ctx : PushContext) (c : Condition) : String :=
  quoteName (ctx.name c.field) ++ " " ++ c.test.symbol ++ " " ++ c.value.clauseText

/-- A condition on a column that has a name and values of its type. -/
structure IsFor (ctx : PushContext) (types : Nat → DataType) (c : Condition) : Prop where
  named : (ctx.name? c.field).isSome = true
  typed : c.value.IsOf (types c.field)

theorem isWord_symbol (op : Comparison) : IsWord op.symbol.toList := by
  cases op <;> simp [Comparison.symbol, IsWord, delimiters]

theorem symbol_injective {op op' : Comparison} (h : op.symbol = op'.symbol) : op = op' := by
  cases op <;> cases op' <;> simp_all [Comparison.symbol]

variable {ctx : PushContext} {types : Nat → DataType} {c c' : Condition}

/-- A condition shows its column by the name, and then its operator and its value. -/
theorem text_tells (hnames : ctx.names.Nodup) (hstops : Delimiting stops) (hc : c.IsFor ctx types)
    (hc' : c'.IsFor ctx types) :
    Tells stops (c.text ctx).toList (c'.text ctx).toList (c = c') := by
  intro rest rest' hrest hrest' heq
  simp only [text, String.toList_append, List.append_assoc] at heq
  have hspace (rest : List Char) : GoesOn [" ".toList] (" ".toList ++ rest) :=
    .of_mem (List.mem_singleton_self _) rest
  obtain ⟨hname, heq⟩ := Text.doubled_tells (by decide) (by decide) _ _ _ _ (hspace _) (hspace _) heq
  have hfield := PushContext.field_eq_of_name hnames hc.named hc'.named hname
  obtain ⟨hsymbol, heq⟩ := Tells.word (by decide) (isWord_symbol c.test) (isWord_symbol c'.test)
    String.toList_inj.mp _ _ (hspace _) (hspace _) (List.append_cancel_left heq)
  obtain ⟨hvalue, hsame⟩ := TermValue.clauseText_tells hstops hc.typed (hfield ▸ hc'.typed)
    rest rest' hrest hrest' (List.append_cancel_left heq)
  exact ⟨Condition.ext hfield (symbol_injective hsymbol) hvalue, hsame⟩

/-- Conditions, each with what stands between two of them. -/
def line (ctx : PushContext) (conditions : List Condition) : List Char :=
  conditions.flatMap fun c => (c.text ctx).toList ++ " AND ".toList

theorem line_cons (c : Condition) (cs : List Condition) :
    line ctx (c :: cs) = (c.text ctx).toList ++ (" AND ".toList ++ line ctx cs) := by
  rw [line, List.flatMap_cons, List.append_assoc]
  rfl

theorem eq_of_line (hnames : ctx.names.Nodup) {cs cs' : List Condition}
    (hcs : ∀ c ∈ cs, c.IsFor ctx types) (hcs' : ∀ c ∈ cs', c.IsFor ctx types)
    (h : line ctx cs = line ctx cs') : cs = cs' := by
  induction cs generalizing cs' with
  | nil =>
    cases cs' with
    | nil => rfl
    | cons c' cs' => simp [line] at h
  | cons c cs ih =>
    cases cs' with
    | nil => simp [line] at h
    | cons c' cs' =>
      obtain ⟨hc, hfurther⟩ := List.forall_mem_cons.mp hcs
      obtain ⟨hc', hfurther'⟩ := List.forall_mem_cons.mp hcs'
      have hand (rest : List Char) : GoesOn [" AND ".toList] (" AND ".toList ++ rest) :=
        .of_mem (List.mem_singleton_self _) rest
      have hstops : Delimiting [" AND ".toList] := by decide
      rw [line_cons, line_cons] at h
      obtain ⟨rfl, hrest⟩ := text_tells hnames hstops hc hc' _ _ (hand _) (hand _) h
      rw [ih hfurther hfurther' (List.append_cancel_left hrest)]

/-- The texts of the conditions with ` AND ` between them, and one more at the end. -/
theorem intercalate_append (c : Condition) (cs : List Condition) :
    (String.intercalate " AND " ((c :: cs).map (text ctx))).toList ++ " AND ".toList =
      line ctx (c :: cs) := by
  induction cs generalizing c with
  | nil =>
    rw [line_cons, List.map_singleton, String.intercalate_singleton]
    exact congrArg _ (List.append_nil _).symm
  | cons d cs ih =>
    rw [line_cons, ← ih d, List.map_cons, List.map_cons, String.intercalate_cons_cons]
    simp only [String.toList_append, List.append_assoc]

theorem intercalate_ne_empty (c : Condition) (cs : List Condition) :
    String.intercalate " AND " ((c :: cs).map (text ctx)) ≠ "" := by
  intro hempty
  have hline : (String.intercalate " AND " ((c :: cs).map (text ctx))).toList ++ " AND ".toList =
      line ctx (c :: cs) := intercalate_append c cs
  rw [hempty, line_cons, text, quoteName] at hline
  simp [Text.doubled_toList] at hline

theorem line_of_intercalate {cs cs' : List Condition}
    (h : String.intercalate " AND " (cs.map (text ctx)) =
      String.intercalate " AND " (cs'.map (text ctx))) : line ctx cs = line ctx cs' := by
  cases cs with
  | nil =>
    cases cs' with
    | nil => rfl
    | cons c' cs' => exact absurd h.symm (intercalate_ne_empty c' cs')
  | cons c cs =>
    cases cs' with
    | nil => exact absurd h (intercalate_ne_empty c cs)
    | cons c' cs' => rw [← intercalate_append, ← intercalate_append, h]

end Condition

/-! ### Terms -/

/-- The condition that one end of a range is written as. -/
def Bound.demand (i : Nat) (isLower : Bool) (b : Bound) : Condition := ⟨i, b.test isLower, b.value⟩

/-- Whether the condition is a lower end. -/
def Condition.isLower (c : Condition) : Bool := c.test = .gt || c.test = .ge

namespace Bound

variable {i : Nat} {isLower : Bool}

theorem isLower_demand (b : Bound) : (b.demand i isLower).isLower = isLower := by
  rcases b with ⟨w, _ | _⟩ <;> cases isLower <;> rfl

theorem demand_test_ne (b : Bound) : (b.demand i isLower).test ≠ .eq := by
  rcases b with ⟨w, _ | _⟩ <;> cases isLower <;> simp [demand, test]

theorem demand_injective : Function.Injective (demand i isLower) := by
  rintro ⟨w, inclusive⟩ ⟨w', inclusive'⟩ heq
  obtain ⟨-, htest, rfl⟩ := Condition.mk.inj heq
  cases isLower <;> cases inclusive <;> cases inclusive' <;> first | rfl | cases htest

end Bound

namespace Term

/-- The conditions that a term is written as. -/
def demands : Term → List Condition
  | .eq i w => [⟨i, .eq, w⟩]
  | .range i lower upper =>
    lower.toList.map (Bound.demand i true) ++ upper.toList.map (Bound.demand i false)
  | _ => []

/-- An equality, or a range with an end. -/
inductive Restricts : Term → Prop
  | equality {i : Nat} {w : TermValue} : Restricts (.eq i w)
  | range {i : Nat} {lower upper : Option Bound}
    (hended : lower.isSome = true ∨ upper.isSome = true) : Restricts (.range i lower upper)

theorem Restricts.of_isEnded {t : Term} (hform : t.isEquality = true ∨ t.isRange = true)
    (hended : t.IsEnded) : t.Restricts := by
  cases t with
  | eq i w => exact .equality
  | range i lower upper =>
    refine .range ?_
    cases lower with
    | some b => exact .inl rfl
    | none =>
      cases upper with
      | some b => exact .inr rfl
      | none => exact absurd rfl (hended i)
  | _ => simp [isEquality, isRange] at hform

theorem field_of_mem_demands {t : Term} {c : Condition} (h : c ∈ t.demands) : c.field = t.field := by
  cases t with
  | eq i w =>
    obtain rfl := List.mem_singleton.mp h
    rfl
  | range i lower upper =>
    rcases List.mem_append.mp h with h | h
    · obtain ⟨b, -, rfl⟩ := List.mem_map.mp h
      rfl
    · obtain ⟨b, -, rfl⟩ := List.mem_map.mp h
      rfl
  | _ => cases h

theorem value_of_mem_demands {t : Term} {c : Condition} (h : c ∈ t.demands) :
    c.value ∈ t.operands := by
  cases t with
  | eq i w =>
    obtain rfl := List.mem_singleton.mp h
    exact List.mem_singleton_self w
  | range i lower upper =>
    rw [operands, List.map_append]
    rcases List.mem_append.mp h with h | h
    · obtain ⟨b, hb, rfl⟩ := List.mem_map.mp h
      exact List.mem_append_left _ (List.mem_map_of_mem hb)
    · obtain ⟨b, hb, rfl⟩ := List.mem_map.mp h
      exact List.mem_append_right _ (List.mem_map_of_mem hb)
  | _ => cases h

/-- It is written as one condition at least. -/
theorem Restricts.exists_cons {t : Term} (h : t.Restricts) :
    ∃ c cs, t.demands = c :: cs ∧ c.field = t.field := by
  cases h with
  | equality => exact ⟨_, _, rfl, rfl⟩
  | @range i lower upper hended =>
    cases lower with
    | some b => exact ⟨_, _, rfl, rfl⟩
    | none =>
      obtain ⟨b, rfl⟩ := Option.isSome_iff_exists.mp (hended.resolve_left (by simp))
      exact ⟨_, _, rfl, rfl⟩

theorem Restricts.field_eq {t t' : Term} (h : t.Restricts) (h' : t'.Restricts) {u v : List Condition}
    (heq : t.demands ++ u = t'.demands ++ v) : t.field = t'.field := by
  obtain ⟨c, cs, hc, hfield⟩ := h.exists_cons
  obtain ⟨c', cs', hc', hfield'⟩ := h'.exists_cons
  rw [hc, hc'] at heq
  rw [← hfield, ← hfield', (List.cons.inj heq).1]

/-- The conditions of a range are told apart by the end that they are for. -/
theorem filter_demands (i : Nat) (lower upper : Option Bound) :
    (range i lower upper).demands.filter (·.isLower) = lower.toList.map (Bound.demand i true) ∧
      (range i lower upper).demands.filter (!·.isLower) =
        upper.toList.map (Bound.demand i false) := by
  have hall (isLower : Bool) (o : Option Bound) :
      ∀ c ∈ o.toList.map (Bound.demand i isLower), c.isLower = isLower := by
    intro c hc
    obtain ⟨b, -, rfl⟩ := List.mem_map.mp hc
    exact b.isLower_demand
  constructor
  · rw [demands, List.filter_append, List.filter_eq_self.mpr (hall true lower),
      List.filter_eq_nil_iff.mpr fun c hc => by simp [hall false upper c hc], List.append_nil]
  · rw [demands, List.filter_append,
      List.filter_eq_nil_iff.mpr fun c hc => by simp [hall true lower c hc], List.nil_append,
      List.filter_eq_self.mpr fun c hc => by simp [hall false upper c hc]]

theorem range_eq_of_demands {i : Nat} {lower upper lower' upper' : Option Bound}
    (heq : (range i lower upper).demands = (range i lower' upper').demands) :
    range i lower upper = range i lower' upper' := by
  have hsame {isLower : Bool} {o o' : Option Bound}
      (h : o.toList.map (Bound.demand i isLower) = o'.toList.map (Bound.demand i isLower)) :
      o = o' := by
    have hends : o.toList = o'.toList := List.map_injective_iff.mpr Bound.demand_injective h
    cases o <;> cases o' <;> simp_all
  obtain ⟨hlower, hupper⟩ := filter_demands i lower upper
  obtain ⟨hlower', hupper'⟩ := filter_demands i lower' upper'
  rw [heq] at hlower hupper
  rw [hsame (hlower.symm.trans hlower'), hsame (hupper.symm.trans hupper')]

/-- An equality is not written like a range. -/
theorem demands_eq_ne_range {i j : Nat} {w : TermValue} {lower upper : Option Bound} :
    (eq i w).demands ≠ (range j lower upper).demands := by
  intro heq
  have hmem : ⟨i, .eq, w⟩ ∈ (range j lower upper).demands := heq ▸ List.mem_singleton_self _
  rcases List.mem_append.mp hmem with hmem | hmem
  · obtain ⟨b, -, hb⟩ := List.mem_map.mp hmem
    exact b.demand_test_ne (congrArg Condition.test hb)
  · obtain ⟨b, -, hb⟩ := List.mem_map.mp hmem
    exact b.demand_test_ne (congrArg Condition.test hb)

/-- A term is known by its conditions. -/
theorem eq_of_demands {t t' : Term} (h : t.Restricts) (h' : t'.Restricts)
    (heq : t.demands = t'.demands) : t = t' := by
  have hfield : t.field = t'.field := h.field_eq h' (congrArg (· ++ []) heq)
  cases h <;> cases h'
  case equality.equality =>
    obtain ⟨rfl, -, rfl⟩ := Condition.mk.inj (List.cons.inj heq).1
    rfl
  case equality.range => exact absurd heq demands_eq_ne_range
  case range.equality => exact absurd heq.symm demands_eq_ne_range
  case range.range =>
    obtain rfl := hfield
    exact range_eq_of_demands heq

/-- The conditions of the first of several terms are those of its field. -/
theorem filter_flatMap_demands {t : Term} {rest : List Term}
    (h : (t :: rest).Pairwise fun t t' => t.field < t'.field) :
    ((t :: rest).flatMap demands).filter (·.field = t.field) = t.demands := by
  have hfirst : t.demands.filter (·.field = t.field) = t.demands := by
    refine List.filter_eq_self.mpr fun c hc => ?_
    simpa using field_of_mem_demands hc
  have hrest : (rest.flatMap demands).filter (·.field = t.field) = [] := by
    refine List.filter_eq_nil_iff.mpr fun c hc => ?_
    obtain ⟨t', ht', hdemand⟩ := List.mem_flatMap.mp hc
    have hlt := (List.pairwise_cons.mp h).1 t' ht'
    rw [decide_eq_true_iff, field_of_mem_demands hdemand]
    omega
  rw [List.flatMap_cons, List.filter_append, hfirst, hrest, List.append_nil]

/-- Terms whose fields ascend are known by their conditions. -/
theorem eq_of_flatMap_demands {l l' : List Term} (hl : ∀ t ∈ l, t.Restricts)
    (hl' : ∀ t ∈ l', t.Restricts) (hascending : l.Pairwise fun t t' => t.field < t'.field)
    (hascending' : l'.Pairwise fun t t' => t.field < t'.field)
    (heq : l.flatMap demands = l'.flatMap demands) : l = l' := by
  have hnone {t : Term} {rest : List Term} (ht : t.Restricts) :
      (t :: rest).flatMap demands ≠ [] := by
    obtain ⟨c, cs, hc, -⟩ := ht.exists_cons
    rw [List.flatMap_cons, hc]
    exact List.cons_ne_nil _ _
  induction l generalizing l' with
  | nil =>
    cases l' with
    | nil => rfl
    | cons t' rest' => exact absurd heq.symm (hnone (hl' t' List.mem_cons_self))
  | cons t rest ih =>
    cases l' with
    | nil => exact absurd heq (hnone (hl t List.mem_cons_self))
    | cons t' rest' =>
      obtain ⟨ht, hrest⟩ := List.forall_mem_cons.mp hl
      obtain ⟨ht', hrest'⟩ := List.forall_mem_cons.mp hl'
      -- the first condition shows the field of the first term, and the field its conditions
      have hfield : t.field = t'.field := by
        rw [List.flatMap_cons, List.flatMap_cons] at heq
        exact ht.field_eq ht' heq
      have hdemands : t.demands = t'.demands := by
        rw [← filter_flatMap_demands hascending, ← filter_flatMap_demands hascending', heq, hfield]
      rw [List.flatMap_cons, List.flatMap_cons, hdemands] at heq
      rw [eq_of_demands ht ht' hdemands, ih hrest hrest' hascending.of_cons hascending'.of_cons
        (List.append_cancel_left heq)]

end Term

namespace WideColumn

/-- One end of a range is one condition. -/
theorem bound_eq_map {ctx : PushContext} {i : Nat} {isLower : Bool} {strict inclusive : String}
    (hop : ∀ b : Bound, (if b.inclusive then inclusive else strict) = (b.test isLower).symbol)
    (o : Option Bound) :
    bound (quoteName (ctx.name i)) strict inclusive o =
      (o.toList.map (Bound.demand i isLower)).map (Condition.text ctx) := by
  rw [bound, List.map_map]
  refine List.map_congr_left fun b _ => ?_
  rw [hop]
  rfl

theorem conditions_eq (ctx : PushContext) (t : Term) :
    conditions ctx t = t.demands.map (Condition.text ctx) := by
  cases t with
  | eq i w =>
    have hsign : " = " = " " ++ ("=" ++ " ") := by decide
    rw [conditions, hsign, ← String.append_assoc, ← String.append_assoc]
    rfl
  | range i lower upper =>
    have hlower (b : Bound) : (if b.inclusive then ">=" else ">") = (b.test true).symbol := by
      rcases b with ⟨w, _ | _⟩ <;> rfl
    have hupper (b : Bound) : (if b.inclusive then "<=" else "<") = (b.test false).symbol := by
      rcases b with ⟨w, _ | _⟩ <;> rfl
    rw [Term.demands, List.map_append, ← bound_eq_map hlower, ← bound_eq_map hupper]
    rfl
  | _ => rfl

/-- Terms as the store is given them: an equality or a range a field, in ascending order,
    on columns that have names, with values of their types, none of them a double. -/
structure Writable (ctx : PushContext) (types : Nat → DataType) (terms : List Term) : Prop where
  ascending : terms.Pairwise fun t t' => t.field < t'.field
  named : ∀ t ∈ terms, (ctx.name? t.field).isSome = true
  restricts : ∀ t ∈ terms, t.Restricts
  typed : ∀ t ∈ terms, ∀ w ∈ t.operands, w.IsOf (types t.field)

variable {ctx : PushContext} {types : Nat → DataType} {terms terms' : List Term}

theorem clause_eq (ctx : PushContext) (terms : List Term) : clause ctx terms =
    String.intercalate " AND " ((terms.flatMap Term.demands).map (Condition.text ctx)) := by
  rw [clause, List.map_flatMap]
  congr 2
  funext t
  exact conditions_eq ctx t

theorem Writable.isFor (h : Writable ctx types terms) :
    ∀ c ∈ terms.flatMap Term.demands, c.IsFor ctx types := by
  intro c hc
  obtain ⟨t, ht, hdemand⟩ := List.mem_flatMap.mp hc
  have hfield := Term.field_of_mem_demands hdemand
  exact {
    named := hfield ▸ h.named t ht
    typed := hfield ▸ h.typed t ht _ (Term.value_of_mem_demands hdemand) }

theorem eq_of_clause (hnames : ctx.names.Nodup) (h : Writable ctx types terms)
    (h' : Writable ctx types terms') (heq : clause ctx terms = clause ctx terms') :
    terms = terms' := by
  rw [clause_eq, clause_eq] at heq
  refine Term.eq_of_flatMap_demands h.restricts h'.restricts h.ascending h'.ascending ?_
  exact Condition.eq_of_line hnames h.isFor h'.isFor (Condition.line_of_intercalate heq)

end WideColumn

/-! ### What the store is given -/

/-- Of the terms kept for a field only the first one may be an equality or a range. -/
theorem FieldTerms.kept_restricts (s : FieldTerms) (i : Nat) :
    (s.kept i).Pairwise fun p q => p.1.Restricts → ¬q.1.Restricts := by
  have hother {α : Type} {l : List α} {f : α → Term × List Expr} (hf : ∀ a, ¬(f a).1.Restricts) :
      ∀ q ∈ l.map f, ¬q.1.Restricts := by
    intro q hq
    obtain ⟨a, -, rfl⟩ := List.mem_map.mp hq
    exact hf a
  unfold kept
  rw [List.append_assoc]
  refine List.pairwise_append.mpr ⟨?_, List.pairwise_of_forall_mem_list fun _ _ q hq _ => ?_,
    fun _ _ q hq _ => ?_⟩
  · cases s.eq with
    | some p => exact List.pairwise_singleton _ _
    | none =>
      refine List.pairwise_append.mpr ⟨?_, ?_, ?_⟩
      · split
        · exact List.pairwise_singleton _ _
        · exact .nil
      · split <;> first | exact List.pairwise_singleton _ _ | exact .nil
      · -- a test for `NULL` beside a range
        rintro p - q hq - h
        split at hq
        · obtain rfl := List.mem_singleton.mp hq
          cases h
        · obtain rfl := List.mem_singleton.mp hq
          cases h
        · cases hq
  -- exclusions and patterns stand behind
  all_goals
    rcases List.mem_append.mp hq with hq | hq
    · exact hother (fun _ h => by cases h) q hq
    · exact hother (fun _ h => by cases h) q hq

theorem FilterPlan.analyse_ascending (usable? : Expr → Option Term) (conjuncts : List Expr) :
    (analyse usable? conjuncts).terms.Pairwise fun t t' =>
      t.Restricts → t'.Restricts → t.field < t'.field := by
  have htable : (collect usable? [] [] conjuncts).1.Ascending := ascending_collect .nil
  refine List.pairwise_map.mpr (List.pairwise_flatMap.mpr ⟨?_, htable.imp ?_⟩)
  · intro p _
    exact (FieldTerms.kept_restricts p.2 p.1).imp fun h ht ht' => absurd ht' (h ht)
  · intro p q hlt x hx y hy _ _
    rw [FieldTerms.field_of_kept hx, FieldTerms.field_of_kept hy]
    exact hlt

namespace WideColumn

theorem writable_of_make {ctx : PushContext} {types : Nat → DataType} {e : Expr} {plan : FilterPlan}
    (h : FilterPlan.make e ctx support (accepts ctx (keyPinned e ctx)) = .ok plan)
    (htyped : ∀ t ∈ plan.branches.flatten, ∀ w ∈ t.operands, w.IsOf (types t.field)) :
    Writable ctx types plan.branches.flatten := by
  obtain ⟨conjuncts, -, hbranches, -⟩ := branch_pins_key h
  have hmerged := FilterPlan.make_mergedTerms h (hbranches ▸ List.mem_singleton_self _)
  rw [hbranches, List.flatten_singleton] at htyped ⊢
  have hrestricts : ∀ t ∈ (FilterPlan.analyse (FilterPlan.usable? ctx support
      (accepts ctx (keyPinned e ctx))) conjuncts).terms, t.Restricts := by
    intro t ht
    obtain ⟨c, -, t', hu, hform⟩ := FilterPlan.analyse_forms ht
    obtain ⟨-, hveto⟩ := Option.filter_eq_some_iff.mp hu
    have haccepts : accepts ctx (keyPinned e ctx) t = true :=
      accepts_sameForm hform ▸ (Bool.and_eq_true_iff.mp hveto).2
    refine .of_isEnded ?_ (hmerged.ended t ht)
    rcases accepts_iff.mp haccepts with ⟨-, hequality⟩ | ⟨-, -, -, hboth⟩
    · exact .inl hequality
    · exact hboth
  exact {
    ascending := (FilterPlan.analyse_ascending _ _).imp_of_mem fun ht ht' hlt =>
      hlt (hrestricts _ ht) (hrestricts _ ht')
    named := hmerged.named
    restricts := hrestricts
    typed := htyped }

/-- No value and no name changes what a clause says: two lists of terms that the store can
    be given are written alike only if they are the same.  The terms of every filter that
    is pushed are such a list, if the literals have the types of their columns and none
    is a double. -/
theorem clause_injective (hnames : ctx.names.Nodup) (types : Nat → DataType) :
    (∀ terms terms', Writable ctx types terms → Writable ctx types terms' →
      clause ctx terms = clause ctx terms' → terms = terms') ∧
    ∀ e plan, FilterPlan.make e ctx support (accepts ctx (keyPinned e ctx)) = .ok plan →
      (∀ t ∈ plan.branches.flatten, ∀ w ∈ t.operands, w.IsOf (types t.field)) →
        Writable ctx types plan.branches.flatten :=
  ⟨fun _ _ h h' heq => eq_of_clause hnames h h' heq, fun _ _ h htyped => writable_of_make h htyped⟩

/-- Strings and names that look like further conditions are not taken for them. -/
theorem clause_injective_quotes :
    let ctx : PushContext := { names := ["a", "b", "a\" = 'x' AND \"b"] }
    let types : Nat → DataType := fun _ => .string
    let equalities := List.map fun (i, s) => Term.eq i (.literal (.string s))
    let quoted := equalities [(0, "x' AND \"b\" = 'y")]
    let plain := equalities [(0, "x"), (1, "y")]
    let named := equalities [(2, "y")]
    ctx.names.Nodup ∧ Writable ctx types quoted ∧ Writable ctx types plain ∧
      Writable ctx types named ∧ clause ctx quoted ≠ clause ctx plain ∧
      clause ctx plain ≠ clause ctx named := by
  intro ctx types equalities quoted plain named
  have hnames : ctx.names.Nodup := by decide
  have hwritable (l : List (Nat × String)) (hascending : l.Pairwise fun p q => p.1 < q.1)
      (hnamed : ∀ p ∈ l, p.1 < 3) : Writable ctx types (equalities l) := by
    constructor
    · exact List.pairwise_map.mpr hascending
    all_goals
      intro t ht
      obtain ⟨⟨i, s⟩, hp, rfl⟩ := List.mem_map.mp ht
    · simpa [PushContext.name?, ctx, Term.field] using hnamed _ hp
    · exact .equality
    · intro w hw v hv
      obtain rfl := List.mem_singleton.mp hw
      cases hv
      exact ⟨rfl, rfl⟩
  have hquoted : Writable ctx types quoted := hwritable _ (by decide) (by decide)
  have hplain : Writable ctx types plain := hwritable _ (by decide) (by decide)
  have hnamed : Writable ctx types named := hwritable _ (by decide) (by decide)
  refine ⟨hnames, hquoted, hplain, hnamed, fun heq => ?_, fun heq => ?_⟩
  · have hsame := (clause_injective hnames types).1 _ _ hquoted hplain heq
    cases congrArg List.length hsame
  · have hsame := (clause_injective hnames types).1 _ _ hplain hnamed heq
    cases congrArg List.length hsame

end WideColumn

end Polystore
