import Polystore.Proofs.Truth
import Polystore.Proofs.ValueTexts

/-
  Polystore/Proofs/ExprTexts.lean
  ===============================
  **Expressions in labels.**  An expression is written with its operator in front and the
  operands in parentheses, and without the types that the type check gives it; only a cast
  shows its type.  So its text tells the expression up to these types
  (`Expr.text_tells`), and no further (`Expr.ReadsAs.text_eq`).
-/

namespace Polystore

open Text (IsWord Delimiting Tells GoesOn delimiters)

variable {stops : List (List Char)}

theorem DataType.name_tells (hstops : Delimiting stops) (t u : DataType) :
    Tells stops t.name.toList u.name.toList (t = u) := by
  have hword (t : DataType) : IsWord t.name.toList := by
    cases t <;> simp [DataType.name, IsWord, delimiters]
  refine .word hstops (hword t) (hword u) fun h => ?_
  cases t <;> cases u <;> first | rfl | exact absurd h (by decide)

namespace Operator

def all : List Operator :=
  [.compare .eq, .compare .ne, .compare .lt, .compare .le, .compare .gt, .compare .ge, .and, .or,
   .not, .isNull, .isNotNull, .arith .plus, .arith .minus, .arith .times, .arith .divide, .like,
   .cast]

theorem find?_symbol (op : Operator) : all.find? (·.symbol = op.symbol) = some op := by
  cases op with
  | compare c => cases c <;> rfl
  | arith a => cases a <;> rfl
  | _ => rfl

theorem symbol_injective {op op' : Operator} (h : op.symbol = op'.symbol) : op = op' := by
  have hfound := op.find?_symbol
  rw [h, op'.find?_symbol] at hfound
  exact (Option.some.inj hfound).symm

theorem paren_notMem_symbol (op : Operator) : '(' ∉ op.symbol.toList := by
  cases op with
  | compare c => cases c <;> decide
  | arith a => cases a <;> decide
  | _ => decide

end Operator

namespace Expr

/-- Expressions that differ in nothing but the types of literals, fields, parameters and
    calls, and in doubles of one text.  Of a cast only the first operand counts. -/
inductive ReadsAs : Expr → Expr → Prop
  | literal {v w : Value} {t u : DataType} (h : v.ReadsAs w) : ReadsAs (literal v t) (literal w u)
  | field {i : Nat} {t u : DataType} : ReadsAs (field i t) (field i u)
  | param {i : Nat} {t u : DataType} : ReadsAs (param i t) (param i u)
  | call {op : Operator} {xs ys : List Expr} {t u : DataType} (hop : op ≠ .cast)
      (h : List.Forall₂ ReadsAs xs ys) : ReadsAs (call op xs t) (call op ys u)
  | cast {xs ys : List Expr} {t : DataType} (h : Option.Rel ReadsAs xs.head? ys.head?) :
    ReadsAs (call .cast xs t) (call .cast ys t)

def lead : Expr → Lead
  | literal v _ => v.lead
  | field .. => .field
  | param .. => .param
  | call .. => .call

theorem texts_eq_map (es : List Expr) : text.texts es = es.map text := by
  induction es with
  | nil => rfl
  | cons e es ih => rw [text.texts, ih, List.map_cons]

theorem firstText_toList (es : List Expr) :
    (text.firstText es).toList = es.head?.elim [] fun e => e.text.toList := by
  cases es <;> rfl

/-- What follows the symbol of a call and the parenthesis. -/
def callBody (op : Operator) (operands : List Expr) (t : DataType) : List Char :=
  if op = .cast then (text.firstText operands).toList ++ (')' :: ':' :: t.name.toList)
  else (Text.commaList (operands.map text)).toList ++ [')']

theorem text_call (op : Operator) (operands : List Expr) (t : DataType) :
    (call op operands t).text.toList = op.symbol.toList ++ '(' :: callBody op operands t := by
  cases op with
  | cast => simp [text, callBody, Operator.symbol]
  | _ => simp [text, callBody, texts_eq_map]

theorem lead_of_text (e : Expr) (rest : List Char) : Lead.of (e.text.toList ++ rest) = e.lead := by
  cases e with
  | literal v t => exact v.lead_of_text rest
  | field i t => simp [text, Lead.of, lead]
  | param i t => simp [text, Lead.of, lead]
  | call op operands t =>
    rw [text_call]
    cases op with
    | compare c => cases c <;> rfl
    | arith a => cases a <;> rfl
    | _ => rfl

theorem apart_text (hstops : Delimiting stops) (e : Expr) : Text.Apart stops e.text.toList := by
  cases e with
  | literal v t => exact v.apart_text hstops
  | _ =>
    refine Lead.apart hstops fun rest hstop => ?_
    rw [lead_of_text] at hstop
    cases hstop

theorem lead_eq_of_text {e e' : Expr} {rest rest' : List Char}
    (h : e.text.toList ++ rest = e'.text.toList ++ rest') : e.lead = e'.lead := by
  rw [← e.lead_of_text rest, ← e'.lead_of_text rest', h]

/-- Two calls tell what they are if their operands do. -/
theorem call_tells {op op' : Operator} {xs ys : List Expr} {t u : DataType}
    (hoperand : ∀ x ∈ xs, ∀ (y : Expr) {stops : List (List Char)}, Delimiting stops →
      Tells stops x.text.toList y.text.toList (x.ReadsAs y)) (hstops : Delimiting stops) :
    Tells stops (call op xs t).text.toList (call op' ys u).text.toList
      ((call op xs t).ReadsAs (call op' ys u)) := by
  intro rest rest' hrest hrest' heq
  rw [text_call, text_call, List.append_assoc, List.append_assoc] at heq
  obtain ⟨hsymbol, hbody⟩ := Text.eq_of_append_cons op.paren_notMem_symbol
    op'.paren_notMem_symbol heq
  obtain rfl := Operator.symbol_injective (String.toList_inj.mp hsymbol)
  by_cases hcast : op = .cast
  · subst hcast
    have hfirst : Tells [[')']] (text.firstText xs).toList (text.firstText ys).toList
        (Option.Rel ReadsAs xs.head? ys.head?) := by
      rw [firstText_toList, firstText_toList]
      refine Tells.optional (fun x hx y _ => ?_) (apart_text (by decide))
      exact hoperand x (List.mem_of_mem_head? hx) y (by decide)
    have htype : Tells stops (')' :: ':' :: t.name.toList) (')' :: ':' :: u.name.toList)
        (t = u) := Tells.same [')', ':'] (DataType.name_tells hstops t u)
    have hwhole := hfirst.append htype (fun _ _ => .of_mem (List.mem_singleton_self [')']) _)
      (fun _ _ => .of_mem (List.mem_singleton_self [')']) _)
    simp only [callBody, if_true] at hbody
    obtain ⟨⟨hsame, rfl⟩, hfollows⟩ := hwhole rest rest' hrest hrest' hbody
    exact ⟨.cast hsame, hfollows⟩
  · have hlist : Tells [[')']] (Text.commaList (xs.map text)).toList
        (Text.commaList (ys.map text)).toList (List.Forall₂ ReadsAs xs ys) := by
      refine .commaList (fun x hx y _ => hoperand x hx y (by decide)) ?_ ?_ ?_
      · exact fun x _ => apart_text (by decide) x
      · exact fun y _ => apart_text (by decide) y
      · exact Text.apart_of_not_prefix (by decide)
    simp only [callBody, hcast, if_false] at hbody
    obtain ⟨hsame, hfollows⟩ := hlist.closed rest rest' hrest hrest' hbody
    exact ⟨.call hcast hsame, hfollows⟩

/-- The text of an expression tells the expression up to the types that it does not show. -/
theorem text_tells (e e' : Expr) {stops : List (List Char)} (hstops : Delimiting stops) :
    Tells stops e.text.toList e'.text.toList (e.ReadsAs e') := by
  induction e using operandInduction generalizing e' stops with
  | literal v t =>
    intro rest rest' hrest hrest' heq
    have hlead := lead_eq_of_text heq
    cases e' with
    | literal w u =>
      exact (Value.text_tells hstops v w rest rest' hrest hrest' heq).imp_left .literal
    | _ => cases v <;> cases hlead
  | field i t =>
    intro rest rest' hrest hrest' heq
    have hlead := lead_eq_of_text heq
    cases e' with
    | field j u =>
      simp only [text, String.toList_append] at heq
      obtain ⟨rfl, hsame⟩ :=
        Tells.same _ (Number.natText_tells hstops i j) rest rest' hrest hrest' heq
      exact ⟨.field, hsame⟩
    | literal w u => cases w <;> cases hlead
    | _ => cases hlead
  | param i t =>
    intro rest rest' hrest hrest' heq
    have hlead := lead_eq_of_text heq
    cases e' with
    | param j u =>
      simp only [text, String.toList_append] at heq
      obtain ⟨rfl, hsame⟩ :=
        Tells.same _ (Number.natText_tells hstops i j) rest rest' hrest hrest' heq
      exact ⟨.param, hsame⟩
    | literal w u => cases w <;> cases hlead
    | _ => cases hlead
  | call op xs t ih =>
    intro rest rest' hrest hrest' heq
    have hlead := lead_eq_of_text heq
    cases e' with
    | call op' ys u =>
      refine call_tells (fun x hx y stops hstops => ?_) hstops rest rest' hrest hrest' heq
      exact ih x hx y hstops
    | literal w u => cases w <;> cases hlead
    | _ => cases hlead

/-- Operands behind the first are not written. -/
theorem firstText_eq {xs ys : List Expr} (h : Option.Rel ReadsAs xs.head? ys.head?)
    (htext : ∀ x ∈ xs, ∀ y, x.ReadsAs y → x.text = y.text) :
    text.firstText xs = text.firstText ys := by
  cases xs with
  | nil =>
    cases ys with
    | nil => rfl
    | cons y ys => cases h
  | cons x xs =>
    cases ys with
    | nil => cases h
    | cons y ys =>
      cases h with
      | some h => exact htext x List.mem_cons_self y h

theorem ReadsAs.text_eq {e e' : Expr} (h : e.ReadsAs e') : e.text = e'.text := by
  induction e using operandInduction generalizing e' with
  | literal v t =>
    cases h with
    | literal h => exact h.text_eq
  | field i t =>
    cases h with
    | field => rfl
  | param i t =>
    cases h with
    | param => rfl
  | call op xs t ih =>
    refine String.toList_inj.mp ?_
    cases h with
    | call hop h =>
      rw [text_call, text_call, callBody, callBody, if_neg hop, if_neg hop,
        Text.map_eq_of_forall₂ h fun x hx _ hxy => ih x hx hxy]
    | @cast xs ys _ h =>
      rw [text_call, text_call]
      simp only [callBody, if_true]
      rw [firstText_eq h fun x hx _ hxy => ih x hx hxy]

end Expr

end Polystore
