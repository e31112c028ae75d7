import Polystore.Proofs.Groups
import Polystore.Proofs.Legibility

/-
  Polystore/Proofs/Digests.lean
  =============================
  **What a digest tells.**  Names of tables and fields go into digests as they
  are, so two different nodes can have one digest.  Still a digest tells the
  operator, the kind of engine, and the groups of the inputs (`digestText_inj`),
  which is all that the shape of a plan depends on.
-/

namespace Polystore

open Text (eq_of_append_cons eq_of_append_cons_right)

/-! ### Names in digests -/

theorem GroupId.text_toList (g : GroupId) : g.text.toList = 'g' :: Nat.toDigits 10 g.n := by
  simp [text, Number.natText, Number.digitsOf]

theorem GroupId.text_injective {g h : GroupId} (heq : g.text = h.text) : g = h := by
  have hlist := congrArg String.toList heq
  rw [text_toList, text_toList] at hlist
  obtain ⟨-, hdigits⟩ := List.cons.inj hlist
  refine GroupId.eq_of_n ?_
  rw [← Nat.ofDigitChars_ten_toDigits (n := g.n), hdigits, Nat.ofDigitChars_ten_toDigits]

/-- A name of an operator has no blank, so the first blank ends it. -/
theorem RelKind.name_spec (k : RelKind) : ' ' ∉ k.name.toList ∧
    ∀ k' : RelKind, k.name.toList = k'.name.toList → k = k' := by
  cases k with
  | _ =>
    refine ⟨by decide, ?_⟩
    intro k' h
    cases k' with
    | _ => first | rfl | exact absurd h (by decide)

/-- The letter with which the name of a convention begins. -/
def Convention.initial : Convention → Char
  | logical => 'L'
  | enumerable => 'E'
  | store .document _ => 'D'
  | store .wideColumn _ => 'W'
  | store .search _ => 'S'
  | store .file _ => 'F'

theorem Convention.exists_text (c : Convention) : ∃ rest, c.text.toList = c.initial :: rest := by
  cases c with
  | logical => exact ⟨_, rfl⟩
  | enumerable => exact ⟨_, rfl⟩
  | store b name =>
    cases b with
    | _ => exact ⟨_, by simp [text, initial, Backend.name]; rfl⟩

/-- The rank of the engine with whose letter a name begins. -/
def Convention.rankOfInitial : Char → Nat
  | 'L' => 0
  | 'E' => 1
  | 'D' => 2
  | 'W' => 3
  | 'S' => 4
  | _ => 5

theorem Convention.rankOfInitial_initial (c : Convention) : rankOfInitial c.initial = c.rank := by
  cases c with
  | logical => rfl
  | enumerable => rfl
  | store b name =>
    cases b with
    | _ => rfl

/-- The letter tells the engine. -/
theorem Convention.rank_eq_of_initial {c c' : Convention} (h : c.initial = c'.initial) :
    c.rank = c'.rank := by
  rw [← rankOfInitial_initial, h, rankOfInitial_initial]

/-! ### Digests -/

/-- A label does not show the inputs. -/
theorem Node.label_withInputs (n : Node) (inputs : List NodeId) :
    (n.withInputs inputs).label = n.label := by
  rcases n with ⟨op, traits, row, native⟩
  cases inputs <;> cases op <;> rfl

namespace Memo

variable {n k : Node} {gs hs : List GroupId}

theorem digestText_withInputs (n : Node) (inputs : List NodeId) (gs : List GroupId) :
    digestText (n.withInputs inputs) gs = digestText n gs := by
  rw [digestText, digestText, Node.label_withInputs]
  rfl

theorem digestText_front (n : Node) (gs : List GroupId) : ∃ rest,
    (digestText n gs).toList =
      n.kind.name.toList ++ ' ' :: '[' :: n.convention.initial :: rest := by
  obtain ⟨rest, hrest⟩ := n.convention.exists_text
  have htraits : n.traits.text.toList = n.convention.initial :: (rest ++
      (if n.traits.collation.isEmpty then ""
        else "." ++ Collation.text n.traits.collation).toList) := by
    rw [Traits.text, String.toList_append, show n.traits.convention.text.toList = _ from hrest]
    rfl
  simp only [digestText, Node.label, String.toList_append, htraits, List.append_assoc,
    List.cons_append, show " [".toList = [' ', '['] from rfl, List.nil_append]
  exact ⟨_, rfl⟩

theorem digestText_back (n : Node) (gs : List GroupId) : ∃ front,
    (digestText n gs).toList =
      front ++ '(' :: ((String.intercalate "," (gs.map GroupId.text)).toList ++ [')']) := by
  refine ⟨(n.label ++ " " ++ n.row.text).toList, ?_⟩
  rw [digestText]
  simp only [String.toList_append, List.append_assoc]
  rfl

/-- The groups of the inputs of an operator, which are not more than one. -/
theorem groupsText_inj (hgs : gs.length ≤ 1) (hhs : hs.length = gs.length)
    (h : (String.intercalate "," (gs.map GroupId.text)).toList =
      (String.intercalate "," (hs.map GroupId.text)).toList) : gs = hs := by
  rcases gs with _ | ⟨g, _ | ⟨_, _⟩⟩
  · rw [List.length_eq_zero_iff.mp hhs]
  · obtain ⟨g', rfl⟩ := List.length_eq_one_iff.mp hhs
    have htext : g.text = g'.text := by simpa [String.toList_inj] using h
    rw [GroupId.text_injective htext]
  · simp at hgs

theorem paren_notMem_groupsText (hgs : gs.length ≤ 1) :
    '(' ∉ (String.intercalate "," (gs.map GroupId.text)).toList ++ [')'] := by
  match gs with
  | [] => decide
  | [g] =>
    simp only [List.map_cons, List.map_nil, String.intercalate_singleton, GroupId.text_toList,
      List.cons_append, List.mem_cons, List.mem_append, List.not_mem_nil, or_false, not_or]
    refine ⟨by decide, fun hmem => ?_, by decide⟩
    have hdigit := Nat.isDigit_of_mem_toDigits (by decide) (by decide) hmem
    exact absurd hdigit (by decide)
  | _ :: _ :: _ => simp at hgs

theorem length_inputs_of_kind (h : k.kind = n.kind) : k.inputs.length = n.inputs.length := by
  have hlength : ∀ op : RelOp, op.inputs.length =
      if op.kind = .scan ∨ op.kind = .values then 0 else 1 := by
    intro op
    cases op with
    | _ => rfl
  rw [Node.inputs, Node.inputs, hlength, hlength]
  rw [Node.kind, Node.kind] at h
  rw [h]

theorem length_inputs_le (n : Node) : n.inputs.length ≤ 1 := by
  rw [Node.inputs]
  cases n.op with
  | scan _ => exact Nat.zero_le _
  | values _ => exact Nat.zero_le _
  | _ => exact Nat.le_refl _

/-- Nodes of one digest have the same operator, inputs in the same groups, and an
    engine of the same kind. -/
theorem digestText_inj (hgs : gs.length = n.inputs.length) (hhs : hs.length = k.inputs.length)
    (h : digestText k hs = digestText n gs) :
    k.kind = n.kind ∧ k.convention.rank = n.convention.rank ∧ hs = gs := by
  have hlist := congrArg String.toList h
  obtain ⟨rest, hrest⟩ := digestText_front n gs
  obtain ⟨rest', hrest'⟩ := digestText_front k hs
  obtain ⟨hname, htail⟩ := eq_of_append_cons (RelKind.name_spec _).1 (RelKind.name_spec _).1
    (hrest'.symm.trans (hlist.trans hrest))
  have hkind := (RelKind.name_spec _).2 _ hname
  obtain ⟨hinitial, -⟩ := List.cons.inj (List.cons.inj htail).2
  have hlength : hs.length = gs.length := by rw [hhs, hgs, length_inputs_of_kind hkind]
  have hle : gs.length ≤ 1 := hgs ▸ length_inputs_le n
  obtain ⟨front, hfront⟩ := digestText_back n gs
  obtain ⟨front', hfront'⟩ := digestText_back k hs
  have htext := eq_of_append_cons_right (paren_notMem_groupsText (hlength ▸ hle))
    (paren_notMem_groupsText hle) (hfront'.symm.trans (hlist.trans hfront))
  have hgroups := groupsText_inj hle hlength (List.append_cancel_right htext.2).symm
  exact ⟨hkind, Convention.rank_eq_of_initial hinitial, hgroups.symm⟩

/-- A node that is kept in place of another one has the digest which that one has. -/
theorem Keeps.exists_digest {α : Type} {m : Memo α} {id : NodeId} (h : m.Keeps n id) :
    ∃ k gs, m.node id = .ok k ∧ gs.length = k.inputs.length ∧ gs.length = n.inputs.length ∧
      digestText k gs = digestText n gs ∧
      k.inputs.mapM m.groupOf = .ok (gs.map m.find) ∧
      n.inputs.mapM m.groupOf = .ok (gs.map m.find) := by
  rcases h with ⟨k, inputs, gs, hk, hd, hgs, hinputs⟩
  have hlength : ∀ {n : Node} {l : List GroupId}, n.inputs.mapM m.groupOf = .ok (l.map m.find) →
      l.length = n.inputs.length := by
    intro n l hl
    have hforall := (mapM_eq_ok.mp hl).length_eq
    rw [List.length_map] at hforall
    exact hforall.symm
  obtain ⟨-, -, rfl⟩ := digestText_inj (hlength hinputs) (hlength hgs) hd
  exact ⟨k, gs, hk, hlength hgs, hlength hinputs, hd, hgs, hinputs⟩

theorem Keeps.exists_alike {α : Type} {m : Memo α} {id : NodeId} (h : m.Keeps n id) :
    ∃ k gs, m.node id = .ok k ∧ k.kind = n.kind ∧ k.convention.rank = n.convention.rank ∧
      k.inputs.mapM m.groupOf = .ok gs ∧ n.inputs.mapM m.groupOf = .ok gs := by
  obtain ⟨k, gs, hk, hlength, hlength', hd, hgs, hinputs⟩ := h.exists_digest
  obtain ⟨hkind, hrank, -⟩ := digestText_inj hlength' hlength hd
  exact ⟨k, gs.map m.find, hk, hkind, hrank, hgs, hinputs⟩

end Memo

end Polystore
