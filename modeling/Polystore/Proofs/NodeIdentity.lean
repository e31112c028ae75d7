import Polystore.Proofs.Digests
import Polystore.Proofs.MemoCalls
import Polystore.Proofs.OperatorTexts

/-
  Polystore/Proofs/NodeIdentity.lean
  ==================================
  **Which nodes a memo takes for identical.**  A memo knows a node by its digest: the
  label, the row type and the groups of the inputs, one after the other.  The fragment in
  a label may be any text, so a digest is read from both ends.  Nodes with plain names
  have one digest exactly if they agree in all that a label shows
  (`Memo.digestText_eq_iff`), and a memo answers such a node with one that it has
  (`Memo.Reachable.insert_identifies`).

  What a label does not show is not compared: how rows are distributed, the identity of a
  table apart from its name, the types of literals and of calls, the names of aggregate
  calls.  Names with marks in them can make the same text of different tables
  (`Memo.insert_scan_of_another_table`).
-/

namespace Polystore

open Text (IsWord Delimiting Tells GoesOn Apart delimiters)

/-! ### Rows -/

theorem Field.text_toList (f : Field) : f.text.toList =
    (f.name.toList ++ [' '] ++ f.type.name.toList) ++
      if ¬f.nullable = true then " NOT NULL".toList else [] := by
  simp only [text, String.toList_append, apply_ite String.toList, ite_not]
  rfl

theorem Field.text_tells {f g : Field} (hf : Text.IsPlain f.name) (hg : Text.IsPlain g.name) :
    Tells [[',', ' '], [')']] f.text.toList g.text.toList (f = g) := by
  have hname : Tells [[' ']] f.name.toList g.name.toList (f.name = g.name) :=
    .word (by decide) hf.isWord hg.isWord String.toList_inj.mp
  have htype : Tells [" NOT NULL".toList, [',', ' '], [')']] f.type.name.toList g.type.name.toList
      (f.type = g.type) := DataType.name_tells (by decide) f.type g.type
  rw [text_toList, text_toList]
  refine ((hname.closed_append htype).beforeFlag ?_).imp ?_
  · exact Text.apart_of_not_prefix (by decide)
  · rintro ⟨⟨hname, htype⟩, hnullable⟩
    rw [Field.mk.injEq]
    exact ⟨hname, htype, Bool.eq_iff_iff.mpr (not_iff_not.mp hnullable)⟩

theorem Field.apart_text {f : Field} (hf : Text.IsPlain f.name) : Apart [[')']] f.text.toList := by
  rw [text_toList, List.append_assoc, List.append_assoc]
  cases hname : f.name.toList with
  | nil => exact (Text.apart_of_not_prefix (x := [' ']) (by decide)).append _
  | cons c rest =>
    have hc : c ∈ f.name.toList := hname ▸ List.mem_cons_self
    exact Text.apart_of_notMem (by decide) (hf.isWord c hc) _

namespace RowType

/-- A row type with plain names is told by its text. -/
theorem text_tells {stops : List (List Char)} {r s : RowType}
    (hr : ∀ name ∈ r.names, Text.IsPlain name) (hs : ∀ name ∈ s.names, Text.IsPlain name) :
    Tells stops r.text.toList s.text.toList (r = s) := by
  have hplain {r : RowType} (hr : ∀ name ∈ r.names, Text.IsPlain name) :
      ∀ f ∈ r.fields, Text.IsPlain f.name := fun f hf => hr f.name (List.mem_map_of_mem hf)
  have hfields : Tells [[')']] (Text.commaList (r.fields.map Field.text)).toList
      (Text.commaList (s.fields.map Field.text)).toList (r.fields = s.fields) := by
    refine .commaList_eq (fun f hf g hg => Field.text_tells (hplain hr f hf) (hplain hs g hg))
      (fun f hf => Field.apart_text (hplain hr f hf))
      (fun g hg => Field.apart_text (hplain hs g hg)) ?_
    exact Text.apart_of_not_prefix (by decide)
  simp only [text, String.toList_append]
  refine (Tells.same _ (hfields.imp fun h => ?_)).closed
  rw [RowType.mk.injEq]
  exact h

/-- Behind the first parenthesis of a row type there is none that opens. -/
theorem exists_text {r : RowType} (hr : ∀ name ∈ r.names, Text.IsPlain name) :
    ∃ inner, r.text.toList = '(' :: inner ∧ '(' ∉ inner := by
  refine ⟨(Text.commaList (r.fields.map Field.text)).toList ++ [')'], by simp [text], ?_⟩
  intro hmem
  rcases List.mem_append.mp hmem with hmem | hmem
  · rcases Text.mem_commaList hmem with hmem | ⟨x, hx, hmem⟩
    · exact absurd hmem (by decide)
    · obtain ⟨f, hf, rfl⟩ := List.mem_map.mp hx
      have hname : '(' ∉ f.name.toList := fun h =>
        hr f.name (List.mem_map_of_mem hf) '(' h (by decide)
      have htype : '(' ∉ f.type.name.toList := by
        cases f.type <;> decide
      rw [Field.text_toList] at hmem
      simp only [List.mem_append, hname, htype, false_or, or_false, List.mem_singleton] at hmem
      rcases hmem with hmem | hmem
      · exact absurd hmem (by decide)
      · split at hmem
        · exact absurd hmem (by decide)
        · cases hmem
  · exact absurd (List.mem_singleton.mp hmem) (by decide)

end RowType

/-! ### Labels -/

theorem Traits.text_toList (t : Traits) : t.text.toList = t.convention.text.toList ++
    (Option.guard (!·.isEmpty) t.collation).elim [] fun c => ['.'] ++ (Collation.text c).toList := by
  rw [elim_guard List.isEmpty t.collation]
  simp only [text, String.toList_append, apply_ite String.toList]
  rfl

/-- The traits that a label shows. -/
theorem Traits.text_tells {t u : Traits} (ht : ∀ name ∈ t.convention.storeName?, Text.IsPlain name)
    (hu : ∀ name ∈ u.convention.storeName?, Text.IsPlain name) :
    Tells [[']', ' ']] t.text.toList u.text.toList
      (t.convention = u.convention ∧ t.collation = u.collation) := by
  have hcollation : ∀ c ∈ Option.guard (!List.isEmpty ·) t.collation,
      ∀ d ∈ Option.guard (!List.isEmpty ·) u.collation,
        Tells [[']', ' ']] (Collation.text c).toList (Collation.text d).toList (c = d) :=
    fun c _ d _ => Collation.text_tells c d
  rw [text_toList, text_toList]
  refine ((Convention.text_tells (by decide) ht hu).beforeOptional ?_ hcollation).imp ?_
  · exact Text.apart_of_not_prefix (by decide)
  · rintro ⟨hconvention, hcollation⟩
    refine ⟨hconvention, rel_of_guard ?_ hcollation⟩
    intro hc hd
    rw [List.isEmpty_iff.mp hc, List.isEmpty_iff.mp hd]

/-- Fragments of one text: the same query is sent. -/
structure Fragment.ReadsAs (f g : Fragment) : Prop where
  backend : f.backend = g.backend
  clause : f.clause = g.clause
  body : f.body.text = g.body.text

theorem Fragment.ReadsAs.text_eq {f g : Fragment} (h : f.ReadsAs g) : f.text = g.text := by
  rw [text, text, h.backend, h.clause, h.body]

theorem Clause.name_spec (c : Clause) : ' ' ∉ c.name.toList ∧
    ∀ c' : Clause, c.name.toList = c'.name.toList → c = c' := by
  cases c with
  | _ =>
    refine ⟨by decide, ?_⟩
    intro c' h
    cases c' with
    | _ => first | rfl | exact absurd h (by decide)

theorem Fragment.readsAs_of_text {f g : Fragment} (h : f.text.toList = g.text.toList) :
    f.ReadsAs g := by
  have hcolon (b : Backend) : ':' ∉ b.name.toList :=
    fun hmem => b.name_marks ':' hmem List.mem_cons_self
  simp only [text, String.toList_append, List.append_assoc] at h
  obtain ⟨hbackend, hclause⟩ := Text.eq_of_append_cons (hcolon _) (hcolon _) h
  obtain ⟨hclause, hbody⟩ := Text.eq_of_append_cons f.clause.name_spec.1 g.clause.name_spec.1 hclause
  exact ⟨Backend.name_injective (String.toList_inj.mp hbackend), f.clause.name_spec.2 _ hclause,
    String.toList_inj.mp hbody⟩

namespace Node

/-- The names in a node: of stores, tables and fields. -/
def names (n : Node) : List String :=
  n.convention.storeName?.toList ++ n.op.names ++ n.row.names

def IsPlain (n : Node) : Prop := ∀ s ∈ n.names, Text.IsPlain s

instance (n : Node) : Decidable n.IsPlain := List.decidableBAll _ n.names

/-- Nodes that agree in all that a label and a row type show. -/
structure ReadsAs (k n : Node) : Prop where
  op : k.op.ReadsAs n.op
  convention : k.convention = n.convention
  collation : k.traits.collation = n.traits.collation
  row : k.row = n.row
  native : Option.Rel Fragment.ReadsAs k.native n.native

variable {k n : Node}

theorem IsPlain.convention (h : n.IsPlain) :
    ∀ name ∈ n.convention.storeName?, Text.IsPlain name :=
  fun name hname => h name (by simp [names, Option.mem_def.mp hname])

theorem IsPlain.op (h : n.IsPlain) : ∀ name ∈ n.op.names, Text.IsPlain name :=
  fun name hname => h name (by simp [names, hname])

theorem IsPlain.row (h : n.IsPlain) : ∀ name ∈ n.row.names, Text.IsPlain name :=
  fun name hname => h name (by simp [names, hname])

/-- The fragment in a label. -/
def nativeText (n : Node) : List Char :=
  n.native.elim [] fun f => " native=".toList ++ f.text.toList

theorem label_toList (n : Node) : n.label.toList = n.kind.name.toList ++
    ' ' :: '[' :: (n.traits.text.toList ++ [']', ' '] ++ n.op.describe.toList ++ n.nativeText) := by
  rcases n with ⟨op, traits, row, _ | f⟩
  all_goals
    simp only [label, nativeText, String.toList_append, List.append_assoc]
    rfl

theorem native_of_nativeText (h : k.nativeText = n.nativeText) :
    Option.Rel Fragment.ReadsAs k.native n.native := by
  unfold nativeText at h
  cases hk : k.native <;> cases hn : n.native <;> rw [hk, hn] at h
  · exact .none
  · cases h
  · cases h
  · exact .some (Fragment.readsAs_of_text (List.append_cancel_left h))

/-- A label, with something after a blank behind it, tells what stands in it before the
    fragment. -/
theorem label_tells (hconvention : ∀ name ∈ k.convention.storeName?, Text.IsPlain name)
    (hconvention' : ∀ name ∈ n.convention.storeName?, Text.IsPlain name)
    (hop : ∀ name ∈ k.op.names, Text.IsPlain name) (hop' : ∀ name ∈ n.op.names, Text.IsPlain name)
    {rest rest' : List Char} (h : k.label.toList ++ ' ' :: rest = n.label.toList ++ ' ' :: rest') :
    ((k.convention = n.convention ∧ k.traits.collation = n.traits.collation) ∧
      k.op.ReadsAs n.op) ∧ k.nativeText ++ ' ' :: rest = n.nativeText ++ ' ' :: rest' := by
  simp only [label_toList, List.append_assoc, List.cons_append] at h
  obtain ⟨hkind, htail⟩ := Text.eq_of_append_cons (RelKind.name_spec _).1 (RelKind.name_spec _).1 h
  have hinside := (List.cons.inj htail).2
  have hparts : Tells [[' ']] (k.traits.text.toList ++ [']', ' '] ++ k.op.describe.toList)
      (n.traits.text.toList ++ [']', ' '] ++ n.op.describe.toList)
      ((k.convention = n.convention ∧ k.traits.collation = n.traits.collation) ∧
        k.op.ReadsAs n.op) :=
    (Traits.text_tells hconvention hconvention').closed_append
      (RelOp.describe_tells ((RelKind.name_spec _).2 _ hkind) hop hop')
  have hgoes (n : Node) (rest : List Char) : GoesOn [[' ']] (n.nativeText ++ ' ' :: rest) := by
    unfold nativeText
    cases n.native with
    | none => exact ⟨[' '], List.mem_singleton_self [' '], List.prefix_append [' '] _⟩
    | some f => exact ⟨[' '], List.mem_singleton_self [' '], List.prefix_append [' '] _⟩
  exact hparts _ _ (hgoes k rest) (hgoes n rest')
    (by simpa only [List.append_assoc, List.cons_append, List.nil_append] using hinside)

/-- A label, before the row type, tells all of a node that it shows. -/
theorem readsAs_of_label (hk : k.IsPlain) (hn : n.IsPlain) (hrow : k.row = n.row)
    (h : k.label.toList ++ [' '] = n.label.toList ++ [' ']) : k.ReadsAs n := by
  obtain ⟨⟨⟨hconvention, hcollation⟩, hop⟩, hnative⟩ :=
    label_tells hk.convention hn.convention hk.op hn.op h
  exact ⟨hop, hconvention, hcollation, hrow, native_of_nativeText (List.append_cancel_right hnative)⟩

theorem ReadsAs.label_eq (h : k.ReadsAs n) : k.label = n.label := by
  refine String.toList_inj.mp ?_
  have htraits : k.traits.text = n.traits.text := by
    have hconvention : k.traits.convention = n.traits.convention := h.convention
    rw [Traits.text, Traits.text, hconvention, h.collation]
  have hnative : k.nativeText = n.nativeText := by
    unfold nativeText
    rcases k with ⟨_, _, _, f⟩
    rcases n with ⟨_, _, _, g⟩
    cases h.native with
    | none => rfl
    | some hfragment =>
      simp only [Option.elim_some]
      rw [hfragment.text_eq]
  rw [label_toList, label_toList, kind, kind, h.op.kind_eq, htraits, h.op.describe_eq, hnative]

end Node

/-! ### Digests -/

namespace Memo

variable {k n : Node} {gs hs : List GroupId}

/-- Nodes of one digest read alike. -/
theorem readsAs_of_digestText (hk : k.IsPlain) (hn : n.IsPlain) (hgs : gs.length ≤ 1)
    (hhs : hs.length ≤ 1) (h : digestText k hs = digestText n gs) : k.ReadsAs n := by
  have hparts (n : Node) (gs : List GroupId) {inner : List Char}
      (hinner : n.row.text.toList = '(' :: inner) :
      (digestText n gs).toList = (n.label.toList ++ [' '] ++ '(' :: inner) ++
        '(' :: ((String.intercalate "," (gs.map GroupId.text)).toList ++ [')']) := by
    simp only [digestText, String.toList_append, hinner, List.append_assoc]
    rfl
  obtain ⟨inner, hinner, hparen⟩ := RowType.exists_text hk.row
  obtain ⟨inner', hinner', hparen'⟩ := RowType.exists_text hn.row
  have hlist := congrArg String.toList h
  rw [hparts k hs hinner, hparts n gs hinner'] at hlist
  obtain ⟨hfront, -⟩ := Text.eq_of_append_cons_right (paren_notMem_groupsText hhs)
    (paren_notMem_groupsText hgs) hlist
  obtain ⟨hlabel, hrow⟩ := Text.eq_of_append_cons_right hparen hparen' hfront
  have hgoes : GoesOn [[]] [] := ⟨[], List.mem_singleton_self [], List.nil_prefix⟩
  have hrows : k.row = n.row := by
    refine (RowType.text_tells hk.row hn.row [] [] hgoes hgoes ?_).1
    rw [hinner, hinner', hrow]
  exact Node.readsAs_of_label hk hn hrows hlabel

/-- Nodes with plain names have one digest if they read alike, and only then. -/
theorem digestText_eq_iff (hk : k.IsPlain) (hn : n.IsPlain) (hhs : hs.length = k.inputs.length)
    (hgs : gs.length = n.inputs.length) :
    digestText k hs = digestText n gs ↔ k.ReadsAs n ∧ hs = gs := by
  constructor
  · intro h
    obtain ⟨-, -, hgroups⟩ := digestText_inj hgs hhs h
    refine ⟨readsAs_of_digestText hk hn ?_ ?_ h, hgroups⟩
    · exact hgs ▸ length_inputs_le n
    · exact hhs ▸ length_inputs_le k
  · rintro ⟨hreads, rfl⟩
    rw [digestText, digestText, hreads.label_eq, hreads.row]

/-! ### Nodes that are known -/

variable {α : Type} {m m' : Memo α} {target : Option GroupId} {id : NodeId}

/-- Without a group to join, an insertion leaves all nodes where they are. -/
theorem Inserted.groupOf_eq (hm : m.WellFormed) (h : m.Inserted n gs none id m') {i : NodeId}
    (hi : i.n < m.size) : m'.groupOf i = m.groupOf i := by
  cases h with
  | known _ => rfl
  | @opened rows _ => rw [groupOf_entered_of_lt (hm.openGroup rows) hi, groupOf_openGroup]

/-- A node with the label, the row type and the inputs of one that is entered is not
    entered again, whatever else is in it. -/
theorem Reachable.insert_alike [Quantity α] (hm : m.Reachable)
    (hinsert : m.insert n none = .ok (id, m')) (hlabel : k.label = n.label) (hrow : k.row = n.row)
    (hinputs : k.inputs = n.inputs) : m'.insert k none = .ok (id, m') := by
  have hends : Ends (fun _ => True) (m.insert n none) _ :=
    insert_ends hm.wellFormed (.inr fun _ => trivial)
  obtain ⟨gs, hgs, hinserted⟩ := hends.result hinsert
  have hstay : ∀ i ∈ n.inputs, m'.groupOf i = m.groupOf i := by
    intro i hi
    obtain ⟨g, -, hg⟩ := exists_of_forall₂_left (mapM_eq_ok.mp hgs) i hi
    exact hinserted.groupOf_eq hm.wellFormed (hm.wellFormed.lt_size_of_groupOf hg)
  have hgroups : k.inputs.mapM m'.groupOf = .ok gs := by rw [hinputs, mapM_congr hstay, hgs]
  have hdown := (hm.insert (by simp) hinsert).wellFormed.mergesDown
  refine insert_of_known hdown hgroups ?_ (by simp)
  rw [digestText, hlabel, hrow]
  exact hinserted.digest_known

/-- The scan of a table without columns. -/
def scanOf (t : TableRef) (d : Distribution) : Node := ⟨.scan t, { distribution := d }, ⟨[]⟩, none⟩

/-- A memo with one scan. -/
def scanned (t : TableRef) : Memo Float :=
  (({ defaultRows := 100 } : Memo Float).openGroup (estimateRows (scanOf t .any) [] 100)).2.entered
    (scanOf t .any) (digestText (scanOf t .any) []) ⟨0⟩

theorem insert_scanOf (t : TableRef) :
    ({ defaultRows := 100 } : Memo Float).insert (scanOf t .any) none = .ok (⟨0⟩, scanned t) := by
  refine except_bind_eq_ok.mpr ⟨_, rfl, ?_⟩
  rw [Std.TreeMap.getElem?_emptyc]
  rfl

/-- A node that a memo answers with an older one has the operator, the kind of engine and
    the groups of the inputs in common with that one.  If their names are plain, they agree
    in all that labels and row types show. -/
theorem Reachable.insert_identifies [Quantity α] (hm : m.Reachable)
    (hinsert : m.insert n target = .ok (id, m')) (hknown : id.n < m.size) :
    ∃ k gs, m.node id = .ok k ∧ k.kind = n.kind ∧ k.convention.rank = n.convention.rank ∧
      k.inputs.mapM m.groupOf = .ok gs ∧ n.inputs.mapM m.groupOf = .ok gs ∧
      (k.IsPlain → n.IsPlain → k.ReadsAs n) := by
  have hends : Ends (fun _ => True) (m.insert n target) _ :=
    insert_ends hm.wellFormed (.inr fun _ => trivial)
  obtain ⟨gs, hgs, hinserted⟩ := hends.result hinsert
  have hkeeps : m.Keeps n id := by
    cases hinserted with
    | known hdigest => exact keeps_of_digest hm.wellFormed hgs hdigest
    | merged hdigest _ => exact keeps_of_digest hm.wellFormed hgs hdigest
    | joined _ => exact absurd hknown (Nat.lt_irrefl _)
    | opened _ => exact absurd hknown (Nat.lt_irrefl _)
  obtain ⟨k, hs, hk, hlength, hlength', hdigest, hhs, hhs'⟩ := hkeeps.exists_digest
  obtain ⟨hkind, hrank, -⟩ := digestText_inj hlength' hlength hdigest
  refine ⟨k, hs.map m.find, hk, hkind, hrank, hhs, hhs', ?_⟩
  intro hplain hplain'
  exact ((digestText_eq_iff hplain hplain' hlength hlength').mp hdigest).1

/-- Another table of the same name, with its rows on one site, is taken for the table that
    is scanned. -/
theorem insert_identifies_orders : ∃ k, (scanned ⟨⟨1⟩, "shop", "orders", none⟩).node ⟨0⟩ = .ok k ∧
    k.ReadsAs (scanOf ⟨⟨2⟩, "shop", "orders", none⟩ .single) := by
  let m := scanned ⟨⟨1⟩, "shop", "orders", none⟩
  have hempty : ({ defaultRows := 100 } : Memo Float).Reachable := .empty 100
  have hreachable : m.Reachable := .insert hempty (by simp) (insert_scanOf _)
  have hagain : m.insert (scanOf ⟨⟨2⟩, "shop", "orders", none⟩ .single) none = .ok (⟨0⟩, m) :=
    hempty.insert_alike (insert_scanOf _) rfl rfl rfl
  obtain ⟨k, gs, hk, -, -, -, -, hreads⟩ := hreachable.insert_identifies hagain (by decide)
  refine ⟨k, hk, hreads ?_ (by decide)⟩
  cases hk
  decide

/-- Two tables with other names, and still one text: the scan of the second one is answered
    with the scan of the first one. -/
theorem insert_scan_of_another_table : ∃ (m : Memo Float) (t u : TableRef), m.Reachable ∧
    m.node ⟨0⟩ = .ok (scanOf t .any) ∧ m.insert (scanOf u .any) none = .ok (⟨0⟩, m) ∧
    t.id ≠ u.id ∧ t.space ≠ u.space ∧ t.name ≠ u.name := by
  have hempty : ({ defaultRows := 100 } : Memo Float).Reachable := .empty 100
  refine ⟨scanned ⟨⟨1⟩, "a", "b.c", none⟩, ⟨⟨1⟩, "a", "b.c", none⟩, ⟨⟨2⟩, "a.b", "c", none⟩,
    .insert hempty (by simp) (insert_scanOf _), rfl, ?_, by decide, by decide, by decide⟩
  exact hempty.insert_alike (insert_scanOf _) (by decide) rfl rfl

end Memo

end Polystore
