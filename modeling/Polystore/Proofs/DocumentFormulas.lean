import Polystore.Proofs.DocumentPaths
import Polystore.Proofs.JsonComparison
import Polystore.Proofs.Outcomes
import Polystore.Pushdown.Document

/-
  Polystore/Proofs/DocumentFormulas.lean
  ======================================
  **Formulas of a document store.**  What the stages of a pipeline compute they compute
  from documents, by formulas over paths.  A formula is written in JSON, and a store that
  reads it finds it again, unless it takes one of the paths for none (`read?_json`).

  Stages are objects, with a name for each of their parts.  They too are read back as they
  were written, in an order that is of no account (`perm_of_readNamed?`).
-/

namespace Polystore

/-- The value, unless it is null. -/
def Json.nonNull? : Json → Option Json
  | .null => none
  | j => some j

namespace Document

/-! ### Formulas -/

/-- What a stage computes from a document. -/
inductive Formula where
  | path (name : String)
  | null
  | number (i : Int)
  /-- The second one where the first is missing or null. -/
  | ifNull (a b : Formula)
  | equal (a b : Formula)
  | greater (a b : Formula)
  | choose (test yes no : Formula)

namespace Formula

/-- Whether a value counts as true. -/
def isTrue : Option Json → Bool
  | none | some .null | some (.bool false) | some (.int 0) => false
  | some (.float x) => x != 0
  | some _ => true

/-- The value of a formula, if it has one.  Only what a store compares by size is
    compared. -/
def eval (doc : Json.Members) : Formula → Option Json
  | path name => valueAt (pathOf name) (.object doc)
  | null => some .null
  | number i => some (.int i)
  | ifNull a b =>
    match a.eval doc with
    | none | some .null => b.eval doc
    | some v => some v
  | equal a b =>
    match a.eval doc, b.eval doc with
    | none, none => some (.bool true)
    | some v, some w => some (.bool (v.same w))
    | _, _ => some (.bool false)
  | greater a b => do some (.bool ((← (← a.eval doc).order? (← b.eval doc)) = .gt))
  | choose test yes no => if isTrue (test.eval doc) then yes.eval doc else no.eval doc

/-- The form of a formula.  A text that begins with a dollar sign is a path. -/
def json : Formula → Json
  | path name => .string ("$" ++ name)
  | null => .null
  | number i => .int i
  | ifNull a b => .single "$ifNull" (.array [a.json, b.json])
  | equal a b => .single "$eq" (.array [a.json, b.json])
  | greater a b => .single "$gt" (.array [a.json, b.json])
  | choose t y n => .single "$cond" (.array [t.json, y.json, n.json])

def ofText? (s : String) : Option Formula :=
  match s.toList with
  | '$' :: name => if isPath (.ofList name) then some (path (.ofList name)) else none
  | _ => none

def read? : Json → Option Formula
  | .string s => ofText? s
  | .null => some null
  | .int i => some (number i)
  | .object [("$ifNull", .array [a, b])] => do some (ifNull (← read? a) (← read? b))
  | .object [("$eq", .array [a, b])] => do some (equal (← read? a) (← read? b))
  | .object [("$gt", .array [a, b])] => do some (greater (← read? a) (← read? b))
  | .object [("$cond", .array [t, y, n])] => do some (choose (← read? t) (← read? y) (← read? n))
  | _ => none
termination_by structural j => j

/-- Whether a store takes all paths of a formula for such. -/
def isKnown : Formula → Bool
  | path name => isPath name
  | null | number _ => true
  | ifNull a b | equal a b | greater a b => a.isKnown && b.isKnown
  | choose t y n => t.isKnown && y.isKnown && n.isKnown

theorem ofText?_path (name : String) :
    ofText? ("$" ++ name) = if isPath name = true then some (path name) else none := by
  have htext : ("$" ++ name).toList = '$' :: name.toList := by simp [String.toList_append]
  simp only [ofText?, htext, String.ofList_toList]

/-- Go on with what was read. -/
theorem bind_eq_some_of_read {α β : Type} {x : Option α} {p : Prop} {a : α}
    (hx : ∀ c, x = some c ↔ p ∧ c = a) {g : α → Option β} {r : β} :
    (x >>= g) = some r ↔ p ∧ g a = some r := by
  rw [Option.bind_eq_bind, Option.bind_eq_some_iff]
  constructor
  · rintro ⟨c, hc, hr⟩
    obtain ⟨hp, rfl⟩ := (hx c).mp hc
    exact ⟨hp, hr⟩
  · rintro ⟨hp, hr⟩
    exact ⟨a, (hx a).mpr ⟨hp, rfl⟩, hr⟩

/-- A formula is read as it was written. -/
theorem read?_json {φ ψ : Formula} : read? φ.json = some ψ ↔ φ.isKnown = true ∧ ψ = φ := by
  induction φ generalizing ψ with
  | path name =>
    rw [json, read?, ofText?_path, Option.ite_none_right_eq_some, Option.some.injEq, isKnown]
    exact and_congr_right fun _ => eq_comm
  | null => simp [json, read?, isKnown, eq_comm]
  | number i => simp [json, read?, isKnown, eq_comm]
  | ifNull a b iha ihb | equal a b iha ihb | greater a b iha ihb =>
    rw [json, Json.single, read?, bind_eq_some_of_read fun _ => iha,
      bind_eq_some_of_read fun _ => ihb, isKnown, Bool.and_eq_true, and_assoc, Option.some.injEq,
      eq_comm (a := ψ)]
  | choose t y n iht ihy ihn =>
    rw [json, Json.single, read?, bind_eq_some_of_read fun _ => iht,
      bind_eq_some_of_read fun _ => ihy, bind_eq_some_of_read fun _ => ihn, isKnown,
      Bool.and_eq_true, Bool.and_eq_true, and_assoc, and_assoc, Option.some.injEq, eq_comm (a := ψ)]

/-- A formula that is no bare number. -/
def readComputed? : Json → Option Formula
  | .int _ => none
  | j => read? j

def isComputed : Formula → Bool
  | number _ => false
  | φ => φ.isKnown

theorem readComputed?_json (φ ψ : Formula) :
    readComputed? φ.json = some ψ ↔ φ.isComputed = true ∧ ψ = φ := by
  cases φ with
  | number i => simp [json, readComputed?, isComputed]
  | _ => exact read?_json

end Formula

/-- A field with a name is read by its path. -/
theorem path?_bind_eq_some {α : Type} {ctx : PushContext} {i : Nat} {g : String → Option α}
    {x : α} :
    (path? ctx i >>= g) = some x ↔ ∃ s, ctx.name? i = some s ∧ g ("$" ++ s) = some x := by
  simp [path?, Option.bind_eq_some_iff]

namespace Formula

/-! ### Counts -/

/-- Ones for the documents in which a path is present and not null, zeros for the others. -/
def presence (s : String) : Formula :=
  choose (equal (ifNull (path s) null) null) (number 0) (number 1)

theorem eval_ifNull_null (φ : Formula) (doc : Json.Members) :
    (ifNull φ null).eval doc = some (((φ.eval doc).bind Json.nonNull?).getD .null) := by
  rw [eval, eval]
  cases φ.eval doc with
  | none => rfl
  | some j => cases j <;> rfl

theorem eval_presence (s : String) (doc : Json.Members) : (presence s).eval doc =
    some (.int (((path s).eval doc).bind Json.nonNull?).isSome.toNat) := by
  have hequal : (equal (ifNull (path s) null) null).eval doc =
      some (.bool (((((path s).eval doc).bind Json.nonNull?).getD .null).same .null)) := by
    conv_lhs => rw [eval, eval_ifNull_null]
    rfl
  conv_lhs => rw [presence, eval, hequal]
  cases hshown : ((path s).eval doc).bind Json.nonNull? with
  | none => rfl
  | some j =>
    have hj : j.same .null = false := by
      rw [Bool.eq_false_iff, ne_eq, Json.same_null_iff]
      rintro rfl
      obtain ⟨j, -, hnull⟩ := Option.bind_eq_some_iff.mp hshown
      cases j <;> cases hnull
    rw [Option.getD_some, hj]
    rfl

theorem isTrue_positive {φ : Formula} {doc : Json.Members} {n : Nat}
    (h : φ.eval doc = some (.int n)) :
    isTrue ((greater φ (number 0)).eval doc) = decide (0 < n) := by
  have hgreater : (greater φ (number 0)).eval doc = some (.bool (compare (n : Int) 0 = .gt)) := by
    rw [eval, h]
    rfl
  rw [hgreater]
  cases n with
  | zero => rfl
  | succ n =>
    have hcompare : compare ((n + 1 : Nat) : Int) 0 = .gt := compare_gt_iff_gt.mpr (by omega)
    rw [hcompare]
    rfl

end Formula

/-! ### Named parts -/

section

variable {α : Type}

/-- The parts of a stage with their names. -/
def written (json : α → Json) (parts : List (String × α)) : Json.Members :=
  parts.map fun p => (p.1, json p.2)

/-- Read a part, under a name that a store takes. -/
def readNamed? (takes : String → Bool) (read : Json → Option α) (m : String × Json) :
    Option (String × α) :=
  if takes m.1 then (read m.2).map (m.1, ·) else none

variable {takes : String → Bool} {read : Json → Option α} {json : α → Json} {isKnown : α → Bool}
  {parts : List (String × α)} {members : Json.Members}

theorem names_written (json : α → Json) (parts : List (String × α)) :
    (written json parts).map (·.1) = parts.map (·.1) := by
  simp [written]

theorem written_append (json : α → Json) (parts parts' : List (String × α)) :
    written json (parts ++ parts') = written json parts ++ written json parts' :=
  List.map_append

theorem readNamed?_json (h : ∀ a b, read (json a) = some b ↔ isKnown a = true ∧ b = a)
    {p o : String × α} : readNamed? takes read (p.1, json p.2) = some o ↔
      (takes p.1 = true ∧ isKnown p.2 = true) ∧ p = o := by
  simp only [readNamed?, Option.ite_none_right_eq_some, Option.map_eq_some_iff, h]
  constructor
  · rintro ⟨htakes, b, ⟨hknown, rfl⟩, rfl⟩
    exact ⟨⟨htakes, hknown⟩, rfl⟩
  · rintro ⟨⟨htakes, hknown⟩, rfl⟩
    exact ⟨htakes, _, ⟨hknown, rfl⟩, rfl⟩

/-- All parts are read if each name is taken and each part is known. -/
theorem exists_readNamed? (h : ∀ a b, read (json a) = some b ↔ isKnown a = true ∧ b = a)
    (hperm : members.Perm (written json parts)) :
    (∃ l, members.mapM (readNamed? takes read) = some l) ↔
      ∀ p ∈ parts, takes p.1 = true ∧ isKnown p.2 = true := by
  rw [exists_mapM_eq_some]
  constructor
  · intro hread p hp
    obtain ⟨o, ho⟩ := hread (p.1, json p.2) (hperm.mem_iff.mpr (List.mem_map_of_mem hp))
    exact ((readNamed?_json h).mp ho).1
  · intro hparts m hm
    obtain ⟨p, hp, rfl⟩ := List.mem_map.mp (hperm.mem_iff.mp hm)
    exact ⟨p, (readNamed?_json h).mpr ⟨hparts p hp, rfl⟩⟩

/-- The parts read are those written, in another order. -/
theorem perm_of_readNamed? (h : ∀ a b, read (json a) = some b ↔ isKnown a = true ∧ b = a)
    (hperm : members.Perm (written json parts)) {l : List (String × α)}
    (hread : members.mapM (readNamed? takes read) = some l) : l.Perm parts := by
  obtain ⟨l', hl', hsame⟩ := mapM_perm hperm hread
  have hall := mapM_eq_some.mp hl'
  rw [written, List.forall₂_map_left_iff] at hall
  have hparts : List.Forall₂ (· = ·) parts l' :=
    hall.imp fun p o ho => ((readNamed?_json h).mp ho).2
  rw [List.forall₂_eq_eq_eq] at hparts
  rw [hparts]
  exact hsame

end

end Document

end Polystore
