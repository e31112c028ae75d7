import Polystore.Proofs.JsonMembers

/-
  Polystore/Proofs/DocumentPaths.lean
  ===================================
  **Paths in documents.**  Where the stage of a pipeline names a field, points in the name
  lead into subdocuments.  So `a` and `a.b` are places of which one holds the other, and
  a document has no room for both: such names clash, as a name does with itself.

  What is put at a path is found there, and at all other paths that do not clash with it
  the document stays as it was.
-/

namespace Polystore.Document

/-! ### Names as paths -/

/-- The members that lead to the place of a name. -/
def pathOf (name : String) : List String := (name.toList.splitOn '.').map String.ofList

/-- Whether a store takes a text for the name of a member. -/
def isStep (s : String) : Bool := s.toList.head?.any (· ≠ '$')

def isPath (name : String) : Bool := (pathOf name).all isStep

/-- Whether a store takes a text for the name of a member at the top. -/
def isPlain (name : String) : Bool := isStep name && !name.toList.contains '.'

/-- One name is the other one's or leads to it. -/
def Clash (m n : String) : Prop := pathOf m <+: pathOf n ∨ pathOf n <+: pathOf m

instance (m n : String) : Decidable (Clash m n) :=
  inferInstanceAs (Decidable (pathOf m <+: pathOf n ∨ pathOf n <+: pathOf m))

variable {m n : String}

theorem clash_self (n : String) : Clash n n := .inl (List.prefix_refl _)

theorem Clash.symm (h : Clash m n) : Clash n m := Or.symm h

instance : Std.Symm fun m n => ¬Clash m n := ⟨fun _ _ h hclash => h hclash.symm⟩

/-- Names of places in one document, none of which holds another one. -/
abbrev NoClash (names : List String) : Prop := names.Pairwise fun m n => ¬Clash m n

theorem NoClash.nodup {names : List String} (h : NoClash names) : names.Nodup := by
  apply h.imp
  rintro m n hclash rfl
  exact hclash (clash_self m)

theorem NoClash.perm {names names' : List String} (h : NoClash names) (hperm : names.Perm names') :
    NoClash names' := by
  apply (hperm.pairwise_iff ?_).mp h
  intro m n hclash hclash'
  exact hclash hclash'.symm

theorem NoClash.of_ne {names : List String} (h : NoClash names) (hm : m ∈ names) (hn : n ∈ names)
    (hne : m ≠ n) : ¬Clash m n :=
  List.Pairwise.forall h hm hn hne

theorem pathOf_ne_nil (n : String) : pathOf n ≠ [] := by
  intro h
  exact List.splitOn_ne_nil _ _ (List.map_eq_nil_iff.mp h)

theorem pathOf_of_notMem (h : '.' ∉ n.toList) : pathOf n = [n] := by
  rw [pathOf, List.splitOn_eq_singleton h, List.map_singleton, String.ofList_toList]

theorem isPlain_iff : isPlain n = true ↔ isStep n = true ∧ '.' ∉ n.toList := by
  simp [isPlain]

theorem pathOf_of_isPlain (h : isPlain n = true) : pathOf n = [n] :=
  pathOf_of_notMem (isPlain_iff.mp h).2

theorem isPath_of_isPlain (h : isPlain n = true) : isPath n = true := by
  rw [isPath, pathOf_of_isPlain h]
  simpa using (isPlain_iff.mp h).1

theorem isPlain_append {suffix : String} (h : isPlain n = true) (hsuffix : '.' ∉ suffix.toList) :
    isPlain (n ++ suffix) = true := by
  obtain ⟨hstep, hdot⟩ := isPlain_iff.mp h
  rw [isPlain_iff, isStep, String.toList_append]
  constructor
  · cases hn : n.toList with
    | nil => simp [isStep, hn] at hstep
    | cons c rest => simpa [isStep, hn] using hstep
  · simp [hdot, hsuffix]

theorem pathOf_append_dot {s : String} (hs : '.' ∉ s.toList) (n : String) :
    pathOf (s ++ "." ++ n) = s :: pathOf n := by
  have hsplit : (s ++ "." ++ n).toList.splitOn '.' = s.toList :: n.toList.splitOn '.' := by
    simp [String.toList_append, List.splitOn_append_cons_self_of_not_mem hs]
  rw [pathOf, hsplit, List.map_cons, String.ofList_toList, pathOf]

/-! ### Reading and writing at a path -/

/-- What a value holds at a path. -/
def valueAt : List String → Json → Option Json
  | [], j => some j
  | s :: rest, .object members => (Json.lookup s members).bind (valueAt rest)
  | _ :: _, _ => none

/-- The members of the subdocument of a name, none without one. -/
def subdocument (s : String) (members : Json.Members) : Json.Members :=
  match Json.lookup s members with
  | some (.object sub) => sub
  | _ => []

/-- Put a value at a path. -/
def put : List String → Json → Json.Members → Json.Members
  | [], _, members => members
  | [s], v, members => Json.insert s v members
  | s :: t :: rest, v, members =>
    Json.insert s (.object (put (t :: rest) v (subdocument s members))) members

variable {p q : List String} {v : Json} {members : Json.Members}

theorem valueAt_object (s : String) (rest : List String) (members : Json.Members) :
    valueAt (s :: rest) (.object members) = (Json.lookup s members).bind (valueAt rest) := rfl

theorem valueAt_singleton (s : String) (members : Json.Members) :
    valueAt [s] (.object members) = Json.lookup s members :=
  Option.bind_fun_some _

theorem valueAt_nil_object (hp : p ≠ []) : valueAt p (.object []) = none := by
  cases p with
  | nil => exact absurd rfl hp
  | cons s rest => rfl

/-- Below a name, a document is its subdocument. -/
theorem valueAt_subdocument (hq : q ≠ []) (s : String) (members : Json.Members) :
    valueAt q (.object (subdocument s members)) = (Json.lookup s members).bind (valueAt q) := by
  unfold subdocument
  obtain ⟨t, rest, rfl⟩ := List.exists_cons_of_ne_nil hq
  cases Json.lookup s members with
  | none => rfl
  | some j => cases j <;> rfl

theorem valueAt_put_self (hp : p ≠ []) (v : Json) (members : Json.Members) :
    valueAt p (.object (put p v members)) = some v := by
  induction p generalizing members with
  | nil => exact absurd rfl hp
  | cons s rest ih =>
    cases rest with
    | nil =>
      rw [put, valueAt_object, Json.lookup_insert, if_pos rfl]
      rfl
    | cons t rest =>
      rw [put, valueAt_object, Json.lookup_insert, if_pos rfl]
      exact ih (List.cons_ne_nil t rest) (subdocument s members)

/-- Elsewhere a document stays as it was. -/
theorem valueAt_put (hpq : ¬p <+: q) (hqp : ¬q <+: p) (v : Json) (members : Json.Members) :
    valueAt q (.object (put p v members)) = valueAt q (.object members) := by
  induction p generalizing q members with
  | nil => exact absurd List.nil_prefix hpq
  | cons s rest ih =>
    cases q with
    | nil => exact absurd List.nil_prefix hqp
    | cons t below =>
      rw [List.cons_prefix_cons] at hpq hqp
      by_cases hst : s = t
      · subst hst
        cases rest with
        | nil => exact absurd ⟨rfl, List.nil_prefix⟩ hpq
        | cons u rest =>
          have hbelow : below ≠ [] := by
            rintro rfl
            exact hqp ⟨rfl, List.nil_prefix⟩
          have hinside := ih (fun h => hpq ⟨rfl, h⟩) (fun h => hqp ⟨rfl, h⟩) (subdocument s members)
          rw [put, valueAt_object, Json.lookup_insert, if_pos rfl]
          exact hinside.trans (valueAt_subdocument hbelow s members)
      · have hother (w : Json) :
            Json.lookup t (Json.insert s w members) = Json.lookup t members := by
          rw [Json.lookup_insert, if_neg hst]
        cases rest with
        | nil => rw [put, valueAt_object, hother, valueAt_object]
        | cons u rest => rw [put, valueAt_object, hother, valueAt_object]

end Polystore.Document
