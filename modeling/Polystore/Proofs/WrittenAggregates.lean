import Polystore.Proofs.GroupStages

/-
  Polystore/Proofs/WrittenAggregates.lean
  =======================================
  **The stages that are written for an aggregate.**  The keys of a group are what
  identifies it: the value of one key, or a record of several.  Each call adds an
  accumulator of the call's name; a sum is accompanied by a count of its values, because
  without any the store's sum is zero.  A `$project` stage takes the keys out of `_id` and
  the calls' results by their names.

  One call extends the stages by what is added for it (`addCall_eq_some`), and so do all
  calls together (`addCalls_eq_some`).  A name that is taken in the `$group` stage is
  refused, so that all accumulators stand beside each other; nothing of the kind is known
  of the outputs.
-/

namespace Polystore

/-- How a call combines values, unless it counts them. -/
def AggKind.combination? : AggKind → Option Document.Combination
  | count => none
  | sum => some .sum
  | min => some .least
  | max => some .greatest
  | avg => some .mean

namespace Document

variable {ctx : PushContext} {a : Aggregation} {names : List String} {f : Fragment}

/-! ### The keys -/

/-- The part of a key with a name. -/
def ReadsKey (ctx : PushContext) (k : Nat × String) (part : String × Formula) : Prop :=
  ∃ s, ctx.name? k.1 = some s ∧ part = (k.2, .path s)

/-- What identifies the groups of keys with names, and the outputs of the keys. -/
inductive KeyParts (ctx : PushContext) :
    List (Nat × String) → GroupId → List (String × Formula) → Prop where
  | one {i : Nat} {n s : String} (hs : ctx.name? i = some s) :
    KeyParts ctx [(i, n)] (.value (.path s)) [(n, .path "_id")]
  | many {l : List (Nat × String)} {parts : List (String × Formula)} (hl : 2 ≤ l.length)
    (hparts : List.Forall₂ (ReadsKey ctx) l parts) :
    KeyParts ctx l (.record parts) (l.map fun k => (k.2, .path ("_id." ++ k.2)))

section

variable {l : List (Nat × String)} {id : GroupId} {outs : List (String × Formula)}

theorem keyMembers_eq_some {members outs : Json.Members}
    (h : keyMembers ctx l = some (members, outs)) :
    ∃ parts, List.Forall₂ (ReadsKey ctx) l parts ∧ members = written Formula.json parts ∧
      outs = written Formula.json (l.map fun k => (k.2, .path ("_id." ++ k.2))) := by
  induction l generalizing members outs with
  | nil =>
    obtain ⟨rfl, rfl⟩ := Prod.mk.inj (Option.some.inj h)
    exact ⟨[], .nil, rfl, rfl⟩
  | cons k rest ih =>
    obtain ⟨s, hs, h⟩ := path?_bind_eq_some.mp h
    obtain ⟨⟨members', outs'⟩, hrest, h⟩ := Option.bind_eq_some_iff.mp h
    obtain ⟨rfl, rfl⟩ := Prod.mk.inj (Option.some.inj h)
    obtain ⟨parts, hparts, rfl, rfl⟩ := ih hrest
    refine ⟨(k.2, .path s) :: parts, .cons ⟨s, hs, rfl⟩ hparts, rfl, ?_⟩
    have hpath : "$_id." ++ k.2 = "$" ++ ("_id." ++ k.2) := by
      rw [← String.append_assoc]
      rfl
    rw [hpath]
    rfl

theorem keys_eq_some {p : Pipeline} (h : keys ctx l = some p) :
    ∃ id outs, KeyParts ctx l id outs ∧ p.group = [("_id", id.json)] ∧
      p.project = (written Formula.json outs).foldl (fun m (n, v) => Json.insert n v m) [] := by
  unfold keys at h
  split at h
  · cases h
  · obtain ⟨s, hs, h⟩ := path?_bind_eq_some.mp h
    obtain rfl := Option.some.inj h
    exact ⟨_, _, .one hs, rfl, rfl⟩
  · rename_i hnil hone
    simp only [Option.bind_eq_bind, Option.bind_eq_some_iff, Option.some.injEq] at h
    obtain ⟨⟨members, outs⟩, hmembers, rfl⟩ := h
    obtain ⟨parts, hparts, rfl, rfl⟩ := keyMembers_eq_some hmembers
    have hl : 2 ≤ l.length := by
      rcases l with _ | ⟨k, _ | ⟨k', rest⟩⟩
      · exact absurd rfl hnil
      · exact absurd rfl (hone k.1 k.2)
      · simp
    exact ⟨_, _, .many hl hparts, rfl, rfl⟩

theorem names_of_keyParts (h : KeyParts ctx l id outs) : outs.map (·.1) = l.map (·.2) := by
  cases h with
  | one _ => rfl
  | many _ _ => simp

theorem names_of_readsKey {parts : List (String × Formula)}
    (h : List.Forall₂ (ReadsKey ctx) l parts) : parts.map (·.1) = l.map (·.2) := by
  induction h with
  | nil => rfl
  | cons hp _ ih =>
    obtain ⟨s, -, rfl⟩ := hp
    rw [List.map_cons, List.map_cons, ih]

end

/-! ### The calls -/

/-- The name of the count beside a sum. -/
def seen (name : String) : String := name ++ "__nonnull"

/-- A sum, if it is one of any values. -/
def sumOutput (name : String) : Formula :=
  .choose (.greater (.path (seen name)) (.number 0)) (.path name) .null

/-- The accumulators for a call with a name, and the formula of its output. -/
inductive CallParts (ctx : PushContext) (c : AggCall) (name : String) :
    List (String × Accumulator) → Formula → Prop where
  | rows (hkind : c.kind = .count) (hargs : c.args = []) :
    CallParts ctx c name [(name, ⟨.sum, .number 1⟩)] (.path name)
  | present {i : Nat} {s : String} (hkind : c.kind = .count) (hargs : c.args = [i])
    (hs : ctx.name? i = some s) :
    CallParts ctx c name [(name, ⟨.sum, .presence s⟩)] (.path name)
  | total {i : Nat} {s : String} (hkind : c.kind = .sum) (hargs : c.args = [i])
    (hs : ctx.name? i = some s) :
    CallParts ctx c name [(seen name, ⟨.sum, .presence s⟩), (name, ⟨.sum, .path s⟩)]
      (sumOutput name)
  | chosen {i : Nat} {s : String} {k : Combination} (hkind : c.kind.combination? = some k)
    (hsum : k ≠ .sum) (hargs : c.args = [i]) (hs : ctx.name? i = some s) :
    CallParts ctx c name [(name, ⟨k, .path s⟩)] (.path name)

/-- What a call adds to the stages. -/
structure CallPart where
  name : String
  accumulators : List (String × Accumulator)
  output : Formula

/-- A part is what is added for a call with a name. -/
structure Adds (ctx : PushContext) (c : AggCall × String) (part : CallPart) : Prop where
  name : part.name = c.2
  plain : c.1.distinct = false ∧ c.1.filter = none
  parts : CallParts ctx c.1 c.2 part.accumulators part.output

/-- The accumulators of all calls. -/
def accumulatorsOf (parts : List CallPart) : List (String × Accumulator) :=
  parts.flatMap (·.accumulators)

/-- The outputs of all calls. -/
def outputsOf (parts : List CallPart) : List (String × Formula) :=
  parts.map fun part => (part.name, part.output)

theorem names_of_adds {l : List (AggCall × String)} {parts : List CallPart}
    (h : List.Forall₂ (Adds ctx) l parts) : (outputsOf parts).map (·.1) = l.map (·.2) := by
  induction h with
  | nil => rfl
  | cons hadds _ ih =>
    rw [outputsOf, List.map_cons, List.map_cons, List.map_cons, hadds.name]
    exact congrArg _ ih

/-- A pipeline goes over into one with more accumulators, under new names, and more
    outputs. -/
structure Pipeline.Extends (p p' : Pipeline) (accs : List (String × Accumulator))
    (outs : List (String × Formula)) : Prop where
  fresh : (p.group.map (·.1) ++ accs.map (·.1)).Nodup
  group : p'.group =
    (written Accumulator.json accs).foldl (fun m (n, v) => Json.insert n v m) p.group
  project : p'.project =
    (written Formula.json outs).foldl (fun m (n, v) => Json.insert n v m) p.project

section

variable {p q p' : Pipeline} {c : AggCall} {name : String}

theorem Pipeline.Extends.trans {accs accs' : List (String × Accumulator)}
    {outs outs' : List (String × Formula)} (hascending : Json.Ascending p.group)
    (h : p.Extends q accs outs) (h' : q.Extends p' accs' outs') :
    p.Extends p' (accs ++ accs') (outs ++ outs') := by
  constructor
  · have hperm : (q.group.map (·.1)).Perm (p.group.map (·.1) ++ accs.map (·.1)) := by
      rw [h.group, ← names_written Accumulator.json accs, ← List.map_append]
      apply List.Perm.map
      apply Json.foldl_insert_perm hascending
      rw [List.map_append, names_written]
      exact h.fresh
    rw [List.map_append, ← List.append_assoc]
    exact (hperm.append_right _).nodup_iff.mp h'.fresh
  · rw [h'.group, h.group, written_append, List.foldl_append]
  · rw [h'.project, h.project, written_append, List.foldl_append]

theorem add_eq_some {accumulator output : Json} :
    p.add name accumulator output = some p' ↔ name ∉ p.group.map (·.1) ∧
      p' = ⟨Json.insert name accumulator p.group, Json.insert name output p.project⟩ := by
  unfold Pipeline.add
  by_cases hname : Json.hasMember name p.group = true
  · simp [hname, Json.hasMember_iff.mp hname]
  · simp [hname, mt Json.hasMember_iff.mpr hname, eq_comm]

theorem add_extends {acc : Accumulator} {out : Formula} (hgroup : (p.group.map (·.1)).Nodup)
    (h : p.add name acc.json out.json = some p') : p.Extends p' [(name, acc)] [(name, out)] := by
  obtain ⟨hname, rfl⟩ := add_eq_some.mp h
  exact ⟨List.concat_eq_append ▸ hgroup.concat hname, rfl, rfl⟩

theorem addSum_extends {s : String} (hgroup : (p.group.map (·.1)).Nodup)
    (h : p.addSum name ("$" ++ s) = some p') :
    p.Extends p' [(seen name, ⟨.sum, .presence s⟩), (name, ⟨.sum, .path s⟩)]
      [(name, sumOutput name)] := by
  unfold Pipeline.addSum at h
  by_cases hseen : Json.hasMember (name ++ "__nonnull") p.group = true
  · rw [if_pos hseen] at h
    cases h
  · rw [if_neg hseen, add_eq_some, Json.mem_names_insert, not_or] at h
    obtain ⟨⟨hne, hname⟩, rfl⟩ := h
    refine ⟨?_, rfl, rfl⟩
    have hnames : [seen name, name].Nodup := by
      rw [List.nodup_cons, List.mem_singleton]
      exact ⟨Ne.symm hne, List.nodup_singleton _⟩
    apply hgroup.append hnames
    intro n hn hmem
    rcases List.mem_cons.mp hmem with rfl | hmem
    · exact hseen (Json.hasMember_iff.mpr hn)
    · obtain rfl := List.mem_singleton.mp hmem
      exact hname hn

theorem addCall_eq_some (hgroup : (p.group.map (·.1)).Nodup)
    (h : p.addCall ctx c name = some p') :
    ∃ part, Adds ctx (c, name) part ∧
      p.Extends p' part.accumulators [(part.name, part.output)] := by
  unfold Pipeline.addCall at h
  split at h
  · cases h
  · rename_i hplain
    rw [Bool.or_eq_true, not_or, Bool.not_eq_true, Bool.not_eq_true,
      Option.isSome_eq_false_iff, Option.isNone_iff_eq_none] at hplain
    have hadds {accs : List (String × Accumulator)} {out : Formula}
        (hparts : CallParts ctx c name accs out) (hextends : p.Extends p' accs [(name, out)]) :
        ∃ part, Adds ctx (c, name) part ∧
          p.Extends p' part.accumulators [(part.name, part.output)] :=
      ⟨⟨name, accs, out⟩, ⟨rfl, hplain, hparts⟩, hextends⟩
    have hchosen {i : Nat} {k : Combination} (hkind : c.kind.combination? = some k)
        (hsum : k ≠ .sum) (hargs : c.args = [i])
        (h : (path? ctx i >>= fun field =>
          p.add name (.single k.name (.string field)) (.string ("$" ++ name))) = some p') :
        ∃ part, Adds ctx (c, name) part ∧
          p.Extends p' part.accumulators [(part.name, part.output)] := by
      obtain ⟨s, hs, h⟩ := path?_bind_eq_some.mp h
      exact hadds (.chosen hkind hsum hargs hs) (add_extends hgroup h)
    split at h <;> rename_i hkind hargs
    · exact hadds (.rows hkind hargs) (add_extends hgroup h)
    · obtain ⟨s, hs, h⟩ := path?_bind_eq_some.mp h
      exact hadds (.present hkind hargs hs) (add_extends hgroup h)
    · obtain ⟨s, hs, h⟩ := path?_bind_eq_some.mp h
      exact hadds (.total hkind hargs hs) (addSum_extends hgroup h)
    · exact hchosen (k := .least) (by rw [hkind]; rfl) (by decide) hargs h
    · exact hchosen (k := .greatest) (by rw [hkind]; rfl) (by decide) hargs h
    · exact hchosen (k := .mean) (by rw [hkind]; rfl) (by decide) hargs h
    · cases h

theorem addCalls_eq_some {l : List (AggCall × String)} (hascending : Json.Ascending p.group)
    (h : p.addCalls ctx l = some p') : ∃ parts, List.Forall₂ (Adds ctx) l parts ∧
      p.Extends p' (accumulatorsOf parts) (outputsOf parts) := by
  induction l generalizing p with
  | nil =>
    obtain rfl := Option.some.inj h
    refine ⟨[], .nil, ?_, rfl, rfl⟩
    simpa [accumulatorsOf] using Json.nodup_of_ascending hascending
  | cons c rest ih =>
    obtain ⟨q, hq, hrest⟩ := Option.bind_eq_some_iff.mp h
    obtain ⟨part, hadds, hextends⟩ := addCall_eq_some (Json.nodup_of_ascending hascending) hq
    have hascending' : Json.Ascending q.group := by
      rw [hextends.group]
      exact Json.ascending_foldl_insert hascending
    obtain ⟨parts, hparts, hextends'⟩ := ih hascending' hrest
    exact ⟨part :: parts, .cons hadds hparts, hextends.trans hascending hextends'⟩

end

/-! ### The stages -/

theorem map_snd_zip_eq_take {α β : Type} (l : List α) (m : List β) (h : l.length ≤ m.length) :
    (l.zip m).map (·.2) = m.take l.length := by
  induction l generalizing m with
  | nil => rfl
  | cons x l ih =>
    cases m with
    | nil => cases h
    | cons y m => exact congrArg _ (ih m (Nat.le_of_succ_le_succ h))

/-- What an aggregate's keys and calls put into the stages. -/
structure Writes (ctx : PushContext) (a : Aggregation) (names : List String) (id : GroupId)
    (keyOuts : List (String × Formula)) (parts : List CallPart) : Prop where
  length : names.length = a.key.toList.length + a.calls.length
  keys : KeyParts ctx (a.key.toList.zip names) id keyOuts
  calls : List.Forall₂ (Adds ctx) (a.calls.zip (names.drop a.key.toList.length)) parts
  fresh : ("_id" :: (accumulatorsOf parts).map (·.1)).Nodup
  names : (keyOuts ++ outputsOf parts).map (·.1) = names

theorem aggregate_eq_some (h : aggregate a names ctx = some f) :
    ∃ id keyOuts parts, Writes ctx a names id keyOuts parts ∧
      GroupPipeline.ofFragment? f = GroupPipeline.read?
        (Grouping.stage id (accumulatorsOf parts))
        (Projection.stage (keyOuts ++ outputsOf parts) true) := by
  unfold aggregate at h
  dsimp only at h
  split at h
  · cases h
  · rename_i hshape
    rw [Bool.or_eq_true, not_or, decide_eq_true_eq, decide_eq_true_eq, not_not, not_not] at hshape
    obtain ⟨p, hp, h⟩ := Option.bind_eq_some_iff.mp h
    obtain ⟨q, hq, h⟩ := Option.bind_eq_some_iff.mp h
    obtain rfl := Option.some.inj h
    obtain ⟨id, keyOuts, hkeys, hgroup, hproject⟩ := keys_eq_some hp
    have hascending : Json.Ascending p.group := hgroup ▸ List.pairwise_singleton _ _
    obtain ⟨parts, hcalls, hfresh, hgroup', hproject'⟩ := addCalls_eq_some hascending hq
    refine ⟨id, keyOuts, parts, ⟨hshape.2, hkeys, hcalls, ?_, ?_⟩, ?_⟩
    · rw [hgroup] at hfresh
      exact hfresh
    · have hlength : (names.drop a.key.toList.length).length = a.calls.length := by
        rw [List.length_drop, hshape.2, Nat.add_sub_cancel_left]
      rw [List.map_append, names_of_keyParts hkeys, names_of_adds hcalls,
        map_snd_zip_eq_take _ _ (hshape.2 ▸ Nat.le_add_right _ _), List.map_snd_zip hlength.le,
        List.take_append_drop]
    · have hstage : Json.insert "_id" (.int 0) q.project =
          Projection.stage (keyOuts ++ outputsOf parts) true := by
        rw [hproject', hproject, Projection.stage, written_append, List.foldl_append,
          List.foldl_append]
        rfl
      rw [hstage, hgroup', hgroup]
      rfl

section

variable {id : GroupId} {keyOuts : List (String × Formula)} {parts : List CallPart}

theorem Writes.keyNames (h : Writes ctx a names id keyOuts parts) :
    (a.key.toList.zip names).map (·.2) = names.take a.key.toList.length :=
  map_snd_zip_eq_take _ _ (h.length ▸ Nat.le_add_right _ _)

theorem Writes.keyFields (h : Writes ctx a names id keyOuts parts) :
    (a.key.toList.zip names).map (·.1) = a.key.toList :=
  List.map_fst_zip (h.length ▸ Nat.le_add_right _ _)

theorem Writes.length_rest (h : Writes ctx a names id keyOuts parts) :
    (names.drop a.key.toList.length).length = a.calls.length := by
  rw [List.length_drop, h.length, Nat.add_sub_cancel_left]

theorem Writes.callNames (h : Writes ctx a names id keyOuts parts) :
    (a.calls.zip (names.drop a.key.toList.length)).map (·.2) = names.drop a.key.toList.length :=
  List.map_snd_zip h.length_rest.le

theorem Writes.namedCalls (h : Writes ctx a names id keyOuts parts) :
    (a.calls.zip (names.drop a.key.toList.length)).map (·.1) = a.calls :=
  List.map_fst_zip h.length_rest.ge

theorem Writes.length_keys (h : Writes ctx a names id keyOuts parts) :
    (a.key.toList.zip names).length = a.key.toList.length := by
  rw [← List.length_map (f := (·.1)), h.keyFields]

theorem Writes.nodup_keyNames (h : Writes ctx a names id keyOuts parts) (hapart : NoClash names) :
    ((a.key.toList.zip names).map (·.2)).Nodup := by
  rw [h.keyNames]
  exact hapart.nodup.sublist (List.take_sublist _ _)

end

end Document

end Polystore
