import Polystore.Proofs.DoubleOrder
import Polystore.Proofs.EqualValues
import Polystore.Proofs.ReadingBack

/-
  Polystore/Proofs/RangedIntegers.lean
  ====================================
  **RANGE routing of integers.**  The bounds of a BIGINT column are integers
  (`Span`), but the check of the ranges and the routing compare their doubles.  What
  the check has found apart is apart among the integers too, since rounding keeps the
  order.  Routing finds the range that contains an integer; beyond it also finds a
  range whose bound is not exceeded by the double of the integer, although it is by the
  integer itself (`Span.Touches`).  Then both are too long for a double, so that
  integers below `2 ^ 53`, and bounds below it, are told apart exactly.
-/

namespace Polystore

namespace Partition

open Number (le_trans lt_trans lt_of_lt_of_le not_lt_of_le le_of_beq beq_of_le_of_le ofInt_mono
  long_of_beq)

/-! ### Ranges of integers -/

/-- A range of a BIGINT column, with both bounds inside. -/
structure Span where
  lower : Int64
  upper : Int64

/-- The integer that a bound of a BIGINT column denotes. -/
def readInteger? (q : String) : Option Int64 :=
  (Value.parse q .bigint).toOption.bind Value.asBigint?

namespace Span

/-- The range that two bounds denote. -/
def read? : List String → Option Span
  | [lower, upper] => do return ⟨← readInteger? lower, ← readInteger? upper⟩
  | _ => none

def Contains (a : Span) (v : Int64) : Prop := a.lower ≤ v ∧ v ≤ a.upper

/-- The integer lies beyond a bound that has the same double. -/
def Touches (a : Span) (v : Int64) : Prop :=
  v < a.lower ∧ (Float.ofInt v.toInt == Float.ofInt a.lower.toInt) = true ∨
    a.upper < v ∧ (Float.ofInt v.toInt == Float.ofInt a.upper.toInt) = true

def doubles (a : Span) : Float × Float := (Float.ofInt a.lower.toInt, Float.ofInt a.upper.toInt)

def Takes (a : Span) (x : Float) : Prop := a.doubles.1 ≤ x ∧ x ≤ a.doubles.2

instance (a : Span) (x : Float) : Decidable (a.Takes x) := inferInstanceAs (Decidable (_ ∧ _))

/-- One range ends before the other begins, as doubles. -/
def Apart (a b : Span) : Prop := a.doubles.2 < b.doubles.1 ∨ b.doubles.2 < a.doubles.1

variable {a b : Span} {v : Int64} {x : Float}

theorem not_takes_both (h : a.Apart b) : ¬(a.Takes x ∧ b.Takes x) := by
  rintro ⟨⟨hlow, hhigh⟩, hlow', hhigh'⟩
  rcases h with h | h
  · exact not_lt_of_le hhigh (lt_of_lt_of_le h hlow')
  · exact not_lt_of_le hhigh' (lt_of_lt_of_le h hlow)

theorem Contains.takes (h : a.Contains v) : a.Takes (Float.ofInt v.toInt) :=
  ⟨ofInt_mono h.1, ofInt_mono h.2⟩

/-- What the doubles add to a range. -/
theorem takes_iff (hvalid : a.doubles.1 ≤ a.doubles.2) :
    a.Takes (Float.ofInt v.toInt) ↔ a.Contains v ∨ a.Touches v := by
  constructor
  · rintro ⟨hlow, hhigh⟩
    by_cases hlower : a.lower ≤ v
    · by_cases hupper : v ≤ a.upper
      · exact .inl ⟨hlower, hupper⟩
      · have hbeyond : a.upper < v := Int64.not_le.mp hupper
        exact .inr (.inr ⟨hbeyond, beq_of_le_of_le hhigh (ofInt_mono (Int64.le_of_lt hbeyond))⟩)
    · have hbelow : v < a.lower := Int64.not_le.mp hlower
      exact .inr (.inl ⟨hbelow, beq_of_le_of_le (ofInt_mono (Int64.le_of_lt hbelow)) hlow⟩)
  · rintro (h | ⟨hbelow, heq⟩ | ⟨hbeyond, heq⟩)
    · exact h.takes
    · exact ⟨le_of_beq (Number.beq_symm heq), le_trans (le_of_beq heq) hvalid⟩
    · exact ⟨le_trans hvalid (le_of_beq (Number.beq_symm heq)), le_of_beq heq⟩

/-- Only integers too long for a double touch a range, and only at bounds that are too
    long as well. -/
theorem Touches.large (h : a.Touches v) : 2 ^ 53 ≤ v.toInt.natAbs ∧
    (2 ^ 53 ≤ a.lower.toInt.natAbs ∨ 2 ^ 53 ≤ a.upper.toInt.natAbs) := by
  rcases h with ⟨hbelow, heq⟩ | ⟨hbeyond, heq⟩
  · obtain ⟨hv, hlower⟩ := long_of_beq (Int64.ne_of_lt hbelow) heq
    exact ⟨hv, .inl hlower⟩
  · obtain ⟨hv, hupper⟩ := long_of_beq (Int64.ne_of_lt hbeyond).symm heq
    exact ⟨hv, .inr hupper⟩

end Span

/-! ### What the check of the ranges says -/

theorem readBound_eq_ok {q : String} {x : Float} (h : readBound q .bigint = .ok x) :
    ∃ i, readInteger? q = some i ∧ x = Float.ofInt i.toInt := by
  unfold readBound at h
  cases hparse : Value.parse q .bigint with
  | error e =>
    rw [hparse] at h
    cases h
  | ok w =>
    have htype := Value.dataType_of_parse hparse
    obtain ⟨i, rfl⟩ : ∃ i, w = .bigint i := by
      cases w with
      | bigint i => exact ⟨i, rfl⟩
      | _ => cases htype
    refine ⟨i, by rw [readInteger?, hparse]; rfl, ?_⟩
    simp only [hparse, Except.toOption, Option.bind_some, Value.asDouble?] at h
    split at h
    · cases h
    · exact (Except.ok.inj h).symm

/-- The bounds of a BIGINT column are the doubles of a range of integers. -/
theorem bounds_eq_ok {list : List String} {b : Float × Float} (h : bounds list .bigint = .ok b) :
    ∃ a, Span.read? list = some a ∧ b = a.doubles := by
  unfold bounds at h
  split at h
  · obtain ⟨x, hx, h⟩ := except_bind_eq_ok.mp h
    obtain ⟨y, hy, h⟩ := except_bind_eq_ok.mp h
    obtain ⟨lower, hlower, rfl⟩ := readBound_eq_ok hx
    obtain ⟨upper, hupper, rfl⟩ := readBound_eq_ok hy
    refine ⟨⟨lower, upper⟩, ?_, (Except.ok.inj h).symm⟩
    simp [Span.read?, hlower, hupper]
  · cases h

/-- The ranges that are checked are those of the lists, none of them empty. -/
theorem readRanges_spans {i : Nat} {lists : List (List String)} {ranges : List Range}
    (h : readRanges .bigint i lists = .ok ranges) :
    ∃ spans : List Span, lists.map Span.read? = spans.map some ∧
      ranges.map (fun r => (r.lower, r.upper)) = spans.map Span.doubles ∧
      ∀ r ∈ ranges, r.lower ≤ r.upper := by
  induction lists generalizing i ranges with
  | nil =>
    obtain rfl := Except.ok.inj h
    exact ⟨[], rfl, rfl, by simp⟩
  | cons list rest ih =>
    obtain ⟨⟨lower, upper⟩, hbounds, h⟩ := except_bind_eq_ok.mp h
    obtain ⟨_, hvalid, h⟩ := except_bind_eq_ok.mp h
    obtain ⟨others, hrest, h⟩ := except_bind_eq_ok.mp h
    obtain rfl := Except.ok.inj h
    obtain ⟨a, ha, hdoubles⟩ := bounds_eq_ok hbounds
    obtain ⟨spans, hspans, hothers, hvalids⟩ := ih hrest
    refine ⟨a :: spans, by simp [ha, hspans], by simp [hdoubles, hothers], ?_⟩
    intro r hr
    rcases List.mem_cons.mp hr with rfl | hr
    · exact of_decide_eq_true (ensure_eq_ok.mp hvalid)
    · exact hvalids r hr

/-- Where neighbours are apart, all are: each range lies before all that follow. -/
theorem validateDisjoint_pairwise {ranges : List Range} {u : Unit}
    (h : validateDisjoint ranges = .ok u) (hvalid : ∀ r ∈ ranges, r.lower ≤ r.upper) :
    ranges.Pairwise fun a b => a.upper < b.lower := by
  induction ranges with
  | nil => exact .nil
  | cons a rest ih =>
    cases rest with
    | nil => exact List.pairwise_singleton _ _
    | cons b rest =>
      obtain ⟨_, hgap, hrest⟩ := except_bind_eq_ok.mp h
      have hab : a.upper < b.lower := of_decide_eq_true (ensure_eq_ok.mp hgap)
      have hlater := ih hrest fun r hr => hvalid r (List.mem_cons_of_mem a hr)
      refine List.pairwise_cons.mpr ⟨?_, hlater⟩
      intro c hc
      rcases List.mem_cons.mp hc with rfl | hc
      · exact hab
      · have hb : b.lower ≤ b.upper := hvalid b (by simp)
        exact lt_trans (lt_of_lt_of_le hab hb) ((List.pairwise_cons.mp hlater).1 c hc)

/-- Ranges in order of their lower bounds are compared as they come. -/
theorem validateRange_eq {r : PartitionRequest} {s : PartitionSettings} {ranges : List Range}
    (hranges : readRanges r.type 0 r.qualifiers = .ok ranges)
    (hsorted : ranges.Pairwise fun a b => decide (rank a.lower ≤ rank b.lower) = true) :
    validateRange r s = (do
      ensure r.type.isNumeric (notNumeric r.type)
      ensure (!r.qualifiers.isEmpty) (noQualifiers .range)
      ensure (r.groups = r.qualifiers.length + 1)
        (groupCount .range "ranges" r.qualifiers.length r.groups)
      validateDisjoint ranges
      validateCount .range r s) := by
  conv_rhs => rw [← List.mergeSort_of_pairwise hsorted]
  rw [validateRange, hranges]
  rfl

/-- The lists denote ranges of integers whose doubles are in order and apart. -/
structure Checked (lists : List (List String)) (spans : List Span) : Prop where
  read : lists.map Span.read? = spans.map some
  ordered : ∀ a ∈ spans, a.doubles.1 ≤ a.doubles.2
  apart : spans.Pairwise Span.Apart

/-- What the check of a RANGE partitioning of a BIGINT column has found. -/
theorem validateRange_checked {r : PartitionRequest} {s : PartitionSettings} {u : Unit}
    (htype : r.type = .bigint) (h : validateRange r s = .ok u) :
    ∃ spans, Checked r.qualifiers spans := by
  obtain ⟨_, -, h⟩ := except_bind_eq_ok.mp h
  obtain ⟨_, -, h⟩ := except_bind_eq_ok.mp h
  obtain ⟨_, -, h⟩ := except_bind_eq_ok.mp h
  obtain ⟨ranges, hranges, h⟩ := except_bind_eq_ok.mp h
  obtain ⟨_, hdisjoint, -⟩ := except_bind_eq_ok.mp h
  rw [htype] at hranges
  obtain ⟨spans, hspans, hdoubles, hvalid⟩ := readRanges_spans hranges
  have hperm := List.mergeSort_perm ranges fun a b => decide (rank a.lower ≤ rank b.lower)
  have hsorted := validateDisjoint_pairwise hdisjoint fun r hr => hvalid r (hperm.mem_iff.mp hr)
  have hapart : ranges.Pairwise fun a b => a.upper < b.lower ∨ b.upper < a.lower :=
    (hperm.pairwise_iff Or.symm).mp (hsorted.imp Or.inl)
  have hpairs : (spans.map Span.doubles).Pairwise fun p q => p.2 < q.1 ∨ q.2 < p.1 := by
    rw [← hdoubles]
    exact List.pairwise_map.mpr hapart
  refine ⟨spans, hspans, ?_, (List.pairwise_map.mp hpairs).imp id⟩
  intro a ha
  have hmem : a.doubles ∈ ranges.map fun r => (r.lower, r.upper) := by
    rw [hdoubles]
    exact List.mem_map_of_mem ha
  obtain ⟨r, hr, heq⟩ := List.mem_map.mp hmem
  rw [← heq]
  exact hvalid r hr

namespace Checked

variable {lists : List (List String)} {spans : List Span}

theorem exists_span (h : Checked lists spans) {list : List String} (hlist : list ∈ lists) :
    ∃ a ∈ spans, Span.read? list = some a := by
  have hmem : Span.read? list ∈ spans.map some := by
    rw [← h.read]
    exact List.mem_map_of_mem hlist
  obtain ⟨a, ha, heq⟩ := List.mem_map.mp hmem
  exact ⟨a, ha, heq.symm⟩

theorem lists_apart (h : Checked lists spans) : lists.Pairwise fun l l' =>
    ∀ a b, Span.read? l = some a → Span.read? l' = some b → a.Apart b := by
  have hsome : (spans.map some).Pairwise fun o o' =>
      ∀ a b, o = some a → o' = some b → a.Apart b := by
    refine List.pairwise_map.mpr (h.apart.imp ?_)
    intro a b hapart a' b' ha hb
    rwa [← Option.some.inj ha, ← Option.some.inj hb]
  rw [← h.read] at hsome
  exact List.pairwise_map.mp hsome

end Checked

/-! ### Groups -/

/-- Groups made for the lists: one a list, in any order, and one for the values that
    they leave over. -/
structure GroupsFor (lists : List (List String)) (groups : List PartitionGroup) : Prop where
  bounded : ((groups.filter (!·.unbound)).map (·.qualifiers)).Perm lists
  unbound : ∃ other, groups.filter (·.unbound) = [other]
  ids : (groups.map (·.id)).Nodup

def InRange (list : List String) (v : Int64) : Prop :=
  ∃ a, Span.read? list = some a ∧ a.Contains v

/-- The integer lies beyond a bound of the range that has the same double. -/
def AtBorder (list : List String) (v : Int64) : Prop :=
  ∃ a, Span.read? list = some a ∧ a.Touches v

def TakesDouble (list : List String) (x : Float) : Prop :=
  ∃ a, Span.read? list = some a ∧ a.Takes x

variable {groups : List PartitionGroup} {lists : List (List String)} {spans : List Span}
  {v : Int64}

namespace GroupsFor

theorem mem_lists (h : GroupsFor lists groups) {g : PartitionGroup} (hg : g ∈ groups)
    (hbound : g.unbound = false) : g.qualifiers ∈ lists := by
  have hmem : g ∈ groups.filter (!·.unbound) := List.mem_filter.mpr ⟨hg, by simp [hbound]⟩
  exact h.bounded.mem_iff.mp (List.mem_map_of_mem hmem)

theorem eq_of_id {g g' : PartitionGroup} (h : GroupsFor lists groups) (hg : g ∈ groups)
    (hg' : g' ∈ groups) (heq : g.id = g'.id) : g = g' :=
  List.inj_on_of_nodup_map h.ids hg hg' heq

theorem eq_of_unbound {g g' : PartitionGroup} (h : GroupsFor lists groups) (hg : g ∈ groups)
    (hg' : g' ∈ groups) (hunbound : g.unbound = true) (hunbound' : g'.unbound = true) : g = g' := by
  obtain ⟨other, hother⟩ := h.unbound
  have honly {x : PartitionGroup} (hx : x ∈ groups) (hopen : x.unbound = true) : x = other := by
    have hmem : x ∈ groups.filter (·.unbound) := List.mem_filter.mpr ⟨hx, hopen⟩
    rw [hother] at hmem
    exact List.mem_singleton.mp hmem
  rw [honly hg hunbound, honly hg' hunbound']

theorem takesDouble_iff (h : GroupsFor lists groups) (hchecked : Checked lists spans)
    {g : PartitionGroup} (hg : g ∈ groups) (hbound : g.unbound = false) :
    TakesDouble g.qualifiers (Float.ofInt v.toInt) ↔
      InRange g.qualifiers v ∨ AtBorder g.qualifiers v := by
  obtain ⟨a, ha, hread⟩ := hchecked.exists_span (h.mem_lists hg hbound)
  have hone := Span.takes_iff (v := v) (hchecked.ordered a ha)
  unfold TakesDouble InRange AtBorder
  rw [hread]
  simpa using hone

/-- No integer has two groups. -/
theorem eq_of_takes (h : GroupsFor lists groups) (hchecked : Checked lists spans)
    {g g' : PartitionGroup} (hg : g ∈ groups) (hg' : g' ∈ groups) (hbound : g.unbound = false)
    (hbound' : g'.unbound = false) {x : Float}
    (htakes : TakesDouble g.qualifiers x) (htakes' : TakesDouble g'.qualifiers x) : g = g' := by
  obtain ⟨a, ha, hx⟩ := htakes
  obtain ⟨b, hb, hx'⟩ := htakes'
  by_contra hne
  have hsymm : ∀ {l l' : List String},
      (∀ a b, Span.read? l = some a → Span.read? l' = some b → a.Apart b) →
        ∀ a b, Span.read? l' = some a → Span.read? l = some b → a.Apart b :=
    fun hl a b ha hb => (hl b a hb ha).symm
  have hlists := (h.bounded.pairwise_iff hsymm).mpr hchecked.lists_apart
  have hgroups : Std.Symm fun g g' : PartitionGroup => ∀ a b, Span.read? g.qualifiers = some a →
      Span.read? g'.qualifiers = some b → a.Apart b := ⟨fun _ _ => hsymm⟩
  have hapart := (List.pairwise_map.mp hlists).forall (List.mem_filter.mpr ⟨hg, by simp [hbound]⟩)
    (List.mem_filter.mpr ⟨hg', by simp [hbound']⟩) hne
  exact Span.not_takes_both (hapart a b ha hb) ⟨hx, hx'⟩

end GroupsFor

/-- Routing gives a group whose range takes the double, if there is one. -/
theorem rangeContaining?_outcome (hbounds : ∀ g ∈ groups, ∃ b, bounds g.qualifiers .bigint = .ok b)
    (x : Float) :
    (rangeContaining? .bigint x groups = .ok none ∧
        ∀ g ∈ groups, ¬TakesDouble g.qualifiers x) ∨
      ∃ g ∈ groups, rangeContaining? .bigint x groups = .ok (some g.id) ∧
        TakesDouble g.qualifiers x := by
  induction groups with
  | nil => exact .inl ⟨rfl, by simp⟩
  | cons g rest ih =>
    obtain ⟨b, hb⟩ := hbounds g (by simp)
    obtain ⟨a, ha, rfl⟩ := bounds_eq_ok hb
    have hstep : rangeContaining? .bigint x (g :: rest) =
        if a.Takes x then .ok (some g.id) else rangeContaining? .bigint x rest := by
      rw [rangeContaining?, hb]
      rfl
    rw [hstep]
    by_cases htakes : a.Takes x
    · rw [if_pos htakes]
      exact .inr ⟨g, by simp, rfl, a, ha, htakes⟩
    · rw [if_neg htakes]
      rcases ih fun g' hg' => hbounds g' (List.mem_cons_of_mem g hg') with
        ⟨hnone, hall⟩ | ⟨g', hg', htaken⟩
      · refine .inl ⟨hnone, List.forall_mem_cons.mpr ⟨?_, hall⟩⟩
        rintro ⟨a', ha', hx⟩
        rw [Option.some.inj (ha.symm.trans ha')] at htakes
        exact htakes hx
      · exact .inr ⟨g', List.mem_cons_of_mem g hg', htaken⟩

/-- The integer goes to a group whose range takes its double, or it is left over. -/
theorem targetRange_outcome (h : GroupsFor lists groups)
    (hbounds : ∀ list ∈ lists, ∃ b, bounds list .bigint = .ok b) (v : Int64) :
    ∃ g ∈ groups, targetRange groups .bigint (.bigint v) = .ok g.id ∧
      (g.unbound = false ∧ TakesDouble g.qualifiers (Float.ofInt v.toInt) ∨
        g.unbound = true ∧ ∀ g' ∈ groups, g'.unbound = false →
          ¬TakesDouble g'.qualifiers (Float.ofInt v.toInt)) := by
  have hbounds' : ∀ g ∈ groups.filter (!·.unbound), ∃ b, bounds g.qualifiers .bigint = .ok b :=
    fun g hg => hbounds _ (h.bounded.mem_iff.mp (List.mem_map_of_mem hg))
  obtain ⟨other, hother⟩ := h.unbound
  have hmem : other ∈ groups.filter (·.unbound) := by simp [hother]
  have hleft : unboundGroup groups (.bigint v) = .ok other.id := by
    rw [unboundGroup, ← List.head?_filter, hother]
    rfl
  unfold targetRange
  simp only [Value.asDouble?]
  rcases rangeContaining?_outcome hbounds' (Float.ofInt v.toInt) with
    ⟨hnone, hall⟩ | ⟨g, hg, hsome, htakes⟩
  · obtain ⟨hin, hunbound⟩ := List.mem_filter.mp hmem
    refine ⟨other, hin, ?_, .inr ⟨hunbound, fun g' hg' hbound => ?_⟩⟩
    · rw [hnone]
      exact hleft
    · exact hall g' (List.mem_filter.mpr ⟨hg', by simp [hbound]⟩)
  · obtain ⟨hin, hbound⟩ := List.mem_filter.mp hg
    refine ⟨g, hin, ?_, .inl ⟨by simpa using hbound, htakes⟩⟩
    rw [hsome]
    rfl

theorem targetRange_bounded_iff (h : GroupsFor lists groups) (hchecked : Checked lists spans)
    (hbounds : ∀ list ∈ lists, ∃ b, bounds list .bigint = .ok b) {g : PartitionGroup}
    (hg : g ∈ groups) (hbound : g.unbound = false) :
    targetRange groups .bigint (.bigint v) = .ok g.id ↔
      InRange g.qualifiers v ∨ AtBorder g.qualifiers v := by
  rw [← h.takesDouble_iff hchecked hg hbound]
  obtain ⟨g', hg', htarget, houtcome⟩ := targetRange_outcome h hbounds v
  rw [htarget]
  constructor
  · intro heq
    obtain rfl := h.eq_of_id hg' hg (Except.ok.inj heq)
    rcases houtcome with ⟨-, htakes⟩ | ⟨hunbound, -⟩
    · exact htakes
    · cases hbound.symm.trans hunbound
  · intro htakes
    rcases houtcome with ⟨hbound', htakes'⟩ | ⟨-, hnone⟩
    · rw [h.eq_of_takes hchecked hg' hg hbound' hbound htakes' htakes]
    · exact absurd htakes (hnone g hg hbound)

theorem targetRange_unbound_iff (h : GroupsFor lists groups) (hchecked : Checked lists spans)
    (hbounds : ∀ list ∈ lists, ∃ b, bounds list .bigint = .ok b) {g : PartitionGroup}
    (hg : g ∈ groups) (hunbound : g.unbound = true) :
    targetRange groups .bigint (.bigint v) = .ok g.id ↔ ∀ g' ∈ groups, g'.unbound = false →
      ¬InRange g'.qualifiers v ∧ ¬AtBorder g'.qualifiers v := by
  have hleft : (∀ g' ∈ groups, g'.unbound = false →
      ¬InRange g'.qualifiers v ∧ ¬AtBorder g'.qualifiers v) ↔
      ∀ g' ∈ groups, g'.unbound = false →
        ¬TakesDouble g'.qualifiers (Float.ofInt v.toInt) := by
    refine forall₃_congr fun g' hg' hbound' => ?_
    rw [h.takesDouble_iff hchecked hg' hbound', not_or]
  rw [hleft]
  obtain ⟨g', hg', htarget, houtcome⟩ := targetRange_outcome h hbounds v
  rw [htarget]
  constructor
  · intro heq
    obtain rfl := h.eq_of_id hg' hg (Except.ok.inj heq)
    rcases houtcome with ⟨hbound, -⟩ | ⟨-, hnone⟩
    · cases hbound.symm.trans hunbound
    · exact hnone
  · intro hnone
    rcases houtcome with ⟨hbound, htakes⟩ | ⟨hunbound', -⟩
    · exact absurd htakes (hnone g' hg' hbound)
    · rw [h.eq_of_unbound hg' hg hunbound' hunbound]

/-- The ranges that the check accepts for a BIGINT column are disjoint ranges of
    integers.  An integer goes to the group in whose range it lies; one that lies in no
    range goes to the group of the bound that has its double, if there is one, and to
    UNBOUND otherwise.  Below `2 ^ 53` no two integers have the same double. -/
theorem range_routing {r : PartitionRequest} {s : PartitionSettings} (htype : r.type = .bigint)
    (h : validateRange r s = .ok ()) :
    (∃ spans : List Span, r.qualifiers.map Span.read? = spans.map some ∧
      spans.Pairwise fun a b => ∀ v, ¬(a.Contains v ∧ b.Contains v)) ∧
    (∀ groups, GroupsFor r.qualifiers groups → ∀ v : Int64, ∀ g ∈ groups,
      (g.unbound = false → (targetRange groups .bigint (.bigint v) = .ok g.id ↔
        InRange g.qualifiers v ∨ AtBorder g.qualifiers v)) ∧
      (g.unbound = true → (targetRange groups .bigint (.bigint v) = .ok g.id ↔
        ∀ g' ∈ groups, g'.unbound = false →
          ¬InRange g'.qualifiers v ∧ ¬AtBorder g'.qualifiers v))) ∧
    ∀ list v, AtBorder list v → 2 ^ 53 ≤ v.toInt.natAbs ∧ ∃ a, Span.read? list = some a ∧
      (2 ^ 53 ≤ a.lower.toInt.natAbs ∨ 2 ^ 53 ≤ a.upper.toInt.natAbs) := by
  obtain ⟨spans, hchecked⟩ := validateRange_checked htype h
  have hbounds := validateRange_eq_ok h
  rw [htype] at hbounds
  refine ⟨⟨spans, hchecked.read, hchecked.apart.imp ?_⟩, ?_, ?_⟩
  · rintro a b hapart v ⟨ha, hb⟩
    exact Span.not_takes_both hapart ⟨ha.takes, hb.takes⟩
  · intro groups hgroups v g hg
    exact ⟨targetRange_bounded_iff hgroups hchecked hbounds hg,
      targetRange_unbound_iff hgroups hchecked hbounds hg⟩
  · rintro list v ⟨a, ha, htouches⟩
    exact ⟨htouches.large.1, a, ha, htouches.large.2⟩

theorem range_routing_tens :
    let low : PartitionGroup := ⟨⟨1⟩, ⟨0⟩, "p0", ["0", "9"], false⟩
    let high : PartitionGroup := ⟨⟨2⟩, ⟨0⟩, "p1", ["+10", " 20 "], false⟩
    let other : PartitionGroup := ⟨⟨3⟩, ⟨0⟩, "UNBOUND", [], true⟩
    InRange high.qualifiers 10 ∧
      targetRange [other, high, low] .bigint (.bigint 10) = .ok high.id := by
  intro low high other
  have hvalid : validateRange ⟨.bigint, 3, [["0", "9"], ["+10", " 20 "]]⟩ {} = .ok () := by
    have hranges : readRanges .bigint 0 [["0", "9"], ["+10", " 20 "]] =
        .ok [⟨Float.ofInt 0, Float.ofInt 9, 0⟩, ⟨Float.ofInt 10, Float.ofInt 20, 1⟩] := rfl
    rw [validateRange_eq hranges (by decide +kernel)]
    decide +kernel
  have hgroups : GroupsFor [["0", "9"], ["+10", " 20 "]] [other, high, low] :=
    ⟨by decide, ⟨other, rfl⟩, by decide⟩
  have hten : InRange high.qualifiers 10 := ⟨⟨10, 20⟩, rfl, by decide, by decide⟩
  have hroutes := (range_routing rfl hvalid).2.1 _ hgroups 10 high (by simp)
  exact ⟨hten, (hroutes.1 rfl).mpr (.inl hten)⟩

/-- An integer above a bound is let in where both have the same double. -/
theorem range_routing_inexact :
    let list := ["0", "9007199254740992"]
    let bounded : PartitionGroup := ⟨⟨1⟩, ⟨0⟩, "p0", list, false⟩
    let other : PartitionGroup := ⟨⟨2⟩, ⟨0⟩, "UNBOUND", [], true⟩
    validateRange ⟨.bigint, 2, [list]⟩ {} = .ok () ∧
      ¬InRange list 9007199254740993 ∧
      targetRange [bounded, other] .bigint (.bigint 9007199254740993) = .ok bounded.id := by
  intro list bounded other
  have hread : Span.read? list = some ⟨0, 9007199254740992⟩ := rfl
  refine ⟨?_, ?_, by decide +kernel⟩
  · rw [validateRange_eq (r := ⟨.bigint, 2, [list]⟩) rfl (List.pairwise_singleton _ _)]
    decide +kernel
  · rintro ⟨a, ha, -, hupper⟩
    obtain rfl := Option.some.inj (hread.symm.trans ha)
    revert hupper
    decide

end Partition

end Polystore
