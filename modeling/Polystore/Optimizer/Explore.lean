import Polystore.Optimizer.Registry
import Std.Data.TreeSet

/-
  Polystore/Optimizer/Explore.lean
  ================================
  **Exploration.**  Round after round every rule runs on every match at every
  node that the memo had when the round began, and on no match twice.
  Exploration ends with a round that changes nothing, or when one of two budgets
  is spent: the number of rounds, and the number of runs.
-/

namespace Polystore

/-- One run of a rule. -/
structure TraceEntry where
  rule : String
  /-- The label of the matched root. -/
  matched : String
  /-- The labels of the nodes that were entered or found. -/
  produced : List String
  /-- Whether the memo changed. -/
  changed : Bool

/-- Why exploration ended. -/
inductive Ending where
  /-- A round changed nothing. -/
  | settled
  /-- All rounds have been used. -/
  | outOfRounds
  /-- All runs have been used. -/
  | outOfFirings
deriving DecidableEq

/-- A rule, by its position, and nodes that its pattern matches. -/
abbrev Occasion := Nat × List NodeId

/-- The state of an exploration. -/
structure Exploration where
  memo : Memo Float
  /-- The occasions on which a rule has run. -/
  fired : Std.TreeSet Occasion lexOrd.compare := {}
  firings : Nat := 0
  rounds : Nat := 0
  /-- The runs so far, in order, if they are recorded. -/
  trace : Array TraceEntry := #[]

namespace Exploration

/-- A step of an exploration, which may fail. -/
abbrev Step := StateT Exploration (Except Error)

/-- The record of a run. -/
def entry (rule : Rule) (before : Memo Float) (id : NodeId) (after : Firing) :
    Except Error TraceEntry := do
  let root ← before.node id
  let produced ← after.produced.mapM after.memo.node
  return {
    rule := rule.name
    matched := root.label
    produced := produced.map Node.label
    changed := after.memo.version ≠ before.version }

/-- Run a rule on a match at a node. -/
def fire (s : OptimizerSettings) (rule : Rule) (id : NodeId) (found : List NodeId) :
    Step Unit := do
  let before := (← get).memo
  let (_, after) ← (rule.action.run ⟨before, found, []⟩ : Except Error (Unit × Firing))
  modify fun e => { e with memo := after.memo }
  if s.trace then
    let entry ← (entry rule before id after : Except Error TraceEntry)
    modify fun e => { e with trace := e.trace.push entry }

/-- Take up a match of the rule at a position, unless it has been taken up
    before.  The answer is whether the budget allows going on. -/
def visitMatch (s : OptimizerSettings) (position : Nat) (rule : Rule) (id : NodeId)
    (found : List NodeId) : Step Bool := do
  let e ← get
  if s.maxRuleFirings ≤ e.firings then
    return false
  else
    if !e.fired.contains (position, found) then
      set { e with fired := e.fired.insert (position, found), firings := e.firings + 1 }
      fire s rule id found
    return true

/-- Take up all matches of a rule at a node. -/
def visitRule (s : OptimizerSettings) (id : NodeId) (position : Nat) (rule : Rule) :
    Step Bool := do
  let m := (← get).memo
  let found ← (rule.pattern.matchesAt m id : Except Error (List (List NodeId)))
  found.allM (visitMatch s position rule id)

/-- Take up all rules at a node. -/
def visitNode (s : OptimizerSettings) (rules : List (Rule × Nat)) (id : NodeId) : Step Bool :=
  rules.allM fun (rule, position) => visitRule s id position rule

/-- One round over the nodes there are. -/
def round (s : OptimizerSettings) (rules : List (Rule × Nat)) : Step Bool := do
  modify fun e => { e with rounds := e.rounds + 1 }
  (← get).memo.ids.allM (visitNode s rules)

/-- At most so many rounds. -/
def run (s : OptimizerSettings) (rules : List (Rule × Nat)) : Nat → Step Ending
  | 0 => return .outOfRounds
  | rounds + 1 => do
    let before := (← get).memo.version
    if !(← round s rules) then
      return .outOfFirings
    else if (← get).memo.version = before then
      return .settled
    else
      run s rules rounds

end Exploration

/-- Explore a memo with the rules of a registry. -/
def Memo.explore (m : Memo Float) (r : Registry) (s : OptimizerSettings) :
    Except Error (Ending × Exploration) :=
  (Exploration.run s (r.rules.map (·.2)).zipIdx s.maxIterations).run { memo := m }

end Polystore
