import Polystore.Plan.Basic
import Polystore.Proofs.Outcomes

/-
  Polystore/Proofs/Arenas.lean
  ============================
  **Arenas only grow.**  A node that is appended gets the next number, its inputs
  have smaller ones, and all nodes that were there stay what they were.  Nothing
  but the limit on the number of nodes stops a node whose inputs are there.
-/

namespace Polystore

/-! ### Other inputs -/

section

variable {op : RelOp} {n : Node} {inputs : List NodeId}

theorem RelOp.inputs_withInputs (h : inputs.length = op.inputs.length) :
    (op.withInputs inputs).inputs = inputs := by
  match inputs with
  | [] => cases op <;> simp_all [RelOp.inputs, withInputs]
  | [i] => cases op <;> simp_all [RelOp.inputs, withInputs]
  | i :: j :: rest => cases op <;> simp [RelOp.inputs] at h

theorem Node.inputs_withInputs (h : inputs.length = n.inputs.length) :
    (n.withInputs inputs).inputs = inputs := RelOp.inputs_withInputs h

theorem RelOp.kind_withInputs : (op.withInputs inputs).kind = op.kind := by
  cases inputs <;> cases op <;> rfl

theorem RelOp.inputs_of_scan (h : op.kind = .scan) : op.inputs = [] := by
  cases op with
  | scan _ => rfl
  | _ => cases h

/-- Only scans and literal rows have no input, and no operator has two. -/
theorem RelOp.exists_input (hscan : op.kind ≠ .scan) (hvalues : op.kind ≠ .values) :
    ∃ i, op.inputs = [i] := by
  cases op with
  | scan _ => exact absurd rfl hscan
  | values _ => exact absurd rfl hvalues
  | _ => exact ⟨_, rfl⟩

theorem RelOp.withInputs_eq_converter {i : NodeId} {source : Convention}
    (h : op.withInputs inputs = .converter i source) : ∃ j, op = .converter j source := by
  cases inputs <;> cases op <;> simp_all [withInputs]

theorem Node.inputConvention_withInputs :
    (n.withInputs inputs).inputConvention = n.inputConvention := by
  rcases n with ⟨op, traits, row, native⟩
  cases inputs <;> cases op <;> rfl

end

/-! ### Arenas -/

namespace Arena

variable {a : Arena} {id : NodeId} {n : Node}

theorem get_eq_ok : a.get id = .ok n ↔ a.nodes[id.n]? = some n := require_eq_ok

theorem lt_size_of_get (h : a.get id = .ok n) : id.n < a.size :=
  (Array.getElem?_eq_some_iff.mp (get_eq_ok.mp h)).1

theorem exists_get (h : id.n < a.size) : ∃ n, a.get id = .ok n :=
  ⟨a.nodes[id.n], get_eq_ok.mpr (Array.getElem?_eq_getElem h)⟩

theorem add_ends {E : Error → Prop}
    (hbad : ((∀ i ∈ n.inputs, i.n < a.size) ∧ (a.size < capacity ∨ E full)) ∨ ∀ e, E e) :
    Ends E (a.add n) fun r => r = (⟨a.size⟩, ⟨a.nodes.push n⟩) ∧
      (∀ i ∈ n.inputs, i.n < a.size) ∧ a.size < capacity := by
  have hinput : ∀ i ∈ n.inputs, Ends E (Functor.discard (a.get i)) fun _ => i.n < a.size := by
    intro i hi
    refine Ends.discard ?_
    cases hget : a.get i with
    | ok k => exact lt_size_of_get hget
    | error e =>
      rcases hbad with ⟨hinputs, -⟩ | hbad
      · obtain ⟨k, hk⟩ := exists_get (hinputs i hi)
        rw [hk] at hget
        cases hget
      · exact hbad e
  apply (Ends.forIn hinput).bind
  intro _ hinputs
  refine Ends.bind (Q := fun _ => a.size < capacity) ?_ fun _ hsize => ?_
  · refine Ends.ensure (fun hfalse => ?_) of_decide_eq_true
    rcases hbad with ⟨-, hsize | hfull⟩ | hbad
    · exact absurd hsize (of_decide_eq_false hfalse)
    · exact hfull
    · exact hbad full
  · exact Ends.pure ⟨rfl, hinputs, hsize⟩

theorem add_eq_ok {r : NodeId × Arena} (h : a.add n = .ok r) :
    r = (⟨a.size⟩, ⟨a.nodes.push n⟩) ∧ (∀ i ∈ n.inputs, i.n < a.size) ∧ a.size < capacity :=
  have hends : Ends (fun _ => True) (a.add n) _ := add_ends (.inr fun _ => trivial)
  hends.result h

theorem get_push {k : Node} :
    Arena.get ⟨a.nodes.push n⟩ id = .ok k ↔
      a.get id = .ok k ∨ id.n = a.size ∧ k = n := by
  rw [get_eq_ok, get_eq_ok, Array.getElem?_push]
  by_cases h : id.n = a.nodes.size
  · simp [h, size, eq_comm]
  · simp [h, size]

theorem get_push_self : Arena.get ⟨a.nodes.push n⟩ ⟨a.size⟩ = .ok n :=
  get_push.mpr (.inr ⟨rfl, rfl⟩)

end Arena

end Polystore
