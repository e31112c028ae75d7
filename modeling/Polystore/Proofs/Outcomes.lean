import Mathlib.Data.List.Forall2
import Mathlib.Data.List.OfFn
import Mathlib.Data.List.Perm.Basic
import Polystore.Error

/-
  Polystore/Proofs/Outcomes.lean
  ==============================
  **Computations that may fail.**  What a computation does is said by two
  predicates, one on its results and one on its errors (`Ends`).  The statements
  compose along the sequence of steps, and carry over to computations that also
  change a state (`Runs`).
-/

namespace Polystore

variable {α β : Type} {E : Error → Prop}

/-! ### Success -/

/-- A sequence succeeds when both of its steps do. -/
theorem except_bind_eq_ok {x : Except Error α} {f : α → Except Error β} {b : β} :
    x >>= f = .ok b ↔ ∃ a, x = .ok a ∧ f a = .ok b := by
  cases x with
  | error e => simp [bind, Except.bind]
  | ok a => simp [bind, Except.bind]

theorem except_bind_eq_error {x : Except Error α} {f : α → Except Error β}
    {e : Error} : x >>= f = .error e ↔ x = .error e ∨ ∃ a, x = .ok a ∧ f a = .error e := by
  cases x with
  | error e => simp [bind, Except.bind]
  | ok a => simp [bind, Except.bind]

theorem require_eq_ok {e : Error} {o : Option α} {a : α} :
    require e o = .ok a ↔ o = some a := by
  cases o <;> simp [require]

theorem ensure_eq_ok {c : Bool} {e : Error} {u : Unit} : ensure c e = .ok u ↔ c = true := by
  cases c <;> simp [ensure]

/-- Running through a list succeeds when every step does. -/
theorem mapM_eq_ok {f : α → Except Error β} {l : List α} {bs : List β} :
    l.mapM f = .ok bs ↔ List.Forall₂ (fun a b => f a = .ok b) l bs := by
  induction l generalizing bs with
  | nil => simp [pure, Except.pure, eq_comm]
  | cons a l ih =>
    rw [List.mapM_cons, except_bind_eq_ok, List.forall₂_cons_left_iff]
    apply exists_congr
    intro b
    constructor
    · rintro ⟨ha, h⟩
      obtain ⟨cs, hcs, h⟩ := except_bind_eq_ok.mp h
      exact ⟨cs, ha, ih.mp hcs, (Except.ok.inj h).symm⟩
    · rintro ⟨cs, ha, hcs, rfl⟩
      exact ⟨ha, except_bind_eq_ok.mpr ⟨cs, ih.mpr hcs, rfl⟩⟩

theorem exists_of_forall₂_left {R : α → β → Prop} {l : List α} {bs : List β}
    (h : List.Forall₂ R l bs) : ∀ a ∈ l, ∃ b ∈ bs, R a b := by
  induction h with
  | nil => simp
  | cons hab _ ih =>
    intro a ha
    rcases List.mem_cons.mp ha with rfl | ha
    · exact ⟨_, by simp, hab⟩
    · obtain ⟨b, hb, hr⟩ := ih a ha
      exact ⟨b, List.mem_cons_of_mem _ hb, hr⟩

theorem exists_of_forall₂_right {R : α → β → Prop} {l : List α} {bs : List β}
    (h : List.Forall₂ R l bs) : ∀ b ∈ bs, ∃ a ∈ l, R a b :=
  exists_of_forall₂_left h.flip

/-- The same where a step gives no reason for its failure. -/
theorem mapM_eq_some {f : α → Option β} {l : List α} {bs : List β} :
    l.mapM f = some bs ↔ List.Forall₂ (fun a b => f a = some b) l bs := by
  induction l generalizing bs with
  | nil => simp [eq_comm]
  | cons a l ih =>
    rw [List.mapM_cons, List.forall₂_cons_left_iff]
    simp only [Option.bind_eq_bind, Option.bind_eq_some_iff, ih]
    apply exists_congr
    intro b
    constructor
    · rintro ⟨ha, cs, hcs, h⟩
      exact ⟨cs, ha, hcs, (Option.some.inj h).symm⟩
    · rintro ⟨cs, ha, hcs, rfl⟩
      exact ⟨ha, cs, hcs, rfl⟩

theorem exists_mapM_eq_some {f : α → Option β} {l : List α} :
    (∃ bs, l.mapM f = some bs) ↔ ∀ a ∈ l, ∃ b, f a = some b := by
  constructor
  · rintro ⟨bs, hbs⟩ a ha
    obtain ⟨b, -, hb⟩ := exists_of_forall₂_left (mapM_eq_some.mp hbs) a ha
    exact ⟨b, hb⟩
  · intro h
    induction l with
    | nil => exact ⟨[], rfl⟩
    | cons a l ih =>
      obtain ⟨b, hb⟩ := h a (by simp)
      obtain ⟨bs, hbs⟩ := ih fun c hc => h c (List.mem_cons_of_mem a hc)
      exact ⟨b :: bs, mapM_eq_some.mpr (.cons hb (mapM_eq_some.mp hbs))⟩

/-- In another order there are the same results. -/
theorem mapM_perm {f : α → Option β} {l l' : List α} {bs : List β} (hperm : l.Perm l')
    (h : l.mapM f = some bs) : ∃ bs', l'.mapM f = some bs' ∧ bs.Perm bs' := by
  obtain ⟨bs', hbs', hsame⟩ := List.perm_comp_forall₂ hperm.symm (mapM_eq_some.mp h)
  exact ⟨bs', mapM_eq_some.mpr hbs', hsame.symm⟩

theorem exists_mapM_eq_ok {f : α → Except Error β} {l : List α}
    (h : ∀ a ∈ l, ∃ b, f a = .ok b) : ∃ bs, l.mapM f = .ok bs := by
  induction l with
  | nil => exact ⟨[], rfl⟩
  | cons a l ih =>
    obtain ⟨b, hb⟩ := h a (by simp)
    obtain ⟨bs, hbs⟩ := ih fun c hc => h c (List.mem_cons_of_mem a hc)
    exact ⟨b :: bs, mapM_eq_ok.mpr (.cons hb (mapM_eq_ok.mp hbs))⟩

theorem exists_foldlM_eq_ok {f : β → α → Except Error β} {l : List α}
    (h : ∀ b, ∀ a ∈ l, ∃ b', f b a = .ok b') (b : β) : ∃ b', l.foldlM f b = .ok b' := by
  induction l generalizing b with
  | nil => exact ⟨b, rfl⟩
  | cons a l ih =>
    obtain ⟨b', hb'⟩ := h b a (by simp)
    obtain ⟨b'', hb''⟩ := ih (fun b c hc => h b c (List.mem_cons_of_mem a hc)) b'
    exact ⟨b'', except_bind_eq_ok.mpr ⟨b', hb', hb''⟩⟩

theorem mapM_eq_map {f : α → Except Error β} {g : α → β} {l : List α}
    (h : ∀ a ∈ l, f a = .ok (g a)) : l.mapM f = .ok (l.map g) := by
  rw [mapM_eq_ok, List.forall₂_map_right_iff, List.forall₂_same]
  exact h

/-- What the lists of results hold together. -/
theorem mem_flatten_of_mapM {f : α → Except Error (List β)} {l : List α} {lists : List (List β)}
    (h : l.mapM f = .ok lists) {b : β} :
    b ∈ lists.flatten ↔ ∃ a ∈ l, ∃ bs, f a = .ok bs ∧ b ∈ bs := by
  rw [List.mem_flatten]
  constructor
  · rintro ⟨bs, hbs, hb⟩
    obtain ⟨a, ha, hf⟩ := exists_of_forall₂_right (mapM_eq_ok.mp h) bs hbs
    exact ⟨a, ha, bs, hf, hb⟩
  · rintro ⟨a, ha, bs, hf, hb⟩
    obtain ⟨bs', hbs', hf'⟩ := exists_of_forall₂_left (mapM_eq_ok.mp h) a ha
    obtain rfl : bs = bs' := Except.ok.inj (hf.symm.trans hf')
    exact ⟨bs, hbs', hb⟩

theorem mapM_congr {f g : α → Except Error β} {l : List α} (h : ∀ a ∈ l, f a = g a) :
    l.mapM f = l.mapM g := by
  induction l with
  | nil => rfl
  | cons a l ih =>
    have hl : ∀ b ∈ l, f b = g b := fun b hb => h b (List.mem_cons_of_mem a hb)
    rw [List.mapM_cons, List.mapM_cons, h a (by simp), ih hl]

/-- The result for the element at a place is at the same place. -/
theorem exists_getElem?_of_mapM {f : α → Except Error β} {l : List α} {bs : List β} {n : Nat}
    {a : α} (h : l.mapM f = .ok bs) (ha : l[n]? = some a) : ∃ b, bs[n]? = some b ∧ f a = .ok b := by
  rw [mapM_eq_ok] at h
  induction h generalizing n with
  | nil => cases ha
  | @cons a' b l bs hb _ ih =>
    cases n with
    | zero =>
      obtain rfl : a' = a := by simpa using ha
      exact ⟨b, rfl, hb⟩
    | succ n => exact ih ha

/-- Running through a list in two ways with results that stand for the same. -/
theorem map_eq_of_mapM {γ δ : Type} {f : α → Except Error β} {f' : α → Except Error γ}
    {φ : β → δ} {ψ : γ → δ} (h : ∀ a b c, f a = .ok b → f' a = .ok c → φ b = ψ c) {l : List α}
    {bs : List β} {cs : List γ} (hbs : l.mapM f = .ok bs) (hcs : l.mapM f' = .ok cs) :
    bs.map φ = cs.map ψ := by
  rw [mapM_eq_ok] at hbs hcs
  induction hbs generalizing cs with
  | nil =>
    cases hcs
    rfl
  | cons hb _ ih =>
    cases hcs with
    | cons hc hcs => rw [List.map_cons, List.map_cons, h _ _ _ hb hc, ih hcs]

/-- Results by the places of the list. -/
theorem exists_ofFn_of_forall₂ {R : α → β → Prop} {l : List α} {bs : List β}
    (h : List.Forall₂ R l bs) :
    ∃ f : Fin l.length → β, bs = List.ofFn f ∧ ∀ i, R (l.get i) (f i) := by
  induction h with
  | nil => exact ⟨Fin.elim0, rfl, fun i => i.elim0⟩
  | @cons a b l bs hab _ ih =>
    rcases ih with ⟨f, rfl, hf⟩
    exact ⟨Fin.cons b f, (List.ofFn_cons b f).symm, Fin.cases hab hf⟩

/-! ### Results and errors -/

/-- Where a computation succeeds its result satisfies `P`, and where it fails its
    error satisfies `E`. -/
def Ends (E : Error → Prop) (x : Except Error α) (P : α → Prop) : Prop :=
  match x with
  | .ok a => P a
  | .error e => E e

namespace Ends

theorem pure {P : α → Prop} {a : α} (h : P a) : Ends E (Pure.pure a) P := h

theorem bind {Q : α → Prop} {P : β → Prop} {x : Except Error α} {f : α → Except Error β}
    (hx : Ends E x Q) (hf : ∀ a, Q a → Ends E (f a) P) : Ends E (x >>= f) P := by
  cases x with
  | error e => exact hx
  | ok a => exact hf a hx

theorem imp {P P' : α → Prop} {x : Except Error α} (h : Ends E x P)
    (hok : ∀ a, P a → P' a) : Ends E x P' := by
  cases x with
  | error e => exact h
  | ok a => exact hok a h

theorem weaken {E' : Error → Prop} {P : α → Prop} {x : Except Error α} (h : Ends E x P)
    (hbad : ∀ e, E e → E' e) : Ends E' x P := by
  cases x with
  | error e => exact hbad e h
  | ok a => exact h

/-- What is known to succeed comes first. -/
theorem after {P : β → Prop} {x : Except Error α} {f : α → Except Error β} {a : α}
    (hx : x = .ok a) (h : Ends E (f a) P) : Ends E (x >>= f) P := by
  rw [hx]
  exact h

theorem of_eq {P : α → Prop} {x : Except Error α} {a : α} (hx : x = .ok a) (h : P a) :
    Ends E x P := hx ▸ h

/-- A result is enough when no error counts. -/
theorem of_ok {P : α → Prop} {x : Except Error α} (hbad : ∀ e, E e)
    (h : ∀ a, x = .ok a → P a) : Ends E x P := by
  cases x with
  | error e => exact hbad e
  | ok a => exact h a rfl

theorem provided {C : Prop} {x : Except Error α} (h : C → ∃ a, x = .ok a) :
    Ends (fun e => C → E e) x fun a => x = .ok a := by
  cases x with
  | error e =>
    intro hc
    obtain ⟨a, ha⟩ := h hc
    cases ha
  | ok a => rfl

theorem result {P : α → Prop} {x : Except Error α} {a : α} (h : Ends E x P)
    (hx : x = .ok a) : P a := by
  rw [hx] at h
  exact h

theorem error {P : α → Prop} {x : Except Error α} {e : Error} (h : Ends E x P)
    (hx : x = .error e) : E e := by
  rw [hx] at h
  exact h

theorem exists_result {P : α → Prop} {x : Except Error α} (h : Ends (fun _ => False) x P) :
    ∃ a, x = .ok a ∧ P a := by
  cases x with
  | error e => exact h.elim
  | ok a => exact ⟨a, rfl, h⟩

theorem require {e : Error} {o : Option α} {P : α → Prop} (hnone : o = none → E e)
    (hsome : ∀ a, o = some a → P a) : Ends E (Polystore.require e o) P := by
  cases o with
  | none => exact hnone rfl
  | some a => exact hsome a rfl

theorem ensure {e : Error} {c : Bool} {P : Unit → Prop} (hfalse : c = false → E e)
    (htrue : c = true → P ()) : Ends E (Polystore.ensure c e) P := by
  cases c with
  | false => exact hfalse rfl
  | true => exact htrue rfl

theorem mapM {P : β → Prop} {f : α → Except Error β} {l : List α}
    (h : ∀ a ∈ l, Ends E (f a) P) : Ends E (l.mapM f) fun bs => ∀ b ∈ bs, P b := by
  induction l with
  | nil => exact Ends.pure (by simp)
  | cons a l ih =>
    rw [List.mapM_cons]
    apply (h a (by simp)).bind
    intro b hb
    apply (ih fun c hc => h c (List.mem_cons_of_mem a hc)).bind
    intro bs hbs
    exact Ends.pure (List.forall_mem_cons.mpr ⟨hb, hbs⟩)

/-- A loop that only checks. -/
theorem forIn {P : α → Prop} {f : α → Except Error PUnit} {l : List α}
    (h : ∀ a ∈ l, Ends E (f a) fun _ => P a) :
    Ends E (ForIn.forIn l PUnit.unit fun a _ => do
      f a
      Pure.pure (ForInStep.yield PUnit.unit)) fun _ => ∀ a ∈ l, P a := by
  induction l with
  | nil => exact Ends.pure (by simp)
  | cons a l ih =>
    rw [List.forIn_cons]
    have hrest := ih fun c hc => h c (List.mem_cons_of_mem a hc)
    have ha := h a (by simp)
    cases hfa : f a with
    | error e => exact ha.error hfa
    | ok u => exact hrest.imp fun _ hl => List.forall_mem_cons.mpr ⟨ha.result hfa, hl⟩

/-- Folding a list: an invariant is kept, and what each element stands for lasts. -/
theorem foldlM {J : β → Prop} {R : β → β → Prop} {D : α → β → Prop} {l : List α}
    {f : β → α → Except Error β} (hrefl : ∀ s, R s s)
    (htrans : ∀ r s t, R r s → R s t → R r t) (hmono : ∀ a s t, J s → D a s → R s t → D a t)
    (h : ∀ a ∈ l, ∀ s, J s → Ends E (f s a) fun t => J t ∧ R s t ∧ D a t) {s : β} (hs : J s) :
    Ends E (l.foldlM f s) fun t => J t ∧ R s t ∧ ∀ a ∈ l, D a t := by
  induction l generalizing s with
  | nil => exact Ends.pure ⟨hs, hrefl s, by simp⟩
  | cons a l ih =>
    rw [List.foldlM_cons]
    apply (h a (by simp) s hs).bind
    intro t ht
    rcases ht with ⟨hJ, hR, hD⟩
    apply (ih (fun c hc => h c (List.mem_cons_of_mem a hc)) hJ).imp
    intro u hu
    rcases hu with ⟨hJ', hR', hD'⟩
    exact ⟨hJ', htrans s t u hR hR',
      List.forall_mem_cons.mpr ⟨hmono a t u hJ hD hR', hD'⟩⟩

theorem discard {P : PUnit → Prop} {x : Except Error α} (h : Ends E x fun _ => P ⟨⟩) :
    Ends E (Functor.discard x) P := by
  cases x with
  | error e => exact h
  | ok a => exact h

end Ends

/-! ### Changing a state -/

variable {σ : Type}

/-- Started in a state, a computation ends with a result and a state that satisfy
    `P`, or with an error that satisfies `E`. -/
def Runs (E : Error → Prop) (x : StateT σ (Except Error) α) (s : σ) (P : α → σ → Prop) :
    Prop :=
  Ends E (x.run s) fun p => P p.1 p.2

namespace Runs

theorem congr {x y : StateT σ (Except Error) α} {s : σ} {P : α → σ → Prop}
    (hxy : x.run s = y.run s) (h : Runs E y s P) : Runs E x s P := by
  unfold Runs
  rwa [hxy]

theorem pure {P : α → σ → Prop} {a : α} {s : σ} (h : P a s) : Runs E (Pure.pure a) s P := h

theorem bind {Q : α → σ → Prop} {P : β → σ → Prop} {x : StateT σ (Except Error) α}
    {f : α → StateT σ (Except Error) β} {s : σ} (hx : Runs E x s Q)
    (hf : ∀ a t, Q a t → Runs E (f a) t P) : Runs E (x >>= f) s P :=
  Ends.bind hx fun p hp => hf p.1 p.2 hp

theorem imp {P P' : α → σ → Prop} {x : StateT σ (Except Error) α} {s : σ}
    (h : Runs E x s P) (hok : ∀ a t, P a t → P' a t) : Runs E x s P' :=
  Ends.imp h fun p hp => hok p.1 p.2 hp

theorem weaken {E' : Error → Prop} {P : α → σ → Prop} {x : StateT σ (Except Error) α} {s : σ}
    (h : Runs E x s P) (hbad : ∀ e, E e → E' e) : Runs E' x s P :=
  Ends.weaken h hbad

theorem modify {P : PUnit → σ → Prop} {s : σ} {f : σ → σ} (h : P ⟨⟩ (f s)) :
    Runs E (modify f) s P := h

/-- What is known to succeed comes first. -/
theorem after {P : β → σ → Prop} {x : StateT σ (Except Error) α}
    {f : α → StateT σ (Except Error) β} {s t : σ} {a : α} (hx : x.run s = .ok (a, t))
    (h : Runs E (f a) t P) : Runs E (x >>= f) s P := by
  unfold Runs at h ⊢
  rw [StateT.run_bind, hx]
  exact h

theorem lift_after {P : β → σ → Prop} {x : Except Error α}
    {f : α → StateT σ (Except Error) β} {s : σ} {a : α} (hx : x = .ok a)
    (h : Runs E (f a) s P) : Runs E (liftM x >>= f) s P := by
  subst hx
  exact h

theorem lift {P : α → σ → Prop} {x : Except Error α} {s : σ} (h : Ends E x fun a => P a s) :
    Runs E (liftM x) s P :=
  Ends.bind h fun _ ha => ha

theorem lift_bind {Q : α → Prop} {P : β → σ → Prop} {x : Except Error α}
    {f : α → StateT σ (Except Error) β} {s : σ} (hx : Ends E x Q)
    (hf : ∀ a, Q a → Runs E (f a) s P) : Runs E (liftM x >>= f) s P :=
  bind (lift (P := fun a t => t = s ∧ Q a) (hx.imp fun _ ha => ⟨rfl, ha⟩))
    fun a _ ⟨hs, ha⟩ => hs ▸ hf a ha

theorem discard {P : PUnit → σ → Prop} {x : StateT σ (Except Error) α} {s : σ}
    (h : Runs E x s fun _ t => P ⟨⟩ t) : Runs E (Functor.discard x) s P :=
  Ends.bind h fun _ hp => hp

/-- Running through a list until an answer is `false`: an invariant is kept, what each
    answer `true` stands for lasts, and an answer `false` is the last one. -/
theorem allM {J : σ → Prop} {R : σ → σ → Prop} {D : α → σ → Prop} {F : σ → Prop} {l : List α}
    {p : α → StateT σ (Except Error) Bool} (hrefl : ∀ s, R s s)
    (htrans : ∀ r s t, R r s → R s t → R r t) (hmono : ∀ a s t, J s → D a s → R s t → D a t)
    (h : ∀ a ∈ l, ∀ s, J s →
      Runs E (p a) s fun b t => J t ∧ R s t ∧ (b = true → D a t) ∧ (b = false → F t))
    {s : σ} (hs : J s) :
    Runs E (l.allM p) s fun b t =>
      J t ∧ R s t ∧ (b = true → ∀ a ∈ l, D a t) ∧ (b = false → F t) := by
  induction l generalizing s with
  | nil => exact Runs.pure ⟨hs, hrefl s, by simp, by simp⟩
  | cons a l ih =>
    rw [List.allM]
    apply (h a (by simp) s hs).bind
    intro b t ht
    rcases ht with ⟨hJ, hR, hD, hF⟩
    cases b with
    | false => exact Runs.pure ⟨hJ, hR, by simp, fun _ => hF rfl⟩
    | true =>
      apply (ih (fun c hc => h c (List.mem_cons_of_mem a hc)) hJ).imp
      intro b u hu
      rcases hu with ⟨hJ', hR', hD', hF'⟩
      refine ⟨hJ', htrans s t u hR hR', ?_, hF'⟩
      intro hb
      exact List.forall_mem_cons.mpr ⟨hmono a t u hJ (hD rfl) hR', hD' hb⟩

/-- Running through a list for results: an invariant is kept, and what each result
    stands for lasts. -/
theorem mapM {J : σ → Prop} {R : σ → σ → Prop} {D : α → β → σ → Prop} {l : List α}
    {f : α → StateT σ (Except Error) β} (hrefl : ∀ s, R s s)
    (htrans : ∀ r s t, R r s → R s t → R r t)
    (hmono : ∀ a b s t, J s → D a b s → R s t → D a b t)
    (h : ∀ a ∈ l, ∀ s, J s → Runs E (f a) s fun b t => J t ∧ R s t ∧ D a b t)
    {s : σ} (hs : J s) :
    Runs E (l.mapM f) s fun bs t => J t ∧ R s t ∧ List.Forall₂ (fun a b => D a b t) l bs := by
  induction l generalizing s with
  | nil => exact Runs.pure ⟨hs, hrefl s, .nil⟩
  | cons a l ih =>
    rw [List.mapM_cons]
    apply (h a (by simp) s hs).bind
    intro b t ht
    rcases ht with ⟨hJ, hR, hD⟩
    apply (ih (fun c hc => h c (List.mem_cons_of_mem a hc)) hJ).bind
    intro bs u hu
    rcases hu with ⟨hJ', hR', hD'⟩
    exact Runs.pure ⟨hJ', htrans s t u hR hR', .cons (hmono a b t u hJ hD hR') hD'⟩

end Runs

end Polystore
