import Polystore.Proofs.WholeDoubles

/-
  Polystore/Proofs/DoubleOrder.lean
  =================================
  **Doubles in order.**  Two doubles are compared by their positions: first the
  side of zero on which they lie, then the exponent, then the significand
  (`compare_eq`).  Positions are linearly ordered, so that the comparisons of doubles
  chain as one expects, with NaN left out.

  Rounding integers to doubles respects the order (`ofInt_le_ofInt`).  A number of the
  same length is compared by the bits that are kept and the two that decide about
  rounding up, which never overtakes another number; a shorter number keeps a smaller
  exponent, or it is rounded up to the power of two where the longer ones begin.  A
  double that is a short integer lies where the integer is rounded to
  (`position?_of_whole`), which is the same number.
-/

namespace Polystore.Number

open Float.Model Float.Model.UnpackedFloat

/-! ### Positions -/

/-- Where a double lies: between the zeros in the middle and the infinities on the
    outside, finite doubles by exponent and significand. -/
structure Position where
  side : Int
  exponent : Int
  significand : Int

namespace Position

def order : Position → Position → Ordering :=
  compareLex (compareOn Position.side)
    (compareLex (compareOn Position.exponent) (compareOn Position.significand))

/-- The position of the opposite number. -/
def opposite (p : Position) : Position := ⟨-p.side, -p.exponent, -p.significand⟩

theorem compare_neg (i j : Int) : compare (-i) (-j) = compare j i := by
  rcases Int.lt_trichotomy i j with h | h | h
  · rw [Int.compare_eq_gt.mpr h, Int.compare_eq_gt.mpr (by omega)]
  · rw [Int.compare_eq_eq.mpr h.symm, Int.compare_eq_eq.mpr (by omega)]
  · rw [Int.compare_eq_lt.mpr h, Int.compare_eq_lt.mpr (by omega)]

theorem order_opposite (p q : Position) : order p.opposite q.opposite = order q p := by
  simp only [order, opposite, compareLex, compareOn, compare_neg]

/-- On the positive side the exponent decides, and the significand after it. -/
theorem isLE_order {e e' : Int} {m m' : Nat} (h : e < e' ∨ e = e' ∧ m ≤ m') :
    (order ⟨1, e, m⟩ ⟨1, e', m'⟩).isLE = true := by
  simp only [order, compareLex, compareOn]
  rcases h with h | ⟨rfl, h⟩
  · simp [Int.compare_eq_lt.mpr h]
  · simpa [Int.isLE_compare] using h

end Position

/-- The position of a number. -/
def Parts.position? : Parts → Option Position
  | .nan => none
  | .infinite negative => some ⟨if negative then -2 else 2, 0, 0⟩
  | .finite negative significand exponent =>
    if significand = 0 then some ⟨0, 0, 0⟩
    else if negative then some ⟨-1, -exponent, -significand⟩
    else some ⟨1, exponent, significand⟩

theorem compare_natCast (m n : Nat) : compare (m : Int) (n : Int) = compare m n := by
  rcases Nat.lt_trichotomy m n with h | h | h
  · rw [Nat.compare_eq_lt.mpr h, Int.compare_eq_lt.mpr (by omega)]
  · rw [Nat.compare_eq_eq.mpr h, Int.compare_eq_eq.mpr (by omega)]
  · rw [Nat.compare_eq_gt.mpr h, Int.compare_eq_gt.mpr (by omega)]

theorem position?_finite {s : Sign} {m : Nat} {e : Int} (hm : 0 < m) :
    (Parts.ofUnpacked (.finite s m e hm)).position? =
      some (match s with | .positive => ⟨1, e, m⟩ | .negative => ⟨-1, -e, -m⟩) := by
  have hne : m ≠ 0 := by omega
  cases s <;> simp [Parts.ofUnpacked, Parts.position?, isNegative, hne]

/-- Doubles are compared by their positions. -/
theorem compare_eq (u v : UnpackedFloat) : u.compare v =
    (Parts.ofUnpacked u).position?.bind fun p =>
      (Parts.ofUnpacked v).position?.map fun q => p.order q := by
  cases u with
  | notANumber => rfl
  | infinity s =>
    cases v with
    | notANumber => cases s <;> rfl
    | infinity t => cases s <;> cases t <;> rfl
    | zero t => cases s <;> rfl
    | finite t m e hm => rw [position?_finite]; cases s <;> cases t <;> rfl
  | zero s =>
    cases v with
    | notANumber => rfl
    | infinity t => cases t <;> rfl
    | zero t => rfl
    | finite t m e hm => rw [position?_finite]; cases t <;> rfl
  | finite s m e hm =>
    rw [position?_finite]
    cases v with
    | notANumber => cases s <;> rfl
    | infinity t => cases s <;> cases t <;> rfl
    | zero t => cases s <;> rfl
    | finite t m' e' hm' =>
      rw [position?_finite]
      cases s <;> cases t
      case negative.positive => rfl
      case positive.negative => rfl
      case positive.positive =>
        change some ((compare e e').then (compare m m')) =
          some ((compare e e').then (compare (m : Int) m'))
        rw [compare_natCast]
      case negative.negative =>
        change some ((compare e e').then (compare m m')).swap =
          some ((compare (-e) (-e')).then (compare (-(m : Int)) (-m')))
        rw [Position.compare_neg, Position.compare_neg, compare_natCast, Ordering.swap_then,
          Int.compare_swap, Nat.compare_swap]

/-! ### Comparisons -/

/-- Where the double lies, unless it is NaN. -/
def position? (x : Float) : Option Position := (parts x).position?

theorem compare_toModel (x y : Float) : x.toModel.unpack.compare y.toModel.unpack =
    (position? x).bind fun p => (position? y).map fun q => p.order q := by
  rw [compare_eq, position?, position?, parts_eq, parts_eq]

variable {x y z : Float}

theorem le_iff_position : x ≤ y ↔
    ∃ p q, position? x = some p ∧ position? y = some q ∧ (p.order q).isLE = true := by
  rw [le_iff, compare_toModel]
  cases position? x <;> cases position? y <;> simp

theorem lt_iff_position : x < y ↔
    ∃ p q, position? x = some p ∧ position? y = some q ∧ p.order q = .lt := by
  rw [lt_iff, compare_toModel]
  cases position? x <;> cases position? y <;> simp

theorem beq_iff_position : (x == y) = true ↔
    ∃ p q, position? x = some p ∧ position? y = some q ∧ p.order q = .eq := by
  rw [beq_iff, compare_toModel]
  cases position? x <;> cases position? y <;> simp

instance : Std.TransCmp Position.order := inferInstanceAs (Std.TransCmp (compareLex _ _))

theorem le_trans (hxy : x ≤ y) (hyz : y ≤ z) : x ≤ z := by
  obtain ⟨p, q, hp, hq, hpq⟩ := le_iff_position.mp hxy
  obtain ⟨q', r, hq', hr, hqr⟩ := le_iff_position.mp hyz
  obtain rfl := Option.some.inj (hq.symm.trans hq')
  exact le_iff_position.mpr ⟨p, r, hp, hr, Std.TransCmp.isLE_trans hpq hqr⟩

theorem lt_of_lt_of_le (hxy : x < y) (hyz : y ≤ z) : x < z := by
  obtain ⟨p, q, hp, hq, hpq⟩ := lt_iff_position.mp hxy
  obtain ⟨q', r, hq', hr, hqr⟩ := le_iff_position.mp hyz
  obtain rfl := Option.some.inj (hq.symm.trans hq')
  exact lt_iff_position.mpr ⟨p, r, hp, hr, Std.TransCmp.lt_of_lt_of_isLE hpq hqr⟩

theorem le_of_lt (h : x < y) : x ≤ y := by
  obtain ⟨p, q, hp, hq, hlt⟩ := lt_iff_position.mp h
  exact le_iff_position.mpr ⟨p, q, hp, hq, Ordering.isLE_of_eq_lt hlt⟩

theorem lt_trans (hxy : x < y) (hyz : y < z) : x < z := lt_of_lt_of_le hxy (le_of_lt hyz)

theorem not_lt_of_le (hxy : x ≤ y) : ¬y < x := by
  intro hyx
  obtain ⟨p, q, hp, hq, hpq⟩ := le_iff_position.mp hxy
  obtain ⟨q', p', hq', hp', hqp⟩ := lt_iff_position.mp hyx
  obtain rfl := Option.some.inj (hp.symm.trans hp')
  obtain rfl := Option.some.inj (hq.symm.trans hq')
  exact Std.OrientedCmp.not_lt_of_isLE hpq hqp

theorem beq_of_le_of_le (hxy : x ≤ y) (hyx : y ≤ x) : (x == y) = true := by
  obtain ⟨p, q, hp, hq, hpq⟩ := le_iff_position.mp hxy
  obtain ⟨q', p', hq', hp', hqp⟩ := le_iff_position.mp hyx
  obtain rfl := Option.some.inj (hp.symm.trans hp')
  obtain rfl := Option.some.inj (hq.symm.trans hq')
  exact beq_iff_position.mpr ⟨p, q, hp, hq, Std.OrientedCmp.isLE_antisymm hpq hqp⟩

theorem le_of_beq (h : (x == y) = true) : x ≤ y := by
  obtain ⟨p, q, hp, hq, heq⟩ := beq_iff_position.mp h
  exact le_iff_position.mpr ⟨p, q, hp, hq, Ordering.isLE_of_eq_eq heq⟩

/-! ### Rounding -/

/-- A significand together with what it has lost: the next bit, and whether any bit was
    set after that. -/
def weight (em : ExtendedMantissa) : Nat :=
  4 * em.mantissa + 2 * em.roundBit.toNat + em.stickyBit.toNat

theorem weight_shiftRightOne (em : ExtendedMantissa) :
    weight em.shiftRightOne = 2 * (weight em / 4) + min 1 (weight em % 4) := by
  rcases em with ⟨m, roundBit, stickyBit⟩
  have hbit : (m % 2 != 0).toNat = m % 2 := by
    rcases Nat.mod_two_eq_zero_or_one m with h | h <;> rw [h] <;> rfl
  simp only [weight, ExtendedMantissa.shiftRightOne, hbit]
  cases roundBit <;> cases stickyBit <;>
    simp only [Bool.toNat_false, Bool.toNat_true, Bool.or_false, Bool.or_true] <;> omega

theorem weight_shiftRight_mono {em em' : ExtendedMantissa} (h : weight em ≤ weight em') (k : Nat) :
    weight (em >>> k) ≤ weight (em' >>> k) := by
  induction k with
  | zero => exact h
  | succ k ih =>
    change weight (em >>> k).shiftRightOne ≤ weight (em' >>> k).shiftRightOne
    rw [weight_shiftRightOne, weight_shiftRightOne]
    omega

theorem roundedMantissa_eq (em : ExtendedMantissa) :
    em.roundedMantissa = (weight em + 1 + em.mantissa % 2) / 4 := by
  rcases em with ⟨m, roundBit, stickyBit⟩
  cases roundBit <;> cases stickyBit <;>
    simp only [ExtendedMantissa.roundedMantissa, ExtendedMantissa.accuracy,
      Accuracy.roundToNearestEven, weight, Bool.toNat_false, Bool.toNat_true] <;> omega

theorem mantissa_eq (em : ExtendedMantissa) : em.mantissa = weight em / 4 := by
  have hround := em.roundBit.toNat_le
  have hsticky := em.stickyBit.toNat_le
  unfold weight
  omega

theorem roundedMantissa_mono {em em' : ExtendedMantissa} (h : weight em ≤ weight em') :
    em.roundedMantissa ≤ em'.roundedMantissa := by
  have hle : em.mantissa ≤ em'.mantissa := by
    rw [mantissa_eq, mantissa_eq]
    exact Nat.div_le_div_right h
  rcases Nat.lt_or_eq_of_le hle with hlt | heq
  · -- rounding up adds one at most
    have hup := (roundedMantissa_bounds em).2
    have hdown := (roundedMantissa_bounds em').1
    omega
  · rw [roundedMantissa_eq, roundedMantissa_eq, heq]
    exact Nat.div_le_div_right (by omega)

theorem rounded_mono {m m' : Nat} (h : m ≤ m') (k : Nat) : rounded m k ≤ rounded m' k := by
  refine roundedMantissa_mono (weight_shiftRight_mono ?_ k)
  simpa [weight] using h

theorem rounded_mul_two_pow (m k : Nat) : rounded (m * 2 ^ k) k = m := by
  rw [rounded, shiftRight_mul_two_pow]
  rfl

/-- A short number is its own double, aligned to fifty-three bits. -/
theorem nearest_of_lt {n : Nat} (hn : n ≠ 0) (hlt : n < 2 ^ 53) :
    nearest n = (n * 2 ^ (52 - n.log2), -((52 - n.log2 : Nat) : Int)) := by
  have hlog : n.log2 < 53 := (Nat.log2_lt hn).mpr hlt
  have hshift : n * 2 ^ 53 = n * 2 ^ (52 - n.log2) * 2 ^ (n.log2 + 1) := by
    rw [Nat.mul_assoc, ← Nat.pow_add]
    congr 2
    omega
  have hhigh := (aligned (Nat.pos_iff_ne_zero.mpr hn) hlt).2
  rw [nearest, hshift, rounded_mul_two_pow, carried, if_pos hhigh]
  congr 1
  omega

/-- Nearest doubles are ordered as the numbers are. -/
theorem nearest_mono {n n' : Nat} (hn : n ≠ 0) (h : n ≤ n') :
    (nearest n).2 < (nearest n').2 ∨
      (nearest n).2 = (nearest n').2 ∧ (nearest n).1 ≤ (nearest n').1 := by
  have hlog : n.log2 ≤ n'.log2 := (Nat.le_log2 (by omega)).mpr
    (Nat.le_trans (Nat.log2_self_le hn) h)
  rcases Nat.lt_or_eq_of_le hlog with hlog | hlog
  · -- only a carry brings the shorter number up to the exponent of the longer one
    obtain ⟨-, -, -, hhigh⟩ := nearest_bounds hn
    obtain ⟨hlow, -, hlow', -⟩ := nearest_bounds (n := n') (by omega)
    have hcarry : (nearest n).2 = (n.log2 : Int) - 52 ∨ (nearest n).1 = 2 ^ 52 := by
      unfold nearest carried
      split
      · exact .inl rfl
      · exact .inr rfl
    omega
  · have hrounded := rounded_mono (Nat.mul_le_mul_right (2 ^ 53) h) (n.log2 + 1)
    unfold nearest carried
    rw [← hlog]
    split <;> split <;> dsimp only <;> omega

/-! ### Integers -/

theorem position?_ofInt {i : Int} (hi : i ≠ 0) (hhigh : i.natAbs ≤ 2 ^ 63) :
    position? (Float.ofInt i) =
      let p : Position := ⟨1, (nearest i.natAbs).2, (nearest i.natAbs).1⟩
      some (if i < 0 then p.opposite else p) := by
  have hne : i.natAbs ≠ 0 := Int.natAbs_ne_zero.mpr hi
  have hparts : parts (Float.ofInt i) =
      .finite (decide (i < 0)) (nearest i.natAbs).1 (nearest i.natAbs).2 := by
    rcases Nat.lt_or_ge i.natAbs (2 ^ 53) with hlt | hge
    · rw [parts_ofInt hi hlt, nearest_of_lt hne hlt]
    · exact parts_ofInt_rounded hge hhigh
  have hpos : (nearest i.natAbs).1 ≠ 0 := by
    have hlow := (nearest_bounds hne).1
    omega
  rw [position?, hparts, Parts.position?, if_neg hpos]
  by_cases hneg : i < 0
  · rw [decide_eq_true hneg]
    exact congrArg some (if_pos hneg).symm
  · rw [decide_eq_false hneg]
    exact congrArg some (if_neg hneg).symm

theorem position?_ofInt_zero : position? (Float.ofInt 0) = some ⟨0, 0, 0⟩ := rfl

/-- The significand of a finite double is normal, or its exponent is the least one. -/
theorem parts_finite {s : Bool} {m : Nat} {e : Int} (h : parts x = .finite s m e) :
    e = -1074 ∧ m < 2 ^ 52 ∨ 2 ^ 52 ≤ m ∧ m < 2 ^ 53 := by
  have hfraction (n : Nat) : n % Nat.pow 2 52 < 2 ^ 52 := Nat.mod_lt n (by decide)
  have hpow : Nat.pow 2 52 = 2 ^ 52 := rfl
  unfold parts Parts.ofBits at h
  dsimp only at h
  split at h
  · split at h <;> cases h
  · split at h
    · injection h with _ hm he
      exact .inl ⟨he.symm, hm ▸ hfraction _⟩
    · injection h with _ hm _
      have := hfraction x.toBits.toNat
      omega

theorem whole?_finite {s : Bool} {m : Nat} {e i : Int}
    (h : (Parts.finite s m e).whole? = some i) :
    ∃ n, i = signed s n ∧
      (0 ≤ e ∧ n = m * 2 ^ e.toNat ∨ e < 0 ∧ m = n * 2 ^ (-e).toNat) := by
  rw [Parts.whole?] at h
  split at h
  · rename_i he
    exact ⟨_, (Option.some.inj h).symm, .inl ⟨he, rfl⟩⟩
  · rename_i he
    split at h
    · rename_i hdvd
      refine ⟨_, (Option.some.inj h).symm, .inr ⟨Int.not_le.mp he, ?_⟩⟩
      exact (Nat.div_mul_cancel (Nat.dvd_of_mod_eq_zero hdvd)).symm
    · cases h

/-- The bits of a short whole number are those of the integer, moved to the top. -/
theorem nearest_of_whole {x : Float} {s : Bool} {m n : Nat} {e : Int}
    (hx : parts x = .finite s m e) (hn : n ≠ 0) (hlt : n < 2 ^ 53)
    (h : 0 ≤ e ∧ n = m * 2 ^ e.toNat ∨ e < 0 ∧ m = n * 2 ^ (-e).toNat) : nearest n = (m, e) := by
  have hlog {m : Nat} (hlow : 2 ^ 52 ≤ m) (hhigh : m < 2 ^ 53) : m.log2 = 52 := by
    have hm : m ≠ 0 := by omega
    have h52 := (Nat.le_log2 hm).mpr hlow
    have h53 := (Nat.log2_lt hm).mpr hhigh
    omega
  rw [nearest_of_lt hn hlt]
  rcases h with ⟨he, rfl⟩ | ⟨he, rfl⟩
  · rcases parts_finite hx with ⟨hleast, -⟩ | ⟨hlow, -⟩
    · omega
    · have hzero : e = 0 := by
        have hle : m * 2 ^ e.toNat < m * 2 ^ 1 := by omega
        have := (Nat.pow_lt_pow_iff_right (by decide)).mp (Nat.lt_of_mul_lt_mul_left hle)
        omega
      subst hzero
      simp only [Int.toNat_zero, Nat.pow_zero, Nat.mul_one] at hlt ⊢
      rw [hlog hlow hlt]
      simp
  · have hsum := log2_mul_two_pow hn (-e).toNat
    rcases parts_finite hx with ⟨hleast, hsmall⟩ | ⟨hlow, hhigh⟩
    · have hpow : 2 ^ 52 ≤ 2 ^ (-e).toNat := Nat.pow_le_pow_right (by decide) (by omega)
      have hle := Nat.le_mul_of_pos_left (2 ^ (-e).toNat) (Nat.pos_of_ne_zero hn)
      omega
    · rw [hlog hlow hhigh] at hsum
      have hk : 52 - n.log2 = (-e).toNat := by omega
      rw [hk]
      congr 1
      omega

/-- A short whole number lies where the double of the integer lies. -/
theorem position?_of_whole {i : Int} (h : (parts x).whole? = some i) (hlt : i.natAbs < 2 ^ 53) :
    position? x = position? (Float.ofInt i) := by
  cases hx : parts x with
  | nan => rw [hx] at h; cases h
  | infinite s => rw [hx] at h; cases h
  | finite s m e =>
    rw [hx] at h
    obtain ⟨n, rfl, hn⟩ := whole?_finite h
    have habs : (signed s n).natAbs = n := by cases s <;> simp [signed]
    rw [habs] at hlt
    rw [position?, hx]
    by_cases hzero : n = 0
    · have hm : m = 0 := by
        rcases hn with ⟨-, hn⟩ | ⟨-, hm⟩
        · exact (Nat.mul_eq_zero.mp (hn ▸ hzero)).resolve_right (Nat.ne_of_gt (Nat.two_pow_pos _))
        · rw [hm, hzero, Nat.zero_mul]
      have hi : signed s n = 0 := Int.natAbs_eq_zero.mp (habs.trans hzero)
      rw [hm, hi, position?_ofInt_zero]
      rfl
    · have hm : m ≠ 0 := by
        rintro rfl
        rcases hn with ⟨-, hn⟩ | ⟨-, hm⟩
        · exact hzero (by simpa using hn)
        · exact hzero ((Nat.mul_eq_zero.mp hm.symm).resolve_right
            (Nat.ne_of_gt (Nat.two_pow_pos _)))
      have hi : signed s n ≠ 0 := fun hi => hzero (habs ▸ Int.natAbs_eq_zero.mpr hi)
      rw [position?_ofInt hi (by omega), habs, nearest_of_whole hx hzero hlt hn,
        Parts.position?, if_neg hm]
      cases s with
      | true =>
        have hneg : signed true n < 0 := by simp only [signed, if_true]; omega
        exact congrArg some (if_pos hneg).symm
      | false =>
        have hpos : ¬signed false n < 0 := by
          simp only [signed, Bool.false_eq_true, if_false]
          omega
        exact congrArg some (if_neg hpos).symm

/-- Rounding to doubles respects the order of integers. -/
theorem ofInt_le_ofInt {i j : Int} (h : i ≤ j) (hi : i.natAbs ≤ 2 ^ 63) (hj : j.natAbs ≤ 2 ^ 63) :
    Float.ofInt i ≤ Float.ofInt j := by
  rw [le_iff_position]
  by_cases hi0 : i = 0
  · rw [hi0, position?_ofInt_zero]
    by_cases hj0 : j = 0
    · rw [hj0, position?_ofInt_zero]
      exact ⟨_, _, rfl, rfl, rfl⟩
    · rw [position?_ofInt hj0 hj]
      refine ⟨_, _, rfl, rfl, ?_⟩
      rw [if_neg (by omega)]
      rfl
  · rw [position?_ofInt hi0 hi]
    by_cases hj0 : j = 0
    · rw [hj0, position?_ofInt_zero]
      refine ⟨_, _, rfl, rfl, ?_⟩
      rw [if_pos (by omega)]
      rfl
    · rw [position?_ofInt hj0 hj]
      refine ⟨_, _, rfl, rfl, ?_⟩
      by_cases hineg : i < 0
      · rw [if_pos hineg]
        by_cases hjneg : j < 0
        · rw [if_pos hjneg, Position.order_opposite]
          exact Position.isLE_order (nearest_mono (Int.natAbs_ne_zero.mpr hj0) (by omega))
        · rw [if_neg hjneg]
          rfl
      · rw [if_neg hineg, if_neg (by omega)]
        exact Position.isLE_order (nearest_mono (Int.natAbs_ne_zero.mpr hi0) (by omega))

theorem ofInt_mono {v w : Int64} (h : v ≤ w) : Float.ofInt v.toInt ≤ Float.ofInt w.toInt :=
  ofInt_le_ofInt (Int64.le_iff_toInt_le.mp h) (natAbs_toInt_le v) (natAbs_toInt_le w)

end Polystore.Number
