import Polystore.Proofs.WholeDoubles

/-
  Polystore/Proofs/WholeNumerals.lean
  ===================================
  **The plain text of a whole double.**  The shortest decimal of a whole number
  below `2 ^ 53` is the number itself with its final zeros in the exponent: a point
  of a grid `10 ^ p` lies in the interval of the reals that round to the double only
  if it is the number, for the interval is narrower than the distance to the next
  one, and on the grid of the units the number is such a point.  Written out
  without exponent that is the text of the integer (`render_ofInt`).
-/

namespace Polystore.Number

/-! ### Grids -/

section

variable {tie : Tie} {n k p : Nat}

theorem roundDiv_cases (tie : Tie) (num den : Nat) :
    roundDiv tie num den = num / den ∨ roundDiv tie num den = num / den + 1 := by
  unfold roundDiv Tie.choose
  split
  · exact .inl rfl
  · exact .inr rfl
  · exact .inr rfl
  · rcases Nat.mod_two_eq_zero_or_one (num / den) with h | h
    · rw [h]
      exact .inl rfl
    · rw [h]
      exact .inr rfl

/-- What a grid gives lies in the interval. -/
theorem Interval.onGrid?_bounds {i : Interval} {unit step d : Nat}
    (h : i.onGrid? tie unit step = some d) :
    i.low * unit ≤ d * step ∧ d * step ≤ i.high * unit := by
  have hinside {d : Nat} (hd : (if i.closed then
        decide (i.low * unit ≤ d * step) && decide (d * step ≤ i.high * unit)
      else decide (i.low * unit < d * step) && decide (d * step < i.high * unit)) = true) :
      i.low * unit ≤ d * step ∧ d * step ≤ i.high * unit := by
    split at hd
    · simpa using hd
    · have hlt : i.low * unit < d * step ∧ d * step < i.high * unit := by simpa using hd
      exact ⟨Nat.le_of_lt hlt.1, Nat.le_of_lt hlt.2⟩
  unfold Interval.onGrid? at h
  dsimp only at h
  split at h
  case h_1 hlow hhigh =>
    obtain rfl := Option.some.inj h
    rcases roundDiv_cases tie (i.centre * unit) step with heq | heq
    · rw [heq]
      exact hinside hlow
    · rw [heq]
      exact hinside hhigh
  case h_2 hlow _ =>
    obtain rfl := Option.some.inj h
    exact hinside hlow
  case h_3 _ hhigh =>
    obtain rfl := Option.some.inj h
    exact hinside hhigh
  case h_4 => cases h

theorem Interval.of_bounds (m : Nat) (e : Int) :
    4 * m ≤ (Interval.of m e).low + 2 ∧ ((Interval.of m e).low < 4 * m ∨ m = 0) := by
  change 4 * m ≤ 4 * m - (if m = 2 ^ 52 ∧ -1074 < e then 1 else 2) + 2 ∧
    (4 * m - (if m = 2 ^ 52 ∧ -1074 < e then 1 else 2) < 4 * m ∨ m = 0)
  split <;> omega

/-- The grid `10 ^ p` in the units of the interval. -/
theorem decimalOnGrid?_eq (tie : Tie) (n k p : Nat) :
    decimalOnGrid? tie (n * 2 ^ k) (-(k : Int)) p =
      ((Interval.of (n * 2 ^ k) (-(k : Int))).onGrid? tie 1 (4 * 2 ^ k * 10 ^ p)).map (⟨·, p⟩) := by
  have hunit : (-(k : Int) - 2).toNat = 0 := by omega
  have hscale : (-(p : Int)).toNat = 0 := by omega
  have hstep : (-(-(k : Int) - 2)).toNat = 2 + k := by omega
  have hpower : Nat.pow 2 (2 + k) = 4 * 2 ^ k := Nat.pow_add 2 2 k
  unfold decimalOnGrid?
  dsimp only
  rw [hunit, hscale, hstep, hpower]
  rfl

/-- The steps of the grid are wider than the interval. -/
theorem decimalOnGrid?_whole {d : Decimal}
    (h : decimalOnGrid? tie (n * 2 ^ k) (-(k : Int)) p = some d) :
    d.exponent = p ∧ d.digits * 10 ^ p = n := by
  rw [decimalOnGrid?_eq] at h
  obtain ⟨digits, hdigits, rfl⟩ := Option.map_eq_some_iff.mp h
  refine ⟨rfl, ?_⟩
  have hbounds := Interval.onGrid?_bounds hdigits
  have hpoint : digits * (4 * 2 ^ k * 10 ^ p) = digits * 10 ^ p * (4 * 2 ^ k) := by
    rw [Nat.mul_comm (4 * 2 ^ k), Nat.mul_assoc]
  have hcentre : 4 * (n * 2 ^ k) = n * (4 * 2 ^ k) := Nat.mul_left_comm 4 n (2 ^ k)
  have hwide : 4 ≤ 4 * 2 ^ k := Nat.le_mul_of_pos_right 4 (Nat.two_pow_pos k)
  have hof := (Interval.of_bounds (n * 2 ^ k) (-(k : Int))).1
  have hlow : n * (4 * 2 ^ k) ≤ digits * 10 ^ p * (4 * 2 ^ k) + 2 := by
    rw [← hpoint, ← hcentre]
    omega
  have hhigh : digits * 10 ^ p * (4 * 2 ^ k) ≤ n * (4 * 2 ^ k) + 2 := by
    rw [← hpoint, ← hcentre]
    exact Nat.le_trans hbounds.2 (Nat.le_of_eq (Nat.mul_one _))
  change digits * 10 ^ p = n
  generalize digits * 10 ^ p = point at *
  generalize 4 * 2 ^ k = width at *
  rcases Nat.lt_trichotomy point n with hlt | heq | hgt
  · have hle : (point + 1) * width ≤ n * width := Nat.mul_le_mul_right width hlt
    rw [Nat.succ_mul] at hle
    omega
  · exact heq
  · have hle : (n + 1) * width ≤ point * width := Nat.mul_le_mul_right width hgt
    rw [Nat.succ_mul] at hle
    omega

/-- On the grid of the units the number itself is a point. -/
theorem decimalOnGrid?_units (tie : Tie) (hn : 0 < n) :
    decimalOnGrid? tie (n * 2 ^ k) (-(k : Int)) (0 : Nat) ≠ none := by
  have hpos : 0 < 4 * 2 ^ k := Nat.mul_pos (by decide) (Nat.two_pow_pos k)
  have hcentre : 4 * (n * 2 ^ k) = n * (4 * 2 ^ k) := Nat.mul_left_comm 4 n (2 ^ k)
  have hne : n * 2 ^ k ≠ 0 := Nat.ne_of_gt (Nat.mul_pos hn (Nat.two_pow_pos k))
  have hbelow := (Interval.of_bounds (n * 2 ^ k) (-(k : Int))).2.resolve_right hne
  have hstep : 4 * 2 ^ k * 10 ^ 0 = 4 * 2 ^ k := Nat.mul_one _
  rw [decimalOnGrid?_eq, hstep, ne_eq, Option.map_eq_none_iff]
  unfold Interval.onGrid?
  dsimp only
  have hvalue : (Interval.of (n * 2 ^ k) (-(k : Int))).centre * 1 / (4 * 2 ^ k) = n := by
    change 4 * (n * 2 ^ k) * 1 / (4 * 2 ^ k) = n
    rw [Nat.mul_one, hcentre, Nat.mul_div_cancel n hpos]
  have hhigh : (Interval.of (n * 2 ^ k) (-(k : Int))).high = n * (4 * 2 ^ k) + 2 :=
    congrArg (· + 2) hcentre
  rw [hvalue, hhigh]
  rw [hcentre] at hbelow
  have hinside : ∀ closed : Bool, (if closed = true then
        decide ((Interval.of (n * 2 ^ k) (-(k : Int))).low * 1 ≤ n * (4 * 2 ^ k)) &&
          decide (n * (4 * 2 ^ k) ≤ (n * (4 * 2 ^ k) + 2) * 1)
      else
        decide ((Interval.of (n * 2 ^ k) (-(k : Int))).low * 1 < n * (4 * 2 ^ k)) &&
          decide (n * (4 * 2 ^ k) < (n * (4 * 2 ^ k) + 2) * 1)) = true := by
    intro closed
    cases closed <;> simp <;> omega
  rw [hinside]
  split
  case h_1 => exact Option.some_ne_none _
  case h_2 => exact Option.some_ne_none _
  case h_3 hfalse _ => cases hfalse
  case h_4 hfalse _ => cases hfalse

/-- The first grid that gives a decimal is not finer than that of the units. -/
theorem shortest_whole (tie : Tie) (hn : 0 < n) (hlow : 2 ^ 52 ≤ n * 2 ^ k)
    (hhigh : n * 2 ^ k < 2 ^ 53) :
    ∃ d p : Nat, shortest tie (n * 2 ^ k) (-(k : Int)) = ⟨d, p⟩ ∧ d * 10 ^ p = n := by
  have hne : n * 2 ^ k ≠ 0 := Nat.ne_of_gt (Nat.mul_pos hn (Nat.two_pow_pos k))
  have hk : k < 53 := by
    have hle : 2 ^ k ≤ n * 2 ^ k := Nat.le_mul_of_pos_left _ hn
    exact (Nat.pow_lt_pow_iff_right (by decide)).mp (Nat.lt_of_le_of_lt hle hhigh)
  have hlog : (n * 2 ^ k).log2 = 52 := (Nat.log2_eq_iff hne).mpr ⟨hlow, hhigh⟩
  obtain ⟨top, htop, hlt⟩ : ∃ top : Nat, topGrid (n * 2 ^ k) (-(k : Int)) = top ∧ top < 20 := by
    unfold topGrid
    rw [hlog]
    exact ⟨(((52 : Nat) + 1 + -(k : Int)) * 30103 / 100000 + 1).toNat, by omega, by omega⟩
  have hrange : List.range 20 = List.range (top + 1) ++
      (List.range (19 - top)).map (top + 1 + ·) := by
    rw [← List.range_add]
    congr 1
    omega
  have hunits : decimalOnGrid? tie (n * 2 ^ k) (-(k : Int)) ((top : Int) - top) ≠ none := by
    rw [Int.sub_self]
    exact decimalOnGrid?_units tie hn
  obtain ⟨found, hfound⟩ : ∃ found, (List.range (top + 1)).findSome? (fun i : Nat =>
      decimalOnGrid? tie (n * 2 ^ k) (-(k : Int)) ((top : Int) - i)) = some found := by
    rw [← Option.isSome_iff_exists, List.findSome?_isSome_iff]
    exact ⟨top, List.mem_range.mpr (Nat.lt_succ_self top), Option.isSome_iff_ne_none.mpr hunits⟩
  obtain ⟨i, hi, hgrid⟩ := List.exists_of_findSome?_eq_some hfound
  have hp : (top : Int) - i = ((top - i : Nat) : Int) := by
    have hle : i < top + 1 := List.mem_range.mp hi
    omega
  rw [hp] at hgrid
  obtain ⟨hexponent, hvalue⟩ := decimalOnGrid?_whole hgrid
  refine ⟨found.digits, top - i, ?_, hvalue⟩
  unfold shortest
  rw [if_neg hne]
  dsimp only
  rw [htop, hrange, List.findSome?_append, hfound, Option.some_or, Option.getD_some, ← hexponent]

end

/-! ### Digits -/

theorem digitsOf_append_zeros {d : Nat} (hd : 0 < d) (p : Nat) :
    digitsOf d ++ List.replicate p '0' = digitsOf (d * 10 ^ p) := by
  induction p with
  | zero => rw [List.replicate_zero, List.append_nil, Nat.pow_zero, Nat.mul_one]
  | succ p ih =>
    rw [List.replicate_succ', ← List.append_assoc, ih, Nat.pow_succ, ← Nat.mul_assoc,
      Nat.mul_comm _ 10]
    have hpos : 0 < d * 10 ^ p := Nat.mul_pos hd (Nat.pow_pos (by decide))
    exact Nat.toDigits_append_toDigits (b := 10) (d := 0) (by decide) hpos (by decide)

theorem positionalText_whole {d : Nat} (hd : 0 < d) (p : Nat) :
    positionalText false ⟨d, p⟩ = digitsOf (d * 10 ^ p) := by
  unfold positionalText
  dsimp only
  rw [if_pos (Int.natCast_nonneg p), Int.toNat_natCast, digitsOf_append_zeros hd]
  exact List.append_nil _

theorem intText_eq (i : Int) :
    intText i = String.ofList ((if i < 0 then ['-'] else []) ++ digitsOf i.natAbs) := by
  cases i with
  | ofNat n =>
    have hsign : ¬Int.ofNat n < 0 := Int.not_lt.mpr (Int.natCast_nonneg n)
    rw [if_neg hsign]
    rfl
  | negSucc n =>
    rw [if_pos (Int.negSucc_lt_zero n)]
    rfl

/-- A whole double is written as the integer. -/
theorem render_ofInt {i : Int} (hlt : i.natAbs < 2 ^ 53) :
    plain.render (Float.ofInt i) = intText i := by
  by_cases hi : i = 0
  · subst hi
    rfl
  · have hpos : 0 < i.natAbs := Int.natAbs_pos.mpr hi
    obtain ⟨hlow, hhigh⟩ := aligned hpos hlt
    obtain ⟨d, p, hshortest, hvalue⟩ := shortest_whole .up hpos hlow hhigh
    have hd : 0 < d := by
      rcases Nat.eq_zero_or_pos d with rfl | hd
      · rw [Nat.zero_mul] at hvalue
        omega
      · exact hd
    have htext : plain.decimal (shortest plain.tie (i.natAbs * 2 ^ (52 - i.natAbs.log2))
        (-((52 - i.natAbs.log2 : Nat) : Int))) = digitsOf i.natAbs := by
      change plain.decimal (shortest .up _ _) = _
      rw [hshortest, ← hvalue, ← positionalText_whole hd]
      exact if_pos (.inr rfl)
    rw [Layout.render, parts_ofInt hi hlt, intText_eq]
    dsimp only
    rw [htext]
    simp only [decide_eq_true_eq]

end Polystore.Number
