import Mathlib
import Polystore.Number.Layout

/-
  Polystore/Proofs/WholeDoubles.lean
  ==================================
  **Integers as doubles.**  What a double denotes is what it unpacks to
  (`parts_eq`).  An integer of fewer than fifty-four bits is a double itself: its
  bits are moved to the top of the significand, and no rounding takes place
  (`parts_ofInt`).  A longer one loses its last bit at least, so that its double
  has a positive exponent (`parts_ofInt_large`).  Therefore equality of doubles
  tells a short integer from every other integer (`ofInt_injective`).
-/

namespace Polystore.Number

open Float.Model Float.Model.UnpackedFloat

/-! ### Exact values -/

def isNegative : Sign → Bool
  | .negative => true
  | .positive => false

/-- What an unpacked float denotes. -/
def Parts.ofUnpacked : UnpackedFloat → Parts
  | .notANumber => .nan
  | .infinity s => .infinite (isNegative s)
  | .zero s => .finite (isNegative s) 0 (-1074)
  | .finite s m e _ => .finite (isNegative s) m e

theorem unpackMantissa_toNat (b : BitVec Format.binary64.numBits) :
    (unpackMantissa b).toNat = b.toNat % 2 ^ 52 := by
  simp [unpackMantissa_def, BitVec.extractLsb'_toNat]

theorem unpackExponent_toNat (b : BitVec Format.binary64.numBits) :
    (unpackExponent b).toNat = b.toNat / 2 ^ 52 % 2 ^ 11 := by
  simp [unpackExponent_def, BitVec.extractLsb'_toNat, Nat.shiftRight_eq_div_pow]

theorem isNegative_unpackSign (b : BitVec Format.binary64.numBits) :
    isNegative (Sign.ofBitVec (unpackSign b)) = b.toNat.testBit 63 := by
  have hsign : (unpackSign b).toNat = b.toNat / 2 ^ 63 % 2 := by
    simp [unpackSign_def, BitVec.extractLsb'_toNat, Nat.shiftRight_eq_div_pow]
  rw [Nat.testBit_eq_decide_div_mod_eq, Sign.ofBitVec, ← hsign]
  have hlt : (unpackSign b).toNat < 2 := (unpackSign b).isLt
  by_cases hzero : unpackSign b = 0#1
  · simp [hzero, isNegative]
  · have hone : (unpackSign b).toNat = 1 := by
      have hne : (unpackSign b).toNat ≠ 0 := fun h => hzero (BitVec.eq_of_toNat_eq h)
      omega
    simp [hzero, hone, isNegative]

theorem ofBits_toNat (b : BitVec Format.binary64.numBits) :
    Parts.ofBits b.toNat = Parts.ofUnpacked (UnpackedFloat.unpack Format.binary64 b) := by
  have hbits : Parts.ofBits b.toNat =
      if (unpackExponent b).toNat = 2047 then
        if (unpackMantissa b).toNat = 0 then
          .infinite (isNegative (Sign.ofBitVec (unpackSign b)))
        else .nan
      else if (unpackExponent b).toNat = 0 then
        .finite (isNegative (Sign.ofBitVec (unpackSign b))) (unpackMantissa b).toNat (-1074)
      else
        .finite (isNegative (Sign.ofBitVec (unpackSign b))) (2 ^ 52 + (unpackMantissa b).toNat)
          ((unpackExponent b).toNat - 1075) := by
    rw [unpackMantissa_toNat, unpackExponent_toNat, isNegative_unpackSign]
    rfl
  rw [hbits]
  unfold UnpackedFloat.unpack
  have hones : unpackExponent b = -1#11 ↔ (unpackExponent b).toNat = 2047 := by
    rw [← BitVec.toNat_inj]
    rfl
  have hzeros : unpackExponent b = 0#11 ↔ (unpackExponent b).toNat = 0 := by
    rw [← BitVec.toNat_inj]
    rfl
  have hfraction : unpackMantissa b = 0#52 ↔ (unpackMantissa b).toNat = 0 := by
    rw [← BitVec.toNat_inj]
    rfl
  simp only [hones, hzeros, hfraction]
  split
  · split
    · rfl
    · rfl
  · split
    case isTrue hexponent =>
      split
      case isTrue hmantissa => rw [hmantissa]; rfl
      case isFalse =>
        rw [hexponent]
        rfl
    case isFalse =>
      have hmantissa : (1#1 ++ unpackMantissa b).toNat = 2 ^ 52 + (unpackMantissa b).toNat := by
        rw [BitVec.toNat_append, ← Nat.shiftLeft_add_eq_or_of_lt (unpackMantissa b).isLt]
        rfl
      simp only [Parts.ofUnpacked, hmantissa]
      rfl

/-- The exact value is that of the unpacked float. -/
theorem parts_eq (x : Float) : parts x = Parts.ofUnpacked x.toModel.unpack :=
  ofBits_toNat x.toModel.toBits.toBitVec

/-! ### Packing -/

/-- Normal numbers are packed exactly. -/
theorem unpack_pack {s : Sign} {m : Nat} {e : Int} (hpos : 0 < m) (hlow : 2 ^ 52 ≤ m)
    (hhigh : m < 2 ^ 53) (hmin : -1074 ≤ e) (hmax : e ≤ 971) :
    (Float.Model.pack (.finite s m e hpos)).unpack = .finite s m e hpos := by
  have hlog : m.log2 = 52 := (Nat.log2_eq_iff (Nat.ne_of_gt hpos)).mpr ⟨hlow, hhigh⟩
  have hpack : UnpackedFloat.pack Format.binary64 (.finite s m e hpos) =
      packComponents Format.binary64 s (BitVec.ofNat 11 (e + 1075).toNat) (BitVec.ofNat 52 m) := by
    have hbiased : (e + 1023 + 52).toNat = (e + 1075).toNat := by omega
    have hfits : ¬2 ^ 11 ≤ (e + 1075).toNat + 1 := by omega
    change (if 2 ^ 11 ≤ (e + 1023 + 52).toNat + 1 then _
      else if m.log2 + 1 = 53 then
        packComponents Format.binary64 s (BitVec.ofNat 11 (e + 1023 + 52).toNat)
          (BitVec.ofNat 52 m)
      else _) = _
    rw [hbiased, if_neg hfits, if_pos (by omega)]
  change UnpackedFloat.unpack Format.binary64
    (UnpackedFloat.pack Format.binary64 (.finite s m e hpos)) = _
  rw [hpack]
  unfold UnpackedFloat.unpack
  simp only [unpackExponent_packComponents, unpackMantissa_packComponents,
    unpackSign_packComponents, Sign.ofBitVec_toBitVec]
  have hexponent : (BitVec.ofNat 11 (e + 1075).toNat).toNat = (e + 1075).toNat := by
    rw [BitVec.toNat_ofNat]
    omega
  have hones : BitVec.ofNat 11 (e + 1075).toNat ≠ -1#11 := by
    intro h
    have h' : (e + 1075).toNat = 2047 := hexponent.symm.trans (congrArg BitVec.toNat h)
    omega
  have hzeros : BitVec.ofNat 11 (e + 1075).toNat ≠ 0#11 := by
    intro h
    have h' : (e + 1075).toNat = 0 := hexponent.symm.trans (congrArg BitVec.toNat h)
    omega
  have hmantissa : (1#1 ++ BitVec.ofNat 52 m).toNat = m := by
    rw [BitVec.toNat_append, ← Nat.shiftLeft_add_eq_or_of_lt (BitVec.ofNat 52 m).isLt,
      BitVec.toNat_ofNat]
    change 2 ^ 52 + m % 2 ^ 52 = m
    omega
  simp only [hones, hzeros, if_false, hmantissa, hexponent]
  have hvalue : ((e + 1075).toNat : Int) - (1023 + 52) = e := by omega
  exact congrArg (fun e => UnpackedFloat.finite s m e hpos) hvalue

/-! ### Rounding -/

theorem shiftRight_mantissa (em : ExtendedMantissa) (k : Nat) :
    (em >>> k).mantissa = em.mantissa / 2 ^ k := by
  induction k with
  | zero => exact (Nat.div_one _).symm
  | succ k ih =>
    change (em >>> k).mantissa / 2 = _
    rw [ih, Nat.div_div_eq_div_mul, Nat.pow_succ]

/-- Nothing is lost when the bits that go are zeros. -/
theorem shiftRight_mul_two_pow (m k : Nat) :
    (ExtendedMantissa.mk (m * 2 ^ k) false false) >>> k = ExtendedMantissa.mk m false false := by
  induction k generalizing m with
  | zero =>
    rw [Nat.pow_zero, Nat.mul_one]
    rfl
  | succ k ih =>
    have hstep := ih (m * 2)
    rw [Nat.mul_assoc, ← Nat.pow_succ'] at hstep
    change ((ExtendedMantissa.mk (m * 2 ^ (k + 1)) false false) >>> k).shiftRightOne = _
    rw [hstep]
    simp [ExtendedMantissa.shiftRightOne]

theorem roundedMantissa_bounds (em : ExtendedMantissa) :
    em.mantissa ≤ em.roundedMantissa ∧ em.roundedMantissa ≤ em.mantissa + 1 := by
  rcases em with ⟨m, roundBit, stickyBit⟩
  have hparity : m % 2 ≤ 1 := by omega
  cases roundBit <;> cases stickyBit <;>
    simp only [ExtendedMantissa.roundedMantissa, ExtendedMantissa.accuracy,
      Accuracy.roundToNearestEven] <;> omega

theorem log2_mul_two_pow {m : Nat} (hm : m ≠ 0) (k : Nat) : (m * 2 ^ k).log2 = m.log2 + k := by
  obtain ⟨hlow, hhigh⟩ := (Nat.log2_eq_iff hm).mp rfl
  have hne : m * 2 ^ k ≠ 0 := Nat.mul_ne_zero hm (Nat.ne_of_gt (Nat.two_pow_pos k))
  refine (Nat.log2_eq_iff hne).mpr ⟨?_, ?_⟩
  · rw [Nat.pow_add]
    exact Nat.mul_le_mul_right _ hlow
  · rw [Nat.add_right_comm, Nat.pow_add]
    exact Nat.mul_lt_mul_of_pos_right hhigh (Nat.two_pow_pos k)

/-- Enough bits are shifted out to leave fifty-three. -/
theorem shiftToTargetExponent_eq {m k : Nat} {e : Int} (hlog : m.log2 = 52 + k)
    (hmin : -1074 ≤ e + k) : shiftToTargetExponent Format.binary64 m e .exact =
      (ExtendedMantissa.mk m false false >>> k, e + k) := by
  have htarget : Format.binary64.targetExponent (totalExponent m e) = e + k := by
    change max ((m.log2 : Int) + 1 + e - 53) (-1074) = e + k
    omega
  have hshift : (Format.binary64.targetExponent (totalExponent m e) - e).toNat = k := by
    rw [htarget]
    omega
  change (ExtendedMantissa.mk m false false >>>
      (Format.binary64.targetExponent (totalExponent m e) - e).toNat,
    e + ((Format.binary64.targetExponent (totalExponent m e) - e).toNat : Int)) = _
  rw [hshift]

/-- The natural number nearest to `m / 2 ^ k`, the even one of two. -/
def rounded (m k : Nat) : Nat := (ExtendedMantissa.mk m false false >>> k).roundedMantissa

/-- A significand that rounding up has made one bit too long gives that bit to the
    exponent. -/
def carried (r : Nat) (e : Int) : Nat × Int :=
  if r < 2 ^ 53 then (r, e) else (2 ^ 52, e + 1)

theorem rounded_bounds {m k : Nat} (hlog : m.log2 = 52 + k) :
    2 ^ 52 ≤ rounded m k ∧ rounded m k ≤ 2 ^ 53 := by
  have hm : m ≠ 0 := by
    rintro rfl
    rw [Nat.log2_zero] at hlog
    omega
  obtain ⟨hlow, hhigh⟩ := (Nat.log2_eq_iff hm).mp hlog
  have hbounds := roundedMantissa_bounds (ExtendedMantissa.mk m false false >>> k)
  rw [shiftRight_mantissa] at hbounds
  change m / 2 ^ k ≤ rounded m k ∧ rounded m k ≤ m / 2 ^ k + 1 at hbounds
  have hquotient : 2 ^ 52 ≤ m / 2 ^ k ∧ m / 2 ^ k < 2 ^ 53 := by
    constructor
    · rw [Nat.le_div_iff_mul_le (Nat.two_pow_pos k), ← Nat.pow_add]
      exact hlow
    · rw [Nat.div_lt_iff_lt_mul (Nat.two_pow_pos k), ← Nat.pow_add]
      exact Nat.lt_of_lt_of_eq hhigh (congrArg _ (by omega))
  omega

theorem carried_bounds {r : Nat} (hlow : 2 ^ 52 ≤ r) (e : Int) :
    2 ^ 52 ≤ (carried r e).1 ∧ (carried r e).1 < 2 ^ 53 ∧
      e ≤ (carried r e).2 ∧ (carried r e).2 ≤ e + 1 := by
  unfold carried
  split
  · exact ⟨hlow, ‹_›, by omega, by omega⟩
  · exact ⟨Nat.le_refl _, by omega, by omega, by omega⟩

/-- Rounding leaves fifty-three bits, and the exponent follows. -/
theorem roundWithAccuracy_normal {s : Sign} {m k : Nat} {e : Int} (hlog : m.log2 = 52 + k)
    (hmin : -1074 ≤ e + k) : ∃ hpos, roundWithAccuracy Format.binary64 s m e .exact =
      .finite s (carried (rounded m k) (e + k)).1 (carried (rounded m k) (e + k)).2 hpos := by
  obtain ⟨hlow, hhigh⟩ := rounded_bounds hlog
  have hround : roundWithAccuracy Format.binary64 s m e .exact =
      let shifted := shiftToTargetExponent Format.binary64 (rounded m k) (e + k) .exact
      if h : shifted.1.mantissa = 0 then .zero s
      else .finite s shifted.1.mantissa shifted.2 (Nat.pos_iff_ne_zero.mpr h) := by
    rw [roundWithAccuracy, shiftToTargetExponent_eq hlog hmin]
    rfl
  rw [hround]
  by_cases hsmall : rounded m k < 2 ^ 53
  · have hrlog : (rounded m k).log2 = 52 + 0 :=
      (Nat.log2_eq_iff (by omega)).mpr ⟨by omega, by omega⟩
    have hcarried : carried (rounded m k) (e + k) = (rounded m k, e + k) := if_pos hsmall
    rw [shiftToTargetExponent_eq hrlog (by omega), hcarried]
    refine ⟨by omega, ?_⟩
    refine (dif_neg (by change ¬rounded m k = 0; omega)).trans ?_
    congr 1
    exact Int.add_zero (e + k)
  · -- rounding up has carried over all bits
    have hr : rounded m k = 2 ^ 53 := by omega
    rw [hr, shiftToTargetExponent_eq (k := 1) Nat.log2_two_pow (by omega)]
    exact ⟨Nat.two_pow_pos 52, rfl⟩

/-- A number of fifty-three bits, whatever zeros follow them, is not changed. -/
theorem roundWithAccuracy_exact {s : Sign} {m k : Nat} {e : Int} (hpos : 0 < m)
    (hlow : 2 ^ 52 ≤ m) (hhigh : m < 2 ^ 53) (hmin : -1074 ≤ e + k) :
    roundWithAccuracy Format.binary64 s (m * 2 ^ k) e .exact = .finite s m (e + k) hpos := by
  have hlog : m.log2 = 52 + 0 := (Nat.log2_eq_iff (Nat.ne_of_gt hpos)).mpr ⟨hlow, hhigh⟩
  have hscaled : (m * 2 ^ k).log2 = 52 + k := by rw [log2_mul_two_pow (Nat.ne_of_gt hpos), hlog]
  have hrounded : (ExtendedMantissa.mk m false false).roundedMantissa = m := rfl
  have hsecond := shiftToTargetExponent_eq (e := e + k) hlog (by omega)
  rw [roundWithAccuracy, shiftToTargetExponent_eq hscaled hmin, shiftRight_mul_two_pow]
  dsimp only
  rw [hrounded, hsecond]
  refine (dif_neg (Nat.ne_of_gt hpos)).trans ?_
  exact congrArg (fun e => UnpackedFloat.finite s m e hpos) (Int.add_zero (e + k))

/-! ### Natural numbers -/

/-- Fifty-three bits with the leading one on top. -/
theorem aligned {n : Nat} (hpos : 0 < n) (hlt : n < 2 ^ 53) :
    2 ^ 52 ≤ n * 2 ^ (52 - n.log2) ∧ n * 2 ^ (52 - n.log2) < 2 ^ 53 := by
  obtain ⟨hlow, hhigh⟩ := (Nat.log2_eq_iff (Nat.ne_of_gt hpos)).mp rfl
  have hlog : n.log2 < 53 := (Nat.log2_lt (Nat.ne_of_gt hpos)).mpr hlt
  constructor
  · calc 2 ^ 52 = 2 ^ n.log2 * 2 ^ (52 - n.log2) := by rw [← Nat.pow_add]; congr 1; omega
      _ ≤ n * 2 ^ (52 - n.log2) := Nat.mul_le_mul_right _ hlow
  · calc n * 2 ^ (52 - n.log2) < 2 ^ (n.log2 + 1) * 2 ^ (52 - n.log2) :=
          Nat.mul_lt_mul_of_pos_right hhigh (Nat.two_pow_pos _)
      _ = 2 ^ 53 := by rw [← Nat.pow_add]; congr 1; omega

theorem unpack_toFloat {n : Nat} (hpos : 0 < n) (hlt : n < 2 ^ 53) :
    n.toUInt64.toFloat.toModel.unpack =
      .finite .positive (n * 2 ^ (52 - n.log2)) (-((52 - n.log2 : Nat) : Int))
        (Nat.mul_pos hpos (Nat.two_pow_pos _)) := by
  obtain ⟨hlow, hhigh⟩ := aligned hpos hlt
  have hlog : n.log2 < 53 := (Nat.log2_lt (Nat.ne_of_gt hpos)).mpr hlt
  have hn : n.toUInt64.toNat = n := by
    rw [Nat.toUInt64, UInt64.toNat_ofNat']
    omega
  have htarget : Format.binary64.targetExponent (totalExponent n 0) =
      -((52 - n.log2 : Nat) : Int) := by
    change max ((n.log2 : Int) + 1 + 0 - 53) (-1074) = _
    omega
  have hround : UnpackedFloat.ofInt Format.binary64 n = .finite .positive (n * 2 ^ (52 - n.log2))
      (-((52 - n.log2 : Nat) : Int)) (Nat.mul_pos hpos (Nat.two_pow_pos _)) := by
    have hgt : compare (n : Int) 0 = .gt := by
      rw [Int.compare_eq_gt]
      omega
    unfold UnpackedFloat.ofInt UnpackedFloat.normalize
    rw [hgt]
    have hshift : (0 - Format.binary64.targetExponent (totalExponent n 0)).toNat = 52 - n.log2 := by
      rw [htarget]
      omega
    change roundWithAccuracy Format.binary64 .positive
      (n <<< (0 - Format.binary64.targetExponent (totalExponent n 0)).toNat)
      (0 - ((0 - Format.binary64.targetExponent (totalExponent n 0)).toNat : Int)) .exact = _
    have hexact := roundWithAccuracy_exact (s := .positive) (k := 0)
      (e := 0 - ((52 - n.log2 : Nat) : Int))
      (Nat.mul_pos hpos (Nat.two_pow_pos (52 - n.log2))) hlow hhigh (by omega)
    rw [Nat.pow_zero, Nat.mul_one] at hexact
    rw [hshift, Nat.shiftLeft_eq, hexact]
    congr 1
    omega
  change (Float.Model.pack (UnpackedFloat.ofInt Format.binary64 n.toUInt64.toNat)).unpack = _
  rw [hn, hround, unpack_pack _ hlow hhigh (by omega) (by omega)]

theorem unpack_one : (Float.ofBits 0x3FF0000000000000).toModel.unpack =
    .finite .positive (2 ^ 52) (-52) (by decide) := by
  rfl

theorem unpack_ofNat {n : Nat} (hpos : 0 < n) (hlt : n < 2 ^ 53) :
    (Float.ofNat n).toModel.unpack =
      .finite .positive (n * 2 ^ (52 - n.log2)) (-((52 - n.log2 : Nat) : Int))
        (Nat.mul_pos hpos (Nat.two_pow_pos _)) := by
  obtain ⟨hlow, hhigh⟩ := aligned hpos hlt
  have hofNat : Float.ofNat n = n.toUInt64.toFloat * Float.ofBits 0x3FF0000000000000 :=
    dif_pos ⟨hlt, by decide⟩
  have hexact := roundWithAccuracy_exact (s := .positive) (k := 52)
    (e := -((52 - n.log2 : Nat) : Int) + -52)
    (Nat.mul_pos hpos (Nat.two_pow_pos (52 - n.log2))) hlow hhigh (by omega)
  have hmul : UnpackedFloat.mul Format.binary64 n.toUInt64.toFloat.toModel.unpack
      (Float.ofBits 0x3FF0000000000000).toModel.unpack =
      .finite .positive (n * 2 ^ (52 - n.log2)) (-((52 - n.log2 : Nat) : Int))
        (Nat.mul_pos hpos (Nat.two_pow_pos _)) := by
    rw [unpack_toFloat hpos hlt, unpack_one]
    refine hexact.trans ?_
    congr 1
    omega
  rw [hofNat]
  change (Float.Model.pack (UnpackedFloat.mul Format.binary64 n.toUInt64.toFloat.toModel.unpack
      (Float.ofBits 0x3FF0000000000000).toModel.unpack)).unpack = _
  rw [hmul, unpack_pack _ hlow hhigh (by omega) (by omega)]

/-- The significand and the exponent of the double nearest to `n`. -/
def nearest (n : Nat) : Nat × Int := carried (rounded (n * 2 ^ 53) (n.log2 + 1)) (n.log2 - 52)

theorem log2_scaled {n : Nat} (hn : n ≠ 0) : (n * 2 ^ 53).log2 = 52 + (n.log2 + 1) := by
  rw [log2_mul_two_pow hn]
  omega

theorem nearest_bounds {n : Nat} (hn : n ≠ 0) :
    2 ^ 52 ≤ (nearest n).1 ∧ (nearest n).1 < 2 ^ 53 ∧
      (n.log2 : Int) - 52 ≤ (nearest n).2 ∧ (nearest n).2 ≤ (n.log2 : Int) - 52 + 1 :=
  carried_bounds (rounded_bounds (log2_scaled hn)).1 _

theorem unpack_ofNat_large {n : Nat} (hlow : 2 ^ 53 ≤ n) (hhigh : n ≤ 2 ^ 63) :
    ∃ hpos, (Float.ofNat n).toModel.unpack =
      .finite .positive (nearest n).1 (nearest n).2 hpos := by
  have hofNat : Float.ofNat n = .ofModel (Float.Model.ofScientific n 0) :=
    dif_neg fun h => Nat.not_lt.mpr hlow h.1
  have hne : n ≠ 0 := by omega
  have hlog : n.log2 < 64 := (Nat.log2_lt hne).mpr (by omega)
  obtain ⟨hm, hm', he, he'⟩ := nearest_bounds hne
  obtain ⟨hpos, hround⟩ : ∃ hpos, roundWithAccuracy Format.binary64 .positive (n * 2 ^ 53) (-53)
      .exact = .finite .positive (nearest n).1 (nearest n).2 hpos := by
    have hnormal := roundWithAccuracy_normal (s := .positive) (e := -53) (log2_scaled hne)
      (by omega)
    have hexponent : (-53 : Int) + (n.log2 + 1 : Nat) = n.log2 - 52 := by omega
    rw [hexponent] at hnormal
    exact hnormal
  have hmul : UnpackedFloat.ofScientific Format.binary64 n 0 =
      .finite .positive (nearest n).1 (nearest n).2 hpos := by
    have hmin : ¬(0 : Int) < -((2 ^ 11 : Int) + n.log2) := by omega
    unfold UnpackedFloat.ofScientific
    rw [dif_neg hne, if_neg (by decide), if_neg hmin, if_pos (Int.le_refl 0)]
    have hscaled : n <<< Format.binary64.mantissaBits * 10 ^ Int.toNat 0 = n * 2 ^ 53 := by
      rw [Nat.shiftLeft_eq, Int.toNat_zero, Nat.pow_zero, Nat.mul_one]
      rfl
    unfold UnpackedFloat.mul
    dsimp only
    rw [hscaled]
    exact hround
  refine ⟨hpos, ?_⟩
  rw [hofNat]
  change (Float.Model.pack (UnpackedFloat.ofScientific Format.binary64 n 0)).unpack = _
  rw [hmul, unpack_pack _ hm hm' (by omega) (by omega)]

/-! ### Integers -/

theorem parts_ofInt_of_natAbs {i : Int} {m : Nat} {e : Int} {hpos : 0 < m}
    (h : (Float.ofNat i.natAbs).toModel.unpack = .finite .positive m e hpos) (hlow : 2 ^ 52 ≤ m)
    (hhigh : m < 2 ^ 53) (hmin : -1074 ≤ e) (hmax : e ≤ 971) :
    parts (Float.ofInt i) = .finite (decide (i < 0)) m e := by
  rw [parts_eq]
  cases i with
  | ofNat n =>
    change Parts.ofUnpacked (Float.ofNat n).toModel.unpack = _
    rw [show (Float.ofNat n).toModel.unpack = .finite .positive m e hpos from h]
    have hsign : ¬Int.ofNat n < 0 := Int.not_lt.mpr (Int.natCast_nonneg n)
    rw [decide_eq_false hsign]
    rfl
  | negSucc n =>
    change Parts.ofUnpacked
      (Float.Model.pack (Float.ofNat (n + 1)).toModel.unpack.neg).unpack = _
    rw [show (Float.ofNat (n + 1)).toModel.unpack = .finite .positive m e hpos from h]
    change Parts.ofUnpacked (Float.Model.pack (.finite .negative m e hpos)).unpack = _
    rw [unpack_pack hpos hlow hhigh hmin hmax, decide_eq_true (Int.negSucc_lt_zero n)]
    rfl

theorem parts_ofInt_zero : parts (Float.ofInt 0) = .finite false 0 (-1074) := rfl

/-- Integers below `2 ^ 53` are doubles. -/
theorem parts_ofInt {i : Int} (hi : i ≠ 0) (hlt : i.natAbs < 2 ^ 53) :
    parts (Float.ofInt i) = .finite (decide (i < 0)) (i.natAbs * 2 ^ (52 - i.natAbs.log2))
      (-((52 - i.natAbs.log2 : Nat) : Int)) := by
  have hpos : 0 < i.natAbs := Int.natAbs_pos.mpr hi
  obtain ⟨hlow, hhigh⟩ := aligned hpos hlt
  exact parts_ofInt_of_natAbs (unpack_ofNat hpos hlt) hlow hhigh (by omega) (by omega)

theorem exists_parts_ofInt {i : Int} (hlt : i.natAbs < 2 ^ 53) :
    ∃ k : Nat, parts (Float.ofInt i) =
      .finite (decide (i < 0)) (i.natAbs * 2 ^ k) (-(k : Int)) := by
  by_cases hi : i = 0
  · subst hi
    have hzero (k : Nat) (hk : k = 1074) : parts (Float.ofInt 0) =
        .finite (decide ((0 : Int) < 0)) ((0 : Int).natAbs * 2 ^ k) (-(k : Int)) := by
      rw [Int.natAbs_zero, Nat.zero_mul, hk]
      exact parts_ofInt_zero
    exact ⟨1074, hzero 1074 rfl⟩
  · exact ⟨_, parts_ofInt hi hlt⟩

theorem parts_ofInt_rounded {i : Int} (hlow : 2 ^ 53 ≤ i.natAbs) (hhigh : i.natAbs ≤ 2 ^ 63) :
    parts (Float.ofInt i) =
      .finite (decide (i < 0)) (nearest i.natAbs).1 (nearest i.natAbs).2 := by
  have hne : i.natAbs ≠ 0 := by omega
  have hlog : i.natAbs.log2 < 64 := (Nat.log2_lt hne).mpr (by omega)
  obtain ⟨hm, hm', he, he'⟩ := nearest_bounds hne
  obtain ⟨hpos, hunpack⟩ := unpack_ofNat_large hlow hhigh
  exact parts_ofInt_of_natAbs hunpack hm hm' (by omega) (by omega)

/-- Other integers of a word are rounded to multiples of two. -/
theorem parts_ofInt_large {i : Int} (hlow : 2 ^ 53 ≤ i.natAbs) (hhigh : i.natAbs ≤ 2 ^ 63) :
    ∃ m e, 2 ^ 52 ≤ m ∧ 1 ≤ e ∧ parts (Float.ofInt i) = .finite (decide (i < 0)) m e := by
  have hne : i.natAbs ≠ 0 := by omega
  have hlog : 53 ≤ i.natAbs.log2 := (Nat.le_log2 hne).mpr hlow
  obtain ⟨hm, -, he, -⟩ := nearest_bounds hne
  exact ⟨_, _, hm, by omega, parts_ofInt_rounded hlow hhigh⟩

/-- The double of an integer is a number. -/
theorem parts_ofInt_ne_nan {i : Int} (hi : i.natAbs ≤ 2 ^ 63) :
    parts (Float.ofInt i) ≠ .nan := by
  intro hnan
  rcases Nat.lt_or_ge i.natAbs (2 ^ 53) with hlt | hge
  · obtain ⟨k, hk⟩ := exists_parts_ofInt hlt
    cases hk.symm.trans hnan
  · obtain ⟨m, e, -, -, hk⟩ := parts_ofInt_large hge hi
    cases hk.symm.trans hnan

/-! ### Equality -/

theorem beq_iff (x y : Float) :
    (x == y) = true ↔ x.toModel.unpack.compare y.toModel.unpack = some .eq := by
  change (x.toModel.unpack.compare y.toModel.unpack == some .eq) = true ↔ _
  exact beq_iff_eq

theorem lt_iff (x y : Float) :
    x < y ↔ x.toModel.unpack.compare y.toModel.unpack = some .lt := by
  change decide ((x.toModel.unpack.compare y.toModel.unpack == some .lt) = true) = true ↔ _
  rw [decide_eq_true_iff]
  exact beq_iff_eq

theorem le_iff (x y : Float) :
    x ≤ y ↔ (x.toModel.unpack.compare y.toModel.unpack).any (·.isLE) = true := by
  change decide ((x.toModel.unpack.compare y.toModel.unpack).any (·.isLE) = true) = true ↔ _
  rw [decide_eq_true_iff]

variable {x y : Float}

/-- Doubles that compare equal are the same, unless both are zeros. -/
theorem eq_or_zeros_of_beq (h : (x == y) = true) :
    x = y ∨ ∃ s t, x.toModel.unpack = .zero s ∧ y.toModel.unpack = .zero t := by
  obtain ⟨-, -, heq⟩ := Float.beq_iff_ne_nan_and_eq.mp h
  rcases heq with heq | ⟨rfl, rfl⟩ | ⟨rfl, rfl⟩
  · exact .inl heq
  · exact .inr ⟨.positive, .negative, rfl, rfl⟩
  · exact .inr ⟨.negative, .positive, rfl, rfl⟩

/-- Doubles that compare equal compare alike with any other. -/
theorem compare_congr (h : (x == y) = true) (z : UnpackedFloat) :
    x.toModel.unpack.compare z = y.toModel.unpack.compare z ∧
      z.compare x.toModel.unpack = z.compare y.toModel.unpack := by
  rcases eq_or_zeros_of_beq h with heq | ⟨s, t, hx, hy⟩
  · rw [heq]
    exact ⟨rfl, rfl⟩
  · rw [hx, hy]
    cases z with
    | notANumber => exact ⟨rfl, rfl⟩
    | infinity u => cases u <;> exact ⟨rfl, rfl⟩
    | zero u => exact ⟨rfl, rfl⟩
    | finite u => cases u <;> exact ⟨rfl, rfl⟩

theorem beq_congr (h : (x == y) = true) (z : Float) : (z == x) = true ↔ (z == y) = true := by
  rw [beq_iff, beq_iff, (compare_congr h _).2]

theorem beq_self (h : (x == y) = true) : (x == x) = true :=
  Float.beq_self_iff.mpr (Float.beq_iff_ne_nan_and_eq.mp h).1

theorem beq_symm (h : (x == y) = true) : (y == x) = true := by
  rw [beq_iff, ← (compare_congr h _).1, ← beq_iff]
  exact beq_self h

theorem le_congr (h : (x == y) = true) (z : Float) : (z ≤ x ↔ z ≤ y) ∧ (x ≤ z ↔ y ≤ z) := by
  obtain ⟨hleft, hright⟩ := compare_congr h z.toModel.unpack
  rw [le_iff, le_iff, le_iff, le_iff, hleft, hright]
  exact ⟨.rfl, .rfl⟩

theorem parts_of_beq (h : (x == y) = true) :
    parts x = parts y ∨ ∃ s t, parts x = .finite s 0 (-1074) ∧ parts y = .finite t 0 (-1074) := by
  rcases eq_or_zeros_of_beq h with heq | ⟨s, t, hx, hy⟩
  · exact .inl (congrArg parts heq)
  · rw [parts_eq, parts_eq, hx, hy]
    exact .inr ⟨_, _, rfl, rfl⟩

/-- An integer below `2 ^ 53` is told from every other one of a word. -/
theorem ofInt_injective {i j : Int} (hi : i.natAbs < 2 ^ 53) (hj : j.natAbs ≤ 2 ^ 63)
    (h : (Float.ofInt i == Float.ofInt j) = true) : i = j := by
  obtain ⟨k, hparts⟩ := exists_parts_ofInt hi
  rcases Nat.lt_or_ge j.natAbs (2 ^ 53) with hsmall | hlarge
  · obtain ⟨k', hparts'⟩ := exists_parts_ofInt hsmall
    rcases parts_of_beq h with heq | ⟨s, t, hzero, hzero'⟩
    · rw [hparts, hparts'] at heq
      injection heq with hsign hsignificand hexponent
      obtain rfl : k = k' := by omega
      have hnatAbs : i.natAbs = j.natAbs :=
        Nat.eq_of_mul_eq_mul_right (Nat.two_pow_pos k) hsignificand
      have hlt : i < 0 ↔ j < 0 := decide_eq_decide.mp hsign
      omega
    · rw [hparts] at hzero
      rw [hparts'] at hzero'
      injection hzero with _ hsignificand
      injection hzero' with _ hsignificand'
      have hi0 : i.natAbs = 0 :=
        (Nat.mul_eq_zero.mp hsignificand).resolve_right (Nat.ne_of_gt (Nat.two_pow_pos k))
      have hj0 : j.natAbs = 0 :=
        (Nat.mul_eq_zero.mp hsignificand').resolve_right (Nat.ne_of_gt (Nat.two_pow_pos k'))
      omega
  · obtain ⟨m, e, hm, he, hparts'⟩ := parts_ofInt_large hlarge hj
    rcases parts_of_beq h with heq | ⟨s, t, hzero, hzero'⟩
    · rw [hparts, hparts'] at heq
      injection heq with _ _ hexponent
      omega
    · rw [hparts'] at hzero'
      injection hzero' with _ hsignificand
      omega

theorem natAbs_toInt_le (v : Int64) : v.toInt.natAbs ≤ 2 ^ 63 := by
  have hlow := v.le_toInt
  have hhigh := v.toInt_lt
  omega

/-- Only integers too long for a double share one. -/
theorem long_of_beq {v w : Int64} (hne : v ≠ w)
    (heq : (Float.ofInt v.toInt == Float.ofInt w.toInt) = true) :
    2 ^ 53 ≤ v.toInt.natAbs ∧ 2 ^ 53 ≤ w.toInt.natAbs := by
  constructor
  · by_contra hshort
    exact hne (Int64.toInt_inj.mp (ofInt_injective (by omega) (natAbs_toInt_le w) heq))
  · by_contra hshort
    have hsame := ofInt_injective (by omega) (natAbs_toInt_le v) (beq_symm heq)
    exact hne (Int64.toInt_inj.mp hsame.symm)

end Polystore.Number
