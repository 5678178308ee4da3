import RangeBearing.Proofs.PublishedUnits
import RangeBearing.Proofs.RoundingErrors
import RangeBearing.Proofs.Signs

/-!
# Estimates read and published again

An estimate gives its range back in centimetres and its angles in radians.  What is published of
these is the same estimate: the roundings on the way are far too small to reach the next whole
number, and an angle of at most a hundred and eighty degrees is not wrapped.

* `Binary.clampTo_round`     a number next to an integer is rounded to it;
* `Estimate.abs_mm_sub_lt`, `Estimate.abs_degrees_sub_lt`   how far the roundings lead away;
* `Estimate.reread`          what is published of an estimate;
* `Estimate.reread_eq_iff`   the estimates that are left alone.
-/

namespace RangeBearing

open Elementary

/-! ## rounding to integers -/

namespace Binary

variable {F : Format} [NeZero F.precision]

/-- a magnitude less than a half away from a whole one is rounded to it -/
theorem round_finite (s : Bool) {c : Fin F.top} {n : Nat}
    (low : n * (2 * F.one) ≤ 2 * F.units c + F.one)
    (high : 2 * F.units c + F.one < (n + 1) * (2 * F.one))
    (digits : n < 2 * F.binade) (top : n * F.one < F.units F.top) :
    ∃ k : Fin F.top, (finite s c).round = finite s k ∧ F.units k / F.one = n := by
  obtain ⟨k, hk⟩ := Format.exists_units (F := F) (e := F.quantumExponent) digits
  have hk : F.units k = n * F.one := hk
  have hlt : k < F.top := Format.lt_of_units_lt F.precision_pos (hk ▸ top)
  refine ⟨⟨k, hlt⟩, ?_, ?_⟩
  · show ofRatio s (_ / _ * F.one) 1 = _
    rw [Nat.div_eq_of_lt_le low high, ← hk]
    exact ofRatio_units s ⟨k, hlt⟩
  · show F.units k / F.one = n
    rw [hk]
    exact Nat.mul_div_cancel _ F.one_pos

/-- a number next to an integer of few enough digits is rounded to it -/
theorem clampTo_round {a : Binary F} {i lo hi : Int} (ha : a.isFinite)
    (near : |a.value - i| < 1 / 2) (digits : i.natAbs < 2 * F.binade)
    (top : i.natAbs * F.one < F.units F.top) (range : lo ≤ i ∧ i ≤ hi) :
    a.round.clampTo lo hi = i := by
  obtain ⟨s, c, rfl⟩ := exists_finite ha
  have hone := F.one_pos
  have hcast := F.one_cast_pos
  have hunits : |2 * (finite s c).signedUnits - i * (2 * F.one)| < F.one := by
    rw [value_finite, div_sub' hcast.ne', abs_div, abs_of_pos hcast, div_lt_iff₀ hcast] at near
    have hdouble : |(2 * (finite s c).signedUnits - i * (2 * F.one) : ℚ)| < F.one := by
      calc |(2 * (finite s c).signedUnits - i * (2 * F.one) : ℚ)|
          = |2 * ((finite s c).signedUnits - F.one * i : ℚ)| := by ring_nf
        _ = 2 * |((finite s c).signedUnits - F.one * i : ℚ)| := by rw [abs_mul, abs_two]
        _ < F.one := by linarith
    exact_mod_cast hdouble
  obtain ⟨hlow, hhigh⟩ := abs_lt.mp hunits
  cases s with
  | false =>
    simp only [signedUnits] at hlow hhigh
    have hpos : -1 < i := by
      refine lt_of_mul_lt_mul_right (a := 2 * (F.one : Int)) ?_ (by omega)
      omega
    obtain ⟨n, rfl⟩ := Int.eq_ofNat_of_zero_le (by omega : 0 ≤ i)
    obtain ⟨k, hround, hk⟩ := round_finite false (c := c) (n := n)
      (by zify; linarith) (by zify; linarith) digits top
    rw [hround]
    simp only [clampTo, truncate_false, hk]
    omega
  | true =>
    simp only [signedUnits] at hlow hhigh
    have hneg : i < 1 := by
      refine lt_of_mul_lt_mul_right (a := 2 * (F.one : Int)) ?_ (by omega)
      omega
    obtain ⟨n, hn⟩ := Int.eq_ofNat_of_zero_le (by omega : 0 ≤ -i)
    obtain rfl : i = -n := by omega
    rw [Int.natAbs_neg] at digits top
    obtain ⟨k, hround, hk⟩ := round_finite true (c := c) (n := n)
      (by zify; linarith) (by zify; linarith) digits top
    rw [hround]
    simp only [clampTo, truncate_true, hk]
    omega

/-! ## whole numbers -/

/-- whole numbers of sixteen bits are not rounded -/
theorem whole_fits {n : Nat} (hn : n ≤ 0xffff) : n < 2 * Format.binary32.binade ∧
    n * Format.binary32.one < Format.binary32.units Format.binary32.top :=
  ⟨Nat.lt_of_le_of_lt hn (by decide), Estimate.whole_lt_top hn⟩

theorem whole_isFinite {n : Nat} (hn : n ≤ 0xffff) : (ofInt (F := .binary32) n).isFinite := by
  obtain ⟨digits, top⟩ := whole_fits hn
  obtain ⟨k, hk, -⟩ := ofInt_eq (i := n) digits top
  rw [hk]
  rfl

theorem value_whole {n : Nat} (hn : n ≤ 0xffff) : (ofInt (F := .binary32) n).value = n := by
  obtain ⟨digits, top⟩ := whole_fits hn
  exact_mod_cast value_ofInt (i := n) digits top

theorem whole_between {n lo hi : Nat} (hlo : lo ≤ n) (hhi : n ≤ hi) (hsmall : hi ≤ 0xffff) :
    (ofInt (F := .binary32) n).Between (ofInt lo) (ofInt hi) := by
  refine .of_values (whole_isFinite (by omega)) (whole_isFinite hsmall)
    (ne_nan_of_isFinite (whole_isFinite (by omega))) ?_ ?_
  · rw [value_whole (by omega), value_whole (by omega)]
    exact_mod_cast hlo
  · rw [value_whole (by omega), value_whole (by omega)]
    exact_mod_cast hhi

theorem ofInt_neg_whole {n : Nat} (hn : n ≤ 0xffff) (hpos : 0 < n) :
    ofInt (F := .binary32) (-n) = -ofInt n := by
  unfold ofInt ofRatio
  rw [neg_ofCode, Int.natAbs_neg, decide_eq_true (by omega), decide_eq_false (by omega)]
  rfl

end Binary

namespace Estimate

open Binary

/-- millimetres that are read as centimetres -/
theorem abs_mm_sub_lt {n : Nat} (hn : n ≤ 0xffff) : (ofInt n / 10 * 10 : Binary32).isFinite ∧
    |(ofInt n / 10 * 10 : Binary32).value - n| < 1 / 2 := by
  rcases Nat.eq_zero_or_pos n with rfl | hpos
  · have hzero : (ofInt (0 : Nat) / 10 * 10 : Binary32) = 0 := by decide
    rw [hzero, value_zero]
    norm_num
    decide
  have hten : (10 : Binary32).Between 10 10 := .self (by decide)
  have hpositive : 0 < (10 : Binary32).value := value_pos (by decide)
  have hwhole := whole_between hpos hn (Nat.le_refl _)
  have hcm := hwhole.div hten (by decide) (by decide)
  have hmm := hcm.mul hten (by decide) (by decide)
  have hvalue := value_whole hn
  have hdiv : Format.binary32.Near 1 (ofInt n / 10 : Binary32).value
      ((ofInt n : Binary32).value / (10 : Binary32).value) :=
    near_of_between hcm (by decide)
      (value_div hwhole.isFinite hten.isFinite hpositive.ne')
  have hmul := near_of_between hmm (by decide) (value_mul hcm.isFinite hten.isFinite)
  rw [hvalue] at hdiv
  have hnear := hmul.trans (hdiv.mul (.self _ _)
    ⟨value_nonneg (Binary.le_of_lt (hcm.pos (by decide))), by positivity⟩
    ⟨hpositive.le, hpositive.le⟩)
  rw [div_mul_cancel₀ _ hpositive.ne'] at hnear
  have hlast : (n : ℚ) ≤ 0xffff := by exact_mod_cast hn
  refine ⟨hmm.isFinite, hnear.abs_sub_lt (Nat.cast_nonneg n) hlast (by norm_num) ?_⟩
  norm_num [Format.binade, Format.binary32]

/-! ## angles -/

theorem near_radian_degree :
    Format.binary32.Near 1 (Angle.radian.value * Angle.degree.value) 1 := by
  constructor <;> decide +kernel

theorem ofDegrees_between {n hi : Nat} (hpos : 0 < n) (hn : n ≤ hi) (hsmall : hi ≤ 0xffff)
    (finite : (Angle.ofDegrees (ofInt hi)).isFinite) :
    (Angle.ofDegrees (ofInt n)).Between (Angle.ofDegrees 1) (Angle.ofDegrees (ofInt hi)) := by
  have hradian : Angle.radian.Between Angle.radian Angle.radian := .self (by decide)
  exact (whole_between hpos hn hsmall).mul hradian (by decide) ⟨by decide, finite⟩

/-- degrees that are read as radians -/
theorem abs_degrees_sub_lt {n : Nat} (hpos : 0 < n) (hn : n ≤ 180) :
    (Angle.toDegrees (Angle.ofDegrees (ofInt n))).isFinite ∧
      |(Angle.toDegrees (Angle.ofDegrees (ofInt n))).value - n| < 1 / 2 := by
  have hsmall : n ≤ 0xffff := by omega
  have hdegree : Angle.degree.Between Angle.degree Angle.degree := .self (by decide)
  have hradians := ofDegrees_between hpos hn (by decide) (by decide)
  have hdegrees := hradians.mul hdegree (by decide) (by decide)
  have hread : Format.binary32.Near 1 (Angle.ofDegrees (ofInt n)).value
      (n * Angle.radian.value) := by
    have hround := near_of_between hradians (by decide)
      (value_mul (whole_isFinite hsmall) (by decide))
    rwa [value_whole hsmall] at hround
  have hpublished : Format.binary32.Near 1 (Angle.toDegrees (Angle.ofDegrees (ofInt n))).value
      ((Angle.ofDegrees (ofInt n)).value * Angle.degree.value) :=
    near_of_between hdegrees (by decide) (value_mul hradians.isFinite hdegree.isFinite)
  have hradian : 0 ≤ Angle.radian.value := value_nonneg (by decide)
  have hpositive : 0 ≤ Angle.degree.value := value_nonneg (by decide)
  have hproduct := hpublished.trans (hread.mul (.self _ _)
    ⟨value_nonneg (Binary.le_of_lt (hradians.pos (by decide))), by positivity⟩
    ⟨hpositive, hpositive⟩)
  have hexact := (Format.Near.self .binary32 n).mul near_radian_degree
    ⟨Nat.cast_nonneg n, Nat.cast_nonneg n⟩ ⟨by positivity, zero_le_one⟩
  rw [← mul_assoc, mul_one] at hexact
  have hlast : (n : ℚ) ≤ 180 := by exact_mod_cast hn
  refine ⟨hdegrees.isFinite,
    (hproduct.trans hexact).abs_sub_lt (Nat.cast_nonneg n) hlast (by norm_num) ?_⟩
  norm_num [Format.binade, Format.binary32]

theorem ofDegrees_inTurn {n : Nat} (hpos : 0 < n) (hn : n ≤ 180) :
    Angle.InTurn (Angle.ofDegrees (ofInt n)) := by
  have hbetween := ofDegrees_between hpos hn (by decide) (by decide)
  exact ⟨Binary.lt_of_lt_of_le (by decide) hbetween.lower,
    Binary.le_trans hbetween.upper (by decide)⟩

/-- a hundred and eighty degrees to the right are half a turn, which is turned to the left -/
theorem neg_ofDegrees_inTurn {n : Nat} (hpos : 0 < n) (hn : n < 180) :
    Angle.InTurn (-Angle.ofDegrees (ofInt n)) := by
  have hbetween := ofDegrees_between hpos (Nat.le_pred_of_lt hn) (by decide) (by decide)
  have hhalf : halfTurn ≠ nan := by decide
  have hlast : (Angle.ofDegrees (ofInt n)).value < halfTurn.value :=
    hbetween.values.2.trans_lt ((lt_iff_value (by decide) hhalf).mp (by decide))
  have hpositive := value_pos (hbetween.pos (by decide))
  have hturn : 0 ≤ halfTurn.value := value_nonneg (by decide)
  constructor
  · rw [lt_iff_value (neg_ne_nan hhalf) (neg_ne_nan hbetween.number), value_neg, value_neg]
    linarith
  · rw [le_iff_value (neg_ne_nan hbetween.number) hhalf, value_neg]
    linarith

theorem abs_reread_sub_lt {i : Int} (range : -180 < i ∧ i ≤ 180) :
    (Angle.toDegrees (Angle.wrap (Angle.ofDegrees (ofInt i)))).isFinite ∧
      |(Angle.toDegrees (Angle.wrap (Angle.ofDegrees (ofInt i)))).value - i| < 1 / 2 := by
  obtain ⟨hlow, hhigh⟩ := range
  rcases lt_trichotomy i 0 with hneg | rfl | hpos
  · obtain ⟨n, hn⟩ := Int.eq_ofNat_of_zero_le (by omega : 0 ≤ -i)
    obtain rfl : i = -n := by omega
    have hopposite : Angle.ofDegrees (ofInt (-n)) = -Angle.ofDegrees (ofInt n) := by
      unfold Angle.ofDegrees
      rw [ofInt_neg_whole (by omega) (by omega), neg_mul]
    obtain ⟨hfinite, hnear⟩ := abs_degrees_sub_lt (n := n) (by omega) (by omega)
    rw [hopposite, Angle.wrap_of_inTurn (neg_ofDegrees_inTurn (by omega) (by omega))]
    unfold Angle.toDegrees at *
    rw [neg_mul, isFinite_neg, value_neg]
    refine ⟨hfinite, ?_⟩
    rw [Int.cast_neg, Int.cast_natCast, sub_neg_eq_add, neg_add_eq_sub, abs_sub_comm]
    exact hnear
  · have hzero : Angle.toDegrees (Angle.wrap (Angle.ofDegrees (ofInt 0))) = 0 := by decide
    rw [hzero, value_zero]
    norm_num
    decide
  · obtain ⟨n, rfl⟩ := Int.eq_ofNat_of_zero_le hpos.le
    rw [Angle.wrap_of_inTurn (ofDegrees_inTurn (by omega) (by omega))]
    exact_mod_cast abs_degrees_sub_lt (n := n) (by omega) (by omega)

/-! ## estimates -/

/-- both angles are in `(-180, 180]` -/
structure InDegrees (e : Estimate) : Prop where
  bearing : -180 < e.bearingDeg.toInt ∧ e.bearingDeg.toInt ≤ 180
  heading : -180 < e.headingDeg.toInt ∧ e.headingDeg.toInt ≤ 180

/-- what is published of the pose that an estimate gives back -/
def reread (e : Estimate) : Estimate :=
  ofPose e.source e.rangeCm e.bearing e.heading (.ofInt e.confidence.toNat)

theorem rangeMm_reread (e : Estimate) : e.reread.rangeMm = e.rangeMm := by
  have hsmall : e.rangeMm.toNat ≤ 0xffff := Nat.le_of_lt_succ e.rangeMm.toNat_lt
  obtain ⟨digits, top⟩ := whole_fits hsmall
  obtain ⟨hfinite, hnear⟩ := abs_mm_sub_lt hsmall
  have hclamp : (ofInt e.rangeMm.toNat / 10 * 10 : Binary32).round.clampTo 0 0xffff =
      e.rangeMm.toNat :=
    clampTo_round hfinite (by exact_mod_cast hnear) digits top (by omega)
  show UInt16.ofNat _ = _
  rw [rangeCm, hclamp]
  exact UInt16.ofNat_toNat

theorem confidence_reread (e : Estimate) : e.reread.confidence = e.confidence := by
  have hlt := e.confidence.toNat_lt
  obtain ⟨digits, top⟩ := whole_fits (n := e.confidence.toNat) (by omega)
  have hvalue := value_whole (n := e.confidence.toNat) (by omega)
  have hclamp : (ofInt e.confidence.toNat : Binary32).round.clampTo 0 0xff =
      e.confidence.toNat := by
    refine clampTo_round (whole_isFinite (by omega)) ?_ digits top (by omega)
    rw [hvalue]
    norm_num
  show UInt8.ofNat _ = _
  rw [hclamp]
  exact UInt8.ofNat_toNat

theorem wholeDegrees_ofDegrees {v : Int16} (range : -180 < v.toInt ∧ v.toInt ≤ 180) :
    wholeDegrees (Angle.ofDegrees (.ofInt v.toInt)) = v := by
  obtain ⟨hfinite, hnear⟩ := abs_reread_sub_lt range
  obtain ⟨digits, top⟩ := Brightness.reading_fits v
  have hclamp : (Angle.toDegrees (Angle.wrap (Angle.ofDegrees (.ofInt v.toInt)))).round.clampTo
      (-0x8000) 0x7fff = v.toInt :=
    clampTo_round hfinite hnear digits top (by omega)
  have hdegrees : (Angle.toDegrees (Angle.wrap
      (Angle.ofDegrees (.ofInt v.toInt)))).round.toInt16 = v := by
    unfold toInt16
    rw [hclamp]
    exact Int16.ofInt_toInt v
  unfold wholeDegrees
  rw [hdegrees]
  refine if_neg ?_
  rintro rfl
  exact absurd range.1 (by decide)

theorem inDegrees_ofPose (source : UInt16) (rangeCm bearing heading confidence : Binary32) :
    (ofPose source rangeCm bearing heading confidence).InDegrees :=
  ⟨wholeDegrees_mem bearing, wholeDegrees_mem heading⟩

theorem reread_eq (e : Estimate) :
    e.reread = ⟨e.source, e.reread.rangeMm, wholeDegrees e.bearing, wholeDegrees e.heading,
      e.reread.confidence⟩ := by
  unfold reread ofPose
  rfl

/-- the estimates whose angles are in their turn are left alone, and no other ones -/
theorem reread_eq_iff (e : Estimate) : e.reread = e ↔ e.InDegrees := by
  constructor
  · intro h
    rw [← h]
    exact inDegrees_ofPose _ _ _ _ _
  · intro h
    have hbearing : wholeDegrees e.bearing = e.bearingDeg := wholeDegrees_ofDegrees h.bearing
    have hheading : wholeDegrees e.heading = e.headingDeg := wholeDegrees_ofDegrees h.heading
    rw [reread_eq, rangeMm_reread, hbearing, hheading, confidence_reread]

/-- published units survive being read and published again: the estimates whose angles are in their
turn are left alone, and what is published of a pose is one of them, whatever the pose -/
theorem units_survive : (∀ e : Estimate, e.reread = e ↔ e.InDegrees) ∧
    ∀ (source : UInt16) (rangeCm bearing heading confidence : Binary32),
      (ofPose source rangeCm bearing heading confidence).reread =
        ofPose source rangeCm bearing heading confidence :=
  ⟨reread_eq_iff, fun source rangeCm bearing heading confidence =>
    (reread_eq_iff _).mpr (inDegrees_ofPose source rangeCm bearing heading confidence)⟩

end Estimate

end RangeBearing
