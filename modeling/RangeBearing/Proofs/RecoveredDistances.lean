import RangeBearing.Proofs.Distances
import RangeBearing.Proofs.RoundingErrors

/-!
# Distances recovered from intensities

Beyond the centre of the fit a greater distance has no greater intensity, an infinite distance
included.  Between one and sixty centimetres the inversion gives back the distance: it undoes the
steps of the fit one by one, and none of the roundings on the way matters much, not even where the
spread is taken off a sum of which it is nearly all.

* `Photometry.intensity_antitone`   beyond the centre of the fit;
* `Photometry.near_fitted`          the roundings between a distance and the recovered one;
* `Photometry.Recovers`             what holds of every distance;
* `Photometry.distance_recovers`.
-/

namespace RangeBearing

open Binary

namespace Photometry

variable {r r' x x' : Binary32}

/-! ## the order -/

theorem intensity_of_far (h : ¬ r ≤ nearField) :
    intensity r = offset + scale / (spread + (r - centre) * (r - centre)) := if_neg h

theorem not_near_of_centre_le (h : centre ≤ r) : ¬ r ≤ nearField := by
  intro hnear
  exact absurd (Binary.le_trans h hnear) (by decide)

/-- what is farther from the centre of the fit is not brighter -/
theorem intensity_antitone (hcentre : centre ≤ r) (h : r ≤ r') : intensity r' ≤ intensity r := by
  rw [intensity_of_far (not_near_of_centre_le hcentre),
    intensity_of_far (not_near_of_centre_le (Binary.le_trans hcentre h))]
  have hnonneg : 0 ≤ r - centre :=
    Binary.le_trans (by decide : 0 ≤ centre - centre)
      (Binary.sub_le_sub_right (by decide) hcentre)
  have hdistance : r - centre ≤ r' - centre := Binary.sub_le_sub_right (by decide) h
  have hsquare := Binary.mul_self_le_mul_self hnonneg hdistance (by decide)
  have hspread := Binary.add_le_add_left (c := spread) (by decide) hsquare
  have hpositive : 0 < spread + (r - centre) * (r - centre) :=
    Binary.lt_of_lt_of_le (by decide)
      (le_self_add (a := spread) (by decide) (square_nonneg (ne_nan_right hnonneg)))
  have hquotient := Binary.div_le_div_left (c := scale) (by decide) (by decide) hpositive hspread
  exact Binary.add_le_add_left (by decide) hquotient

/-- and what is farther is not recovered as nearer -/
theorem distance_intensity_mono (hcentre : centre ≤ r) (h : r ≤ r')
    (hx : distance (intensity r) = .ok x) (hx' : distance (intensity r') = .ok x') : x ≤ x' :=
  distance_antitone (intensity_antitone hcentre h) hx' hx

/-! ## between one and sixty centimetres -/

def nearest : Binary32 := 1

def farthest : Binary32 := 60

/-- how far beyond the centre of the fit a distance is, exactly -/
def beyond (r : Binary32) : ℚ := r.value - centre.value

/-- the sum that the scale is divided by -/
def divisor (r : Binary32) : Binary32 := spread + (r - centre) * (r - centre)

theorem centre_le (h : r.Between nearest farthest) : centre ≤ r :=
  Binary.le_trans (by decide : centre ≤ nearest) h.lower

theorem intensity_eq (h : r.Between nearest farthest) :
    intensity r = offset + scale / divisor r :=
  intensity_of_far (not_near_of_centre_le (centre_le h))

theorem steps_farthest : Steps (intensity farthest) :=
  steps_of_unsaturated (by decide) (by decide)

theorem steps_nearest : Steps (intensity nearest) :=
  steps_of_unsaturated (by decide) (by decide)

theorem spread_pos : 0 < spread.value := value_pos (by decide)

theorem scale_pos : 0 < scale.value := value_pos (by decide)

theorem value_farthest : farthest.value = 60 := by
  exact_mod_cast value_ofInt (F := .binary32) (i := 60) (by decide) (by decide)

theorem beyond_nearest_pos : 0 < beyond nearest :=
  sub_pos.mpr ((lt_iff_value (by decide) (by decide)).mp (by decide : centre < nearest))

/-- the offset is at most twice the quotient it is added to -/
theorem offset_le : offset.value ≤ 2 * (scale / divisor farthest).value := by
  have hfour : offset.value ≤ 4 := by
    have hvalue := (le_iff_value (by decide) (by decide)).mp (by decide : offset ≤ ofInt 4)
    rw [value_ofInt (by decide) (by decide)] at hvalue
    exact_mod_cast hvalue
  have htwo : 2 ≤ (scale / divisor farthest).value := by
    have hvalue := (le_iff_value (by decide) (by decide)).mp
      (by decide : ofInt 2 ≤ scale / divisor farthest)
    rw [value_ofInt (by decide) (by decide)] at hvalue
    exact_mod_cast hvalue
  linarith

/-- next to the centre of the fit the spread is nearly all of the sum that it is taken off -/
theorem spread_le : spread.value ≤ 24 * beyond nearest ^ 2 := by
  decide +kernel

section
variable (h : r.Between nearest farthest)
include h

theorem less_between : (r - centre).Between (nearest - centre) (farthest - centre) :=
  h.sub (.self (by decide)) (by decide)

theorem square_between : ((r - centre) * (r - centre)).Between
    ((nearest - centre) * (nearest - centre)) ((farthest - centre) * (farthest - centre)) :=
  (less_between h).mul (less_between h) (by decide) (by decide)

theorem divisor_between : (divisor r).Between (divisor nearest) (divisor farthest) := by
  have hspread : spread.Between spread spread := .self (by decide)
  exact hspread.add (square_between h) (by decide)

theorem quotient_between :
    (scale / divisor r).Between (scale / divisor farthest) (scale / divisor nearest) := by
  have hscale : scale.Between scale scale := .self (by decide)
  exact hscale.div (divisor_between h) (by decide) (by decide)

theorem intensity_within :
    (intensity r).Between (intensity farthest) (intensity nearest) where
  low := by decide
  high := by decide
  lower := intensity_antitone (centre_le h) h.upper
  upper := intensity_antitone (by decide) h.lower

theorem unsaturated : ¬ saturation ≤ intensity r := fun hsaturated =>
  absurd (Binary.le_trans hsaturated (intensity_within h).upper) (by decide)

theorem beyond_within : beyond nearest ≤ beyond r ∧ beyond r ≤ beyond farthest := by
  obtain ⟨hlow, hhigh⟩ := h.values
  unfold beyond
  constructor <;> linarith

theorem beyond_pos : 0 < beyond r := by
  exact beyond_nearest_pos.trans_le (beyond_within h).1

/-! ## the roundings of the intensity -/

theorem near_square :
    Format.binary32.Near 3 ((r - centre) * (r - centre)).value (beyond r ^ 2) := by
  have hless := less_between h
  have hnear : Format.binary32.Near 1 (r - centre).value (beyond r) :=
    near_of_between hless (by decide) (value_sub h.isFinite (by decide))
  have hround := near_of_between (square_between h) (by decide)
    (value_mul hless.isFinite hless.isFinite)
  have hpos := value_nonneg (Binary.le_of_lt (hless.pos (by decide)))
  have hbeyond := (beyond_pos h).le
  rw [sq]
  exact hround.trans (hnear.mul hnear ⟨hpos, hbeyond⟩ ⟨hpos, hbeyond⟩)

theorem near_divisor : Format.binary32.Near 4 (divisor r).value (spread.value + beyond r ^ 2) := by
  have hround := near_of_between (divisor_between h) (by decide)
    (value_add (by decide) (square_between h).isFinite)
  exact hround.trans ((near_square h).add_left spread_pos.le)

theorem near_quotient : Format.binary32.Near 5 (scale / divisor r).value
    (scale.value / (spread.value + beyond r ^ 2)) := by
  have hdivisor := value_pos ((divisor_between h).pos (by decide))
  have hround := near_of_between (quotient_between h) (by decide)
    (value_div (by decide) (divisor_between h).isFinite hdivisor.ne')
  exact hround.trans ((near_divisor h).div scale_pos.le hdivisor
    (add_pos_of_pos_of_nonneg spread_pos (sq_nonneg _)))

/-! ## the roundings of the inversion -/

theorem steps_within : Steps (intensity r) :=
  steps_of_between (intensity_within h) steps_farthest steps_nearest

/-- the quotient is not lost beside the offset that is added to it and taken off again -/
theorem near_excess : Format.binary32.Near 6 (excess (intensity r)).value
    (scale / divisor r).value := by
  have hquotient := quotient_between h
  have hsum : Format.binary32.Near 1 (intensity r).value
      (offset.value + (scale / divisor r).value) := by
    refine near_of_between (intensity_within h) (by decide) ?_
    rw [intensity_eq h]
    exact value_add (by decide) hquotient.isFinite
  have hexcess := excess_between (intensity_within h) (by decide) (by decide)
  have hround := near_of_between hexcess (by decide)
    (value_sub (intensity_within h).isFinite (by decide))
  have hleast := hquotient.values.1
  have hrest := hsum.sub_left (k := 2) (value_nonneg (Binary.le_of_lt (hquotient.pos (by decide))))
    (by push_cast; linarith [offset_le]) (by decide)
  exact hround.trans hrest

theorem near_inverse : Format.binary32.Near 12 (scale / excess (intensity r)).value
    (spread.value + beyond r ^ 2) := by
  have hsteps := steps_within h
  have hexcess := value_pos hsteps.excess_pos
  have hdivisor : 0 < spread.value + beyond r ^ 2 :=
    add_pos_of_pos_of_nonneg spread_pos (sq_nonneg _)
  have hround : Format.binary32.Near 1 (scale / excess (intensity r)).value
      (scale.value / (excess (intensity r)).value) := by
    have hbetween := excess_between (intensity_within h) (by decide) (by decide)
    have hself : scale.Between scale scale := .self (by decide)
    exact near_of_between (hself.div hbetween (by decide) (by decide)) (by decide)
      (value_div (by decide) hsteps.excess_finite hexcess.ne')
  have hexact := ((near_excess h).trans (near_quotient h)).div scale_pos.le hexcess
    (div_pos scale_pos hdivisor)
  rw [div_div_cancel₀ scale_pos.ne'] at hexact
  exact hround.trans hexact

theorem near_radicand : Format.binary32.Near 589 (radicand (intensity r)).value (beyond r ^ 2) := by
  have hsteps := steps_within h
  have hround : Format.binary32.Near 1 (radicand (intensity r)).value
      ((scale / excess (intensity r)).value - spread.value) :=
    near_of_between (radicand_between (intensity_within h) steps_farthest steps_nearest)
      (by decide) (value_sub hsteps.quotient_finite (by decide))
  have hleast : beyond nearest ^ 2 ≤ beyond r ^ 2 :=
    pow_le_pow_left₀ beyond_nearest_pos.le (beyond_within h).1 2
  have hrest := (near_inverse h).sub_left (k := 24) (sq_nonneg _)
    (by push_cast; linarith [spread_le]) (by decide)
  exact hround.trans hrest

theorem near_root : Format.binary32.Near 297 (radicand (intensity r)).sqrt.value (beyond r) := by
  have hsteps := steps_within h
  have hsquare := near_sqrt hsteps.radicand_finite hsteps.radicand_pos (by decide) (by decide)
  have hroot := value_nonneg (sqrt_nonneg (Binary.le_of_lt hsteps.radicand_pos) (by decide))
  have hnear := (hsquare.trans (near_radicand h)).mono (sq_nonneg _) (sq_nonneg _)
    (by decide : 593 ≤ 2 * 297)
  exact hnear.of_sq hroot (beyond_pos h).le

theorem fitted_of_between : (fitted (intensity r)).Between nearField 240000 :=
  fitted_within (Binary.lt_of_lt_of_le (by decide) (intensity_within h).lower) (unsaturated h)

theorem near_fitted : Format.binary32.Near 298 (fitted (intensity r)).value r.value := by
  have hsteps := steps_within h
  have hround : Format.binary32.Near 1 (fitted (intensity r)).value
      ((radicand (intensity r)).sqrt.value + centre.value) :=
    near_of_between (fitted_of_between h) (by decide) (value_add hsteps.root_finite (by decide))
  have hexact := (near_root h).add_left (c := centre.value) (value_nonneg (by decide))
  have hsum : centre.value + beyond r = r.value := by
    unfold beyond
    ring
  rw [add_comm, hsum] at hexact
  exact hround.trans hexact

end

/-! ## every distance -/

/-- what holds of the intensity at a distance and of the distance recovered from it -/
structure Recovers (r : Binary32) : Prop where
  /-- between one and sixty centimetres a tenth of a millimetre is not lost -/
  near : 1 ≤ r → r ≤ 60 → ∃ x, distance (intensity r) = .ok x ∧ x.isFinite ∧
    |x.value - r.value| < 1 / 100
  /-- from the centre of the fit on, up to an infinite distance -/
  antitone : centre ≤ r → ∀ {r'}, r ≤ r' → intensity r' ≤ intensity r
  mono : centre ≤ r → ∀ {r' x x'}, r ≤ r' → distance (intensity r) = .ok x →
    distance (intensity r') = .ok x' → x ≤ x'

theorem distance_of_between (h : r.Between nearest farthest) :
    distance (intensity r) = .ok (fitted (intensity r)) :=
  distance_of_steps (steps_within h) (unsaturated h)

theorem abs_fitted_sub_lt (h : r.Between nearest farthest) :
    |(fitted (intensity r)).value - r.value| < 1 / 100 := by
  have hpositive := value_pos (h.pos (by decide))
  have hupper : r.value ≤ 60 := h.values.2.trans_eq value_farthest
  refine (near_fitted h).abs_sub_lt hpositive.le hupper (by norm_num) ?_
  norm_num [Format.binade, Format.binary32]

/-- every distance at which the fit is used is recovered, and none is recovered out of order -/
theorem distance_recovers (r : Binary32) : Recovers r where
  near hlow hhigh := by
    have h : r.Between nearest farthest := ⟨by decide, by decide, hlow, hhigh⟩
    exact ⟨_, distance_of_between h, (steps_within h).fitted_finite, abs_fitted_sub_lt h⟩
  antitone hcentre _ hle := intensity_antitone hcentre hle
  mono hcentre _ _ _ hle hx hx' := distance_intensity_mono hcentre hle hx hx'

end Photometry

end RangeBearing
