import RangeBearing.Photometry
import RangeBearing.Proofs.Bounds

/-!
# The range of the photometric model

Below the cutoff both gains are positive numbers of moderate size, from the cutoff on and without
a number they are zero.  The intensity is a number between the ambient offset and the saturation
for every distance, an infinite one included.

* `Photometry.sensorGain_between`, `Photometry.emitterGain_between`, `Photometry.intensity_between`;
* `Photometry.gain_pos_iff`     the product of the gains is positive exactly below the cutoff.
-/

namespace RangeBearing

open Binary

namespace Photometry

variable {a lo hi alpha beta r : Binary32}

theorem isFinite_of_mul_self (h : (a * a).isFinite) : a.isFinite := by
  cases a with
  | nan => exact h
  | infinite s => exact h
  | finite s c => rfl

/-- the quartic grows with its argument -/
theorem quartic_between (h : a.Between lo hi) (positive : 0 ≤ lo)
    (finite : (quartic lo).isFinite ∧ (quartic hi).isFinite) :
    (quartic a).Between (quartic lo) (quartic hi) := by
  have hsquares := And.imp isFinite_of_mul_self isFinite_of_mul_self finite
  have hsquare := h.mul h ⟨positive, positive⟩ hsquares
  have hnonneg := square_nonneg (ne_nan_of_isFinite h.low)
  exact hsquare.mul hsquare ⟨hnonneg, hnonneg⟩ finite

/-! ## the gains -/

theorem sensorGain_of_not_lt (h : ¬ alpha.abs < cutoff) : sensorGain alpha = 0 := if_pos h

theorem emitterGain_of_not_lt (h : ¬ beta.abs < cutoff) : emitterGain beta = 0 := if_pos h

theorem abs_between (h : alpha.abs < cutoff) : alpha.abs.Between 0 cutoff where
  low := by decide
  high := by decide
  lower := by
    refine nonneg_abs ?_
    rintro rfl
    exact ne_nan_left (Binary.le_of_lt h) rfl
  upper := Binary.le_of_lt h

theorem sensorGain_between (h : alpha.abs < cutoff) : (sensorGain alpha).Between 0.02 1 := by
  have habs := abs_between h
  unfold sensorGain
  dsimp only
  rw [if_neg (not_not.mpr h)]
  split
  case isTrue hinner =>
    have hquartic := quartic_between (habs.below hinner (by decide)) (by decide) (by decide)
    have hone : (1 : Binary32).Between 1 1 := .self (by decide)
    exact (hone.sub hquartic (by decide)).widen (by decide)
  case isFalse htail =>
    have hquartic := quartic_between (habs.above htail (by decide)) (by decide) (by decide)
    have htail : sensorTail.Between sensorTail sensorTail := .self (by decide)
    exact (htail.div hquartic (by decide) (by decide)).widen (by decide)

theorem emitterGain_between (h : beta.abs < cutoff) : (emitterGain beta).Between 0.04 1.25 := by
  have habs := abs_between h
  unfold emitterGain
  dsimp only
  rw [if_neg (not_not.mpr h)]
  split
  case isTrue hinner =>
    have hbeta := habs.below hinner (by decide)
    have hpeak : emitterPeak.Between emitterPeak emitterPeak := .self (by decide)
    have hfactor : emitterQuadratic.Between emitterQuadratic emitterQuadratic := .self (by decide)
    have hlinear := hfactor.mul hbeta (by decide) (by decide)
    have hquadratic := hlinear.mul hbeta (by decide) (by decide)
    have hlobe := hpeak.add hquadratic (by decide)
    have hquartic := quartic_between hbeta (by decide) (by decide)
    exact (hlobe.sub hquartic (by decide)).widen (by decide)
  case isFalse htail =>
    have hquartic := quartic_between (habs.above htail (by decide)) (by decide) (by decide)
    have htail : emitterTail.Between emitterTail emitterTail := .self (by decide)
    exact (htail.div hquartic (by decide) (by decide)).widen (by decide)

/-- the product of the gains is a positive number of moderate size below the cutoff, and zero
elsewhere -/
theorem gain_between (ha : alpha.abs < cutoff) (hb : beta.abs < cutoff) :
    (sensorGain alpha * emitterGain beta).Between 0.0008 1.25 :=
  ((sensorGain_between ha).mul (emitterGain_between hb) (by decide) (by decide)).widen (by decide)

theorem zero_unsigned : (0 : Binary32).Unsigned := ⟨by decide, by decide⟩

theorem sensorGain_unsigned (alpha : Binary32) : (sensorGain alpha).Unsigned := by
  by_cases h : alpha.abs < cutoff
  · exact (sensorGain_between h).unsigned (by decide)
  · rw [sensorGain_of_not_lt h]
    exact zero_unsigned

theorem emitterGain_unsigned (beta : Binary32) : (emitterGain beta).Unsigned := by
  by_cases h : beta.abs < cutoff
  · exact (emitterGain_between h).unsigned (by decide)
  · rw [emitterGain_of_not_lt h]
    exact zero_unsigned

/-- one end that sees nothing is enough for the product to vanish -/
theorem gain_of_not_lt (h : ¬ (alpha.abs < cutoff ∧ beta.abs < cutoff)) :
    sensorGain alpha * emitterGain beta = 0 := by
  by_cases ha : alpha.abs < cutoff
  · have hb : ¬ beta.abs < cutoff := fun hb => h ⟨ha, hb⟩
    rw [emitterGain_of_not_lt hb, mul_swap]
    exact (sensorGain_unsigned alpha).zero_mul
  · rw [sensorGain_of_not_lt ha]
    exact (emitterGain_unsigned beta).zero_mul

theorem gain_pos_iff :
    0 < sensorGain alpha * emitterGain beta ↔ alpha.abs < cutoff ∧ beta.abs < cutoff := by
  constructor
  · intro h
    by_contra hdark
    rw [gain_of_not_lt hdark] at h
    exact absurd h (by decide)
  · rintro ⟨ha, hb⟩
    exact (gain_between ha hb).pos (by decide)

/-! ## the intensity -/

/-- no distance is so great that the ambient offset is lost, or so small that the fit overflows -/
theorem intensity_between (hr : r ≠ nan) : (intensity r).Between 3.9 2600 := by
  unfold intensity
  split
  case isTrue hnear =>
    have hsaturation : saturation.Between saturation saturation := .self (by decide)
    exact hsaturation.widen (by decide)
  case isFalse hfar =>
    have hoffset : offset.Between offset offset := .self (by decide)
    have hscale : scale.Between scale scale := .self (by decide)
    have hsquare := square_nonneg (sub_finite_ne_nan hr (b := centre) (by decide))
    have hspread := le_self_add (a := spread) (by decide) hsquare
    have hfit := hscale.div_of_le hspread (by decide) (by decide)
    exact (hoffset.add hfit (by decide)).widen (by decide)

end Photometry

end RangeBearing
