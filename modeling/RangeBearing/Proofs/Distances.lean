import RangeBearing.Binary.Bits
import RangeBearing.Photometry
import RangeBearing.Proofs.Monotonicity

/-!
# Distances of intensities

The fit is inverted for the finite intensities above the ambient floor, and for no others.  Between
the floor and saturation each step of the inversion is monotone, so the bounds at the two ends hold
for all intensities between them: nothing overflows, nothing is divided by zero, and the radicand is
positive.  Beyond saturation the near field stands for the distance; it is nearer than all others.

* `Photometry.excess`, `Photometry.radicand`, `Photometry.fitted`   the steps of the inversion;
* `Photometry.distance_cases`      which intensities have a distance;
* `Photometry.Inverts`             what holds of the inversion of an intensity;
* `Photometry.distance_inverts`    for every intensity.
-/

namespace RangeBearing

open Binary

namespace Photometry

variable {lambda brighter lo hi r r' : Binary32}

/-- what an intensity has above the ambient floor -/
def excess (lambda : Binary32) : Binary32 := lambda - offset

/-- the square of the distance from the centre of the fit -/
def radicand (lambda : Binary32) : Binary32 := scale / excess lambda - spread

/-- the distance at which the fit has an intensity -/
def fitted (lambda : Binary32) : Binary32 := (radicand lambda).sqrt + centre

/-- the neighbours of the floor and of saturation -/
def faintest : Binary32 := .ofBits 0x407a1d55
def brightest : Binary32 := .ofBits 0x45225199

/-! ## the steps of the inversion -/

/-- every step gives a number, and only the excess and the radicand can be small -/
structure Steps (lambda : Binary32) : Prop where
  finite : lambda.isFinite
  excess_finite : (excess lambda).isFinite
  excess_pos : 0 < excess lambda
  quotient_finite : (scale / excess lambda).isFinite
  radicand_finite : (radicand lambda).isFinite
  radicand_pos : 0 < radicand lambda
  root_finite : (radicand lambda).sqrt.isFinite
  fitted_finite : (fitted lambda).isFinite

theorem excess_between (h : lambda.Between lo hi) (hlo : (excess lo).isFinite)
    (hhi : (excess hi).isFinite) : (excess lambda).Between (excess lo) (excess hi) :=
  h.sub (.self (by decide)) ⟨hlo, hhi⟩

/-- the brighter, the smaller the radicand -/
theorem radicand_between (h : lambda.Between lo hi) (hlo : Steps lo) (hhi : Steps hi) :
    (radicand lambda).Between (radicand hi) (radicand lo) := by
  have hexcess := excess_between h hlo.excess_finite hhi.excess_finite
  have hscale : scale.Between scale scale := .self (by decide)
  have hquotient := hscale.div hexcess ⟨by decide, hlo.excess_pos⟩
    ⟨hhi.quotient_finite, hlo.quotient_finite⟩
  exact hquotient.sub (.self (by decide)) ⟨hhi.radicand_finite, hlo.radicand_finite⟩

theorem fitted_between (h : lambda.Between lo hi) (hlo : Steps lo) (hhi : Steps hi) :
    (fitted lambda).Between (fitted hi) (fitted lo) := by
  have hroot := (radicand_between h hlo hhi).sqrt hhi.radicand_pos
    ⟨hhi.root_finite, hlo.root_finite⟩
  exact hroot.add (.self (by decide)) ⟨hhi.fitted_finite, hlo.fitted_finite⟩

theorem steps_faintest : Steps faintest := by
  constructor <;> decide +kernel

theorem steps_brightest : Steps brightest := by
  constructor <;> decide +kernel

theorem steps_of_between (h : lambda.Between lo hi) (hlo : Steps lo) (hhi : Steps hi) :
    Steps lambda := by
  have hexcess := excess_between h hlo.excess_finite hhi.excess_finite
  have hscale : scale.Between scale scale := .self (by decide)
  have hquotient := hscale.div hexcess ⟨by decide, hlo.excess_pos⟩
    ⟨hhi.quotient_finite, hlo.quotient_finite⟩
  have hradicand := radicand_between h hlo hhi
  have hroot := hradicand.sqrt hhi.radicand_pos ⟨hhi.root_finite, hlo.root_finite⟩
  exact {
    finite := h.isFinite
    excess_finite := hexcess.isFinite
    excess_pos := hexcess.pos hlo.excess_pos
    quotient_finite := hquotient.isFinite
    radicand_finite := hradicand.isFinite
    radicand_pos := hradicand.pos hhi.radicand_pos
    root_finite := hroot.isFinite
    fitted_finite := (fitted_between h hlo hhi).isFinite }

/-- the intensities that the fit inverts -/
theorem between_of_unsaturated (floor : offset < lambda) (unsaturated : ¬ saturation ≤ lambda) :
    lambda.Between faintest brightest where
  low := by decide
  high := by decide
  lower := next_le_of_lt floor (by decide)
  upper := by
    have hlambda := ne_nan_right (Binary.le_of_lt floor)
    exact le_of_lt_next (Binary.lt_of_not_le hlambda (by decide) unsaturated) (by decide)

theorem steps_of_unsaturated (floor : offset < lambda) (unsaturated : ¬ saturation ≤ lambda) :
    Steps lambda :=
  steps_of_between (between_of_unsaturated floor unsaturated) steps_faintest steps_brightest

/-! ## which intensities have a distance -/

theorem distance_of_dim (hfinite : lambda.isFinite) (hdim : ¬ offset < lambda) :
    distance lambda = .error .belowAmbientFloor := by
  have hunsaturated : ¬ saturation ≤ lambda := fun h =>
    hdim (Binary.lt_of_lt_of_le (by decide) h)
  have hexcess : excess lambda ≤ 0 := by
    by_contra h
    exact hdim (lt_of_not_sub_le_zero hfinite (by decide) h)
  unfold distance
  rw [if_neg (not_not.mpr hfinite), if_neg hunsaturated]
  exact if_pos hexcess

theorem distance_of_steps (h : Steps lambda) (unsaturated : ¬ saturation ≤ lambda) :
    distance lambda = .ok (fitted lambda) := by
  have hexcess : ¬ excess lambda ≤ 0 := fun hle => Binary.not_lt_of_le hle h.excess_pos
  have hradicand : 0 ≤ radicand lambda := Binary.le_of_lt h.radicand_pos
  unfold distance
  rw [if_neg (not_not.mpr h.finite), if_neg unsaturated]
  exact (if_neg hexcess).trans (if_neg (not_not.mpr hradicand))

/-- without a place in the order, at or below the floor, beyond saturation, or on the fit -/
theorem distance_cases (lambda : Binary32) :
    (¬ lambda.isFinite ∧ distance lambda = .error .nonFiniteIntensity) ∨
      (¬ offset < lambda ∧ distance lambda = .error .belowAmbientFloor) ∨
      (lambda.isFinite ∧ saturation ≤ lambda ∧ distance lambda = .ok nearField) ∨
      (offset < lambda ∧ ¬ saturation ≤ lambda ∧ distance lambda = .ok (fitted lambda)) := by
  by_cases hfinite : lambda.isFinite
  · by_cases hfloor : offset < lambda
    · by_cases hsaturated : saturation ≤ lambda
      · refine .inr (.inr (.inl ⟨hfinite, hsaturated, ?_⟩))
        unfold distance
        rw [if_neg (not_not.mpr hfinite), if_pos hsaturated]
      · exact .inr (.inr (.inr ⟨hfloor, hsaturated,
          distance_of_steps (steps_of_unsaturated hfloor hsaturated) hsaturated⟩))
    · exact .inr (.inl ⟨hfloor, distance_of_dim hfinite hfloor⟩)
  · exact .inl ⟨hfinite, if_pos hfinite⟩

/-- only intensities above the ambient offset have a distance -/
theorem offset_lt_of_distance (h : distance lambda = .ok r) : offset < lambda := by
  rcases distance_cases lambda with ⟨-, h'⟩ | ⟨-, h'⟩ | ⟨-, hsaturated, -⟩ | ⟨hfloor, -, -⟩
  · cases h'.symm.trans h
  · cases h'.symm.trans h
  · exact Binary.lt_of_lt_of_le (by decide) hsaturated
  · exact hfloor

theorem distance_eq_ok_iff :
    (∃ r, distance lambda = .ok r) ↔ lambda.isFinite ∧ offset < lambda := by
  rcases distance_cases lambda with
    ⟨hinfinite, h⟩ | ⟨hdim, h⟩ | ⟨hfinite, hsaturated, h⟩ | ⟨hfloor, hunsaturated, h⟩
  · rw [h]
    exact iff_of_false nofun fun hlambda => hinfinite hlambda.1
  · rw [h]
    exact iff_of_false nofun fun hlambda => hdim hlambda.2
  · exact iff_of_true ⟨_, h⟩ ⟨hfinite, offset_lt_of_distance h⟩
  · exact iff_of_true ⟨_, h⟩ ⟨(steps_of_unsaturated hfloor hunsaturated).finite, hfloor⟩

/-! ## how far away an intensity is -/

/-- the fit begins outside the near field and ends at a moderate distance -/
theorem fitted_within (floor : offset < lambda) (unsaturated : ¬ saturation ≤ lambda) :
    (fitted lambda).Between nearField 240000 :=
  (fitted_between (between_of_unsaturated floor unsaturated) steps_faintest steps_brightest).widen
    (by decide +kernel)

theorem distance_within (h : distance lambda = .ok r) : r.Between nearField 240000 := by
  rcases distance_cases lambda with
    ⟨-, h'⟩ | ⟨-, h'⟩ | ⟨-, -, h'⟩ | ⟨hfloor, hunsaturated, h'⟩
  · cases h'.symm.trans h
  · cases h'.symm.trans h
  · cases h'.symm.trans h
    exact (Between.self (by decide)).widen (by decide)
  · cases h'.symm.trans h
    exact fitted_within hfloor hunsaturated

/-- what is brighter is not farther away, also where the near field begins -/
theorem distance_antitone (hle : lambda ≤ brighter) (h : distance lambda = .ok r)
    (h' : distance brighter = .ok r') : r' ≤ r := by
  rcases distance_cases brighter with
    ⟨-, hb⟩ | ⟨-, hb⟩ | ⟨-, -, hb⟩ | ⟨hfloor', hunsaturated', hb⟩
  · cases hb.symm.trans h'
  · cases hb.symm.trans h'
  · cases hb.symm.trans h'
    exact (distance_within h).lower
  · have hfloor := offset_lt_of_distance h
    have hunsaturated : ¬ saturation ≤ lambda := fun hsaturated =>
      hunsaturated' (Binary.le_trans hsaturated hle)
    have hsteps := steps_of_unsaturated hfloor hunsaturated
    have hsteps' := steps_of_unsaturated hfloor' hunsaturated'
    have hbetween : lambda.Between lambda brighter :=
      ⟨hsteps.finite, hsteps'.finite, Binary.le_rfl (ne_nan_left hle), hle⟩
    cases hb.symm.trans h'
    cases (distance_of_steps hsteps hunsaturated).symm.trans h
    exact (fitted_between hbetween hsteps hsteps').lower

/-- what holds of the inversion of an intensity -/
structure Inverts (lambda : Binary32) : Prop where
  accepted_iff : (∃ r, distance lambda = .ok r) ↔ lambda.isFinite ∧ offset < lambda
  range : ∀ {r}, distance lambda = .ok r → r.isFinite ∧ nearField ≤ r
  /-- the last test of the inversion never fails -/
  radicand : distance lambda ≠ .error .negativeRadicand
  /-- no step that is reached gives an infinity, or no number, and none divides by zero -/
  excess : lambda.isFinite → (Photometry.excess lambda).isFinite
  steps : lambda.isFinite → ¬ saturation ≤ lambda → ¬ Photometry.excess lambda ≤ 0 → Steps lambda
  antitone : ∀ {brighter r r'}, lambda ≤ brighter → distance lambda = .ok r →
    distance brighter = .ok r' → r' ≤ r

theorem distance_inverts (lambda : Binary32) : Inverts lambda where
  accepted_iff := distance_eq_ok_iff
  range h := ⟨(distance_within h).isFinite, (distance_within h).lower⟩
  radicand h := by
    rcases distance_cases lambda with ⟨-, h'⟩ | ⟨-, h'⟩ | ⟨-, -, h'⟩ | ⟨-, -, h'⟩
    all_goals cases h'.symm.trans h
  excess hfinite := (excess_between (between_greatest hfinite) (by decide) (by decide)).isFinite
  steps hfinite hunsaturated hexcess :=
    steps_of_unsaturated (lt_of_not_sub_le_zero hfinite (by decide) hexcess) hunsaturated
  antitone := distance_antitone

/-- at the two ends of the fit -/
example : distance faintest = .ok (.ofBits 0x4867c134) ∧
    distance brightest = .ok (.ofBits 0x3f0ea6ce) := by decide +kernel

end Photometry

end RangeBearing
