import RangeBearing.Prediction
import RangeBearing.Proofs.Gains
import RangeBearing.Proofs.Turns

/-!
# Predicted cells

The forward model has an answer for every pose, whatever its range, bearing and heading, numbers or
not.  A ray with two angles has a length, because an angle that is a number comes from a span whose
components are numbers; and a ray below the cutoff at both ends is in view.

* `Displacement.length_ne_nan`      two numbers have a hypotenuse;
* `Prediction.Predicts`             what holds of the cell of a ray;
* `Prediction.grid_predicts`        every cell of every prediction.
-/

namespace RangeBearing

open Elementary Binary

namespace Elementary

variable {x y : Binary32}

theorem diagonal_ne_nan (hx : x ≠ nan) (hy : y ≠ nan) : diagonal x y ≠ nan := by
  have hsquares := nonneg_add (square_nonneg (convert_ne_nan (G := .binary64) hx))
    (square_nonneg (convert_ne_nan (G := .binary64) hy)) (by decide)
  exact ne_nan_right
    (sqrt_nonneg (convert_nonneg (G := .binary32) hsquares (by decide)) (by decide))

theorem hypotOrdered_ne_nan (hx : 0 ≤ x) (hy : 0 ≤ y) : hypotOrdered x y ≠ nan := by
  have hscaled {k : Binary32} (hk : k.isFinite) (hpos : 0 < k) :
      diagonal (x * k) (y * k) ≠ nan :=
    diagonal_ne_nan (mul_pos_ne_nan (ne_nan_right hx) hk hpos)
      (mul_pos_ne_nan (ne_nan_right hy) hk hpos)
  unfold hypotOrdered
  dsimp only
  split
  · exact ne_nan_right hy
  split
  · exact ne_nan_right (nonneg_add hx hy (by decide))
  split
  · rw [mul_swap]
    exact mul_pos_ne_nan (hscaled (by decide) (by decide)) (by decide) (by decide)
  split
  · rw [mul_swap]
    exact mul_pos_ne_nan (hscaled (by decide) (by decide)) (by decide) (by decide)
  · exact diagonal_ne_nan (ne_nan_right hx) (ne_nan_right hy)

theorem hypot_ne_nan (hx : x ≠ nan) (hy : y ≠ nan) : hypot x y ≠ nan := by
  have hx := nonneg_abs hx
  have hy := nonneg_abs hy
  unfold hypot
  dsimp only
  split
  · exact hypotOrdered_ne_nan hy hx
  · exact hypotOrdered_ne_nan hx hy

theorem ne_nan_of_atan2 (h : atan2 y x ≠ nan) : x ≠ nan ∧ y ≠ nan := by
  constructor
  · rintro rfl
    exact h rfl
  · rintro rfl
    refine h ?_
    unfold atan2
    rw [if_pos (by simp [isNaN])]

end Elementary

namespace Displacement

variable {v : Displacement}

theorem length_ne_nan (h : v.direction ≠ nan) : v.length ≠ nan :=
  have ⟨hx, hy⟩ := ne_nan_of_atan2 h
  hypot_ne_nan hx hy

end Displacement

namespace Angle

variable {a : Binary32}

theorem isFinite_of_wrap (h : wrap a ≠ nan) : a.isFinite := by
  by_contra hinfinite
  exact h (wrap_of_not_isFinite hinfinite)

theorem inView_of_lt (h : a.abs < Photometry.cutoff) : inView a :=
  decide_eq_true (Binary.le_trans (Binary.le_of_lt h) (by decide))

end Angle

namespace Prediction

open Photometry

/-- an end of a ray that sees nothing: no angle, or one from the cutoff on -/
def Blind (angle : Binary32) : Prop := angle.isNaN ∨ cutoff ≤ angle.abs

theorem blind_iff (angle : Binary32) : Blind angle ↔ ¬ angle.abs < cutoff := by
  have hcutoff : cutoff ≠ nan := ne_nan_of_isFinite (by decide)
  constructor
  · rintro (hnan | hle)
    · rw [isNaN_iff.mp hnan]
      exact fun hlt => ne_nan_left (Binary.le_of_lt hlt) rfl
    · exact Binary.not_lt_of_le hle
  · intro h
    by_cases hnan : angle = nan
    · exact .inl (isNaN_iff.mpr hnan)
    · exact .inr (Binary.le_of_not_lt hcutoff (abs_ne_nan hnan) h)

theorem blind_or_blind_iff (alpha beta : Binary32) :
    Blind alpha ∨ Blind beta ↔ ¬ (alpha.abs < cutoff ∧ beta.abs < cutoff) := by
  rw [blind_iff, blind_iff, not_and_or]

/-- what holds of the cell of a ray -/
structure Predicts (ray : Ray) (cell : Binary32) : Prop where
  finite : cell.isFinite
  nonneg : 0 ≤ cell
  dark_iff : cell = 0 ↔ Blind ray.alpha ∨ Blind ray.beta
  /-- a ray that is seen at both ends gives some light, however long it is -/
  lit : ray.alpha.abs < cutoff → ray.beta.abs < cutoff → 0 < cell

variable {ray : Ray}

/-- the light along a ray that is seen at both ends -/
theorem rayIntensity_between (ha : ray.alpha.abs < cutoff) (hb : ray.beta.abs < cutoff)
    (hlength : ray.inView → ray.length ≠ nan) : (rayIntensity ray).Between 0.003 3300 := by
  have hview : ray.inView :=
    Bool.and_eq_true_iff.mpr ⟨Angle.inView_of_lt ha, Angle.inView_of_lt hb⟩
  unfold rayIntensity
  rw [if_pos hview]
  exact ((gain_between ha hb).mul (intensity_between (hlength hview)) (by decide) (by decide)).widen
    (by decide)

/-- a ray that is not seen at one end gives no light -/
theorem rayIntensity_of_blind (h : Blind ray.alpha ∨ Blind ray.beta)
    (hlength : ray.inView → ray.length ≠ nan) : rayIntensity ray = 0 := by
  have hdark := (blind_or_blind_iff _ _).mp h
  unfold rayIntensity
  split
  case isTrue hview =>
    -- between the cutoff and the edge of the field of view only the gains say so
    rw [gain_of_not_lt hdark]
    exact ((intensity_between (hlength hview)).unsigned (by decide)).zero_mul
  case isFalse hview => rfl

theorem length_ne_nan_of_inView {centre : Displacement} {heading : Binary32} {e s : Direction}
    (h : (Ray.trace centre heading e s).inView) :
    (Ray.trace centre heading e s).length ≠ nan := by
  obtain ⟨halpha, -⟩ := Bool.and_eq_true_iff.mp h
  have hangle : (Ray.trace centre heading e s).alpha ≠ nan := by
    intro hnan
    rw [hnan] at halpha
    exact absurd halpha (by decide)
  refine Displacement.length_ne_nan ?_
  intro hnan
  have hfinite : ((Ray.trace centre heading e s).span.direction - Ring.boresight s).isFinite :=
    Angle.isFinite_of_wrap hangle
  rw [hnan] at hfinite
  cases hfinite

theorem rayIntensity_moderate (hlength : ray.inView → ray.length ≠ nan) :
    (rayIntensity ray).Between 0 3300 := by
  by_cases hdark : Blind ray.alpha ∨ Blind ray.beta
  · rw [rayIntensity_of_blind hdark hlength]
    exact (Between.self (by decide)).widen (by decide)
  · rw [blind_or_blind_iff, not_not] at hdark
    exact (rayIntensity_between hdark.1 hdark.2 hlength).widen (by decide)

theorem rayIntensity_predicts (hlength : ray.inView → ray.length ≠ nan) :
    Predicts ray (rayIntensity ray) := by
  have hmoderate := rayIntensity_moderate hlength
  have hlit (ha : ray.alpha.abs < cutoff) (hb : ray.beta.abs < cutoff) : 0 < rayIntensity ray :=
    (rayIntensity_between ha hb hlength).pos (by decide)
  refine ⟨hmoderate.isFinite, hmoderate.lower, ⟨fun hzero => ?_, ?_⟩, hlit⟩
  · by_contra hseen
    rw [blind_or_blind_iff, not_not] at hseen
    have hpos := hlit hseen.1 hseen.2
    rw [hzero] at hpos
    exact absurd hpos (by decide)
  · exact fun hdark => rayIntensity_of_blind hdark hlength

theorem grid_get (range bearing heading : Binary32) (e s : Direction) :
    (grid range bearing heading).get e s =
      rayIntensity (.trace (.polar range bearing) heading e s) := Grid.get_ofFn _ e s

/-- no cell of a prediction is great -/
theorem grid_moderate (range bearing heading : Binary32) (e s : Direction) :
    ((grid range bearing heading).get e s).Between 0 3300 := by
  rw [grid_get]
  exact rayIntensity_moderate length_ne_nan_of_inView

/-- every cell of every prediction -/
theorem grid_predicts (range bearing heading : Binary32) (e s : Direction) :
    Predicts (.trace (.polar range bearing) heading e s)
      ((grid range bearing heading).get e s) := by
  rw [grid_get]
  exact rayIntensity_predicts length_ne_nan_of_inView

/-- no bearing, at an infinite range: every cell is dark -/
example : (grid (.infinite false) .nan 0).get 0 0 = 0 := by decide

end Prediction

end RangeBearing
