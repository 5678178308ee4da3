import RangeBearing.Elementary.Arctangent
import RangeBearing.Proofs.Bounds

/-!
# Arctangents are bounded

An arctangent is a polynomial on an argument that has been brought near zero, so it is bounded: by
a constant that is far from sharp and needs no account of what the polynomial approximates.

* `Elementary.atan_within`, `Elementary.atan2_within`.
-/

namespace RangeBearing

namespace Elementary

open Binary

variable {x y : Binary32}

/-- the polynomial on an argument of moderate size -/
theorem atanTail_within (h : x.Within 4) : (atanTail x).Within 600000 := by
  have hz := h.mul_within h (by decide)
  have hw := hz.mul_within hz (by decide)
  have hcubic := Within.add (.self 1.4253635705e-01)
    (hw.mul_within (.self 6.1687607318e-02) (by decide)) (by decide) (by decide)
  have hodd := hz.mul_within (Within.add (.self 3.3333328366e-01)
    (hw.mul_within hcubic (by decide)) (by decide) (by decide)) (by decide)
  have hquartic := Within.mul_within hw
    (show Within (-1.0648017377e-01 : Binary32) 1 by decide) (by decide)
  have heven := hw.mul_within (Within.add
    (show Within (-1.9999158382e-01 : Binary32) 1 by decide) hquartic (by decide) (by decide))
    (by decide)
  exact (h.mul_within (hodd.add heven (by decide) (by decide)) (by decide)).widen (by decide)

theorem centre_within (code : Nat) :
    (centre code).high.Within 2 ∧ (centre code).low.Within 1 := by
  unfold centre
  split_ifs
  all_goals exact ⟨by decide, by decide⟩

theorem abs_between (b : Binary32) {code : Nat} (h : x.magnitude < code)
    (hcode : b.magnitude = code) (high : b.isFinite) : x.abs.Between 0 b.abs := by
  have hle : x.magnitude ≤ b.magnitude := hcode ▸ Nat.le_of_lt h
  have hb : b ≠ nan := ne_nan_of_isFinite high
  have hx : x ≠ nan := ne_nan_of_le (Nat.le_trans hle (magnitude_le_top hb))
  exact ⟨zero_isFinite (by decide), (isFinite_abs _).trans high, nonneg_abs hx,
    Within.abs_le (.inr hle) hx hb⟩

/-- every centre brings its arguments near zero -/
theorem bring_within (high : x.magnitude < 0x4c800000) :
    ((centre x.magnitude).bring x.abs).Within 4 := by
  have hone : (1 : Binary32).Between 1 1 := .self (by decide)
  unfold centre
  -- the numerator is bounded from above, the denominator from below
  split_ifs with half one threeHalves
  · have hx := abs_between (ofBits 0x3f300000) half (by decide) (by decide)
    have hdouble := Between.mul (.self (a := 2) (by decide)) hx (by decide) (by decide)
    have hover := (hdouble.sub hone (by decide)).within (d := 3) (by decide) (by decide)
    have hunder := (Between.add (.self (a := 2) (by decide)) hx (by decide)).lower
    exact (hover.div_of_le hunder (by decide) (by decide)).widen (by decide)
  · have hx := abs_between (ofBits 0x3f980000) one (by decide) (by decide)
    have hover := (hx.sub hone (by decide)).within (d := 3) (by decide) (by decide)
    have hunder := (hx.add hone (by decide)).lower
    exact (hover.div_of_le hunder (by decide) (by decide)).widen (by decide)
  · have hx := abs_between (ofBits 0x401c0000) threeHalves (by decide) (by decide)
    have hthree : (1.5 : Binary32).Between 1.5 1.5 := .self (by decide)
    have hover := (hx.sub hthree (by decide)).within (d := 4) (by decide) (by decide)
    have hproduct := hthree.mul hx (by decide) (by decide)
    have hunder := (hone.add hproduct (by decide)).lower
    exact (hover.div_of_le hunder (by decide) (by decide)).widen (by decide)
  · -- here the numerator is a constant, and huge arguments have been answered before
    have hx : x ≠ nan := by
      refine ne_nan_of_le (Nat.le_trans (Nat.le_of_lt high) ?_)
      decide
    have hleast : (ofBits 0x401c0000 : Binary32).magnitude = 0x401c0000 := by decide
    have hfar : (ofBits 0x401c0000 : Binary32).Within x :=
      .inr (hleast ▸ Nat.le_of_not_lt threeHalves)
    have hunder := hfar.abs_le (by decide) hx
    exact ((Within.self (-1)).div_of_le hunder (by decide) (by decide)).widen (by decide)

/-- a bound on all arctangents, far above half a turn -/
def atanBound : Binary32 := 700000

theorem atan_within (x : Binary32) : (atan x).Within atanBound := by
  unfold atan
  extract_lets signed c y
  split_ifs with hnan hlarge hsmall hinner
  · exact .inl rfl
  · exact Within.signed (by decide)
  · exact .inr (Nat.le_trans (Nat.le_of_lt hsmall) (by decide))
  · have hx : x.Within 4 := .inr (Nat.le_trans (Nat.le_of_lt hinner) (by decide))
    exact (hx.sub (atanTail_within hx) (by decide) (by decide)).widen (by decide)
  · have hy : y.Within 4 := bring_within (Nat.lt_of_not_le hlarge)
    obtain ⟨hhigh, hlow⟩ := centre_within x.magnitude
    have htail := (atanTail_within hy).sub hlow (by decide) (by decide)
    have hrest := htail.sub hy (by decide) (by decide)
    exact ((hhigh.sub hrest (by decide) (by decide)).widen (by decide)).signed

/-- a bound on all angles of points -/
def angleBound : Binary32 := 800000

theorem atan2_within (y x : Binary32) : (atan2 y x).Within angleBound := by
  have hhalf : halfTurn.Within angleBound := by decide
  have hquarter : quarterTurn.Within angleBound := by decide
  unfold atan2
  extract_lets signed z
  split
  · exact .inl rfl
  split
  · exact (atan_within y).widen (by decide)
  split
  case isTrue hzero =>
    split
    · exact hhalf.signed
    · exact .inr (hzero ▸ Nat.zero_le _)
  split
  · exact hquarter.signed
  split
  · split_ifs
    · exact hhalf.signed
    · exact Within.signed (by decide)
    · exact Within.signed (by decide)
    · exact Within.signed (by decide)
  split
  · exact hquarter.signed
  · have hz : z.Within atanBound := by
      show (if _ then _ else _ : Binary32).Within atanBound
      split
      · decide
      · exact atan_within _
    have hrest : halfTurnRest.Within 1 := by decide
    have hcorrected := hz.sub hrest (by decide) (by decide)
    split
    · exact hz.widen (by decide)
    · exact hz.neg.widen (by decide)
    · exact (Within.sub (.self halfTurn) hcorrected (by decide) (by decide)).widen (by decide)
    · exact (hcorrected.sub (.self halfTurn) (by decide) (by decide)).widen (by decide)

end Elementary

end RangeBearing
