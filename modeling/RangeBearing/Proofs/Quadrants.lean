import RangeBearing.Proofs.Arctangents
import RangeBearing.Proofs.Scaling
import RangeBearing.Proofs.Signs

/-!
# The angle of a scaled point

An arctangent has the sign of its argument, also where a sum is taken: the two terms never cancel.
So the shortcut for `x = 1` gives what the division by `x` would give, as long as `y` is of moderate
size, and what is left of the angle reads the signs, the quotient and the exponent gaps only.

* `Elementary.atan_neg`
* `Elementary.quadrantAngle`   the angle of a point without the shortcut, `Elementary.atan2_eq`;
* `Elementary.atan2_scaled`    two points in the same direction.
-/

namespace RangeBearing

namespace Binary

variable {F : Format} [NeZero F.precision] {a b : Binary F}

/-- a factor of at most a half takes a number below itself, unless it is too small -/
theorem abs_mul_lt (ha : a.isFinite) (hb : b.isFinite) (hhalf : |b.value| ≤ 1 / 2)
    (hlarge : 2 * F.binade ≤ a.magnitude) : |(a * b).value| < |a.value| := by
  have hroom : F.binade ≤ a.magnitude :=
    Nat.le_trans (Nat.le_mul_of_pos_left _ Nat.two_pos) hlarge
  obtain ⟨d, hd⟩ := Nat.exists_eq_add_of_le' hroom
  have htop := magnitude_le_top (ne_nan_of_isFinite ha)
  have hone := F.one_cast_pos
  have hunits : F.units a.magnitude = 2 * F.units d := by
    have hscaled := Format.units_add_binade (F := F) (k := 1) (c := d) (by omega)
    rwa [Nat.one_mul, ← hd, Nat.pow_one] at hscaled
  have hvalue := abs_value (ne_nan_of_isFinite ha)
  have hdouble : F.amount a.magnitude = 2 * F.amount d := by
    unfold Format.amount
    rw [hunits]
    push_cast
    ring
  have hproduct : |(a * b).value| ≤ F.amount d := by
    rw [value_mul ha hb, Format.abs_round, ← Format.round_amount (F := F) (c := d) (by omega)]
    apply Format.round_mono
    rw [abs_mul, hvalue, hdouble]
    have := F.amount_nonneg d
    nlinarith
  have hpos : 0 < F.binade := F.binade_pos
  rw [hvalue]
  exact hproduct.trans_lt (F.amount_strictMono (by omega))

end Binary

namespace Elementary

open Binary

variable {x y x' y' : Binary32} {k : Nat}

/-! ## arctangents of opposite arguments -/

/-- what the argument is multiplied by in the polynomial -/
def tailFactor (x : Binary32) : Binary32 :=
  let z := x * x
  let w := z * z
  z * (3.3333328366e-01 + w * (1.4253635705e-01 + w * 6.1687607318e-02)) +
    w * (-1.9999158382e-01 + w * -1.0648017377e-01)

theorem atanTail_eq (x : Binary32) : atanTail x = x * tailFactor x := rfl

theorem atanTail_neg (x : Binary32) : atanTail (-x) = -atanTail x := by
  have hfactor : tailFactor (-x) = tailFactor x := by
    unfold tailFactor
    rw [neg_mul_neg]
  rw [atanTail_eq, atanTail_eq, hfactor, neg_mul]

theorem tailFactor_within (h : x.Within (.ofBits 0x3ee00000)) :
    (tailFactor x).Within (.ofBits 0x3f000000) := by
  have hz := h.mul_within h (by decide)
  have hw := hz.mul_within hz (by decide)
  have hcubic := Within.add (.self 1.4253635705e-01)
    (hw.mul_within (.self 6.1687607318e-02) (by decide)) (by decide) (by decide)
  have hodd := hz.mul_within (Within.add (.self 3.3333328366e-01)
    (hw.mul_within hcubic (by decide)) (by decide) (by decide)) (by decide)
  have hquartic := Within.mul_within hw
    (show Within (-1.0648017377e-01 : Binary32) 1 by decide) (by decide)
  have heven := hw.mul_within (Within.add
    (show Within (-1.9999158382e-01 : Binary32) 1 by decide) hquartic (by decide) (by decide))
    (by decide)
  exact (hodd.add heven (by decide) (by decide)).widen (by decide)

theorem abs_atanTail_lt (hlow : 0x39800000 ≤ x.magnitude) (hhigh : x.magnitude < 0x3ee00000)
    (hnumber : atanTail x ≠ nan) : (atanTail x).isFinite ∧ |(atanTail x).value| < |x.value| := by
  have hx : x.Within (.ofBits 0x3ee00000) := by
    have hcode : (ofBits 0x3ee00000 : Binary32).magnitude = 0x3ee00000 := by decide
    exact .inr (hcode ▸ Nat.le_of_lt hhigh)
  have hfinite : x.isFinite := isFinite_of_lt_top (Nat.lt_trans hhigh (by decide))
  have hfactor := tailFactor_within hx
  have hfactor' : tailFactor x ≠ nan := by
    intro hnan
    rw [atanTail_eq, hnan] at hnumber
    cases x <;> exact hnumber rfl
  have hcode : (ofBits 0x3f000000 : Binary32).magnitude = 0x3f000000 := by decide
  have hhalf : |(ofBits 0x3f000000 : Binary32).value| = 1 / 2 := by
    rw [abs_value (ne_nan_of_isFinite (by decide)), hcode, Format.amount_half]
  have hbound := (Within.iff_value hfactor' (ne_nan_of_isFinite (by decide))).mp hfactor
  rw [hhalf] at hbound
  refine ⟨(atanTail_within (hx.widen (by decide))).isFinite (by decide) hnumber, ?_⟩
  rw [atanTail_eq]
  exact abs_mul_lt hfinite (hfactor.isFinite (by decide) hfactor') hbound
    (Nat.le_trans (by decide) hlow)

/-- what is subtracted is less than the argument, so that the difference has a sign -/
theorem sub_atanTail_neg (hlow : 0x39800000 ≤ x.magnitude) (hhigh : x.magnitude < 0x3ee00000) :
    -x - atanTail (-x) = -(x - atanTail x) := by
  rw [atanTail_neg]
  by_cases hnumber : atanTail x = nan
  · rw [hnumber]
    cases x <;> rfl
  · obtain ⟨htail, hlt⟩ := abs_atanTail_lt hlow hhigh hnumber
    have hfinite : x.isFinite := isFinite_of_lt_top (Nat.lt_trans hhigh (by decide))
    refine neg_add_neg hfinite ((isFinite_neg _).trans htail) fun hsum => ?_
    -- the difference would have the value zero
    have hvalue : x.value = (atanTail x).value := by
      rw [signedUnits_neg] at hsum
      rw [value_eq hfinite, value_eq htail, Int.eq_of_sub_eq_zero hsum]
    exact absurd hlt (hvalue ▸ lt_irrefl _)

theorem atan_neg (x : Binary32) : atan (-x) = -atan x := by
  by_cases hnan : x = nan
  · rw [hnan]
    rfl
  have hsigned (a : Binary32) : (if (-x).isNegative then -a else a) =
      -(if x.isNegative then -a else a) := by
    rw [isNegative_neg hnan]
    cases x.isNegative with
    | true => exact (neg_neg a).symm
    | false => rfl
  have hnumber {a : Binary32} (ha : a ≠ nan) : ¬ a.isNaN = true := mt isNaN_iff.mp ha
  unfold atan
  extract_lets signed' c' y' signed c y
  have hcentre : c' = c := congrArg centre (magnitude_neg x)
  have hy : y' = y := by
    show c'.bring (-x).abs = c.bring x.abs
    rw [hcentre, abs_neg]
  rw [if_neg (hnumber (neg_ne_nan hnan)), if_neg (hnumber hnan), magnitude_neg, hcentre, hy]
  split_ifs with hlarge hsmall hinner
  · exact hsigned _
  · rfl
  · exact sub_atanTail_neg (Nat.le_of_not_lt hsmall) hinner
  · exact hsigned _

/-- the arctangent of the magnitude, with the sign of the argument -/
theorem atan_eq_signed (x : Binary32) :
    atan x = if x.isNegative then -atan x.abs else atan x.abs := by
  have hx := eq_signed_abs x
  cases hsign : x.isNegative with
  | true =>
    rw [hsign, if_pos rfl] at hx
    rw [if_pos rfl, ← atan_neg, ← hx]
  | false =>
    rw [hsign, if_neg Bool.false_ne_true] at hx
    rw [if_neg Bool.false_ne_true, ← hx]

/-! ## the angle of a point -/

/-- the angle of the point `(x, y)` by signs, exponent gaps and the quotient -/
def quadrantAngle (y x : Binary32) : Binary32 :=
  let signed (a : Binary32) := if y.isNegative then -a else a
  if y.magnitude = 0 then
    if x.isNegative then signed halfTurn else y
  else if x.magnitude = 0 then signed quarterTurn
  else if x.magnitude + gap < y.magnitude then signed quarterTurn
  else
    let z := if x.isNegative && y.magnitude + gap < x.magnitude then 0 else atan (y / x).abs
    match x.isNegative, y.isNegative with
    | false, false => z
    | false, true => -z
    | true, false => halfTurn - (z - halfTurnRest)
    | true, true => (z - halfTurnRest) - halfTurn

theorem quadrantAngle_one (hy : y.isFinite) (near : y.magnitude < 0x4c800000) :
    quadrantAngle y 1 = atan y := by
  have hsign : (1 : Binary32).isNegative = false := by decide
  have hcode : (1 : Binary32).magnitude = 0x3f800000 := by decide
  have hgap : 0x3f800000 + gap = 0x4c800000 := by decide
  have hnumber : ¬ y.isNaN = true := mt isNaN_iff.mp (ne_nan_of_isFinite hy)
  unfold quadrantAngle
  extract_lets signed z
  by_cases hzero : y.magnitude = 0
  · rw [if_pos hzero, hsign, if_neg Bool.false_ne_true]
    unfold atan
    dsimp only
    rw [if_neg hnumber, hzero]
    rfl
  · have hz : z = atan y.abs := by
      show (if (1 : Binary32).isNegative && _ then 0 else atan (y / 1).abs) = _
      rw [hsign, Bool.false_and, if_neg Bool.false_ne_true, div_one hy]
    rw [if_neg hzero, hcode, if_neg (by decide), hgap, if_neg (by omega), hsign, hz,
      atan_eq_signed y]
    cases y.isNegative <;> rfl

/-- the shortcut for `x = 1` makes no difference -/
theorem atan2_eq (hx : x.isFinite) (hy : y.isFinite) (near : y.magnitude < 0x4c800000) :
    atan2 y x = quadrantAngle y x := by
  have hnumbers : (x.isNaN || y.isNaN) = false := by
    obtain ⟨s, c, rfl⟩ := exists_finite hx
    obtain ⟨t, d, rfl⟩ := exists_finite hy
    rfl
  unfold atan2
  dsimp only
  rw [hnumbers, if_neg Bool.false_ne_true]
  by_cases hone : x = 1
  · rw [if_pos hone, hone, quadrantAngle_one hy near]
  · have hsteep : (¬ y.isFinite || x.magnitude + gap < y.magnitude) = true ↔
        x.magnitude + gap < y.magnitude := by
      simp [hy]
    rw [if_neg hone]
    refine if_congr Iff.rfl rfl (if_congr Iff.rfl rfl ?_)
    rw [if_neg (not_not.mpr hx)]
    exact if_congr hsteep rfl rfl

/-- nothing that is read of a point changes when both coordinates are scaled -/
theorem quadrantAngle_scaled (hx : Scaled k x x') (hy : Scaled k y y') (hx0 : x.Full)
    (hy0 : y.Full) : quadrantAngle y' x' = quadrantAngle y x := by
  by_cases hyzero : y.magnitude = 0
  · have hy' := hy.magnitude_eq_zero_iff.mpr hyzero
    unfold quadrantAngle
    dsimp only
    rw [if_pos hyzero, if_pos hy', hx.isNegative, hy.eq_of_zero hyzero]
  have hy' := mt hy.magnitude_eq_zero_iff.mp hyzero
  by_cases hxzero : x.magnitude = 0
  · have hx' := hx.magnitude_eq_zero_iff.mpr hxzero
    unfold quadrantAngle
    dsimp only
    rw [if_neg hyzero, if_neg hy', if_pos hxzero, if_pos hx', hy.isNegative]
  have hx' := mt hx.magnitude_eq_zero_iff.mp hxzero
  have hxcode := hx.magnitude_eq hx0 hxzero
  have hycode := hy.magnitude_eq hy0 hyzero
  have hsteep : x'.magnitude + gap < y'.magnitude ↔ x.magnitude + gap < y.magnitude := by omega
  have hflat : y'.magnitude + gap < x'.magnitude ↔ y.magnitude + gap < x.magnitude := by omega
  unfold quadrantAngle
  simp only [hyzero, hy', hxzero, hx', hsteep, hflat, hx.isNegative, hy.isNegative,
    hy.div_eq hx, if_false]

theorem atan2_scaled (hx : Scaled k x x') (hy : Scaled k y y') (hx0 : x.Full) (hy0 : y.Full)
    (near : y'.magnitude < 0x4c800000) : atan2 y' x' = atan2 y x := by
  rw [atan2_eq hx.isFinite.2 hy.isFinite.2 near,
    atan2_eq hx.isFinite.1 hy.isFinite.1 (Nat.lt_of_le_of_lt hy.magnitude_le near),
    quadrantAngle_scaled hx hy hx0 hy0]

end Elementary

end RangeBearing
