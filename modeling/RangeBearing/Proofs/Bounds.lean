import RangeBearing.Proofs.Order

/-!
# Bounds

A datum between two finite ones is a number, and what is computed from such data lies between what
is computed from the bounds.  Where the sign does not matter, one bound on the magnitude is enough,
and no number need not be told apart.

* `Binary.Between`                  between two finite data, in their order;
* `Binary.Between.add`, `Binary.Between.sub`, `Binary.Between.mul`, `Binary.Between.div`;
* `Binary.Unsigned`                 finite and without a sign;
* `Binary.Within.add`, `Binary.Within.sub`, `Binary.Within.mul_within`, `Binary.Within.div_of_le`.
-/

namespace RangeBearing

namespace Binary

variable {F : Format} {a b c d lo hi lo' hi' : Binary F}

/-! ## beside an infinite number -/

theorem div_infinite_ne_nan (ha : a.isFinite) : a / infinite false ≠ nan := by
  obtain ⟨s, d, rfl⟩ := exists_finite ha
  exact ofCode_ne_nan _ _

/-- a finite number vanishes beside an infinite one -/
theorem value_div_infinite (ha : a.isFinite) : (a / infinite false).value = 0 := by
  obtain ⟨s, d, rfl⟩ := exists_finite ha
  show (zero (s != false)).value = 0
  rw [zero, value_ofCode, Nat.min_eq_left (Nat.zero_le _), F.amount_zero]
  simp [signed]

/-! ## between two data -/

/-- between two finite data -/
structure Between (a lo hi : Binary F) : Prop where
  low : lo.isFinite
  high : hi.isFinite
  lower : lo ≤ a
  upper : a ≤ hi

namespace Between

theorem isFinite (h : a.Between lo hi) : a.isFinite :=
  isFinite_of_le h.low h.high h.lower h.upper

theorem number (h : a.Between lo hi) : a ≠ nan := ne_nan_of_isFinite h.isFinite

theorem self (h : a.isFinite) : a.Between a a where
  low := h
  high := h
  lower := Binary.le_rfl (ne_nan_of_isFinite h)
  upper := Binary.le_rfl (ne_nan_of_isFinite h)

theorem widen (h : a.Between lo hi)
    (outer : lo'.isFinite ∧ hi'.isFinite ∧ lo' ≤ lo ∧ hi ≤ hi') : a.Between lo' hi' where
  low := outer.1
  high := outer.2.1
  lower := Binary.le_trans outer.2.2.1 h.lower
  upper := Binary.le_trans h.upper outer.2.2.2

theorem below (h : a.Between lo hi) (upper : a ≤ hi') (high : hi'.isFinite) :
    a.Between lo hi' where
  low := h.low
  high := high
  lower := h.lower
  upper := upper

theorem above (h : a.Between lo hi) (lower : ¬ a ≤ lo') (low : lo'.isFinite) :
    a.Between lo' hi where
  low := low
  high := h.high
  lower := Binary.le_of_not_le (ne_nan_of_isFinite low) h.number lower
  upper := h.upper

variable [NeZero F.precision]

theorem values (h : a.Between lo hi) : lo.value ≤ a.value ∧ a.value ≤ hi.value :=
  ⟨(le_iff_value (ne_nan_of_isFinite h.low) h.number).mp h.lower,
    (le_iff_value h.number (ne_nan_of_isFinite h.high)).mp h.upper⟩

theorem of_values (low : lo.isFinite) (high : hi.isFinite) (ha : a ≠ nan)
    (lower : lo.value ≤ a.value) (upper : a.value ≤ hi.value) : a.Between lo hi where
  low := low
  high := high
  lower := (le_iff_value (ne_nan_of_isFinite low) ha).mpr lower
  upper := (le_iff_value ha (ne_nan_of_isFinite high)).mpr upper

theorem pos (h : a.Between lo hi) (hlo : 0 < lo) : 0 < a :=
  pos_of_value h.number ((value_pos hlo).trans_le h.values.1)

theorem add (ha : a.Between lo hi) (hb : b.Between lo' hi')
    (finite : (lo + lo').isFinite ∧ (hi + hi').isFinite) :
    (a + b).Between (lo + lo') (hi + hi') := by
  refine of_values finite.1 finite.2 (add_ne_nan ha.isFinite hb.isFinite) ?_ ?_
  · rw [value_add ha.low hb.low, value_add ha.isFinite hb.isFinite]
    exact Format.round_mono (add_le_add ha.values.1 hb.values.1)
  · rw [value_add ha.high hb.high, value_add ha.isFinite hb.isFinite]
    exact Format.round_mono (add_le_add ha.values.2 hb.values.2)

theorem sub (ha : a.Between lo hi) (hb : b.Between lo' hi')
    (finite : (lo - hi').isFinite ∧ (hi - lo').isFinite) :
    (a - b).Between (lo - hi') (hi - lo') := by
  refine of_values finite.1 finite.2 (sub_ne_nan ha.isFinite hb.isFinite) ?_ ?_
  · rw [value_sub ha.low hb.high, value_sub ha.isFinite hb.isFinite]
    exact Format.round_mono (sub_le_sub ha.values.1 hb.values.2)
  · rw [value_sub ha.high hb.low, value_sub ha.isFinite hb.isFinite]
    exact Format.round_mono (sub_le_sub ha.values.2 hb.values.1)

theorem mul (ha : a.Between lo hi) (hb : b.Between lo' hi') (signs : 0 ≤ lo ∧ 0 ≤ lo')
    (finite : (lo * lo').isFinite ∧ (hi * hi').isFinite) :
    (a * b).Between (lo * lo') (hi * hi') := by
  obtain ⟨lower, upper⟩ := ha.values
  obtain ⟨lower', upper'⟩ := hb.values
  have hlo := value_nonneg signs.1
  have hlo' := value_nonneg signs.2
  refine of_values finite.1 finite.2 (mul_ne_nan_of_finite ha.isFinite hb.isFinite) ?_ ?_
  · rw [value_mul ha.low hb.low, value_mul ha.isFinite hb.isFinite]
    exact Format.round_mono (mul_le_mul lower lower' hlo' (hlo.trans lower))
  · rw [value_mul ha.high hb.high, value_mul ha.isFinite hb.isFinite]
    exact Format.round_mono
      (mul_le_mul upper upper' (hlo'.trans lower') (hlo.trans (lower.trans upper)))

theorem div (ha : a.Between lo hi) (hb : b.Between lo' hi') (signs : 0 ≤ lo ∧ 0 < lo')
    (finite : (lo / hi').isFinite ∧ (hi / lo').isFinite) :
    (a / b).Between (lo / hi') (hi / lo') := by
  obtain ⟨lower, upper⟩ := ha.values
  obtain ⟨lower', upper'⟩ := hb.values
  have hlo := value_nonneg signs.1
  have hlo' := value_pos signs.2
  have hb0 : 0 < b.value := hlo'.trans_le lower'
  have hhi' : 0 < hi'.value := hb0.trans_le upper'
  refine of_values finite.1 finite.2 (div_ne_nan ha.isFinite hb.number hb0.ne') ?_ ?_
  · rw [value_div ha.low hb.high hhi'.ne', value_div ha.isFinite hb.isFinite hb0.ne']
    exact Format.round_mono (div_le_div₀ (hlo.trans lower) lower hb0 upper')
  · rw [value_div ha.high hb.low hlo'.ne', value_div ha.isFinite hb.isFinite hb0.ne']
    exact Format.round_mono (div_le_div₀ (hlo.trans (lower.trans upper)) upper hlo' lower')

/-- what is divided by a number that is not small, infinite or not -/
theorem div_of_le (ha : a.Between lo hi) (hb : lo' ≤ b) (signs : 0 ≤ lo ∧ 0 < lo')
    (finite : lo'.isFinite ∧ (hi / lo').isFinite) : (a / b).Between 0 (hi / lo') := by
  obtain ⟨low, high⟩ := finite
  have hzero := zero_isFinite (top_pos low)
  have hlo := value_nonneg signs.1
  have hlo' := value_pos signs.2
  obtain ⟨lower, upper⟩ := ha.values
  have hquotient : 0 ≤ hi.value / lo'.value := div_nonneg (hlo.trans (lower.trans upper)) hlo'.le
  rcases finite_or_infinite low hb with hfinite | rfl
  · have hb' := (le_iff_value (ne_nan_of_isFinite low) (ne_nan_right hb)).mp hb
    have hb0 := hlo'.trans_le hb'
    refine .of_values hzero high (div_ne_nan ha.isFinite (ne_nan_right hb) hb0.ne') ?_ ?_
    · rw [value_zero, value_div ha.isFinite hfinite hb0.ne']
      exact Format.round_nonneg (div_nonneg (hlo.trans lower) hb0.le)
    · rw [value_div ha.high low hlo'.ne', value_div ha.isFinite hfinite hb0.ne']
      exact Format.round_mono (div_le_div₀ (hlo.trans (lower.trans upper)) upper hlo' hb')
  · have hvalue := value_div_infinite ha.isFinite
    refine .of_values hzero high (div_infinite_ne_nan ha.isFinite) ?_ ?_
    · rw [value_zero, hvalue]
    · rw [hvalue, value_div ha.high low hlo'.ne']
      exact Format.round_nonneg hquotient

end Between

/-! ## without a sign -/

/-- a finite number without a sign -/
structure Unsigned (a : Binary F) : Prop where
  finite : a.isFinite
  positive : a.isNegative = false

section
variable [NeZero F.precision]

theorem Between.unsigned (h : a.Between lo hi) (hlo : 0 < lo) : a.Unsigned where
  finite := h.isFinite
  positive := isNegative_of_pos (h.pos hlo)

theorem Unsigned.zero_mul (hb : b.Unsigned) : 0 * b = 0 := by
  obtain ⟨hfinite, hpositive⟩ := hb
  obtain ⟨t, d, rfl⟩ := exists_finite hfinite
  obtain rfl : t = false := hpositive
  have htop : 0 < F.top := Nat.lt_of_le_of_lt (Nat.zero_le _) d.isLt
  have hunits : F.units 0 = 0 := if_pos F.binade_pos
  rw [zero_eq, ofCode, dif_pos htop]
  show ofRatio false (F.units 0 * F.units d) F.one = _
  rw [hunits, Nat.zero_mul, ofRatio, F.nearest_zero _ F.precision_pos F.one_pos, ofCode,
    dif_pos htop]

end

/-! ## within a bound -/

instance (a b : Binary F) : Decidable (a.Within b) := inferInstanceAs (Decidable (_ ∨ _))

namespace Within

theorem self (a : Binary F) : a.Within a := .inr (Nat.le_refl _)

theorem widen (h : a.Within b) (hle : b.magnitude ≤ c.magnitude) : a.Within c :=
  h.imp_right fun h => Nat.le_trans h hle

theorem neg (h : a.Within b) : (-a).Within b := by
  rcases h with rfl | h
  · exact .inl rfl
  · right
    cases a <;> exact h

/-- a sign that is chosen afterwards does not matter -/
theorem signed {p : Prop} [Decidable p] (h : a.Within b) : (if p then -a else a).Within b := by
  split
  · exact h.neg
  · exact h

theorem isFinite (h : a.Within b) (hb : b.isFinite) (ha : a ≠ nan) : a.isFinite := by
  obtain ⟨s, c, rfl⟩ := exists_finite hb
  obtain ⟨s', c', rfl, -⟩ := finite_of_le (h.resolve_left ha)
  rfl

variable [NeZero F.precision]

theorem iff_value (ha : a ≠ nan) (hb : b ≠ nan) : a.Within b ↔ |a.value| ≤ |b.value| := by
  rw [value_of_ne_nan ha, value_of_ne_nan hb, abs_signed _ (F.amount_nonneg _),
    abs_signed _ (F.amount_nonneg _), F.amount_strictMono.le_iff_le]
  exact or_iff_right ha

/-- what holds of two bounded numbers holds of bounded data, when an operation on no number gives
none -/
theorem lift {f : Binary F → Binary F → Binary F} (left : ∀ c, f nan c = nan)
    (right : ∀ a, f a nan = nan) (ha : a.Within b) (hc : c.Within d) (hb : b.isFinite)
    (hd : d.isFinite) (h : a.isFinite → c.isFinite → |a.value| ≤ |b.value| →
      |c.value| ≤ |d.value| → (f a c).Within (f b d)) : (f a c).Within (f b d) := by
  by_cases hnan : a = nan
  · exact .inl (hnan ▸ left c)
  · by_cases hnan' : c = nan
    · exact .inl (hnan' ▸ right a)
    · exact h (ha.isFinite hb hnan) (hc.isFinite hd hnan')
        ((iff_value hnan (ne_nan_of_isFinite hb)).mp ha)
        ((iff_value hnan' (ne_nan_of_isFinite hd)).mp hc)

theorem add (ha : a.Within b) (hc : c.Within d) (finite : b.isFinite ∧ d.isFinite)
    (signs : 0 ≤ b ∧ 0 ≤ d) : (a + c).Within (b + d) := by
  obtain ⟨hb, hd⟩ := finite
  refine lift (fun c => rfl) (fun a => ?_) ha hc hb hd fun hfa hfc hab hcd => ?_
  · cases a <;> rfl
  · have hsum : |a.value + c.value| ≤ |b.value + d.value| := by
      rw [abs_of_nonneg (value_nonneg signs.1)] at hab
      rw [abs_of_nonneg (value_nonneg signs.2)] at hcd
      exact (abs_add_le _ _).trans ((add_le_add hab hcd).trans (le_abs_self _))
    rw [iff_value (add_ne_nan hfa hfc) (add_ne_nan hb hd), value_add hfa hfc, value_add hb hd,
      Format.abs_round, Format.abs_round]
    exact Format.round_mono hsum

theorem sub (ha : a.Within b) (hc : c.Within d) (finite : b.isFinite ∧ d.isFinite)
    (signs : 0 ≤ b ∧ 0 ≤ d) : (a - c).Within (b + d) :=
  ha.add hc.neg finite signs

theorem mul_within (ha : a.Within b) (hc : c.Within d) (finite : b.isFinite ∧ d.isFinite) :
    (a * c).Within (b * d) := by
  obtain ⟨hb, hd⟩ := finite
  refine lift (fun c => rfl) (fun a => ?_) ha hc hb hd fun hfa hfc hab hcd => ?_
  · cases a <;> rfl
  · rw [iff_value (mul_ne_nan_of_finite hfa hfc) (mul_ne_nan_of_finite hb hd), value_mul hfa hfc,
      value_mul hb hd, Format.abs_round, Format.abs_round, abs_mul, abs_mul]
    exact Format.round_mono (mul_le_mul hab hcd (abs_nonneg _) (abs_nonneg _))

/-- what is divided by a number that is not small, infinite or not -/
theorem div_of_le (ha : a.Within b) (hd : lo ≤ d) (positive : 0 < lo)
    (finite : b.isFinite ∧ lo.isFinite) : (a / d).Within (b / lo) := by
  obtain ⟨hb, hlo⟩ := finite
  have hlo' := value_pos positive
  by_cases hnan : a = nan
  · rw [hnan]
    exact .inl rfl
  · have hfa := ha.isFinite hb hnan
    have hbound : b / lo ≠ nan := div_ne_nan hb (ne_nan_of_isFinite hlo) hlo'.ne'
    rcases finite_or_infinite hlo hd with hfinite | rfl
    · have hd' := (le_iff_value (ne_nan_left hd) (ne_nan_right hd)).mp hd
      have hd0 := hlo'.trans_le hd'
      have hab := (iff_value hnan (ne_nan_of_isFinite hb)).mp ha
      rw [iff_value (div_ne_nan hfa (ne_nan_right hd) hd0.ne') hbound,
        value_div hfa hfinite hd0.ne', value_div hb hlo hlo'.ne', Format.abs_round,
        Format.abs_round, abs_div, abs_div, abs_of_pos hd0, abs_of_pos hlo']
      exact Format.round_mono (div_le_div₀ (abs_nonneg _) hab hlo' hd')
    · -- a zero, whatever the bound
      obtain ⟨s, k, rfl⟩ := exists_finite hfa
      right
      show (ofCode (s != false) 0).magnitude ≤ _
      rw [magnitude_ofCode, Nat.min_eq_left (Nat.zero_le _)]
      exact Nat.zero_le _

/-- rounding up keeps the order of the magnitudes of a number and one without a sign -/
theorem ceil (h : a.Within b) (hb : b.isFinite) :
    a.ceil.Within b.abs.ceil := by
  by_cases hnan : a = nan
  · rw [hnan]
    exact .inl rfl
  obtain ⟨s, c, rfl⟩ := exists_finite hb
  obtain ⟨s', c', rfl, hc⟩ := finite_of_le (h.resolve_left hnan)
  have hunits := Format.units_le_units F.precision_pos hc
  have hone := F.one_pos
  have hwhole : (if s' then F.units c' / F.one else (F.units c' + (F.one - 1)) / F.one) ≤
      (F.units c + (F.one - 1)) / F.one := by
    split
    · exact Nat.div_le_div_right (by omega)
    · exact Nat.div_le_div_right (by omega)
  right
  show (ofRatio s' _ 1).magnitude ≤ (ofRatio false _ 1).magnitude
  rw [magnitude_ofRatio, magnitude_ofRatio]
  have hround := Format.nearest_mono F.precision_pos Nat.one_pos Nat.one_pos
    (Nat.mul_le_mul_right 1 (Nat.mul_le_mul_right F.one hwhole))
  simp only [Bool.false_eq_true, if_false]
  omega

theorem natAbs_clampTo_le_truncate {low high : Int} (h : a.Within b)
    (hb : b.isFinite) (hl : low ≤ 0) (hh : 0 ≤ high) :
    (a.clampTo low high).natAbs ≤ b.abs.truncate.natAbs := by
  obtain ⟨s, c, rfl⟩ := exists_finite hb
  exact h.natAbs_clampTo_le F.precision_pos hl hh

end Within

variable [NeZero F.precision]

theorem Between.within (h : a.Between b c) (hd : d ≠ nan) (ends : b.Within d ∧ c.Within d) :
    a.Within d := by
  obtain ⟨lower, upper⟩ := h.values
  obtain ⟨low, high⟩ := ends
  rw [Within.iff_value (ne_nan_of_isFinite h.low) hd] at low
  rw [Within.iff_value (ne_nan_of_isFinite h.high) hd] at high
  rw [Within.iff_value h.number hd]
  exact abs_le.mpr ⟨(neg_le_of_abs_le low).trans lower, upper.trans (le_of_abs_le high)⟩

/-- a bound on a datum is an upper bound of its magnitude -/
theorem Within.abs_le (h : a.Within b) (ha : a ≠ nan) (hb : b ≠ nan) : a.abs ≤ b.abs := by
  rw [Within.iff_value ha hb] at h
  rwa [le_iff_value (abs_ne_nan ha) (abs_ne_nan hb), value_abs, value_abs]

end Binary

end RangeBearing
