import Mathlib.Data.Nat.Sqrt
import RangeBearing.Binary.Root
import RangeBearing.Proofs.Values

/-!
# The order of data

The numbers of a format are ordered as their values are, the infinities at the ends.  What is
computed from a number that may be infinite is a number again where the two infinities do not
meet, and roots keep the order.

* `Binary.isFinite_of_le`           what lies between finite data is finite;
* `Binary.lt_of_not_sub_le_zero`    the sign of a rounded difference;
* `Binary.square_nonneg`, `Binary.le_self_add`, `Binary.sqrt_nonneg`   results that may be infinite;
* `Binary.sqrt_mono`, `Binary.least_le`.
-/

namespace RangeBearing

theorem doubledRoot_mono {n n' : Nat} (h : n ≤ n') : doubledRoot n ≤ doubledRoot n' := by
  have hroot := Nat.sqrt_le_sqrt h
  have hle := Nat.sqrt_le n
  unfold doubledRoot
  dsimp only
  rcases Nat.lt_or_eq_of_le hroot with hlt | heq
  · split <;> split <;> omega
  · rw [← heq]
    split <;> split <;> omega

namespace Binary

variable {F : Format} {a b c lo hi : Binary F}

/-! ## the order -/

theorem isNaN_iff : a.isNaN = true ↔ a = nan := by
  cases a <;> simp [isNaN]

theorem ne_nan_left (h : a ≤ b) : a ≠ nan := by
  rintro rfl
  exact not_nan_le b h

theorem ne_nan_right (h : a ≤ b) : b ≠ nan := by
  rintro rfl
  obtain ⟨x, y, -, hy, -⟩ := le_iff.mp h
  cases hy

protected theorem le_trans (h : a ≤ b) (h' : b ≤ c) : a ≤ c := by
  obtain ⟨x, y, hx, hy, hxy⟩ := le_iff.mp h
  obtain ⟨y', z, hy', hz, hyz⟩ := le_iff.mp h'
  obtain rfl : y = y' := Option.some.inj (hy.symm.trans hy')
  exact le_iff.mpr ⟨x, z, hx, hz, Int.le_trans hxy hyz⟩

protected theorem lt_of_lt_of_le (h : a < b) (h' : b ≤ c) : a < c := by
  obtain ⟨x, y, hx, hy, hxy⟩ := lt_iff.mp h
  obtain ⟨y', z, hy', hz, hyz⟩ := le_iff.mp h'
  obtain rfl : y = y' := Option.some.inj (hy.symm.trans hy')
  exact lt_iff.mpr ⟨x, z, hx, hz, Int.lt_of_lt_of_le hxy hyz⟩

protected theorem le_rfl (ha : a ≠ nan) : a ≤ a :=
  le_iff.mpr ⟨_, _, key?_eq ha, key?_eq ha, Int.le_refl _⟩

protected theorem le_of_lt (h : a < b) : a ≤ b := by
  obtain ⟨x, y, hx, hy, hxy⟩ := lt_iff.mp h
  exact le_iff.mpr ⟨x, y, hx, hy, Int.le_of_lt hxy⟩

protected theorem lt_of_not_le (ha : a ≠ nan) (hb : b ≠ nan) (h : ¬ b ≤ a) : a < b := by
  rw [le_iff] at h
  refine lt_iff.mpr ⟨_, _, key?_eq ha, key?_eq hb, Int.not_le.mp fun hle => h ?_⟩
  exact ⟨_, _, key?_eq hb, key?_eq ha, hle⟩

protected theorem le_of_not_lt (ha : a ≠ nan) (hb : b ≠ nan) (h : ¬ b < a) : a ≤ b := by
  rw [lt_iff] at h
  refine le_iff.mpr ⟨_, _, key?_eq ha, key?_eq hb, Int.not_lt.mp fun hlt => h ?_⟩
  exact ⟨_, _, key?_eq hb, key?_eq ha, hlt⟩

protected theorem le_of_not_le (ha : a ≠ nan) (hb : b ≠ nan) (h : ¬ b ≤ a) : a ≤ b :=
  Binary.le_of_lt (Binary.lt_of_not_le ha hb h)

protected theorem not_lt_of_le (h : a ≤ b) : ¬ b < a := by
  intro hlt
  obtain ⟨x, y, hx, hy, hxy⟩ := le_iff.mp h
  obtain ⟨y', x', hy', hx', hyx⟩ := lt_iff.mp hlt
  rw [hx] at hx'
  rw [hy] at hy'
  cases hx'
  cases hy'
  omega

theorem beq_of_le (h : a ≤ b) (h' : b ≤ a) : (a == b) = true := by
  obtain ⟨i, j, hi, hj, hij⟩ := le_iff.mp h
  obtain ⟨j', i', hj', hi', hji⟩ := le_iff.mp h'
  rw [hi] at hi'
  rw [hj] at hj'
  cases hi'
  cases hj'
  show keysSatisfy _ a b = true
  unfold keysSatisfy
  rw [hi, hj]
  simp
  omega

theorem max_of_le (h : a.isNaN ∨ a ≤ b) : max a b = b := if_pos h

/-- of two equal data either may be taken -/
theorem max_of_ge (h : b ≤ a) : (max a b == a) = true := by
  have ha := ne_nan_right h
  by_cases hle : a ≤ b
  · rw [max_of_le (.inr hle)]
    exact beq_of_le h hle
  · have hmax : max a b = a := if_neg (not_or.mpr ⟨fun hnan => ha (isNaN_iff.mp hnan), hle⟩)
    rw [hmax]
    exact beq_of_le (Binary.le_rfl ha) (Binary.le_rfl ha)

/-- what is not below a finite datum is finite or the positive infinity -/
theorem finite_or_infinite (hlo : lo.isFinite) (h : lo ≤ a) :
    a.isFinite ∨ a = infinite false := by
  obtain ⟨s, c, rfl⟩ := exists_finite hlo
  obtain ⟨x, y, hx, hy, hxy⟩ := le_iff.mp h
  obtain rfl := Option.some.inj hx
  cases a with
  | nan => cases hy
  | finite t d => exact .inl rfl
  | infinite t =>
    cases t with
    | false => exact .inr rfl
    | true =>
      obtain rfl := Option.some.inj hy
      have hc := c.isLt
      rw [if_pos rfl] at hxy
      split at hxy <;> omega

theorem not_infinite_le (hhi : hi.isFinite) : ¬ infinite false ≤ hi := by
  obtain ⟨s, c, rfl⟩ := exists_finite hhi
  intro h
  obtain ⟨x, y, hx, hy, hxy⟩ := le_iff.mp h
  obtain rfl := Option.some.inj hx
  obtain rfl := Option.some.inj hy
  have hc := c.isLt
  rw [if_neg Bool.false_ne_true] at hxy
  split at hxy <;> omega

/-- what lies between finite data is finite -/
theorem isFinite_of_le (hlo : lo.isFinite) (hhi : hi.isFinite) (h : lo ≤ a) (h' : a ≤ hi) :
    a.isFinite := by
  rcases finite_or_infinite hlo h with hfinite | rfl
  · exact hfinite
  · exact absurd h' (not_infinite_le hhi)

theorem top_pos (ha : a.isFinite) : 0 < F.top := by
  obtain ⟨s, c, rfl⟩ := exists_finite ha
  exact Nat.lt_of_le_of_lt (Nat.zero_le _) c.isLt

theorem zero_ne_nan : (0 : Binary F) ≠ nan := ofRatio_ne_nan _ _ _

section
variable [NeZero F.precision]

theorem zero_eq : (0 : Binary F) = ofCode false 0 := by
  show ofCode _ (F.nearest (Int.natAbs 0 * F.one) 1) = _
  rw [Int.natAbs_zero, Nat.zero_mul, F.nearest_zero 1 F.precision_pos Nat.one_pos]
  rfl

theorem value_zero : (0 : Binary F).value = 0 := by
  rw [zero_eq, value_ofCode, Nat.min_eq_left (Nat.zero_le _)]
  exact F.amount_zero

theorem zero_isFinite (htop : 0 < F.top) : (0 : Binary F).isFinite := by
  rw [zero_eq, ofCode, dif_pos htop]
  rfl

theorem nonneg_abs (ha : a ≠ nan) : 0 ≤ a.abs := by
  rw [le_iff_value zero_ne_nan (abs_ne_nan ha), value_zero, value_abs]
  exact abs_nonneg _

theorem value_nonneg (h : 0 ≤ a) : 0 ≤ a.value := by
  rwa [le_iff_value zero_ne_nan (ne_nan_right h), value_zero] at h

theorem value_pos (h : 0 < a) : 0 < a.value := by
  rwa [lt_iff_value zero_ne_nan (ne_nan_right (Binary.le_of_lt h)), value_zero] at h

theorem nonneg_of_value (ha : a ≠ nan) (h : 0 ≤ a.value) : 0 ≤ a := by
  rwa [le_iff_value zero_ne_nan ha, value_zero]

theorem pos_of_value (ha : a ≠ nan) (h : 0 < a.value) : 0 < a := by
  rwa [lt_iff_value zero_ne_nan ha, value_zero]

theorem isNegative_of_pos (h : 0 < a) : a.isNegative = false := by
  have hvalue := value_pos h
  rw [value_of_ne_nan (ne_nan_right (Binary.le_of_lt h))] at hvalue
  cases hs : a.isNegative with
  | false => rfl
  | true =>
    rw [hs] at hvalue
    exact absurd hvalue (not_lt.mpr (neg_nonpos.mpr (F.amount_nonneg _)))

/-- rounding keeps the sign of a difference -/
theorem lt_of_not_sub_le_zero (ha : a.isFinite) (hb : b.isFinite)
    (h : ¬ a - b ≤ 0) : b < a := by
  rw [lt_iff_value (ne_nan_of_isFinite hb) (ne_nan_of_isFinite ha)]
  by_contra hle
  refine h ?_
  rw [le_iff_value (sub_ne_nan ha hb) zero_ne_nan, value_sub ha hb, value_zero, ← F.round_zero]
  exact Format.round_mono (sub_nonpos.mpr (not_lt.mp hle))

/-- and that of a quotient -/
theorem value_pos_of_div (ha : a.isFinite) (hb : b.isFinite) (hpos : 0 < b)
    (h : 0 < a / b) : 0 < a.value := by
  have hb' := value_pos hpos
  have hquotient := value_pos h
  rw [value_div ha hb hb'.ne'] at hquotient
  by_contra hle
  have hround := Format.round_mono (F := F) (div_nonpos_of_nonpos_of_nonneg (not_lt.mp hle) hb'.le)
  rw [F.round_zero] at hround
  exact absurd hquotient (not_lt.mpr hround)

end

/-! ## results that may be infinite -/

theorem sub_finite_ne_nan (ha : a ≠ nan) (hb : b.isFinite) : a - b ≠ nan := by
  obtain ⟨t, d, rfl⟩ := exists_finite hb
  cases a with
  | nan => exact absurd rfl ha
  | infinite s => exact nofun
  | finite s c => exact sub_ne_nan rfl rfl

theorem convert_ne_nan {G : Format} (ha : a ≠ nan) : (a.convert : Binary G) ≠ nan := by
  cases a with
  | nan => exact absurd rfl ha
  | infinite s => exact nofun
  | finite s c => exact ofRatio_ne_nan _ _ _

theorem value_convert {G : Format} [NeZero G.precision] (ha : a.isFinite) :
    (a.convert : Binary G).value = G.round a.value := by
  obtain ⟨s, c, rfl⟩ := exists_finite ha
  have hone := G.one_cast_pos
  show (ofRatio s (F.units c * G.one) F.one).value = G.round (signed s (F.amount c))
  rw [value_ofRatio _ _ F.one_pos, Nat.cast_mul, mul_div_mul_right _ _ hone.ne']
  rfl

theorem mul_swap (a b : Binary F) : a * b = b * a := by
  have hsign (s t : Bool) : (s != t) = (t != s) := by
    cases s <;> cases t <;> rfl
  show mul a b = mul b a
  cases a with
  | nan => cases b <;> rfl
  | infinite s =>
    cases b with
    | nan => rfl
    | infinite t => simp only [mul, hsign s t]
    | finite t d => simp only [mul, hsign s t]
  | finite s c =>
    cases b with
    | nan => rfl
    | infinite t => simp only [mul, hsign s t]
    | finite t d => simp only [mul, hsign s t, Nat.mul_comm (F.units c)]

variable [NeZero F.precision]

theorem square_nonneg (ha : a ≠ nan) : 0 ≤ a * a := by
  cases a with
  | nan => exact absurd rfl ha
  | infinite s =>
    have hsquare : infinite s * infinite s = infinite (F := F) false := by
      show infinite (s != s) = _
      rw [bne_self_eq_false]
    rw [hsquare]
    exact nonneg_of_value nofun (F.amount_nonneg _)
  | finite s c =>
    refine nonneg_of_value (mul_ne_nan_of_finite rfl rfl) ?_
    rw [value_mul rfl rfl]
    exact Format.round_nonneg (mul_self_nonneg _)

theorem le_infinite (ha : a ≠ nan) : a ≤ infinite false := by
  have hle := F.amount_strictMono.monotone (magnitude_le_top ha)
  rw [le_iff_value (b := infinite false) ha nofun, value_of_ne_nan ha]
  refine (le_abs_self _).trans ?_
  rw [abs_signed _ (F.amount_nonneg _)]
  exact hle

theorem le_self_add (ha : a.isFinite) (hb : 0 ≤ b) : a ≤ a + b := by
  have hnumber := ne_nan_of_isFinite ha
  rcases finite_or_infinite (zero_isFinite (top_pos ha)) hb with hfinite | rfl
  · rw [le_iff_value hnumber (add_ne_nan ha hfinite), value_add ha hfinite]
    have hround := Format.round_mono (F := F) (le_add_of_nonneg_right (a := a.value)
      (value_nonneg hb))
    rwa [round_value hnumber] at hround
  · obtain ⟨s, c, rfl⟩ := exists_finite ha
    exact le_infinite hnumber

/-- a number times a positive finite one -/
theorem mul_pos_ne_nan (ha : a ≠ nan) (hb : b.isFinite) (hpos : 0 < b) : a * b ≠ nan := by
  have hvalue := value_pos hpos
  obtain ⟨t, d, rfl⟩ := exists_finite hb
  exact mul_ne_nan ha fun hd => hvalue.ne' (value_eq_zero_iff.mpr hd)

theorem le_add_of_nonneg (ha : 0 ≤ a) (hb : 0 ≤ b) (htop : 0 < F.top) : a ≤ a + b := by
  rcases finite_or_infinite (zero_isFinite htop) ha with hfinite | rfl
  · exact le_self_add hfinite hb
  · rcases finite_or_infinite (zero_isFinite htop) hb with hfinite | rfl
    · obtain ⟨t, d, rfl⟩ := exists_finite hfinite
      exact Binary.le_rfl nofun
    · exact Binary.le_rfl nofun

theorem nonneg_add (ha : 0 ≤ a) (hb : 0 ≤ b) (htop : 0 < F.top) : 0 ≤ a + b :=
  Binary.le_trans ha (le_add_of_nonneg ha hb htop)

theorem convert_nonneg {G : Format} [NeZero G.precision] (ha : 0 ≤ a)
    (htop : 0 < F.top) : 0 ≤ (a.convert : Binary G) := by
  rcases finite_or_infinite (zero_isFinite htop) ha with hfinite | rfl
  · have hnumber : (a.convert : Binary G) ≠ nan := by
      obtain ⟨s, c, rfl⟩ := exists_finite hfinite
      exact ofRatio_ne_nan _ _ _
    refine nonneg_of_value hnumber ?_
    rw [value_convert hfinite]
    exact Format.round_nonneg (value_nonneg ha)
  · exact nonneg_of_value (a := infinite false) nofun (G.amount_nonneg _)

/-! ## roots -/

theorem pos_cases (h : 0 < a) : a = infinite false ∨ ∃ c, c.val ≠ 0 ∧ a = finite false c := by
  have hvalue := value_pos h
  have hsign := isNegative_of_pos h
  cases a with
  | nan => exact absurd hvalue (lt_irrefl 0)
  | infinite s => exact .inl (congrArg infinite hsign)
  | finite s c =>
    obtain rfl : s = false := hsign
    exact .inr ⟨c, fun hc => hvalue.ne' (value_eq_zero_iff.mpr hc), rfl⟩

omit [NeZero F.precision] in
theorem sqrt_finite {c : Fin F.top} (hc : c.val ≠ 0) :
    (finite false c).sqrt = ofRatio false (doubledRoot (F.units c * F.one)) 2 := if_neg hc

theorem pos_of_sqrt_pos (h : 0 < a.sqrt) : 0 < a := by
  have hnumber := ne_nan_right (Binary.le_of_lt h)
  cases a with
  | nan => exact h
  | infinite s =>
    cases s with
    | true => exact absurd rfl hnumber
    | false => exact h
  | finite s c =>
    by_cases hc : c.val = 0
    · have hsqrt : (finite s c).sqrt = finite s c := if_pos hc
      rwa [hsqrt] at h
    · have hsqrt : (finite s c).sqrt = if s then nan else _ := if_neg hc
      cases s with
      | true => exact absurd hsqrt hnumber
      | false =>
        have hpos := Format.amount_lt_amount (F := F) (Nat.pos_of_ne_zero hc)
        rw [F.amount_zero] at hpos
        exact pos_of_value nofun hpos

theorem sqrt_nonneg (ha : 0 ≤ a) (htop : 0 < F.top) :
    0 ≤ a.sqrt := by
  by_cases hpos : 0 < a
  · rcases pos_cases hpos with rfl | ⟨c, hc, rfl⟩
    · exact ha
    · rw [sqrt_finite hc]
      refine nonneg_of_value (ofRatio_ne_nan _ _ _) ?_
      rw [value_ofRatio _ _ Nat.two_pos]
      exact Format.round_nonneg (div_nonneg (Nat.cast_nonneg _) (by positivity))
  · -- a zero is its own root
    have hle := Binary.le_of_not_lt (ne_nan_right ha) zero_ne_nan hpos
    have hzero := zero_isFinite htop
    obtain ⟨s, c, rfl⟩ := exists_finite (isFinite_of_le hzero hzero ha hle)
    rw [le_iff_value (ne_nan_right ha) zero_ne_nan, value_zero] at hle
    have hc := value_eq_zero_iff.mp (le_antisymm hle (value_nonneg ha))
    have hsqrt : (finite s c).sqrt = finite s c := if_pos hc
    rwa [hsqrt]

theorem sqrt_mono (ha : 0 < a) (h : a ≤ b) (htop : 0 < F.top) :
    a.sqrt ≤ b.sqrt := by
  have hb : 0 < b := by
    refine pos_of_value (ne_nan_right h) ((value_pos ha).trans_le ?_)
    exact (le_iff_value (ne_nan_left h) (ne_nan_right h)).mp h
  rcases pos_cases hb with rfl | ⟨d, hd, rfl⟩
  · exact le_infinite (ne_nan_right (sqrt_nonneg (Binary.le_of_lt ha) htop))
  · rcases pos_cases ha with rfl | ⟨c, hc, rfl⟩
    · exact absurd h (not_infinite_le rfl)
    · have hcode : c ≤ d := by simpa [finite_le_iff] using h
      have hunits := Nat.mul_le_mul_right F.one (Format.units_le_units F.precision_pos hcode)
      have hroot : (doubledRoot (F.units c * F.one) : ℚ) ≤ doubledRoot (F.units d * F.one) := by
        exact_mod_cast doubledRoot_mono hunits
      rw [sqrt_finite hc, sqrt_finite hd,
        le_iff_value (ofRatio_ne_nan _ _ _) (ofRatio_ne_nan _ _ _), value_ofRatio _ _ Nat.two_pos,
        value_ofRatio _ _ Nat.two_pos]
      exact Format.round_mono (div_le_div_of_nonneg_right hroot (by positivity))

/-- no positive number is less than the one with the code `1` -/
theorem least_le (h : 0 < a) (least : 1 < F.top) : ofCode false 1 ≤ a := by
  have hleast : ofCode (F := F) false 1 = finite false ⟨1, least⟩ := dif_pos least
  rw [hleast]
  rcases pos_cases h with rfl | ⟨c, hc, rfl⟩
  · exact le_infinite nofun
  · rw [finite_le_iff]
    simp
    omega

end Binary

end RangeBearing
