import Mathlib.Algebra.Order.Field.Rat
import Mathlib.Algebra.Order.Field.Basic
import Mathlib.Tactic.FieldSimp
import Mathlib.Tactic.Linarith
import Mathlib.Tactic.Positivity
import RangeBearing.Proofs.Magnitudes

/-!
# Values

The value of a datum is a rational number, and each operation on finite data gives the datum whose
value is the exact result, rounded once.  Rounding keeps the order and the values of the format;
what lies beyond the finite data is rounded to `amount top`, which stands for an infinity.

* `Format.round`                    rounding of rational numbers, `Format.round_mono`;
* `Binary.value`                    the value of a datum, `Binary.round_value`;
* `Binary.value_add`, `Binary.value_sub`, `Binary.value_mul`, `Binary.value_div`;
* `Binary.le_iff_value`             the order of data is the order of their values.
-/

namespace RangeBearing

namespace Format

variable {F : Format} {c c' n d n' d' : Nat} {x y : ℚ}

/-- the value of a code -/
def amount (F : Format) (c : Nat) : ℚ := F.units c / F.one

/-- the value nearest to a number among those of the codes up to `top`, with the sign of the
number -/
def round (F : Format) (x : ℚ) : ℚ :=
  let units := |x| * F.one
  let nearest := F.amount (min (F.nearest units.num.natAbs units.den) F.top)
  if x < 0 then -nearest else nearest

theorem one_pos (F : Format) : 0 < F.one := Nat.two_pow_pos _

theorem one_cast_pos (F : Format) : (0 : ℚ) < F.one := by
  exact_mod_cast F.one_pos

theorem amount_nonneg (F : Format) (c : Nat) : 0 ≤ F.amount c :=
  div_nonneg (Nat.cast_nonneg _) (Nat.cast_nonneg _)

theorem amount_zero (F : Format) : F.amount 0 = 0 := by
  simp [amount, units, binade_pos]

theorem round_of_nonneg (hx : 0 ≤ x) : F.round x =
    F.amount (min (F.nearest (x * F.one).num.natAbs (x * F.one).den) F.top) := by
  unfold round
  rw [abs_of_nonneg hx]
  exact if_neg (not_lt.mpr hx)

theorem round_nonneg (hx : 0 ≤ x) : 0 ≤ F.round x := by
  rw [round_of_nonneg hx]
  exact amount_nonneg _ _

theorem num_eq_natAbs (hx : 0 ≤ x) : x = x.num.natAbs / x.den := by
  have hnum : ((x.num.natAbs : Int) : ℚ) = x.num := by
    rw [Int.natAbs_of_nonneg (Rat.num_nonneg.mpr hx)]
  rw [← Int.cast_natCast, hnum, Rat.num_div_den]

theorem natCast_div_le_iff (hd : 0 < d) (hd' : 0 < d') :
    (n / d : ℚ) ≤ n' / d' ↔ n * d' ≤ n' * d := by
  have hd : (0 : ℚ) < d := by exact_mod_cast hd
  have hd' : (0 : ℚ) < d' := by exact_mod_cast hd'
  rw [div_le_div_iff₀ hd hd']
  exact_mod_cast Iff.rfl

instance : NeZero binary32.precision := ⟨by decide⟩

instance : NeZero binary64.precision := ⟨by decide⟩

variable [NeZero F.precision]

theorem precision_pos (F : Format) [NeZero F.precision] : 0 < F.precision :=
  Nat.pos_of_neZero F.precision

theorem amount_lt_amount (h : c < c') : F.amount c < F.amount c' := by
  have hunits : (F.units c : ℚ) < F.units c' := by
    exact_mod_cast units_lt_units F.precision_pos h
  exact div_lt_div_of_pos_right hunits F.one_cast_pos

theorem amount_strictMono (F : Format) [NeZero F.precision] : StrictMono F.amount :=
  fun _ _ => amount_lt_amount

theorem amount_eq_zero_iff : F.amount c = 0 ↔ c = 0 := by
  rw [← F.amount_zero]
  exact F.amount_strictMono.injective.eq_iff

/-- which quotient stands for a number does not matter -/
theorem nearest_congr (hd : 0 < d) (hd' : 0 < d') (h : n * d' = n' * d) :
    F.nearest n d = F.nearest n' d' :=
  Nat.le_antisymm (nearest_mono F.precision_pos hd hd' (Nat.le_of_eq h))
    (nearest_mono F.precision_pos hd' hd (Nat.le_of_eq h.symm))

theorem round_ratio (n : Nat) (hd : 0 < d) :
    F.round (n / (d * F.one)) = F.amount (min (F.nearest n d) F.top) := by
  have hd' : (0 : ℚ) < d := by exact_mod_cast hd
  have hone := F.one_cast_pos
  have hunits : (n / (d * F.one) : ℚ) * F.one = n / d := by
    field_simp
  rw [round_of_nonneg (by positivity), hunits]
  have hratio := num_eq_natAbs (x := (n / d : ℚ)) (by positivity)
  have hcross : (n / d : ℚ).num.natAbs * d = n * (n / d : ℚ).den := by
    have hpos : (0 : ℚ) < (n / d : ℚ).den := by exact_mod_cast Rat.den_pos _
    rw [eq_comm, div_eq_div_iff hpos.ne' hd'.ne'] at hratio
    exact_mod_cast hratio
  rw [nearest_congr (Rat.den_pos _) hd hcross]

theorem round_amount (h : c ≤ F.top) : F.round (F.amount c) = F.amount c := by
  have hround := round_ratio (F := F) (F.units c) Nat.one_pos
  have hcode : F.nearest (F.units c) 1 = c := by
    simpa using nearest_units F.precision_pos Nat.one_pos c
  rw [hcode, Nat.min_eq_left h] at hround
  simpa [amount] using hround

theorem round_zero : F.round 0 = 0 := by
  simpa [amount_zero] using round_amount (F := F) (Nat.zero_le _)

theorem round_neg (x : ℚ) : F.round (-x) = -F.round x := by
  rcases lt_trichotomy x 0 with hx | rfl | hx
  · simp [round, abs_neg, hx, not_lt.mpr hx.le]
  · simp [round_zero]
  · simp [round, abs_neg, hx, not_lt.mpr hx.le]

theorem round_mono_of_nonneg (hx : 0 ≤ x) (h : x ≤ y) : F.round x ≤ F.round y := by
  have hy := hx.trans h
  have hone := F.one_cast_pos
  rw [round_of_nonneg hx, round_of_nonneg hy]
  refine (amount_strictMono F).monotone (min_le_min_right _ ?_)
  refine nearest_mono F.precision_pos (Rat.den_pos _) (Rat.den_pos _) ?_
  rw [← natCast_div_le_iff (Rat.den_pos _) (Rat.den_pos _),
    ← num_eq_natAbs (by positivity), ← num_eq_natAbs (by positivity)]
  exact mul_le_mul_of_nonneg_right h hone.le

/-- rounding keeps the order -/
theorem round_mono (h : x ≤ y) : F.round x ≤ F.round y := by
  rcases le_total 0 x with hx | hx
  · exact round_mono_of_nonneg hx h
  · rcases le_total 0 y with hy | hy
    · have hneg : 0 ≤ F.round (-x) := round_nonneg (neg_nonneg.mpr hx)
      rw [round_neg] at hneg
      exact (neg_nonneg.mp hneg).trans (round_nonneg hy)
    · have hround := round_mono_of_nonneg (F := F) (neg_nonneg.mpr hy) (neg_le_neg h)
      rw [round_neg, round_neg] at hround
      exact neg_le_neg_iff.mp hround

theorem abs_round (x : ℚ) : |F.round x| = F.round |x| := by
  rcases le_total 0 x with hx | hx
  · rw [abs_of_nonneg hx, abs_of_nonneg (round_nonneg hx)]
  · have hneg : 0 ≤ F.round (-x) := round_nonneg (neg_nonneg.mpr hx)
    rw [abs_of_nonpos hx, ← abs_of_nonneg hneg, round_neg, abs_neg]

end Format

namespace Binary

variable {F : Format} {a b : Binary F}

/-- the factor that a sign stands for -/
def signed (s : Bool) (x : ℚ) : ℚ := if s then -x else x

/-- the value of a datum: that of an infinity is the one of the code `top`, and `nan` has the
value zero -/
def value : Binary F → ℚ
  | nan => 0
  | infinite s => signed s (F.amount F.top)
  | finite s c => signed s (F.amount c)

theorem signed_mul (s t : Bool) (x y : ℚ) : signed s x * signed t y = signed (s != t) (x * y) := by
  cases s <;> cases t <;> simp [signed]

theorem signed_div (s t : Bool) (x y : ℚ) : signed s x / signed t y = signed (s != t) (x / y) := by
  cases s <;> cases t <;> simp [signed, neg_div, div_neg]

theorem signed_natAbs (i : Int) : signed (decide (i < 0)) i.natAbs = i := by
  rw [← Int.cast_natCast]
  rcases Int.lt_or_le i 0 with hneg | hpos
  · rw [Int.ofNat_natAbs_of_nonpos hneg.le]
    simp [signed, hneg]
  · rw [Int.natAbs_of_nonneg hpos]
    simp [signed, not_lt.mpr hpos]

theorem abs_signed {x : ℚ} (s : Bool) (hx : 0 ≤ x) : |signed s x| = x := by
  cases s <;> simp [signed, abs_of_nonneg hx]

theorem value_finite (s : Bool) (c : Fin F.top) :
    (finite s c).value = (finite s c).signedUnits / F.one := by
  cases s <;> simp [value, signed, signedUnits, Format.amount, neg_div]

theorem value_of_ne_nan (ha : a ≠ nan) :
    a.value = signed a.isNegative (F.amount a.magnitude) := by
  cases a with
  | nan => exact absurd rfl ha
  | infinite s => rfl
  | finite s c => rfl

theorem signed_not (s : Bool) (x : ℚ) : signed (!s) x = -signed s x := by
  cases s <;> simp [signed]

theorem value_neg (a : Binary F) : (-a).value = -a.value := by
  cases a with
  | nan => exact neg_zero.symm
  | infinite s => exact signed_not s _
  | finite s c => exact signed_not s _

theorem value_abs (a : Binary F) : a.abs.value = |a.value| := by
  cases a with
  | nan => exact abs_zero.symm
  | infinite s => exact (abs_signed s (F.amount_nonneg _)).symm
  | finite s c => exact (abs_signed s (F.amount_nonneg _)).symm

theorem value_ofCode (s : Bool) (c : Nat) :
    (ofCode (F := F) s c).value = signed s (F.amount (min c F.top)) := by
  rw [value_of_ne_nan (ofCode_ne_nan s c), isNegative_ofCode, magnitude_ofCode]

theorem isFinite_neg (a : Binary F) : (-a).isFinite = a.isFinite := by
  cases a <;> rfl

theorem isFinite_abs (a : Binary F) : a.abs.isFinite = a.isFinite := by
  cases a <;> rfl

theorem neg_ne_nan (ha : a ≠ nan) : -a ≠ nan := by
  cases a with
  | nan => exact absurd rfl ha
  | infinite s => exact nofun
  | finite s c => exact nofun

theorem abs_ne_nan (ha : a ≠ nan) : a.abs ≠ nan := by
  cases a with
  | nan => exact absurd rfl ha
  | infinite s => exact nofun
  | finite s c => exact nofun

theorem ne_nan_of_isFinite (ha : a.isFinite) : a ≠ nan := by
  rintro rfl
  cases ha

theorem exists_finite (ha : a.isFinite) : ∃ s c, a = finite s c := by
  cases a with
  | nan => cases ha
  | infinite s => cases ha
  | finite s c => exact ⟨s, c, rfl⟩

theorem sub_eq (a b : Binary F) : a - b = a + -b := rfl

/-! ## operations on finite data give numbers -/

theorem add_finite (s t : Bool) (c d : Fin F.top) : finite s c + finite t d =
    if (finite s c).signedUnits + (finite t d).signedUnits = 0 then zero (s && t)
    else ofUnits ((finite s c).signedUnits + (finite t d).signedUnits) := rfl

theorem ofRatio_ne_nan (s : Bool) (n d : Nat) : ofRatio (F := F) s n d ≠ nan := ofCode_ne_nan s _

theorem add_ne_nan (ha : a.isFinite) (hb : b.isFinite) : a + b ≠ nan := by
  obtain ⟨s, c, rfl⟩ := exists_finite ha
  obtain ⟨t, d, rfl⟩ := exists_finite hb
  rw [add_finite]
  split
  · exact ofCode_ne_nan _ _
  · exact ofRatio_ne_nan _ _ _

theorem sub_ne_nan (ha : a.isFinite) (hb : b.isFinite) : a - b ≠ nan :=
  add_ne_nan ha ((isFinite_neg b).trans hb)

theorem mul_ne_nan_of_finite (ha : a.isFinite) (hb : b.isFinite) : a * b ≠ nan := by
  obtain ⟨s, c, rfl⟩ := exists_finite ha
  obtain ⟨t, d, rfl⟩ := exists_finite hb
  exact ofRatio_ne_nan _ _ _

variable [NeZero F.precision]

theorem value_eq_zero_iff {s : Bool} {c : Fin F.top} : (finite s c).value = 0 ↔ c.val = 0 := by
  cases s <;> simp [value, signed, Format.amount_eq_zero_iff]

theorem div_ne_nan (ha : a.isFinite) (hb : b ≠ nan) (hzero : b.value ≠ 0) : a / b ≠ nan := by
  obtain ⟨s, c, rfl⟩ := exists_finite ha
  cases b with
  | nan => exact absurd rfl hb
  | infinite t => exact ofCode_ne_nan _ _
  | finite t d =>
    have hd : d.val ≠ 0 := fun h => hzero (value_eq_zero_iff.mpr h)
    show (if d.val = 0 then _ else ofRatio _ _ _) ≠ nan
    rw [if_neg hd]
    exact ofRatio_ne_nan _ _ _

/-! ## the values of what is computed -/

theorem round_signed (s : Bool) (x : ℚ) : F.round (signed s x) = signed s (F.round x) := by
  cases s
  · rfl
  · exact Format.round_neg x

theorem value_ofRatio (s : Bool) (n : Nat) {d : Nat} (hd : 0 < d) :
    (ofRatio (F := F) s n d).value = F.round (signed s (n / (d * F.one))) := by
  rw [round_signed, Format.round_ratio n hd]
  exact value_ofCode s _

theorem value_ofUnits (i : Int) : (ofUnits (F := F) i).value = F.round (i / F.one) := by
  have hquotient : signed (decide (i < 0)) (i.natAbs / ((1 : Nat) * F.one)) = (i / F.one : ℚ) := by
    rw [← signed_natAbs i]
    cases decide (i < 0) <;> simp [signed, neg_div]
  unfold ofUnits
  rw [value_ofRatio _ _ Nat.one_pos, hquotient]

theorem value_add (ha : a.isFinite) (hb : b.isFinite) :
    (a + b).value = F.round (a.value + b.value) := by
  obtain ⟨s, c, rfl⟩ := exists_finite ha
  obtain ⟨t, d, rfl⟩ := exists_finite hb
  rw [value_finite, value_finite, ← add_div, ← Int.cast_add, add_finite]
  split
  case isTrue h =>
    rw [h, Int.cast_zero, zero_div, Format.round_zero]
    unfold zero
    rw [value_ofCode, Nat.min_eq_left (Nat.zero_le _)]
    simp [signed, Format.amount_zero]
  case isFalse h => exact value_ofUnits _

theorem value_sub (ha : a.isFinite) (hb : b.isFinite) :
    (a - b).value = F.round (a.value - b.value) := by
  rw [sub_eq, value_add ha ((isFinite_neg b).trans hb), value_neg, ← sub_eq_add_neg]

theorem value_mul (ha : a.isFinite) (hb : b.isFinite) :
    (a * b).value = F.round (a.value * b.value) := by
  obtain ⟨s, c, rfl⟩ := exists_finite ha
  obtain ⟨t, d, rfl⟩ := exists_finite hb
  show (ofRatio (s != t) (F.units c * F.units d) F.one).value = _
  rw [value_ofRatio _ _ F.one_pos]
  show _ = F.round (signed s (F.amount c) * signed t (F.amount d))
  rw [signed_mul]
  unfold Format.amount
  rw [div_mul_div_comm, Nat.cast_mul]

theorem value_div (ha : a.isFinite) (hb : b.isFinite) (hzero : b.value ≠ 0) :
    (a / b).value = F.round (a.value / b.value) := by
  obtain ⟨s, c, rfl⟩ := exists_finite ha
  obtain ⟨t, d, rfl⟩ := exists_finite hb
  have hd : d.val ≠ 0 := fun h => hzero (value_eq_zero_iff.mpr h)
  have hunits : 0 < F.units d :=
    Nat.lt_of_le_of_lt (Nat.zero_le _)
      (Format.units_lt_units F.precision_pos (Nat.pos_of_ne_zero hd))
  show (if d.val = 0 then _ else ofRatio (s != t) (F.units c * F.one) (F.units d)).value = _
  rw [if_neg hd, value_ofRatio _ _ hunits]
  show _ = F.round (signed s (F.amount c) / signed t (F.amount d))
  rw [signed_div]
  unfold Format.amount
  rw [div_div_div_eq, Nat.cast_mul, mul_comm (F.units d : ℚ)]

/-- the value of a number is not rounded -/
theorem round_value (ha : a ≠ nan) : F.round a.value = a.value := by
  rw [value_of_ne_nan ha, round_signed, Format.round_amount (magnitude_le_top ha)]

/-! ## the order of values -/

/-- the places of two codes with signs are ordered as their values are -/
theorem key_le_key_iff (s t : Bool) (c d : Nat) :
    (if s then -(c : Int) else c) ≤ (if t then -(d : Int) else d) ↔
      signed s (F.amount c) ≤ signed t (F.amount d) := by
  have hc := F.amount_nonneg c
  have hd := F.amount_nonneg d
  have hmono {x y : Nat} : F.amount x ≤ F.amount y ↔ x ≤ y := F.amount_strictMono.le_iff_le
  cases s with
  | false =>
    cases t with
    | false => simp [signed, hmono]
    | true =>
      have hzero := Format.amount_eq_zero_iff (F := F) (c := c)
      have hzero' := Format.amount_eq_zero_iff (F := F) (c := d)
      constructor
      · intro h
        obtain ⟨rfl, rfl⟩ : c = 0 ∧ d = 0 := by
          simp at h
          omega
        simp [signed, F.amount_zero]
      · intro h
        simp only [signed, Bool.false_eq_true, if_false, if_true] at h
        have hc0 := hzero.mp (by linarith)
        have hd0 := hzero'.mp (by linarith)
        simp [hc0, hd0]
  | true =>
    cases t with
    | false =>
      have hneg : signed true (F.amount c) ≤ signed false (F.amount d) :=
        (neg_nonpos.mpr hc).trans hd
      simp only [hneg, iff_true, if_true, Bool.false_eq_true, if_false]
      omega
    | true => simp [signed, hmono]

theorem le_iff_value (ha : a ≠ nan) (hb : b ≠ nan) : a ≤ b ↔ a.value ≤ b.value := by
  rw [le_iff, key?_eq ha, key?_eq hb, value_of_ne_nan ha, value_of_ne_nan hb, ← key_le_key_iff]
  simp

theorem lt_iff_value (ha : a ≠ nan) (hb : b ≠ nan) : a < b ↔ a.value < b.value := by
  have hle := le_iff_value hb ha
  rw [← not_le, ← hle, lt_iff, le_iff, key?_eq ha, key?_eq hb]
  simp

end Binary

end RangeBearing
