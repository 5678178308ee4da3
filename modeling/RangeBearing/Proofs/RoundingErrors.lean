import Mathlib.Algebra.Order.Ring.Pow
import Mathlib.Tactic.NormNum
import RangeBearing.Proofs.Scaling

/-!
# Rounding errors

Rounding changes a number whose significand is full by at most half a unit in the last place, so it
is one factor of `slack` away at most.  A computation is then as many factors away from its exact
result as it has roundings; only where a number is taken off, the factors multiply.

* `Format.abs_round_sub_le`   one rounding;
* `Format.slack`              one unit in the last place of the number one, above one;
* `Format.slack_pow_sub_one_mul_le`   a few of these factors together;
* `Format.Near`               within some roundings of each other;
* `Format.Near.mul`, `Format.Near.div`, `Format.Near.add_left`, `Format.Near.sub_left`
                              the exact operations on near numbers;
* `Binary.near_of_between`    and what is rounded to a result of full significand;
* `Binary.near_sqrt`          the square of a root.
-/

namespace RangeBearing

/-! ## one rounding -/

theorem divEven_bounds (n : Nat) {d : Nat} (hd : 0 < d) :
    2 * n ≤ 2 * (divEven n d * d) + d ∧ 2 * (divEven n d * d) ≤ 2 * n + d := by
  have hdiv := Nat.div_add_mod n d
  have hmod := Nat.mod_lt n hd
  rw [Nat.mul_comm] at hdiv
  unfold divEven
  dsimp only
  have hsucc : (n / d + 1) * d = n / d * d + d := Nat.succ_mul _ _
  split
  · omega
  · split
    · rw [hsucc]
      omega
    · -- a tie, which either neighbour is a half away from
      obtain heven | hodd : n / d % 2 = 0 ∨ n / d % 2 = 1 := by omega
      · rw [heven, Nat.add_zero]
        omega
      · rw [hodd, hsucc]
        omega

theorem abs_divEven_sub_le (n : Nat) {d : Nat} (hd : 0 < d) :
    |(divEven n d : ℚ) - n / d| ≤ 1 / 2 := by
  obtain ⟨hlow, hhigh⟩ := divEven_bounds n hd
  have hd' : (0 : ℚ) < d := by exact_mod_cast hd
  have hlow : (2 * n : ℚ) ≤ 2 * (divEven n d * d) + d := by exact_mod_cast hlow
  have hhigh : (2 * (divEven n d * d) : ℚ) ≤ 2 * n + d := by exact_mod_cast hhigh
  have hcancel : (n / d : ℚ) * d = n := div_mul_cancel₀ _ hd'.ne'
  rw [abs_le]
  constructor
  · refine le_of_mul_le_mul_right ?_ hd'
    rw [sub_mul, hcancel]
    linarith
  · refine le_of_mul_le_mul_right ?_ hd'
    rw [sub_mul, hcancel]
    linarith

namespace Format

variable {F : Format} {n m d : Nat} {x y z w c : ℚ}

theorem abs_units_nearest_sub_le (hp : 0 < F.precision) (hd : 0 < d) (full : F.binade * d ≤ n) :
    |(F.units (F.nearest n d) : ℚ) - n / d| ≤ n / d / 2 ^ F.precision := by
  have hd' : (0 : ℚ) < d := by exact_mod_cast hd
  have hB : (0 : ℚ) < F.binade := by exact_mod_cast F.binade_pos
  have hfull : F.binade ≤ n / d := (Nat.le_div_iff_mul_le hd).mpr full
  -- the quantum of the result is at most one part in `binade` of the quotient
  have hquantum : F.binade * 2 ^ F.excess (n / d) * d ≤ n := by
    rw [← Nat.le_div_iff_mul_le hd]
    rcases Nat.eq_zero_or_pos (F.excess (n / d)) with hzero | hpos
    · rwa [hzero, Nat.pow_zero, Nat.mul_one]
    · exact le_of_excess hp hpos
  rw [nearest_eq, units_eq (isSignificand_divEven hp hd)]
  have hpow := Nat.two_pow_pos (F.excess (n / d))
  have hnear := abs_divEven_sub_le n (Nat.mul_pos hd hpow)
  generalize F.excess (n / d) = e at *
  generalize divEven n (d * 2 ^ e) = s at *
  have hscale : (0 : ℚ) < (2 ^ e : Nat) := by exact_mod_cast hpow
  have hprecision : (2 ^ F.precision : ℚ) = 2 * F.binade := by
    exact_mod_cast (two_mul_binade hp).symm
  have hquantum : (2 ^ e : Nat) * F.binade ≤ (n / d : ℚ) := by
    rw [le_div_iff₀ hd', mul_comm ((2 ^ e : Nat) : ℚ)]
    exact_mod_cast hquantum
  have hshift : ((s * 2 ^ e : Nat) : ℚ) - n / d = (s - n / (d * 2 ^ e : Nat)) * (2 ^ e : Nat) := by
    rw [sub_mul, Nat.cast_mul, Nat.cast_mul, ← div_div, div_mul_cancel₀ _ hscale.ne']
  calc |((s * 2 ^ e : Nat) : ℚ) - n / d|
      = |(s : ℚ) - n / (d * 2 ^ e : Nat)| * (2 ^ e : Nat) := by
        rw [hshift, abs_mul, abs_of_pos hscale]
    _ ≤ 1 / 2 * (2 ^ e : Nat) := mul_le_mul_of_nonneg_right hnear hscale.le
    _ ≤ n / d / 2 ^ F.precision := by
        rw [hprecision, le_div_iff₀ (by positivity)]
        linarith

variable [NeZero F.precision]

theorem nearest_le_top (hx : 0 ≤ x) (high : x ≤ F.amount F.top) :
    F.nearest (x * F.one).num.natAbs (x * F.one).den ≤ F.top := by
  have hone := F.one_cast_pos
  have hunits := num_eq_natAbs (x := x * F.one) (by positivity)
  have hden := Rat.den_pos (x * F.one)
  rw [amount, le_div_iff₀ hone, hunits, div_le_iff₀ (by exact_mod_cast hden)] at high
  refine nearest_le F.precision_pos hden ?_
  exact_mod_cast high

/-- half a unit in the last place -/
theorem abs_round_sub_le (low : F.amount F.binade ≤ x) (high : x ≤ F.amount F.top) :
    |F.round x - x| ≤ x / 2 ^ F.precision := by
  have hx := (F.amount_nonneg _).trans low
  have hone := F.one_cast_pos
  have hunits := num_eq_natAbs (x := x * F.one) (by positivity)
  have hden := Rat.den_pos (x * F.one)
  have hfull : F.binade * (x * F.one).den ≤ (x * F.one).num.natAbs := by
    rw [amount, units_binade, div_le_iff₀ hone, hunits,
      le_div_iff₀ (by exact_mod_cast hden)] at low
    exact_mod_cast low
  have hnear := abs_units_nearest_sub_le F.precision_pos hden hfull
  rw [round_of_nonneg hx, Nat.min_eq_left (nearest_le_top hx high), amount]
  rw [← hunits] at hnear
  generalize (F.units (F.nearest (x * F.one).num.natAbs (x * F.one).den) : ℚ) = u at *
  calc |u / F.one - x| = |u - x * F.one| / F.one := by
        rw [← abs_of_pos hone, ← abs_div, abs_of_pos hone, sub_div,
          mul_div_cancel_right₀ _ hone.ne']
    _ ≤ x * F.one / 2 ^ F.precision / F.one := div_le_div_of_nonneg_right hnear hone.le
    _ = x / 2 ^ F.precision := by field_simp

/-! ## within some roundings -/

omit [NeZero F.precision]

/-- one unit in the last place of the number one, above one -/
def slack (F : Format) : ℚ := 1 + 1 / F.binade

theorem one_le_slack (F : Format) : 1 ≤ F.slack :=
  le_add_of_nonneg_right (div_nonneg zero_le_one (Nat.cast_nonneg _))

theorem one_le_slack_pow (F : Format) (n : Nat) : 1 ≤ F.slack ^ n := one_le_pow₀ F.one_le_slack

theorem slack_pow_pos (F : Format) (n : Nat) : 0 < F.slack ^ n :=
  zero_lt_one.trans_le (F.one_le_slack_pow n)

/-- a few roundings amount to hardly more than as many units in the last place -/
theorem slack_pow_sub_one_mul_le (F : Format) (n : Nat) :
    (F.slack ^ n - 1) * (F.binade - n) ≤ n := by
  have hB : (1 : ℚ) ≤ F.binade := by exact_mod_cast F.binade_pos
  have hunit : 0 ≤ 1 / (F.binade : ℚ) := by positivity
  have hle : 1 / (F.binade : ℚ) ≤ 1 := (div_le_one (by linarith)).mpr hB
  have hcancel : 1 / (F.binade : ℚ) * F.binade = 1 := one_div_mul_cancel (by linarith)
  have hpow := one_add_mul_le_pow (by linarith : -2 ≤ -(1 / (F.binade : ℚ))) n
  have hproduct : F.slack ^ n * (1 + n * -(1 / (F.binade : ℚ))) ≤ 1 := by
    calc F.slack ^ n * (1 + n * -(1 / (F.binade : ℚ)))
        ≤ F.slack ^ n * (1 + -(1 / (F.binade : ℚ))) ^ n :=
          mul_le_mul_of_nonneg_left hpow (F.slack_pow_pos n).le
      _ = (1 - (1 / (F.binade : ℚ)) ^ 2) ^ n := by
          rw [← mul_pow, slack]
          ring
      _ ≤ 1 := by
          refine pow_le_one₀ ?_ (sub_le_self _ (sq_nonneg _))
          exact sub_nonneg.mpr (pow_le_one₀ hunit hle)
  calc (F.slack ^ n - 1) * (F.binade - n)
      = F.slack ^ n * (1 + n * -(1 / (F.binade : ℚ))) * F.binade
          + F.slack ^ n * n * (1 / (F.binade : ℚ) * F.binade - 1) - F.binade + n := by ring
    _ ≤ n := by
      rw [hcancel, sub_self, mul_zero, add_zero]
      linarith [mul_le_mul_of_nonneg_right hproduct (zero_le_one.trans hB)]

theorem two_mul_slack_pow_le (F : Format) {n k : Nat} (few : n * (2 * k + 1) ≤ F.binade) :
    2 * (k * (F.slack ^ n - 1)) ≤ 1 := by
  rcases Nat.eq_zero_or_pos k with rfl | hk
  · norm_num
  have hpow := F.slack_pow_sub_one_mul_le n
  have hn : n < F.binade := by
    rcases Nat.eq_zero_or_pos n with rfl | hn
    · exact F.binade_pos
    · exact Nat.lt_of_lt_of_le ((Nat.lt_mul_iff_one_lt_right hn).mpr (by omega)) few
  have hrest : (0 : ℚ) < F.binade - n := sub_pos.mpr (by exact_mod_cast hn)
  have hfew : (n * (2 * k + 1) : ℚ) ≤ F.binade := by exact_mod_cast few
  refine le_of_mul_le_mul_right ?_ hrest
  calc 2 * (k * (F.slack ^ n - 1)) * (F.binade - n)
      = 2 * k * ((F.slack ^ n - 1) * (F.binade - n)) := by ring
    _ ≤ 2 * k * n := mul_le_mul_of_nonneg_left hpow (by positivity)
    _ ≤ 1 * (F.binade - n) := by linarith

/-- `n` roundings take one number to the other at most -/
structure Near (F : Format) (n : Nat) (x y : ℚ) : Prop where
  le : x ≤ F.slack ^ n * y
  ge : y ≤ F.slack ^ n * x

namespace Near

theorem self (F : Format) (x : ℚ) : F.Near 0 x x := ⟨by simp, by simp⟩

theorem trans (h : F.Near n x y) (h' : F.Near m y z) : F.Near (n + m) x z where
  le := by
    calc x ≤ F.slack ^ n * y := h.le
      _ ≤ F.slack ^ n * (F.slack ^ m * z) :=
        mul_le_mul_of_nonneg_left h'.le (F.slack_pow_pos n).le
      _ = F.slack ^ (n + m) * z := by ring
  ge := by
    calc z ≤ F.slack ^ m * y := h'.ge
      _ ≤ F.slack ^ m * (F.slack ^ n * x) :=
        mul_le_mul_of_nonneg_left h.ge (F.slack_pow_pos m).le
      _ = F.slack ^ (n + m) * x := by ring

theorem mono (h : F.Near n x y) (hx : 0 ≤ x) (hy : 0 ≤ y) (hle : n ≤ m) : F.Near m x y := by
  have hpow := pow_le_pow_right₀ F.one_le_slack hle
  exact ⟨h.le.trans (mul_le_mul_of_nonneg_right hpow hy),
    h.ge.trans (mul_le_mul_of_nonneg_right hpow hx)⟩

theorem mul (h : F.Near n x y) (h' : F.Near m z w) (left : 0 ≤ x ∧ 0 ≤ y) (right : 0 ≤ z ∧ 0 ≤ w) :
    F.Near (n + m) (x * z) (y * w) where
  le := by
    calc x * z ≤ F.slack ^ n * y * (F.slack ^ m * w) :=
          mul_le_mul h.le h'.le right.1 (mul_nonneg (F.slack_pow_pos n).le left.2)
      _ = F.slack ^ (n + m) * (y * w) := by ring
  ge := by
    calc y * w ≤ F.slack ^ n * x * (F.slack ^ m * z) :=
          mul_le_mul h.ge h'.ge right.2 (mul_nonneg (F.slack_pow_pos n).le left.1)
      _ = F.slack ^ (n + m) * (x * z) := by ring

/-- what is divided by near numbers -/
theorem div (h : F.Near n x y) (hc : 0 ≤ c) (hx : 0 < x) (hy : 0 < y) :
    F.Near n (c / x) (c / y) where
  le := by
    rw [← mul_div_assoc, div_le_div_iff₀ hx hy, mul_right_comm, mul_comm _ c]
    exact mul_le_mul_of_nonneg_left h.ge hc
  ge := by
    rw [← mul_div_assoc, div_le_div_iff₀ hy hx, mul_right_comm, mul_comm _ c]
    exact mul_le_mul_of_nonneg_left h.le hc

theorem add_left (h : F.Near n x y) (hc : 0 ≤ c) : F.Near n (c + x) (c + y) := by
  have hgrow := le_mul_of_one_le_left hc (F.one_le_slack_pow n)
  constructor
  · rw [mul_add]
    exact add_le_add hgrow h.le
  · rw [mul_add]
    exact add_le_add hgrow h.ge

/-- taking off `k` times what is left costs twice as many factors for each of these times -/
theorem sub_left {k : Nat} (h : F.Near n x (c + y)) (hy : 0 ≤ y) (hle : c ≤ k * y)
    (few : n * (2 * k + 1) ≤ F.binade) : F.Near (n * (2 * k + 1)) (x - c) y := by
  obtain ⟨hupper, hlower⟩ := h
  have small := F.two_mul_slack_pow_le few
  have hone := F.one_le_slack_pow n
  have hpow := one_add_mul_le_pow (by linarith : -2 ≤ F.slack ^ n - 1) (2 * k)
  have hpow' : F.slack ^ (n * (2 * k + 1)) = (F.slack ^ n) ^ (2 * k) * F.slack ^ n := by
    rw [pow_mul, pow_succ]
  rw [add_sub_cancel] at hpow
  push_cast at hpow
  generalize hfactor : (F.slack ^ n) ^ (2 * k) = p at hpow hpow'
  generalize F.slack ^ n = s at *
  have hk : (0 : ℚ) ≤ k := Nat.cast_nonneg k
  have hloss : (s - 1) * c ≤ k * (s - 1) * y := by
    calc (s - 1) * c ≤ (s - 1) * (k * y) := mul_le_mul_of_nonneg_left hle (by linarith)
      _ = k * (s - 1) * y := by ring
  have ht : 0 ≤ k * (s - 1) := mul_nonneg hk (by linarith)
  rw [mul_assoc] at hpow
  generalize hshare : (k : ℚ) * (s - 1) = t at *
  constructor
  · rw [hpow']
    calc x - c ≤ s * y + (s - 1) * c := by linarith
      _ ≤ (s + t) * y := by linarith
      _ ≤ p * s * y := by
        refine mul_le_mul_of_nonneg_right ?_ hy
        have hst := mul_nonneg ht (sub_nonneg.mpr hone)
        calc s + t ≤ (1 + 2 * t) * s := by linarith
          _ ≤ p * s := mul_le_mul_of_nonneg_right (by linarith) (by linarith)
  · rw [hpow']
    have hrest : (1 - t) * y ≤ s * (x - c) := by linarith
    have hgain := mul_nonneg (mul_nonneg ht (sub_nonneg.mpr small)) hy
    calc y ≤ (1 + 2 * t) * ((1 - t) * y) := by linarith
      _ ≤ p * ((1 - t) * y) := by
        refine mul_le_mul_of_nonneg_right (by linarith) (mul_nonneg (by linarith) hy)
      _ ≤ p * (s * (x - c)) := mul_le_mul_of_nonneg_left hrest (by linarith)
      _ = p * s * (x - c) := by ring

theorem of_sq (h : F.Near (2 * n) (x ^ 2) (y ^ 2)) (hx : 0 ≤ x) (hy : 0 ≤ y) : F.Near n x y := by
  have hsquare (z : ℚ) : F.slack ^ (2 * n) * z ^ 2 = (F.slack ^ n * z) ^ 2 := by
    rw [mul_comm 2 n, pow_mul, ← mul_pow]
  obtain ⟨hle, hge⟩ := h
  rw [hsquare] at hle hge
  have hs := (F.slack_pow_pos n).le
  exact ⟨le_of_sq_le_sq hle (mul_nonneg hs hy), le_of_sq_le_sq hge (mul_nonneg hs hx)⟩

theorem abs_sub_le (h : F.Near n x y) (hy : 0 ≤ y) : |x - y| ≤ (F.slack ^ n - 1) * y := by
  obtain ⟨hle, hge⟩ := h
  have hone := F.one_le_slack_pow n
  generalize F.slack ^ n = s at *
  rw [abs_le]
  constructor
  · have hlow : (2 - s) * y ≤ x := by
      refine le_of_mul_le_mul_left ?_ (zero_lt_one.trans_le hone)
      have hsquare := mul_nonneg hy (sq_nonneg (s - 1))
      linarith
    linarith
  · linarith

theorem abs_sub_lt {b e : ℚ} (h : F.Near n x y) (hy : 0 ≤ y) (hle : y ≤ b) (he : 0 < e)
    (few : n * (b + e) < e * F.binade) : |x - y| < e := by
  have hone := F.one_le_slack_pow n
  have hn : (0 : ℚ) ≤ n := Nat.cast_nonneg n
  have hnb : 0 ≤ n * b := mul_nonneg hn (hy.trans hle)
  have hrest : (0 : ℚ) < F.binade - n := pos_of_mul_pos_right (by linarith) he.le
  calc |x - y| ≤ (F.slack ^ n - 1) * y := h.abs_sub_le hy
    _ ≤ (F.slack ^ n - 1) * b := mul_le_mul_of_nonneg_left hle (sub_nonneg.mpr hone)
    _ < e := by
      refine lt_of_mul_lt_mul_right ?_ hrest.le
      calc (F.slack ^ n - 1) * b * (F.binade - n)
          = (F.slack ^ n - 1) * (F.binade - n) * b := by ring
        _ ≤ n * b := mul_le_mul_of_nonneg_right (F.slack_pow_sub_one_mul_le n) (hy.trans hle)
        _ < e * (F.binade - n) := by linarith

end Near

variable [NeZero F.precision]

theorem near_round (low : F.amount F.binade ≤ x) (high : x ≤ F.amount F.top) :
    F.Near 1 (F.round x) x := by
  have herror := abs_round_sub_le low high
  have hx := (F.amount_nonneg _).trans low
  have hB : (1 : ℚ) ≤ F.binade := by exact_mod_cast F.binade_pos
  have hprecision : (2 ^ F.precision : ℚ) = 2 * F.binade := by
    exact_mod_cast (two_mul_binade F.precision_pos).symm
  rw [hprecision, abs_le] at herror
  have hhalf : x / (2 * F.binade) = x * (1 / F.binade) / 2 := by ring
  have hunit : 0 ≤ 1 / (F.binade : ℚ) := by positivity
  have hle : 1 / (F.binade : ℚ) ≤ 1 := (div_le_one (by linarith)).mpr hB
  have hslack : F.slack ^ 1 = 1 + 1 / F.binade := pow_one _
  rw [hhalf] at herror
  obtain ⟨hlow, hhigh⟩ := herror
  generalize 1 / (F.binade : ℚ) = u at *
  have hxu := mul_nonneg hx hunit
  constructor
  · rw [hslack]
    linarith
  · rw [hslack]
    have hrest := mul_nonneg hxu (sub_nonneg.mpr hle)
    calc x ≤ (1 + u) * (x - x * u / 2) := by linarith
      _ ≤ (1 + u) * F.round x := mul_le_mul_of_nonneg_left (by linarith) (by linarith)

/-- the conditions can be read off the result -/
theorem near_of_normal (normal : F.amount F.binade < F.round x)
    (finite : F.round x < F.amount F.top) (range : F.binade ≤ F.top) : F.Near 1 (F.round x) x := by
  refine near_round ?_ ?_
  · by_contra h
    have hround := round_mono (F := F) (not_le.mp h).le
    rw [round_amount range] at hround
    linarith
  · by_contra h
    have hround := round_mono (F := F) (not_le.mp h).le
    rw [round_amount (Nat.le_refl _)] at hround
    linarith

end Format

namespace Binary

variable {F : Format} [NeZero F.precision] {a b lo hi : Binary F}

theorem value_lt_top (ha : a.isFinite) : a.value < F.amount F.top := by
  obtain ⟨s, c, rfl⟩ := exists_finite ha
  have hlt := Format.amount_lt_amount (F := F) c.isLt
  have hc := F.amount_nonneg c
  cases s with
  | false => exact hlt
  | true =>
    show -F.amount c < _
    linarith

/-- the least number with a full significand -/
def leastNormal : Binary F := ofCode false F.binade

theorem normal_of_lt (h : leastNormal < a) (ha : a.isFinite) :
    F.binade ≤ F.top ∧ F.amount F.binade < a.value := by
  have hvalue : F.amount (min F.binade F.top) < a.value := by
    rwa [leastNormal, lt_iff_value (ofCode_ne_nan _ _) (ne_nan_of_isFinite ha), value_ofCode] at h
  have htop := F.amount_strictMono.lt_iff_lt.mp (hvalue.trans (value_lt_top ha))
  have hmin : min F.binade F.top = F.binade := by omega
  rw [hmin] at hvalue
  exact ⟨by omega, hvalue⟩

/-- a result between two data of which the lesser has a full significand -/
theorem near_of_between {x : ℚ} (h : a.Between lo hi) (normal : leastNormal < lo)
    (hvalue : a.value = F.round x) : F.Near 1 a.value x := by
  have hfinite := value_lt_top h.isFinite
  obtain ⟨htop, hnormal⟩ := normal_of_lt (Binary.lt_of_lt_of_le normal h.lower) h.isFinite
  rw [hvalue] at hnormal hfinite ⊢
  exact F.near_of_normal hnormal hfinite htop

end Binary

/-! ## roots -/

theorem doubledRoot_le (n : Nat) : doubledRoot n ≤ 2 * n.sqrt + 1 := by
  unfold doubledRoot
  dsimp only
  split <;> omega

namespace Format

variable {F : Format} {n : Nat}

/-- a root with enough digits, doubled -/
theorem near_doubledRoot (wide : F.binade ≤ n.sqrt) :
    F.Near 2 ((doubledRoot n : ℚ) ^ 2) (4 * n) := by
  have hB : (0 : ℚ) < F.binade := by exact_mod_cast F.binade_pos
  have hlow : (2 * n.sqrt : ℚ) ≤ doubledRoot n := by
    exact_mod_cast two_mul_sqrt_le_doubledRoot n
  have hhigh : (doubledRoot n : ℚ) ≤ 2 * n.sqrt + 1 := by exact_mod_cast doubledRoot_le n
  have hle : (n.sqrt * n.sqrt : ℚ) ≤ n := by exact_mod_cast Nat.sqrt_le n
  have hlt : (n : ℚ) ≤ (n.sqrt + 1) * (n.sqrt + 1) := by
    exact_mod_cast Nat.le_of_lt (Nat.lt_succ_sqrt n)
  have hwide : 1 ≤ (n.sqrt : ℚ) / F.binade := by
    rw [one_le_div hB]
    exact_mod_cast wide
  have hslack (x : ℚ) : F.slack * x = x + x / F.binade := by
    unfold slack
    ring
  generalize (n.sqrt : ℚ) = r at *
  generalize (doubledRoot n : ℚ) = D at *
  have hr : 0 ≤ r := by
    by_contra h
    exact absurd hwide (not_le.mpr ((div_neg_of_neg_of_pos (not_le.mp h) hB).trans zero_lt_one))
  constructor
  · have hgrow : D ≤ F.slack * (2 * r) := by
      rw [hslack, mul_div_assoc]
      linarith
    calc D ^ 2 ≤ (F.slack * (2 * r)) ^ 2 := pow_le_pow_left₀ (by linarith) hgrow 2
      _ = F.slack ^ 2 * (4 * (r * r)) := by ring
      _ ≤ F.slack ^ 2 * (4 * n) := by
        refine mul_le_mul_of_nonneg_left (by linarith) (F.slack_pow_pos 2).le
  · have hgrow : 2 * (r + 1) ≤ F.slack * D := by
      have hmono := div_le_div_of_nonneg_right hlow hB.le
      rw [mul_div_assoc] at hmono
      rw [hslack]
      linarith
    calc (4 * n : ℚ) ≤ (2 * (r + 1)) ^ 2 := by linarith
      _ ≤ (F.slack * D) ^ 2 := pow_le_pow_left₀ (by linarith) hgrow 2
      _ = F.slack ^ 2 * D ^ 2 := by ring

end Format

namespace Binary

variable {F : Format} [NeZero F.precision] {x : Binary F}

/-- the square of a root, in a format whose numbers have roots with full significands -/
theorem near_sqrt (hx : x.isFinite) (positive : 0 < x) (wide : F.binade * F.binade ≤ F.one)
    (range : F.one ≤ F.units F.top) : F.Near 4 (x.sqrt.value ^ 2) x.value := by
  rcases pos_cases positive with rfl | ⟨c, hc, rfl⟩
  · cases hx
  have hone := F.one_cast_pos
  have hunits : 0 < F.units c :=
    Nat.pos_of_ne_zero fun h => hc ((Format.units_eq_zero_iff F.precision_pos).mp h)
  have hfull : F.binade ≤ (F.units c * F.one).sqrt :=
    Nat.le_sqrt.mpr (Nat.le_trans wide (Nat.le_mul_of_pos_left _ hunits))
  have htop : (F.units c * F.one).sqrt < F.units F.top := by
    refine Nat.sqrt_lt.mpr ?_
    exact Nat.mul_lt_mul_of_lt_of_le (Format.units_lt_units F.precision_pos c.isLt) range
      (Nat.lt_of_lt_of_le F.one_pos range)
  have hlow := two_mul_sqrt_le_doubledRoot (F.units c * F.one)
  have hhigh := doubledRoot_le (F.units c * F.one)
  have hexact := F.near_doubledRoot hfull
  rw [sqrt_finite hc, value_ofRatio _ _ Nat.two_pos]
  generalize doubledRoot (F.units c * F.one) = D at hlow hhigh hexact ⊢
  have hroot : (0 : ℚ) ≤ D / (2 * F.one) := by positivity
  have hround : F.Near 1 (F.round (D / (2 * F.one))) (D / (2 * F.one)) := by
    have hdigits : (2 * F.binade : ℚ) ≤ D := by
      exact_mod_cast Nat.le_trans (Nat.mul_le_mul_left 2 hfull) hlow
    have hbelow : (D : ℚ) ≤ 2 * F.units F.top := by
      exact_mod_cast (by omega : D ≤ 2 * F.units F.top)
    refine F.near_round ?_ ?_
    · rw [Format.amount, F.units_binade, div_le_div_iff₀ hone (by positivity)]
      linarith [mul_le_mul_of_nonneg_right hdigits hone.le]
    · rw [Format.amount, div_le_div_iff₀ (by positivity) hone]
      linarith [mul_le_mul_of_nonneg_right hbelow hone.le]
  have hsquare : F.Near 2 ((D / (2 * F.one) : ℚ) ^ 2) (F.amount c) := by
    have hscaled := (Format.Near.self F (1 / (4 * F.one ^ 2))).mul hexact
      ⟨by positivity, by positivity⟩ ⟨by positivity, by positivity⟩
    have hleft : 1 / (4 * (F.one : ℚ) ^ 2) * D ^ 2 = (D / (2 * F.one)) ^ 2 := by ring
    have hright : 1 / (4 * (F.one : ℚ) ^ 2) * (4 * (F.units c * F.one : Nat)) = F.amount c := by
      rw [Format.amount, Nat.cast_mul]
      field_simp
    rwa [hleft, hright] at hscaled
  show F.Near 4 (F.round (D / (2 * F.one)) ^ 2) (F.amount c)
  rw [sq]
  rw [sq] at hsquare
  have hnonneg := F.round_nonneg hroot
  exact (hround.mul hround ⟨hnonneg, hroot⟩ ⟨hnonneg, hroot⟩).trans hsquare

end Binary

end RangeBearing
