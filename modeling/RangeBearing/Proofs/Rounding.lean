import Mathlib.Data.Nat.Log
import Mathlib.Tactic.Ring
import RangeBearing.Binary.Integral

/-!
# Rounding

The magnitudes of a format grow with their codes, and the code of the magnitude nearest to a
quotient grows with the quotient.  A quotient that is itself a magnitude is not rounded, so rounding
never passes over a magnitude.

* `Format.IsSignificand`      a code as an exponent and a significand;
* `Format.nearest_mono`, `Format.nearest_units`, `Format.units_lt_units`;
* `Format.le_nearest`, `Format.nearest_le`   no magnitude is passed over.
-/

namespace RangeBearing

/-! ## to the nearest integer -/

section
variable {n d n' d' : Nat}

theorem div_le_divEven (n d : Nat) : n / d ≤ divEven n d := by
  unfold divEven
  dsimp only
  split
  · exact Nat.le_refl _
  · split
    · exact Nat.le_succ _
    · exact Nat.le_add_right _ _

theorem div_le_div_of_mul_le (hd : 0 < d) (hd' : 0 < d') (h : n * d' ≤ n' * d) :
    n / d ≤ n' / d' := by
  rw [Nat.le_div_iff_mul_le hd']
  refine Nat.le_of_mul_le_mul_right (c := d) ?_ hd
  calc n / d * d' * d = n / d * d * d' := Nat.mul_right_comm _ _ _
    _ ≤ n * d' := Nat.mul_le_mul_right _ (Nat.div_mul_le_self n d)
    _ ≤ n' * d := h

/-- a greater quotient is not rounded to a lesser integer -/
theorem divEven_mono (hd : 0 < d) (hd' : 0 < d') (h : n * d' ≤ n' * d) :
    divEven n d ≤ divEven n' d' := by
  have hq := div_le_div_of_mul_le hd hd' h
  rcases Nat.lt_or_eq_of_le hq with hlt | heq
  · have hup : divEven n d ≤ n / d + 1 := by
      unfold divEven
      dsimp only
      split
      · omega
      · split
        · omega
        · omega
    exact Nat.le_trans hup (Nat.le_trans hlt (div_le_divEven n' d'))
  · -- the whole parts are equal, so the remainders decide
    have hr : n % d * d' ≤ n' % d' * d := by
      have hn := Nat.div_add_mod n d
      have hn' := Nat.div_add_mod n' d'
      rw [← heq] at hn'
      generalize n / d = q at hn hn'
      generalize n % d = r at hn ⊢
      generalize n' % d' = r' at hn' ⊢
      subst hn hn'
      have hwhole : d * q * d' = d' * q * d := by ring
      rw [Nat.add_mul, Nat.add_mul, hwhole] at h
      exact Nat.le_of_add_le_add_left h
    have hbelow : 2 * (n' % d') < d' → 2 * (n % d) < d := by
      intro h'
      refine Nat.lt_of_mul_lt_mul_right (a := d') ?_
      calc 2 * (n % d) * d' = 2 * (n % d * d') := Nat.mul_assoc _ _ _
        _ ≤ 2 * (n' % d' * d) := Nat.mul_le_mul_left _ hr
        _ = 2 * (n' % d') * d := (Nat.mul_assoc _ _ _).symm
        _ < d' * d := Nat.mul_lt_mul_of_pos_right h' hd
        _ = d * d' := Nat.mul_comm _ _
    have hhalf : 2 * (n' % d') ≤ d' → 2 * (n % d) ≤ d := by
      intro h'
      refine Nat.le_of_mul_le_mul_right (c := d') ?_ hd'
      calc 2 * (n % d) * d' = 2 * (n % d * d') := Nat.mul_assoc _ _ _
        _ ≤ 2 * (n' % d' * d) := Nat.mul_le_mul_left _ hr
        _ = 2 * (n' % d') * d := (Nat.mul_assoc _ _ _).symm
        _ ≤ d' * d := Nat.mul_le_mul_right _ h'
        _ = d * d' := Nat.mul_comm _ _
    unfold divEven
    dsimp only
    rw [← heq]
    split_ifs <;> omega

theorem divEven_le {m : Nat} (hd : 0 < d) (h : n ≤ m * d) : divEven n d ≤ m := by
  rw [← divEven_mul m d hd]
  exact divEven_mono hd hd (Nat.mul_le_mul_right d h)

theorem le_divEven {m : Nat} (hd : 0 < d) (h : m * d ≤ n) : m ≤ divEven n d :=
  Nat.le_trans ((Nat.le_div_iff_mul_le hd).mpr h) (div_le_divEven n d)

end

namespace Format

variable {F : Format} {n d n' d' e m c c' q q' : Nat}

/-! ## codes as an exponent and a significand -/

theorem binade_pos (F : Format) : 0 < F.binade := Nat.two_pow_pos _

theorem two_mul_binade (hp : 0 < F.precision) : 2 * F.binade = 2 ^ F.precision := by
  unfold binade
  show 2 * 2 ^ (F.precision - 1) = _
  rw [← Nat.pow_succ']
  congr 1
  omega

/-- `m` is the significand of the magnitude `m * 2 ^ e`: its leading digit is there, unless the
exponent is the least one -/
structure IsSignificand (F : Format) (e m : Nat) : Prop where
  normal : e = 0 ∨ F.binade ≤ m
  le : m ≤ 2 * F.binade

theorem units_eq (h : F.IsSignificand e m) : F.units (e * F.binade + m) = m * 2 ^ e := by
  have hB := binade_pos F
  obtain ⟨hnormal, hle⟩ := h
  unfold units
  generalize F.binade = B at *
  rcases Nat.lt_or_ge m B with hlt | hge
  · obtain rfl : e = 0 := hnormal.resolve_right (Nat.not_le_of_lt hlt)
    rw [Nat.zero_mul, Nat.zero_add, if_pos hlt, Nat.pow_zero, Nat.mul_one]
  · obtain ⟨k, rfl⟩ := Nat.exists_eq_add_of_le hge
    have hcode : e * B + (B + k) = B * (e + 1) + k := by ring
    rw [if_neg (by omega), hcode, Nat.mul_add_div hB, Nat.mul_add_mod]
    rcases Nat.lt_or_ge k B with hlt | hge
    · rw [Nat.div_eq_of_lt hlt, Nat.mod_eq_of_lt hlt]
      rfl
    · -- the next binade begins here
      obtain rfl : k = B := by omega
      rw [Nat.div_self hB, Nat.mod_self]
      show (k + 0) * 2 ^ (e + 1) = (k + k) * 2 ^ e
      rw [Nat.pow_succ]
      ring

theorem exists_significand (F : Format) (c : Nat) :
    ∃ e m, c = e * F.binade + m ∧ m < 2 * F.binade ∧ F.IsSignificand e m := by
  have hB := binade_pos F
  rcases Nat.lt_or_ge c F.binade with hlt | hge
  · exact ⟨0, c, by omega, by omega, .inl rfl, by omega⟩
  · have hmod := Nat.mod_lt c hB
    have hdiv := Nat.div_add_mod c F.binade
    obtain ⟨k, hk⟩ := Nat.exists_eq_add_of_le (Nat.div_pos hge hB)
    rw [hk, Nat.mul_add, Nat.mul_one, Nat.mul_comm F.binade k] at hdiv
    exact ⟨k, F.binade + c % F.binade, by omega, by omega, .inr (by omega), by omega⟩

/-- a number with few enough digits is a magnitude -/
theorem exists_units (hm : m < 2 * F.binade) : ∃ c, F.units c = m * 2 ^ e := by
  induction e generalizing m with
  | zero => exact ⟨_, units_eq ⟨.inl rfl, Nat.le_of_lt hm⟩⟩
  | succ e ih =>
    rcases Nat.lt_or_ge m F.binade with hlt | hge
    · obtain ⟨c, hc⟩ := ih (m := m * 2) (by omega)
      exact ⟨c, by rw [hc, Nat.pow_succ', Nat.mul_assoc]⟩
    · exact ⟨_, units_eq ⟨.inr hge, Nat.le_of_lt hm⟩⟩

theorem lt_of_excess (hp : 0 < F.precision) (q : Nat) : q < 2 * F.binade * 2 ^ F.excess q := by
  rw [two_mul_binade hp, ← Nat.pow_add]
  refine Nat.lt_of_lt_of_le Nat.lt_log2_self (Nat.pow_le_pow_right (by decide) ?_)
  unfold excess
  omega

theorem le_of_excess (hp : 0 < F.precision) (h : 0 < F.excess q) :
    F.binade * 2 ^ F.excess q ≤ q := by
  unfold excess at *
  have hq : q ≠ 0 := by
    rintro rfl
    rw [Nat.log2_zero] at h
    omega
  unfold binade
  show 2 ^ (F.precision - 1) * _ ≤ q
  rw [← Nat.pow_add]
  refine Nat.le_trans (Nat.pow_le_pow_right (by decide) ?_) (Nat.log2_self_le hq)
  omega

theorem excess_mono (h : q ≤ q') : F.excess q ≤ F.excess q' := by
  have hlog : q.log2 ≤ q'.log2 := by
    rw [Nat.log2_eq_log_two, Nat.log2_eq_log_two]
    exact Nat.log_mono_right h
  unfold excess
  omega

theorem excess_eq (hp : 0 < F.precision) (hlt : q < 2 * F.binade * 2 ^ e)
    (hle : e = 0 ∨ F.binade * 2 ^ e ≤ q) : F.excess q = e := by
  -- otherwise the next binade would begin too early
  have hstep : ∀ {a b}, a < b → 2 * F.binade * 2 ^ a ≤ F.binade * 2 ^ b := by
    intro a b hab
    rw [Nat.mul_comm 2, Nat.mul_assoc, ← Nat.pow_succ']
    exact Nat.mul_le_mul_left _ (Nat.pow_le_pow_right (by decide) hab)
  rcases Nat.lt_trichotomy (F.excess q) e with hless | heq | hmore
  · have hbelow := hle.resolve_left (by omega)
    have habove := lt_of_excess hp q
    have := hstep hless
    omega
  · exact heq
  · have hbelow := le_of_excess (q := q) hp (by omega)
    have := hstep hmore
    omega

/-- the integer nearest to what is left of a quotient above its excess is a significand -/
theorem isSignificand_divEven (hp : 0 < F.precision) (hd : 0 < d) :
    F.IsSignificand (F.excess (n / d)) (divEven n (d * 2 ^ F.excess (n / d))) where
  normal := by
    rcases Nat.eq_zero_or_pos (F.excess (n / d)) with hzero | hpos
    · exact .inl hzero
    · right
      have hbelow := le_of_excess hp hpos
      rw [Nat.le_div_iff_mul_le hd] at hbelow
      apply le_divEven (Nat.mul_pos hd (Nat.two_pow_pos _))
      rwa [Nat.mul_comm d, ← Nat.mul_assoc]
  le := by
    have habove := lt_of_excess hp (n / d)
    rw [Nat.div_lt_iff_lt_mul hd] at habove
    apply divEven_le (Nat.mul_pos hd (Nat.two_pow_pos _))
    rw [Nat.mul_comm d, ← Nat.mul_assoc]
    exact Nat.le_of_lt habove

/-! ## to the nearest magnitude -/

theorem nearest_eq (F : Format) (n d : Nat) : F.nearest n d =
    F.excess (n / d) * F.binade + divEven n (d * 2 ^ F.excess (n / d)) := rfl

/-- a greater quotient is not rounded to a lesser magnitude -/
theorem nearest_mono (hp : 0 < F.precision) (hd : 0 < d) (hd' : 0 < d') (h : n * d' ≤ n' * d) :
    F.nearest n d ≤ F.nearest n' d' := by
  have hq := div_le_div_of_mul_le hd hd' h
  have hm := isSignificand_divEven (n := n) hp hd
  have hm' := isSignificand_divEven (n := n') hp hd'
  rw [nearest_eq, nearest_eq]
  rcases Nat.lt_or_eq_of_le (excess_mono (F := F) hq) with hlt | heq
  · -- a significand reaches at most to where those of the next exponent begin
    have hle := hm.le
    have hnormal := hm'.normal.resolve_left (by omega)
    have hexp := Nat.mul_le_mul_right F.binade hlt
    rw [Nat.succ_mul] at hexp
    omega
  · rw [← heq]
    have hpow := Nat.two_pow_pos (F.excess (n / d))
    refine Nat.add_le_add_left (divEven_mono (Nat.mul_pos hd hpow) (Nat.mul_pos hd' hpow) ?_) _
    rw [← Nat.mul_assoc, ← Nat.mul_assoc]
    exact Nat.mul_le_mul_right _ h

/-- a magnitude is not rounded -/
theorem nearest_units (hp : 0 < F.precision) (hd : 0 < d) (c : Nat) :
    F.nearest (F.units c * d) d = c := by
  obtain ⟨e, m, hc, hlt, hm⟩ := exists_significand F c
  have hexcess : F.excess (m * 2 ^ e) = e := by
    refine excess_eq hp (Nat.mul_lt_mul_of_pos_right hlt (Nat.two_pow_pos e)) ?_
    exact hm.normal.imp_right (Nat.mul_le_mul_right _)
  rw [hc, units_eq hm, nearest_eq, Nat.mul_div_cancel _ hd, hexcess, Nat.mul_assoc,
    Nat.mul_comm (2 ^ e), divEven_mul m _ (Nat.mul_pos hd (Nat.two_pow_pos e))]

theorem units_lt_units (hp : 0 < F.precision) (h : c < c') : F.units c < F.units c' := by
  by_contra hle
  have hround := nearest_mono (F := F) hp Nat.one_pos Nat.one_pos
    (Nat.mul_le_mul_right 1 (Nat.mul_le_mul_right 1 (Nat.le_of_not_lt hle)))
  rw [nearest_units hp Nat.one_pos, nearest_units hp Nat.one_pos] at hround
  omega

theorem units_le_units (hp : 0 < F.precision) (h : c ≤ c') : F.units c ≤ F.units c' := by
  rcases Nat.lt_or_eq_of_le h with hlt | rfl
  · exact Nat.le_of_lt (units_lt_units hp hlt)
  · exact Nat.le_refl _

theorem lt_of_units_lt (hp : 0 < F.precision) (h : F.units c < F.units c') : c < c' := by
  by_contra hge
  have hle := units_le_units hp (Nat.le_of_not_lt hge)
  omega

/-- a quotient that is at least a magnitude is not rounded below it -/
theorem le_nearest (hp : 0 < F.precision) (hd : 0 < d) (h : F.units c * d ≤ n) :
    c ≤ F.nearest n d := by
  have hround := nearest_mono (F := F) hp hd hd (Nat.mul_le_mul_right d h)
  rwa [nearest_units hp hd] at hround

theorem nearest_le (hp : 0 < F.precision) (hd : 0 < d) (h : n ≤ F.units c * d) :
    F.nearest n d ≤ c := by
  have hround := nearest_mono (F := F) hp hd hd (Nat.mul_le_mul_right d h)
  rwa [nearest_units hp hd] at hround

end Format

end RangeBearing
