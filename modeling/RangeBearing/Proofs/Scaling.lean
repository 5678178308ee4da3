import RangeBearing.Binary.Root
import RangeBearing.Proofs.Bounds
import RangeBearing.Proofs.Exactness

/-!
# Scaling by powers of two

Multiplying by a power of two moves the exponent and leaves the significand alone, so rounding does
not notice it, as long as nothing underflows or overflows.  A sum of scaled terms cannot underflow,
because whole units are not rounded where the significands end, and the root of a number in a wide
format is never small.

* `Format.nearest_mul_pow`      rounding of a quotient with a full significand;
* `Format.units_nearest_mul_pow`   rounding of whole units;
* `Binary.Scaled`               `2 ^ k` times a finite datum;
* `Binary.Scaled.add`, `Binary.Scaled.mul`, `Binary.Scaled.sqrt`, `Binary.Scaled.div_eq`.
-/

namespace RangeBearing

theorem divEven_mul_mul {k : Nat} (hk : 0 < k) (n d : Nat) :
    divEven (k * n) (k * d) = divEven n d := by
  have hcompare {x y : Nat} : k * x < k * y ↔ x < y := Nat.mul_lt_mul_left hk
  unfold divEven
  dsimp only
  rw [Nat.mul_div_mul_left _ _ hk, Nat.mul_mod_mul_left, Nat.mul_left_comm]
  simp only [hcompare]

/-- rounding does not tell apart what lies between two neighbouring multiples of four -/
theorem divEven_between {i : Nat} (n d : Nat) (hi : 0 < i) (hi' : i < 4) :
    divEven (4 * n + i) (4 * (2 * d)) =
      if n % (2 * d) < d then n / (2 * d) else n / (2 * d) + 1 := by
  have hquarter : (4 * n + i) / 4 = n := by omega
  have hrest : (4 * n + i) % 4 = i := by omega
  have hdiv : (4 * n + i) / (4 * (2 * d)) = n / (2 * d) := by
    rw [← Nat.div_div_eq_div_mul, hquarter]
  have hmod : (4 * n + i) % (4 * (2 * d)) = i + 4 * (n % (2 * d)) := by
    rw [Nat.mod_mul, hquarter, hrest]
  unfold divEven
  dsimp only
  rw [hdiv, hmod]
  split_ifs <;> omega

theorem two_mul_sqrt_le_doubledRoot (n : Nat) : 2 * n.sqrt ≤ doubledRoot n := by
  unfold doubledRoot
  dsimp only
  split <;> omega

/-- the root of four times a square is twice the root, and that of another number lies with twice
the root between two neighbouring multiples of four -/
theorem doubledRoot_four_mul (n : Nat) : doubledRoot (4 * n) = 2 * doubledRoot n ∨
    2 * doubledRoot n = 4 * n.sqrt + 2 ∧
      ∃ i, 0 < i ∧ i < 4 ∧ doubledRoot (4 * n) = 4 * n.sqrt + i := by
  have hlow := Nat.sqrt_le n
  have hhigh := Nat.lt_succ_sqrt n
  unfold doubledRoot
  dsimp only
  generalize n.sqrt = r at *
  rcases Nat.lt_or_eq_of_le hlow with hlt | heq
  · right
    rw [if_neg hlt.ne]
    refine ⟨by ring, ?_⟩
    have hle : 2 * r ≤ (4 * n).sqrt := Nat.le_sqrt.mpr (by nlinarith)
    have hlt' : (4 * n).sqrt < 2 * r + 2 := Nat.sqrt_lt.mpr (by nlinarith)
    -- the square of an even root is less than the number, that of an odd one is odd
    obtain hroot | hroot : (4 * n).sqrt = 2 * r ∨ (4 * n).sqrt = 2 * r + 1 := by omega
    · refine ⟨1, by decide, by decide, ?_⟩
      have hsquare : 2 * r * (2 * r) ≠ 4 * n := by nlinarith
      rw [hroot, if_neg hsquare]
      ring
    · refine ⟨3, by decide, by decide, ?_⟩
      have hsquare : (2 * r + 1) * (2 * r + 1) = 4 * (r * r + r) + 1 := by ring
      rw [hroot, hsquare, if_neg (by omega)]
      ring
  · left
    have hroot : (4 * n).sqrt = 2 * r := by
      rw [← heq, ← Nat.sqrt_eq (2 * r)]
      congr 1
      ring
    have hsquare : 2 * r * (2 * r) = 4 * n := by
      rw [← heq]
      ring
    rw [hroot, if_pos hsquare, if_pos heq]

namespace Format

variable {F : Format} {n d c c' k e : Nat}

/-! ## codes -/

/-- `k` binades up -/
theorem units_add_binade (h : F.binade ≤ c) : F.units (c + k * F.binade) = 2 ^ k * F.units c := by
  obtain ⟨e, m, rfl, hm, hsig⟩ := exists_significand F c
  have hnormal : F.binade ≤ m := by
    rcases hsig.normal with rfl | hnormal
    · omega
    · exact hnormal
  have hcode : e * F.binade + m + k * F.binade = (e + k) * F.binade + m := by ring
  rw [hcode, units_eq hsig, units_eq ⟨.inr hnormal, hsig.le⟩, Nat.pow_add]
  ring

theorem units_zero (F : Format) : F.units 0 = 0 := if_pos F.binade_pos

theorem units_binade (F : Format) : F.units F.binade = F.binade := by
  have h := units_eq (F := F) (e := 0) (m := F.binade) ⟨.inl rfl, by omega⟩
  simpa using h

/-! ## rounding -/

section
variable (hp : 0 < F.precision)
include hp

/-- a quotient with a full significand -/
theorem excess_mul_pow (hd : 0 < d) (h : F.binade * d ≤ n) :
    F.excess (2 ^ k * n / d) = F.excess (n / d) + k := by
  have hle : F.binade ≤ n / d := (Nat.le_div_iff_mul_le hd).mpr h
  have hlt := lt_of_excess (F := F) hp (n / d)
  apply excess_eq hp
  · rw [Nat.div_lt_iff_lt_mul hd] at hlt ⊢
    calc 2 ^ k * n < 2 ^ k * (2 * F.binade * 2 ^ F.excess (n / d) * d) :=
          Nat.mul_lt_mul_of_pos_left hlt (Nat.two_pow_pos k)
      _ = 2 * F.binade * 2 ^ (F.excess (n / d) + k) * d := by
          rw [Nat.pow_add]
          ring
  · right
    have hbelow : F.binade * 2 ^ F.excess (n / d) ≤ n / d := by
      rcases Nat.eq_zero_or_pos (F.excess (n / d)) with hzero | hpos
      · rw [hzero, Nat.pow_zero, Nat.mul_one]
        exact hle
      · exact le_of_excess hp hpos
    rw [Nat.le_div_iff_mul_le hd] at hbelow ⊢
    calc F.binade * 2 ^ (F.excess (n / d) + k) * d
        = 2 ^ k * (F.binade * 2 ^ F.excess (n / d) * d) := by
          rw [Nat.pow_add]
          ring
      _ ≤ 2 ^ k * n := Nat.mul_le_mul_left _ hbelow

/-- from a full significand on, only the exponent moves -/
theorem nearest_mul_pow (hd : 0 < d) (h : F.binade * d ≤ n) :
    F.nearest (2 ^ k * n) d = F.nearest n d + k * F.binade := by
  have hpow : d * 2 ^ (F.excess (n / d) + k) = 2 ^ k * (d * 2 ^ F.excess (n / d)) := by
    rw [Nat.pow_add]
    ring
  rw [nearest_eq, nearest_eq, excess_mul_pow hp hd h, hpow, divEven_mul_mul (Nat.two_pow_pos k)]
  ring

theorem units_eq_zero_iff : F.units c = 0 ↔ c = 0 := by
  constructor
  · intro h
    by_contra hc
    have hlt := units_lt_units hp (Nat.pos_of_ne_zero hc)
    omega
  · rintro rfl
    exact F.units_zero

theorem binade_le_nearest (hd : 0 < d) (h : F.binade * d ≤ n) : F.binade ≤ F.nearest n d := by
  apply le_nearest hp hd
  rwa [units_binade]

/-- a whole number of units that is not full is not rounded, so it need not be full -/
theorem units_nearest_mul_pow (n k : Nat) :
    F.units (F.nearest (2 ^ k * n) 1) = 2 ^ k * F.units (F.nearest n 1) := by
  rcases Nat.lt_or_ge n F.binade with hlt | hge
  · have hexact (j : Nat) : F.units (F.nearest (2 ^ j * n) 1) = 2 ^ j * n := by
      obtain ⟨c, hc⟩ := exists_units (F := F) (e := j) (m := n) (by omega)
      have hround := nearest_units (F := F) hp Nat.one_pos c
      rw [Nat.mul_one, hc, Nat.mul_comm] at hround
      rw [hround, hc, Nat.mul_comm]
    have hn := hexact 0
    rw [Nat.pow_zero, Nat.one_mul] at hn
    rw [hexact k, hn]
  · have hfull : F.binade * 1 ≤ n := by omega
    rw [nearest_mul_pow hp Nat.one_pos hfull,
      units_add_binade (binade_le_nearest hp Nat.one_pos hfull)]

/-- a number of halves between two neighbouring multiples of four, with so many digits that
rounding does not tell it from their mean -/
theorem nearest_between {r i : Nat} (hr : 2 * F.binade ≤ r) (hi : 0 < i) (hi' : i < 4) :
    F.nearest (4 * r + i) 2 = F.nearest (4 * r + 2) 2 := by
  have habove := lt_of_excess (F := F) hp (2 * r)
  obtain ⟨e, he⟩ : ∃ e, F.excess (2 * r) = e + 2 := by
    refine ⟨F.excess (2 * r) - 2, ?_⟩
    by_contra hsmall
    have hpow : 2 ^ F.excess (2 * r) ≤ 2 ^ 1 := Nat.pow_le_pow_right (by decide) (by omega)
    have := Nat.mul_le_mul_left (2 * F.binade) hpow
    omega
  have hbelow := le_of_excess (F := F) (q := 2 * r) hp (by omega)
  rw [he] at habove hbelow
  have hwhole {j : Nat} (hj : j < 4) : F.excess ((4 * r + j) / 2) = e + 2 := by
    refine excess_eq hp ?_ (.inr (by omega))
    have heven : 2 * F.binade * 2 ^ (e + 2) = 2 * (F.binade * 2 ^ (e + 2)) := Nat.mul_assoc _ _ _
    omega
  have hpow : 2 * 2 ^ (e + 2) = 4 * (2 * 2 ^ e) := by
    rw [Nat.pow_add]
    ring
  rw [nearest_eq, nearest_eq, hwhole hi', hwhole (by decide), hpow, divEven_between r _ hi hi',
    divEven_between r _ (by decide) (by decide)]

theorem nearest_doubledRoot_four_mul (hr : 2 * F.binade ≤ n.sqrt) :
    F.nearest (doubledRoot (4 * n)) 2 = F.nearest (2 * doubledRoot n) 2 := by
  rcases doubledRoot_four_mul n with heq | ⟨htwice, i, hi, hi', hfour⟩
  · rw [heq]
  · rw [hfour, htwice, nearest_between hp hr hi hi']

/-- a multiple of a power of two remains one -/
theorem dvd_units_nearest (h : 2 ^ e ∣ n) : 2 ^ e ∣ F.units (F.nearest n 1) := by
  have hsig := isSignificand_divEven (F := F) (n := n) hp Nat.one_pos
  rw [nearest_eq, units_eq hsig, Nat.div_one, Nat.one_mul]
  rcases Nat.le_total e (F.excess n) with hle | hle
  · exact Dvd.dvd.mul_left (Nat.pow_dvd_pow 2 hle) _
  · -- it has few enough digits
    obtain ⟨q, hq⟩ := (Nat.pow_dvd_pow 2 hle).trans h
    have hexact : divEven n (2 ^ F.excess n) = q := by
      rw [congrArg (divEven · _) (hq.trans (Nat.mul_comm _ _))]
      exact divEven_mul q _ (Nat.two_pow_pos _)
    rw [hexact, Nat.mul_comm, ← hq]
    exact h

end

theorem amount_half : binary32.amount 0x3f000000 = 1 / 2 := by
  have hunits : 2 * binary32.units 0x3f000000 = binary32.one := by decide
  have hone := binary32.one_cast_pos
  unfold amount
  rw [← hunits] at hone ⊢
  push_cast at hone ⊢
  rw [div_eq_div_iff hone.ne' two_ne_zero]
  ring

theorem amount_one : binary32.amount 0x3f800000 = 1 := by
  have hunits : binary32.units 0x3f800000 = binary32.one := by decide
  unfold amount
  rw [hunits, div_self binary32.one_cast_pos.ne']

end Format

namespace Binary

variable {F : Format} {a a' b b' : Binary F} {j k : Nat}

/-! ## data -/

theorem abs_value (ha : a ≠ nan) : |a.value| = F.amount a.magnitude := by
  rw [value_of_ne_nan ha, abs_signed _ (F.amount_nonneg _)]

theorem value_eq (ha : a.isFinite) : a.value = a.signedUnits / F.one := by
  obtain ⟨s, c, rfl⟩ := exists_finite ha
  exact value_finite s c

/-- a zero, or a datum with a full significand -/
def Full (a : Binary F) : Prop := a.magnitude = 0 ∨ F.binade ≤ a.magnitude

/-- the second datum is `2 ^ k` times the first one, and both are finite -/
inductive Scaled (k : Nat) : Binary F → Binary F → Prop
  | intro {s : Bool} {c d : Fin F.top} (h : F.units d = 2 ^ k * F.units c) :
      Scaled k (finite s c) (finite s d)

theorem isFinite_of_lt_top (h : a.magnitude < F.top) : a.isFinite := by
  cases a with
  | nan => exact absurd h (Nat.not_lt_of_le (Nat.le_succ _))
  | infinite s => exact absurd h (Nat.lt_irrefl _)
  | finite s c => rfl

theorem lt_top_of_isFinite {s : Bool} {c : Nat} (h : (ofCode (F := F) s c).isFinite) :
    c < F.top := by
  by_contra hle
  rw [ofCode, dif_neg hle] at h
  cases h

namespace Scaled

theorem self (ha : a.isFinite) : Scaled 0 a a := by
  obtain ⟨s, c, rfl⟩ := exists_finite ha
  exact .intro (by rw [Nat.pow_zero, Nat.one_mul])

theorem isFinite (h : Scaled k a b) : a.isFinite ∧ b.isFinite := by
  obtain ⟨-⟩ := h
  exact ⟨rfl, rfl⟩

theorem isNegative (h : Scaled k a b) : b.isNegative = a.isNegative := by
  obtain ⟨-⟩ := h
  rfl

theorem signedUnits (h : Scaled k a b) : b.signedUnits = 2 ^ k * a.signedUnits := by
  obtain @⟨s, c, d, hunits⟩ := h
  cases s with
  | true =>
    show -(F.units d : Int) = 2 ^ k * -(F.units c : Int)
    rw [hunits, Int.mul_neg]
    push_cast
    rfl
  | false =>
    show (F.units d : Int) = 2 ^ k * (F.units c : Int)
    rw [hunits]
    push_cast
    rfl

theorem value (h : Scaled k a b) : b.value = 2 ^ k * a.value := by
  have hunits := h.signedUnits
  obtain @⟨s, c, d, -⟩ := h
  rw [value_finite, value_finite, hunits]
  push_cast
  ring

variable [NeZero F.precision]

theorem pos_iff (h : Scaled k a b) : 0 < b ↔ 0 < a := by
  have hpow : (0 : ℚ) < 2 ^ k := by positivity
  obtain ⟨ha, hb⟩ := h.isFinite
  rw [lt_iff_value zero_ne_nan (ne_nan_of_isFinite ha),
    lt_iff_value zero_ne_nan (ne_nan_of_isFinite hb), value_zero, h.value]
  exact mul_pos_iff_of_pos_left hpow

/-! ## codes of scaled data -/

theorem magnitude_eq_zero_iff (h : Scaled k a b) : b.magnitude = 0 ↔ a.magnitude = 0 := by
  obtain @⟨s, c, d, hunits⟩ := h
  show d.val = 0 ↔ c.val = 0
  rw [← Format.units_eq_zero_iff F.precision_pos, hunits, Nat.mul_eq_zero,
    or_iff_right (Nat.two_pow_pos k).ne', Format.units_eq_zero_iff F.precision_pos]

theorem eq_of_zero (h : Scaled k a b) (hzero : a.magnitude = 0) : b = a := by
  have hzero' := h.magnitude_eq_zero_iff.mpr hzero
  obtain @⟨s, c, d, -⟩ := h
  exact congrArg (Binary.finite s) (Fin.ext (hzero'.trans hzero.symm))

theorem magnitude_le (h : Scaled k a b) : a.magnitude ≤ b.magnitude := by
  obtain @⟨s, c, d, hunits⟩ := h
  apply Format.code_le_of_units_le (F := F)
  show F.units c ≤ F.units d
  rw [hunits]
  exact Nat.le_mul_of_pos_left _ (Nat.two_pow_pos k)

/-- a full significand keeps its digits -/
theorem magnitude_eq (h : Scaled k a b) (ha : a.Full) (hzero : a.magnitude ≠ 0) :
    b.magnitude = a.magnitude + k * F.binade := by
  have hfull := ha.resolve_left hzero
  obtain @⟨s, c, d, hunits⟩ := h
  have hscaled := (Format.units_add_binade (k := k) hfull).trans hunits.symm
  exact Nat.le_antisymm (Format.code_le_of_units_le hscaled.ge)
    (Format.code_le_of_units_le hscaled.le)

/-- scaled codes -/
theorem of_units {s : Bool} {c d : Nat} (hfinite : (ofCode (F := F) s d).isFinite)
    (h : F.units d = 2 ^ k * F.units c) : Scaled k (ofCode (F := F) s c) (ofCode s d) := by
  have hd := lt_top_of_isFinite hfinite
  have hle : c ≤ d := by
    apply Format.code_le_of_units_le (F := F)
    rw [h]
    exact Nat.le_mul_of_pos_left _ (Nat.two_pow_pos k)
  have hc : c < F.top := Nat.lt_of_le_of_lt hle hd
  rw [ofCode, ofCode, dif_pos hc, dif_pos hd]
  exact .intro h

theorem zero {s : Bool} (hfinite : (Binary.zero (F := F) s).isFinite) :
    Scaled k (Binary.zero (F := F) s) (Binary.zero s) := by
  exact of_units hfinite (by rw [F.units_zero, Nat.mul_zero])

theorem ofUnits {i i' : Int} (h : i' = 2 ^ k * i) (hfinite : (ofUnits (F := F) i').isFinite) :
    Scaled k (ofUnits (F := F) i) (Binary.ofUnits i') := by
  have hpow : (0 : Int) < 2 ^ k := Int.pow_pos (by decide)
  have hsign : decide (i' < 0) = decide (i < 0) := by
    rw [h, decide_eq_decide]
    constructor
    · intro hneg
      by_contra hle
      exact absurd hneg (Int.not_lt.mpr (Int.mul_nonneg hpow.le (Int.not_lt.mp hle)))
    · exact Int.mul_neg_of_pos_of_neg hpow
  have habs : i'.natAbs = 2 ^ k * i.natAbs := by
    rw [h, Int.natAbs_mul, Int.natAbs_pow]
    rfl
  unfold Binary.ofUnits ofRatio at *
  rw [hsign, habs] at hfinite ⊢
  exact of_units hfinite (Format.units_nearest_mul_pow F.precision_pos _ _)

theorem add (ha : Scaled k a a') (hb : Scaled k b b') (hfinite : (a' + b').isFinite) :
    Scaled k (a + b) (a' + b') := by
  have hsum : a'.signedUnits + b'.signedUnits = 2 ^ k * (a.signedUnits + b.signedUnits) := by
    rw [ha.signedUnits, hb.signedUnits, Int.mul_add]
  have hpow : (2 : Int) ^ k ≠ 0 := (Int.pow_pos (by decide)).ne'
  obtain @⟨s, c, c', -⟩ := ha
  obtain @⟨t, d, d', -⟩ := hb
  rw [add_finite] at hfinite ⊢
  rw [add_finite]
  by_cases hzero : (finite s c).signedUnits + (finite t d).signedUnits = 0
  · have hzero' : (finite s c').signedUnits + (finite t d').signedUnits = 0 := by
      rw [hsum, hzero, Int.mul_zero]
    rw [if_pos hzero'] at hfinite ⊢
    rw [if_pos hzero]
    exact zero hfinite
  · have hzero' : (finite s c').signedUnits + (finite t d').signedUnits ≠ 0 := by
      rw [hsum]
      exact Int.mul_ne_zero hpow hzero
    rw [if_neg hzero'] at hfinite ⊢
    rw [if_neg hzero]
    exact ofUnits hsum hfinite

omit [NeZero F.precision] in
/-- the exact product of two magnitudes, as a value and in units -/
theorem full_iff {s t : Bool} {c d : Fin F.top} :
    F.amount F.binade ≤ |(finite s c).value * (finite t d).value| ↔
      F.binade * F.one ≤ F.units c * F.units d := by
  have hone := F.one_pos
  show _ ≤ |signed s (F.amount c) * signed t (F.amount d)| ↔ _
  rw [signed_mul, abs_signed _ (mul_nonneg (F.amount_nonneg _) (F.amount_nonneg _))]
  unfold Format.amount
  rw [Format.units_binade, div_mul_div_comm, ← Nat.cast_mul, ← Nat.cast_mul,
    Format.natCast_div_le_iff hone (Nat.mul_pos hone hone), ← Nat.mul_assoc]
  exact ⟨fun h => Nat.le_of_mul_le_mul_right h hone, Nat.mul_le_mul_right _⟩

/-- a product that is a zero or has a full significand -/
theorem mul (ha : Scaled j a a') (hb : Scaled k b b')
    (full : a.value * b.value = 0 ∨ F.amount F.binade ≤ |a.value * b.value|)
    (hfinite : (a' * b').isFinite) : Scaled (j + k) (a * b) (a' * b') := by
  obtain @⟨s, c, c', hc⟩ := ha
  obtain @⟨t, d, d', hd⟩ := hb
  have hunits : F.units c' * F.units d' = 2 ^ (j + k) * (F.units c * F.units d) := by
    rw [hc, hd, Nat.pow_add]
    ring
  change (ofCode _ (F.nearest (F.units c' * F.units d') F.one)).isFinite at hfinite
  show Scaled _ (ofCode (s != t) (F.nearest (F.units c * F.units d) F.one)) (ofCode (s != t) _)
  refine of_units hfinite ?_
  rw [hunits]
  rcases full with hzero | hfull
  · have hproduct : F.units c * F.units d = 0 := by
      rcases mul_eq_zero.mp hzero with hzero | hzero
      · rw [value_eq_zero_iff.mp hzero, F.units_zero, Nat.zero_mul]
      · rw [value_eq_zero_iff.mp hzero, F.units_zero, Nat.mul_zero]
    rw [hproduct, Nat.mul_zero, F.nearest_zero _ F.precision_pos F.one_pos, F.units_zero,
      Nat.mul_zero]
  · have hfull := full_iff.mp hfull
    rw [Format.nearest_mul_pow F.precision_pos F.one_pos hfull,
      Format.units_add_binade (Format.binade_le_nearest F.precision_pos F.one_pos hfull)]

/-- a quotient does not notice a common factor -/
theorem div_eq (ha : Scaled k a a') (hb : Scaled k b b') : a' / b' = a / b := by
  obtain @⟨s, c, c', hc⟩ := ha
  obtain @⟨t, d, d', hd⟩ := hb
  have hpow : 0 < 2 ^ k := Nat.two_pow_pos k
  have hzero {x y : Fin F.top} (h : F.units y = 2 ^ k * F.units x) : y.val = 0 ↔ x.val = 0 :=
    (Scaled.intro (s := s) h).magnitude_eq_zero_iff
  show (if d'.val = 0 then if c'.val = 0 then nan else infinite (s != t) else _) =
    (if d.val = 0 then if c.val = 0 then nan else infinite (s != t) else _)
  by_cases hdenominator : d.val = 0
  · simp only [hzero hc, hzero hd, hdenominator, if_true]
  · have hpos : 0 < F.units d :=
      Nat.pos_of_ne_zero (mt (Format.units_eq_zero_iff F.precision_pos).mp hdenominator)
    rw [if_neg hdenominator, if_neg (mt (hzero hd).mp hdenominator), hc, hd]
    refine congrArg (ofCode _) (Format.nearest_congr (Nat.mul_pos hpow hpos) hpos ?_)
    ring

/-- the root has a full significand, as every root of a positive number has in a wide format -/
theorem sqrt (wide : (2 * F.binade) * (2 * F.binade) ≤ F.one) (h : Scaled 2 a b) (ha : 0 < a)
    (hfinite : b.sqrt.isFinite) : Scaled 1 a.sqrt b.sqrt := by
  obtain @⟨s, c, d, hunits⟩ := h
  obtain rfl : s = false := isNegative_of_pos ha
  have hc : c.val ≠ 0 := fun hc => (value_pos ha).ne' (value_eq_zero_iff.mpr hc)
  have hpos : 0 < F.units c :=
    Nat.pos_of_ne_zero (mt (Format.units_eq_zero_iff F.precision_pos).mp hc)
  have hd : d.val ≠ 0 := fun hd => by
    rw [hd, F.units_zero] at hunits
    omega
  have hroot : 2 * F.binade ≤ (F.units c * F.one).sqrt :=
    Nat.le_sqrt.mpr (wide.trans (Nat.le_mul_of_pos_left _ hpos))
  have hfour : F.units d * F.one = 4 * (F.units c * F.one) := by
    rw [hunits]
    ring
  rw [sqrt_finite hd, hfour] at hfinite ⊢
  rw [sqrt_finite hc]
  refine of_units hfinite ?_
  rw [Format.nearest_doubledRoot_four_mul F.precision_pos hroot]
  have hfull : F.binade * 2 ≤ doubledRoot (F.units c * F.one) := by
    have := two_mul_sqrt_le_doubledRoot (F.units c * F.one)
    omega
  have htwice := Format.nearest_mul_pow (F := F) (k := 1) F.precision_pos Nat.two_pos hfull
  rw [Nat.pow_one] at htwice
  rw [htwice, Format.units_add_binade (Format.binade_le_nearest F.precision_pos Nat.two_pos hfull)]

end Scaled

end Binary

end RangeBearing
