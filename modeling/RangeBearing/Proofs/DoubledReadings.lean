import RangeBearing.Proofs.Scaling

/-!
# Doubled readings

Doubling the readings of a matrix doubles every sum of terms that are scaled with them, as long as
the terms are integers of moderate size or have no more digits than those: nothing underflows, and
the sum of all cells does not overflow.

* `Binary.Bounded`              finite and bounded, `Binary.Bounded.mul`, `Binary.Bounded.add`;
* `Binary.Scaled.sum`           the sums of scaled terms;
* `Brightness.doubled`          a matrix with every reading doubled;
* `Brightness.Doublable`        all of whose doubled readings are 16-bit integers.
-/

namespace RangeBearing

namespace Format

variable {F : Format} {c i j n : Nat}

theorem units_le_of_amount_le (h : F.amount c ≤ n) : F.units c ≤ n * F.one := by
  unfold amount at h
  rw [div_le_iff₀ F.one_cast_pos] at h
  exact_mod_cast h

variable [NeZero F.precision]

/-- a multiple of a power of two with few digits is not rounded -/
theorem round_mul_pow (digits : i < 2 * F.binade) (range : i * 2 ^ j * F.one < F.units F.top) :
    F.round (i * 2 ^ j : Nat) = (i * 2 ^ j : Nat) := by
  obtain ⟨c, hc⟩ := exists_units (F := F) (e := j + F.quantumExponent) digits
  have hone := F.one_cast_pos
  have hunits : F.units c = i * 2 ^ j * F.one := by
    rw [hc, Nat.pow_add, ← Nat.mul_assoc]
    rfl
  have hamount : F.amount c = (i * 2 ^ j : Nat) := by
    unfold amount
    rw [hunits, div_eq_iff hone.ne']
    push_cast
    rfl
  rw [← hunits] at range
  rw [← hamount]
  exact round_amount (Nat.le_of_lt (lt_of_units_lt F.precision_pos range))

end Format

namespace Binary

variable {F : Format} {a b : Binary F} {i j k n n' : Nat} {x : ℚ}

/-! ## bounded numbers -/

/-- a finite number of at most `n` in magnitude -/
structure Bounded (a : Binary F) (n : Nat) : Prop where
  finite : a.isFinite
  value : |a.value| ≤ n

namespace Bounded

theorem mono (h : a.Bounded n) (hle : n ≤ n') : a.Bounded n' where
  finite := h.finite
  value := h.value.trans (Nat.cast_le.mpr hle)

/-- a bound on the value is a bound on the code -/
theorem magnitude_lt [NeZero F.precision] {c : Nat} (h : a.Bounded n)
    (range : n * F.one < F.units c) : a.magnitude < c := by
  have hvalue := h.value
  rw [abs_value (ne_nan_of_isFinite h.finite)] at hvalue
  have hunits := Format.units_le_of_amount_le hvalue
  exact Format.lt_of_units_lt F.precision_pos (Nat.lt_of_le_of_lt hunits range)

variable [NeZero F.precision]

/-- a result that would be in range does not overflow when it is rounded -/
theorem of_round (ha : a ≠ nan) (hround : a.value = F.round x) (hx : |x| ≤ (i * 2 ^ j : Nat))
    (digits : i < 2 * F.binade) (range : i * 2 ^ j * F.one < F.units F.top) :
    a.Bounded (i * 2 ^ j) := by
  have hvalue : |a.value| ≤ (i * 2 ^ j : Nat) := by
    rw [hround, Format.abs_round, ← Format.round_mul_pow digits range]
    exact Format.round_mono hx
  refine ⟨?_, hvalue⟩
  cases a with
  | nan => exact absurd rfl ha
  | finite s c => rfl
  | infinite s =>
    rw [abs_value ha] at hvalue
    exact absurd range (Nat.not_lt_of_le (Format.units_le_of_amount_le hvalue))

theorem mul (ha : a.Bounded (2 ^ i)) (hb : b.Bounded (2 ^ j))
    (range : 2 ^ (i + j) * F.one < F.units F.top) : (a * b).Bounded (2 ^ (i + j)) := by
  have hpos := F.binade_pos
  have hvalue : |a.value * b.value| ≤ (1 * 2 ^ (i + j) : Nat) := by
    rw [abs_mul, Nat.one_mul, Nat.pow_add, Nat.cast_mul]
    exact mul_le_mul ha.value hb.value (abs_nonneg _) (Nat.cast_nonneg _)
  rw [← Nat.one_mul (2 ^ (i + j))] at range ⊢
  exact of_round (mul_ne_nan_of_finite ha.finite hb.finite) (value_mul ha.finite hb.finite) hvalue
    (by omega) range

/-- one more term -/
theorem add (ha : a.Bounded (i * 2 ^ j)) (hb : b.Bounded (2 ^ j)) (digits : i + 1 < 2 * F.binade)
    (range : (i + 1) * 2 ^ j * F.one < F.units F.top) : (a + b).Bounded ((i + 1) * 2 ^ j) := by
  have hvalue : |a.value + b.value| ≤ ((i + 1) * 2 ^ j : Nat) := by
    rw [Nat.succ_mul, Nat.cast_add]
    exact (abs_add_le _ _).trans (add_le_add ha.value hb.value)
  exact of_round (add_ne_nan ha.finite hb.finite) (value_add ha.finite hb.finite) hvalue digits
    range

end Bounded

/-! ## sums of scaled terms -/

namespace Scaled

variable [NeZero F.precision] {α : Type} {f f' : α → Binary F} {s s' : Binary F}

/-- induction on the terms; `i` of at most `n` of them have been added -/
theorem sum (hf : ∀ x, Scaled k (f x) (f' x)) (hterm : ∀ x, (f' x).Bounded (2 ^ j))
    (digits : n < 2 * F.binade) (range : n * 2 ^ j * F.one < F.units F.top) (l : List α)
    (hlength : i + l.length ≤ n) (hs : Scaled k s s') (hsum : s'.Bounded (i * 2 ^ j)) :
    Scaled k (l.foldl (fun sum x => sum + f x) s) (l.foldl (fun sum x => sum + f' x) s') ∧
      (l.foldl (fun sum x => sum + f' x) s').Bounded (n * 2 ^ j) := by
  induction l generalizing i s s' with
  | nil => exact ⟨hs, hsum.mono (Nat.mul_le_mul_right _ hlength)⟩
  | cons x l ih =>
    rw [List.length_cons] at hlength
    have hnext : i + 1 ≤ n := by omega
    have hrange := Nat.mul_le_mul_right F.one (Nat.mul_le_mul_right (2 ^ j) hnext)
    have hbound := hsum.add (hterm x) (Nat.lt_of_le_of_lt hnext digits)
      (Nat.lt_of_le_of_lt hrange range)
    exact ih (by omega) (hs.add (hf x) hbound.finite) hbound

theorem zero_zero (htop : 0 < F.top) : Scaled k (0 : Binary F) 0 := by
  have hfinite := zero_isFinite htop
  rw [zero_eq] at hfinite ⊢
  exact zero hfinite

/-- the sum of a term for each cell of a grid -/
theorem sum_pairs {f f' : Direction × Direction → Binary32} (hf : ∀ p, Scaled k (f p) (f' p))
    (hterm : ∀ p, (f' p).Bounded (2 ^ j))
    (range : 36 * 2 ^ j * Format.binary32.one < Format.binary32.units Format.binary32.top) :
    Scaled k (Grid.pairs.foldl (fun sum p => sum + f p) 0)
        (Grid.pairs.foldl (fun sum p => sum + f' p) 0) ∧
      (Grid.pairs.foldl (fun sum p => sum + f' p) 0).Bounded (36 * 2 ^ j) := by
  have hzero : (0 : Binary32).Bounded (0 * 2 ^ j) := by
    refine ⟨zero_isFinite (by decide), ?_⟩
    rw [value_zero, abs_zero]
    exact Nat.cast_nonneg _
  exact sum hf hterm (by decide) range Grid.pairs (by decide) (zero_zero (by decide)) hzero

end Scaled

end Binary

namespace Brightness

open Binary

variable {m : Brightness} {v w : Int16}

/-- every reading doubled, in 16 bits -/
def doubled (m : Brightness) : Brightness := m.map (2 * ·)

/-- no doubled reading leaves the 16 bits -/
def Doublable (m : Brightness) : Prop :=
  ∀ e s, -0x8000 ≤ 2 * (m.get e s).toInt ∧ 2 * (m.get e s).toInt ≤ 0x7fff

instance (m : Brightness) : Decidable m.Doublable :=
  inferInstanceAs (Decidable (∀ e s, -0x8000 ≤ 2 * (m.get e s).toInt ∧
    2 * (m.get e s).toInt ≤ 0x7fff))

theorem toInt_doubled (h : m.Doublable) (e s : Direction) :
    (m.doubled.get e s).toInt = 2 * (m.get e s).toInt := by
  obtain ⟨hlow, hhigh⟩ := h e s
  have htwo : (2 : Int16).toInt = 2 := by decide
  unfold doubled
  rw [Grid.get_map, Int16.toInt_mul, htwo]
  exact Int.bmod_eq_of_le (by omega) (by omega)

theorem number_scaled (h : w.toInt = 2 * v.toInt) : Scaled 1 (number v) (number w) := by
  obtain ⟨c, hc, hunits⟩ := ofInt_eq (reading_fits v).1 (reading_fits v).2
  obtain ⟨d, hd, hunits'⟩ := ofInt_eq (reading_fits w).1 (reading_fits w).2
  have hsign : decide (w.toInt < 0) = decide (v.toInt < 0) := by
    rw [h, decide_eq_decide]
    omega
  unfold number
  rw [hc, hd, hsign]
  refine .intro ?_
  rw [hunits, hunits', h, Int.natAbs_mul, Nat.mul_assoc]
  rfl

theorem number_bounded (v : Int16) : (number v).Bounded (2 ^ 15) := by
  refine ⟨number_isFinite v, ?_⟩
  rw [value_number, ← Int.cast_abs, Int.abs_eq_natAbs, Int.cast_natCast]
  exact_mod_cast natAbs_reading v

/-- a reading that is not zero is at least one in magnitude -/
theorem value_number_cases (v : Int16) : (number v).value = 0 ∨ 1 ≤ |(number v).value| := by
  rw [value_number, ← Int.cast_abs]
  rcases eq_or_ne v.toInt 0 with hzero | hne
  · exact .inl (by rw [hzero, Int.cast_zero])
  · exact .inr (by exact_mod_cast Int.one_le_abs hne)

/-- nothing from a half on underflows -/
theorem amount_binade_le : Format.binary32.amount Format.binary32.binade ≤ 1 / 2 := by
  have hone := Format.binary32.one_cast_pos
  have hunits : 2 * Format.binary32.units Format.binary32.binade ≤ Format.binary32.one := by decide
  have hunits : (2 * Format.binary32.units Format.binary32.binade : ℚ) ≤ Format.binary32.one := by
    exact_mod_cast hunits
  unfold Format.amount
  rw [div_le_iff₀ hone]
  linarith

theorem square_scaled (h : w.toInt = 2 * v.toInt) :
    Scaled 2 (number v * number v) (number w * number w) ∧
      (number w * number w).Bounded (2 ^ 30) := by
  have hreading := number_scaled h
  have hbound := (number_bounded w).mul (number_bounded w) (by decide)
  refine ⟨hreading.mul hreading ?_ hbound.finite, hbound⟩
  rcases value_number_cases v with hzero | hone
  · left
    rw [hzero, mul_zero]
  · right
    rw [abs_mul]
    have hsquare := one_le_mul_of_one_le_of_one_le hone hone
    linarith [amount_binade_le]

end Brightness

end RangeBearing
