import RangeBearing.Proofs.Rounding

/-!
# Magnitudes

Multiplying by a constant, rounding to an integer and reading as an integer keep the order of the
magnitudes of numbers.  A bound on a number is therefore a bound on what is computed from it, and
only the bound itself has to be computed.

* `Binary.magnitude_ofRatio`      the code of a rounded number;
* `Binary.mul_mono`, `Binary.round_mono`, `Binary.toUInt16_mono`;
* `Binary.Within`                 no number, or one that is bounded by another in magnitude;
* `Binary.le_max`                 the greater of a datum and a number that is not below zero.
-/

namespace RangeBearing

namespace Binary

variable {F : Format} {a b : Binary F}

/-! ## codes and signs of what is computed -/

theorem magnitude_ofCode (s : Bool) (c : Nat) :
    (ofCode (F := F) s c).magnitude = min c F.top := by
  unfold ofCode
  split
  case isTrue h => exact (Nat.min_eq_left (Nat.le_of_lt h)).symm
  case isFalse h => exact (Nat.min_eq_right (Nat.le_of_not_lt h)).symm

theorem magnitude_ofRatio (s : Bool) (n d : Nat) :
    (ofRatio (F := F) s n d).magnitude = min (F.nearest n d) F.top := magnitude_ofCode s _

theorem isNegative_ofCode (s : Bool) (c : Nat) : (ofCode (F := F) s c).isNegative = s := by
  unfold ofCode
  split
  · rfl
  · rfl

theorem ofCode_ne_nan (s : Bool) (c : Nat) : ofCode (F := F) s c ≠ nan := by
  unfold ofCode
  split
  · exact nofun
  · exact nofun

theorem magnitude_le_top (ha : a ≠ nan) : a.magnitude ≤ F.top := by
  cases a with
  | nan => exact absurd rfl ha
  | infinite s => exact Nat.le_refl _
  | finite s c => exact Nat.le_of_lt c.isLt

theorem ne_nan_of_le (h : a.magnitude ≤ F.top) : a ≠ nan := by
  rintro rfl
  exact absurd h (Nat.not_succ_le_self _)

theorem finite_of_le {s : Bool} {c : Fin F.top} (h : a.magnitude ≤ (finite s c).magnitude) :
    ∃ s' c', a = finite s' c' ∧ c' ≤ c := by
  cases a with
  | nan => exact absurd (Nat.lt_of_succ_le h) (Nat.not_lt_of_lt c.isLt)
  | infinite s' => exact absurd h (Nat.not_le_of_lt c.isLt)
  | finite s' c' => exact ⟨s', c', rfl, h⟩

theorem finite_of_signedUnits_pos (h : 0 < a.signedUnits) : ∃ c, a = finite false c := by
  cases a with
  | nan => exact absurd h (Int.lt_irrefl 0)
  | infinite s => exact absurd h (Int.lt_irrefl 0)
  | finite s c =>
    cases s with
    | true =>
      simp only [signedUnits] at h
      omega
    | false => exact ⟨c, rfl⟩

theorem key?_eq (ha : a ≠ nan) :
    a.key? = some (if a.isNegative then -(a.magnitude : Int) else a.magnitude) := by
  cases a with
  | nan => exact absurd rfl ha
  | infinite s => rfl
  | finite s c => rfl

/-! ## order -/

theorem finite_le_iff {s t : Bool} {c d : Fin F.top} : finite s c ≤ finite t d ↔
    (if s then -(c.val : Int) else c.val) ≤ if t then -(d.val : Int) else d.val := by
  simp [le_iff, key?]

theorem finite_lt_iff {s t : Bool} {c d : Fin F.top} : finite s c < finite t d ↔
    (if s then -(c.val : Int) else c.val) < if t then -(d.val : Int) else d.val := by
  simp [lt_iff, key?]

theorem not_nan_le (b : Binary F) : ¬ nan ≤ b := by
  simp [le_iff, key?]

theorem not_lt_nan (a : Binary F) : ¬ a < nan := by
  simp [lt_iff, key?]

variable (hp : 0 < F.precision)

section
variable {s t : Bool} {d : Fin F.top}

theorem magnitude_mul (s t : Bool) (c d : Fin F.top) : (finite s c * finite t d).magnitude =
    min (F.nearest (F.units c * F.units d) F.one) F.top := magnitude_ofRatio _ _ _

theorem magnitude_round (s : Bool) (c : Fin F.top) : (finite s c).round.magnitude =
    min (F.nearest ((2 * F.units c + F.one) / (2 * F.one) * F.one) 1) F.top :=
  magnitude_ofRatio _ _ _

theorem mul_ne_nan (ha : a ≠ nan) (hd : d.val ≠ 0) : a * finite t d ≠ nan := by
  cases a with
  | nan => exact absurd rfl ha
  | infinite s =>
    show (if d.val = 0 then nan else infinite (s != t)) ≠ nan
    rw [if_neg hd]
    exact nofun
  | finite s c => exact ofCode_ne_nan _ _

theorem isNegative_mul (ha : a ≠ nan) (hd : d.val ≠ 0) :
    (a * finite false d).isNegative = a.isNegative := by
  cases a with
  | nan => exact absurd rfl ha
  | infinite s =>
    show (if d.val = 0 then nan else infinite (s != false)).isNegative = s
    rw [if_neg hd]
    exact Bool.bne_false s
  | finite s c => exact (isNegative_ofCode _ _).trans (Bool.bne_false s)

include hp in
theorem mul_mono (hb : b ≠ nan) (hd : d.val ≠ 0) (h : a.magnitude ≤ b.magnitude) :
    (a * finite t d).magnitude ≤ (b * finite t d).magnitude := by
  cases b with
  | nan => exact absurd rfl hb
  | infinite s =>
    have hinf : infinite s * finite t d = infinite (s != t) := if_neg hd
    rw [hinf]
    exact magnitude_le_top (mul_ne_nan (ne_nan_of_le h) hd)
  | finite s c =>
    obtain ⟨s', c', rfl, hc⟩ := finite_of_le h
    have hone : 0 < F.one := Nat.two_pow_pos _
    have hunits := Nat.mul_le_mul_right (F.units d) (Format.units_le_units hp hc)
    have hround := Format.nearest_mono hp hone hone (Nat.mul_le_mul_right _ hunits)
    rw [magnitude_mul, magnitude_mul]
    omega

end

theorem round_ne_nan (ha : a ≠ nan) : a.round ≠ nan := by
  cases a with
  | nan => exact absurd rfl ha
  | infinite s => exact nofun
  | finite s c => exact ofCode_ne_nan _ _

theorem isNegative_round (a : Binary F) : a.round.isNegative = a.isNegative := by
  cases a with
  | nan => rfl
  | infinite s => rfl
  | finite s c => exact isNegative_ofCode _ _

include hp in
theorem round_mono (hb : b ≠ nan) (h : a.magnitude ≤ b.magnitude) :
    a.round.magnitude ≤ b.round.magnitude := by
  cases b with
  | nan => exact absurd rfl hb
  | infinite s => exact magnitude_le_top (round_ne_nan (ne_nan_of_le h))
  | finite s c =>
    obtain ⟨s', c', rfl, hc⟩ := finite_of_le h
    have hunits := Format.units_le_units hp hc
    have hwhole : (2 * F.units c' + F.one) / (2 * F.one) ≤ (2 * F.units c + F.one) / (2 * F.one) :=
      Nat.div_le_div_right (by omega)
    have hround := Format.nearest_mono hp Nat.one_pos Nat.one_pos
      (Nat.mul_le_mul_right 1 (Nat.mul_le_mul_right F.one hwhole))
    rw [magnitude_round, magnitude_round]
    omega

/-! ## integers -/

theorem truncate_false (c : Fin F.top) :
    (finite false c).truncate = (F.units c / F.one : Nat) := rfl

theorem truncate_true (c : Fin F.top) :
    (finite true c).truncate = -((F.units c / F.one : Nat) : Int) := Int.neg_tdiv _ _

include hp in
/-- the integer part of a number is held at zero or ordered by its magnitude -/
theorem clampTo_mono {hi : Int} (hh : 0 ≤ hi) (hb : b ≠ nan) (positive : b.isNegative = false)
    (h : a.magnitude ≤ b.magnitude) : a.clampTo 0 hi ≤ b.clampTo 0 hi := by
  cases b with
  | nan => exact absurd rfl hb
  | infinite s =>
    obtain rfl : s = false := positive
    exact (clampTo_mem a (Int.le_refl 0) hh).2
  | finite s c =>
    obtain rfl : s = false := positive
    obtain ⟨s', c', rfl, hc⟩ := finite_of_le h
    have hunits := Nat.div_le_div_right (c := F.one) (Format.units_le_units hp hc)
    simp only [clampTo, truncate_false]
    generalize F.units c / F.one = whole at *
    cases s' with
    | true =>
      rw [truncate_true]
      generalize F.units c' / F.one = whole' at *
      omega
    | false =>
      rw [truncate_false]
      generalize F.units c' / F.one = whole' at *
      omega

include hp in
theorem toUInt16_mono (hb : b ≠ nan) (positive : b.isNegative = false)
    (h : a.magnitude ≤ b.magnitude) : a.toUInt16 ≤ b.toUInt16 := by
  have hclamp := clampTo_mono hp (by decide : (0 : Int) ≤ 0xffff) hb positive h
  have ha := clampTo_mem a (by decide : (0 : Int) ≤ 0) (by decide : (0 : Int) ≤ 0xffff)
  have hb := clampTo_mem b (by decide : (0 : Int) ≤ 0) (by decide : (0 : Int) ≤ 0xffff)
  unfold toUInt16
  rw [UInt16.le_iff_toNat_le, UInt16.toNat_ofNat', UInt16.toNat_ofNat']
  omega

/-! ## bounds -/

/-- no number, or one that is not greater in magnitude than another -/
def Within (a b : Binary F) : Prop := a = nan ∨ a.magnitude ≤ b.magnitude

namespace Within

include hp in
theorem mul {t : Bool} {d : Fin F.top} (h : a.Within b) (hb : b ≠ nan) (hd : d.val ≠ 0) :
    (a * finite t d).Within (b * finite t d) := by
  rcases h with rfl | h
  · exact .inl rfl
  · exact .inr (mul_mono hp hb hd h)

include hp in
theorem round (h : a.Within b) (hb : b ≠ nan) : a.round.Within b.round := by
  rcases h with rfl | h
  · exact .inl rfl
  · exact .inr (round_mono hp hb h)

include hp in
theorem natAbs_clampTo_le {lo hi : Int} {s : Bool} {c : Fin F.top} (h : a.Within (finite s c))
    (hl : lo ≤ 0) (hh : 0 ≤ hi) : (a.clampTo lo hi).natAbs ≤ F.units c / F.one := by
  rcases h with rfl | h
  · exact Nat.zero_le _
  · obtain ⟨s', c', rfl, hc⟩ := finite_of_le h
    have hunits := Nat.div_le_div_right (c := F.one) (Format.units_le_units hp hc)
    cases s' with
    | true =>
      simp only [clampTo, truncate_true]
      generalize F.units c' / F.one = whole at *
      omega
    | false =>
      simp only [clampTo, truncate_false]
      generalize F.units c' / F.one = whole at *
      omega

end Within

/-! ## the greater of two data -/

theorem max_cases (x m : Binary F) : max x m = m ∨ max x m = x ∧ x ≠ nan ∧ ¬ x ≤ m := by
  show (if x.isNaN ∨ x ≤ m then m else x) = m ∨ (if x.isNaN ∨ x ≤ m then m else x) = x ∧ _
  by_cases h : x.isNaN ∨ x ≤ m
  · rw [if_pos h]
    exact .inl rfl
  · rw [if_neg h]
    obtain ⟨hnan, hle⟩ := not_or.mp h
    refine .inr ⟨rfl, ?_, hle⟩
    rintro rfl
    exact hnan rfl

/-- the greater of a datum, which may be no number, and a number that is not below zero -/
theorem le_max {x m z : Binary F} (hz : z.key? = some 0) (hm : z ≤ m) :
    max x m ≠ nan ∧
      (m.magnitude = 0 ∨ (max x m).isNegative = false ∧ m.magnitude ≤ (max x m).magnitude) := by
  obtain ⟨y, k, hy, hk, hle⟩ := le_iff.mp hm
  obtain rfl : 0 = y := Option.some.inj (hz.symm.trans hy)
  have hm : m ≠ nan := by
    rintro rfl
    cases hk
  rw [key?_eq hm, Option.some_inj] at hk
  rcases max_cases x m with hmax | ⟨hmax, hx, hlt⟩
  · rw [hmax]
    refine ⟨hm, ?_⟩
    split at hk
    case isTrue hneg => omega
    case isFalse hpos => exact .inr ⟨Bool.eq_false_of_not_eq_true hpos, Nat.le_refl _⟩
  · rw [hmax]
    refine ⟨hx, ?_⟩
    have hx' := key?_eq hx
    have hless : k < (if x.isNegative then -(x.magnitude : Int) else x.magnitude) := by
      by_contra hge
      exact hlt (le_iff.mpr ⟨_, _, hx', (key?_eq hm).trans (congrArg some hk), by omega⟩)
    split at hless
    case isTrue hneg => omega
    case isFalse hpos =>
      split at hk
      · omega
      · exact .inr ⟨Bool.eq_false_of_not_eq_true hpos, by omega⟩

end Binary

end RangeBearing
