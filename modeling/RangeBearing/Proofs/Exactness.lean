import RangeBearing.Brightness.Basic
import RangeBearing.Proofs.Values

/-!
# Operations without rounding

Some results are data of the format already, so that rounding leaves them alone: the remainder of
two magnitudes, and the difference of two magnitudes of which the greater is at most twice the
less.  Both are multiples of the lesser of the two quanta and have few enough digits.

* `Format.exists_units_mod`, `Format.exists_units_sub`;
* `Binary.remainder_eq`        the remainder of two finite numbers;
* `Binary.add_opposite_eq`     the sum of two numbers of opposite sign within a factor of two;
* `Binary.ofInt_eq`            an integer that fits into the significand;
* `Binary.div_one`             a quotient by one;
* `Brightness.number_isFinite`, `Brightness.value_number`   so do all readings.
-/

namespace RangeBearing

namespace Format

variable {F : Format} {c d : Nat}

/-- the remainder of two magnitudes is a magnitude -/
theorem exists_units_mod (hd : 0 < F.units d) : ∃ k, F.units k = F.units c % F.units d := by
  obtain ⟨e, m, rfl, hm, hsig⟩ := exists_significand F c
  obtain ⟨e', m', rfl, hm', hsig'⟩ := exists_significand F d
  rw [units_eq hsig'] at hd ⊢
  rw [units_eq hsig]
  rcases Nat.le_total e e' with hle | hle
  · -- a multiple of the quantum of the dividend, and not greater than it
    obtain ⟨j, rfl⟩ := Nat.exists_eq_add_of_le hle
    have hshift : m' * 2 ^ (e + j) = m' * 2 ^ j * 2 ^ e := by ring
    rw [hshift, Nat.mul_mod_mul_right]
    exact exists_units (Nat.lt_of_le_of_lt (Nat.mod_le _ _) hm)
  · -- a multiple of the quantum of the divisor, and less than it
    obtain ⟨j, rfl⟩ := Nat.exists_eq_add_of_le hle
    have hshift : m * 2 ^ (e' + j) = m * 2 ^ j * 2 ^ e' := by ring
    rw [hshift, Nat.mul_mod_mul_right]
    have hpos : 0 < m' := Nat.pos_of_mul_pos_right hd
    exact exists_units (Nat.lt_trans (Nat.mod_lt _ hpos) hm')

/-- the difference of two magnitudes within a factor of two is a magnitude -/
theorem exists_units_sub (hle : F.units c ≤ F.units d) (hdouble : F.units d ≤ 2 * F.units c) :
    ∃ k, F.units k = F.units d - F.units c := by
  obtain ⟨e, m, rfl, hm, hsig⟩ := exists_significand F c
  obtain ⟨e', m', rfl, hm', hsig'⟩ := exists_significand F d
  rw [units_eq hsig, units_eq hsig'] at hle hdouble ⊢
  rcases Nat.le_total e e' with h | h
  · -- a multiple of the quantum of the lesser, and not greater than it
    obtain ⟨j, rfl⟩ := Nat.exists_eq_add_of_le h
    have hshift : m' * 2 ^ (e + j) = m' * 2 ^ j * 2 ^ e := by ring
    rw [hshift] at hdouble ⊢
    rw [← Nat.sub_mul]
    have hbound : m' * 2 ^ j ≤ 2 * m :=
      Nat.le_of_mul_le_mul_right (by rwa [Nat.mul_assoc 2]) (Nat.two_pow_pos e)
    exact exists_units (by omega)
  · -- a multiple of the quantum of the greater, and not greater than it
    obtain ⟨j, rfl⟩ := Nat.exists_eq_add_of_le h
    have hshift : m * 2 ^ (e' + j) = m * 2 ^ j * 2 ^ e' := by ring
    rw [hshift, ← Nat.sub_mul]
    exact exists_units (by omega)

variable [NeZero F.precision]

theorem code_le_of_units_le (h : F.units c ≤ F.units d) : c ≤ d := by
  by_contra hlt
  have := units_lt_units F.precision_pos (Nat.lt_of_not_le hlt)
  omega

theorem nearest_units_one (c : Nat) : F.nearest (F.units c) 1 = c := by
  simpa using nearest_units F.precision_pos Nat.one_pos c

end Format

namespace Binary

variable {F : Format} [NeZero F.precision]

theorem ofRatio_units (s : Bool) (c : Fin F.top) : ofRatio s (F.units c) 1 = finite s c := by
  unfold ofRatio ofCode
  rw [Format.nearest_units_one, dif_pos c.isLt]

theorem remainder_eq (s t : Bool) (c : Fin F.top) {d : Fin F.top} (hd : d.val ≠ 0) :
    ∃ k : Fin F.top, (finite s c).remainder (finite t d) = finite s k ∧
      F.units k = F.units c % F.units d := by
  have hunits : 0 < F.units d :=
    Nat.lt_of_le_of_lt (Nat.zero_le _)
      (Format.units_lt_units F.precision_pos (Nat.pos_of_ne_zero hd))
  obtain ⟨k, hk⟩ := Format.exists_units_mod (c := c) hunits
  have hle : k ≤ c := Format.code_le_of_units_le (hk ▸ Nat.mod_le _ _)
  refine ⟨⟨k, Nat.lt_of_le_of_lt hle c.isLt⟩, ?_, hk⟩
  show (if d.val = 0 then nan else ofRatio s (F.units c % F.units d) 1) = _
  rw [if_neg hd, ← hk, ← ofRatio_units]

/-- a magnitude less than the divisor is its own remainder -/
theorem remainder_of_lt (s t : Bool) {c d : Fin F.top} (h : c < d) :
    (finite s c).remainder (finite t d) = finite s c := by
  have hd : d.val ≠ 0 := Nat.ne_of_gt (Nat.lt_of_le_of_lt (Nat.zero_le _) h)
  show (if d.val = 0 then nan else ofRatio s (F.units c % F.units d) 1) = _
  rw [if_neg hd, Nat.mod_eq_of_lt (Format.units_lt_units F.precision_pos h), ofRatio_units]

theorem ofUnits_eq {i : Int} {k : Fin F.top} (h : F.units k = i.natAbs) :
    ofUnits i = finite (decide (i < 0)) k := by
  unfold ofUnits
  rw [← h, ofRatio_units]

/-- the greater of two numbers of opposite sign, less the other one -/
theorem add_opposite_eq (s : Bool) {c d : Fin F.top} (hlt : c < d)
    (hdouble : F.units d ≤ 2 * F.units c) :
    ∃ k : Fin F.top, finite s c + finite (!s) d = finite (!s) k ∧
      F.units k = F.units d - F.units c := by
  have hunits := Format.units_lt_units F.precision_pos hlt
  obtain ⟨k, hk⟩ := Format.exists_units_sub (Nat.le_of_lt hunits) hdouble
  have hle : k ≤ d := Format.code_le_of_units_le (hk ▸ Nat.sub_le _ _)
  obtain ⟨k, rfl⟩ : ∃ k' : Fin F.top, k = k' := ⟨⟨k, Nat.lt_of_le_of_lt hle d.isLt⟩, rfl⟩
  refine ⟨k, ?_, hk⟩
  rw [add_finite]
  cases s with
  | false =>
    have hsum : (finite false c).signedUnits + (finite (!false) d).signedUnits =
        -((F.units d - F.units c : Nat) : Int) := by
      simp only [signedUnits, Bool.not_false]
      omega
    rw [hsum, if_neg (by omega), ofUnits_eq (hk.trans (by omega)), decide_eq_true (by omega)]
    rfl
  | true =>
    have hsum : (finite true c).signedUnits + (finite (!true) d).signedUnits =
        ((F.units d - F.units c : Nat) : Int) := by
      simp only [signedUnits, Bool.not_true]
      omega
    rw [hsum, if_neg (by omega), ofUnits_eq (hk.trans (by omega)), decide_eq_false (by omega)]
    rfl

/-- an integer with no more digits than a significand is a datum of the format -/
theorem ofInt_eq {i : Int} (hi : i.natAbs < 2 * F.binade)
    (htop : i.natAbs * F.one < F.units F.top) :
    ∃ k : Fin F.top, ofInt i = finite (decide (i < 0)) k ∧ F.units k = i.natAbs * F.one := by
  obtain ⟨k, hk⟩ := Format.exists_units (F := F) (e := F.quantumExponent) hi
  have hk : F.units k = i.natAbs * F.one := hk
  have hlt : k < F.top := Format.lt_of_units_lt F.precision_pos (hk ▸ htop)
  refine ⟨⟨k, hlt⟩, ?_, hk⟩
  unfold ofInt
  rw [← hk, ← ofRatio_units]

/-- and is not rounded -/
theorem value_ofInt {i : Int} (hi : i.natAbs < 2 * F.binade)
    (htop : i.natAbs * F.one < F.units F.top) : (ofInt (F := F) i).value = i := by
  obtain ⟨k, hfinite, hk⟩ := ofInt_eq hi htop
  have hone := F.one_cast_pos
  have hamount : F.amount k = i.natAbs := by
    unfold Format.amount
    rw [hk, Nat.cast_mul, mul_div_assoc, div_self hone.ne', mul_one]
  rw [hfinite]
  show signed _ (F.amount k) = i
  rw [hamount]
  exact signed_natAbs i

theorem div_one {a : Binary32} (ha : a.isFinite) : a / 1 = a := by
  obtain ⟨s, c, rfl⟩ := exists_finite ha
  obtain ⟨k, hk, hunits⟩ := ofInt_eq (F := .binary32) (i := 1) (by decide) (by decide)
  have hone : (1 : Binary32) = finite false k := hk
  have hunits : Format.binary32.units k = Format.binary32.one := hunits.trans (Nat.one_mul _)
  have hk : k.val ≠ 0 := by
    intro hzero
    rw [hzero] at hunits
    revert hunits
    decide
  rw [hone]
  show (if k.val = 0 then _ else ofRatio (s != false) (_ * _) (Format.binary32.units k)) = _
  rw [if_neg hk, hunits, ofRatio, ofCode, Bool.bne_false,
    Format.nearest_units Format.binary32.precision_pos Format.binary32.one_pos, dif_pos c.isLt]

end Binary

namespace Brightness

open Binary

theorem natAbs_reading (v : Int16) : v.toInt.natAbs ≤ 0x8000 := by
  have hle := v.le_toInt
  have hlt := v.toInt_lt
  omega

theorem reading_fits (v : Int16) : v.toInt.natAbs < 2 * Format.binary32.binade ∧
    v.toInt.natAbs * Format.binary32.one < Format.binary32.units Format.binary32.top := by
  have hsmall := natAbs_reading v
  exact ⟨Nat.lt_of_le_of_lt hsmall (by decide),
    Nat.lt_of_le_of_lt (Nat.mul_le_mul_right _ hsmall) (by decide)⟩

theorem number_isFinite (v : Int16) : (number v).isFinite := by
  obtain ⟨hdigits, htop⟩ := reading_fits v
  obtain ⟨k, hk, -⟩ := ofInt_eq hdigits htop
  unfold number
  rw [hk]
  rfl

theorem value_number (v : Int16) : (number v).value = v.toInt :=
  have ⟨hdigits, htop⟩ := reading_fits v
  value_ofInt hdigits htop

theorem reading_pos {v : Int16} (h : 0 < (number v).value) : 0 < v := by
  rw [value_number] at h
  rw [Int16.lt_iff_toInt_lt]
  exact_mod_cast h

end Brightness

end RangeBearing
