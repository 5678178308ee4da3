import RangeBearing.Angle
import RangeBearing.Proofs.Bounds
import RangeBearing.Proofs.Exactness

/-!
# The turn that an angle lies in

Wrapping an angle takes whole turns off it and rounds nowhere.  The remainder of a full turn is
exact, and where a turn is added to it or taken off it, the two are within a factor of two.

* `Angle.InTurn`            more than half a turn to the right, at most half a turn to the left;
* `Angle.wrap_cases`        the remainder, or what is missing from it to a full turn;
* `Angle.Represents`        an angle of the turn that differs by whole turns;
* `Angle.wrap_represents`   what wrapping gives.
-/

namespace RangeBearing

open Elementary Binary

namespace Angle

def halfCode : Fin Format.binary32.top := ⟨0x40490fdb, by decide⟩

def fullCode : Fin Format.binary32.top := ⟨0x40c90fdb, by decide⟩

theorem halfTurn_eq : halfTurn = finite false halfCode := by decide

theorem fullTurn_eq : fullTurn = finite false fullCode := by decide

theorem units_fullCode :
    Format.binary32.units fullCode = 2 * Format.binary32.units halfCode := by
  decide

theorem amount_fullCode :
    Format.binary32.amount fullCode = 2 * Format.binary32.amount halfCode := by
  unfold Format.amount
  rw [units_fullCode, Nat.cast_mul, Nat.cast_ofNat, mul_div_assoc]

theorem value_halfTurn : halfTurn.value = Format.binary32.amount halfCode :=
  congrArg value halfTurn_eq

theorem value_fullTurn : fullTurn.value = Format.binary32.amount fullCode :=
  congrArg value fullTurn_eq

/-- within half a turn to either side, the half turn to the right excluded -/
def InTurn (p : Binary32) : Prop := -halfTurn < p ∧ p ≤ halfTurn

section
variable {k c : Fin Format.binary32.top}

theorem finite_le_neg_halfTurn (s : Bool) :
    finite s k ≤ -halfTurn ↔ s = true ∧ halfCode ≤ k := by
  have hneg : -halfTurn = finite true halfCode := congrArg Neg.neg halfTurn_eq
  have hhalf : 0 < halfCode.val := by decide
  rw [hneg, finite_le_iff]
  cases s with
  | true => simp
  | false =>
    simp
    omega

theorem halfTurn_lt_finite (s : Bool) : halfTurn < finite s k ↔ s = false ∧ halfCode < k := by
  rw [halfTurn_eq, finite_lt_iff]
  cases s with
  | true => simp
  | false => simp

theorem inTurn_iff (s : Bool) :
    InTurn (finite s k) ↔ ¬ finite s k ≤ -halfTurn ∧ ¬ halfTurn < finite s k := by
  have hhalf : halfTurn ≠ nan := by
    rw [halfTurn_eq]
    exact nofun
  have hk : finite s k ≠ nan := nofun
  constructor
  · intro h
    exact ⟨fun hle => Binary.not_lt_of_le hle h.1, Binary.not_lt_of_le h.2⟩
  · intro h
    exact ⟨Binary.lt_of_not_le (neg_ne_nan hhalf) hk h.1, Binary.le_of_not_lt hk hhalf h.2⟩

/-- wrapping leaves the remainder of a full turn, or what is missing from it to a full turn on the
other side -/
theorem wrap_cases (s : Bool) (c : Fin Format.binary32.top) :
    ∃ k : Fin Format.binary32.top,
      Format.binary32.units k = Format.binary32.units c % Format.binary32.units fullCode ∧
      (wrap (finite s c) = finite s k ∧ InTurn (finite s k) ∨
        ∃ j : Fin Format.binary32.top, wrap (finite s c) = finite (!s) j ∧
          Format.binary32.units j = Format.binary32.units fullCode - Format.binary32.units k ∧
          InTurn (finite (!s) j)) := by
  obtain ⟨k, hrest, hk⟩ := remainder_eq s false c (d := fullCode) (by decide)
  have hlt : k < fullCode := by
    refine Format.lt_of_units_lt Format.binary32.precision_pos (hk ▸ Nat.mod_lt _ ?_)
    decide
  have hbelow := Format.units_lt_units Format.binary32.precision_pos hlt
  have hfull := units_fullCode
  refine ⟨k, hk, ?_⟩
  unfold wrap
  rw [← fullTurn_eq] at hrest
  rw [hrest]
  by_cases hin : InTurn (finite s k)
  · obtain ⟨hle, hgt⟩ := (inTurn_iff s).mp hin
    exact .inl ⟨by rw [if_neg hle, if_neg hgt], hin⟩
  · -- the rest is at least half a turn, so that its difference to a turn is exact
    right
    rw [inTurn_iff, finite_le_neg_halfTurn, halfTurn_lt_finite] at hin
    -- a rest of just half a turn is corrected to the right only
    cases s with
    | true =>
      have hhalf : halfCode ≤ k := by simpa using hin
      have hunits := Format.units_le_units Format.binary32.precision_pos hhalf
      obtain ⟨j, hsum, hj⟩ := add_opposite_eq true hlt (by omega)
      refine ⟨j, ?_, hj, ?_⟩
      · rw [if_pos ((finite_le_neg_halfTurn true).mpr ⟨rfl, hhalf⟩), fullTurn_eq]
        exact hsum
      · have hle : j ≤ halfCode := Format.code_le_of_units_le (F := .binary32) (by omega)
        rw [inTurn_iff, finite_le_neg_halfTurn, halfTurn_lt_finite]
        simpa using hle
    | false =>
      have hhalf : halfCode < k := by simpa using hin
      have hunits := Format.units_lt_units Format.binary32.precision_pos hhalf
      obtain ⟨j, hsum, hj⟩ := add_opposite_eq false hlt (by omega)
      refine ⟨j, ?_, hj, ?_⟩
      · have hle : ¬ finite false k ≤ -halfTurn := by
          rw [finite_le_neg_halfTurn]
          simp
        rw [if_neg hle, if_pos ((halfTurn_lt_finite false).mpr ⟨rfl, hhalf⟩), fullTurn_eq]
        exact hsum
      · have hless : j < halfCode :=
          Format.lt_of_units_lt (F := .binary32) Format.binary32.precision_pos (by omega)
        rw [inTurn_iff, finite_le_neg_halfTurn, halfTurn_lt_finite]
        simpa using hless

end

/-- an angle of the turn is its own remainder and is left alone -/
theorem wrap_of_inTurn {p : Binary32} (h : InTurn p) : wrap p = p := by
  have hhalf : halfTurn.isFinite := by
    rw [halfTurn_eq]
    rfl
  obtain ⟨s, c, rfl⟩ :=
    exists_finite (isFinite_of_le ((isFinite_neg _).trans hhalf) hhalf (Binary.le_of_lt h.1) h.2)
  obtain ⟨hle, hgt⟩ := (inTurn_iff s).mp h
  have hcode : c < fullCode := by
    have hhalf : halfCode.val < fullCode.val := by decide
    rw [finite_le_neg_halfTurn] at hle
    rw [halfTurn_lt_finite] at hgt
    cases s <;> simp at hle hgt <;> omega
  have hrest : (finite s c).remainder fullTurn = finite s c := by
    rw [fullTurn_eq]
    exact remainder_of_lt s false hcode
  unfold wrap
  rw [hrest, if_neg hle, if_neg hgt]

/-- an angle of the turn that differs from another one by whole turns -/
structure Represents (p a : Binary32) : Prop where
  inTurn : InTurn p
  /-- the values are exact -/
  turns : ∃ n : ℤ, p.value = a.value + n * fullTurn.value
  /-- wrapping it again leaves every bit alone -/
  fixed : wrap p = p

theorem represents_wrap_finite (s : Bool) (c : Fin Format.binary32.top) :
    Represents (wrap (finite s c)) (finite s c) := by
  obtain ⟨k, hk, hcases⟩ := wrap_cases s c
  have hone := Format.binary32.one_cast_pos
  generalize hq : Format.binary32.units c / Format.binary32.units fullCode = q
  have hc : Format.binary32.amount c =
      q * Format.binary32.amount fullCode + Format.binary32.amount k := by
    have hunits := Nat.div_add_mod (Format.binary32.units c) (Format.binary32.units fullCode)
    rw [hq, ← hk] at hunits
    unfold Format.amount
    rw [← hunits, Nat.cast_add, Nat.cast_mul]
    ring
  rcases hcases with ⟨hwrap, hin⟩ | ⟨j, hwrap, hj, hin⟩
  · rw [hwrap]
    refine ⟨hin, ⟨if s then q else -q, ?_⟩, wrap_of_inTurn hin⟩
    rw [value_fullTurn]
    cases s <;> simp [value, signed, hc]
  · -- a turn more than the remainder
    have hle : Format.binary32.units k ≤ Format.binary32.units fullCode := by
      rw [hk]
      exact Nat.le_of_lt (Nat.mod_lt _ (by decide))
    have hj : Format.binary32.amount j =
        Format.binary32.amount fullCode - Format.binary32.amount k := by
      unfold Format.amount
      rw [hj, Nat.cast_sub hle, sub_div]
    rw [hwrap]
    refine ⟨hin, ⟨if s then q + 1 else -(q + 1), ?_⟩, wrap_of_inTurn hin⟩
    rw [value_fullTurn]
    cases s <;> simp [value, signed, hc, hj] <;> ring

theorem wrap_of_not_isFinite {a : Binary32} (h : ¬ a.isFinite) : wrap a = nan := by
  have hrest : a.remainder fullTurn = nan := by
    cases a with
    | nan => rfl
    | infinite s => rfl
    | finite s c => exact absurd rfl h
  unfold wrap
  rw [hrest, if_neg (not_nan_le _), if_neg (not_lt_nan _)]

/-- wrapping gives the representative of every finite angle, and no number for the others -/
theorem wrap_represents (a : Binary32) :
    fullTurn.value = 2 * halfTurn.value ∧
      if a.isFinite then Represents (wrap a) a else wrap a = nan := by
  constructor
  · rw [value_fullTurn, value_halfTurn, amount_fullCode]
  · split
    case isTrue h =>
      obtain ⟨s, c, rfl⟩ := exists_finite h
      exact represents_wrap_finite s c
    case isFalse h => exact wrap_of_not_isFinite h

/-- the greatest finite angle -/
example : wrap (.ofBits 0x7f7fffff) = .ofBits 0x3fddb0f8 := by decide

end Angle

end RangeBearing
