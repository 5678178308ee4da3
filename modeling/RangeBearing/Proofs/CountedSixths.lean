import RangeBearing.Estimation.SeedRange
import RangeBearing.Proofs.Monotonicity

/-!
# Angles that can be counted in sixths

The sixths of a turn are held between the ends of the 32-bit integers and counted off from six, so
the count leaves these integers only at their lower end.  The number of sixths grows with the angle;
one angle therefore separates those whose direction is found from those whose direction is not.

* `Ring.sixths_mono`           greater angles have more sixths;
* `Ring.uncounted`             the greatest angle whose sixths cannot be counted off;
* `Ring.CountsOff`, `Estimation.SeedCounts`   which directions and which seeds are found;
* `Estimation.seed_counts`     for every matrix and all angles.
-/

namespace RangeBearing

open Elementary Binary

namespace Ring

variable {angle a b : Binary32}

theorem sixths_toInt (angle : Binary32) : (sixths angle).toInt =
    (3 * angle / halfTurn).ceil.clampTo (-0x80000000) 0x7fffffff := by
  have hlow : (-0x80000000 : Int) ≤ 0 := by decide
  have hhigh : (0 : Int) ≤ 0x7fffffff := by decide
  have hmem := clampTo_mem (3 * angle / halfTurn).ceil hlow hhigh
  exact Int32.toInt_ofInt_of_le hmem.1 (by omega)

/-- greater angles have more sixths -/
theorem sixths_mono (h : a ≤ b) : (sixths a).toInt ≤ (sixths b).toInt := by
  have hproduct : 3 * a ≤ 3 * b := mul_le_mul_left (by decide) (by decide) h
  have hquotient : 3 * a / halfTurn ≤ 3 * b / halfTurn :=
    div_le_div_right (by decide) (by decide) hproduct
  rw [sixths_toInt, sixths_toInt]
  exact clampTo_le_clampTo (by decide) (by decide) (by decide) (ceil_le_ceil (by decide) hquotient)

/-- about `-2.2488 * 10 ^ 9`: the greatest angle whose sixths cannot be counted off, -/
def uncounted : Binary32 := .ofBits 0xcf060a92

/-- and its neighbour -/
def leastCounted : Binary32 := .ofBits 0xcf060a91

theorem sixths_of_le (h : angle ≤ uncounted) : (sixths angle).toInt = -0x80000000 := by
  have hle := sixths_mono h
  have hlast : (sixths uncounted).toInt = -0x80000000 := by decide
  have hmem := (sixths angle).le_toInt
  omega

theorem sixths_of_not_le (h : ¬ angle ≤ uncounted) : -0x7fffff80 ≤ (sixths angle).toInt := by
  by_cases hnan : angle = nan
  · subst hnan
    decide
  · have hlt : uncounted < angle := Binary.lt_of_not_le (by decide) hnan h
    have hle : leastCounted ≤ angle := next_le_of_lt hlt (by decide)
    have hfirst : (sixths leastCounted).toInt = -0x7fffff80 := by decide
    exact hfirst ▸ sixths_mono hle

/-! ## directions -/

theorem nearest?_of_le (h : angle ≤ uncounted) : nearest? angle = none := by
  unfold nearest?
  rw [sixths_of_le h]
  rfl

theorem nearest?_of_not_le (h : ¬ angle ≤ uncounted) :
    nearest? angle = some (.ofInt (6 - (sixths angle).toInt)) := by
  have hsixths := sixths_of_not_le h
  exact if_pos (by omega)

/-- what is counted off without leaving 32 bits is counted off in them -/
theorem nearest_eq (h : ¬ angle ≤ uncounted) :
    nearest angle = .ofInt (6 - (sixths angle).toInt) := by
  have hsixths := sixths_of_not_le h
  have hmem := (sixths angle).toInt_lt
  have hsix : (6 : Int32).toInt = 6 := by decide
  unfold nearest
  rw [Int32.toInt_sub, hsix]
  exact congrArg _ (Int.bmod_eq_of_le (by omega) (by omega))

/-- which directions are found -/
structure CountsOff (angle : Binary32) : Prop where
  fails_iff : nearest? angle = none ↔ angle ≤ uncounted
  /-- no number among them -/
  found : ¬ angle ≤ uncounted → nearest? angle = some (nearest angle) ∧
    (nearest angle : Int) = (6 - (sixths angle).toInt) % 6

theorem countsOff (angle : Binary32) : CountsOff angle where
  fails_iff := by
    by_cases h : angle ≤ uncounted
    · exact iff_of_true (nearest?_of_le h) h
    · rw [nearest?_of_not_le h]
      exact iff_of_false nofun h
  found h := by
    rw [nearest?_of_not_le h, nearest_eq h]
    refine ⟨rfl, ?_⟩
    show ((((6 - (sixths angle).toInt) % 6).toNat : Nat) : Int) = _
    exact Int.toNat_of_nonneg (Int.emod_nonneg _ (by decide))

/-- the count of the infinite angle to the right leaves 32 bits -/
theorem infinity_uncounted : nearest? (.infinite true) = none := by
  decide

end Ring

namespace Estimation

variable {m : Brightness} {bearing heading : Binary32}

/-- an angle of the seed pair cannot be counted -/
def Uncounted (bearing heading : Binary32) : Prop :=
  bearing ≤ Ring.uncounted ∨ facing bearing heading ≤ Ring.uncounted

theorem seedRange?_of_uncounted (h : Uncounted bearing heading) :
    seedRange? m bearing heading = none := by
  have hpair : seedPair? bearing heading = none := by
    unfold seedPair?
    cases hsensor : Ring.nearest? bearing with
    | none => rfl
    | some s =>
      have hbearing : ¬ bearing ≤ Ring.uncounted := fun hle => by
        cases hsensor.symm.trans (Ring.nearest?_of_le hle)
      rw [Ring.nearest?_of_le (h.resolve_left hbearing)]
      rfl
  unfold seedRange?
  rw [hpair]
  rfl

theorem seedRange?_of_counted (h : ¬ Uncounted bearing heading) :
    seedRange? m bearing heading = some (seedRange m bearing heading) := by
  obtain ⟨hbearing, hfacing⟩ := not_or.mp h
  have hpair : seedPair? bearing heading = some (seedPair bearing heading) := by
    unfold seedPair?
    rw [((Ring.countsOff _).found hbearing).1, ((Ring.countsOff _).found hfacing).1]
    rfl
  unfold seedRange?
  rw [hpair]
  rfl

/-- which seeds are found -/
structure SeedCounts (m : Brightness) (bearing heading : Binary32) : Prop where
  sensor : Ring.CountsOff bearing
  emitter : Ring.CountsOff (facing bearing heading)
  fails_iff : seedRange? m bearing heading = none ↔ Uncounted bearing heading
  found : ¬ Uncounted bearing heading →
    seedRange? m bearing heading = some (seedRange m bearing heading)

/-- whatever the matrix and the angles, numbers or not -/
theorem seed_counts (m : Brightness) (bearing heading : Binary32) :
    SeedCounts m bearing heading where
  sensor := Ring.countsOff bearing
  emitter := Ring.countsOff (facing bearing heading)
  fails_iff := by
    by_cases h : Uncounted bearing heading
    · exact iff_of_true (seedRange?_of_uncounted h) h
    · rw [seedRange?_of_counted h]
      exact iff_of_false nofun h
  found := seedRange?_of_counted

end Estimation

end RangeBearing
