import RangeBearing.Estimation.CircularMean
import RangeBearing.Proofs.Cycles
import RangeBearing.Proofs.DoubledReadings
import RangeBearing.Proofs.Quadrants

/-!
# Angles ignore the overall brightness

The components of the basis vectors have so few digits that every vote, and every sum of votes, is
a multiple of `2 ^ -24`.  A sum that does not vanish is therefore a normal number, and so it is
doubled with the readings to the last bit, its sign included; the angle of the doubled sum is the
same one.

* `Binary.Grained`                    multiples of a power of two;
* `Estimation.Coordinate`             what the basis vectors are made of;
* `Estimation.component_scaled`       a component of the votes of a doubled matrix;
* `Estimation.angles_doubled`         the bearing and the heading of a doubled matrix.
-/

namespace RangeBearing

open Elementary Binary

namespace Binary

variable {F : Format} {a b : Binary F} {c e : Nat} {i : Int}

/-! ## multiples of a power of two -/

/-- a multiple of `2 ^ e` units -/
def Grained (a : Binary F) (e : Nat) : Prop := (2 ^ e : Int) ∣ a.signedUnits

instance (a : Binary F) (e : Nat) : Decidable (a.Grained e) :=
  inferInstanceAs (Decidable ((2 ^ e : Int) ∣ a.signedUnits))

namespace Grained

theorem finite_iff (s : Bool) (k : Fin F.top) :
    (finite s k).Grained e ↔ 2 ^ e ∣ F.units k := by
  have hcast : (2 ^ e : Int) ∣ F.units k ↔ 2 ^ e ∣ F.units k := by
    exact_mod_cast Int.natCast_dvd_natCast (m := 2 ^ e) (n := F.units k)
  cases s with
  | true => exact Int.dvd_neg.trans hcast
  | false => exact hcast

/-- a datum that is not finite has no units -/
theorem of_not_isFinite (ha : ¬ a.isFinite) : a.Grained e := by
  cases a with
  | nan => exact Int.dvd_zero _
  | infinite s => exact Int.dvd_zero _
  | finite s c => exact absurd rfl ha

theorem ofCode (s : Bool) (h : 2 ^ e ∣ F.units c) : (ofCode (F := F) s c).Grained e := by
  unfold Binary.ofCode
  split
  · exact (finite_iff s _).mpr h
  · exact of_not_isFinite nofun

variable [NeZero F.precision]

/-- a sum that is finite is one of finite terms -/
theorem add (ha : a.Grained e) (hb : b.Grained e) : (a + b).Grained e := by
  by_cases hfinite : a.isFinite ∧ b.isFinite
  · obtain ⟨s, c, rfl⟩ := exists_finite hfinite.1
    obtain ⟨t, d, rfl⟩ := exists_finite hfinite.2
    have hsum := Int.dvd_add ha hb
    rw [add_finite]
    split
    · refine ofCode _ ?_
      rw [F.units_zero]
      exact Nat.dvd_zero _
    · refine ofCode _ (Format.dvd_units_nearest F.precision_pos ?_)
      exact_mod_cast Int.dvd_natAbs.mpr hsum
  · apply of_not_isFinite
    intro hsum
    apply hfinite
    cases a with
    | nan => cases hsum
    | infinite s =>
      cases b with
      | nan => cases hsum
      | infinite t => cases s <;> cases t <;> cases hsum
      | finite t d => cases hsum
    | finite s c =>
      cases b with
      | nan => cases hsum
      | infinite t => cases hsum
      | finite t d => exact ⟨rfl, rfl⟩

/-- and so are all multiples of it by integers with few digits -/
theorem mul_ofInt (ha : a.Grained e) (hfinite : a.isFinite) (digits : i.natAbs < 2 * F.binade)
    (range : i.natAbs * F.one < F.units F.top) : (a * ofInt i).Grained e := by
  obtain ⟨s, c, rfl⟩ := exists_finite hfinite
  obtain ⟨k, hk, hunits⟩ := ofInt_eq digits range
  have hround : F.nearest (F.units c * F.units k) F.one =
      F.nearest (F.units c * i.natAbs) 1 := by
    refine Format.nearest_congr F.one_pos Nat.one_pos ?_
    rw [hunits]
    ring
  rw [hk]
  show (Binary.ofCode _ (F.nearest _ _)).Grained e
  rw [hround]
  refine ofCode _ (Format.dvd_units_nearest F.precision_pos ?_)
  exact Dvd.dvd.mul_right ((finite_iff s c).mp ha) _

/-- a multiple that does not vanish is not small -/
theorem full (ha : a.Grained e) (hfinite : a.isFinite) (he : F.binade ≤ 2 ^ e) : a.Full := by
  obtain ⟨s, c, rfl⟩ := exists_finite hfinite
  rcases Nat.eq_zero_or_pos (F.units c) with hzero | hpos
  · exact .inl ((Format.units_eq_zero_iff F.precision_pos).mp hzero)
  · right
    apply Format.code_le_of_units_le (F := F)
    rw [F.units_binade]
    exact Nat.le_trans he (Nat.le_of_dvd hpos ((finite_iff s c).mp ha))

end Grained

end Binary

namespace Estimation

variable {m : Brightness} {a : Binary32} {v w : Int16}

/-! ## votes -/

/-- a component of the sum of the votes -/
def component (m : Brightness) (axis : Direction × Direction → Binary32) : Binary32 :=
  Grid.pairs.foldl (fun sum p => sum + axis p * Brightness.number (m.get p.1 p.2)) 0

theorem votes_eq (m : Brightness) (basis : Direction → Direction → Displacement) :
    votes m basis =
      ⟨component m fun p => (basis p.1 p.2).x, component m fun p => (basis p.1 p.2).y⟩ := by
  have hsum (l : List (Direction × Direction)) (sum : Displacement) :
      l.foldl (fun sum p => sum + basis p.1 p.2 * Brightness.number (m.get p.1 p.2)) sum =
        ⟨l.foldl (fun sum p => sum + (basis p.1 p.2).x * Brightness.number (m.get p.1 p.2)) sum.x,
          l.foldl (fun sum p => sum + (basis p.1 p.2).y * Brightness.number (m.get p.1 p.2))
            sum.y⟩ := by
    induction l generalizing sum with
    | nil => rfl
    | cons p l ih => exact ih _
  unfold votes Grid.cells
  rw [List.foldl_map]
  exact hsum _ _

/-- zero, or between a half and one in magnitude, and with a significand of 24 digits -/
def Coordinate (a : Binary32) : Prop :=
  (a.magnitude = 0 ∨ 0x3f000000 ≤ a.magnitude) ∧ a.magnitude ≤ 0x3f800000 ∧ a.Grained 125

instance (a : Binary32) : Decidable (Coordinate a) := inferInstanceAs (Decidable (_ ∧ _ ∧ _))

theorem sensorAxis_coordinates (s : Direction) :
    Coordinate (Ring.sensorAxis s).x ∧ Coordinate (Ring.sensorAxis s).y := by
  revert s
  decide

theorem facingHeading_coordinates (e s : Direction) :
    Coordinate (Ring.facingHeading e s).x ∧ Coordinate (Ring.facingHeading e s).y := by
  have hheading (k : Direction) : Coordinate (Ring.facingHeadings.entry k).x ∧
      Coordinate (Ring.facingHeadings.entry k).y := by
    revert k
    decide
  exact hheading _

section
variable (ha : Coordinate a)
include ha

theorem coordinate_isFinite : a.isFinite :=
  isFinite_of_lt_top (Nat.lt_of_le_of_lt ha.2.1 (by decide))

theorem coordinate_bounded : a.Bounded (2 ^ 0) := by
  have hle := Format.binary32.amount_strictMono.monotone ha.2.1
  refine ⟨coordinate_isFinite ha, ?_⟩
  rw [abs_value (ne_nan_of_isFinite (coordinate_isFinite ha)), Nat.pow_zero, Nat.cast_one,
    ← Format.amount_one]
  exact hle

/-- a vote that is cast is not small -/
theorem vote_cases (v : Int16) : a.value * (Brightness.number v).value = 0 ∨
    1 / 2 ≤ |a.value * (Brightness.number v).value| := by
  have hvalue := abs_value (ne_nan_of_isFinite (coordinate_isFinite ha))
  rcases ha.1 with hzero | hhalf
  · left
    rw [hzero, Format.amount_zero, abs_eq_zero] at hvalue
    rw [hvalue, zero_mul]
  · rcases Brightness.value_number_cases v with hzero | hone
    · left
      rw [hzero, mul_zero]
    · right
      have hle := Format.binary32.amount_strictMono.monotone hhalf
      rw [← hvalue, Format.amount_half] at hle
      rw [abs_mul]
      nlinarith

theorem vote_scaled (h : w.toInt = 2 * v.toInt) :
    Scaled 1 (a * Brightness.number v) (a * Brightness.number w) ∧
      (a * Brightness.number w).Bounded (2 ^ 15) := by
  have hcoordinate := Scaled.self (coordinate_isFinite ha)
  have hbound := (coordinate_bounded ha).mul (Brightness.number_bounded w) (by decide)
  refine ⟨hcoordinate.mul (Brightness.number_scaled h) ?_ hbound.finite, hbound⟩
  exact (vote_cases ha v).imp_right Brightness.amount_binade_le.trans

/-- a reading is an integer, so a vote is a multiple of the last digit of the coordinate -/
theorem vote_grained (v : Int16) : (a * Brightness.number v).Grained 125 :=
  ha.2.2.mul_ofInt (coordinate_isFinite ha) (Brightness.reading_fits v).1
    (Brightness.reading_fits v).2

end

/-! ## sums of votes -/

section
variable {axis : Direction × Direction → Binary32} (haxis : ∀ p, Coordinate (axis p))
include haxis

theorem component_scaled (h : m.Doublable) :
    Scaled 1 (component m axis) (component m.doubled axis) ∧
      (component m.doubled axis).Bounded (36 * 2 ^ 15) := by
  have hvote (p : Direction × Direction) :=
    vote_scaled (haxis p) (Brightness.toInt_doubled h p.1 p.2)
  exact Scaled.sum_pairs (fun p => (hvote p).1) (fun p => (hvote p).2) (by decide)

theorem component_grained (m : Brightness) : (component m axis).Grained 125 := by
  have hsum (l : List (Direction × Direction)) {sum : Binary32} (hs : sum.Grained 125) :
      (l.foldl (fun sum p => sum + axis p * Brightness.number (m.get p.1 p.2)) sum).Grained
        125 := by
    induction l generalizing sum with
    | nil => exact hs
    | cons p l ih => exact ih (hs.add (vote_grained (haxis p) _))
  exact hsum _ (Int.dvd_zero _)

/-- a sum that does not vanish is a normal number, -/
theorem component_full (hfinite : (component m axis).isFinite) : (component m axis).Full :=
  (component_grained haxis m).full hfinite (by decide)

/-- and it is not so great that the shortcut of the arctangent would matter -/
theorem component_near (h : m.Doublable) : (component m.doubled axis).magnitude < 0x4c800000 :=
  (component_scaled haxis h).2.magnitude_lt (by decide)

end

theorem direction_doubled (h : m.Doublable) {basis : Direction → Direction → Displacement}
    (hbasis : ∀ e s, Coordinate (basis e s).x ∧ Coordinate (basis e s).y) :
    (votes m.doubled basis).direction = (votes m basis).direction := by
  have hx (p : Direction × Direction) : Coordinate (basis p.1 p.2).x := (hbasis p.1 p.2).1
  have hy (p : Direction × Direction) : Coordinate (basis p.1 p.2).y := (hbasis p.1 p.2).2
  have hxs := (component_scaled hx h).1
  have hys := (component_scaled hy h).1
  have hangle := atan2_scaled hxs hys (component_full hx hxs.isFinite.1)
    (component_full hy hys.isFinite.1) (component_near hy h)
  unfold Displacement.direction
  rw [votes_eq, votes_eq]
  exact hangle

/-- doubling every reading changes neither angle -/
theorem angles_doubled (h : m.Doublable) :
    bearing m.doubled = bearing m ∧ heading m.doubled = heading m :=
  ⟨direction_doubled h fun _ s => sensorAxis_coordinates s,
    direction_doubled h facingHeading_coordinates⟩

/-- for example, those of a robot in front of us -/
theorem angles_doubled_headOn : Brightness.Doublable ⟨Controller.headOn⟩ ∧
    bearing (Brightness.doubled ⟨Controller.headOn⟩) = bearing ⟨Controller.headOn⟩ ∧
    heading (Brightness.doubled ⟨Controller.headOn⟩) = heading ⟨Controller.headOn⟩ := by
  have hdoublable : Brightness.Doublable ⟨Controller.headOn⟩ := by decide
  exact ⟨hdoublable, angles_doubled hdoublable⟩

end Estimation

end RangeBearing
