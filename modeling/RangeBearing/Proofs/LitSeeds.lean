import RangeBearing.Config
import RangeBearing.Estimation.Pose
import RangeBearing.Proofs.Arctangents
import RangeBearing.Proofs.Cycles
import RangeBearing.Proofs.Distances
import RangeBearing.Proofs.Exactness
import RangeBearing.Proofs.Gains

/-!
# Poses come from light

A matrix without a positive reading has no pose, whatever the weight floor.  The bearing and the
heading are moderate, so the sixths of their seed pair are counted within 32 bits; and a range is
implied only where the reading of the pair, divided by the gains, is above the ambient floor.

* `Estimation.seedPair?_eq`         the seed pair of a matrix can be counted;
* `Estimation.LitSeed`              what holds of the pair behind a pose;
* `Estimation.pose_from_light`      for every configuration and matrix.
-/

namespace RangeBearing

open Elementary Binary

namespace Ring

/-- a bound on the angles whose sixths are counted -/
def countedBound : Binary32 := 2000000

theorem natAbs_sixths_le {angle : Binary32} (h : angle.Within countedBound) :
    (sixths angle).toInt.natAbs ≤ 2000000 := by
  have hturn : halfTurn ≤ halfTurn := by decide
  have hproduct := Within.mul_within (.self 3) h (by decide)
  have hquotient := hproduct.div_of_le hturn (by decide) (by decide)
  have hceil := hquotient.ceil (by decide)
  have hbound : (3 * countedBound / halfTurn).abs.ceil.abs.truncate.natAbs ≤ 2000000 := by
    decide
  have hclamp : ((3 * angle / halfTurn).ceil.clampTo (-0x80000000) 0x7fffffff).natAbs ≤ _ :=
    hceil.natAbs_clampTo_le_truncate (by decide) (by decide) (by decide)
  unfold sixths toInt32
  rw [Int32.toInt_ofInt_of_le (by omega) (by omega)]
  exact Nat.le_trans hclamp hbound

theorem nearest?_of_within {angle : Binary32} (h : angle.Within countedBound) :
    nearest? angle = some (nearest angle) := by
  have hsixths := natAbs_sixths_le h
  have hsub : (6 - sixths angle).toInt = 6 - (sixths angle).toInt := by
    have hsix : (6 : Int32).toInt = 6 := by decide
    rw [Int32.toInt_sub, hsix]
    exact Int.bmod_eq_of_le (by omega) (by omega)
  unfold nearest? nearest
  dsimp only
  rw [if_pos (by omega), hsub]

end Ring

namespace Estimation

variable {m : Brightness} {e s : Direction} {weightFloor range : Binary32} {p : Pose}

theorem facing_within {bearing heading : Binary32} (hb : bearing.Within angleBound)
    (hh : heading.Within angleBound) : (facing bearing heading).Within Ring.countedBound := by
  have hdifference := hb.sub hh (by decide) (by decide)
  exact (hdifference.sub (.self halfTurn) (by decide) (by decide)).widen (by decide)

theorem seedPair?_eq (m : Brightness) :
    seedPair? (bearing m) (heading m) = some (seedPair (bearing m) (heading m)) := by
  have hbearing : (bearing m).Within angleBound := atan2_within _ _
  have hheading : (heading m).Within angleBound := atan2_within _ _
  unfold seedPair?
  rw [Ring.nearest?_of_within (hbearing.widen (by decide)),
    Ring.nearest?_of_within (facing_within hbearing hheading)]
  rfl

/-- the angle of a ray along a bearing off the boresight of a sensor -/
def sensorAngle (s : Direction) (bearing : Binary32) : Binary32 :=
  Angle.wrap (bearing - Ring.boresight s)

/-- the angle of the ray off the boresight of an emitter -/
def emitterAngle (e : Direction) (bearing heading : Binary32) : Binary32 :=
  Angle.wrap (bearing - heading - Ring.boresight e - halfTurn)

/-- the gain of a pair along a ray -/
def pairGain (e s : Direction) (bearing heading : Binary32) : Binary32 :=
  Photometry.sensorGain (sensorAngle s bearing) *
    Photometry.emitterGain (emitterAngle e bearing heading)

/-- a range is implied by a distance along a ray that both ends see -/
theorem distance_of_pairRange {bearing heading : Binary32}
    (h : pairRange m e s bearing heading = .ok range) : 0 < pairGain e s bearing heading ∧
      ∃ length, Photometry.distance (Brightness.number (m.get e s) / pairGain e s bearing heading) =
        .ok length := by
  unfold pairRange at h
  dsimp only at h
  rw [← sensorAngle, ← emitterAngle, ← pairGain] at h
  by_cases hview : ¬ Angle.inView (sensorAngle s bearing) ∨
      ¬ Angle.inView (emitterAngle e bearing heading)
  · rw [if_pos hview] at h
    cases h
  · rw [if_neg hview] at h
    change (if _ then _ else _) = _ at h
    by_cases hgain : 0 < pairGain e s bearing heading
    · rw [if_neg (not_not.mpr hgain)] at h
      cases hdistance : Photometry.distance
          (Brightness.number (m.get e s) / pairGain e s bearing heading) with
      | error cause =>
        rw [hdistance] at h
        cases h
      | ok length => exact ⟨hgain, length, rfl⟩
    · rw [if_pos hgain] at h
      cases h

/-- what a pair sees of the other robot on a ray along a bearing -/
structure Lights (m : Brightness) (e s : Direction) (bearing heading : Binary32) : Prop where
  positive : 0 < m.get e s
  alpha : (sensorAngle s bearing).abs < Photometry.cutoff
  beta : (emitterAngle e bearing heading).abs < Photometry.cutoff
  ambient : Photometry.offset < Brightness.number (m.get e s) / pairGain e s bearing heading

theorem lights_of_pairRange {bearing heading : Binary32}
    (h : pairRange m e s bearing heading = .ok range) : Lights m e s bearing heading := by
  obtain ⟨hgain, length, hdistance⟩ := distance_of_pairRange h
  obtain ⟨halpha, hbeta⟩ := Photometry.gain_pos_iff.mp hgain
  have hambient := Photometry.offset_lt_of_distance hdistance
  -- the floor itself is above zero, and the gain is a positive number
  have hlit : 0 < Brightness.number (m.get e s) / pairGain e s bearing heading :=
    Binary.lt_of_lt_of_le (by decide) (Binary.le_of_lt hambient)
  have hfinite : (pairGain e s bearing heading).isFinite :=
    (Photometry.gain_between halpha hbeta).isFinite
  have hvalue := value_pos_of_div (Brightness.number_isFinite _) hfinite hgain hlit
  exact ⟨Brightness.reading_pos hvalue, halpha, hbeta, hambient⟩

/-- the pair behind a pose is lit -/
def LitSeed (m : Brightness) (p : Pose) : Prop :=
  Lights m (seedPair p.bearing p.heading).1 (seedPair p.bearing p.heading).2 p.bearing p.heading

theorem pose_eq_ok (h : pose m weightFloor = .ok p) : p.bearing = bearing m ∧
    p.heading = heading m ∧ seedRange m p.bearing p.heading = .ok p.seedRange := by
  unfold pose fit at h
  dsimp only at h
  cases hseed : seedRange m (bearing m) (heading m) with
  | error fault =>
    rw [hseed] at h
    cases h
  | ok seed =>
    rw [hseed] at h
    change (refine m seed (bearing m) (heading m) weightFloor >>= _).map _ = _ at h
    cases hrefine : refine m seed (bearing m) (heading m) weightFloor with
    | error fault =>
      rw [hrefine] at h
      cases h
    | ok refinement =>
      rw [hrefine] at h
      obtain rfl := Except.ok.inj h
      exact ⟨rfl, rfl, hseed⟩

theorem litSeed_of_pose (h : pose m weightFloor = .ok p) : LitSeed m p := by
  obtain ⟨-, -, hseed⟩ := pose_eq_ok h
  exact lights_of_pairRange hseed

/-- what holds of the estimation of a matrix -/
structure FromLight (c : Config) (m : Brightness) : Prop where
  /-- the seed pair is counted without leaving 32 bits -/
  counted : seedPair? (bearing m) (heading m) = some (seedPair (bearing m) (heading m))
  /-- without a positive reading there is no pose, whatever the configuration -/
  dark : (∀ e s, m.get e s ≤ 0) → ∃ fault, pose m c.weightFloor = .error fault
  lit : ∀ {p}, pose m c.weightFloor = .ok p →
    p.bearing = bearing m ∧ p.heading = heading m ∧ LitSeed m p

theorem pose_from_light (c : Config) (m : Brightness) : FromLight c m where
  counted := seedPair?_eq m
  dark hdark := by
    cases h : pose m c.weightFloor with
    | error fault => exact ⟨fault, rfl⟩
    | ok p => exact absurd (litSeed_of_pose h).positive (Int16.not_lt.mpr (hdark _ _))
  lit h := by
    obtain ⟨hbearing, hheading, -⟩ := pose_eq_ok h
    exact ⟨hbearing, hheading, litSeed_of_pose h⟩

/-- for example, a robot in front of us -/
theorem pose_from_light_headOn : ∃ p, pose ⟨Controller.headOn⟩ Config.default.weightFloor = .ok p ∧
    LitSeed ⟨Controller.headOn⟩ p := by
  have hpose : (pose ⟨Controller.headOn⟩ Config.default.weightFloor).toOption.isSome := by
    decide +kernel
  cases h : pose ⟨Controller.headOn⟩ Config.default.weightFloor with
  | error fault =>
    rw [h] at hpose
    cases hpose
  | ok p =>
    obtain ⟨-, -, hlit⟩ := (pose_from_light .default _).lit h
    exact ⟨p, rfl, hlit⟩

/-- a floor below zero lets no dark matrix pass -/
example : pose .dark (-1) = .error (.model .belowAmbientFloor) := by decide

end Estimation

end RangeBearing
