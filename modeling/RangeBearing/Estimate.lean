import RangeBearing.Angle

/-!
# Published estimates

* `Pose`       the working result of an estimation, in radians and centimetres;
* `Estimate`   what is published: whole millimetres and degrees.

`Estimate.ofPose` rounds to the published units, a half away from zero, and holds each value
within its field; degrees lie in `(-180, 180]`.
-/

namespace RangeBearing

/-- where another robot stands relative to ours -/
structure Pose where
  /-- the direction towards it -/
  bearing : Binary32
  /-- how it is turned -/
  heading : Binary32
  /-- the range guessed from a single cell (cm) -/
  seedRange : Binary32
  /-- the range averaged over a neighbourhood (cm) -/
  range : Binary32
  deriving DecidableEq

/-- a published measurement of another robot -/
structure Estimate where
  /-- the robot that was measured -/
  source : UInt16
  /-- the distance between the centres (mm) -/
  rangeMm : UInt16
  bearingDeg : Int16
  headingDeg : Int16
  /-- higher is better -/
  confidence : UInt8
  deriving DecidableEq

namespace Estimate

/-- an angle in whole degrees; the angle opposite to zero is `180` -/
def wholeDegrees (angle : Binary32) : Int16 :=
  let degrees := (Angle.toDegrees (Angle.wrap angle)).round.toInt16
  if degrees = -180 then 180 else degrees

def ofPose (source : UInt16) (rangeCm bearing heading confidence : Binary32) : Estimate where
  source
  rangeMm := (rangeCm * 10).round.toUInt16
  bearingDeg := wholeDegrees bearing
  headingDeg := wholeDegrees heading
  confidence := confidence.round.toUInt8

def rangeCm (e : Estimate) : Binary32 := .ofInt e.rangeMm.toNat / 10

def bearing (e : Estimate) : Binary32 := Angle.ofDegrees (.ofInt e.bearingDeg.toInt)

def heading (e : Estimate) : Binary32 := Angle.ofDegrees (.ofInt e.headingDeg.toInt)

/-- the fields of an estimate, named -/
def text (e : Estimate) : String :=
  "RangeBearingEstimate \x7b source_id: " ++ toString e.source.toNat
    ++ ", range_mm: " ++ toString e.rangeMm.toNat
    ++ ", bearing_deg: " ++ toString e.bearingDeg.toInt
    ++ ", heading_deg: " ++ toString e.headingDeg.toInt
    ++ ", confidence: " ++ toString e.confidence.toNat ++ " \x7d"

end Estimate

end RangeBearing
