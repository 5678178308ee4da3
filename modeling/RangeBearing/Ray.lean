import RangeBearing.Ring

/-!
# Rays from an emitter to a sensor

The other robot stands at `centre` and is turned by `heading`; our own centre is the origin.
`Ray.trace` draws the line between one of its emitters and one of our sensors, and measures the
line against the axes of both.
-/

namespace RangeBearing

/-- the line from one of our sensors to an emitter of the other robot -/
structure Ray where
  /-- the angle off the sensor's boresight -/
  alpha : Binary32
  /-- the angle off the emitter's boresight -/
  beta : Binary32
  /-- from the sensor to the emitter -/
  span : Displacement
  deriving DecidableEq

namespace Ray

def trace (centre : Displacement) (heading : Binary32) (e s : Direction) : Ray :=
  let emitter := centre + Ring.emitterPosition e heading
  let span := emitter - Ring.sensorPosition s
  { alpha := Angle.wrap (span.direction - Ring.boresight s)
    beta := Angle.wrap ((-span).direction - Ring.boresight e - heading)
    span }

/-- each end faces the other within its field of view -/
def inView (ray : Ray) : Bool := Angle.inView ray.alpha && Angle.inView ray.beta

/-- the distance from the sensor to the emitter (cm) -/
def length (ray : Ray) : Binary32 := ray.span.length

end Ray

end RangeBearing
