import RangeBearing.Angle
import RangeBearing.Direction
import RangeBearing.Displacement

/-!
# The ring of emitters and sensors

The ring lies around the centre of the body.  Direction `k` points at `-π/6 - k * π/3` in the
robot's own frame: direction `0` faces 30° clockwise of the forward axis.

* `Ring.boresight k`           the angle at which direction `k` points;
* `Ring.sensorAxis s`          the unit vector along the boresight of sensor `s`;
* `Ring.facingHeading e s`     the heading implied by emitter `e` facing sensor `s`;
* `Ring.sensorPosition`, `Ring.emitterPosition`   where a pair sits on its ring;
* `Ring.nearest`               the direction nearest to an angle.
-/

namespace RangeBearing

namespace Ring

open Elementary

/-- half of `√3` -/
def halfRootThree : Binary32 := 0.8660254

/-- the radius of the body (cm) -/
def bodyRadius : Binary32 := 2.2

/-- the radius of the ring (cm) -/
def radius : Binary32 := 2.0828

def boresights : Table Binary32 :=
  #v[-twelfthTurn, -quarterTurn, -5 * twelfthTurn, 5 * twelfthTurn, quarterTurn, twelfthTurn]

/-- the angle at which a direction points -/
def boresight (k : Direction) : Binary32 := boresights.entry k

def sensorAxes : Table Displacement :=
  #v[⟨halfRootThree, -0.5⟩, ⟨0, -1⟩, ⟨-halfRootThree, -0.5⟩,
    ⟨-halfRootThree, 0.5⟩, ⟨0, 1⟩, ⟨halfRootThree, 0.5⟩]

/-- the unit vector along a boresight -/
def sensorAxis (s : Direction) : Displacement := sensorAxes.entry s

def facingHeadings : Table Displacement :=
  #v[⟨-1, 0⟩, ⟨-0.5, halfRootThree⟩, ⟨0.5, halfRootThree⟩,
    ⟨1, 0⟩, ⟨0.5, -halfRootThree⟩, ⟨-0.5, -halfRootThree⟩]

/-- the heading of a robot whose emitter `e` faces our sensor `s`; only the number of steps from
the emitter to the sensor matters -/
def facingHeading (e s : Direction) : Displacement := facingHeadings.entry (s - e)

/-- our sensor `s` seen from our centre -/
def sensorPosition (s : Direction) : Displacement := sensorAxis s * radius

/-- emitter `e` of a robot with a heading, seen from the centre of that robot -/
def emitterPosition (e : Direction) (heading : Binary32) : Displacement :=
  .polar radius (boresight e + heading)

/-- the sixths of a turn from the axis to an angle, rounded up, as a 32-bit integer -/
def sixths (angle : Binary32) : Int32 := (3 * angle / halfTurn).ceil.toInt32

/-- the direction nearest to an angle.  The sixths are counted off from `6` in 32 bits.  As they are
rounded up, an angle half-way between two directions, which has a whole number of them, goes to the
one that lies clockwise of it: `-π/3` goes to `1` of `0` and `1`, `π/3` to `5` of `4` and `5`. -/
def nearest (angle : Binary32) : Direction := .ofInt (6 - sixths angle).toInt

/-- the direction nearest to an angle, unless counting off from `6` leaves the 32-bit integers -/
def nearest? (angle : Binary32) : Option Direction :=
  let left := 6 - (sixths angle).toInt
  if left ≤ 0x7fffffff then some (.ofInt left) else none

end Ring

end RangeBearing
