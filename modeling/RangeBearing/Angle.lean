import RangeBearing.Binary.Integral
import RangeBearing.Elementary.Turn

/-!
# Angles

* `Angle.wrap`        the representative of an angle in `(-π, π]`;
* `Angle.toDegrees`, `Angle.ofDegrees`;
* `Angle.inView`      whether an offset lies within a quarter turn of the axis.
-/

namespace RangeBearing

namespace Angle

open Elementary

/-- the representative in `(-π, π]`; `nan` for an angle that is not finite -/
def wrap (a : Binary32) : Binary32 :=
  let r := a.remainder fullTurn
  if r ≤ -halfTurn then r + fullTurn else if halfTurn < r then r - fullTurn else r

def degree : Binary32 := 180 / halfTurn

def radian : Binary32 := halfTurn / 180

def toDegrees (a : Binary32) : Binary32 := a * degree

def ofDegrees (a : Binary32) : Binary32 := a * radian

/-- within the field of view, a quarter turn to each side -/
def inView (a : Binary32) : Bool := a.abs ≤ quarterTurn

end Angle

end RangeBearing
