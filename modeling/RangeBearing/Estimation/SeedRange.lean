import RangeBearing.Brightness.Basic
import RangeBearing.Photometry
import RangeBearing.Ray

/-!
# The range guessed from one pair

The pair that the bearing and the heading point at is the seed: its reading, divided by the gains
along the line between the robots, is inverted to a distance, and the distance to a position of
the other robot's centre.

* `Estimation.seedPair`    the emitter and the sensor that face each other;
* `Estimation.pairRange`   the range that a given pair implies;
* `Estimation.seedRange`   the range that the seed implies.
-/

namespace RangeBearing

namespace Estimation

open Elementary

/-- the angle under which the other robot sees us, from its own axis -/
def facing (bearing heading : Binary32) : Binary32 := bearing - heading - halfTurn

/-- the emitter and the sensor nearest to the line between the robots -/
def seedPair (bearing heading : Binary32) : Direction × Direction :=
  (Ring.nearest (facing bearing heading), Ring.nearest bearing)

/-- the seed pair, unless an angle is too large to be counted in sixths -/
def seedPair? (bearing heading : Binary32) : Option (Direction × Direction) := do
  let s ← Ring.nearest? bearing
  let e ← Ring.nearest? (facing bearing heading)
  return (e, s)

/-- where the other robot's centre lies, when the ray of a pair has a length and a direction -/
def impliedCentre (e s : Direction) (heading length direction : Binary32) : Displacement :=
  Ring.sensorPosition s + .polar length direction - Ring.emitterPosition e heading

/-- the range that the reading of a pair implies -/
def pairRange (m : Brightness) (e s : Direction) (bearing heading : Binary32) :
    Except Fault Binary32 := do
  let alpha := Angle.wrap (bearing - Ring.boresight s)
  let beta := Angle.wrap (bearing - heading - Ring.boresight e - halfTurn)
  if ¬ Angle.inView alpha ∨ ¬ Angle.inView beta then throw (.outOfView alpha beta)
  let gain := Photometry.sensorGain alpha * Photometry.emitterGain beta
  if ¬ 0 < gain then throw (.model .zeroGain)
  match Photometry.distance (Brightness.number (m.get e s) / gain) with
  | .error cause => throw (.model cause)
  | .ok length => return (impliedCentre e s heading length bearing).length

/-- the range that the seed pair implies -/
def seedRange (m : Brightness) (bearing heading : Binary32) : Except Fault Binary32 :=
  let (e, s) := seedPair bearing heading
  pairRange m e s bearing heading

/-- the range that the seed pair implies, unless an angle is too large to be counted in sixths -/
def seedRange? (m : Brightness) (bearing heading : Binary32) : Option (Except Fault Binary32) :=
  (seedPair? bearing heading).map fun (e, s) => pairRange m e s bearing heading

end Estimation

end RangeBearing
