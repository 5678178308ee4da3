import RangeBearing.Brightness.Basic
import RangeBearing.Ring

/-!
# Bearing and heading of a matrix

Each reading votes for the boresight of its sensor (bearing) and for the heading implied by its
emitter facing its sensor.  The votes are added up as displacements, in the order of the cells,
and the angles of the two sums are the weighted circular means.
-/

namespace RangeBearing

namespace Estimation

/-- the sum of a unit vector for each cell, weighted by the reading -/
def votes (m : Brightness) (basis : Direction → Direction → Displacement) : Displacement :=
  m.cells.foldl
    (fun sum c => sum + basis c.emitter c.sensor * Brightness.number c.value) .zero

/-- the direction towards the robot that lit the matrix -/
def bearing (m : Brightness) : Binary32 := (votes m fun _ s => Ring.sensorAxis s).direction

/-- how the robot that lit the matrix is turned -/
def heading (m : Brightness) : Binary32 := (votes m Ring.facingHeading).direction

end Estimation

end RangeBearing
