import RangeBearing.Estimate
import RangeBearing.Estimation.CircularMean
import RangeBearing.Estimation.Refinement

/-!
# The pose behind a matrix

Three passes, each using the results of those before it: bearing and heading, the range of the seed
pair, the range of the neighbourhood.  The first fault ends them.

* `Estimation.fit`    the pose with the refinement behind its range;
* `Estimation.pose`   the pose alone.
-/

namespace RangeBearing

namespace Estimation

/-- a pose and the refinement that gave its range -/
structure Fit where
  pose : Pose
  refinement : Refinement
  deriving DecidableEq

/-- the three passes over a matrix -/
def fit (m : Brightness) (weightFloor : Binary32) : Except Fault Fit := do
  let bearing := bearing m
  let heading := heading m
  let seedRange ← seedRange m bearing heading
  let refinement ← refine m seedRange bearing heading weightFloor
  return ⟨{ bearing, heading, seedRange, range := refinement.range }, refinement⟩

/-- the pose of the robot that lit a matrix -/
def pose (m : Brightness) (weightFloor : Binary32) : Except Fault Pose :=
  (fit m weightFloor).map (·.pose)

end Estimation

end RangeBearing
