import RangeBearing.Grid
import RangeBearing.Photometry
import RangeBearing.Ray

/-!
# The matrix that a pose predicts

The photometric model is run forward from a pose, cell by cell.  A cell whose ray falls outside
either field of view is dark.
-/

namespace RangeBearing

namespace Prediction

/-- the intensity along a ray, zero out of view -/
def rayIntensity (ray : Ray) : Binary32 :=
  if ray.inView then
    Photometry.sensorGain ray.alpha * Photometry.emitterGain ray.beta
      * Photometry.intensity ray.length
  else 0

/-- the readings expected of a robot at a range, a bearing and a heading -/
def grid (range bearing heading : Binary32) : Grid Binary32 :=
  let centre := Displacement.polar range bearing
  .ofFn fun e s => rayIntensity (.trace centre heading e s)

end Prediction

end RangeBearing
