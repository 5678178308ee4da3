import RangeBearing.Brightness.Basic
import RangeBearing.Config
import RangeBearing.Estimate
import RangeBearing.Innovation
import RangeBearing.Prediction

/-!
# Whether a pose explains a measurement

`Assessment.score` predicts all cells from a pose and compares them with the measured ones.  Above
the reject limit the pose fails.  Otherwise the confidence is the root of the signal energy over
the squared innovation, cut above the penalty limit, and replaced by the fallback when it is no
number or negative.
-/

namespace RangeBearing

/-- what scoring a pose gave -/
structure Assessment where
  /-- the range to publish, not below the least one (cm) -/
  rangeCm : Binary32
  innovation : Binary32
  confidence : Binary32
  deriving DecidableEq

namespace Assessment

/-- the confidence in a pose with an innovation -/
def trust (config : Config) (energy : Int32) (innovation : Binary32) : Binary32 :=
  let raw := (Binary.ofInt energy.toInt).sqrt / (innovation * innovation)
  let cut := if config.penaltyAbove < innovation then raw / config.penaltyDivisor else raw
  if ¬ cut.isFinite ∨ cut < 0 then config.fallbackConfidence else cut

/-- the assessment of a pose -/
def score (config : Config) (m : Brightness) (energy : Int32) (pose : Pose) :
    Except Fault Assessment := do
  let rangeCm := max pose.range config.leastRange
  let expected := Prediction.grid rangeCm pose.bearing pose.heading
  let innovation ← Innovation.between m.numbers expected
  if config.rejectAbove < innovation then
    throw (.poorFit innovation config.rejectAbove)
  return ⟨rangeCm, innovation, trust config energy innovation⟩

end Assessment

end RangeBearing
