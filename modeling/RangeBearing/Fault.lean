import RangeBearing.Binary.Decimal
import RangeBearing.CycleState

/-!
# Why a cycle fails

Every failure is local to one cycle.

* `ModelFault`      where the photometric model has no answer;
* `Fault`           the causes of a failed call;
* `Fault.message`   their texts.
-/

namespace RangeBearing

/-- where the photometric model has no answer -/
inductive ModelFault where
  | nonFiniteIntensity
  | belowAmbientFloor
  | negativeRadicand
  | zeroGain
  | darkMeasurement
  | darkPrediction
  deriving DecidableEq

namespace ModelFault

def reason : ModelFault → String
  | nonFiniteIntensity => "non-finite intensity"
  | belowAmbientFloor => "intensity below ambient floor"
  | negativeRadicand => "negative range radicand"
  | zeroGain => "zero gain on seed pair"
  | darkMeasurement => "measured matrix has zero norm"
  | darkPrediction => "expected matrix has zero norm"

end ModelFault

/-- why a call failed -/
inductive Fault where
  /-- the transceiver refused to send the request -/
  | refused
  /-- another cycle holds the controller -/
  | busy (state : CycleState)
  /-- a step of the cycle came out of order -/
  | outOfOrder (expected actual : CycleState)
  /-- no freshly acquired matrix -/
  | noMatrix
  /-- the seed pair does not see along the bearing and the heading -/
  | outOfView (alpha beta : Binary32)
  | model (cause : ModelFault)
  /-- too little weight around the brightest cell -/
  | faintNeighbourhood (weight : Binary32)
  /-- the pose does not explain the measurement -/
  | poorFit (innovation limit : Binary32)
  deriving BEq, DecidableEq

namespace Fault

def message : Fault → String
  | refused => "IR channel not safe to send, broadcast abandoned"
  | busy state => "RNB cycle already in flight (" ++ state.name ++ ")"
  | outOfOrder expected actual =>
    "Expected cycle state " ++ expected.name ++ ", found " ++ actual.name
  | noMatrix => "Brightness matrix already consumed or never acquired"
  | outOfView alpha beta =>
    "Seed pair outside field of view (alpha " ++ alpha.text ++ ", beta " ++ beta.text ++ ")"
  | model cause => "Photometric model domain violation: " ++ cause.reason
  | faintNeighbourhood weight =>
    "Degenerate range neighbourhood (weight " ++ weight.text ++ ")"
  | poorFit innovation limit =>
    "Innovation " ++ innovation.text ++ " exceeds limit " ++ limit.text

/-- what the transceiver itself says when it refuses to send -/
def refusal : String := "IR transceiver is not safe to transmit"

end Fault

end RangeBearing
