import RangeBearing.Binary.Root
import RangeBearing.Fault

/-!
# The photometric model of the infrared link

The intensity that a sensor sees is the product of the gain of the sensor, the gain of the emitter
and the on-axis intensity at their distance.  Angles are radians, distances centimetres.

* `Photometry.sensorGain`, `Photometry.emitterGain`   the gains by the angle off the boresight:
  a quartic near the axis, a tail `k / a⁴`, zero from `cutoff` on and for `nan`;
* `Photometry.intensity`    `offset + scale / (spread + (r - centre)²)`, flat in the near field;
* `Photometry.distance`     its inverse, which fails on intensities that the fit cannot produce.
-/

namespace RangeBearing

namespace Photometry

/-- the angle beyond which neither sensor nor emitter responds -/
def cutoff : Binary32 := 1.5

/-- the edge of the sensor's quartic and its tail -/
def sensorInner : Binary32 := 0.62
def sensorTail : Binary32 := 0.125

/-- the edge of the emitter's lobe, the lobe and its tail -/
def emitterInner : Binary32 := 0.72
def emitterPeak : Binary32 := 0.94
def emitterQuadratic : Binary32 := 0.5
def emitterTail : Binary32 := 0.25

/-- the distance fit -/
def offset : Binary32 := 3.90804
def scale : Binary32 := 13427.5
def spread : Binary32 := 5.17716
def centre : Binary32 := 0.528561

/-- the fit is flat up to this distance, at `saturation` -/
def nearField : Binary32 := 0.5
def saturation : Binary32 := 2597.1

/-- the drive level at which the model was fitted -/
def fullPower : UInt16 := 256

/-- the fourth power, as the square of the square -/
def quartic (x : Binary32) : Binary32 :=
  let square := x * x
  square * square

/-- the gain of a sensor for a ray `alpha` off its boresight -/
def sensorGain (alpha : Binary32) : Binary32 :=
  let a := alpha.abs
  if ¬ a < cutoff then 0
  else if a ≤ sensorInner then 1 - quartic a
  else sensorTail / quartic a

/-- the gain of an emitter for a ray `beta` off its boresight -/
def emitterGain (beta : Binary32) : Binary32 :=
  let b := beta.abs
  if ¬ b < cutoff then 0
  else if b ≤ emitterInner then emitterPeak + emitterQuadratic * b * b - quartic b
  else emitterTail / quartic b

/-- the on-axis intensity at distance `r` -/
def intensity (r : Binary32) : Binary32 :=
  if r ≤ nearField then saturation
  else
    let d := r - centre
    offset + scale / (spread + d * d)

/-- the distance at which the on-axis intensity is `lambda`; the near field from saturation on -/
def distance (lambda : Binary32) : Except ModelFault Binary32 :=
  if ¬ lambda.isFinite then .error .nonFiniteIntensity
  else if saturation ≤ lambda then .ok nearField
  else
    let excess := lambda - offset
    if excess ≤ 0 then .error .belowAmbientFloor
    else
      let radicand := scale / excess - spread
      if ¬ 0 ≤ radicand then .error .negativeRadicand else .ok (radicand.sqrt + centre)

end Photometry

end RangeBearing
