import RangeBearing.Estimate
import RangeBearing.Fault
import RangeBearing.SensorHealth

/-!
# Diagnostics

Rejected cycles and sensor faults are reported here and nowhere else.  A diagnostic is data; its
level and its text are functions of it.
-/

namespace RangeBearing

/-- how much a diagnostic matters -/
inductive Level where
  | debug
  | info
  | warn
  deriving DecidableEq

namespace Level

def name : Level → String
  | debug => "debug"
  | info => "info"
  | warn => "warn"

end Level

/-- what a cycle reports -/
inductive Diagnostic where
  /-- the own illumination sequence ended -/
  | illuminated (tag : UInt16)
  /-- the request could not be sent -/
  | broadcastAbandoned (fault : Fault)
  /-- a matrix goes into the estimation -/
  | matrixTaken (tag source : UInt16) (m : Brightness)
  /-- a sensor has just reached the limit of silent cycles -/
  | sensorSilent (s : Direction)
  /-- a range was averaged over a neighbourhood -/
  | rangeRefined (candidates : Nat) (weight : Binary32)
  | estimatePublished (e : Estimate)
  | cycleRejected (tag source : UInt16) (fault : Fault)
  deriving DecidableEq

namespace Diagnostic

def level : Diagnostic → Level
  | illuminated _ => .debug
  | broadcastAbandoned _ => .warn
  | matrixTaken _ _ _ => .debug
  | sensorSilent _ => .warn
  | rangeRefined _ _ => .debug
  | estimatePublished _ => .debug
  | cycleRejected _ _ _ => .info

def text : Diagnostic → String
  | illuminated tag => "rnb blast done, tag " ++ toString tag.toNat
  | broadcastAbandoned fault => "rnb broadcast abandoned: " ++ fault.message
  | matrixTaken tag source m =>
    "rnb matrix tag " ++ toString tag.toNat ++ " from " ++ toString source.toNat ++ ": " ++ m.text
  | sensorSilent s =>
    "sensor " ++ toString s.val ++ " silent for " ++ toString silenceLimit.toNat
      ++ " consecutive cycles"
  | rangeRefined candidates weight =>
    "refined range from " ++ toString candidates ++ " candidates, neighbourhood weight "
      ++ weight.text
  | estimatePublished e => "rnb estimate published: " ++ e.text
  | cycleRejected tag source fault =>
    "rnb cycle " ++ toString tag.toNat ++ " from " ++ toString source.toNat ++ " rejected: "
      ++ fault.message

/-- the reports on the sensors that have just reached the limit, in their order -/
def ofFaulted (mask : SensorMask) : List Diagnostic := mask.toList.map sensorSilent

end Diagnostic

end RangeBearing
