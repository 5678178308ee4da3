import RangeBearing.Photometry
import RangeBearing.Ring
import RangeBearing.Timing

/-!
# Estimation and publication policy

`Config.default` suits the hardware; the `with…` functions override single values and keep them
in order: the penalty limit at or below the reject limit, both without sign, and the least
published range not below zero.
-/

namespace RangeBearing

/-- what the estimation accepts and what is published -/
structure Config where
  /-- the drive level of the emitters -/
  power : UInt16
  /-- the innovation above which a cycle is rejected -/
  rejectAbove : Binary32
  /-- the innovation above which the confidence is cut -/
  penaltyAbove : Binary32
  /-- what the confidence is then divided by -/
  penaltyDivisor : Binary32
  /-- the confidence published when the score is no number -/
  fallbackConfidence : Binary32
  /-- the least range that is published (cm) -/
  leastRange : Binary32
  /-- the least weight that a neighbourhood needs -/
  weightFloor : Binary32
  timing : Timing
  deriving BEq, DecidableEq

namespace Config

/-- the default thresholds -/
def defaultReject : Binary32 := 2.5
def defaultPenalty : Binary32 := 2
def defaultDivisor : Binary32 := 10
def defaultFallback : Binary32 := 0.01
def defaultFloor : Binary32 := 1e-3

/-- two bodies cannot be nearer than touching -/
def touching : Binary32 := 2 * Ring.bodyRadius

def default : Config where
  power := Photometry.fullPower
  rejectAbove := defaultReject
  penaltyAbove := defaultPenalty
  penaltyDivisor := defaultDivisor
  fallbackConfidence := defaultFallback
  leastRange := touching
  weightFloor := defaultFloor
  timing := .default

instance : Inhabited Config := ⟨default⟩

def withPower (c : Config) (level : UInt16) : Config := { c with power := level }

def withLimits (c : Config) (penalty reject : Binary32) : Config :=
  { c with rejectAbove := reject.abs, penaltyAbove := min penalty.abs reject.abs }

def withLeastRange (c : Config) (cm : Binary32) : Config := { c with leastRange := max cm 0 }

def withTiming (c : Config) (timing : Timing) : Config := { c with timing }

end Config

end RangeBearing
