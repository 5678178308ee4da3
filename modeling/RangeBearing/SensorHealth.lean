import RangeBearing.Brightness.Basic

/-!
# Silent sensors

A sensor that reads zero for a whole cycle is counted; the six counters of four bits share one
32-bit word, the counter of sensor `s` at bit `4 * s`.  A counter that reaches `silenceLimit` is
reported and starts over.

* `SensorHealth.record`   folds the silent sensors of one cycle into the counters;
* `SensorHealth.sweep`    the same for a matrix, with its energy.
-/

namespace RangeBearing

/-- a set of sensors, sensor `s` at bit `s` -/
abbrev SensorMask := UInt8

namespace SensorMask

def bit (s : Direction) : SensorMask := 1 <<< UInt8.ofNat s

def mem (mask : SensorMask) (s : Direction) : Bool := mask &&& bit s != 0

/-- the sensors with a property -/
def ofPred (p : Direction → Bool) : SensorMask :=
  Direction.all.foldl (fun mask s => if p s then mask ||| bit s else mask) 0

def toList (mask : SensorMask) : List Direction := Direction.all.filter mask.mem

end SensorMask

/-- the counters of consecutive silent cycles -/
structure SensorHealth where
  counters : UInt32
  deriving DecidableEq

/-- the count of silent cycles at which a sensor is reported -/
def silenceLimit : UInt8 := 15

/-- what one cycle says about the sensors -/
structure Sweep where
  /-- the sum of all readings -/
  energy : Int32
  /-- the sensors that read zero throughout -/
  silent : SensorMask
  /-- the sensors that have just reached the limit -/
  faulted : SensorMask
  deriving DecidableEq

namespace SensorHealth

def new : SensorHealth := ⟨0⟩

/-- the place of a counter in the word -/
def shift (s : Direction) : UInt32 := 4 * UInt32.ofNat s

/-- the consecutive silent cycles of a sensor -/
def silence (h : SensorHealth) (s : Direction) : UInt8 :=
  ((h.counters >>> shift s) &&& 0xf).toUInt8

def clear (h : SensorHealth) (s : Direction) : SensorHealth :=
  ⟨h.counters &&& ~~~(0xf <<< shift s)⟩

def count (h : SensorHealth) (s : Direction) : SensorHealth := ⟨h.counters + (1 <<< shift s)⟩

/-- fold one sensor's silence into its counter; whether it has just reached the limit -/
def recordSensor (h : SensorHealth) (s : Direction) (silent : Bool) : SensorHealth × Bool :=
  let h := if silent then h.count s else h.clear s
  if silenceLimit ≤ h.silence s then (h.clear s, true) else (h, false)

/-- fold the silent sensors of one cycle into the counters; the sensors that have just reached the
limit -/
def record (h : SensorHealth) (silent : SensorMask) : SensorHealth × SensorMask :=
  Direction.all.foldl
    (fun (h, faulted) s =>
      let (h, full) := h.recordSensor s (silent.mem s)
      (h, if full then faulted ||| SensorMask.bit s else faulted))
    (h, 0)

/-- fold a matrix into the counters -/
def sweep (h : SensorHealth) (m : Brightness) : SensorHealth × Sweep :=
  let silent := SensorMask.ofPred m.isSilent
  let (h, faulted) := h.record silent
  (h, ⟨m.total, silent, faulted⟩)

end SensorHealth

end RangeBearing
