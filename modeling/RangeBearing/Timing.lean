/-!
# The timetable of a cycle

Broadcaster and receiver keep one timetable without any handshake after the request: a settle
time, the power-set phase, and six windows with a dark gap after each.  All times are whole
milliseconds of 32 bits, the poll step apart.

* `Timing.readOffset`      where in a window the receiver reads, so that the read is centred;
* `Timing.arrivalSettle`   the settle time counted from the arrival of the request;
* `Timing.duration?`       the time of a full cycle, unless it leaves the 32-bit integers.
-/

namespace RangeBearing

/-- the times that broadcaster and receiver agree on -/
structure Timing where
  /-- from the request to the power-set phase -/
  settle : UInt32
  /-- for the emitter power to settle -/
  powerSettle : UInt32
  /-- how long each emitter is lit -/
  window : UInt32
  /-- how long one read of all sensors takes -/
  readTime : UInt32
  /-- the dark gap after each window -/
  gap : UInt32
  /-- how long the request is on the wire -/
  latency : UInt32
  /-- the poll step of the waits (µs) -/
  pollStepUs : UInt32
  deriving DecidableEq

namespace Timing

/-- the timetable that the hardware was tuned for -/
def default : Timing where
  settle := 30
  powerSettle := 2
  window := 16
  readTime := 6
  gap := 10
  latency := 8
  pollStepUs := 500

instance : Inhabited Timing := ⟨default⟩

/-- the difference of two times, zero at least -/
def less (a b : UInt32) : UInt32 := if b ≤ a then a - b else 0

/-- from the start of a window to the read in it -/
def readOffset (t : Timing) : UInt32 := less t.window t.readTime / 2

/-- from the arrival of the request to the power-set phase -/
def arrivalSettle (t : Timing) : UInt32 := less t.settle t.latency

/-- the milliseconds from the request to the end of the last gap -/
def durationMs (t : Timing) : Nat :=
  t.settle.toNat + t.powerSettle.toNat + (t.window.toNat + t.gap.toNat) * 6

/-- the time of a full cycle; none when it has no 32-bit number -/
def duration? (t : Timing) : Option UInt32 :=
  if t.durationMs < UInt32.size then some (.ofNat t.durationMs) else none

end Timing

end RangeBearing
