import RangeBearing.Program
import RangeBearing.Timing

/-!
# The two sides of an acquisition

The broadcaster announces a cycle and lights its emitters one after another; every robot that
heard the announcement reads its sensors once in each window.  Both keep the same timetable and
nothing passes between them after the request.

* `Acquisition.broadcast`   announce, block reception, light the emitters, unblock;
* `Acquisition.receive`     settle, then a row of the matrix for each window.
-/

namespace RangeBearing

namespace Acquisition

open Program

/-- the command that announces a cycle -/
def requestCode : UInt8 := 114

/-- the part of a clock reading that tags a cycle -/
def tagMask : UInt32 := 0xffff

/-- light one emitter for a window, and keep dark for a gap -/
def lightWindow (t : Timing) (d : Direction) : Program Unit := do
  let start ← readClock
  emitterOn d
  wait start t.window t.pollStepUs
  emitterOff d
  pause t.gap

/-- the illumination sequence for a request that was sent at a clock reading -/
def illuminate (t : Timing) (sentAt : UInt32) (power : UInt16) : Program Unit := do
  wait sentAt t.settle t.pollStepUs
  let powerSetAt ← readClock
  setPower power
  atomically do
    wait powerSetAt t.powerSettle t.pollStepUs
    Direction.all.forM (lightWindow t)

/-- announce a cycle and light the emitters; the tag sent with the request.  When the transceiver
refuses to send nothing else happens. -/
def broadcast (t : Timing) (power : UInt16) : Program (Except Fault UInt16) := do
  let sentAt ← readClock
  let tag := (sentAt &&& tagMask).toUInt16
  if ← send requestCode tag then
    setBlocked true
    illuminate t sentAt power
    setBlocked false
    log (.illuminated tag)
    return .ok tag
  else
    return .error .refused

/-- read the sensors once in a window, and wait out the window and the gap -/
def readWindow (t : Timing) (m : Brightness) (e : Direction) : Program Brightness := do
  let start ← readClock
  wait start t.readOffset t.pollStepUs
  let row ← readSensors
  wait start t.window t.pollStepUs
  pause t.gap
  return m.setRow e row

/-- sample a full matrix for a request that arrived at a clock reading -/
def receive (t : Timing) (arrival : UInt32) : Program Brightness := do
  wait arrival t.arrivalSettle t.pollStepUs
  atomically do
    let powerSetAt ← readClock
    wait powerSetAt t.powerSettle t.pollStepUs
    Direction.all.foldlM (readWindow t) .dark

end Acquisition

end RangeBearing
