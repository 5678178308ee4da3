/-!
# The millisecond clock

A clock counts microseconds and is read in milliseconds, as a 32-bit number that wraps around.
Readings are never compared, only subtracted, so that a wrap between them does no harm.

* `Clock.reading`   the reading;
* `Clock.elapsed`   the milliseconds since a reading, modulo `2 ^ 32`;
* `Clock.wait`      polls until a budget has elapsed.

Polling need not end: a step of zero stands still, and a long step can jump over every moment at
which the budget has elapsed.  The readings repeat after `period` microseconds, so polls that have
not ended after `period` steps never end.
-/

namespace RangeBearing

/-- the microseconds that have passed -/
structure Clock where
  micros : Nat
  deriving DecidableEq

namespace Clock

def reading (c : Clock) : UInt32 := .ofNat (c.micros / 1000)

def afterMs (c : Clock) (ms : UInt32) : Clock := ⟨c.micros + ms.toNat * 1000⟩

def afterUs (c : Clock) (us : UInt32) : Clock := ⟨c.micros + us.toNat⟩

def elapsed (c : Clock) (start : UInt32) : UInt32 := c.reading - start

/-- the microseconds after which the readings repeat -/
def period : Nat := UInt32.size * 1000

/-- at most `n` polls for a budget of milliseconds, `step` microseconds apart -/
def poll (start budget step : UInt32) : Nat → Clock → Option Clock
  | 0, _ => none
  | n + 1, c =>
    if c.elapsed start < budget then poll start budget step n (c.afterUs step) else some c

/-- the clock when the budget has elapsed since `start`; none when the polls never end -/
def wait (c : Clock) (start budget step : UInt32) : Option Clock :=
  poll start budget step (period + 1) c

theorem poll_elapsed {start budget step : UInt32} {n : Nat} {c d : Clock}
    (h : poll start budget step n c = some d) : budget ≤ d.elapsed start := by
  induction n generalizing c with
  | zero => cases h
  | succ n ih =>
    simp only [poll] at h
    split at h
    · exact ih h
    · cases h
      exact UInt32.not_lt.mp ‹_›

theorem wait_of_elapsed {c : Clock} {start budget step : UInt32}
    (h : budget ≤ c.elapsed start) : c.wait start budget step = some c := by
  simp [wait, poll, UInt32.not_lt.mpr h]

end Clock

end RangeBearing
