import RangeBearing.Clock
import RangeBearing.Program

/-!
# A robot with a scripted transceiver

`World` is a station with a clock, the nesting depth of critical sections and the diagnostics so
far.  `Transceiver` answers the calls of the infrared transceiver from a script and records them
as events.  Right after an event is recorded, and before the call returns, the interrupts that are
due at it run.

* `Simulation.step`   the meaning of one step of a call; none when a wait never ends;
* `Simulation.run`    the meaning of a call.
-/

namespace RangeBearing

namespace Simulation

/-- a robot, its clock and what its scheduler and its diagnostics have recorded -/
structure World where
  station : Station
  clock : Clock
  /-- how many critical sections of the scheduler are open -/
  depth : Nat
  /-- how many have been opened -/
  sections : Nat
  /-- newest last -/
  log : List Diagnostic

namespace World

def new (micros : Nat) : World := ⟨.new, ⟨micros⟩, 0, 0, []⟩

end World

/-- how a transceiver answers -/
structure Script where
  /-- the rows read one after another, over and over; dark when there are none -/
  rows : List (Row Int16)
  /-- whether requests are refused -/
  refuse : Bool
  /-- whether the transceiver cannot block reception -/
  plain : Bool

namespace Script

/-- the row of the `k`-th read -/
def row (script : Script) (k : Nat) : Row Int16 :=
  script.rows.getD (k % script.rows.length) (.replicate 6 0)

end Script

/-- a recorded call of a transceiver -/
inductive Recorded where
  | broadcast (code : UInt8) (tag : UInt16)
  | power (level : UInt16)
  | on (d : Direction)
  | off (d : Direction)
  /-- the reads are counted from `0` -/
  | read (k : Nat)
  | blocked (b : Bool)
  deriving DecidableEq

/-- a call of a transceiver with the moment of it -/
structure Event where
  /-- the reading of the clock -/
  now : UInt32
  inCritical : Bool
  call : Recorded
  deriving DecidableEq

/-- a computation on a world that may never end -/
abbrev Run := StateT World Option

/-- what runs at an event, by the number of the event -/
structure Interrupt (ρ : Type) where
  event : Nat
  body : Run ρ

/-- a scripted transceiver, its events and what the interrupts gave -/
structure Transceiver (ρ : Type) where
  script : Script
  interrupts : List (Interrupt ρ)
  reads : Nat
  events : List Event
  reports : List (Nat × ρ)

namespace Transceiver

variable {ρ : Type}

def new (script : Script) (interrupts : List (Interrupt ρ)) : Transceiver ρ :=
  ⟨script, interrupts, 0, [], []⟩

/-- the interrupts at the `i`-th event, in the order of the script -/
def due (t : Transceiver ρ) (i : Nat) : List (Interrupt ρ) := t.interrupts.filter (·.event = i)

end Transceiver

/-- a computation on a world with a transceiver -/
abbrev Driven (ρ : Type) := StateT (Transceiver ρ) Run

variable {ρ : Type}

/-- record a call, and run the interrupts that are due -/
def record (call : Recorded) : Driven ρ Unit := do
  let w ← getThe World
  let t ← getThe (Transceiver ρ)
  let event : Event := ⟨w.clock.reading, 0 < w.depth, call⟩
  set { t with events := t.events ++ [event] }
  (t.due t.events.length).forM fun interrupt => do
    let report ← interrupt.body
    modify fun t => { t with reports := t.reports ++ [(interrupt.event, report)] }

/-- a call of the transceiver -/
def radio : (r : Radio) → Driven ρ r.Answer
  | .broadcast code tag => do
    if (← get).script.refuse then return false
    record (.broadcast code tag)
    return true
  | .setPower level => record (.power level)
  | .emitterOn d => record (.on d)
  | .emitterOff d => record (.off d)
  | .readSensors => do
    let t ← get
    set { t with reads := t.reads + 1 }
    record (.read t.reads)
    return t.script.row t.reads
  | .setBlocked b => do
    if (← get).script.plain then return
    record (.blocked b)

/-- one step of a call -/
def step : (a : Action) → Driven ρ a.Answer
  | .shared s => do
    let w ← getThe World
    let (answer, station) := s.run w.station
    modifyThe World fun w => { w with station }
    return answer
  | .radio r => radio r
  | .readClock => return (← getThe World).clock.reading
  | .pause ms => modifyThe World fun w => { w with clock := w.clock.afterMs ms }
  | .wait start budget step => do
    let w ← getThe World
    let clock ← (w.clock.wait start budget step : Option Clock)
    modifyThe World fun w => { w with clock }
  | .enterCritical =>
    modifyThe World fun w => { w with depth := w.depth + 1, sections := w.sections + 1 }
  | .leaveCritical => modifyThe World fun w => { w with depth := w.depth - 1 }
  | .log d => modifyThe World fun w => { w with log := w.log ++ [d] }

/-- a call on a world with a transceiver; its result and the transceiver after it -/
def run {α : Type} (p : Program α) (t : Transceiver ρ) : Run (α × Transceiver ρ) :=
  StateT.run (p.run step) t

end Simulation

end RangeBearing
