import RangeBearing.Controller
import RangeBearing.Simulation.World

/-!
# Sessions with a controller

A session is a list of calls, made one after another.  A call that drives the transceiver has a
script for it and may be interrupted: at its events further calls run on the same station and the
same clock, each with a transceiver of its own.

* `Simulation.Call`, `Simulation.Handler`   the calls and what interrupts them;
* `Simulation.Report`                       what a call gave and what could be seen after it;
* `Simulation.session`                      the reports of a list of calls.
-/

namespace RangeBearing

namespace Simulation

mutual

/-- a call of a session -/
inductive Call where
  | broadcast (script : Script) (handlers : List Handler)
  /-- a request that arrived at a clock reading, by default at the present one -/
  | accept (source tag : UInt16) (arrival : Option UInt32)
  | collect (script : Script) (handlers : List Handler)
  | use
  | serve (source tag : UInt16) (arrival : Option UInt32) (script : Script)
      (handlers : List Handler)
  | takeEstimate
  | peekEstimate
  | lastMatrix
  | config
  /-- let some microseconds pass -/
  | pass (us : UInt32)

/-- calls that run at an event of a transceiver -/
inductive Handler where
  | mk (event : Nat) (calls : List Call)

end

/-- what a call gave back -/
inductive Outcome where
  | nothing
  | done
  | tag (tag : UInt16)
  | estimate (e : Estimate)
  | fault (f : Fault)
  | mail (e : Option Estimate)
  | matrix (m : Brightness)
  | config (c : Config)

namespace Outcome

def ofTag : Except Fault UInt16 → Outcome
  | .ok t => tag t
  | .error f => fault f

def ofUnit : Except Fault Unit → Outcome
  | .ok () => done
  | .error f => fault f

def ofEstimate : Except Fault Estimate → Outcome
  | .ok e => estimate e
  | .error f => fault f

end Outcome

/-- the outcome of a call, what could be seen after it, the events of its transceiver if it had
one, and the reports of the calls that interrupted it by the number of the event -/
inductive Report where
  | mk (outcome : Outcome) (state : CycleState) (now : UInt32) (health : SensorHealth)
      (events : Option (List Event)) (interrupted : List (Nat × List Report))

/-- a report on the world as it is now -/
def reportNow (outcome : Outcome) (events : Option (List Event))
    (interrupted : List (Nat × List Report)) : Run Report := do
  let w ← get
  return .mk outcome w.station.slot.state w.clock.reading w.station.health events interrupted

/-- a call that drives a transceiver -/
def driven {α : Type} (script : Script) (interrupts : List (Interrupt (List Report)))
    (outcome : α → Outcome) (p : Program α) : Run Report := do
  let (a, t) ← run p (.new script interrupts)
  reportNow (outcome a) t.events t.reports

/-- a call that drives no transceiver -/
def undriven {α : Type} (outcome : α → Outcome) (p : Program α) : Run Report := do
  let unused : Transceiver Unit := .new ⟨[], false, false⟩ []
  let (a, _) ← run p unused
  reportNow (outcome a) none []

/-- the request of a call, arrived by default at the present reading of the clock -/
def requestOf (source tag : UInt16) (arrival : Option UInt32) : Run Request := do
  return ⟨source, tag, arrival.getD (← get).clock.reading⟩

mutual

def call (c : Config) : Call → Run Report
  | .broadcast script handlers =>
    driven script (interrupts c handlers) .ofTag (Controller.broadcast c)
  | .accept source tag arrival => do
    undriven .ofUnit (Controller.accept (← requestOf source tag arrival))
  | .collect script handlers =>
    driven script (interrupts c handlers) .ofUnit (Controller.collect c)
  | .use => undriven .ofEstimate (Controller.use c)
  | .serve source tag arrival script handlers => do
    driven script (interrupts c handlers) .ofEstimate
      (Controller.serve c (← requestOf source tag arrival))
  | .takeEstimate => undriven .mail Controller.takeEstimate
  | .peekEstimate => undriven .mail Controller.peekEstimate
  | .lastMatrix => undriven .matrix Controller.lastMatrix
  | .config => reportNow (.config c) none []
  | .pass us => do
    modify fun w => { w with clock := w.clock.afterUs us }
    reportNow .nothing none []

def calls (c : Config) : List Call → Run (List Report)
  | [] => pure []
  | x :: xs => do
    let report ← call c x
    return report :: (← calls c xs)

def interrupt (c : Config) : Handler → Interrupt (List Report)
  | .mk event xs => ⟨event, calls c xs⟩

def interrupts (c : Config) : List Handler → List (Interrupt (List Report))
  | [] => []
  | h :: hs => interrupt c h :: interrupts c hs

end

/-- the reports of a session that starts at a clock reading, and the world after it -/
def session (c : Config) (startMs : Nat) (xs : List Call) : Option (List Report × World) :=
  (calls c xs).run (.new (startMs * 1000))

end Simulation

end RangeBearing
