import RangeBearing.Brightness.Store
import RangeBearing.Fault
import RangeBearing.Mailbox
import RangeBearing.SensorHealth

/-!
# What a robot keeps between calls

The main loop and the interrupt handlers of a robot share four cells: the slot of the cycle in
flight, the matrix store, the sensor health and the mailbox.  They are read and written only in
critical sections, each of which is one step that nothing interrupts.

* `Station`           the four cells;
* `Section`           the critical sections;
* `Section.Answer`, `Section.run`   what a section gives back, and what it does to the cells.

A cycle is entered by a test-and-set (`Section.enter`), so only one can be in flight.
-/

namespace RangeBearing

/-- an accepted request of another robot -/
structure Request where
  source : UInt16
  tag : UInt16
  /-- the reading of the clock when the request had arrived -/
  arrival : UInt32
  deriving DecidableEq

/-- the cycle in flight -/
structure CycleSlot where
  state : CycleState
  request : Option Request
  deriving DecidableEq

namespace CycleSlot

def idle : CycleSlot := ⟨.idle, none⟩

/-- the request that a cycle serves, when it is in the state that a step expects -/
def requestIn (slot : CycleSlot) (expected : CycleState) : Except Fault Request :=
  match slot.request with
  | some request =>
    if slot.state = expected then .ok request else .error (.outOfOrder expected slot.state)
  | none => .error (.outOfOrder expected slot.state)

end CycleSlot

/-- the cells that main loop and interrupt handlers share -/
structure Station where
  slot : CycleSlot
  store : Brightness.Store
  health : SensorHealth
  mailbox : Mailbox
  deriving DecidableEq

namespace Station

/-- idle, with nothing acquired and nothing published -/
def new : Station := ⟨.idle, .empty, .new, .empty⟩

end Station

/-- a critical section -/
inductive Section where
  /-- enter a cycle if none is in flight -/
  | enter (state : CycleState) (request : Option Request)
  /-- go on to the next state if the cycle is in the one expected -/
  | proceed (expected next : CycleState)
  /-- end the cycle, whatever its state -/
  | leave
  | readSlot
  | putMatrix (m : Brightness)
  | takeMatrix
  | lastMatrix
  | dropMatrix
  | readHealth
  | writeHealth (h : SensorHealth)
  | publish (e : Estimate)
  | takeEstimate
  | peekEstimate
  deriving DecidableEq

namespace Section

/-- what a section gives back -/
@[reducible] def Answer : Section → Type
  | enter _ _ | proceed _ _ => Except Fault Unit
  | readSlot => CycleSlot
  | takeMatrix => Option Brightness
  | lastMatrix => Brightness
  | readHealth => SensorHealth
  | takeEstimate | peekEstimate => Option Estimate
  | leave | putMatrix _ | dropMatrix | writeHealth _ | publish _ => Unit

/-- the answer of a section and the cells after it -/
def run : (s : Section) → Station → s.Answer × Station
  | enter state request, st =>
    if st.slot.state = .idle then (.ok (), { st with slot := ⟨state, request⟩ })
    else (.error (.busy st.slot.state), st)
  | proceed expected next, st =>
    if st.slot.state = expected then (.ok (), { st with slot := { st.slot with state := next } })
    else (.error (.outOfOrder expected st.slot.state), st)
  | leave, st => ((), { st with slot := .idle })
  | readSlot, st => (st.slot, st)
  | putMatrix m, st => ((), { st with store := st.store.put m })
  | takeMatrix, st => (st.store.take.1, { st with store := st.store.take.2 })
  | lastMatrix, st => (st.store.last, st)
  | dropMatrix, st => ((), { st with store := st.store.drop })
  | readHealth, st => (st.health, st)
  | writeHealth h, st => ((), { st with health := h })
  | publish e, st => ((), { st with mailbox := st.mailbox.publish e })
  | takeEstimate, st => (st.mailbox.take.1, { st with mailbox := st.mailbox.take.2 })
  | peekEstimate, st => (st.mailbox.peek, st)

end Section

end RangeBearing
