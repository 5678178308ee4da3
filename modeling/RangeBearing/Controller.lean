import RangeBearing.Acquisition
import RangeBearing.Assessment
import RangeBearing.Estimation.Pose

/-!
# The controller of a robot's cycles

A cycle runs from idle to idle, either as broadcaster or as receiver:

* `Controller.broadcast`   the own illumination sequence;
* `Controller.accept`      claim the robot for a request; safe in an interrupt handler;
* `Controller.collect`     sample the matrix of the accepted request;
* `Controller.use`         estimate, score and publish it;
* `Controller.serve`       accept, collect and use in one call;
* `Controller.takeEstimate`, `Controller.peekEstimate`, `Controller.lastMatrix`,
  `Controller.state`, `Controller.sensorHealth`.

Entering a cycle fails when one is in flight, and a step out of order fails without changing
anything.  A broadcast and a use that got past their entry end idle, whether they succeed or not.
-/

namespace RangeBearing

namespace Controller

open Program

/-- run the own turn as broadcaster; the tag of the cycle -/
def broadcast (config : Config) : Program (Except Fault UInt16) := do
  match ← enter .broadcasting none with
  | .error fault => return .error fault
  | .ok () =>
    let result ← Acquisition.broadcast config.timing config.power
    if let .error fault := result then log (.broadcastAbandoned fault)
    leave
    return result

def accept (request : Request) : Program (Except Fault Unit) := do
  match ← enter .acquiring (some request) with
  | .error fault => return .error fault
  | .ok () =>
    dropMatrix
    return .ok ()

def collect (config : Config) : Program (Except Fault Unit) := do
  match (← readSlot).requestIn .acquiring with
  | .error fault => return .error fault
  | .ok request =>
    let m ← Acquisition.receive config.timing request.arrival
    putMatrix m
    proceed .acquiring .estimating

/-- sweep, estimate, score and publish a matrix -/
def process (config : Config) (request : Request) (m : Brightness) :
    Program (Except Fault Estimate) := do
  log (.matrixTaken request.tag request.source m)
  let (health, sweep) := (← readHealth).sweep m
  (Diagnostic.ofFaulted sweep.faulted).forM log
  writeHealth health
  match Estimation.fit m config.weightFloor with
  | .error fault => return .error fault
  | .ok ⟨pose, refinement⟩ =>
    log (.rangeRefined refinement.candidates refinement.weight)
    match Assessment.score config m sweep.energy pose with
    | .error fault => return .error fault
    | .ok a =>
      let e := Estimate.ofPose request.source a.rangeCm pose.bearing pose.heading a.confidence
      publish e
      return .ok e

def use (config : Config) : Program (Except Fault Estimate) := do
  match (← readSlot).requestIn .estimating with
  | .error fault => return .error fault
  | .ok request =>
    let result ← match ← takeMatrix with
      | none => pure (.error .noMatrix)
      | some m => process config request m
    match result with
    | .ok e => log (.estimatePublished e)
    | .error fault => log (.cycleRejected request.tag request.source fault)
    leave
    return result

def serve (config : Config) (request : Request) : Program (Except Fault Estimate) := do
  match ← accept request with
  | .error fault => return .error fault
  | .ok () =>
    match ← collect config with
    | .error fault => return .error fault
    | .ok () => use config

/-- read and clear the newest unread estimate -/
def takeEstimate : Program (Option Estimate) := Program.takeEstimate

/-- the newest unread estimate, left unread -/
def peekEstimate : Program (Option Estimate) := Program.peekEstimate

def lastMatrix : Program Brightness := Program.lastMatrix

def state : Program CycleState := do return (← readSlot).state

/-- the counters of silent cycles -/
def sensorHealth : Program SensorHealth := readHealth

end Controller

end RangeBearing
