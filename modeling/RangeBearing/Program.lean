import RangeBearing.Diagnostic
import RangeBearing.Station

/-!
# Calls as programs

A call is a tree of single steps: what to do next, and how to go on with each answer.  The steps
are the critical sections of the station, the calls of the infrared transceiver, the calls of the
scheduler, and the diagnostics.  Nothing happens between two steps of a call, so an interrupt is
something that runs there.

* `Radio`, `Action`      the steps, with their answers;
* `Program α`            a call that gives back an `α`; a monad;
* `Program.run`          the meaning of a program in a monad, given that of the steps.
-/

namespace RangeBearing

/-- a call of the infrared transceiver -/
inductive Radio where
  /-- send a command with a tag out of all emitters -/
  | broadcast (code : UInt8) (tag : UInt16)
  | setPower (level : UInt16)
  | emitterOn (d : Direction)
  | emitterOff (d : Direction)
  /-- one instantaneous reading of all sensors -/
  | readSensors
  /-- ignore incoming traffic, or listen again -/
  | setBlocked (blocked : Bool)
  deriving DecidableEq

namespace Radio

/-- what a call of the transceiver gives back; a broadcast says whether it was sent -/
@[reducible] def Answer : Radio → Type
  | broadcast _ _ => Bool
  | readSensors => Row Int16
  | setPower _ | emitterOn _ | emitterOff _ | setBlocked _ => Unit

end Radio

/-- a step of a call -/
inductive Action where
  | shared (s : Section)
  | radio (r : Radio)
  /-- read the clock -/
  | readClock
  | pause (ms : UInt32)
  /-- poll every `step` microseconds until `budget` milliseconds have elapsed since `start` -/
  | wait (start budget step : UInt32)
  /-- keep interrupts out from here on -/
  | enterCritical
  | leaveCritical
  | log (d : Diagnostic)
  deriving DecidableEq

namespace Action

/-- what a step gives back -/
@[reducible] def Answer : Action → Type
  | shared s => s.Answer
  | radio r => r.Answer
  | readClock => UInt32
  | pause _ | wait _ _ _ | enterCritical | leaveCritical | log _ => Unit

end Action

/-- a call that gives back an `α`: a result, or a step with the way on from each of its answers -/
inductive Program (α : Type) where
  | done (a : α)
  | act (step : Action) (next : step.Answer → Program α)

namespace Program

variable {α β : Type}

def bind (f : α → Program β) : Program α → Program β
  | done a => f a
  | act step next => act step fun answer => (next answer).bind f

instance : Monad Program where
  pure := done
  bind p f := p.bind f

def perform (step : Action) : Program step.Answer := act step done

theorem bind_done (a : α) (f : α → Program β) : (done a >>= f) = f a := rfl

theorem bind_act (step : Action) (next : step.Answer → Program α) (f : α → Program β) :
    (act step next >>= f) = act step fun answer => next answer >>= f := rfl

theorem bind_pure_self (p : Program α) : p.bind done = p := by
  induction p with
  | done a => rfl
  | act step next ih => simp only [bind, ih]

theorem bind_bind {γ : Type} (p : Program α) (f : α → Program β) (g : β → Program γ) :
    (p.bind f).bind g = p.bind fun a => (f a).bind g := by
  induction p with
  | done a => rfl
  | act step next ih => simp only [bind, ih]

instance : LawfulMonad Program :=
  .mk' Program bind_pure_self (fun _ _ => rfl) bind_bind

/-! ## the single steps -/

def enter (state : CycleState) (request : Option Request) : Program (Except Fault Unit) :=
  perform (.shared (.enter state request))
def proceed (expected next : CycleState) : Program (Except Fault Unit) :=
  perform (.shared (.proceed expected next))
def leave : Program Unit := perform (.shared .leave)
def readSlot : Program CycleSlot := perform (.shared .readSlot)
def putMatrix (m : Brightness) : Program Unit := perform (.shared (.putMatrix m))
def takeMatrix : Program (Option Brightness) := perform (.shared .takeMatrix)
def lastMatrix : Program Brightness := perform (.shared .lastMatrix)
def dropMatrix : Program Unit := perform (.shared .dropMatrix)
def readHealth : Program SensorHealth := perform (.shared .readHealth)
def writeHealth (h : SensorHealth) : Program Unit := perform (.shared (.writeHealth h))
def publish (e : Estimate) : Program Unit := perform (.shared (.publish e))
def takeEstimate : Program (Option Estimate) := perform (.shared .takeEstimate)
def peekEstimate : Program (Option Estimate) := perform (.shared .peekEstimate)

def send (code : UInt8) (tag : UInt16) : Program Bool := perform (.radio (.broadcast code tag))
def setPower (level : UInt16) : Program Unit := perform (.radio (.setPower level))
def emitterOn (d : Direction) : Program Unit := perform (.radio (.emitterOn d))
def emitterOff (d : Direction) : Program Unit := perform (.radio (.emitterOff d))
def readSensors : Program (Row Int16) := perform (.radio .readSensors)
def setBlocked (blocked : Bool) : Program Unit := perform (.radio (.setBlocked blocked))

def readClock : Program UInt32 := perform .readClock
def pause (ms : UInt32) : Program Unit := perform (.pause ms)
def wait (start budget step : UInt32) : Program Unit := perform (.wait start budget step)
def log (d : Diagnostic) : Program Unit := perform (.log d)

/-- a program with interrupts kept out -/
def atomically (p : Program α) : Program α := do
  perform .enterCritical
  let a ← p
  perform .leaveCritical
  return a

/-! ## meaning -/

universe u

/-- the meaning of a program in a monad -/
def run {m : Type → Type u} [Monad m] (handle : (step : Action) → m step.Answer) :
    Program α → m α
  | done a => pure a
  | act step next => do run handle (next (← handle step))

theorem run_bind {m : Type → Type u} [Monad m] [LawfulMonad m]
    (handle : (step : Action) → m step.Answer) (p : Program α) (f : α → Program β) :
    (p >>= f).run handle = p.run handle >>= fun a => (f a).run handle := by
  induction p with
  | done a => simp [run, bind_done]
  | act step next ih => simp [run, bind_act, ih]

end Program

end RangeBearing
