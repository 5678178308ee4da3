import Mathlib.Data.List.Induction
import RangeBearing.Proofs.CallsAlone

/-!
# A main loop and its interrupts

The main loop makes calls one after another.  Between any two of its steps an interrupt handler
may make calls of its own, each of which runs to its end before the main loop goes on.

* `Robot`             the shared cells and what is left of the call that the main loop is in;
* `Robot.Event`       what can happen next;
* `Robot.Does`        one event, with the robot before and after it;
* `Robot.Runs`, `Robot.Goes`   the events of a run, newest last, and the robot after them; the
                      same from any robot on;
* `Call.Documented`, `Call.Driverless`   the calls that handlers are said to make, and all those
                      that need no transceiver;
* `Ledger`            how far the call of the main loop has come with the cycle of a request.
-/

namespace RangeBearing

open Controller

namespace Controller.Call

/-- the calls that are meant for an interrupt handler -/
def Documented : Call → Prop
  | accept _ | takeEstimate | peekEstimate | state => True
  | _ => False

/-- the calls that need neither the transceiver nor the scheduler -/
def Driverless : Call → Prop
  | broadcast | collect | serve _ => False
  | _ => True

theorem Documented.driverless {call : Call} (h : call.Documented) : call.Driverless := by
  cases call with
  | broadcast => exact h
  | collect => exact h
  | serve request => exact h
  | _ => exact trivial

end Controller.Call

/-- a call of the main loop that has not returned yet -/
structure Pending where
  call : Call
  rest : Program call.Result

/-- the shared cells and the main loop -/
structure Robot where
  station : Station
  main : Option Pending

namespace Robot

def new : Robot := ⟨.new, none⟩

/-- what can happen next -/
inductive Event where
  /-- the main loop makes a call -/
  | starts (call : Call)
  /-- the call of the main loop takes a step -/
  | steps (step : Step)
  /-- the call of the main loop returns -/
  | returns (call : Call) (result : call.Result)
  /-- a handler makes a call, which runs to its end -/
  | handles (call : Call) (steps : List Step) (result : call.Result)

/-- one event -/
inductive Does (c : Config) (allowed : Call → Prop) : Robot → Event → Robot → Prop where
  | starts (st : Station) (call : Call) :
      Does c allowed ⟨st, none⟩ (.starts call) ⟨st, some ⟨call, call.program c⟩⟩
  | steps {st st' : Station} {call : Call} {action : Action}
      {next : action.Answer → Program call.Result} {answer : action.Answer}
      (permits : action.Permits answer st st') :
      Does c allowed ⟨st, some ⟨call, .act action next⟩⟩ (.steps ⟨action, answer⟩)
        ⟨st', some ⟨call, next answer⟩⟩
  | returns (st : Station) (call : Call) (result : call.Result) :
      Does c allowed ⟨st, some ⟨call, .done result⟩⟩ (.returns call result) ⟨st, none⟩
  | handles {st st' : Station} (main : Option Pending) (call : Call) {steps : List Step}
      {result : call.Result} (may : allowed call)
      (performs : (call.program c).Performs st steps result st') :
      Does c allowed ⟨st, main⟩ (.handles call steps result) ⟨st', main⟩

/-- the events of a run, newest last, and the robot after them -/
inductive Runs (c : Config) (allowed : Call → Prop) : List Event → Robot → Prop where
  | new : Runs c allowed [] .new
  | snoc {es : List Event} {x y : Robot} {e : Event} (before : Runs c allowed es x)
      (does : Does c allowed x e y) : Runs c allowed (es ++ [e]) y

variable {c : Config} {allowed : Call → Prop} {es : List Event} {x y : Robot} {e : Event}

/-- some events, one after another -/
inductive Goes (c : Config) (allowed : Call → Prop) (x : Robot) : List Event → Robot → Prop where
  | nil : Goes c allowed x [] x
  | snoc {es : List Event} {y z : Robot} {e : Event} (before : Goes c allowed x es y)
      (does : Does c allowed y e z) : Goes c allowed x (es ++ [e]) z

theorem Goes.cons {z : Robot} (does : Does c allowed x e y) (h : Goes c allowed y es z) :
    Goes c allowed x (e :: es) z := by
  induction h with
  | nil => exact Goes.nil.snoc does
  | snoc _ last ih => exact ih.snoc last

/-- the main loop while no handler runs -/
theorem Goes.of_performs {call : Call} {p : Program call.Result} {st st' : Station}
    {steps : List Step} {result : call.Result} (h : p.Performs st steps result st') :
    Goes c allowed ⟨st, some ⟨call, p⟩⟩ (steps.map .steps ++ [.returns call result])
      ⟨st', none⟩ := by
  induction h with
  | done result st => exact Goes.nil.snoc (.returns st call result)
  | act permits _ ih => exact .cons (.steps permits) ih

theorem Runs.append {later : List Event} (h : Runs c allowed es x)
    (hlater : Goes c allowed x later y) : Runs c allowed (es ++ later) y := by
  induction hlater with
  | nil =>
    rw [List.append_nil]
    exact h
  | snoc _ does ih =>
    rw [← List.append_assoc]
    exact ih.snoc does

/-- a run at one of its events -/
theorem Runs.split {before later : List Event} (h : Runs c allowed (before ++ e :: later) y) :
    ∃ x x', Runs c allowed before x ∧ Does c allowed x e x' ∧ Goes c allowed x' later y := by
  generalize hes : before ++ e :: later = es at h
  induction h generalizing later with
  | new => exact absurd hes (by simp)
  | snoc run does ih =>
    rcases List.eq_nil_or_concat later with rfl | ⟨later, last, rfl⟩
    · obtain ⟨rfl, hlast⟩ := List.append_inj' hes rfl
      obtain rfl := List.singleton_inj.mp hlast
      exact ⟨_, _, run, does, .nil⟩
    · rw [List.concat_eq_append, ← List.cons_append, ← List.append_assoc] at hes
      obtain ⟨hbefore, hlast⟩ := List.append_inj' hes rfl
      obtain rfl := List.singleton_inj.mp hlast
      obtain ⟨x, x', hx, he, hlater⟩ := ih hbefore
      exact ⟨x, x', hx, he, by
        rw [List.concat_eq_append]
        exact hlater.snoc does⟩

/-! ## acceptances -/

/-- a request is accepted: in the main loop by the step that claims the robot for it, after which
the call cannot fail any more -/
inductive Event.Accepts (request : Request) : Event → Prop where
  | claims : Event.Accepts request (.steps ⟨.shared (.enter .acquiring (some request)), .ok ()⟩)
  | handles (steps : List Step) : Event.Accepts request (.handles (.accept request) steps (.ok ()))

end Robot

/-! ## the ledger of the main loop -/

/-- how far the call of the main loop has come with the cycle of a request -/
inductive Ledger where
  /-- in no call, or in one that has no request to end -/
  | other
  /-- in a call that is to use a matrix and has not read the request yet -/
  | due
  /-- the request was read -/
  | read (request : Request)
  /-- and the matrix was asked for -/
  | took (request : Request)
  /-- the call was turned away -/
  | refused (fault : Fault)
  deriving DecidableEq

namespace Ledger

def start : Call → Ledger
  | .use | .serve _ => due
  | _ => other

/-- after a step of the call -/
def note : Ledger → Step → Ledger
  | due, ⟨.shared .readSlot, slot⟩ =>
    match CycleSlot.requestIn slot .estimating with
    | .ok request => read request
    | .error _ => due
  | read request, ⟨.shared .takeMatrix, _⟩ => took request
  | took _, ⟨.shared .leave, _⟩ => other
  | _, ⟨.shared (.enter _ _), .error fault⟩ => refused fault
  | l, _ => l

def next : Ledger → Robot.Event → Ledger
  | _, .starts call => start call
  | l, .steps step => l.note step
  | _, .returns _ _ => other
  | l, .handles _ _ _ => l

def after (l : Ledger) (es : List Robot.Event) : Ledger := es.foldl next l

theorem after_snoc (l : Ledger) (es : List Robot.Event) (e : Robot.Event) :
    l.after (es ++ [e]) = (l.after es).next e := by
  unfold after
  rw [List.foldl_append]
  rfl

/-- the call has read no request -/
def Free : Ledger → Prop
  | read _ | took _ => False
  | _ => True

end Ledger

end RangeBearing
