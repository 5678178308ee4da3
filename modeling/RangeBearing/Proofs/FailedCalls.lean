import Mathlib.Control.Monad.Basic
import RangeBearing.Proofs.CallsAlone
import RangeBearing.Proofs.Simulated

/-!
# What a failed call leaves behind

A call that fails has either changed nothing, or it has ended a cycle without an estimate and the
robot is free for the next one.

* `Step.radio?`, `Action.Delays`   what a step asks of the transceiver, and of the clock;
* `Controller.Untouched`           a call that neither changed, asked nor waited for anything;
* `Controller.Refused`             a broadcast whose request was not sent;
* `Controller.Abandoned`           a cycle that ended without an estimate;
* `Controller.Aftermath`           which of these a fault stands for;
* `Controller.aftermath_of_fault`  every fault of every call on every reachable station.
-/

namespace RangeBearing

open Program

namespace Step

/-- the call of the transceiver that a step makes -/
def radio? : Step → Option Radio
  | ⟨.radio r, _⟩ => some r
  | _ => none

end Step

namespace Action

/-- a step that lets time pass -/
def Delays : Action → Prop
  | pause _ | wait _ _ _ => True
  | _ => False

end Action

namespace Controller

/-- a call that neither changed, asked nor waited for anything -/
structure Untouched (st st' : Station) (steps : List Step) : Prop where
  same : st' = st
  silent : steps.filterMap Step.radio? = []
  prompt : ∀ s ∈ steps, ¬ s.action.Delays

/-- a broadcast whose request was not sent: the request is all that was asked of the transceiver,
and the robot is as before, which is idle -/
structure Refused (st st' : Station) (steps : List Step) : Prop where
  same : st' = st
  idle : st'.slot = .idle
  asked : ∃ tag, steps.filterMap Step.radio? = [.broadcast Acquisition.requestCode tag]
  prompt : ∀ s ∈ steps, ¬ s.action.Delays

/-- a cycle that ended without an estimate: its matrix is counted in the health and cannot be taken
any more, and the robot is free -/
structure Abandoned (call : Call) (st st' : Station) (steps : List Step) (m : Brightness) :
    Prop where
  /-- the matrix was there before a use; a call that serves a whole request has sampled it -/
  collected : (call = .use ∧ st.store = ⟨m, true⟩) ∨
    ∃ request, call = .serve request ∧ ⟨.shared (.putMatrix m), ()⟩ ∈ steps
  idle : st'.slot = .idle
  mailbox : st'.mailbox = st.mailbox
  last : st'.store.last = m
  taken : st'.store.take.1 = none
  health : st'.health = (st.health.sweep m).1
  free : ∀ state request, ((Section.enter state request).run st').1 = .ok ()

/-- what a fault says about the call that it ended -/
def Aftermath (call : Call) (st st' : Station) (steps : List Step) : Fault → Prop
  | .busy state => state = st.slot.state ∧ state ≠ .idle ∧ Untouched st st' steps
  | .outOfOrder expected actual =>
    actual = st.slot.state ∧ actual ≠ expected ∧ Untouched st st' steps
  | .refused => call = .broadcast ∧ Refused st st' steps
  | .noMatrix => False
  | .outOfView _ _ | .model _ | .faintNeighbourhood _ | .poorFit _ _ =>
    ∃ m, Abandoned call st st' steps m

section
variable {call : Call} {st st' : Station} {steps : List Step} {fault : Fault}

/-- the faults of an estimation are those that abandon a cycle -/
theorem Aftermath.of_abandoned {m : Brightness} (h : Abandoned call st st' steps m)
    (hf : fault.OfEstimation) : Aftermath call st st' steps fault := by
  cases fault with
  | outOfView alpha beta => exact ⟨m, h⟩
  | model cause => exact ⟨m, h⟩
  | faintNeighbourhood weight => exact ⟨m, h⟩
  | poorFit innovation limit => exact ⟨m, h⟩
  | refused => exact False.elim hf
  | busy state => exact False.elim hf
  | outOfOrder expected actual => exact False.elim hf
  | noMatrix => exact False.elim hf

theorem Untouched.of_section {s : Section} {answer : s.Answer} (same : st' = st)
    (hsteps : steps = [⟨.shared s, answer⟩]) : Untouched st st' steps := by
  subst hsteps
  refine ⟨same, rfl, ?_⟩
  intro step hstep
  obtain rfl := List.mem_singleton.mp hstep
  exact id

theorem aftermath_busy {state : CycleState} {request : Option Request}
    (busy : st.slot.state ≠ .idle) (same : st' = st)
    (hsteps : steps =
      [⟨.shared (.enter state request), .error (.busy st.slot.state)⟩]) :
    Aftermath call st st' steps (.busy st.slot.state) :=
  ⟨rfl, busy, .of_section same hsteps⟩

/-- a step of a cycle is out of order only when the state is not the one expected -/
theorem aftermath_outOfOrder {expected : CycleState} (settled : st.Settled)
    (hexpected : expected = .acquiring ∨ expected = .estimating)
    (hslot : ∀ request, st.slot ≠ ⟨expected, some request⟩) (same : st' = st)
    (hsteps : steps = [⟨.shared .readSlot, st.slot⟩]) :
    Aftermath call st st' steps (.outOfOrder expected st.slot.state) := by
  refine ⟨rfl, ?_, .of_section same hsteps⟩
  intro hstate
  rcases settled with ⟨hidle, -⟩ | ⟨request, hacquiring, -⟩ | ⟨request, hestimating, -⟩
  · rw [hidle] at hstate
    rcases hexpected with rfl | rfl <;> cases hstate
  · rw [hacquiring] at hstate
    exact hslot request (by rw [hacquiring, ← hstate])
  · rw [hestimating] at hstate
    exact hslot request (by rw [hestimating, ← hstate])

theorem enter_of_idle (hslot : st.slot = .idle) (state : CycleState) (request : Option Request) :
    ((Section.enter state request).run st).1 = .ok () := by
  have idle : st.slot.state = .idle := by
    rw [hslot]
    rfl
  simp only [Section.run, if_pos idle]

end

section
variable {c : Config} {st st' : Station} {steps : List Step} {fault : Fault}

theorem broadcast_aftermath (settled : st.Settled)
    (h : (broadcast c).Performs st steps (.error fault) st') :
    Aftermath .broadcast st st' steps fault := by
  rcases broadcast_performs h with
    ⟨busy, hfault, same, hsteps⟩ | ⟨idle, hst, now, ⟨hok, -⟩ | ⟨hfault, hsteps⟩⟩
  · cases hfault
    exact aftermath_busy busy same hsteps
  · cases hok
  · cases hfault
    have hslot := (settled.idle_of_state idle).1
    refine ⟨rfl, ?_, ?_, ⟨(now &&& Acquisition.tagMask).toUInt16, ?_⟩, ?_⟩
    · rw [hst, ← hslot]
    · rw [hst]
    · rw [hsteps]
      rfl
    · rw [hsteps]
      simp [Action.Delays]

theorem accept_aftermath {request : Request}
    (h : (accept request).Performs st steps (.error fault) st') :
    Aftermath (.accept request) st st' steps fault := by
  rcases accept_performs h with ⟨-, hok, -⟩ | ⟨busy, hfault, same, hsteps⟩
  · cases hok
  · cases hfault
    exact aftermath_busy busy same hsteps

theorem collect_aftermath (settled : st.Settled)
    (h : (collect c).Performs st steps (.error fault) st') :
    Aftermath .collect st st' steps fault := by
  rcases collect_performs h with ⟨_, _, -, hok, -⟩ | ⟨hslot, hfault, same, hsteps⟩
  · cases hok
  · cases hfault
    exact aftermath_outOfOrder settled (.inl rfl) hslot same hsteps

theorem use_aftermath (settled : st.Settled)
    (h : (use c).Performs st steps (.error fault) st') : Aftermath .use st st' steps fault := by
  rcases use_performs h with ⟨request, rest, hslot, hservice, -⟩ | ⟨hslot, hfault, same, hsteps⟩
  · have hfresh := settled.fresh_of_estimating hslot
    rcases serviceOf_performs hservice with ⟨-, hverdict, rfl⟩ | ⟨hstale, -⟩
    · refine .of_abandoned (m := st.store.matrix) ⟨.inl ⟨rfl, ?_⟩, rfl, rfl, rfl, rfl, rfl, ?_⟩ ?_
      · rw [← hfresh]
      · exact enter_of_idle rfl
      · exact verdict_fails c request.source st.store.matrix fault hverdict.symm
    · rw [hfresh] at hstale
      cases hstale
  · cases hfault
    exact aftermath_outOfOrder settled (.inr rfl) hslot same hsteps

theorem serve_aftermath {request : Request}
    (h : (serve c request).Performs st steps (.error fault) st') :
    Aftermath (.serve request) st st' steps fault := by
  rcases serve_performs h with ⟨-, m, hput, hverdict, rfl⟩ | ⟨busy, hfault, same, hsteps⟩
  · refine .of_abandoned (m := m) ⟨.inr ⟨request, rfl, hput⟩, rfl, rfl, rfl, rfl, rfl, ?_⟩ ?_
    · exact enter_of_idle rfl
    · exact verdict_fails c request.source m fault hverdict.symm
  · cases hfault
    exact aftermath_busy busy same hsteps

end

/-- failed calls are atomic: out of turn they change nothing, a refused broadcast has asked for
nothing else, and a failed estimation ends its cycle and nothing more -/
theorem aftermath_of_fault {c : Config} {st st' : Station} (call : Call) {steps : List Step}
    {result : call.Result} {fault : Fault} (reachable : Station.Reachable c st)
    (performs : (call.program c).Performs st steps result st')
    (failed : call.fault? result = some fault) : Aftermath call st st' steps fault := by
  have settled := reachable.settled
  cases call with
  | broadcast =>
    cases result with
    | error f => cases failed; exact broadcast_aftermath settled performs
    | ok tag => cases failed
  | accept request =>
    cases result with
    | error f => cases failed; exact accept_aftermath performs
    | ok u => cases failed
  | collect =>
    cases result with
    | error f => cases failed; exact collect_aftermath settled performs
    | ok u => cases failed
  | use =>
    cases result with
    | error f => cases failed; exact use_aftermath settled performs
    | ok e => cases failed
  | serve request =>
    cases result with
    | error f => cases failed; exact serve_aftermath performs
    | ok e => cases failed
  | takeEstimate => cases failed
  | peekEstimate => cases failed
  | lastMatrix => cases failed
  | state => cases failed
  | sensorHealth => cases failed
  | config => cases failed

/-- for example, the use of a matrix that was sampled in the dark -/
theorem aftermath_of_dark_matrix : ∃ st st' steps,
    Station.Reachable .default st ∧
      (use .default).Performs st steps (.error (.model .belowAmbientFloor)) st' ∧
      ∃ m, Abandoned .use st st' steps m := by
  let dark : Simulation.Transceiver Unit := .new ⟨[], false, false⟩ []
  let request : Request := ⟨1, 2, 5⟩
  let accepted : Station := ⟨⟨.acquiring, some request⟩, .empty, .new, .empty⟩
  let sampled : Station := ⟨⟨.estimating, some request⟩, ⟨.dark, true⟩, .new, .empty⟩
  have haccept : ∃ steps, (accept request).Performs .new steps (.ok ()) accepted :=
    Simulation.performs_of_outcome (t := dark) (w := .new 5000) rfl (by decide +kernel)
  have hcollect : ∃ steps, (collect .default).Performs accepted steps (.ok ()) sampled :=
    Simulation.performs_of_outcome (t := dark) (w := ⟨accepted, ⟨5000⟩, 0, 0, []⟩) rfl
      (by decide +kernel)
  have huse : ∃ steps, (use .default).Performs sampled steps
      (.error (.model .belowAmbientFloor))
      ⟨.idle, ⟨.dark, false⟩, (SensorHealth.new.sweep .dark).1, .empty⟩ :=
    Simulation.performs_of_outcome (t := dark) (w := ⟨sampled, ⟨5000⟩, 0, 0, []⟩) rfl
      (by decide +kernel)
  obtain ⟨_, haccept⟩ := haccept
  obtain ⟨_, hcollect⟩ := hcollect
  obtain ⟨steps, huse⟩ := huse
  have reachable : Station.Reachable .default sampled :=
    .call .collect (.call (.accept request) .new haccept) hcollect
  exact ⟨_, _, steps, reachable, huse, aftermath_of_fault .use reachable huse rfl⟩

end Controller

end RangeBearing
