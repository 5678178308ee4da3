import RangeBearing.Controller

/-!
# Calls and the steps they take

A call of the controller is a program.  What it does to the shared cells is a matter of its
critical sections; the answers of the transceiver, of the clock and of the waits come from outside
and may be anything.

* `Controller.Call`     the public calls, with their results and their programs;
* `Step`                a step that was taken, with its answer;
* `Action.Permits`      what a step may answer on a station, and the station after it;
* `Program.Performs`    a program that runs alone from a station to its result, with its steps;
* `Program.Each`        a property of all steps that a program can ever take;
* `Station.Reachable`   what a list of calls, one after another, makes of a new station.

A wait that never ends has no run: then the call does not return.
-/

namespace RangeBearing

namespace Controller

/-- a public call -/
inductive Call where
  | broadcast
  | accept (request : Request)
  | collect
  | use
  | serve (request : Request)
  | takeEstimate
  | peekEstimate
  | lastMatrix
  | state
  | sensorHealth
  | config

namespace Call

/-- what a call gives back -/
@[reducible] def Result : Call → Type
  | broadcast => Except Fault UInt16
  | accept _ | collect => Except Fault Unit
  | use | serve _ => Except Fault Estimate
  | takeEstimate | peekEstimate => Option Estimate
  | lastMatrix => Brightness
  | state => CycleState
  | sensorHealth => SensorHealth
  | config => Config

/-- the steps of a call -/
def program (c : Config) : (call : Call) → Program call.Result
  | broadcast => Controller.broadcast c
  | accept request => Controller.accept request
  | collect => Controller.collect c
  | use => Controller.use c
  | serve request => Controller.serve c request
  | takeEstimate => Controller.takeEstimate
  | peekEstimate => Controller.peekEstimate
  | lastMatrix => Controller.lastMatrix
  | state => Controller.state
  | sensorHealth => Controller.sensorHealth
  | config => pure c

/-- the fault that a result reports -/
def fault? : (call : Call) → call.Result → Option Fault
  | broadcast, .error f | accept _, .error f | collect, .error f | use, .error f
  | serve _, .error f => some f
  | _, _ => none

end Call

end Controller

/-- a step that was taken -/
structure Step where
  action : Action
  answer : action.Answer

namespace Action

/-- a step that neither reads nor writes the shared cells -/
def Local : Action → Prop
  | shared _ => False
  | _ => True

/-- what a step may answer on a station, and the station after it -/
def Permits : (action : Action) → action.Answer → Station → Station → Prop
  | shared s, answer, st, st' => s.run st = (answer, st')
  | _, _, st, st' => st' = st

variable {action : Action} {st st' : Station}

theorem Permits.of_shared {s : Section} {answer : s.Answer}
    (h : (shared s).Permits answer st st') : answer = (s.run st).1 ∧ st' = (s.run st).2 := by
  have h : s.run st = (answer, st') := h
  rw [h]
  exact ⟨rfl, rfl⟩

theorem Permits.of_local {answer : action.Answer} (h : action.Permits answer st st')
    (hl : action.Local) : st' = st := by
  cases action with
  | shared s => exact False.elim hl
  | _ => exact h

theorem exists_shared (h : ¬ action.Local) : ∃ s, action = shared s := by
  cases action with
  | shared s => exact ⟨s, rfl⟩
  | _ => exact absurd trivial h

end Action

namespace Program

variable {α β : Type}

/-- a program that runs from a station, with nothing in between its steps, to a result -/
inductive Performs : Program α → Station → List Step → α → Station → Prop where
  | done (a : α) (st : Station) : Performs (done a) st [] a st
  | act {action : Action} {next : action.Answer → Program α} {answer : action.Answer}
      {st st₁ st' : Station} {steps : List Step} {a : α}
      (permits : action.Permits answer st st₁) (rest : Performs (next answer) st₁ steps a st') :
      Performs (act action next) st (⟨action, answer⟩ :: steps) a st'

theorem performs_done_iff {a b : α} {st st' : Station} {steps : List Step} :
    (done a).Performs st steps b st' ↔ steps = [] ∧ b = a ∧ st' = st := by
  constructor
  · intro h
    cases h
    exact ⟨rfl, rfl, rfl⟩
  · intro h
    obtain ⟨rfl, rfl, rfl⟩ := h
    exact .done _ _

theorem performs_pure_iff {a b : α} {st st' : Station} {steps : List Step} :
    (pure a : Program α).Performs st steps b st' ↔ steps = [] ∧ b = a ∧ st' = st :=
  performs_done_iff

theorem Performs.bind {p : Program α} {f : α → Program β} {st st₁ st₂ : Station}
    {first second : List Step} {a : α} {b : β} (hp : p.Performs st first a st₁)
    (hf : (f a).Performs st₁ second b st₂) : (p >>= f).Performs st (first ++ second) b st₂ := by
  induction hp with
  | done a st => exact hf
  | act permits _ ih => exact .act permits (ih hf)

/-- the run of a sequence is a run of its first part and a run of its second -/
theorem performs_bind_iff {p : Program α} {f : α → Program β} {st st₂ : Station}
    {steps : List Step} {b : β} :
    (p >>= f).Performs st steps b st₂ ↔
      ∃ first a st₁ second, p.Performs st first a st₁ ∧ (f a).Performs st₁ second b st₂ ∧
        steps = first ++ second := by
  constructor
  · intro h
    induction p generalizing st steps with
    | done a => exact ⟨[], a, st, steps, .done a st, h, rfl⟩
    | act action next ih =>
      cases h with
      | act permits rest =>
        obtain ⟨first, a, st₁, second, hp, hf, rfl⟩ := ih _ rest
        exact ⟨_ :: first, a, st₁, second, .act permits hp, hf, rfl⟩
  · intro h
    obtain ⟨first, a, st₁, second, hp, hf, rfl⟩ := h
    exact hp.bind hf

theorem performs_perform_bind_iff {action : Action} {f : action.Answer → Program β}
    {st st' : Station} {steps : List Step} {b : β} :
    (perform action >>= f).Performs st steps b st' ↔
      ∃ answer st₁ rest, action.Permits answer st st₁ ∧ (f answer).Performs st₁ rest b st' ∧
        steps = ⟨action, answer⟩ :: rest := by
  constructor
  · intro h
    cases h with
    | act permits rest => exact ⟨_, _, _, permits, rest, rfl⟩
  · intro h
    obtain ⟨answer, st₁, rest, permits, h, rfl⟩ := h
    exact .act permits h

theorem performs_shared_bind_iff {s : Section} {f : s.Answer → Program β}
    {st st' : Station} {steps : List Step} {b : β} :
    (perform (.shared s) >>= f).Performs st steps b st' ↔
      ∃ rest, (f (s.run st).1).Performs (s.run st).2 rest b st' ∧
        steps = ⟨.shared s, (s.run st).1⟩ :: rest := by
  rw [performs_perform_bind_iff]
  constructor
  · intro h
    obtain ⟨answer, st₁, rest, permits, h, rfl⟩ := h
    obtain ⟨rfl, rfl⟩ := permits.of_shared
    exact ⟨rest, h, rfl⟩
  · intro h
    obtain ⟨rest, h, rfl⟩ := h
    exact ⟨_, _, rest, rfl, h, rfl⟩

theorem performs_shared_iff {s : Section} {st st' : Station} {steps : List Step}
    {answer : s.Answer} :
    (perform (.shared s)).Performs st steps answer st' ↔
      steps = [⟨.shared s, (s.run st).1⟩] ∧ answer = (s.run st).1 ∧ st' = (s.run st).2 := by
  constructor
  · intro h
    cases h with
    | act permits rest =>
      obtain ⟨rfl, rfl⟩ := permits.of_shared
      obtain ⟨rfl, rfl, rfl⟩ := performs_done_iff.mp rest
      exact ⟨rfl, rfl, rfl⟩
  · intro h
    obtain ⟨rfl, rfl, rfl⟩ := h
    exact .act rfl (.done _ _)

theorem performs_log_bind_iff {d : Diagnostic} {f : Unit → Program β} {st st' : Station}
    {steps : List Step} {b : β} :
    (log d >>= f).Performs st steps b st' ↔
      ∃ rest, (f ()).Performs st rest b st' ∧ steps = ⟨.log d, ()⟩ :: rest := by
  unfold log
  rw [performs_perform_bind_iff]
  constructor
  · intro h
    obtain ⟨answer, st₁, rest, permits, h, rfl⟩ := h
    obtain rfl : st₁ = st := permits
    exact ⟨rest, h, rfl⟩
  · intro h
    obtain ⟨rest, h, rfl⟩ := h
    exact ⟨(), st, rest, rfl, h, rfl⟩

/-! ## properties of all steps of a program -/

/-- every step that a program can ever take has a property -/
def Each (P : Action → Prop) : Program α → Prop
  | done _ => True
  | act action next => P action ∧ ∀ answer, (next answer).Each P

variable {P : Action → Prop}

theorem Each.bind {p : Program α} {f : α → Program β} (hp : p.Each P)
    (hf : ∀ a, (f a).Each P) : (p >>= f).Each P := by
  induction p with
  | done a => exact hf a
  | act action next ih => exact ⟨hp.1, fun answer => ih answer (hp.2 answer)⟩

theorem Each.pure (a : α) : (pure a : Program α).Each P := trivial

theorem Each.perform {action : Action} (h : P action) : (perform action).Each P :=
  ⟨h, fun _ => trivial⟩

theorem Each.forM {ι : Type} {f : ι → Program PUnit} (h : ∀ i, (f i).Each P) (l : List ι) :
    (l.forM f).Each P := by
  induction l with
  | nil => exact Each.pure _
  | cons i l ih =>
    show (f i >>= fun _ => l.forM f).Each P
    exact (h i).bind fun _ => ih

theorem Each.foldlM {ι : Type} {f : β → ι → Program β} (h : ∀ b i, (f b i).Each P)
    (l : List ι) (b : β) : (l.foldlM f b).Each P := by
  induction l generalizing b with
  | nil => exact Each.pure _
  | cons i l ih =>
    rw [List.foldlM_cons]
    exact (h b i).bind fun b => ih b

theorem Each.mono {Q : Action → Prop} {p : Program α} (hp : p.Each P)
    (hPQ : ∀ action, P action → Q action) : p.Each Q := by
  induction p with
  | done a => exact trivial
  | act action next ih => exact ⟨hPQ action hp.1, fun answer => ih answer (hp.2 answer)⟩

theorem Each.steps {p : Program α} {st st' : Station} {steps : List Step} {a : α}
    (hp : p.Each P) (h : p.Performs st steps a st') : ∀ s ∈ steps, P s.action := by
  induction h with
  | done a st => exact fun s hs => absurd hs (List.not_mem_nil)
  | act permits _ ih =>
    intro s hs
    rcases List.mem_cons.mp hs with rfl | hs
    · exact hp.1
    · exact ih (hp.2 _) s hs

/-- a program of local steps leaves the shared cells alone -/
theorem Each.station_eq {p : Program α} {st st' : Station} {steps : List Step} {a : α}
    (hp : p.Each P) (hP : ∀ action, P action → action.Local) (h : p.Performs st steps a st') :
    st' = st := by
  induction h with
  | done a st => rfl
  | act permits _ ih =>
    rw [ih (hp.2 _)]
    exact permits.of_local (hP _ hp.1)

end Program

namespace Station

/-- what calls, one after another and with nothing in between, make of a new station -/
inductive Reachable (c : Config) : Station → Prop where
  | new : Reachable c .new
  | call {st st' : Station} (call : Controller.Call) {steps : List Step} {result : call.Result}
      (before : Reachable c st) (performs : (call.program c).Performs st steps result st') :
      Reachable c st'

end Station

end RangeBearing
