import RangeBearing.Proofs.Calls
import RangeBearing.Proofs.Timeline

/-!
# Any scheduler and any transceiver

What is around a robot is its scheduler, which has a clock, two delays and critical sections, and
its transceiver.  Each of their calls gives its answer and makes something of the world around the
robot, whatever that is.  A wait polls the clock, so it may never end, and then the call that waits
does not return; nothing else stops a call.

* `Surroundings`                     a scheduler and a transceiver;
* `Surroundings.Polls`               the polls of a wait that ends;
* `Surroundings.Runs`                a call that runs alone to its result, with its steps;
* `Surroundings.Ends`                every wait that a call comes to ends;
* `Surroundings.ends_iff`            a call returns exactly when every wait it comes to ends;
* `Surroundings.Runs.unique`         in one way only;
* `Surroundings.ofClock`             a clock that moves with the delays alone.
-/

namespace RangeBearing

open Program

/-- a scheduler and a transceiver, by what their calls answer and make of the world -/
structure Surroundings (σ : Type) where
  /-- the reading of the clock -/
  clock : σ → UInt32 × σ
  delayMs : UInt32 → σ → σ
  delayUs : UInt32 → σ → σ
  enterCritical : σ → σ
  leaveCritical : σ → σ
  radio : (r : Radio) → σ → r.Answer × σ

namespace Surroundings

variable {σ α β : Type} {env : Surroundings σ}

/-- the polls of a wait for a budget since `start`: each reads the clock, and all but the last are
followed by a delay -/
inductive Polls (env : Surroundings σ) (start budget step : UInt32) : σ → σ → Prop where
  | last {x : σ} (h : budget ≤ (env.clock x).1 - start) :
      Polls env start budget step x (env.clock x).2
  | again {x x' : σ} (h : (env.clock x).1 - start < budget)
      (rest : Polls env start budget step (env.delayUs step (env.clock x).2) x') :
      Polls env start budget step x x'

/-- what a step may answer, and what it makes of the world -/
def Does (env : Surroundings σ) : (action : Action) → action.Answer → σ → σ → Prop
  | .radio r, answer, x, x' => env.radio r x = (answer, x')
  | .readClock, now, x, x' => env.clock x = (now, x')
  | .pause ms, _, x, x' => x' = env.delayMs ms x
  | .wait start budget step, _, x, x' => env.Polls start budget step x x'
  | .enterCritical, _, x, x' => x' = env.enterCritical x
  | .leaveCritical, _, x, x' => x' = env.leaveCritical x
  | .shared _, _, x, x' | .log _, _, x, x' => x' = x

/-- a call that runs, with nothing in between its steps, to a result -/
inductive Runs (env : Surroundings σ) :
    Program α → Station → σ → List Step → α → Station → σ → Prop where
  | done (a : α) (st : Station) (x : σ) : Runs env (done a) st x [] a st x
  | act {action : Action} {next : action.Answer → Program α} {answer : action.Answer}
      {st st₁ st' : Station} {x x₁ x' : σ} {steps : List Step} {a : α}
      (permits : action.Permits answer st st₁) (does : env.Does action answer x x₁)
      (rest : Runs env (next answer) st₁ x₁ steps a st' x') :
      Runs env (act action next) st x (⟨action, answer⟩ :: steps) a st' x'

/-- a step that is not a wait can always be taken, and a wait if it ends -/
def Takes (env : Surroundings σ) : Action → σ → Prop
  | .wait start budget step, x => ∃ x', env.Polls start budget step x x'
  | _, _ => True

/-- every wait that a call comes to ends -/
def Ends (env : Surroundings σ) : Program α → Station → σ → Prop
  | done _, _, _ => True
  | act action next, st, x => env.Takes action x ∧ ∀ answer st' x',
      action.Permits answer st st' → env.Does action answer x x' → env.Ends (next answer) st' x'

/-! ## runs -/

section
variable {st st' : Station} {x x' : σ} {steps : List Step} {a : α} {b : β}

/-- what is around the robot is one choice of the answers from outside -/
theorem Runs.performs {p : Program α} (h : env.Runs p st x steps a st' x') :
    p.Performs st steps a st' := by
  induction h with
  | done a st x => exact .done a st
  | act permits _ _ ih => exact .act permits ih

theorem runs_pure_iff {a b : α} :
    env.Runs (pure a) st x steps b st' x' ↔ steps = [] ∧ b = a ∧ st' = st ∧ x' = x := by
  constructor
  · intro h
    cases h
    exact ⟨rfl, rfl, rfl, rfl⟩
  · rintro ⟨rfl, rfl, rfl, rfl⟩
    exact .done _ _ _

theorem runs_perform_bind_iff {action : Action} {f : action.Answer → Program β} :
    env.Runs (perform action >>= f) st x steps b st' x' ↔
      ∃ answer st₁ x₁ rest, action.Permits answer st st₁ ∧ env.Does action answer x x₁ ∧
        env.Runs (f answer) st₁ x₁ rest b st' x' ∧ steps = ⟨action, answer⟩ :: rest := by
  constructor
  · intro h
    cases h with
    | act permits does rest => exact ⟨_, _, _, _, permits, does, rest, rfl⟩
  · rintro ⟨answer, st₁, x₁, rest, permits, does, h, rfl⟩
    exact .act permits does h

theorem Takes.possible {action : Action} (h : env.Takes action x) (st : Station) :
    ∃ answer st' x', action.Permits answer st st' ∧ env.Does action answer x x' := by
  cases action with
  | shared s => exact ⟨_, _, x, rfl, rfl⟩
  | radio r => exact ⟨_, st, _, rfl, rfl⟩
  | readClock => exact ⟨_, st, _, rfl, rfl⟩
  | wait start budget step =>
    obtain ⟨x', hpolls⟩ := h
    exact ⟨(), st, x', rfl, hpolls⟩
  | pause ms => exact ⟨(), st, _, rfl, rfl⟩
  | enterCritical => exact ⟨(), st, _, rfl, rfl⟩
  | leaveCritical => exact ⟨(), st, _, rfl, rfl⟩
  | log d => exact ⟨(), st, _, rfl, rfl⟩

theorem Polls.unique {start budget step : UInt32} {x₁ x₂ : σ}
    (h₁ : env.Polls start budget step x x₁) (h₂ : env.Polls start budget step x x₂) :
    x₁ = x₂ := by
  induction h₁ with
  | last h =>
    cases h₂ with
    | last _ => rfl
    | again h' _ => exact absurd h (UInt32.not_le.mpr h')
  | again h _ ih =>
    cases h₂ with
    | last h' => exact absurd h' (UInt32.not_le.mpr h)
    | again _ rest => exact ih rest

/-- what is around the robot settles every step -/
theorem step_unique {action : Action} {answer₁ answer₂ : action.Answer} {st₁ st₂ : Station}
    {x₁ x₂ : σ} (permits₁ : action.Permits answer₁ st st₁) (does₁ : env.Does action answer₁ x x₁)
    (permits₂ : action.Permits answer₂ st st₂) (does₂ : env.Does action answer₂ x x₂) :
    answer₁ = answer₂ ∧ st₁ = st₂ ∧ x₁ = x₂ := by
  cases action with
  | shared s =>
    obtain ⟨rfl, rfl⟩ := permits₁.of_shared
    obtain ⟨rfl, rfl⟩ := permits₂.of_shared
    exact ⟨rfl, rfl, does₁.trans does₂.symm⟩
  | radio r =>
    obtain ⟨hanswer, hx⟩ := Prod.mk.inj (does₁.symm.trans does₂)
    exact ⟨hanswer, permits₁.trans permits₂.symm, hx⟩
  | readClock =>
    obtain ⟨hanswer, hx⟩ := Prod.mk.inj (does₁.symm.trans does₂)
    exact ⟨hanswer, permits₁.trans permits₂.symm, hx⟩
  | wait start budget step => exact ⟨rfl, permits₁.trans permits₂.symm, Polls.unique does₁ does₂⟩
  | pause ms => exact ⟨rfl, permits₁.trans permits₂.symm, does₁.trans does₂.symm⟩
  | enterCritical => exact ⟨rfl, permits₁.trans permits₂.symm, does₁.trans does₂.symm⟩
  | leaveCritical => exact ⟨rfl, permits₁.trans permits₂.symm, does₁.trans does₂.symm⟩
  | log d => exact ⟨rfl, permits₁.trans permits₂.symm, does₁.trans does₂.symm⟩

theorem Runs.unique {p : Program α} {steps₁ steps₂ : List Step} {a₁ a₂ : α} {st₁ st₂ : Station}
    {x₁ x₂ : σ} (h₁ : env.Runs p st x steps₁ a₁ st₁ x₁) (h₂ : env.Runs p st x steps₂ a₂ st₂ x₂) :
    steps₁ = steps₂ ∧ a₁ = a₂ ∧ st₁ = st₂ ∧ x₁ = x₂ := by
  induction h₁ generalizing steps₂ with
  | done a st x =>
    cases h₂
    exact ⟨rfl, rfl, rfl, rfl⟩
  | act permits does rest ih =>
    cases h₂ with
    | act permits' does' rest' =>
      obtain ⟨rfl, rfl, rfl⟩ := step_unique permits does permits' does'
      obtain ⟨rfl, rfl, rfl, rfl⟩ := ih rest'
      exact ⟨rfl, rfl, rfl, rfl⟩

/-- a call returns exactly when every wait that it comes to ends -/
theorem ends_iff {p : Program α} :
    env.Ends p st x ↔ ∃ steps a st' x', env.Runs p st x steps a st' x' := by
  constructor
  · intro h
    induction p generalizing st x with
    | done a => exact ⟨[], a, st, x, .done a st x⟩
    | act action next ih =>
      obtain ⟨answer, st₁, x₁, permits, does⟩ := h.1.possible st
      obtain ⟨steps, a, st', x', hrest⟩ := ih answer (h.2 answer st₁ x₁ permits does)
      exact ⟨_, a, st', x', .act permits does hrest⟩
  · rintro ⟨steps, a, st', x', h⟩
    induction h with
    | done a st x => exact trivial
    | @act action next answer st st₁ st' x x₁ x' steps a permits does rest ih =>
      refine ⟨?_, fun answer' st₁' x₁' permits' does' => ?_⟩
      · cases action with
        | wait start budget step => exact ⟨x₁, does⟩
        | _ => exact trivial
      · obtain ⟨rfl, rfl, rfl⟩ := step_unique permits does permits' does'
        exact ih

end

/-! ## a clock that moves with the delays alone -/

/-- a clock that counts the microseconds of the delays, and a driver with what it has been asked
for -/
def ofClock (driver : Driver) : Surroundings (Clock × List Moment) where
  clock x := (x.1.reading, x)
  delayMs ms x := (x.1.afterMs ms, x.2)
  delayUs us x := (x.1.afterUs us, x.2)
  enterCritical x := x
  leaveCritical x := x
  radio r x := (driver x.2 r, (x.1, x.2 ++ [⟨x.1.tick, r⟩]))

section
variable {driver : Driver} {st st' : Station} {c c' : Clock} {past past' : List Moment}

theorem polls_of_poll {start budget step : UInt32} {n : Nat}
    (h : Clock.poll start budget step n c = some c') :
    (ofClock driver).Polls start budget step (c, past) (c', past) := by
  induction n generalizing c with
  | zero => cases h
  | succ n ih =>
    unfold Clock.poll at h
    by_cases hpast : c.elapsed start < budget
    · rw [if_pos hpast] at h
      exact .again hpast (ih h)
    · rw [if_neg hpast] at h
      obtain rfl := Option.some.inj h
      have hover : budget ≤ ((ofClock driver).clock (c, past)).1 - start := UInt32.not_lt.mp hpast
      exact .last hover

/-- a program that comes to an end on a timeline runs there -/
theorem runs_of_on {p : Program α} {a : α}
    (h : p.on driver ⟨st, c, past⟩ = some (a, ⟨st', c', past'⟩)) :
    ∃ steps, (ofClock driver).Runs p st (c, past) steps a st' (c', past') := by
  induction p generalizing st c past with
  | done b =>
    cases h
    exact ⟨[], .done _ _ _⟩
  | act action next ih =>
    rw [on_act] at h
    obtain ⟨⟨answer, ⟨st₁, c₁, past₁⟩⟩, hstep, hrest⟩ := Option.bind_eq_some_iff.mp h
    obtain ⟨steps, hruns⟩ := ih answer hrest
    suffices hdoes : action.Permits answer st st₁ ∧
        (ofClock driver).Does action answer (c, past) (c₁, past₁) from
      ⟨_, .act hdoes.1 hdoes.2 hruns⟩
    cases action with
    | wait start budget step =>
      obtain ⟨c₂, hwait, hl⟩ := Option.map_eq_some_iff.mp hstep
      cases hl
      exact ⟨rfl, polls_of_poll hwait⟩
    | _ =>
      cases hstep
      exact ⟨rfl, rfl⟩

end

end Surroundings

end RangeBearing
