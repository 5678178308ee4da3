import RangeBearing.Proofs.Polling
import RangeBearing.Proofs.Simulated

/-!
# Calls on a clock, tick by tick

What a call asks of the transceiver, and in which tick of its own clock.  The clock moves with the
pauses and the waits only; the transceiver is any driver, which may answer by all that was asked of
it before.

* `Moment`, `Driver`   a call of the transceiver with its tick; how a transceiver answers;
* `Timeline`           a station, a clock and the moments so far;
* `Program.on`         a program on a timeline; none when a wait never ends;
* `Program.on_bind_of`, `Program.on_wait_bind`, ...   how to go through a program step by step;
* `Simulation.run_of_on`   the simulation shows the same moments by the readings of its clock.
-/

namespace RangeBearing

/-- a call of the transceiver with the tick of it -/
structure Moment where
  tick : Nat
  call : Radio
  deriving DecidableEq

/-- how a transceiver answers after what was asked of it before -/
abbrev Driver := List Moment → (r : Radio) → r.Answer

/-- a robot with its clock and what it has asked of its transceiver, newest last -/
structure Timeline where
  station : Station
  clock : Clock
  past : List Moment

namespace Timeline

/-- the meaning of one step -/
def step (driver : Driver) : (action : Action) → StateT Timeline Option action.Answer
  | .shared s => fun l => some ((s.run l.station).1, { l with station := (s.run l.station).2 })
  | .radio r => fun l => some (driver l.past r, { l with past := l.past ++ [⟨l.clock.tick, r⟩] })
  | .readClock => fun l => some (l.clock.reading, l)
  | .pause ms => fun l => some ((), { l with clock := l.clock.afterMs ms })
  | .wait start budget step => fun l =>
    (l.clock.wait start budget step).map fun clock => ((), { l with clock })
  | .enterCritical | .leaveCritical | .log _ => fun l => some ((), l)

end Timeline

namespace Program

variable {α β : Type} {driver : Driver} {l : Timeline}

/-- a program on a timeline -/
def on (p : Program α) (driver : Driver) (l : Timeline) : Option (α × Timeline) :=
  p.run (Timeline.step driver) l

theorem on_pure (a : α) : (pure a : Program α).on driver l = some (a, l) := rfl

theorem on_act (action : Action) (next : action.Answer → Program α) :
    (act action next).on driver l =
      (Timeline.step driver action l).bind fun out => (next out.1).on driver out.2 := rfl

theorem on_bind (p : Program α) (f : α → Program β) :
    (p >>= f).on driver l = (p.on driver l).bind fun out => (f out.1).on driver out.2 := by
  unfold on
  rw [run_bind]
  rfl

theorem on_bind_of {p : Program α} {f : α → Program β} {a : α} {l' : Timeline}
    (h : p.on driver l = some (a, l')) : (p >>= f).on driver l = (f a).on driver l' := by
  rw [on_bind, h]
  rfl

/-! ## step by step -/

section
variable {f : Unit → Program β} {st : Station} {c : Clock} {past : List Moment}

theorem on_readClock_bind {f : UInt32 → Program β} :
    (readClock >>= f).on driver ⟨st, c, past⟩ = (f c.reading).on driver ⟨st, c, past⟩ := rfl

theorem on_radio_bind {r : Radio} {f : r.Answer → Program β} :
    (perform (.radio r) >>= f).on driver ⟨st, c, past⟩ =
      (f (driver past r)).on driver ⟨st, c, past ++ [⟨c.tick, r⟩]⟩ := rfl

theorem on_pause {ms : UInt32} :
    (pause ms).on driver ⟨st, c, past⟩ = some ((), ⟨st, c.afterMs ms, past⟩) := rfl

theorem on_pause_bind {ms : UInt32} :
    (pause ms >>= f).on driver ⟨st, c, past⟩ = (f ()).on driver ⟨st, c.afterMs ms, past⟩ := rfl

theorem on_wait_bind {start budget step : UInt32} {c' : Clock}
    (h : c.wait start budget step = some c') :
    (wait start budget step >>= f).on driver ⟨st, c, past⟩ = (f ()).on driver ⟨st, c', past⟩ := by
  have hrun : (wait start budget step >>= f).on driver ⟨st, c, past⟩ =
      ((c.wait start budget step).map fun clock => ((), (⟨st, clock, past⟩ : Timeline))).bind
        fun out => (f out.1).on driver out.2 := rfl
  rw [hrun, h]
  rfl

theorem on_log_bind {d : Diagnostic} :
    (log d >>= f).on driver ⟨st, c, past⟩ = (f ()).on driver ⟨st, c, past⟩ := rfl

end

theorem on_atomically {p : Program α} {a : α} {l' : Timeline}
    (h : p.on driver l = some (a, l')) : (atomically p).on driver l = some (a, l') := by
  show (p >>= fun a => perform .leaveCritical >>= fun _ => pure a).on driver l = some (a, l')
  rw [on_bind_of h]
  rfl

end Program

/-! ## the simulation -/

namespace Simulation

/-- the call behind a record -/
def Recorded.call : Recorded → Radio
  | .broadcast code tag => .broadcast code tag
  | .power level => .setPower level
  | .on d => .emitterOn d
  | .off d => .emitterOff d
  | .read _ => .readSensors
  | .blocked b => .setBlocked b

/-- the answers of a script that sends every request -/
def Script.driver (script : Script) : Driver
  | past, .readSensors => script.row (past.countP (·.call = .readSensors))
  | _, .broadcast _ _ => true
  | _, .setPower _ | _, .emitterOn _ | _, .emitterOff _ | _, .setBlocked _ => ()

variable {ρ α : Type}

/-- a simulation with a scripted transceiver that shows the moments of a timeline -/
structure Shows (script : Script) (t : Transceiver ρ) (w : World) (l : Timeline) : Prop where
  script : t.script = script
  uninterrupted : t.interrupts = []
  station : w.station = l.station
  clock : w.clock = l.clock
  reads : t.reads = l.past.countP (·.call = .readSensors)
  events : t.events.map (fun e => (e.now, e.call.call)) =
    l.past.map fun m => (UInt32.ofNat m.tick, m.call)

section
variable {script : Script} {t t' : Transceiver ρ} {w w' : World} {l l' : Timeline}

/-- a call is shown when it is recorded, and a read when it is counted as well -/
theorem Shows.recorded (call : Recorded) {reads : Nat} (h : Shows script t w l)
    (hreads : reads = t.reads + if call.call = .readSensors then 1 else 0) :
    Shows script ({ t with reads }.recorded w call) w
      { l with past := l.past ++ [⟨l.clock.tick, call.call⟩] } where
  script := h.script
  uninterrupted := h.uninterrupted
  station := h.station
  clock := h.clock
  reads := by
    rw [List.countP_append, ← h.reads]
    by_cases hcall : call.call = .readSensors
    · simp [hcall, hreads, Transceiver.recorded]
    · simp [hcall, hreads, Transceiver.recorded]
  events := by
    have hnow : w.clock.reading = UInt32.ofNat l.clock.tick := by
      rw [h.clock]
      rfl
    unfold Transceiver.recorded
    dsimp only
    rw [List.map_append, List.map_append, h.events, List.map_singleton, List.map_singleton, hnow]

theorem Shows.radio (h : Shows script t w l) (sent : script.refuse = false)
    (blocks : script.plain = false) (r : Radio) :
    ∃ t', radio r t w = some ((script.driver l.past r, t'), w) ∧
      Shows script t' w { l with past := l.past ++ [⟨l.clock.tick, r⟩] } := by
  cases r with
  | broadcast code tag =>
    refine ⟨_, ?_, h.recorded (.broadcast code tag) rfl⟩
    have hradio : Simulation.radio (.broadcast code tag) t w =
        (if t.script.refuse then (pure false : Driven ρ Bool) else do
          record (.broadcast code tag)
          return true) t w := rfl
    rw [hradio, if_neg (by rw [h.script, sent]; exact Bool.false_ne_true)]
    exact bind_of_eq_some (record_eq h.uninterrupted)
  | setPower level => exact ⟨_, record_eq h.uninterrupted, h.recorded (.power level) rfl⟩
  | emitterOn d => exact ⟨_, record_eq h.uninterrupted, h.recorded (.on d) rfl⟩
  | emitterOff d => exact ⟨_, record_eq h.uninterrupted, h.recorded (.off d) rfl⟩
  | readSensors =>
    refine ⟨_, ?_, h.recorded (.read t.reads) rfl⟩
    have hradio : Simulation.radio .readSensors t w =
        (do
          record (.read t.reads)
          return t.script.row t.reads : Driven ρ (Row Int16)) { t with reads := t.reads + 1 } w :=
      rfl
    have hdriver : script.driver l.past .readSensors = t.script.row t.reads := by
      rw [h.script, h.reads]
      rfl
    rw [hradio, hdriver]
    exact bind_of_eq_some (record_eq h.uninterrupted)
  | setBlocked b =>
    refine ⟨_, ?_, h.recorded (.blocked b) rfl⟩
    have hradio : Simulation.radio (.setBlocked b) t w =
        (if t.script.plain then (pure () : Driven ρ Unit) else record (.blocked b)) t w := rfl
    rw [hradio, if_neg (by rw [h.script, blocks]; exact Bool.false_ne_true)]
    exact record_eq h.uninterrupted

/-- every step of a timeline is shown -/
theorem Shows.step {action : Action} {answer : action.Answer} (h : Shows script t w l)
    (sent : script.refuse = false) (blocks : script.plain = false)
    (hstep : Timeline.step script.driver action l = some (answer, l')) :
    ∃ t' w', Simulation.step action t w = some ((answer, t'), w') ∧ Shows script t' w' l' := by
  cases action with
  | shared s =>
    cases hstep
    rw [← h.station]
    exact ⟨t, _, rfl, { h with station := rfl }⟩
  | radio r =>
    cases hstep
    obtain ⟨t', hradio, ht'⟩ := h.radio sent blocks r
    exact ⟨t', w, hradio, ht'⟩
  | readClock =>
    cases hstep
    rw [← h.clock]
    exact ⟨t, w, rfl, h⟩
  | wait start budget step =>
    obtain ⟨clock, hwait, hl⟩ := Option.map_eq_some_iff.mp hstep
    cases hl
    refine ⟨t, { w with clock }, ?_, { h with clock := rfl }⟩
    have hlift : (liftM (w.clock.wait start budget step) : Driven ρ Clock) t w =
        some ((clock, t), w) := by
      rw [h.clock, hwait]
      rfl
    have hget : (getThe World : Driven ρ World) t w = some ((w, t), w) := rfl
    exact (bind_of_eq_some hget).trans ((bind_of_eq_some hlift).trans rfl)
  | pause ms =>
    cases hstep
    rw [← h.clock]
    exact ⟨t, _, rfl, { h with clock := rfl }⟩
  | enterCritical =>
    cases hstep
    exact ⟨t, _, rfl, { h with }⟩
  | leaveCritical =>
    cases hstep
    exact ⟨t, _, rfl, { h with }⟩
  | log d =>
    cases hstep
    exact ⟨t, _, rfl, { h with }⟩

/-- the simulation of a script that sends every request shows the moments of the timeline, by the
readings of its clock -/
theorem run_of_on {p : Program α} {a : α} (h : Shows script t w l) (sent : script.refuse = false)
    (blocks : script.plain = false) (hon : p.on script.driver l = some (a, l')) :
    ∃ t' w', run p t w = some ((a, t'), w') ∧ Shows script t' w' l' := by
  induction p generalizing t w l with
  | done b =>
    cases hon
    exact ⟨t, w, rfl, h⟩
  | act action next ih =>
    rw [Program.on_act] at hon
    obtain ⟨⟨answer, l₁⟩, hstep, hrest⟩ := Option.bind_eq_some_iff.mp hon
    obtain ⟨t₁, w₁, hrun, h₁⟩ := h.step sent blocks hstep
    obtain ⟨t', w', hnext, h'⟩ := ih answer h₁ hrest
    exact ⟨t', w', (bind_of_eq_some hrun).trans hnext, h'⟩

end

end Simulation

end RangeBearing
