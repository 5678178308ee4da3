import RangeBearing.Proofs.Calls
import RangeBearing.Simulation.Session

/-!
# Simulated runs

A simulation in which nothing interrupts is a run of the program alone: the scripted transceiver
and the simulated clock are one choice of the answers from outside.
-/

namespace RangeBearing

namespace Simulation

variable {ρ α β : Type}

theorem bind_eq_some {x : Driven ρ α} {f : α → Driven ρ β} {t : Transceiver ρ} {w : World}
    {out : (β × Transceiver ρ) × World} (h : (x >>= f) t w = some out) :
    ∃ a t₁ w₁, x t w = some ((a, t₁), w₁) ∧ f a t₁ w₁ = some out := by
  have hbind : (x >>= f) t w = (x t w).bind fun p => f p.1.1 p.1.2 p.2 := rfl
  rw [hbind] at h
  obtain ⟨⟨⟨a, t₁⟩, w₁⟩, hx, hf⟩ := Option.bind_eq_some_iff.mp h
  exact ⟨a, t₁, w₁, hx, hf⟩

theorem bind_of_eq_some {x : Driven ρ α} {f : α → Driven ρ β} {a : α} {t t' : Transceiver ρ}
    {w w' : World} (h : x t w = some ((a, t'), w')) : (x >>= f) t w = f a t' w' := by
  have hbind : (x >>= f) t w = (x t w).bind fun p => f p.1.1 p.1.2 p.2 := rfl
  rw [hbind, h]
  rfl

/-- a transceiver after a call of it that nothing interrupts -/
def Transceiver.recorded (t : Transceiver ρ) (w : World) (call : Recorded) : Transceiver ρ :=
  { t with events := t.events ++ [⟨w.clock.reading, 0 < w.depth, call⟩] }

theorem record_eq {call : Recorded} {t : Transceiver ρ} {w : World} (ht : t.interrupts = []) :
    record call t w = some (((), t.recorded w call), w) := by
  have hdue : t.due t.events.length = [] := by
    unfold Transceiver.due
    rw [ht]
    rfl
  have hrecord : record call t w =
      (t.due t.events.length).forM (m := Driven ρ) (fun interrupt => do
        let report ← interrupt.body
        modify fun t => { t with reports := t.reports ++ [(interrupt.event, report)] })
        (t.recorded w call) w := rfl
  rw [hrecord, hdue]
  rfl

theorem record_station {call : Recorded} {t t' : Transceiver ρ} {w w' : World} {u : Unit}
    (ht : t.interrupts = []) (h : record call t w = some ((u, t'), w')) :
    w' = w ∧ t'.interrupts = [] := by
  rw [record_eq ht] at h
  cases h
  exact ⟨rfl, ht⟩

theorem radio_station {r : Radio} {answer : r.Answer} {t t' : Transceiver ρ} {w w' : World}
    (ht : t.interrupts = []) (h : radio r t w = some ((answer, t'), w')) :
    w' = w ∧ t'.interrupts = [] := by
  cases r with
  | broadcast code tag =>
    obtain ⟨_, _, _, hg, h⟩ := bind_eq_some h
    cases hg
    by_cases hr : t.script.refuse = true
    · rw [if_pos hr] at h
      cases h
      exact ⟨rfl, ht⟩
    · rw [if_neg hr] at h
      obtain ⟨_, _, _, hrec, h⟩ := bind_eq_some h
      cases h
      exact record_station ht hrec
  | setPower level => exact record_station ht h
  | emitterOn d => exact record_station ht h
  | emitterOff d => exact record_station ht h
  | readSensors =>
    obtain ⟨_, _, _, hg, h⟩ := bind_eq_some h
    cases hg
    obtain ⟨_, _, _, hs, h⟩ := bind_eq_some h
    cases hs
    obtain ⟨_, _, _, hrec, h⟩ := bind_eq_some h
    cases h
    exact record_station (by exact ht) hrec
  | setBlocked b =>
    obtain ⟨_, _, _, hg, h⟩ := bind_eq_some h
    cases hg
    by_cases hr : t.script.plain = true
    · rw [if_pos hr] at h
      cases h
      exact ⟨rfl, ht⟩
    · rw [if_neg hr] at h
      exact record_station ht h

/-- a simulated step is one that the station permits -/
theorem step_permits {action : Action} {answer : action.Answer} {t t' : Transceiver ρ}
    {w w' : World} (ht : t.interrupts = []) (h : step action t w = some ((answer, t'), w')) :
    action.Permits answer w.station w'.station ∧ t'.interrupts = [] := by
  cases action with
  | shared s =>
    cases h
    exact ⟨rfl, ht⟩
  | radio r =>
    obtain ⟨rfl, ht'⟩ := radio_station ht h
    exact ⟨rfl, ht'⟩
  | readClock =>
    cases h
    exact ⟨rfl, ht⟩
  | wait start budget stepUs =>
    obtain ⟨_, _, _, hw, h⟩ := bind_eq_some h
    cases hw
    obtain ⟨clock, _, _, hc, h⟩ := bind_eq_some h
    cases h
    cases hwait : w.clock.wait start budget stepUs with
    | none =>
      rw [hwait] at hc
      cases hc
    | some d =>
      rw [hwait] at hc
      cases hc
      exact ⟨rfl, ht⟩
  | pause ms =>
    cases h
    exact ⟨rfl, ht⟩
  | enterCritical =>
    cases h
    exact ⟨rfl, ht⟩
  | leaveCritical =>
    cases h
    exact ⟨rfl, ht⟩
  | log d =>
    cases h
    exact ⟨rfl, ht⟩

/-- what a simulation without interrupts gives is a run of the program alone -/
theorem performs_of_run {p : Program α} {t t' : Transceiver ρ} {w w' : World} {a : α}
    (ht : t.interrupts = []) (h : run p t w = some ((a, t'), w')) :
    ∃ steps, p.Performs w.station steps a w'.station := by
  induction p generalizing t w with
  | done b =>
    cases h
    exact ⟨[], .done _ _⟩
  | act action next ih =>
    obtain ⟨answer, t₁, w₁, hstep, hrest⟩ := bind_eq_some h
    obtain ⟨permits, ht₁⟩ := step_permits ht hstep
    obtain ⟨steps, hsteps⟩ := ih answer ht₁ hrest
    exact ⟨_, .act permits hsteps⟩

/-- the same, for what can be seen of a simulation -/
theorem performs_of_outcome {p : Program α} {t : Transceiver ρ} {w : World} {a : α} {st : Station}
    (ht : t.interrupts = [])
    (h : (run p t w).map (fun out => (out.1.1, out.2.station)) = some (a, st)) :
    ∃ steps, p.Performs w.station steps a st := by
  obtain ⟨⟨⟨b, t'⟩, w'⟩, hrun, hout⟩ := Option.map_eq_some_iff.mp h
  cases hout
  exact performs_of_run ht hrun

end Simulation

end RangeBearing
