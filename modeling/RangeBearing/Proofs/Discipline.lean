import Mathlib.Logic.Relation
import RangeBearing.Proofs.Interleaving

/-!
# Programs that keep a discipline under interrupts

Before each step of a program, and after the last one, handlers may have made any number of calls.
A program keeps the discipline if, whatever they did, each of its steps is one that is allowed
where it is taken.

* `Handled`, `Between`     one call of a handler, and any number of them;
* `Discipline`             what the handlers leave to a use that has read its request;
* `Action.AllowedIn`       the steps that may be taken with a ledger and on a station;
* `Keeps`                  a program that keeps the discipline up to its end;
* `Keeps.bind`, `Keeps.section_bind`, `Keeps.of_each`   how to prove that, part by part.
-/

namespace RangeBearing

open Controller Program

/-- the cells before and after one call of a handler -/
def Handled (c : Config) (allowed : Call → Prop) (st st' : Station) : Prop :=
  ∃ (call : Call) (steps : List Step) (result : call.Result),
    allowed call ∧ (call.program c).Performs st steps result st'

/-- the cells before and after any number of calls of handlers -/
def Between (c : Config) (allowed : Call → Prop) : Station → Station → Prop :=
  Relation.ReflTransGen (Handled c allowed)

section
variable {c : Config} {allowed : Call → Prop} {st st' st₁ : Station}

/-- what one call of a handler preserves, any number of them do -/
theorem Between.preserves {P : Station → Prop}
    (hP : ∀ {st st'}, Handled c allowed st st' → P st → P st') (h : Between c allowed st st')
    (hst : P st) : P st' := by
  induction h with
  | refl => exact hst
  | tail _ hlast ih => exact hP hlast ih

theorem Handled.settled (h : Handled c allowed st st') (hst : st.Settled) : st'.Settled := by
  obtain ⟨call, steps, result, -, performs⟩ := h
  exact hst.performs performs

theorem Between.settled (h : Between c allowed st st') (hst : st.Settled) : st'.Settled :=
  h.preserves Handled.settled hst

/-- what a call without the transceiver does to the slot and the store: nothing, or it accepts a
request for an idle robot, or it ends a cycle that is to be estimated -/
theorem Controller.Call.Driverless.performs {call : Call} {steps : List Step}
    {result : call.Result} (hcall : call.Driverless)
    (h : (call.program c).Performs st steps result st') :
    (st'.slot = st.slot ∧ st'.store = st.store) ∨
      (∃ request, call = .accept request ∧ st.slot.state = .idle ∧
        st'.slot = ⟨.acquiring, some request⟩ ∧ st'.store = st.store.drop) ∨
      (∃ request, call = .use ∧ st.slot = ⟨.estimating, some request⟩ ∧
        st'.slot = .idle ∧ st'.store = st.store.drop) := by
  cases call with
  | broadcast => exact False.elim hcall
  | collect => exact False.elim hcall
  | serve request => exact False.elim hcall
  | accept request =>
    rcases accept_performs h with ⟨idle, -, rfl⟩ | ⟨-, -, rfl, -⟩
    · exact .inr (.inl ⟨request, rfl, idle, rfl, rfl⟩)
    · exact .inl ⟨rfl, rfl⟩
  | use =>
    rcases use_performs h with ⟨request, _, hslot, hservice, -⟩ | ⟨-, -, rfl, -⟩
    · rcases serviceOf_performs hservice with ⟨-, -, rfl⟩ | ⟨-, -, rfl⟩
      · exact .inr (.inr ⟨request, rfl, hslot, rfl, rfl⟩)
      · exact .inr (.inr ⟨request, rfl, hslot, rfl, rfl⟩)
    · exact .inl ⟨rfl, rfl⟩
  | takeEstimate =>
    obtain ⟨-, -, rfl⟩ := performs_shared_iff.mp h
    exact .inl ⟨rfl, rfl⟩
  | peekEstimate =>
    obtain ⟨-, -, rfl⟩ := performs_shared_iff.mp h
    exact .inl ⟨rfl, rfl⟩
  | lastMatrix =>
    obtain ⟨-, -, rfl⟩ := performs_shared_iff.mp h
    exact .inl ⟨rfl, rfl⟩
  | state =>
    obtain ⟨_, h, -⟩ := performs_shared_bind_iff.mp h
    obtain ⟨-, -, rfl⟩ := performs_pure_iff.mp h
    exact .inl ⟨rfl, rfl⟩
  | sensorHealth =>
    obtain ⟨-, -, rfl⟩ := performs_shared_iff.mp h
    exact .inl ⟨rfl, rfl⟩
  | config =>
    obtain ⟨-, -, rfl⟩ := performs_pure_iff.mp h
    exact .inl ⟨rfl, rfl⟩

/-- handlers without a transceiver leave a broadcast and an acquisition alone -/
theorem Between.held (driverless : ∀ call, allowed call → call.Driverless)
    (h : Between c allowed st st')
    (held : st.slot.state = .acquiring ∨ st.slot.state = .broadcasting) :
    st'.slot = st.slot ∧ st'.store = st.store := by
  refine h.preserves (P := fun x => x.slot = st.slot ∧ x.store = st.store) ?_ ⟨rfl, rfl⟩
  intro x y h h'
  obtain ⟨call, steps, result, may, performs⟩ := h
  obtain ⟨hslot, hstore⟩ := h'
  rw [← hslot] at held
  rcases (driverless call may).performs performs with
    ⟨hslot', hstore'⟩ | ⟨_, -, idle, -⟩ | ⟨_, -, hestimating, -⟩
  · exact ⟨hslot'.trans hslot, hstore'.trans hstore⟩
  · rw [idle] at held
    rcases held with h | h <;> cases h
  · rw [hestimating] at held
    rcases held with h | h <;> cases h

end

/-- what handlers leave to a use that has read its request, before it asks for the matrix and
after that -/
structure Discipline (c : Config) (allowed : Call → Prop) where
  driverless : ∀ call, allowed call → call.Driverless
  reading : Request → Station → Prop
  taken : Request → Station → Prop
  reading_of_settled : ∀ {request st}, st.Settled → st.slot = ⟨.estimating, some request⟩ →
    reading request st
  reading_handled : ∀ {request st st'}, Handled c allowed st st' → reading request st →
    reading request st'
  taken_of_reading : ∀ {request st}, reading request st →
    taken request { st with store := st.store.drop }
  taken_handled : ∀ {request st st'}, Handled c allowed st st' → taken request st →
    taken request st'
  taken_congr : ∀ {request st st'}, taken request st → st'.slot = st.slot →
    st'.store = st.store → taken request st'
  stale_of_taken : ∀ {request st}, taken request st → st.store.fresh = false

namespace Discipline

variable {c : Config} {allowed : Call → Prop} (D : Discipline c allowed)

/-- what holds in front of every step of the main loop -/
def Holds : Ledger → Station → Prop
  | .read request, st => D.reading request st
  | .took request, st => D.taken request st
  | _, _ => True

theorem holds_of_free {l : Ledger} (h : l.Free) (st : Station) : D.Holds l st := by
  cases l with
  | read request => exact False.elim h
  | took request => exact False.elim h
  | _ => exact trivial

end Discipline

/-- the steps that the main loop takes: the transceiver lights in a broadcast and reads in an
acquisition only, a matrix is stored for the request that is being acquired, asked for when the
request was read, and a cycle is ended by a broadcast or by a use that has asked for the matrix -/
def Action.AllowedIn (l : Ledger) (st : Station) : Action → Prop
  | .radio .readSensors => l.Free ∧ st.slot.state = .acquiring
  | .radio _ => l.Free ∧ st.slot.state = .broadcasting
  | .shared (.enter state request) => l.Free ∧ st.Settled ∧
    (state = .broadcasting ∧ request = none ∨ state = .acquiring ∧ request ≠ none)
  | .shared (.proceed expected next) => l.Free ∧ expected = .acquiring ∧ next = .estimating ∧
    (∃ request, st.slot = ⟨.acquiring, some request⟩) ∧ st.store.fresh = true
  | .shared (.putMatrix _) => l.Free ∧ ∃ request, st.slot = ⟨.acquiring, some request⟩
  | .shared .dropMatrix => l.Free ∧ ∃ request, st.slot = ⟨.acquiring, some request⟩
  | .shared .takeMatrix => ∃ request, l = .read request
  | .shared .leave => (l.Free ∧ st.slot = ⟨.broadcasting, none⟩) ∨ ∃ request, l = .took request
  | _ => True

/-- a program that keeps the discipline from a ledger and a station on, with what holds at its
end -/
def Keeps {c : Config} {allowed : Call → Prop} (D : Discipline c allowed) {α : Type}
    (Ends : Ledger → α → Station → Prop) : Ledger → Program α → Station → Prop
  | l, .done a, st => ∀ st₁, Between c allowed st st₁ → D.Holds l st₁ ∧ Ends l a st₁
  | l, .act action next, st => ∀ st₁, Between c allowed st st₁ →
    D.Holds l st₁ ∧ (∀ fault, l ≠ .refused fault) ∧ action.AllowedIn l st₁ ∧
      ∀ answer st₂, action.Permits answer st₁ st₂ →
        Keeps D Ends (l.note ⟨action, answer⟩) (next answer) st₂

namespace Keeps

variable {c : Config} {allowed : Call → Prop} {D : Discipline c allowed} {α β : Type}
  {Ends Ends' : Ledger → α → Station → Prop} {l : Ledger} {st st' : Station}

theorem of_between {p : Program α} (h : Keeps D Ends l p st) (hb : Between c allowed st st') :
    Keeps D Ends l p st' := by
  cases p with
  | done a => exact fun st₁ hst₁ => h st₁ (hb.trans hst₁)
  | act action next => exact fun st₁ hst₁ => h st₁ (hb.trans hst₁)

theorem mono {p : Program α} (h : Keeps D Ends l p st)
    (himp : ∀ l a st, Ends l a st → Ends' l a st) : Keeps D Ends' l p st := by
  induction p generalizing l st with
  | done a =>
    intro st₁ hst₁
    obtain ⟨holds, ends⟩ := h st₁ hst₁
    exact ⟨holds, himp _ _ _ ends⟩
  | act action next ih =>
    intro st₁ hst₁
    obtain ⟨holds, active, allows, hnext⟩ := h st₁ hst₁
    exact ⟨holds, active, allows, fun answer st₂ permits => ih answer (hnext answer st₂ permits)⟩

/-- a sequence keeps the discipline when its first part does, up to where the second one goes on -/
theorem bind {p : Program α} {f : α → Program β} {Ends : Ledger → β → Station → Prop}
    (h : Keeps D (fun l a st => Keeps D Ends l (f a) st) l p st) :
    Keeps D Ends l (p >>= f) st := by
  induction p generalizing l st with
  | done a => exact (h st .refl).2
  | act action next ih =>
    intro st₁ hst₁
    obtain ⟨holds, active, allows, hnext⟩ := h st₁ hst₁
    exact ⟨holds, active, allows, fun answer st₂ permits => ih answer (hnext answer st₂ permits)⟩

theorem pure {a : α} (h : ∀ st₁, Between c allowed st st₁ → D.Holds l st₁ ∧ Ends l a st₁) :
    Keeps D Ends l (Pure.pure a) st := h

theorem section_bind {s : Section} {f : s.Answer → Program β} {Ends : Ledger → β → Station → Prop}
    (active : ∀ fault, l ≠ .refused fault)
    (h : ∀ st₁, Between c allowed st st₁ → D.Holds l st₁ ∧ (Action.shared s).AllowedIn l st₁ ∧
      Keeps D Ends (l.note ⟨.shared s, (s.run st₁).1⟩) (f (s.run st₁).1) (s.run st₁).2) :
    Keeps D Ends l (perform (.shared s) >>= f) st := by
  intro st₁ hst₁
  obtain ⟨holds, allows, hnext⟩ := h st₁ hst₁
  refine ⟨holds, active, allows, fun answer st₂ permits => ?_⟩
  obtain ⟨rfl, rfl⟩ := permits.of_shared
  exact hnext

theorem section_last {s : Section} {Ends : Ledger → s.Answer → Station → Prop}
    (active : ∀ fault, l ≠ .refused fault)
    (h : ∀ st₁, Between c allowed st st₁ → D.Holds l st₁ ∧ (Action.shared s).AllowedIn l st₁ ∧
      ∀ st₂, Between c allowed (s.run st₁).2 st₂ →
        D.Holds (l.note ⟨.shared s, (s.run st₁).1⟩) st₂ ∧
          Ends (l.note ⟨.shared s, (s.run st₁).1⟩) (s.run st₁).1 st₂) :
    Keeps D Ends l (perform (.shared s)) st := by
  intro st₁ hst₁
  obtain ⟨holds, allows, hlast⟩ := h st₁ hst₁
  refine ⟨holds, active, allows, fun answer st₂ permits => ?_⟩
  obtain ⟨rfl, rfl⟩ := permits.of_shared
  exact hlast

theorem log_bind {d : Diagnostic} {f : Unit → Program β} {Ends : Ledger → β → Station → Prop}
    (active : ∀ fault, l ≠ .refused fault) (hnote : l.note ⟨.log d, ()⟩ = l)
    (h : ∀ st₁, Between c allowed st st₁ → D.Holds l st₁ ∧ Keeps D Ends l (f ()) st₁) :
    Keeps D Ends l (log d >>= f) st := by
  intro st₁ hst₁
  obtain ⟨holds, hnext⟩ := h st₁ hst₁
  refine ⟨holds, active, trivial, fun answer st₂ permits => ?_⟩
  obtain rfl : st₂ = st₁ := permits
  rw [hnote]
  exact hnext

/-- a program of steps that leave a property of the cells, and the ledger, as they are -/
theorem of_each {P : Action → Prop} {I : Station → Prop} {p : Program α} (hp : p.Each P)
    (active : ∀ fault, l ≠ .refused fault)
    (stable : ∀ {st st'}, Between c allowed st st' → I st → I st')
    (holds : ∀ {st}, I st → D.Holds l st)
    (takes : ∀ {action st}, P action → I st → action.AllowedIn l st ∧
      ∀ answer st', action.Permits answer st st' → l.note ⟨action, answer⟩ = l ∧ I st')
    (hst : I st) : Keeps D (fun l' _ st' => l' = l ∧ I st') l p st := by
  induction p generalizing st with
  | done a => exact fun st₁ hst₁ => ⟨holds (stable hst₁ hst), rfl, stable hst₁ hst⟩
  | act action next ih =>
    intro st₁ hst₁
    have hI := stable hst₁ hst
    obtain ⟨allows, hstep⟩ := takes hp.1 hI
    refine ⟨holds hI, active, allows, fun answer st₂ permits => ?_⟩
    obtain ⟨hnote, hI₂⟩ := hstep answer st₂ permits
    rw [hnote]
    exact ih answer (hp.2 answer) hI₂

end Keeps

end RangeBearing
