import RangeBearing.Proofs.CallsInterrupted

/-!
# From an acceptance to the end of its cycle

Handlers may make all calls that need no transceiver.  What becomes of an accepted request then
depends on the main loop: a call that has read an earlier request when the robot is claimed again
ends the new cycle in place of the old one.

* `Robot.Ended`        the cycle of a request has come to its end: a use that read it is over;
* `Robot.Kept`         every accepted request that has not ended is still held;
* `Robot.Overtaken`    a use that read its request before an acceptance ended after it;
* `driverless`         what handlers leave to a use;
* `Robot.Runs.kept`    runs without that keep every request;
* `Robot.Runs.not_kept_of_overtaken`   and runs with it lose one.
-/

namespace RangeBearing

open Controller Program

namespace Ledger

/-- as if nothing had been read -/
def forget : Ledger → Ledger
  | read _ | took _ => other
  | l => l

theorem forget_of_free {l : Ledger} (h : l.Free) : l.forget = l := by
  cases l with
  | read request => exact False.elim h
  | took request => exact False.elim h
  | _ => rfl

theorem forget_of_not_free {l : Ledger} (h : ¬ l.Free) : l.forget = other := by
  cases l with
  | read request => rfl
  | took request => rfl
  | _ => exact absurd trivial h

end Ledger

namespace Robot

/-- the end of a use that has read a request: of the main loop, whose ledger says so, or of a
handler -/
inductive Event.Ends (l : Ledger) (request : Request) : Event → Prop where
  | leaves (h : l = .took request) : Event.Ends l request (.steps ⟨.shared .leave, ()⟩)
  | handles (rest : List Step) (result : Except Fault Estimate) : Event.Ends l request
      (.handles .use (⟨.shared .readSlot, ⟨.estimating, some request⟩⟩ :: rest) result)

/-- the cycle of a request has ended -/
def Ended (l : Ledger) (request : Request) (later : List Event) : Prop :=
  ∃ first e rest, later = first ++ e :: rest ∧ e.Ends (l.after first) request

/-- the slot holds a request -/
def Has (x : Robot) (request : Request) : Prop :=
  x.station.slot = ⟨.acquiring, some request⟩ ∨ x.station.slot = ⟨.estimating, some request⟩

/-- every request that was accepted is held until a use that has read it since then ends -/
def Kept (es : List Event) (x : Robot) : Prop :=
  ∀ before e later request, es = before ++ e :: later → e.Accepts request →
    Ended (Ledger.other.after (before ++ [e])).forget request later ∨ x.Has request

/-- the return of a call of the main loop -/
def Event.Returns : Event → Prop
  | .returns _ _ => True
  | _ => False

/-- a request was accepted while the main loop was in a use that had read another one, and that use
ended afterwards -/
def Overtaken (es : List Event) : Prop :=
  ∃ before e request first rest,
    es = before ++ e :: (first ++ .steps ⟨.shared .leave, ()⟩ :: rest) ∧ e.Accepts request ∧
      ¬ (Ledger.other.after (before ++ [e])).Free ∧ ∀ e' ∈ first, ¬ e'.Returns

section
variable {l : Ledger} {request : Request} {later : List Event} {e : Event}

theorem Ended.snoc (h : Ended l request later) : Ended l request (later ++ [e]) := by
  obtain ⟨first, last, rest, rfl, hends⟩ := h
  exact ⟨first, last, rest ++ [e], by rw [List.append_assoc, List.cons_append], hends⟩

theorem Ended.of_last (h : e.Ends (l.after later) request) : Ended l request (later ++ [e]) :=
  ⟨later, e, [], rfl, h⟩

end

end Robot

/-- handlers that use the matrix can end the cycle that the main loop is about to use, and start
another one, but cannot store a matrix -/
def driverless (c : Config) : Discipline c Call.Driverless where
  driverless _ h := h
  reading request st :=
    st.Settled ∧ ∀ request', st.slot = ⟨.estimating, some request'⟩ → request' = request
  taken request st := st.store.fresh = false ∧
    (st.slot = .idle ∨ (∃ request', st.slot = ⟨.acquiring, some request'⟩) ∨
      st.slot = ⟨.estimating, some request⟩)
  reading_of_settled := by
    intro request st hst hslot
    refine ⟨hst, fun request' hslot' => ?_⟩
    rw [hslot] at hslot'
    cases hslot'
    rfl
  reading_handled := by
    intro request st st' h h
    obtain ⟨hst, honly⟩ := h
    refine ⟨h.settled hst, ?_⟩
    obtain ⟨call, steps, result, hcall, performs⟩ := h
    rcases hcall.performs performs with ⟨hslot, -⟩ | ⟨_, -, -, hslot, -⟩ | ⟨_, -, -, hslot, -⟩
    · rw [hslot]
      exact honly
    · rw [hslot]
      exact nofun
    · rw [hslot]
      exact nofun
  taken_of_reading := by
    intro request st h
    obtain ⟨hst, honly⟩ := h
    refine ⟨rfl, ?_⟩
    rcases hst with ⟨hslot, -⟩ | ⟨request', hslot, -⟩ | ⟨request', hslot, -⟩
    · exact .inl hslot
    · exact .inr (.inl ⟨request', hslot⟩)
    · rw [honly request' hslot] at hslot
      exact .inr (.inr hslot)
  taken_handled := by
    intro request st st' h h'
    obtain ⟨call, steps, result, hcall, performs⟩ := h
    obtain ⟨hstale, hwhere⟩ := h'
    rcases hcall.performs performs with
      ⟨hslot, hstore⟩ | ⟨request', -, -, hslot, hstore⟩ | ⟨_, -, -, hslot, hstore⟩
    · rw [hslot, hstore]
      exact ⟨hstale, hwhere⟩
    · rw [hslot, hstore]
      exact ⟨rfl, .inr (.inl ⟨request', rfl⟩)⟩
    · rw [hslot, hstore]
      exact ⟨rfl, .inl rfl⟩
  taken_congr := by
    intro request st st' h hslot hstore
    rw [hslot, hstore]
    exact h
  stale_of_taken h := h.1

namespace Robot

/-! ## a request that the main loop may serve -/

/-- a request that is acquired before anything is read, or to be estimated by a call that has read
no other one -/
def Fits (request : Request) (l : Ledger) (st : Station) : Prop :=
  (st.slot = ⟨.acquiring, some request⟩ ∧ l.Free) ∨
    (st.slot = ⟨.estimating, some request⟩ ∧
      ∀ request', l = .read request' ∨ l = .took request' → request' = request)

section
variable {c : Config} {allowed : Call → Prop} {D : Discipline c allowed} {x y : Robot}
  {l : Ledger} {request : Request} {e : Event}

theorem Fits.of_free {st : Station} (hl : l.Free) (hslot : st.slot = ⟨.acquiring, some request⟩ ∨
    st.slot = ⟨.estimating, some request⟩) : Fits request l st := by
  rcases hslot with hslot | hslot
  · exact .inl ⟨hslot, hl⟩
  · refine .inr ⟨hslot, ?_⟩
    intro request' h
    rcases h with rfl | rfl
    · exact False.elim hl
    · exact False.elim hl

theorem Fits.has (h : Fits request l x.station) : x.Has request := by
  rcases h with ⟨hslot, -⟩ | ⟨hslot, -⟩
  · exact .inl hslot
  · exact .inr hslot

theorem Has.not_idle (h : x.Has request) : x.station.slot.state ≠ .idle := by
  rcases h with h | h
  · rw [h]
    exact nofun
  · rw [h]
    exact nofun

theorem Fits.congr {st st' : Station} (h : Fits request l st) (hslot : st'.slot = st.slot) :
    Fits request l st' := by
  unfold Fits
  rw [hslot]
  exact h

theorem Fits.steps {action : Action} {answer : action.Answer} (hx : Keeping D l x)
    (h : Fits request l x.station) (does : Does c allowed x (.steps ⟨action, answer⟩) y) :
    Event.Ends l request (.steps ⟨action, answer⟩) ∨
      Fits request (l.note ⟨action, answer⟩) y.station := by
  obtain ⟨-, -, allows, permits⟩ := hx.steps does
  by_cases hlocal : action.Local
  · rw [permits.of_local hlocal, Ledger.note_of_local hlocal]
    exact .inr h
  · obtain ⟨s, rfl⟩ := Action.exists_shared hlocal
    obtain ⟨rfl, hy⟩ := permits.of_shared
    rw [hy]
    cases s with
    | enter state pending =>
      obtain ⟨hfree, -, -⟩ := allows
      have hbusy := h.has.not_idle
      refine .inr (Fits.of_free (hfree.note_enter _) ?_)
      simp only [Section.run, if_neg hbusy]
      exact h.has
    | proceed expected next =>
      obtain ⟨hfree, rfl, rfl, ⟨request', hslot⟩, -⟩ := allows
      have hrequest : request' = request := by
        rcases h.has with h | h
        · rw [hslot] at h
          cases h
          rfl
        · rw [hslot] at h
          cases h
      subst hrequest
      refine .inr (Fits.of_free ?_ (.inr ?_))
      · cases l <;> exact hfree
      · simp only [Section.run, hslot, if_true]
    | leave =>
      rcases allows with ⟨-, hslot⟩ | ⟨request', rfl⟩
      · rcases h.has with h | h
        · rw [hslot] at h
          cases h
        · rw [hslot] at h
          cases h
      · rcases h with ⟨-, hfree⟩ | ⟨-, honly⟩
        · exact False.elim hfree
        · exact .inl (.leaves (by rw [honly request' (.inr rfl)]))
    | readSlot =>
      right
      rcases h with ⟨hslot, hfree⟩ | ⟨hslot, honly⟩
      · refine Fits.of_free ?_ (.inl hslot)
        simp only [Section.run, hslot]
        cases l <;> exact hfree
      · refine .inr ⟨hslot, ?_⟩
        simp only [Section.run, hslot]
        cases l with
        | due =>
          intro request' h
          rcases h with hread | htook
          · cases hread
            rfl
          · cases htook
        | _ => exact honly
    | takeMatrix =>
      obtain ⟨request', rfl⟩ := allows
      right
      rcases h with ⟨-, hfree⟩ | ⟨hslot, honly⟩
      · exact False.elim hfree
      · refine .inr ⟨hslot, ?_⟩
        intro request'' h
        rcases h with hread | htook
        · cases hread
        · cases htook
          exact honly _ (.inl rfl)
    | _ =>
      right
      cases l <;> exact h.congr rfl

/-- an event ends the request, or leaves it with the robot -/
theorem Fits.next (hallowed : ∀ call, allowed call → call.Driverless) (hx : Keeping D l x)
    (h : Fits request l x.station) (does : Does c allowed x e y) :
    Event.Ends l request e ∨ Fits request (l.next e) y.station := by
  cases e with
  | starts call =>
    obtain ⟨-, -, hy⟩ := hx.starts does
    rw [hy]
    refine .inr (Fits.of_free ?_ h.has)
    cases call <;> exact trivial
  | steps step => exact h.steps hx does
  | returns call result =>
    obtain ⟨-, hy⟩ := hx.returns does
    rw [hy]
    exact .inr (Fits.of_free trivial h.has)
  | handles call steps result =>
    obtain ⟨may, performs⟩ := does.handled
    rcases (hallowed call may).performs performs with
      ⟨hslot, -⟩ | ⟨_, -, idle, -⟩ | ⟨request', rfl, hslot, -⟩
    · exact .inr (h.congr hslot)
    · exact absurd idle h.has.not_idle
    · rcases use_performs performs with ⟨_, rest, -, -, rfl⟩ | ⟨hnot, -⟩
      · have hrequest : request' = request := by
          rcases h.has with h | h
          · rw [hslot] at h
            cases h
          · rw [hslot] at h
            cases h
            rfl
        rw [hslot, hrequest]
        exact .inl (.handles rest result)
      · exact absurd hslot (hnot request')

theorem Fits.goes {later : List Event} (hallowed : ∀ call, allowed call → call.Driverless)
    (hx : Keeping D l x) (h : Fits request l x.station) (goes : Goes c allowed x later y) :
    Ended l request later ∨ Fits request (l.after later) y.station := by
  induction goes with
  | nil => exact .inr h
  | snoc before does ih =>
    rcases ih with hended | hfits
    · exact .inl hended.snoc
    · rw [Ledger.after_snoc]
      rcases hfits.next hallowed (before.keeping hx) does with hends | hfits
      · exact .inl (.of_last hends)
      · exact .inr hfits

/-! ## a request that overtakes a use of the main loop -/

/-- a request that was accepted while the main loop was in a use that had read another one -/
def Overtakes (request : Request) (l : Ledger) (st : Station) : Prop :=
  st.slot = ⟨.acquiring, some request⟩ ∧ ¬ l.Free

/-- an event that lets a request pass that has overtaken a use: the use goes on, and what has been
read since the acceptance is not that request -/
structure Event.Spares (request : Request) (e : Event) : Prop where
  stays : e ≠ .steps ⟨.shared .leave, ()⟩
  inside : ¬ e.Returns
  unread : Ledger.other.next e = .other
  lasts : ¬ e.Ends .other request

theorem Event.Spares.of_step {step : Step} (hleave : step ≠ ⟨.shared .leave, ()⟩)
    (hnote : Ledger.other.note step = .other) : Event.Spares request (.steps step) where
  stays h := hleave (Event.steps.inj h)
  inside := id
  unread := hnote
  lasts h := by
    cases h with
    | leaves htook => cases htook

/-- the request stays until that use ends -/
theorem Overtakes.next (hallowed : ∀ call, allowed call → call.Driverless) (hx : Keeping D l x)
    (h : Overtakes request l x.station) (does : Does c allowed x e y) :
    (e = .steps ⟨.shared .leave, ()⟩ ∧ y.station.slot = .idle) ∨
      (e.Spares request ∧ Overtakes request (l.next e) y.station) := by
  obtain ⟨hslot, hread⟩ := h
  cases e with
  | starts call =>
    obtain ⟨rfl, -, -⟩ := hx.starts does
    exact absurd trivial hread
  | returns call result =>
    obtain ⟨⟨-, hfree, -⟩, -⟩ := hx.returns does
    exact absurd hfree hread
  | handles call steps result =>
    obtain ⟨may, performs⟩ := does.handled
    have hb : Between c allowed x.station y.station := .single ⟨call, steps, result, may, performs⟩
    obtain ⟨hslot', -⟩ := hb.held hallowed (.inl (by rw [hslot]))
    refine .inr ⟨⟨nofun, id, rfl, fun hends => ?_⟩, hslot'.trans hslot, hread⟩
    -- a use of a handler would have found the request acquired
    cases hends with
    | handles rest result =>
      rcases use_performs performs with ⟨request', _, hestimating, -, -⟩ | ⟨-, -, -, hsteps⟩
      · rw [hslot] at hestimating
        cases hestimating
      · rw [hslot] at hsteps
        cases hsteps
  | steps step =>
    obtain ⟨action, answer⟩ := step
    obtain ⟨-, -, allows, permits⟩ := hx.steps does
    by_cases hlocal : action.Local
    · rw [permits.of_local hlocal]
      refine .inr ⟨.of_step ?_ (Ledger.note_of_local hlocal answer), hslot, ?_⟩
      · intro h
        cases h
        exact hlocal
      · show ¬ (l.note _).Free
        rw [Ledger.note_of_local hlocal]
        exact hread
    · obtain ⟨s, rfl⟩ := Action.exists_shared hlocal
      obtain ⟨rfl, hy⟩ := permits.of_shared
      rw [hy]
      cases s with
      | enter state pending => exact absurd allows.1 hread
      | proceed expected next => exact absurd allows.1 hread
      | putMatrix m => exact absurd allows.1 hread
      | dropMatrix => exact absurd allows.1 hread
      | leave => exact .inl ⟨rfl, rfl⟩
      | takeMatrix =>
        obtain ⟨request', rfl⟩ := allows
        exact .inr ⟨.of_step nofun rfl, hslot, id⟩
      | _ => exact .inr ⟨.of_step nofun rfl, hslot, Ledger.note_not_free hread nofun nofun⟩

/-- so the use ends after some events that let the request pass, or all events do -/
theorem Overtakes.goes {later : List Event} (hallowed : ∀ call, allowed call → call.Driverless)
    (hx : Keeping D l x) (h : Overtakes request l x.station) (goes : Goes c allowed x later y) :
    (∃ first rest z, later = first ++ .steps ⟨.shared .leave, ()⟩ :: rest ∧
        (∀ e' ∈ first, e'.Spares request) ∧
        Goes c allowed x (first ++ [.steps ⟨.shared .leave, ()⟩]) z ∧ z.station.slot = .idle) ∨
      ((∀ e' ∈ later, e'.Spares request) ∧ Overtakes request (l.after later) y.station) := by
  induction goes with
  | nil => exact .inr ⟨fun e' he' => absurd he' List.not_mem_nil, h⟩
  | snoc before does ih =>
    rcases ih with ⟨first, rest, z, rfl, hfirst, hz⟩ | ⟨hfirst, hovertakes⟩
    · exact .inl ⟨first, _, z, by rw [List.append_assoc, List.cons_append], hfirst, hz⟩
    · rw [Ledger.after_snoc]
      rcases hovertakes.next hallowed (before.keeping hx) does with
        ⟨rfl, hidle⟩ | ⟨hspares, hovertakes⟩
      · exact .inl ⟨_, [], _, rfl, hfirst, before.snoc does, hidle⟩
      · refine .inr ⟨fun e' he' => ?_, hovertakes⟩
        rcases List.mem_append.mp he' with he' | he'
        · exact hfirst e' he'
        · obtain rfl := List.mem_singleton.mp he'
          exact hspares

theorem after_spares {later : List Event} (h : ∀ e' ∈ later, e'.Spares request) :
    Ledger.other.after later = .other := by
  induction later with
  | nil => rfl
  | cons e later ih =>
    have he : Ledger.other.next e = .other := (h e List.mem_cons_self).unread
    show Ledger.after (Ledger.other.next e) later = .other
    rw [he]
    exact ih fun e' he' => h e' (List.mem_cons_of_mem _ he')

/-- do not end it, and neither does the end of the use -/
theorem not_ended_of_spares {first : List Event} (h : ∀ e' ∈ first, e'.Spares request) :
    ¬ Ended .other request (first ++ [.steps ⟨.shared .leave, ()⟩]) := by
  intro h
  obtain ⟨front, e, rest, hsplit, hends⟩ := h
  rcases List.eq_nil_or_concat rest with rfl | ⟨rest, last, rfl⟩
  · obtain ⟨rfl, hlast⟩ := List.append_inj' hsplit rfl
    obtain rfl := List.singleton_inj.mp hlast
    rw [after_spares h] at hends
    cases hends with
    | leaves htook => cases htook
  · rw [List.concat_eq_append, ← List.cons_append, ← List.append_assoc] at hsplit
    obtain ⟨rfl, -⟩ := List.append_inj' hsplit rfl
    have hfront : Ledger.other.after front = .other :=
      after_spares fun e' he' => h e' (List.mem_append_left _ he')
    rw [hfront] at hends
    exact (h e (List.mem_append_right _ List.mem_cons_self)).lasts hends

theorem Event.Accepts.acquiring (h : e.Accepts request) (hx : Keeping D l x)
    (does : Does c allowed x e y) : x.station.slot.state = .idle ∧
      y.station.slot = ⟨.acquiring, some request⟩ := by
  cases h with
  | claims =>
    obtain ⟨-, -, -, permits⟩ := hx.steps does
    obtain ⟨hanswer, hy⟩ := permits.of_shared
    by_cases idle : x.station.slot.state = .idle
    · rw [hy]
      simp only [Section.run, if_pos idle]
      exact ⟨idle, trivial⟩
    · simp only [Section.run, if_neg idle] at hanswer
      cases hanswer
  | handles steps =>
    obtain ⟨-, performs⟩ := does.handled
    rcases accept_performs performs with ⟨idle, -, hy⟩ | ⟨-, hresult, -⟩
    · rw [hy]
      exact ⟨idle, rfl⟩
    · cases hresult

end

section
variable {c : Config} {allowed : Call → Prop} {es : List Event} {x : Robot}

/-- unless a use of the main loop was overtaken, every accepted request is held until its use -/
theorem Runs.kept (D : Discipline c allowed) (h : Runs c allowed es x) (hover : ¬ Overtaken es) :
    Kept es x := by
  intro before e later request h haccepts
  subst h
  obtain ⟨x₀, x₁, hbefore, does, hlater⟩ := h.split
  have hx₀ := hbefore.keeping D
  have hx₁ := does.keeping D hx₀
  obtain ⟨-, hslot⟩ := haccepts.acquiring hx₀ does
  have hl : Ledger.other.after (before ++ [e]) = (Ledger.other.after before).next e :=
    Ledger.after_snoc _ _ _
  by_cases hfree : ((Ledger.other.after before).next e).Free
  · rw [hl, Ledger.forget_of_free hfree]
    rcases (Fits.of_free hfree (.inl hslot)).goes D.driverless hx₁ hlater with hended | hfits
    · exact .inl hended
    · exact .inr hfits.has
  · have hovertakes : Overtakes request _ x₁.station := ⟨hslot, hfree⟩
    rcases hovertakes.goes D.driverless hx₁ hlater with
      ⟨first, rest, -, rfl, hfirst, -⟩ | ⟨-, hslot, -⟩
    · have hinside : ∀ e' ∈ first, ¬ e'.Returns := fun e' he' => (hfirst e' he').inside
      exact absurd ⟨before, e, request, first, rest, rfl, haccepts, by rwa [hl], hinside⟩ hover
    · exact .inr (.inl hslot)

/-- a request that overtakes a use of the main loop is lost when that use ends -/
theorem Runs.not_kept_of_overtaken (D : Discipline c allowed) (h : Runs c allowed es x)
    (hover : Overtaken es) :
    ∃ first rest y, es = first ++ rest ∧ Runs c allowed first y ∧ ¬ Kept first y := by
  obtain ⟨before, e, request, inside, outside, rfl, haccepts, hread, -⟩ := hover
  obtain ⟨x₀, x₁, hbefore, does, hlater⟩ := h.split
  have hx₀ := hbefore.keeping D
  obtain ⟨-, hslot⟩ := haccepts.acquiring hx₀ does
  have hread₁ := hread
  rw [Ledger.after_snoc] at hread₁
  have hovertakes : Overtakes request _ x₁.station := ⟨hslot, hread₁⟩
  rcases hovertakes.goes D.driverless (does.keeping D hx₀) hlater with
    ⟨first, rest, z, hsplit, hfirst, hz, hidle⟩ | ⟨hspares, -⟩
  · refine ⟨before ++ [e] ++ (first ++ [.steps ⟨.shared .leave, ()⟩]), rest, z, ?_,
      (hbefore.snoc does).append hz, fun hkept => ?_⟩
    · rw [hsplit]
      simp
    · rcases hkept before e (first ++ [.steps ⟨.shared .leave, ()⟩]) request (by simp) haccepts with
        hended | hhas
      · rw [Ledger.forget_of_not_free hread] at hended
        exact not_ended_of_spares hfirst hended
      · exact hhas.not_idle (by rw [hidle]; rfl)
  · exact absurd rfl (hspares _ (List.mem_append_right _ List.mem_cons_self)).stays

end

end Robot

end RangeBearing
