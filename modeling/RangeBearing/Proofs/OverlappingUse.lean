import RangeBearing.Proofs.Acceptances
import RangeBearing.Proofs.Simulated

/-!
# Uses that overlap

Handlers may use the matrix themselves.  A use of the main loop that had read its request before
that then ends whatever cycle has been started in the meantime.

* `Robot.estimates`        how often a matrix was handed to a use for a request;
* `Robot.Runs.estimates_le`   once at most, however the uses overlap;
* `Robot.Runs.kept_iff`    requests are held until their own use ends exactly when no use of the
                           main loop is overtaken by an acceptance;
* `Robot.lost_request`     a run in which one is overtaken and the request is lost.
-/

namespace RangeBearing

open Controller Program

theorem Brightness.Store.fresh_of_take {store : Brightness.Store} {m : Brightness}
    (h : store.take.1 = some m) : store.fresh = true := by
  cases hfresh : store.fresh with
  | true => rfl
  | false =>
    simp only [Brightness.Store.take, hfresh] at h
    cases h

namespace Robot

/-- whether an event hands a matrix to a use that has read a request -/
def Event.estimates (l : Ledger) (request : Request) : Event → Nat
  | .steps ⟨.shared .takeMatrix, some _⟩ => if l = .read request then 1 else 0
  | .handles .use (⟨.shared .readSlot, slot⟩ :: ⟨.shared .takeMatrix, some _⟩ :: _) _ =>
    if (slot : CycleSlot) = ⟨.estimating, some request⟩ then 1 else 0
  | _ => 0

/-- how often events hand a matrix to a use that has read a request -/
def estimates (l : Ledger) (request : Request) : List Event → Nat
  | [] => 0
  | e :: es => e.estimates l request + estimates (l.next e) request es

theorem estimates_snoc (l : Ledger) (request : Request) (es : List Event) (e : Event) :
    estimates l request (es ++ [e]) =
      estimates l request es + e.estimates (l.after es) request := by
  induction es generalizing l with
  | nil => exact Nat.add_comm _ _
  | cons e' es ih =>
    show e'.estimates l request + estimates (l.next e') request (es ++ [e]) = _
    rw [ih, ← Nat.add_assoc]
    rfl

/-- a request that is to be estimated yet -/
def Unused (request : Request) (st : Station) : Prop :=
  st.slot = ⟨.acquiring, some request⟩ ∨
    (st.slot = ⟨.estimating, some request⟩ ∧ st.store.fresh = true)

/-- what has been read since an acceptance, beside what has been read at all: the same, unless the
call has not returned that had read something before -/
def Since (s l : Ledger) : Prop := s = l ∨ (s = .other ∧ ¬ l.Free)

section
variable {c : Config} {x y : Robot} {s l : Ledger} {request : Request} {e : Event}

theorem Unused.congr {st st' : Station} (h : Unused request st') (hslot : st'.slot = st.slot)
    (hstore : st'.store = st.store) : Unused request st := by
  unfold Unused at h
  rw [hslot, hstore] at h
  exact h

theorem Event.estimates_of_local {action : Action} (h : action.Local) (answer : action.Answer) :
    (Event.steps ⟨action, answer⟩).estimates s request = 0 := by
  cases action with
  | shared s => exact False.elim h
  | _ => rfl

theorem Event.estimates_le (e : Event) (s : Ledger) (request : Request) :
    e.estimates s request ≤ 1 := by
  unfold Event.estimates
  split
  · split <;> decide
  · split <;> decide
  · decide

theorem Unused.before_steps {action : Action} {answer : action.Answer}
    (hx : Keeping (driverless c) l x)
    (does : Does c Call.Driverless x (.steps ⟨action, answer⟩) y)
    (hnew : ¬ Event.Accepts request (.steps ⟨action, answer⟩)) (h : Unused request y.station) :
    Unused request x.station ∧ (Event.steps ⟨action, answer⟩).estimates s request = 0 := by
  obtain ⟨holds, -, allows, permits⟩ := hx.steps does
  by_cases hlocal : action.Local
  · rw [permits.of_local hlocal] at h
    exact ⟨h, Event.estimates_of_local hlocal answer⟩
  · obtain ⟨section', rfl⟩ := Action.exists_shared hlocal
    obtain ⟨hanswer, hy⟩ := permits.of_shared
    rw [hy] at h
    cases section' with
    | enter state pending =>
      refine ⟨?_, rfl⟩
      obtain ⟨-, -, hwhich⟩ := allows
      by_cases idle : x.station.slot.state = .idle
      · simp only [Section.run, if_pos idle] at h hanswer
        rcases h with hslot | ⟨hslot, -⟩
        · cases hslot
          rw [hanswer] at hnew
          exact absurd .claims hnew
        · cases hslot
          rcases hwhich with ⟨hstate, -⟩ | ⟨hstate, -⟩ <;> cases hstate
      · simp only [Section.run, if_neg idle] at h
        exact h
    | proceed expected next =>
      refine ⟨?_, rfl⟩
      obtain ⟨-, rfl, rfl, ⟨request', hslot⟩, -⟩ := allows
      simp only [Section.run, hslot, if_true] at h
      rcases h with h | ⟨h, -⟩
      · cases h
      · cases h
        exact .inl hslot
    | leave =>
      rcases h with h | ⟨h, -⟩
      · cases h
      · cases h
    | putMatrix m =>
      refine ⟨?_, rfl⟩
      obtain ⟨-, request', hslot⟩ := allows
      rcases h with h | ⟨h, -⟩
      · exact .inl h
      · have h : x.station.slot = ⟨.estimating, some request⟩ := h
        rw [hslot] at h
        cases h
    | dropMatrix =>
      refine ⟨?_, rfl⟩
      rcases h with h | ⟨-, hfresh⟩
      · exact .inl h
      · cases hfresh
    | takeMatrix =>
      obtain ⟨request', rfl⟩ := allows
      simp only [Section.run, Brightness.Store.snd_take] at h hanswer
      rcases h with hslot | ⟨-, hfresh⟩
      · refine ⟨.inl hslot, ?_⟩
        -- the matrix is not fresh while a request is being acquired
        have hstale := holds.1.stale_of_acquiring hslot
        rw [hanswer]
        simp only [Brightness.Store.take, hstale]
        rfl
      · cases hfresh
    | _ => exact ⟨h, rfl⟩

theorem Unused.before_handles {call : Call} {steps : List Step} {result : call.Result}
    (does : Does c Call.Driverless x (.handles call steps result) y)
    (hnew : ¬ Event.Accepts request (.handles call steps result)) (h : Unused request y.station) :
    Unused request x.station ∧ (Event.handles call steps result).estimates s request = 0 := by
  obtain ⟨may, performs⟩ := does.handled
  cases call with
  | use =>
    rcases use_performs performs with ⟨_, _, -, hservice, -⟩ | ⟨-, -, hy, hsteps⟩
    · rcases serviceOf_performs hservice with ⟨-, -, hy⟩ | ⟨-, -, hy⟩
      · rw [hy] at h
        rcases h with h | ⟨h, -⟩ <;> cases h
      · rw [hy] at h
        rcases h with h | ⟨h, -⟩ <;> cases h
    · rw [hy] at h
      rw [hsteps]
      exact ⟨h, rfl⟩
  | accept request' =>
    rcases accept_performs performs with ⟨-, hresult, hy⟩ | ⟨-, -, hy, -⟩
    · rw [hy] at h
      rw [hresult] at hnew
      rcases h with hslot | ⟨hslot, -⟩
      · cases hslot
        exact absurd (.handles steps) hnew
      · cases hslot
    · rw [hy] at h
      exact ⟨h, rfl⟩
  | _ =>
    rcases may.performs performs with ⟨hslot, hstore⟩ | ⟨_, hcall, -⟩ | ⟨_, hcall, -⟩
    · exact ⟨h.congr hslot hstore, rfl⟩
    · cases hcall
    · cases hcall

/-- a request that is to be estimated after an event was so before, and the event has not estimated
it -/
theorem Unused.before (hx : Keeping (driverless c) l x) (does : Does c Call.Driverless x e y)
    (hnew : ¬ e.Accepts request) (h : Unused request y.station) :
    Unused request x.station ∧ e.estimates s request = 0 := by
  cases e with
  | starts call =>
    obtain ⟨-, -, hy⟩ := hx.starts does
    rw [hy] at h
    exact ⟨h, rfl⟩
  | returns call result =>
    obtain ⟨-, hy⟩ := hx.returns does
    rw [hy] at h
    exact ⟨h, rfl⟩
  | steps step => exact h.before_steps hx does hnew
  | handles call steps result => exact h.before_handles does hnew

/-- only a request that was to be estimated is estimated -/
theorem Unused.of_estimates (hx : Keeping (driverless c) l x)
    (does : Does c Call.Driverless x e y) (hsince : Since s l)
    (h : e.estimates s request ≠ 0) : Unused request x.station := by
  unfold Event.estimates at h
  split at h
  · next m =>
    split at h
    · next hread =>
      subst hread
      obtain rfl : Ledger.read request = l := by
        rcases hsince with hsince | ⟨hother, -⟩
        · exact hsince
        · cases hother
      obtain ⟨⟨hsettled, honly⟩, -, -, permits⟩ := hx.steps does
      obtain ⟨hanswer, -⟩ := permits.of_shared
      have hfresh := Brightness.Store.fresh_of_take hanswer.symm
      rcases hsettled with ⟨-, hstale⟩ | ⟨_, -, hstale⟩ | ⟨request', hslot, -⟩
      · rw [hstale] at hfresh
        cases hfresh
      · rw [hstale] at hfresh
        cases hfresh
      · rw [honly request' hslot] at hslot
        exact .inr ⟨hslot, hfresh⟩
    · exact absurd rfl h
  · next slot m rest result =>
    split at h
    · next hread =>
      obtain ⟨-, performs⟩ := does.handled
      rcases use_performs performs with ⟨_, _, -, hservice, hsteps⟩ | ⟨-, -, -, hsteps⟩
      · obtain ⟨_, -, htake⟩ := performs_shared_bind_iff.mp hservice
        rw [htake] at hsteps
        obtain ⟨hfirst, hrest⟩ := List.cons.inj hsteps
        obtain ⟨hsecond, -⟩ := List.cons.inj hrest
        have hslot : slot = x.station.slot := eq_of_heq (Step.mk.inj hfirst).2
        have hsome : some m = x.station.store.take.1 := eq_of_heq (Step.mk.inj hsecond).2
        exact .inr ⟨hslot.symm.trans hread, Brightness.Store.fresh_of_take hsome.symm⟩
      · cases hsteps
    · exact absurd rfl h
  · exact absurd rfl h

theorem Since.next (hx : Keeping (driverless c) l x) (does : Does c Call.Driverless x e y)
    (h : Since s l) : Since (s.next e) (l.next e) := by
  rcases h with rfl | ⟨rfl, hread⟩
  · exact .inl rfl
  · cases e with
    | starts call =>
      obtain ⟨rfl, -, -⟩ := hx.starts does
      exact absurd trivial hread
    | returns call result => exact .inl rfl
    | handles call steps result => exact .inr ⟨rfl, hread⟩
    | steps step =>
      obtain ⟨action, answer⟩ := step
      obtain ⟨-, -, allows, -⟩ := hx.steps does
      show Since (Ledger.note _ _) (Ledger.note _ _)
      by_cases hlocal : action.Local
      · rw [Ledger.note_of_local hlocal, Ledger.note_of_local hlocal]
        exact .inr ⟨rfl, hread⟩
      · obtain ⟨section', rfl⟩ := Action.exists_shared hlocal
        cases section' with
        | enter state pending => exact absurd allows.1 hread
        | proceed expected next => exact absurd allows.1 hread
        | putMatrix m => exact absurd allows.1 hread
        | dropMatrix => exact absurd allows.1 hread
        | leave =>
          rcases allows with ⟨hfree, -⟩ | ⟨request', rfl⟩
          · exact absurd hfree hread
          · exact .inl rfl
        | _ => exact .inr ⟨rfl, Ledger.note_not_free hread nofun nofun⟩

/-- once a matrix was handed out for a request, the request is not to be estimated any more -/
theorem Goes.estimates_le {later : List Event} (hx : Keeping (driverless c) l x)
    (hsince : Since s l) (h : Goes c Call.Driverless x later y)
    (hnew : ∀ e ∈ later, ¬ e.Accepts request) :
    estimates s request later ≤ 1 ∧
      (estimates s request later = 1 → ¬ Unused request y.station) ∧
      Since (s.after later) (l.after later) := by
  induction h with
  | nil => exact ⟨Nat.zero_le 1, nofun, hsince⟩
  | @snoc later y z e before does ih =>
    obtain ⟨hle, hused, hsince'⟩ := ih fun e' he' => hnew e' (List.mem_append_left _ he')
    have hy := before.keeping hx
    have hlast := hnew e (List.mem_append_right _ (List.mem_singleton_self e))
    rw [estimates_snoc, Ledger.after_snoc, Ledger.after_snoc]
    refine ⟨?_, fun hone hunused => ?_, hsince'.next hy does⟩
    · by_cases hestimates : e.estimates (s.after later) request = 0
      · omega
      · have hunused := Unused.of_estimates hy does hsince' hestimates
        have hone := e.estimates_le (s.after later) request
        have hzero : estimates s request later ≠ 1 := fun h => hused h hunused
        omega
    · obtain ⟨hunused, hestimates⟩ := hunused.before (s := s.after later) hy does hlast
      exact hused (by omega) hunused

end

section
variable {c : Config} {es : List Event} {x : Robot}

/-- no request is estimated twice before it is accepted again -/
theorem Runs.estimates_le (h : Runs c Call.Driverless es x) {before later : List Event} {e : Event}
    {request : Request} (hes : es = before ++ e :: later)
    (hnew : ∀ e' ∈ later, ¬ e'.Accepts request) :
    estimates (Ledger.other.after (before ++ [e])).forget request later ≤ 1 := by
  subst hes
  obtain ⟨x₀, x₁, hbefore, does, hlater⟩ := h.split
  have hx₁ := does.keeping (driverless c) (hbefore.keeping (driverless c))
  rw [← Ledger.after_snoc] at hx₁
  have hsince : Since (Ledger.other.after (before ++ [e])).forget
      (Ledger.other.after (before ++ [e])) := by
    by_cases hfree : (Ledger.other.after (before ++ [e])).Free
    · exact .inl (Ledger.forget_of_free hfree)
    · exact .inr ⟨Ledger.forget_of_not_free hfree, hfree⟩
  exact (hlater.estimates_le hx₁ hsince hnew).1

/-- however uses overlap, no request is estimated twice; all of them are held until their own use
ends exactly when none was accepted inside a use of the main loop that had read another one -/
theorem Runs.kept_iff (h : Runs c Call.Driverless es x) :
    ((∀ first rest y, es = first ++ rest → Runs c Call.Driverless first y → Kept first y) ↔
        ¬ Overtaken es) ∧
      ∀ before e later request, es = before ++ e :: later → e.Accepts request →
        (∀ e' ∈ later, ¬ e'.Accepts request) →
        estimates (Ledger.other.after (before ++ [e])).forget request later ≤ 1 := by
  refine ⟨⟨fun hkept hover => ?_, fun hover first rest y hes hfirst => ?_⟩,
    fun _ _ _ _ hes _ hnew => h.estimates_le hes hnew⟩
  · obtain ⟨first, rest, y, hes, hfirst, hlost⟩ := h.not_kept_of_overtaken (driverless c) hover
    exact hlost (hkept first rest y hes hfirst)
  · refine hfirst.kept (driverless c) fun hover' => hover ?_
    obtain ⟨before, e, request, inside, outside, rfl, haccepts, hread, hinside⟩ := hover'
    exact ⟨before, e, request, inside, outside ++ rest, by rw [hes]; simp, haccepts, hread, hinside⟩

/-- for example, when a handler has accepted a request and tries to use a matrix before there is
one -/
theorem kept_iff_of_early_use : ∃ es x, Runs .default Call.Driverless es x ∧
    x.station.slot = ⟨.acquiring, some ⟨1, 2, 5⟩⟩ ∧
      ∀ first rest y, es = first ++ rest → Runs .default Call.Driverless first y →
        Kept first y := by
  have idle : Station.new.slot.state = .idle := rfl
  have accepted := accept_of_idle idle ⟨1, 2, 5⟩
  have early : (use .default).Performs
      { Station.new with slot := ⟨.acquiring, some ⟨1, 2, 5⟩⟩, store := Station.new.store.drop }
      [⟨.shared .readSlot, ⟨.acquiring, some ⟨1, 2, 5⟩⟩⟩]
      (.error (.outOfOrder .estimating .acquiring))
      { Station.new with slot := ⟨.acquiring, some ⟨1, 2, 5⟩⟩, store := Station.new.store.drop } :=
    .act rfl (.done _ _)
  have run : Runs .default Call.Driverless _ _ :=
    (Runs.new.snoc (.handles none (.accept ⟨1, 2, 5⟩) trivial accepted)).snoc
      (.handles none .use trivial early)
  refine ⟨_, _, run, rfl, run.kept_iff.1.mpr ?_⟩
  intro h
  obtain ⟨before, e, request, inside, outside, hsplit, -⟩ := h
  have hleave : Event.steps ⟨.shared .leave, ()⟩ ∈
      before ++ e :: (inside ++ .steps ⟨.shared .leave, ()⟩ :: outside) := by simp
  rw [← hsplit] at hleave
  simp at hleave

theorem Goes.of_stale {allowed : Call → Prop} {st : Station} (hstale : st.store.fresh = false)
    (request : Request) : Goes c allowed ⟨st, some ⟨.use, serviceOf c request⟩⟩
      ([.steps ⟨.shared .takeMatrix, none⟩,
        .steps ⟨.log (outcome request (.error .noMatrix)), ()⟩] ++ [.steps ⟨.shared .leave, ()⟩])
      ⟨{ st with slot := .idle }, some ⟨.use, pure (.error .noMatrix)⟩⟩ := by
  have htake : (Action.shared .takeMatrix).Permits none st st := by
    show Section.takeMatrix.run st = (none, st)
    simp [Section.run, Brightness.Store.take, hstale]
  exact .cons (.steps htake) (.cons (.steps rfl) (.cons (.steps rfl) .nil))

/-- when the robot is idle before a use of the main loop ends that has read its request, a handler
can have another one accepted, which is dropped at the end -/
theorem Runs.loses {st : Station} {first : Request}
    (run : Runs c Call.Driverless es ⟨st, some ⟨.use, serviceOf c first⟩⟩)
    (hread : Ledger.other.after es = .read first) (idle : st.slot.state = .idle)
    (second : Request) : ∃ es x, Runs c Call.Driverless es x ∧ Overtaken es ∧ ¬ Kept es x := by
  have accepted := accept_of_idle idle second
  have hstale : st.store.drop.fresh = false := rfl
  have run := (run.snoc (.handles _ (.accept second) trivial accepted)).append
    (Goes.of_stale hstale first)
  rw [List.append_assoc] at run
  have haccepts : Event.Accepts second _ := .handles
    [⟨.shared (.enter .acquiring (some second)), .ok ()⟩, ⟨.shared .dropMatrix, ()⟩]
  have hspares : ∀ e ∈ [Event.steps ⟨.shared .takeMatrix, none⟩,
      .steps ⟨.log (outcome first (.error .noMatrix)), ()⟩], e.Spares second := by
    intro e he
    rcases List.mem_cons.mp he with rfl | he
    · exact .of_step nofun rfl
    · obtain rfl := List.mem_singleton.mp he
      exact .of_step nofun rfl
  refine ⟨_, _, run, ?_, fun hkept => ?_⟩
  · refine ⟨es, _, second, _, [], rfl, haccepts, ?_, fun e he => (hspares e he).inside⟩
    rw [Ledger.after_snoc, hread]
    exact id
  · rcases hkept es _ _ second rfl haccepts with hended | hhas
    · rw [Ledger.after_snoc, hread] at hended
      exact not_ended_of_spares hspares hended
    · exact hhas.not_idle rfl

/-- a handler uses the matrix between the check of a use of the main loop and its end, and then
accepts another request, which is lost -/
theorem lost_request : ∃ es x, Runs .default Call.Driverless es x ∧ Overtaken es ∧ ¬ Kept es x := by
  let dark : Simulation.Transceiver Unit := .new ⟨[], false, false⟩ []
  let first : Request := ⟨1, 2, 5⟩
  let accepted : Station := ⟨⟨.acquiring, some first⟩, .empty, .new, .empty⟩
  let sampled : Station := ⟨⟨.estimating, some first⟩, ⟨.dark, true⟩, .new, .empty⟩
  let free : Station := ⟨.idle, ⟨.dark, false⟩, (SensorHealth.new.sweep .dark).1, .empty⟩
  have idle : Station.new.slot.state = .idle := rfl
  have hcollect : ∃ steps, (collect .default).Performs accepted steps (.ok ()) sampled :=
    Simulation.performs_of_outcome (t := dark) (w := ⟨accepted, ⟨5000⟩, 0, 0, []⟩) rfl
      (by decide +kernel)
  have huse : ∃ steps, (use .default).Performs sampled steps
      (.error (.model .belowAmbientFloor)) free :=
    Simulation.performs_of_outcome (t := dark) (w := ⟨sampled, ⟨5000⟩, 0, 0, []⟩) rfl
      (by decide +kernel)
  obtain ⟨collects, hcollect⟩ := hcollect
  obtain ⟨uses, huse⟩ := huse
  -- the first request is accepted and its matrix collected
  have run₁ : Runs .default Call.Driverless _ ⟨accepted, none⟩ :=
    Runs.new.snoc (.handles none (.accept first) trivial (accept_of_idle idle first))
  have run₂ := (run₁.snoc (.starts accepted .collect)).append (Goes.of_performs hcollect)
  -- the main loop begins to use it, and a handler uses it first
  have hread : Does .default Call.Driverless ⟨sampled, some ⟨.use, use .default⟩⟩
      (.steps ⟨.shared .readSlot, ⟨.estimating, some first⟩⟩)
      ⟨sampled, some ⟨.use, serviceOf .default first⟩⟩ := by
    rw [use_eq]
    exact .steps rfl
  have run₃ := ((run₂.snoc (.starts sampled .use)).snoc hread).snoc (.handles _ .use trivial huse)
  refine run₃.loses ?_ rfl ⟨3, 4, 6⟩
  rw [Ledger.after_snoc, Ledger.after_snoc, Ledger.after_snoc]
  rfl

end

end Robot

end RangeBearing
