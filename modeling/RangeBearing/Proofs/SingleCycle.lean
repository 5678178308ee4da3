import RangeBearing.Proofs.Acceptances

/-!
# One cycle at a time

Handlers make the calls that are meant for them: they accept requests and look at estimates and at
the state.  Then, in every interleaving with the main loop, one cycle at most is in flight.

* `documented`          what such handlers leave to a use of the main loop: its request;
* `Robot.storedAfter`   the matrix that was stored since the last acceptance;
* `Robot.SingleCycle`   what holds at every moment of a run;
* `Robot.Runs.singleCycle`.
-/

namespace RangeBearing

open Controller Program

namespace Controller.Call

variable {c : Config} {st st' : Station} {call : Call} {steps : List Step} {result : call.Result}

/-- a call that is meant for handlers leaves a cycle in flight alone -/
theorem Documented.performs (hcall : call.Documented) (busy : st.slot.state ≠ .idle)
    (h : (call.program c).Performs st steps result st') :
    st'.slot = st.slot ∧ st'.store = st.store := by
  rcases hcall.driverless.performs h with hsame | ⟨_, -, idle, -⟩ | ⟨_, rfl, -⟩
  · exact hsame
  · exact absurd idle busy
  · exact False.elim hcall

theorem Documented.each (hcall : call.Documented) : (call.program c).Each Action.Quiet := by
  cases call with
  | accept request => exact accept_quiet request
  | takeEstimate => exact Each.perform trivial
  | peekEstimate => exact Each.perform trivial
  | state => exact (Each.perform trivial).bind fun _ => Each.pure _
  | _ => exact False.elim hcall

end Controller.Call

/-- handlers that only accept and look leave a use its request, and its matrix until it takes it -/
def documented (c : Config) : Discipline c Call.Documented where
  driverless _ h := h.driverless
  reading request st := st.slot = ⟨.estimating, some request⟩ ∧ st.store.fresh = true
  taken request st := st.slot = ⟨.estimating, some request⟩ ∧ st.store.fresh = false
  reading_of_settled hst hslot := ⟨hslot, hst.fresh_of_estimating hslot⟩
  reading_handled := by
    intro request st st' h h'
    obtain ⟨call, steps, result, hcall, performs⟩ := h
    obtain ⟨hslot, hfresh⟩ := h'
    obtain ⟨hslot', hstore'⟩ := hcall.performs (by rw [hslot]; exact nofun) performs
    rw [hslot', hstore']
    exact ⟨hslot, hfresh⟩
  taken_of_reading h := ⟨h.1, rfl⟩
  taken_handled := by
    intro request st st' h h'
    obtain ⟨call, steps, result, hcall, performs⟩ := h
    obtain ⟨hslot, hfresh⟩ := h'
    obtain ⟨hslot', hstore'⟩ := hcall.performs (by rw [hslot]; exact nofun) performs
    rw [hslot', hstore']
    exact ⟨hslot, hfresh⟩
  taken_congr := by
    intro request st st' h hslot hstore
    rw [hslot, hstore]
    exact h
  stale_of_taken h := h.2

namespace Robot

/-- the matrix that was stored since the last acceptance, after an event -/
def Event.stored (m : Option Brightness) : Event → Option Brightness
  | .steps ⟨.shared (.putMatrix m'), _⟩ => some m'
  | .steps ⟨.shared (.enter _ (some _)), .ok ()⟩ => none
  | .handles (.accept _) _ (.ok ()) => none
  | _ => m

/-- the matrix that was stored since the last acceptance -/
def storedAfter (es : List Event) : Option Brightness := es.foldl Event.stored none

theorem storedAfter_snoc (es : List Event) (e : Event) :
    storedAfter (es ++ [e]) = e.stored (storedAfter es) := by
  unfold storedAfter
  rw [List.foldl_append]
  rfl

theorem Event.stored_of_local {action : Action} (h : action.Local) (answer : action.Answer)
    (m : Option Brightness) : (Event.steps ⟨action, answer⟩).stored m = m := by
  cases action with
  | shared s => exact False.elim h
  | _ => rfl

section
variable {c : Config} {allowed : Call → Prop} {D : Discipline c allowed} {es : List Event}
  {x y : Robot} {e : Event} {l : Ledger} {m : Option Brightness}

/-- what can be taken is the matrix that was stored since the last acceptance -/
def Pairs (m : Option Brightness) (store : Brightness.Store) : Prop :=
  store.fresh = true → m = some store.matrix

theorem Pairs.of_stale {store : Brightness.Store} (h : store.fresh = false) : Pairs m store := by
  intro hfresh
  rw [h] at hfresh
  cases hfresh

theorem Pairs.steps {action : Action} {answer : action.Answer} (hx : Keeping D l x)
    (h : Pairs m x.station.store) (does : Does c allowed x (.steps ⟨action, answer⟩) y) :
    Pairs ((Event.steps ⟨action, answer⟩).stored m) y.station.store := by
  obtain ⟨-, -, allows, permits⟩ := hx.steps does
  by_cases hlocal : action.Local
  · rw [permits.of_local hlocal, Event.stored_of_local hlocal]
    exact h
  · obtain ⟨s, rfl⟩ := Action.exists_shared hlocal
    obtain ⟨rfl, hy⟩ := permits.of_shared
    rw [hy]
    cases s with
    | enter state request =>
      obtain ⟨-, hsettled, -⟩ := allows
      by_cases idle : x.station.slot.state = .idle
      · simp only [Section.run, if_pos idle]
        exact Pairs.of_stale (hsettled.idle_of_state idle).2
      · simp only [Section.run, if_neg idle]
        cases request <;> exact h
    | proceed expected next =>
      simp only [Section.run]
      split <;> exact h
    | putMatrix m' => exact fun _ => rfl
    | takeMatrix =>
      simp only [Section.run, Brightness.Store.snd_take]
      exact Pairs.of_stale rfl
    | dropMatrix => exact Pairs.of_stale rfl
    | _ => exact h

theorem Pairs.handles (hallowed : ∀ call, allowed call → call.Driverless) {call : Call}
    {steps : List Step} {result : call.Result} (h : Pairs m x.station.store)
    (does : Does c allowed x (.handles call steps result) y) :
    Pairs ((Event.handles call steps result).stored m) y.station.store := by
  obtain ⟨may, performs⟩ := does.handled
  cases call with
  | accept request =>
    rcases accept_performs performs with ⟨-, rfl, hy⟩ | ⟨-, rfl, hy, -⟩
    · rw [hy]
      exact Pairs.of_stale rfl
    · rw [hy]
      exact h
  | _ =>
    rcases (hallowed _ may).performs performs with
      ⟨-, hstore⟩ | ⟨_, -, -, -, hstore⟩ | ⟨_, -, -, -, hstore⟩
    · rw [hstore]
      exact h
    · rw [hstore]
      exact Pairs.of_stale rfl
    · rw [hstore]
      exact Pairs.of_stale rfl

theorem Runs.pairs (D : Discipline c allowed) (h : Runs c allowed es x) :
    Pairs (storedAfter es) x.station.store := by
  induction h with
  | new => exact Pairs.of_stale rfl
  | @snoc es x y e before does ih =>
    rw [storedAfter_snoc]
    cases e with
    | starts call =>
      obtain ⟨-, -, hy⟩ := (before.keeping D).starts does
      rw [hy]
      exact ih
    | returns call result =>
      obtain ⟨-, hy⟩ := (before.keeping D).returns does
      rw [hy]
      exact ih
    | steps step => exact Pairs.steps (before.keeping D) ih does
    | handles call steps result => exact Pairs.handles D.driverless ih does

end

/-! ## every moment of a run -/

section
variable {c : Config} {allowed : Call → Prop} {D : Discipline c allowed} {es : List Event}
  {x y : Robot} {l : Ledger}

theorem Keeping.holds (hx : Keeping D l x) : D.Holds l x.station := by
  obtain ⟨st, main⟩ := x
  cases main with
  | none =>
    obtain ⟨rfl, -⟩ := hx
    exact trivial
  | some pending =>
    obtain ⟨call, rest⟩ := pending
    cases rest with
    | done result => exact (hx st .refl).1
    | act action next => exact (hx st .refl).1

/-- a call that was turned away takes no further step -/
theorem Keeping.of_refused {fault : Fault} {pending : Pending}
    (hx : Keeping D (.refused fault) x) (hmain : x.main = some pending) :
    ∃ result, pending.rest = .done result ∧ pending.call.fault? result = some fault := by
  obtain ⟨st, main⟩ := x
  obtain rfl : main = some pending := hmain
  obtain ⟨call, rest⟩ := pending
  cases rest with
  | done result =>
    obtain ⟨-, -, -, hfault⟩ := hx st .refl
    exact ⟨result, rfl, hfault fault rfl⟩
  | act action next => exact absurd rfl ((hx st .refl).2.1 fault)

/-- the main loop is turned away from a robot that is not idle, and its call returns that fault -/
theorem Keeping.enter_busy {state : CycleState} {request : Option Request}
    {answer : Except Fault Unit} (hx : Keeping D l x)
    (does : Does c allowed x (.steps ⟨.shared (.enter state request), answer⟩) y)
    (busy : x.station.slot.state ≠ .idle) :
    answer = .error (.busy x.station.slot.state) ∧ y.station = x.station ∧
      ∃ call result, y.main = some ⟨call, .done result⟩ ∧
        call.fault? result = some (.busy x.station.slot.state) := by
  obtain ⟨-, active, ⟨hfree, -, -⟩, permits⟩ := hx.steps does
  obtain ⟨hanswer, hy⟩ := permits.of_shared
  simp only [Section.run, if_neg busy] at hanswer hy
  refine ⟨hanswer, hy, ?_⟩
  have hnote : l.note ⟨.shared (.enter state request), answer⟩ =
      .refused (.busy x.station.slot.state) := by
    rw [hanswer]
    cases l with
    | read request => exact False.elim hfree
    | took request => exact False.elim hfree
    | refused fault => exact absurd rfl (active fault)
    | _ => rfl
  have hy : Keeping D (l.note ⟨.shared (.enter state request), answer⟩) y := does.keeping D hx
  rw [hnote] at hy
  cases does with
  | steps permits =>
    obtain ⟨result, hrest, hfault⟩ := hy.of_refused rfl
    exact ⟨_, result, by rw [← hrest], hfault⟩

end

/-- one cycle at most is in flight -/
structure SingleCycle (c : Config) (es : List Event) (x : Robot) : Prop where
  /-- the main loop cannot enter another one: it is told the state, and nothing changes -/
  refuses : ∀ {state request answer y},
    Does c Call.Documented x (.steps ⟨.shared (.enter state request), answer⟩) y →
    x.station.slot.state ≠ .idle →
    answer = .error (.busy x.station.slot.state) ∧ y.station = x.station ∧
      ∃ call result, y.main = some ⟨call, .done result⟩ ∧
        call.fault? result = some (.busy x.station.slot.state)
  /-- and neither can a handler -/
  turnsAway : ∀ {request steps result y},
    Does c Call.Documented x (.handles (.accept request) steps result) y →
    x.station.slot.state ≠ .idle →
    result = .error (.busy x.station.slot.state) ∧ y.station = x.station
  /-- an accepted request is held until a use of the main loop that has read it since then ends -/
  kept : Kept es x
  /-- the sensors are read in acquisitions only -/
  reads : ∀ {row y}, Does c Call.Documented x (.steps ⟨.radio .readSensors, row⟩) y →
    x.station.slot.state = .acquiring
  /-- everything else is asked of the transceiver in broadcasts only -/
  lights : ∀ (r : Radio) {answer : r.Answer} {y}, r ≠ .readSensors →
    Does c Call.Documented x (.steps ⟨.radio r, answer⟩) y → x.station.slot.state = .broadcasting
  /-- and nothing by handlers -/
  quiet : ∀ {call steps result y}, Does c Call.Documented x (.handles call steps result) y →
    ∀ s ∈ steps, s.action.Quiet
  /-- a use takes the matrix that was stored since its request was accepted -/
  pairs : ∀ {answer y}, Does c Call.Documented x (.steps ⟨.shared .takeMatrix, answer⟩) y →
    ∃ request m, Ledger.other.after es = .read request ∧
      x.station.slot = ⟨.estimating, some request⟩ ∧ answer = some m ∧ storedAfter es = some m

section
variable {c : Config} {es : List Event} {x : Robot}

/-- a request is not accepted while a use holds its own one -/
theorem Runs.not_overtaken (h : Runs c Call.Documented es x) : ¬ Overtaken es := by
  intro h
  obtain ⟨before, e, request, first, rest, rfl, haccepts, hread, -⟩ := h
  obtain ⟨x₀, x₁, hbefore, does, -⟩ := h.split
  have hx₀ := hbefore.keeping (documented c)
  obtain ⟨idle, -⟩ := haccepts.acquiring hx₀ does
  rw [Ledger.after_snoc] at hread
  cases haccepts with
  | claims =>
    obtain ⟨-, -, ⟨hfree, -, -⟩, -⟩ := hx₀.steps does
    exact hread (hfree.note_enter _)
  | handles steps =>
    have hread : ¬ (Ledger.other.after before).Free := hread
    have holds := hx₀.holds
    cases hl : Ledger.other.after before with
    | read request' =>
      rw [hl] at holds
      obtain ⟨hslot, -⟩ := holds
      rw [hslot] at idle
      cases idle
    | took request' =>
      rw [hl] at holds
      obtain ⟨hslot, -⟩ := holds
      rw [hslot] at idle
      cases idle
    | _ =>
      rw [hl] at hread
      exact hread trivial

/-- in every interleaving of a main loop with handlers that accept and look, one cycle at a time is
in flight -/
theorem Runs.singleCycle (h : Runs c Call.Documented es x) : SingleCycle c es x where
  refuses does busy := (h.keeping (documented c)).enter_busy does busy
  turnsAway does busy := by
    obtain ⟨-, performs⟩ := does.handled
    rcases accept_performs performs with ⟨idle, -⟩ | ⟨-, hresult, hy, -⟩
    · exact absurd idle busy
    · exact ⟨hresult, hy⟩
  kept := h.kept (documented c) h.not_overtaken
  reads does := by
    obtain ⟨-, -, allows, -⟩ := (h.keeping (documented c)).steps does
    exact allows.2
  lights r _ _ hr does := by
    obtain ⟨-, -, allows, -⟩ := (h.keeping (documented c)).steps does
    cases r with
    | readSensors => exact absurd rfl hr
    | _ => exact allows.2
  quiet does := by
    obtain ⟨may, performs⟩ := does.handled
    exact may.each.steps performs
  pairs does := by
    have hx := h.keeping (documented c)
    obtain ⟨holds, -, ⟨request, hl⟩, permits⟩ := hx.steps does
    obtain ⟨hanswer, -⟩ := permits.of_shared
    rw [hl] at holds
    obtain ⟨hslot, hfresh⟩ := holds
    refine ⟨request, x.station.store.matrix, hl, hslot, ?_, h.pairs (documented c) hfresh⟩
    rw [hanswer]
    simp only [Section.run, Brightness.Store.take, hfresh, if_true]

/-- for example, when a handler has accepted a request and the main loop is about to accept another
one -/
theorem singleCycle_of_second_request : ∃ es x,
    Runs .default Call.Documented es x ∧ SingleCycle .default es x ∧
      x.station.slot = ⟨.acquiring, some ⟨1, 2, 5⟩⟩ ∧
      x.main = some ⟨.accept ⟨3, 4, 6⟩, accept ⟨3, 4, 6⟩⟩ := by
  have idle : Station.new.slot.state = .idle := rfl
  have accepted := accept_of_idle idle ⟨1, 2, 5⟩
  have run : Runs .default Call.Documented _ _ :=
    (Runs.new.snoc (.handles none (.accept ⟨1, 2, 5⟩) trivial accepted)).snoc
      (.starts _ (.accept ⟨3, 4, 6⟩))
  exact ⟨_, _, run, run.singleCycle, rfl, rfl⟩

end

end Robot

end RangeBearing
