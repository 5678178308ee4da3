import RangeBearing.Proofs.Discipline

/-!
# Every call keeps the discipline

Whatever handlers do between its steps, a call that starts on settled cells takes allowed steps
only and leaves settled cells behind.

* `Ledger.Entering`         the ledgers with which a call may enter a cycle;
* `broadcast_keeps`, `accept_keeps`, `collect_keeps`, `use_keeps`, `serve_keeps`;
* `Returned`                what holds when a call returns;
* `Controller.Call.keeps`   all calls;
* `Robot.Keeping`, `Robot.Runs.keeping`   so the main loop keeps the discipline in every run.
-/

namespace RangeBearing

open Controller Program

namespace Ledger

variable {l : Ledger}

/-- a call that has read no request and was not turned away -/
def Entering (l : Ledger) : Prop := l = other ∨ l = due

theorem Entering.active (h : l.Entering) (fault : Fault) : l ≠ refused fault := by
  rcases h with rfl | rfl <;> exact nofun

theorem Entering.free (h : l.Entering) : l.Free := by
  rcases h with rfl | rfl <;> exact trivial

theorem note_of_local {action : Action} (h : action.Local) (answer : action.Answer) :
    l.note ⟨action, answer⟩ = l := by
  cases action with
  | shared s => exact False.elim h
  | _ => cases l <;> rfl

theorem Entering.note_entered (h : l.Entering) {state : CycleState} {request : Option Request} :
    l.note ⟨.shared (.enter state request), .ok ()⟩ = l := by
  rcases h with rfl | rfl <;> rfl

theorem Entering.note_refused (h : l.Entering) {state : CycleState} {request : Option Request}
    {fault : Fault} :
    l.note ⟨.shared (.enter state request), .error fault⟩ = refused fault := by
  rcases h with rfl | rfl <;> rfl

/-- the sections that a call takes note of before it has read a request -/
def Noted : Section → Prop
  | .enter _ _ | .readSlot => True
  | _ => False

theorem Entering.note_section (h : l.Entering) {s : Section} (hs : ¬ Noted s)
    (answer : s.Answer) : l.note ⟨.shared s, answer⟩ = l := by
  cases s with
  | readSlot => exact absurd trivial hs
  | enter state request => exact absurd trivial hs
  | _ => rcases h with rfl | rfl <;> rfl

theorem active_of_not_free (h : ¬ l.Free) (fault : Fault) : l ≠ refused fault := by
  intro hl
  rw [hl] at h
  exact h trivial

theorem Free.note_enter (h : l.Free) {state : CycleState} {request : Option Request}
    (answer : Except Fault Unit) : (l.note ⟨.shared (.enter state request), answer⟩).Free := by
  cases l with
  | read request => exact False.elim h
  | took request => exact False.elim h
  | _ => cases answer <;> exact trivial

/-- a call that has read a request has done so until it ends the cycle -/
theorem note_not_free (h : ¬ l.Free) {step : Step} (hleave : step.action ≠ .shared .leave)
    (henter : ∀ state request, step.action ≠ .shared (.enter state request)) :
    ¬ (l.note step).Free := by
  obtain ⟨action, answer⟩ := step
  by_cases hlocal : action.Local
  · rw [note_of_local hlocal]
    exact h
  · obtain ⟨s, rfl⟩ := Action.exists_shared hlocal
    cases l with
    | read request =>
      cases s with
      | enter state pending => exact absurd rfl (henter state pending)
      | _ => exact id
    | took request =>
      cases s with
      | enter state pending => exact absurd rfl (henter state pending)
      | leave => exact absurd rfl hleave
      | _ => exact id
    | _ => exact absurd trivial h

end Ledger

namespace Station

variable {st : Station}

theorem settled_of_idle (hslot : st.slot = .idle) (hfresh : st.store.fresh = false) :
    st.Settled := .inl ⟨hslot, hfresh⟩

theorem settled_of_acquiring {request : Request} (hslot : st.slot = ⟨.acquiring, some request⟩)
    (hfresh : st.store.fresh = false) : st.Settled := .inr (.inl ⟨request, hslot, hfresh⟩)

theorem settled_of_estimating {request : Request} (hslot : st.slot = ⟨.estimating, some request⟩)
    (hfresh : st.store.fresh = true) : st.Settled := .inr (.inr ⟨request, hslot, hfresh⟩)

end Station

section
variable {c : Config} {allowed : Call → Prop} (D : Discipline c allowed) {l : Ledger}
  {st : Station}

theorem Keeps.of_settled {α : Type} {Ends : Ledger → α → Station → Prop} {a : α} (free : l.Free)
    (hst : st.Settled) (ends : ∀ st, st.Settled → Ends l a st) :
    Keeps D Ends l (Pure.pure a) st :=
  Keeps.pure fun st₁ hst₁ => ⟨D.holds_of_free free st₁, ends st₁ (hst₁.settled hst)⟩

include D in
/-- handlers leave an acquisition and a broadcast alone -/
theorem Discipline.stable {slot : CycleSlot} {fresh : Bool}
    (hbusy : slot.state = .acquiring ∨ slot.state = .broadcasting) {st st' : Station}
    (h : Between c allowed st st') (hst : st.slot = slot ∧ st.store.fresh = fresh) :
    st'.slot = slot ∧ st'.store.fresh = fresh := by
  obtain ⟨rfl, hfresh⟩ := hst
  obtain ⟨hslot', hstore'⟩ := h.held D.driverless hbusy
  rw [hslot', hstore']
  exact ⟨rfl, hfresh⟩

/-! ## the calls that enter a cycle -/

theorem illumination_keeps (hst : st.slot = ⟨.broadcasting, none⟩ ∧ st.store.fresh = false) :
    Keeps D (fun l _ x => l = .other ∧ x.slot = ⟨.broadcasting, none⟩ ∧ x.store.fresh = false)
      .other (Acquisition.broadcast c.timing c.power) st := by
  refine Keeps.of_each (Acquisition.broadcast_each c.timing c.power)
    (Ledger.Entering.active (.inl rfl)) (D.stable (.inr rfl)) (fun _ => trivial) ?_ hst
  intro action x haction hx
  refine ⟨?_, fun answer x' permits => ?_⟩
  · have hstate : x.slot.state = .broadcasting := by rw [hx.1]
    cases action with
    | shared s => exact False.elim haction
    | radio r =>
      cases r with
      | readSensors => exact False.elim haction
      | _ => exact ⟨trivial, hstate⟩
    | _ => exact trivial
  · rw [permits.of_local haction.local]
    exact ⟨Ledger.note_of_local haction.local answer, hx⟩

theorem broadcast_keeps (hst : st.Settled) :
    Keeps D (fun l (result : Except Fault UInt16) st => st.Settled ∧
      (l = .other ∨ ∃ fault, l = .refused fault ∧ result = .error fault))
      .other (broadcast c) st := by
  have active := Ledger.Entering.active (.inl rfl : Ledger.other.Entering)
  refine Keeps.section_bind active fun st₁ hst₁ => ?_
  have hsettled := hst₁.settled hst
  refine ⟨trivial, ⟨trivial, hsettled, .inl ⟨rfl, rfl⟩⟩, ?_⟩
  by_cases idle : st₁.slot.state = .idle
  · simp only [Section.run, if_pos idle]
    let entered : Station := { st₁ with slot := ⟨.broadcasting, none⟩ }
    have hentered : entered.slot = ⟨.broadcasting, none⟩ ∧ entered.store.fresh = false :=
      ⟨rfl, (hsettled.idle_of_state idle).2⟩
    refine Keeps.bind ((illumination_keeps D hentered).mono ?_)
    intro l result st₂ h
    obtain ⟨rfl, hst₂⟩ := h
    -- whatever the result, the call ends with a step back to idle
    have hleave : ∀ st₂ : Station, st₂.slot = ⟨.broadcasting, none⟩ ∧ st₂.store.fresh = false →
        Keeps D (fun l (result : Except Fault UInt16) st => st.Settled ∧
          (l = .other ∨ ∃ fault, l = .refused fault ∧ result = .error fault))
          .other (leave >>= fun _ => pure result) st₂ := by
      intro st₂ hst₂
      refine Keeps.section_bind active fun st₃ hst₃ => ?_
      obtain ⟨hslot, hfresh⟩ := D.stable (.inr rfl) hst₃ hst₂
      refine ⟨trivial, .inl ⟨trivial, hslot⟩, ?_⟩
      exact Keeps.of_settled D trivial (Station.settled_of_idle rfl hfresh)
        fun _ hst₄ => ⟨hst₄, .inl rfl⟩
    cases result with
    | ok tag => exact hleave st₂ hst₂
    | error fault =>
      exact Keeps.log_bind active rfl fun st₃ hst₃ =>
        ⟨trivial, hleave st₃ (D.stable (.inr rfl) hst₃ hst₂)⟩
  · simp only [Section.run, if_neg idle]
    exact Keeps.of_settled D trivial hsettled fun _ hst₂ => ⟨hst₂, .inr ⟨_, rfl, rfl⟩⟩

theorem accept_keeps {request : Request} (hl : l.Entering) (hst : st.Settled) :
    Keeps D (fun l' (result : Except Fault Unit) st =>
      (l' = l ∧ result = .ok () ∧ st.slot = ⟨.acquiring, some request⟩ ∧
        st.store.fresh = false) ∨
      ∃ fault, l' = .refused fault ∧ result = .error fault ∧ st.Settled)
      l (accept request) st := by
  refine Keeps.section_bind hl.active fun st₁ hst₁ => ?_
  have hsettled := hst₁.settled hst
  refine ⟨D.holds_of_free hl.free _, ⟨hl.free, hsettled, .inr ⟨rfl, Option.some_ne_none _⟩⟩, ?_⟩
  by_cases idle : st₁.slot.state = .idle
  · simp only [Section.run, if_pos idle, hl.note_entered]
    refine Keeps.section_bind hl.active fun st₂ hst₂ => ?_
    obtain ⟨hslot, -⟩ := D.stable (.inl rfl) hst₂ ⟨rfl, (hsettled.idle_of_state idle).2⟩
    refine ⟨D.holds_of_free hl.free _, ⟨hl.free, request, hslot⟩, ?_⟩
    rw [hl.note_section (s := .dropMatrix) id]
    refine Keeps.pure fun st₃ hst₃ => ⟨D.holds_of_free hl.free _, .inl ⟨rfl, rfl, ?_⟩⟩
    exact D.stable (.inl rfl) hst₃ ⟨hslot, rfl⟩
  · simp only [Section.run, if_neg idle, hl.note_refused]
    exact Keeps.of_settled D trivial hsettled fun _ hst₂ => .inr ⟨_, rfl, rfl, hst₂⟩

/-! ## the calls that serve a request -/

theorem sampling_keeps {request : Request} {arrival : UInt32} (hl : l.Entering)
    (hst : st.slot = ⟨.acquiring, some request⟩ ∧ st.store.fresh = false) :
    Keeps D (fun l' _ x => l' = l ∧ x.slot = ⟨.acquiring, some request⟩ ∧ x.store.fresh = false)
      l (Acquisition.receive c.timing arrival) st := by
  refine Keeps.of_each (Acquisition.receive_each c.timing arrival) hl.active
    (D.stable (.inl rfl)) (fun _ => D.holds_of_free hl.free _) ?_ hst
  intro action x haction hx
  refine ⟨?_, fun answer x' permits => ?_⟩
  · have hstate : x.slot.state = .acquiring := by rw [hx.1]
    cases action with
    | shared s => exact False.elim haction
    | radio r =>
      cases r with
      | readSensors => exact ⟨hl.free, hstate⟩
      | _ => exact False.elim haction
    | _ => exact trivial
  · rw [permits.of_local haction.local]
    exact ⟨Ledger.note_of_local haction.local answer, hx⟩

/-- a collection finds the acquisition of its request or changes nothing; a call that is to use the
matrix as well has accepted the request itself -/
theorem collect_keeps (hl : l.Entering) (hst : st.Settled)
    (hdue : l = .due → ∃ request, st.slot = ⟨.acquiring, some request⟩) :
    Keeps D (fun l' (_ : Except Fault Unit) st => l' = l ∧ st.Settled) l (collect c) st := by
  refine Keeps.section_bind hl.active fun st₁ hst₁ => ?_
  have hsettled := hst₁.settled hst
  refine ⟨D.holds_of_free hl.free _, trivial, ?_⟩
  simp only [Section.run]
  have hnote : l.note ⟨.shared .readSlot, st₁.slot⟩ = l := by
    rcases hl with rfl | rfl
    · rfl
    · obtain ⟨request, hslot⟩ := hdue rfl
      obtain ⟨hslot', -⟩ := hst₁.held D.driverless (.inl (by rw [hslot]))
      rw [hslot', hslot]
      rfl
  rw [hnote]
  rcases st₁.slot.requestIn_cases .acquiring with ⟨request, hslot, hrequest⟩ | ⟨-, hrequest⟩
  · rw [hrequest]
    have hfresh := hsettled.stale_of_acquiring hslot
    refine Keeps.bind ((sampling_keeps D hl ⟨hslot, hfresh⟩).mono ?_)
    intro _ m st₂ h
    obtain ⟨rfl, hst₂⟩ := h
    refine Keeps.section_bind hl.active fun st₃ hst₃ => ?_
    obtain ⟨hslot₃, -⟩ := D.stable (.inl rfl) hst₃ hst₂
    refine ⟨D.holds_of_free hl.free _, ⟨hl.free, request, hslot₃⟩, ?_⟩
    rw [hl.note_section (s := .putMatrix m) id]
    refine Keeps.section_last hl.active fun st₄ hst₄ => ?_
    obtain ⟨hslot₄, hstore₄⟩ := hst₄.held D.driverless (.inl (by
      show st₃.slot.state = .acquiring
      rw [hslot₃]))
    have hslot₄ : st₄.slot = ⟨.acquiring, some request⟩ := hslot₄.trans hslot₃
    have hfresh₄ : st₄.store.fresh = true := by
      rw [hstore₄]
      rfl
    refine ⟨D.holds_of_free hl.free _, ⟨hl.free, rfl, rfl, ⟨request, hslot₄⟩, hfresh₄⟩, ?_⟩
    rw [hl.note_section (s := .proceed .acquiring .estimating) id]
    intro st₅ hst₅
    refine ⟨D.holds_of_free hl.free _, rfl, hst₅.settled ?_⟩
    simp only [Section.run, hslot₄, if_true]
    exact Station.settled_of_estimating rfl hfresh₄
  · rw [hrequest]
    exact Keeps.of_settled D hl.free hsettled fun _ hst₂ => ⟨rfl, hst₂⟩

theorem estimate_keeps {request : Request} (taken : Option Brightness)
    (hst : D.taken request st) :
    Keeps D (fun l _ x => l = .took request ∧ D.taken request x) (.took request)
      (estimate c request taken) st := by
  refine Keeps.of_each (estimate_each c request taken) (Ledger.active_of_not_free id)
    (fun h => h.preserves D.taken_handled) id ?_ hst
  intro action x haction hx
  cases action with
  | shared s =>
    cases s with
    | readHealth =>
      refine ⟨trivial, fun answer x' permits => ⟨rfl, ?_⟩⟩
      obtain ⟨-, rfl⟩ := permits.of_shared
      exact hx
    | writeHealth h =>
      refine ⟨trivial, fun answer x' permits => ⟨rfl, ?_⟩⟩
      obtain ⟨-, rfl⟩ := permits.of_shared
      exact D.taken_congr hx rfl rfl
    | publish e =>
      refine ⟨trivial, fun answer x' permits => ⟨rfl, ?_⟩⟩
      obtain ⟨-, rfl⟩ := permits.of_shared
      exact D.taken_congr hx rfl rfl
    | _ => exact False.elim haction
  | log d =>
    refine ⟨trivial, fun answer x' permits => ⟨rfl, ?_⟩⟩
    obtain rfl : x' = x := permits
    exact hx
  | _ => exact False.elim haction

theorem serviceOf_keeps {request : Request} (hst : D.reading request st) :
    Keeps D (fun l (_ : Except Fault Estimate) st => l = .other ∧ st.Settled) (.read request)
      (serviceOf c request) st := by
  have reads := Ledger.active_of_not_free (id : ¬ (Ledger.read request).Free)
  have takes := Ledger.active_of_not_free (id : ¬ (Ledger.took request).Free)
  refine Keeps.section_bind reads fun st₁ hst₁ => ?_
  have hreading := hst₁.preserves D.reading_handled hst
  refine ⟨hreading, ⟨request, rfl⟩, ?_⟩
  simp only [Section.run, Brightness.Store.snd_take]
  refine Keeps.bind ((estimate_keeps D st₁.store.take.1 (D.taken_of_reading hreading)).mono ?_)
  intro _ result st₂ h
  obtain ⟨rfl, htaken⟩ := h
  refine Keeps.log_bind takes rfl fun st₃ hst₃ => ?_
  have htaken₃ := hst₃.preserves D.taken_handled htaken
  refine ⟨htaken₃, Keeps.section_bind takes fun st₄ hst₄ => ?_⟩
  have htaken₄ := hst₄.preserves D.taken_handled htaken₃
  have hstale := D.stale_of_taken htaken₄
  refine ⟨htaken₄, .inr ⟨request, rfl⟩, ?_⟩
  exact Keeps.of_settled D trivial (Station.settled_of_idle rfl hstale) fun _ hst₅ => ⟨rfl, hst₅⟩

theorem use_keeps (hst : st.Settled) :
    Keeps D (fun l (_ : Except Fault Estimate) st => (l = .due ∨ l = .other) ∧ st.Settled) .due
      (use c) st := by
  rw [use_eq]
  refine Keeps.section_bind (Ledger.Entering.active (.inr rfl)) fun st₁ hst₁ => ?_
  have hsettled := hst₁.settled hst
  refine ⟨trivial, trivial, ?_⟩
  simp only [Section.run]
  rcases st₁.slot.requestIn_cases .estimating with ⟨request, hslot, hrequest⟩ | ⟨-, hrequest⟩
  · have hnote : Ledger.due.note ⟨.shared .readSlot, st₁.slot⟩ = .read request := by
      simp only [Ledger.note, hrequest]
    rw [hrequest, hnote]
    refine (serviceOf_keeps D (D.reading_of_settled hsettled hslot)).mono ?_
    intro l result st₂ h
    obtain ⟨rfl, hst₂⟩ := h
    exact ⟨.inr rfl, hst₂⟩
  · have hnote : Ledger.due.note ⟨.shared .readSlot, st₁.slot⟩ = .due := by
      simp only [Ledger.note, hrequest]
    rw [hrequest, hnote]
    exact Keeps.of_settled D trivial hsettled fun _ hst₂ => ⟨.inl rfl, hst₂⟩

theorem serve_keeps {request : Request} (hst : st.Settled) :
    Keeps D (fun l (result : Except Fault Estimate) st => st.Settled ∧
      (l = .due ∨ l = .other ∨ ∃ fault, l = .refused fault ∧ result = .error fault))
      .due (serve c request) st := by
  refine Keeps.bind ((accept_keeps D (.inr rfl) hst).mono ?_)
  intro l accepted st₁ h
  rcases h with ⟨rfl, rfl, hslot, hfresh⟩ | ⟨fault, rfl, rfl, hst₁⟩
  · have hst₁ : st₁.Settled := Station.settled_of_acquiring hslot hfresh
    refine Keeps.bind ((collect_keeps D (.inr rfl) hst₁ fun _ => ⟨request, hslot⟩).mono ?_)
    intro _ collected st₂ h
    obtain ⟨rfl, hst₂⟩ := h
    cases collected with
    | ok u =>
      refine (use_keeps D hst₂).mono ?_
      intro l result st₃ h
      rcases h with ⟨rfl | rfl, hst₃⟩
      · exact ⟨hst₃, .inl rfl⟩
      · exact ⟨hst₃, .inr (.inl rfl)⟩
    | error fault =>
      exact Keeps.of_settled D trivial hst₂ fun _ hst₃ => ⟨hst₃, .inl rfl⟩
  · exact Keeps.of_settled D trivial hst₁ fun _ hst₂ => ⟨hst₂, .inr (.inr ⟨fault, rfl, rfl⟩)⟩

/-! ## all calls -/

/-- what holds when a call of the main loop returns -/
def Returned (call : Call) (l : Ledger) (result : call.Result) (st : Station) : Prop :=
  st.Settled ∧ l.Free ∧ ∀ fault, l = .refused fault → call.fault? result = some fault

theorem look_keeps (call : Call) {s : Section} (f : s.Answer → call.Result) (hst : st.Settled)
    (allows : ∀ st, (Action.shared s).AllowedIn .other st)
    (hnote : ∀ answer, Ledger.other.note ⟨.shared s, answer⟩ = .other)
    (hsame : ∀ st, (s.run st).2.slot = st.slot ∧ (s.run st).2.store = st.store) :
    Keeps D (Returned call) .other (perform (.shared s) >>= fun a => pure (f a)) st := by
  refine Keeps.section_bind (Ledger.Entering.active (.inl rfl)) fun st₁ hst₁ => ?_
  obtain ⟨hslot, hstore⟩ := hsame st₁
  refine ⟨trivial, allows st₁, ?_⟩
  rw [hnote]
  exact Keeps.of_settled D trivial ((hst₁.settled hst).congr hslot hstore)
    fun _ hst₂ => ⟨hst₂, trivial, nofun⟩

/-- every call keeps the discipline, from settled cells to settled cells -/
theorem Controller.Call.keeps (call : Call) (hst : st.Settled) :
    Keeps D (Returned call) (.start call) (call.program c) st := by
  cases call with
  | broadcast =>
    refine (broadcast_keeps D hst).mono ?_
    intro l result st₁ h
    rcases h with ⟨hst₁, rfl | ⟨fault, rfl, rfl⟩⟩
    · exact ⟨hst₁, trivial, nofun⟩
    · exact ⟨hst₁, trivial, by rintro _ ⟨⟩; rfl⟩
  | accept request =>
    refine (accept_keeps D (.inl rfl) hst).mono ?_
    intro l result st₁ h
    rcases h with ⟨rfl, rfl, hslot, hfresh⟩ | ⟨fault, rfl, rfl, hst₁⟩
    · exact ⟨Station.settled_of_acquiring hslot hfresh, trivial, nofun⟩
    · exact ⟨hst₁, trivial, by rintro _ ⟨⟩; rfl⟩
  | collect =>
    refine (collect_keeps D (.inl rfl) hst nofun).mono ?_
    intro _ result st₁ h
    obtain ⟨rfl, hst₁⟩ := h
    exact ⟨hst₁, trivial, nofun⟩
  | use =>
    refine (use_keeps D hst).mono ?_
    intro l result st₁ h
    rcases h with ⟨rfl | rfl, hst₁⟩
    · exact ⟨hst₁, trivial, nofun⟩
    · exact ⟨hst₁, trivial, nofun⟩
  | serve request =>
    refine (serve_keeps D hst).mono ?_
    intro l result st₁ h
    rcases h with ⟨hst₁, rfl | rfl | ⟨fault, rfl, rfl⟩⟩
    · exact ⟨hst₁, trivial, nofun⟩
    · exact ⟨hst₁, trivial, nofun⟩
    · exact ⟨hst₁, trivial, by rintro _ ⟨⟩; rfl⟩
  | takeEstimate =>
    exact look_keeps D .takeEstimate (s := .takeEstimate) id hst (fun _ => trivial)
      (fun _ => rfl) fun _ => ⟨rfl, rfl⟩
  | peekEstimate =>
    exact look_keeps D .peekEstimate (s := .peekEstimate) id hst (fun _ => trivial)
      (fun _ => rfl) fun _ => ⟨rfl, rfl⟩
  | lastMatrix =>
    exact look_keeps D .lastMatrix (s := .lastMatrix) id hst (fun _ => trivial)
      (fun _ => rfl) fun _ => ⟨rfl, rfl⟩
  | state =>
    exact look_keeps D .state (s := .readSlot) (·.state) hst (fun _ => trivial)
      (fun _ => rfl) fun _ => ⟨rfl, rfl⟩
  | sensorHealth =>
    exact look_keeps D .sensorHealth (s := .readHealth) id hst (fun _ => trivial)
      (fun _ => rfl) fun _ => ⟨rfl, rfl⟩
  | config => exact Keeps.of_settled D trivial hst fun _ hst₁ => ⟨hst₁, trivial, nofun⟩

end

/-! ## runs -/

namespace Robot

variable {c : Config} {allowed : Call → Prop} {es : List Event} {x y : Robot} {e : Event}

/-- a main loop that is in no call on settled cells, or in one that keeps the discipline -/
def Keeping (D : Discipline c allowed) (l : Ledger) (x : Robot) : Prop :=
  match x.main with
  | none => l = .other ∧ x.station.Settled
  | some ⟨call, rest⟩ => Keeps D (Returned call) l rest x.station

theorem Does.keeping (D : Discipline c allowed) {l : Ledger} (h : Does c allowed x e y)
    (hx : Keeping D l x) : Keeping D (l.next e) y := by
  cases h with
  | starts st call => exact call.keeps D hx.2
  | steps permits => exact (hx _ .refl).2.2.2 _ _ permits
  | returns st call result => exact ⟨rfl, (hx st .refl).2.1⟩
  | handles main call may performs =>
    have hb : Between c allowed _ _ := .single ⟨_, _, _, may, performs⟩
    cases main with
    | none => exact ⟨hx.1, hx.2.performs performs⟩
    | some pending => exact Keeps.of_between hx hb

theorem Goes.keeping {D : Discipline c allowed} {l : Ledger} (h : Goes c allowed x es y)
    (hx : Keeping D l x) : Keeping D (l.after es) y := by
  induction h with
  | nil => exact hx
  | snoc _ does ih =>
    rw [Ledger.after_snoc]
    exact does.keeping D ih

/-- the main loop keeps the discipline in every run -/
theorem Runs.keeping (D : Discipline c allowed) (h : Runs c allowed es x) :
    Keeping D (Ledger.other.after es) x := by
  induction h with
  | new => exact ⟨rfl, .inl ⟨rfl, rfl⟩⟩
  | snoc _ does ih =>
    rw [Ledger.after_snoc]
    exact does.keeping D ih

variable {D : Discipline c allowed} {l : Ledger}

theorem Keeping.steps {action : Action} {answer : action.Answer} (hx : Keeping D l x)
    (does : Does c allowed x (.steps ⟨action, answer⟩) y) :
    D.Holds l x.station ∧ (∀ fault, l ≠ .refused fault) ∧ action.AllowedIn l x.station ∧
      action.Permits answer x.station y.station := by
  cases does with
  | steps permits =>
    obtain ⟨holds, active, allows, -⟩ := hx _ .refl
    exact ⟨holds, active, allows, permits⟩

theorem Keeping.starts {call : Call} (hx : Keeping D l x)
    (does : Does c allowed x (.starts call) y) :
    l = .other ∧ x.station.Settled ∧ y.station = x.station := by
  cases does with
  | starts st call => exact ⟨hx.1, hx.2, rfl⟩

theorem Keeping.returns {call : Call} {result : call.Result} (hx : Keeping D l x)
    (does : Does c allowed x (.returns call result) y) :
    Returned call l result x.station ∧ y.station = x.station := by
  cases does with
  | returns st call result => exact ⟨(hx st .refl).2, rfl⟩

theorem Does.handled {call : Call} {steps : List Step} {result : call.Result}
    (does : Does c allowed x (.handles call steps result) y) :
    allowed call ∧ (call.program c).Performs x.station steps result y.station := by
  cases does with
  | handles main call may performs => exact ⟨may, performs⟩

end Robot

end RangeBearing
