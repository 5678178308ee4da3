import RangeBearing.Proofs.Calls
import RangeBearing.Proofs.EstimationFaults

/-!
# What a call does when nothing interrupts it

For each call that can fail, the runs of its program: the result, the shared cells after it and
the steps taken.

* `accept_performs`, `broadcast_performs`, `collect_performs`, `use_performs`, `serve_performs`;
* `broadcast_answered`   the answer of the transceiver decides how a broadcast ends;
* `Station.Settled`      what holds of the cells between two calls;
* `Station.Reachable.settled`.
-/

namespace RangeBearing

open Program

/-! ## acquisitions take local steps only -/

namespace Acquisition

/-- the steps of the receiving side -/
def Receiving : Action → Prop
  | .readClock | .wait _ _ _ | .pause _ | .enterCritical | .leaveCritical
  | .radio .readSensors => True
  | _ => False

theorem Receiving.local {action : Action} (h : Receiving action) : action.Local := by
  cases action with
  | shared s => exact h
  | _ => exact trivial

variable {P : Action → Prop} {α : Type}

theorem atomically_each {p : Program α} (he : P .enterCritical) (hl : P .leaveCritical)
    (hp : p.Each P) : (atomically p).Each P :=
  (Each.perform he).bind fun _ => hp.bind fun _ => (Each.perform hl).bind fun _ => Each.pure _

theorem readWindow_each (t : Timing) (m : Brightness) (e : Direction) :
    (readWindow t m e).Each Receiving :=
  (Each.perform trivial).bind fun _ => (Each.perform trivial).bind fun _ =>
    (Each.perform trivial).bind fun _ => (Each.perform trivial).bind fun _ =>
      (Each.perform trivial).bind fun _ => Each.pure _

theorem receive_each (t : Timing) (arrival : UInt32) : (receive t arrival).Each Receiving := by
  refine (Each.perform trivial).bind fun _ => atomically_each trivial trivial ?_
  refine (Each.perform trivial).bind fun _ => (Each.perform trivial).bind fun _ => ?_
  exact Each.foldlM (readWindow_each t) _ _

/-- the steps of the broadcasting side -/
def Lighting : Action → Prop
  | .shared _ | .radio .readSensors => False
  | _ => True

theorem Lighting.local {action : Action} (h : Lighting action) : action.Local := by
  cases action with
  | shared s => exact h
  | _ => exact trivial

/-- the steps of the illumination sequence -/
def Illuminating : Action → Prop
  | .readClock | .wait _ _ _ | .pause _ | .enterCritical | .leaveCritical
  | .radio (.setPower _) | .radio (.emitterOn _) | .radio (.emitterOff _) => True
  | _ => False

/-- a step that announces no cycle -/
def Unannounced : Action → Prop
  | .radio (.broadcast _ _) => False
  | _ => True

theorem Illuminating.lighting {action : Action} (h : Illuminating action) : Lighting action := by
  cases action with
  | shared s => exact h
  | radio r =>
    cases r with
    | readSensors => exact h
    | _ => exact trivial
  | _ => exact trivial

theorem Illuminating.unannounced {action : Action} (h : Illuminating action) :
    Unannounced action := by
  cases action with
  | radio r =>
    cases r with
    | broadcast code tag => exact h
    | _ => exact trivial
  | _ => exact trivial

theorem lightWindow_each (t : Timing) (d : Direction) : (lightWindow t d).Each Illuminating :=
  (Each.perform trivial).bind fun _ => (Each.perform trivial).bind fun _ =>
    (Each.perform trivial).bind fun _ => (Each.perform trivial).bind fun _ => Each.perform trivial

theorem illuminate_each (t : Timing) (sentAt : UInt32) (power : UInt16) :
    (illuminate t sentAt power).Each Illuminating := by
  refine (Each.perform trivial).bind fun _ => (Each.perform trivial).bind fun _ =>
    (Each.perform trivial).bind fun _ => atomically_each trivial trivial ?_
  exact (Each.perform trivial).bind fun _ => Each.forM (lightWindow_each t) _

theorem broadcast_each (t : Timing) (power : UInt16) :
    (Acquisition.broadcast t power).Each Lighting := by
  refine (Each.perform trivial).bind fun sentAt => (Each.perform trivial).bind fun sent => ?_
  cases sent with
  | true =>
    have hlit := (illuminate_each t sentAt power).mono fun _ h => h.lighting
    exact (Each.perform trivial).bind fun _ => hlit.bind fun _ => (Each.perform trivial).bind
      fun _ => (Each.perform trivial).bind fun _ => Each.pure _
  | false => exact Each.pure _

/-- a broadcast begins with its request: sent, it is followed by the illumination; refused, by
nothing -/
theorem broadcast_performs {t : Timing} {power : UInt16} {st st' : Station} {steps : List Step}
    {result : Except Fault UInt16}
    (h : (Acquisition.broadcast t power).Performs st steps result st') :
    ∃ now : UInt32,
      (result = .ok (now &&& tagMask).toUInt16 ∧
        ∃ lit, (∀ s ∈ lit, Illuminating s.action) ∧ steps =
          ⟨.readClock, now⟩ ::
            ⟨.radio (.broadcast requestCode (now &&& tagMask).toUInt16), true⟩ ::
            ⟨.radio (.setBlocked true), ()⟩ :: (lit ++
              [⟨.radio (.setBlocked false), ()⟩,
                ⟨.log (.illuminated (now &&& tagMask).toUInt16), ()⟩])) ∨
      (result = .error .refused ∧ steps =
        [⟨.readClock, now⟩,
          ⟨.radio (.broadcast requestCode (now &&& tagMask).toUInt16), false⟩]) := by
  obtain ⟨now, _, _, -, h, hnow⟩ := performs_perform_bind_iff.mp h
  obtain ⟨sent, _, _, -, h, hsent⟩ := performs_perform_bind_iff.mp h
  refine ⟨now, ?_⟩
  cases sent with
  | true =>
    obtain ⟨_, _, _, -, h, hblocked⟩ := performs_perform_bind_iff.mp h
    obtain ⟨lit, _, _, _, hlit, h, hrest⟩ := performs_bind_iff.mp h
    obtain ⟨_, _, _, -, h, hunblocked⟩ := performs_perform_bind_iff.mp h
    obtain ⟨_, h, hlog⟩ := performs_log_bind_iff.mp h
    obtain ⟨hend, hresult, -⟩ := performs_pure_iff.mp h
    refine .inl ⟨hresult, lit, (illuminate_each t now power).steps hlit, ?_⟩
    rw [hnow, hsent, hblocked, hrest, hunblocked, hlog, hend]
  | false =>
    obtain ⟨hend, hresult, -⟩ := performs_pure_iff.mp h
    refine .inr ⟨hresult, ?_⟩
    rw [hnow, hsent, hend]

end Acquisition

namespace Action

/-- a step that needs neither the transceiver nor the scheduler -/
def Quiet : Action → Prop
  | shared _ | log _ => True
  | _ => False

/-- a step of the estimation, which touches neither the slot nor the store -/
def Estimates : Action → Prop
  | shared .readHealth | shared (.writeHealth _) | shared (.publish _) | log _ => True
  | _ => False

end Action

/-- the mailbox after a cycle: a success is published and a failure changes nothing -/
def Mailbox.after (box : Mailbox) : Except Fault Estimate → Mailbox
  | .ok e => box.publish e
  | .error _ => box

namespace CycleSlot

variable {slot : CycleSlot} {expected : CycleState}

theorem requestIn_eq_ok {request : Request} :
    slot.requestIn expected = .ok request ↔ slot = ⟨expected, some request⟩ := by
  obtain ⟨state, pending⟩ := slot
  cases pending with
  | none => simp [requestIn]
  | some r =>
    by_cases h : state = expected
    · simp [requestIn, h]
    · simp [requestIn, h]

theorem requestIn_eq_error {fault : Fault} (h : slot.requestIn expected = .error fault) :
    fault = .outOfOrder expected slot.state := by
  obtain ⟨state, pending⟩ := slot
  cases pending with
  | none => exact (Except.error.inj h).symm
  | some r =>
    unfold requestIn at h
    dsimp only at h
    split at h
    · cases h
    · exact (Except.error.inj h).symm

/-- a call that is due finds the request of the cycle; one that is not names the state -/
theorem requestIn_cases (slot : CycleSlot) (expected : CycleState) :
    (∃ request, slot = ⟨expected, some request⟩ ∧ slot.requestIn expected = .ok request) ∨
      ((∀ request, slot ≠ ⟨expected, some request⟩) ∧
        slot.requestIn expected = .error (.outOfOrder expected slot.state)) := by
  cases h : slot.requestIn expected with
  | ok request => exact .inl ⟨request, requestIn_eq_ok.mp h, rfl⟩
  | error fault =>
    refine .inr ⟨fun request heq => ?_, by rw [requestIn_eq_error h]⟩
    rw [requestIn_eq_ok.mpr heq] at h
    cases h

end CycleSlot

namespace Controller

variable {c : Config} {st st' : Station} {steps : List Step} {request : Request}

/-! ## the estimation of a matrix -/

theorem sweep_energy (h : SensorHealth) (m : Brightness) : (h.sweep m).2.energy = m.total := by
  unfold SensorHealth.sweep
  generalize h.record (SensorMask.ofPred m.isSilent) = recorded
  rfl

theorem process_each (c : Config) (request : Request) (m : Brightness) :
    (process c request m).Each Action.Estimates := by
  refine (Each.perform trivial).bind fun _ => (Each.perform trivial).bind fun h => ?_
  obtain ⟨health, sweep⟩ := SensorHealth.sweep h m
  refine (Each.forM (fun d => Each.perform trivial) _).bind fun _ =>
    (Each.perform trivial).bind fun _ => ?_
  cases Estimation.fit m c.weightFloor with
  | error fault => exact Each.pure _
  | ok fit =>
    refine (Each.perform trivial).bind fun _ => ?_
    cases Assessment.score c m sweep.energy fit.pose with
    | error fault => exact Each.pure _
    | ok a => exact (Each.perform trivial).bind fun _ => Each.pure _

theorem logs_station {l : List Diagnostic} {u : PUnit}
    (h : (l.forM log).Performs st steps u st') : st' = st :=
  (Each.forM (P := Action.Local) (fun _ => Each.perform trivial) l).station_eq (fun _ h => h) h

theorem process_performs {m : Brightness} {result : Except Fault Estimate}
    (h : (process c request m).Performs st steps result st') :
    result = verdict c request.source m ∧
      st' = { st with
        health := (st.health.sweep m).1, mailbox := st.mailbox.after result } := by
  obtain ⟨_, h, -⟩ := performs_log_bind_iff.mp h
  obtain ⟨_, h, -⟩ := performs_shared_bind_iff.mp h
  -- the sweep is taken as a pair before anything is computed with it
  generalize hswept : SensorHealth.sweep _ m = swept at h
  change st.health.sweep m = swept at hswept
  have henergy := sweep_energy st.health m
  rw [hswept] at henergy ⊢
  obtain ⟨health, sweep⟩ := swept
  obtain ⟨_, _, st₁, _, hlogs, hrest, -⟩ := performs_bind_iff.mp h
  obtain rfl : st₁ = st := logs_station hlogs
  obtain ⟨_, h, -⟩ := performs_shared_bind_iff.mp hrest
  cases hfit : Estimation.fit m c.weightFloor with
  | error fault =>
    rw [hfit] at h
    obtain ⟨-, rfl, rfl⟩ := performs_pure_iff.mp h
    exact ⟨(verdict_of_fit_error hfit).symm, rfl⟩
  | ok fit =>
    rw [hfit] at h
    obtain ⟨_, h, -⟩ := performs_log_bind_iff.mp h
    rw [henergy] at h
    cases hscore : Assessment.score c m m.total fit.pose with
    | error fault =>
      rw [hscore] at h
      obtain ⟨-, rfl, rfl⟩ := performs_pure_iff.mp h
      rw [verdict_of_fit_ok hfit, hscore]
      exact ⟨rfl, rfl⟩
    | ok a =>
      rw [hscore] at h
      obtain ⟨_, h, -⟩ := performs_shared_bind_iff.mp h
      obtain ⟨-, rfl, rfl⟩ := performs_pure_iff.mp h
      rw [verdict_of_fit_ok hfit, hscore]
      exact ⟨rfl, rfl⟩

/-! ## the calls -/

/-- a request is accepted by an idle robot only -/
theorem accept_performs {result : Except Fault Unit}
    (h : (accept request).Performs st steps result st') :
    (st.slot.state = .idle ∧ result = .ok () ∧
        st' = { st with slot := ⟨.acquiring, some request⟩, store := st.store.drop }) ∨
      (st.slot.state ≠ .idle ∧ result = .error (.busy st.slot.state) ∧ st' = st ∧
        steps = [⟨.shared (.enter .acquiring (some request)), .error (.busy st.slot.state)⟩]) := by
  obtain ⟨rest, h, hsteps⟩ := performs_shared_bind_iff.mp h
  by_cases idle : st.slot.state = .idle
  · simp only [Section.run, if_pos idle] at h
    obtain ⟨_, h, -⟩ := performs_shared_bind_iff.mp h
    obtain ⟨-, rfl, rfl⟩ := performs_pure_iff.mp h
    exact .inl ⟨idle, rfl, rfl⟩
  · simp only [Section.run, if_neg idle] at h hsteps
    obtain ⟨rfl, rfl, rfl⟩ := performs_pure_iff.mp h
    exact .inr ⟨idle, rfl, rfl, hsteps⟩

theorem accept_quiet (request : Request) : (accept request).Each Action.Quiet := by
  refine (Each.perform trivial).bind fun entered => ?_
  cases entered with
  | ok u => exact (Each.perform trivial).bind fun _ => Each.pure _
  | error fault => exact Each.pure _

theorem accept_of_idle (idle : st.slot.state = .idle) (request : Request) :
    (accept request).Performs st
      [⟨.shared (.enter .acquiring (some request)), .ok ()⟩, ⟨.shared .dropMatrix, ()⟩] (.ok ())
      { st with slot := ⟨.acquiring, some request⟩, store := st.store.drop } := by
  have hclaim : (Section.enter .acquiring (some request)).run st =
      (.ok (), { st with slot := ⟨.acquiring, some request⟩ }) := if_pos idle
  exact .act hclaim (.act rfl (.done _ _))

/-- a robot that is not idle refuses to broadcast; an idle one is idle again afterwards.  A request
that is sent is followed by the illumination, and when the transceiver refuses it nothing else is
asked of it. -/
theorem broadcast_performs {result : Except Fault UInt16}
    (h : (broadcast c).Performs st steps result st') :
    (st.slot.state ≠ .idle ∧ result = .error (.busy st.slot.state) ∧ st' = st ∧
        steps = [⟨.shared (.enter .broadcasting none), .error (.busy st.slot.state)⟩]) ∨
      (st.slot.state = .idle ∧ st' = { st with slot := .idle } ∧ ∃ now : UInt32,
        (result = .ok (now &&& Acquisition.tagMask).toUInt16 ∧
          ∃ lit, (∀ s ∈ lit, Acquisition.Illuminating s.action) ∧ steps =
            ⟨.shared (.enter .broadcasting none), .ok ()⟩ :: ⟨.readClock, now⟩ ::
              ⟨.radio (.broadcast Acquisition.requestCode
                (now &&& Acquisition.tagMask).toUInt16), true⟩ ::
              ⟨.radio (.setBlocked true), ()⟩ :: (lit ++
                [⟨.radio (.setBlocked false), ()⟩,
                  ⟨.log (.illuminated (now &&& Acquisition.tagMask).toUInt16), ()⟩,
                  ⟨.shared .leave, ()⟩])) ∨
        (result = .error .refused ∧ steps =
          [⟨.shared (.enter .broadcasting none), .ok ()⟩, ⟨.readClock, now⟩,
            ⟨.radio (.broadcast Acquisition.requestCode
              (now &&& Acquisition.tagMask).toUInt16), false⟩,
            ⟨.log (.broadcastAbandoned .refused), ()⟩, ⟨.shared .leave, ()⟩])) := by
  obtain ⟨rest, h, hsteps⟩ := performs_shared_bind_iff.mp h
  by_cases idle : st.slot.state = .idle
  · simp only [Section.run, if_pos idle] at h hsteps
    obtain ⟨acquired, outcome, st₁, ended, hacq, h, hrest⟩ := performs_bind_iff.mp h
    obtain rfl : st₁ = { st with slot := ⟨.broadcasting, none⟩ } :=
      (Acquisition.broadcast_each c.timing c.power).station_eq (fun _ h => h.local) hacq
    obtain ⟨now, ⟨rfl, lit, hlit, hacquired⟩ | ⟨rfl, hacquired⟩⟩ :=
      Acquisition.broadcast_performs hacq
    · obtain ⟨_, h, hleave⟩ := performs_shared_bind_iff.mp h
      obtain ⟨hnil, hresult, rfl⟩ := performs_pure_iff.mp h
      refine .inr ⟨idle, rfl, now, .inl ⟨hresult, lit, hlit, ?_⟩⟩
      rw [hsteps, hrest, hacquired, hleave, hnil]
      simp only [List.cons_append, List.append_assoc, List.nil_append]
    · obtain ⟨_, h, hlog⟩ := performs_log_bind_iff.mp h
      obtain ⟨_, h, hleave⟩ := performs_shared_bind_iff.mp h
      obtain ⟨hnil, hresult, rfl⟩ := performs_pure_iff.mp h
      refine .inr ⟨idle, rfl, now, .inr ⟨hresult, ?_⟩⟩
      rw [hsteps, hrest, hacquired, hlog, hleave, hnil]
      rfl
  · simp only [Section.run, if_neg idle] at h hsteps
    obtain ⟨rfl, rfl, rfl⟩ := performs_pure_iff.mp h
    exact .inl ⟨idle, rfl, rfl, hsteps⟩

/-- an idle robot announces one request, and the answer to it decides how its broadcast ends -/
theorem broadcast_answered {result : Except Fault UInt16} (idle : st.slot.state = .idle)
    (h : (broadcast c).Performs st steps result st') :
    ∃ tag sent, ⟨.radio (.broadcast Acquisition.requestCode tag), sent⟩ ∈ steps ∧
      (∀ s ∈ steps, Acquisition.Unannounced s.action ∨
        s = ⟨.radio (.broadcast Acquisition.requestCode tag), sent⟩) ∧
      result = if sent then .ok tag else .error .refused := by
  rcases broadcast_performs h with
    ⟨busy, -⟩ | ⟨-, -, now, ⟨hresult, lit, hlit, rfl⟩ | ⟨hresult, rfl⟩⟩
  · exact absurd idle busy
  · refine ⟨(now &&& Acquisition.tagMask).toUInt16, true, by simp, ?_, hresult⟩
    simp only [List.forall_mem_cons, List.forall_mem_append]
    exact ⟨.inl trivial, .inl trivial, .inr trivial, .inl trivial,
      fun s hs => .inl (hlit s hs).unannounced, .inl trivial, .inl trivial, .inl trivial,
      fun s hs => absurd hs List.not_mem_nil⟩
  · refine ⟨(now &&& Acquisition.tagMask).toUInt16, false, by simp, ?_, hresult⟩
    simp only [List.forall_mem_cons]
    exact ⟨.inl trivial, .inl trivial, .inr trivial, .inl trivial, .inl trivial,
      fun s hs => absurd hs List.not_mem_nil⟩

/-- a collection that is due stores a fresh matrix and goes on to the estimation -/
theorem collect_performs {result : Except Fault Unit}
    (h : (collect c).Performs st steps result st') :
    (∃ request m, st.slot = ⟨.acquiring, some request⟩ ∧ result = .ok () ∧
        st' = { st with slot := ⟨.estimating, some request⟩, store := ⟨m, true⟩ } ∧
        ⟨.shared (.putMatrix m), ()⟩ ∈ steps) ∨
      ((∀ request, st.slot ≠ ⟨.acquiring, some request⟩) ∧
        result = .error (.outOfOrder .acquiring st.slot.state) ∧ st' = st ∧
        steps = [⟨.shared .readSlot, st.slot⟩]) := by
  obtain ⟨rest, h, hsteps⟩ := performs_shared_bind_iff.mp h
  simp only [Section.run] at h hsteps
  rcases st.slot.requestIn_cases .acquiring with ⟨request, hslot, hdue⟩ | ⟨hslot, hdue⟩
  · rw [hdue] at h
    obtain ⟨received, m, st₁, rest', hreceive, h, hrest⟩ := performs_bind_iff.mp h
    have hst : st₁ = st := (Acquisition.receive_each c.timing request.arrival).station_eq
      (fun _ h => h.local) hreceive
    rw [hst] at h
    obtain ⟨_, h, hrest'⟩ := performs_shared_bind_iff.mp h
    have hproceed := performs_shared_iff.mp h
    simp only [Section.run, hslot, if_true] at hproceed
    obtain ⟨-, rfl, rfl⟩ := hproceed
    refine .inl ⟨request, m, hslot, rfl, rfl, ?_⟩
    rw [hsteps, hrest, hrest']
    simp
  · rw [hdue] at h
    obtain ⟨rfl, rfl, rfl⟩ := performs_pure_iff.mp h
    exact .inr ⟨hslot, rfl, rfl, hsteps⟩

/-! ### the estimation of the collected matrix -/

/-- what a cycle reports at its end -/
def outcome (request : Request) : Except Fault Estimate → Diagnostic
  | .ok e => .estimatePublished e
  | .error fault => .cycleRejected request.tag request.source fault

/-- the estimation of a matrix that may be missing -/
def estimate (c : Config) (request : Request) : Option Brightness → Program (Except Fault Estimate)
  | none => pure (.error .noMatrix)
  | some m => process c request m

def conclude (request : Request) (result : Except Fault Estimate) :
    Program (Except Fault Estimate) := do
  log (outcome request result)
  leave
  return result

/-- the part of `use` after its check -/
def serviceOf (c : Config) (request : Request) : Program (Except Fault Estimate) :=
  takeMatrix >>= fun taken => estimate c request taken >>= conclude request

theorem use_eq (c : Config) :
    use c = readSlot >>= fun slot =>
      match slot.requestIn .estimating with
      | .error fault => pure (.error fault)
      | .ok request => serviceOf c request := by
  unfold use
  congr 1
  funext slot
  cases slot.requestIn .estimating with
  | error fault => rfl
  | ok request =>
    show (takeMatrix >>= _) = (takeMatrix >>= _)
    congr 1
    funext taken
    have hend : ∀ p : Program (Except Fault Estimate),
        (p >>= fun result =>
          match result with
          | .ok e => log (.estimatePublished e) >>= fun _ => leave >>= fun _ => pure result
          | .error fault => log (.cycleRejected request.tag request.source fault) >>= fun _ =>
              leave >>= fun _ => pure result) = p >>= conclude request := by
      intro p
      congr 1
      funext result
      cases result <;> rfl
    cases taken with
    | none => exact hend _
    | some m => exact hend _

theorem estimate_each (c : Config) (request : Request) (taken : Option Brightness) :
    (estimate c request taken).Each Action.Estimates := by
  cases taken with
  | none => exact Each.pure _
  | some m => exact process_each c request m

theorem conclude_performs {given result : Except Fault Estimate}
    (h : (conclude request given).Performs st steps result st') :
    result = given ∧ st' = { st with slot := .idle } := by
  obtain ⟨_, h, -⟩ := performs_log_bind_iff.mp h
  obtain ⟨_, h, -⟩ := performs_shared_bind_iff.mp h
  obtain ⟨-, rfl, rfl⟩ := performs_pure_iff.mp h
  exact ⟨rfl, rfl⟩

/-- past its check a use leaves the robot idle and nothing to take; a fresh matrix is counted in
the health and judged, and without one the cycle fails -/
theorem serviceOf_performs {result : Except Fault Estimate}
    (h : (serviceOf c request).Performs st steps result st') :
    (st.store.fresh = true ∧ result = verdict c request.source st.store.matrix ∧
        st' = ⟨.idle, st.store.drop, (st.health.sweep st.store.matrix).1,
          st.mailbox.after result⟩) ∨
      (st.store.fresh = false ∧ result = .error .noMatrix ∧
        st' = { st with slot := .idle, store := st.store.drop }) := by
  obtain ⟨_, h, -⟩ := performs_shared_bind_iff.mp h
  obtain ⟨_, given, st₁, _, hestimate, h, -⟩ := performs_bind_iff.mp h
  obtain ⟨rfl, rfl⟩ := conclude_performs h
  simp only [Section.run, Brightness.Store.snd_take] at hestimate
  unfold Brightness.Store.take at hestimate
  cases hfresh : st.store.fresh with
  | true =>
    rw [hfresh] at hestimate
    obtain ⟨hresult, hst⟩ := process_performs hestimate
    refine .inl ⟨rfl, hresult, ?_⟩
    rw [hst]
  | false =>
    rw [hfresh] at hestimate
    obtain ⟨-, rfl, rfl⟩ := performs_pure_iff.mp hestimate
    exact .inr ⟨rfl, rfl, rfl⟩

theorem use_performs {result : Except Fault Estimate}
    (h : (use c).Performs st steps result st') :
    (∃ request rest, st.slot = ⟨.estimating, some request⟩ ∧
        (serviceOf c request).Performs st rest result st' ∧
        steps = ⟨.shared .readSlot, st.slot⟩ :: rest) ∨
      ((∀ request, st.slot ≠ ⟨.estimating, some request⟩) ∧
        result = .error (.outOfOrder .estimating st.slot.state) ∧ st' = st ∧
        steps = [⟨.shared .readSlot, st.slot⟩]) := by
  rw [use_eq] at h
  obtain ⟨rest, h, hsteps⟩ := performs_shared_bind_iff.mp h
  simp only [Section.run] at h hsteps
  rcases st.slot.requestIn_cases .estimating with ⟨request, hslot, hdue⟩ | ⟨hslot, hdue⟩
  · rw [hdue] at h
    exact .inl ⟨request, rest, hslot, h, hsteps⟩
  · rw [hdue] at h
    obtain ⟨rfl, rfl, rfl⟩ := performs_pure_iff.mp h
    exact .inr ⟨hslot, rfl, rfl, hsteps⟩

/-- a request that is served whole: one matrix is stored, counted in the health and judged -/
theorem serve_performs {result : Except Fault Estimate}
    (h : (serve c request).Performs st steps result st') :
    (st.slot.state = .idle ∧ ∃ m, ⟨.shared (.putMatrix m), ()⟩ ∈ steps ∧
        result = verdict c request.source m ∧
        st' = ⟨.idle, ⟨m, false⟩, (st.health.sweep m).1, st.mailbox.after result⟩) ∨
      (st.slot.state ≠ .idle ∧ result = .error (.busy st.slot.state) ∧ st' = st ∧
        steps = [⟨.shared (.enter .acquiring (some request)), .error (.busy st.slot.state)⟩]) := by
  obtain ⟨entered, accepted, st₁, rest, haccept, h, hsteps⟩ := performs_bind_iff.mp h
  rcases accept_performs haccept with ⟨idle, rfl, hst₁⟩ | ⟨busy, rfl, rfl, hentered⟩
  · obtain ⟨sampled, collected, st₂, used, hcollect, h, hrest⟩ := performs_bind_iff.mp h
    subst hst₁
    rcases collect_performs hcollect with ⟨request', m, hslot, rfl, hst₂, hput⟩ | ⟨hslot, -⟩
    · obtain rfl : request = request' := by
        have := (CycleSlot.mk.inj hslot).2
        exact Option.some.inj this
      subst hst₂
      rcases use_performs h with ⟨_, _, hslot, hservice, -⟩ | ⟨hslot, -⟩
      · obtain ⟨-, hrequest⟩ := CycleSlot.mk.inj hslot
        obtain rfl := Option.some.inj hrequest
        rcases serviceOf_performs hservice with ⟨-, hresult, rfl⟩ | ⟨hfresh, -⟩
        · refine .inl ⟨idle, m, ?_, hresult, rfl⟩
          rw [hsteps, hrest]
          exact List.mem_append_right _ (List.mem_append_left _ hput)
        · cases hfresh
      · exact absurd rfl (hslot request)
    · exact absurd rfl (hslot request)
  · obtain ⟨rfl, rfl, rfl⟩ := performs_pure_iff.mp h
    rw [List.append_nil] at hsteps
    exact .inr ⟨busy, rfl, rfl, hsteps.trans hentered⟩

end Controller

/-! ## the cells between two calls -/

namespace Station

/-- idle without a request, or holding the request of a cycle; a matrix can be taken exactly when
the cycle is to be estimated -/
def Settled (st : Station) : Prop :=
  (st.slot = .idle ∧ st.store.fresh = false) ∨
    (∃ request, st.slot = ⟨.acquiring, some request⟩ ∧ st.store.fresh = false) ∨
      ∃ request, st.slot = ⟨.estimating, some request⟩ ∧ st.store.fresh = true

variable {st st' : Station}

theorem Settled.idle_of_state (h : st.Settled) (idle : st.slot.state = .idle) :
    st.slot = .idle ∧ st.store.fresh = false := by
  rcases h with h | ⟨request, hslot, -⟩ | ⟨request, hslot, -⟩
  · exact h
  · rw [hslot] at idle
    cases idle
  · rw [hslot] at idle
    cases idle

theorem Settled.stale_of_acquiring {request : Request} (h : st.Settled)
    (hslot : st.slot = ⟨.acquiring, some request⟩) : st.store.fresh = false := by
  rcases h with ⟨-, hfresh⟩ | ⟨_, -, hfresh⟩ | ⟨_, hother, -⟩
  · exact hfresh
  · exact hfresh
  · rw [hslot] at hother
    cases hother

theorem Settled.fresh_of_estimating {request : Request} (h : st.Settled)
    (hslot : st.slot = ⟨.estimating, some request⟩) : st.store.fresh = true := by
  rcases h with ⟨hidle, -⟩ | ⟨_, hacquiring, -⟩ | ⟨_, -, hfresh⟩
  · rw [hslot] at hidle
    cases hidle
  · rw [hslot] at hacquiring
    cases hacquiring
  · exact hfresh

theorem Settled.request_of_estimating (h : st.Settled) (hstate : st.slot.state = .estimating) :
    ∃ request, st.slot = ⟨.estimating, some request⟩ := by
  rcases h with ⟨hidle, -⟩ | ⟨_, hacquiring, -⟩ | ⟨request, hestimating, -⟩
  · rw [hidle] at hstate
    cases hstate
  · rw [hacquiring] at hstate
    cases hstate
  · exact ⟨request, hestimating⟩

theorem Settled.congr (h : st.Settled) (hslot : st'.slot = st.slot)
    (hstore : st'.store = st.store) : st'.Settled := by
  unfold Settled
  rw [hslot, hstore]
  exact h

theorem Settled.performs {c : Config} {call : Controller.Call} {steps : List Step}
    {result : call.Result} (hst : st.Settled)
    (h : (call.program c).Performs st steps result st') : st'.Settled := by
  cases call with
  | broadcast =>
    rcases Controller.broadcast_performs h with ⟨-, -, rfl, -⟩ | ⟨idle, rfl, -⟩
    · exact hst
    · exact .inl ⟨rfl, (hst.idle_of_state idle).2⟩
  | accept request =>
    rcases Controller.accept_performs h with ⟨-, -, rfl⟩ | ⟨-, -, rfl, -⟩
    · exact .inr (.inl ⟨request, rfl, rfl⟩)
    · exact hst
  | collect =>
    rcases Controller.collect_performs h with ⟨request, m, -, -, rfl, -⟩ | ⟨-, -, rfl, -⟩
    · exact .inr (.inr ⟨request, rfl, rfl⟩)
    · exact hst
  | use =>
    rcases Controller.use_performs h with ⟨_, _, -, hservice, -⟩ | ⟨-, -, rfl, -⟩
    · rcases Controller.serviceOf_performs hservice with ⟨-, -, rfl⟩ | ⟨-, -, rfl⟩
      · exact .inl ⟨rfl, rfl⟩
      · exact .inl ⟨rfl, rfl⟩
    · exact hst
  | serve request =>
    rcases Controller.serve_performs h with ⟨-, m, -, -, rfl⟩ | ⟨-, -, rfl, -⟩
    · exact .inl ⟨rfl, rfl⟩
    · exact hst
  | takeEstimate =>
    obtain ⟨-, -, rfl⟩ := performs_shared_iff.mp h
    exact hst.congr rfl rfl
  | peekEstimate =>
    obtain ⟨-, -, rfl⟩ := performs_shared_iff.mp h
    exact hst
  | lastMatrix =>
    obtain ⟨-, -, rfl⟩ := performs_shared_iff.mp h
    exact hst
  | state =>
    obtain ⟨_, h, -⟩ := performs_shared_bind_iff.mp h
    obtain ⟨-, -, rfl⟩ := performs_pure_iff.mp h
    exact hst
  | sensorHealth =>
    obtain ⟨-, -, rfl⟩ := performs_shared_iff.mp h
    exact hst
  | config =>
    obtain ⟨-, -, rfl⟩ := performs_pure_iff.mp h
    exact hst

/-- between two calls the cells are settled -/
theorem Reachable.settled {c : Config} (h : Reachable c st) : st.Settled := by
  induction h with
  | new => exact .inl ⟨rfl, rfl⟩
  | call _ _ performs ih => exact ih.performs performs

end Station

end RangeBearing
