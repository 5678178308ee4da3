import RangeBearing.Proofs.Sampling

/-!
# What a call reports

Diagnostics are the only way in which a rejected cycle or a silent sensor becomes known.  Here: the
diagnostics of each call that takes any, in their order.

* `reports`                       the diagnostics of a run;
* `Controller.cycleReports`       those of a cycle: its matrix, the sensors at the limit, the
  refined range if there is one, and the end of the cycle;
* `Controller.use_reports`, `Controller.serve_reports`, `Controller.broadcast_reports`;
* `Controller.accept_reports`, `Controller.collect_reports`   nothing;
* `silenced`                      the sensors that are reported as silent.
-/

namespace RangeBearing

open Program

namespace Step

def report? : Step → Option Diagnostic
  | ⟨.log d, _⟩ => some d
  | _ => none

end Step

/-- the diagnostics of a run, in their order -/
def reports (steps : List Step) : List Diagnostic := steps.filterMap Step.report?

theorem reports_append (first second : List Step) :
    reports (first ++ second) = reports first ++ reports second := List.filterMap_append

theorem reports_nil : reports [] = [] := rfl

theorem reports_log_cons (d : Diagnostic) (steps : List Step) :
    reports (⟨.log d, ()⟩ :: steps) = d :: reports steps := rfl

theorem reports_shared_cons {s : Section} (answer : s.Answer) (steps : List Step) :
    reports (⟨.shared s, answer⟩ :: steps) = reports steps := rfl

namespace Action

def Unlogged : Action → Prop
  | log _ => False
  | _ => True

theorem unlogged_of_not_local {action : Action} (h : ¬ action.Local) : action.Unlogged := by
  obtain ⟨s, rfl⟩ := exists_shared h
  exact trivial

theorem Unlogged.report? {step : Step} (h : step.action.Unlogged) : step.report? = none := by
  obtain ⟨action, answer⟩ := step
  cases action with
  | log d => exact False.elim h
  | _ => rfl

end Action

theorem reports_of_unlogged {steps : List Step} (h : ∀ s ∈ steps, s.action.Unlogged) :
    reports steps = [] := by
  unfold reports
  rw [List.filterMap_eq_nil_iff]
  intro s hs
  exact (h s hs).report?

section
variable {st st' : Station} {steps : List Step}

/-- a list of diagnostics is reported as it stands -/
theorem reports_forM {l : List Diagnostic} {u : PUnit}
    (h : (l.forM log).Performs st steps u st') : reports steps = l := by
  induction l generalizing st steps with
  | nil =>
    obtain ⟨rfl, -, -⟩ := performs_pure_iff.mp h
    rfl
  | cons d l ih =>
    obtain ⟨rest, h, hsteps⟩ := performs_log_bind_iff.mp h
    rw [hsteps, reports_log_cons, ih h]

end

/-! ## acquisitions -/

namespace Acquisition

theorem Receiving.unlogged {action : Action} (h : Receiving action) : action.Unlogged := by
  cases action with
  | log d => exact h
  | _ => exact trivial

theorem Illuminating.unlogged {action : Action} (h : Illuminating action) : action.Unlogged := by
  cases action with
  | log d => exact h
  | _ => exact trivial

end Acquisition

namespace Controller

variable {c : Config} {st st' : Station} {steps : List Step} {request : Request}

/-! ## the estimation -/

def fitReports : Except Fault Estimation.Fit → List Diagnostic
  | .error _ => []
  | .ok fit => [.rangeRefined fit.refinement.candidates fit.refinement.weight]

/-- what a cycle reports about its matrix -/
def matrixReports (c : Config) (health : SensorHealth) (request : Request) (m : Brightness) :
    List Diagnostic :=
  .matrixTaken request.tag request.source m ::
    (Diagnostic.ofFaulted (health.sweep m).2.faulted ++ fitReports (Estimation.fit m c.weightFloor))

/-- what a cycle reports -/
def cycleReports (c : Config) (health : SensorHealth) (request : Request) (m : Brightness)
    (result : Except Fault Estimate) : List Diagnostic :=
  matrixReports c health request m ++ [outcome request result]

theorem process_reports {m : Brightness} {result : Except Fault Estimate}
    (h : (process c request m).Performs st steps result st') :
    reports steps = matrixReports c st.health request m := by
  obtain ⟨_, h, htaken⟩ := performs_log_bind_iff.mp h
  obtain ⟨_, h, hread⟩ := performs_shared_bind_iff.mp h
  unfold matrixReports
  -- the sweep stays one pair from here on, and the steps below are those of the fit alone
  generalize hswept : SensorHealth.sweep _ m = swept at h
  change st.health.sweep m = swept at hswept
  rw [hswept]
  obtain ⟨health, sweep⟩ := swept
  obtain ⟨logged, _, _, rest, hlogs, h, hrest⟩ := performs_bind_iff.mp h
  obtain ⟨_, h, hwritten⟩ := performs_shared_bind_iff.mp h
  have hfit : reports rest = fitReports (Estimation.fit m c.weightFloor) := by
    rw [hwritten, reports_shared_cons]
    cases hfit : Estimation.fit m c.weightFloor with
    | error fault =>
      rw [hfit] at h
      obtain ⟨hend, -, -⟩ := performs_pure_iff.mp h
      rw [hend, reports_nil, fitReports]
    | ok fit =>
      rw [hfit] at h
      obtain ⟨_, h, hrefined⟩ := performs_log_bind_iff.mp h
      rw [hrefined, reports_log_cons, fitReports]
      cases hscore : Assessment.score c m sweep.energy fit.pose with
      | error fault =>
        rw [hscore] at h
        obtain ⟨hend, -, -⟩ := performs_pure_iff.mp h
        rw [hend, reports_nil]
      | ok a =>
        rw [hscore] at h
        obtain ⟨_, h, hpublished⟩ := performs_shared_bind_iff.mp h
        obtain ⟨hend, -, -⟩ := performs_pure_iff.mp h
        rw [hpublished, hend, reports_shared_cons, reports_nil]
  rw [htaken, reports_log_cons, hread, reports_shared_cons, hrest, reports_append,
    reports_forM hlogs, hfit]

theorem conclude_reports {given result : Except Fault Estimate}
    (h : (conclude request given).Performs st steps result st') :
    reports steps = [outcome request given] := by
  obtain ⟨_, h, hlog⟩ := performs_log_bind_iff.mp h
  obtain ⟨_, h, hleave⟩ := performs_shared_bind_iff.mp h
  obtain ⟨hend, -, -⟩ := performs_pure_iff.mp h
  rw [hlog, hleave, hend]
  rfl

/-- past its check a use that finds a fresh matrix reports the cycle, and one that finds none its
end -/
theorem serviceOf_reports {result : Except Fault Estimate}
    (h : (serviceOf c request).Performs st steps result st') :
    reports steps =
      if st.store.fresh then cycleReports c st.health request st.store.matrix result
      else [outcome request result] := by
  obtain ⟨_, h, htake⟩ := performs_shared_bind_iff.mp h
  obtain ⟨estimated, given, _, _, hestimate, h, hrest⟩ := performs_bind_iff.mp h
  obtain ⟨hresult, -⟩ := conclude_performs h
  have hend := conclude_reports h
  rw [htake, reports_shared_cons, hrest, reports_append, hend, hresult]
  simp only [Section.run, Brightness.Store.snd_take] at hestimate
  unfold Brightness.Store.take at hestimate
  cases hfresh : st.store.fresh with
  | true =>
    rw [hfresh] at hestimate
    change (process c request st.store.matrix).Performs _ _ _ _ at hestimate
    rw [process_reports hestimate]
    rfl
  | false =>
    rw [hfresh] at hestimate
    obtain ⟨rfl, -, -⟩ := performs_pure_iff.mp hestimate
    rfl

/-! ## the calls -/

theorem broadcast_reports {result : Except Fault UInt16}
    (h : (broadcast c).Performs st steps result st') :
    reports steps =
      if st.slot.state = .idle then
        match result with
        | .ok tag => [.illuminated tag]
        | .error fault => [.broadcastAbandoned fault]
      else [] := by
  rcases broadcast_performs h with
    ⟨busy, rfl, -, rfl⟩ | ⟨idle, -, now, ⟨rfl, lit, hlit, rfl⟩ | ⟨rfl, rfl⟩⟩
  · rw [if_neg busy]
    rfl
  · have hdark : reports lit = [] := reports_of_unlogged fun s hs => (hlit s hs).unlogged
    rw [if_pos idle]
    show reports (lit ++ _) = _
    rw [reports_append, hdark]
    rfl
  · rw [if_pos idle]
    rfl

theorem accept_reports {result : Except Fault Unit}
    (h : (accept request).Performs st steps result st') : reports steps = [] := by
  refine reports_of_unlogged (Each.steps ?_ h)
  refine (Each.perform trivial).bind fun entered => ?_
  cases entered with
  | ok u => exact (Each.perform trivial).bind fun _ => Each.pure _
  | error fault => exact Each.pure _

theorem collect_reports {result : Except Fault Unit}
    (h : (collect c).Performs st steps result st') : reports steps = [] := by
  refine reports_of_unlogged (Each.steps ?_ h)
  refine (Each.perform trivial).bind fun slot => ?_
  cases slot.requestIn .acquiring with
  | error fault => exact Each.pure _
  | ok request =>
    have hreceive := Acquisition.receive_each c.timing request.arrival
    exact (hreceive.mono fun _ h => h.unlogged).bind fun _ => (Each.perform trivial).bind fun _ =>
      Each.perform trivial

theorem use_reports {result : Except Fault Estimate} (settled : st.Settled)
    (h : (use c).Performs st steps result st') :
    (∃ request, st.slot = ⟨.estimating, some request⟩ ∧
        reports steps = cycleReports c st.health request st.store.matrix result) ∨
      ((∀ request, st.slot ≠ ⟨.estimating, some request⟩) ∧ reports steps = []) := by
  rcases use_performs h with ⟨request, rest, hslot, hservice, rfl⟩ | ⟨hslot, -, -, rfl⟩
  · have hfresh := settled.fresh_of_estimating hslot
    refine .inl ⟨request, hslot, ?_⟩
    rw [reports_shared_cons, serviceOf_reports hservice, if_pos hfresh]
  · exact .inr ⟨hslot, rfl⟩

/-- a request that is served whole reports what its use reports -/
theorem serve_reports {result : Except Fault Estimate}
    (h : (serve c request).Performs st steps result st') :
    reports steps =
      if st.slot.state = .idle then cycleReports c st.health request st'.store.matrix result
      else [] := by
  obtain ⟨first, accepted, st₁, rest, haccept, h, hsteps⟩ := performs_bind_iff.mp h
  rw [hsteps, reports_append, accept_reports haccept, List.nil_append]
  rcases accept_performs haccept with ⟨idle, rfl, hst₁⟩ | ⟨busy, rfl, -, -⟩
  · obtain ⟨second, collected, st₂, third, hcollect, h, hrest⟩ := performs_bind_iff.mp h
    rw [hrest, reports_append, collect_reports hcollect, List.nil_append, if_pos idle]
    have hslot : st₁.slot = ⟨.acquiring, some request⟩ := by rw [hst₁]
    rcases collect_performs hcollect with ⟨request', m, hslot₁, rfl, hst₂, -⟩ | ⟨hslot₁, -⟩
    · obtain rfl : request = request' :=
        Option.some.inj (CycleSlot.mk.inj (hslot.symm.trans hslot₁)).2
      have hhealth : st₂.health = st.health := by rw [hst₂, hst₁]
      rcases use_performs h with ⟨request', used, hslot₂, hservice, hthird⟩ | ⟨hslot₂, -⟩
      · have hslot' : st₂.slot = ⟨.estimating, some request⟩ := by rw [hst₂]
        obtain rfl : request = request' :=
          Option.some.inj (CycleSlot.mk.inj (hslot'.symm.trans hslot₂)).2
        have hfresh : st₂.store.fresh = true := by rw [hst₂]
        rw [hthird, reports_shared_cons, serviceOf_reports hservice, if_pos hfresh, hhealth,
          use_matrix h]
      · exact absurd (by rw [hst₂]) (hslot₂ request)
    · exact absurd hslot (hslot₁ request)
  · obtain ⟨hend, -, -⟩ := performs_pure_iff.mp h
    rw [if_neg busy, hend]
    rfl

end Controller

/-! ## silent sensors -/

/-- the sensors that are reported as silent, in their order -/
def silenced (l : List Diagnostic) : List Direction :=
  l.filterMap fun
    | .sensorSilent s => some s
    | _ => none

theorem silenced_matrixTaken_cons (tag source : UInt16) (m : Brightness) (l : List Diagnostic) :
    silenced (.matrixTaken tag source m :: l) = silenced l := rfl

theorem silenced_append (first second : List Diagnostic) :
    silenced (first ++ second) = silenced first ++ silenced second := List.filterMap_append

theorem silenced_ofFaulted (mask : SensorMask) :
    silenced (Diagnostic.ofFaulted mask) = mask.toList := by
  unfold silenced Diagnostic.ofFaulted
  rw [List.filterMap_map]
  exact List.filterMap_some

theorem silenced_fitReports (fitted : Except Fault Estimation.Fit) :
    silenced (Controller.fitReports fitted) = [] := by
  cases fitted with
  | error fault => rfl
  | ok fit => rfl

theorem silenced_outcome (request : Request) (result : Except Fault Estimate) :
    silenced [Controller.outcome request result] = [] := by
  cases result with
  | error fault => rfl
  | ok e => rfl

/-- a cycle reports the sensors that have just reached the limit -/
theorem silenced_cycleReports (c : Config) (health : SensorHealth) (request : Request)
    (m : Brightness) (result : Except Fault Estimate) :
    silenced (Controller.cycleReports c health request m result) =
      (health.sweep m).2.faulted.toList := by
  unfold Controller.cycleReports Controller.matrixReports
  rw [silenced_append, silenced_outcome, List.append_nil, silenced_matrixTaken_cons,
    silenced_append, silenced_fitReports, List.append_nil, silenced_ofFaulted]

end RangeBearing
