import RangeBearing.Proofs.SilentSensors

/-!
# The log tells every cycle

A rejected cycle and a silent sensor are seen in the log or not at all.  Over every history of
calls the lines of a call are a matter of its result and of the calls before it: a call that ends
a cycle writes its matrix, the sensors at the limit, the refined range if there is one and how the
cycle ended, in this order; an own turn writes one line, and which one is a matter of whether its
request was sent; everything else writes nothing.

* `Line`, `lines`                 what a run writes;
* `Estimation.refinement?`        the refined range of a matrix, if the passes get that far;
* `Controller.cycleLines`         what a call writes that ends a cycle;
* `Controller.LogsExactly`        what holds of the lines after every history;
* `Station.History.logsExactly`.
-/

namespace RangeBearing

open Controller Program

/-- a line of the log -/
structure Line where
  level : Level
  text : String
  deriving DecidableEq

namespace Diagnostic

def line (d : Diagnostic) : Line := ⟨d.level, d.text⟩

end Diagnostic

/-- the lines of a run, in their order -/
def lines (steps : List Step) : List Line := (reports steps).map Diagnostic.line

theorem lines_of_reports {steps : List Step} {l : List Diagnostic} (h : reports steps = l) :
    lines steps = l.map Diagnostic.line := by
  rw [← h]
  rfl

/-- the call came out of its turn -/
def Fault.OutOfTurn : Fault → Prop
  | busy _ | outOfOrder _ _ => True
  | _ => False

namespace Estimation

/-- the refined range of a matrix, if the passes get that far and it has one -/
def refinement? (m : Brightness) (weightFloor : Binary32) : Option Refinement :=
  ((seedRange m (bearing m) (heading m)).bind fun range =>
    refine m range (bearing m) (heading m) weightFloor).toOption

end Estimation

namespace Controller

/-! ## the lines of a cycle -/

/-- the sensors that the newest matrix has brought to the limit, in their order -/
def Tally.atLimit (t : Tally) : List Direction :=
  Direction.all.filter fun s => 0 < silentRun t.ended s ∧ silentRun t.ended s % 15 = 0

/-- how a cycle ended -/
def endLine (request : Request) : Except Fault Estimate → Line
  | .ok e => ⟨.debug, "rnb estimate published: " ++ e.text⟩
  | .error fault => ⟨.info, "rnb cycle " ++ toString request.tag.toNat ++ " from "
      ++ toString request.source.toNat ++ " rejected: " ++ fault.message⟩

/-- what a call writes that ends a cycle, with the tally after it -/
def cycleLines (c : Config) (request : Request) (t : Tally) (result : Except Fault Estimate) :
    List Line :=
  [⟨.debug, "rnb matrix tag " ++ toString request.tag.toNat ++ " from "
      ++ toString request.source.toNat ++ ": " ++ t.sampled.text⟩] ++
    t.atLimit.map (fun s =>
      ⟨.warn, "sensor " ++ toString s.val ++ " silent for 15 consecutive cycles"⟩) ++
    (Estimation.refinement? t.sampled c.weightFloor).toList.map (fun r =>
      ⟨.debug, "refined range from " ++ toString r.candidates
        ++ " candidates, neighbourhood weight " ++ r.weight.text⟩) ++
    [endLine request result]

theorem line_outcome (request : Request) (result : Except Fault Estimate) :
    (outcome request result).line = endLine request result := by
  cases result with
  | ok e => rfl
  | error fault => rfl

theorem line_sensorSilent (s : Direction) :
    (Diagnostic.sensorSilent s).line =
      ⟨.warn, "sensor " ++ toString s.val ++ " silent for 15 consecutive cycles"⟩ := by
  have hlimit : " silent for " ++ (toString silenceLimit.toNat ++ " consecutive cycles") =
      " silent for 15 consecutive cycles" := by decide
  show (⟨.warn, "sensor " ++ toString s.val ++ " silent for " ++ toString silenceLimit.toNat
    ++ " consecutive cycles"⟩ : Line) = _
  rw [String.append_assoc, String.append_assoc, hlimit]

/-- of the passes of an estimation only the last one reports -/
theorem fitReports_of_passes (seed : Except Fault Binary32)
    (refined : Binary32 → Except Fault Estimation.Refinement)
    (pose : Binary32 → Estimation.Refinement → Pose) :
    fitReports (seed >>= fun range => refined range >>= fun r => pure ⟨pose range r, r⟩) =
      (seed.bind refined).toOption.toList.map fun r => .rangeRefined r.candidates r.weight := by
  cases seed with
  | error fault => rfl
  | ok range =>
    show fitReports (refined range >>= fun r => pure ⟨pose range r, r⟩) =
      (refined range).toOption.toList.map _
    cases refined range with
    | error fault => rfl
    | ok r => rfl

theorem fitReports_eq (m : Brightness) (weightFloor : Binary32) :
    fitReports (Estimation.fit m weightFloor) =
      (Estimation.refinement? m weightFloor).toList.map
        fun r => .rangeRefined r.candidates r.weight :=
  fitReports_of_passes _ _ _

section
variable {c : Config} {st st' : Station} {result : Except Fault Estimate}

/-- the sensors that a sweep finds at the limit are those that the tally finds there -/
theorem Tally.Matches.atLimit {t : Tally} (ht : t.Matches st) (source : UInt16) (m : Brightness) :
    (st.health.sweep m).2.faulted.toList = (Tally.mk source m (t.ended ++ [m])).atLimit := by
  unfold SensorMask.toList Tally.atLimit
  refine List.filter_congr fun s _ => ?_
  rw [SensorHealth.sweep_faulted ht.sound, ht.counts s, Bool.eq_iff_iff, Bool.and_eq_true,
    decide_eq_true_iff, decide_eq_true_iff]
  exact silent_limit_iff t.ended m s

theorem Tally.Matches.lines_cycleReports {t : Tally} (ht : t.Matches st) (request : Request)
    (source : UInt16) (m : Brightness) (result : Except Fault Estimate) :
    (cycleReports c st.health request m result).map Diagnostic.line =
      cycleLines c request ⟨source, m, t.ended ++ [m]⟩ result := by
  unfold cycleReports matrixReports cycleLines Diagnostic.ofFaulted
  rw [fitReports_eq, ht.atLimit source m]
  simp only [List.map_append, List.map_cons, List.map_nil, List.map_map, line_outcome,
    Function.comp_def, line_sensorSilent, List.cons_append, List.nil_append]
  rfl

theorem not_refused_of_use {steps : List Step} (settled : st.Settled)
    (estimating : st.slot.state = .estimating) (h : (use c).Performs st steps result st') :
    ¬ refused result = true := by
  rcases use_performs h with ⟨request, _, hslot, hservice, -⟩ | ⟨hslot, -⟩
  · rcases serviceOf_performs hservice with ⟨-, hresult, -⟩ | ⟨hstale, -⟩
    · rw [verdict_eq] at hresult
      exact not_refused_of_eq hresult
    · -- between two calls a robot that is to estimate has a fresh matrix
      rw [settled.fresh_of_estimating hslot] at hstale
      cases hstale
  · obtain ⟨request, hestimating⟩ := settled.request_of_estimating estimating
    exact absurd hestimating (hslot request)

theorem not_refused_of_serve {request : Request} {steps : List Step}
    (idle : st.slot.state = .idle) (h : (serve c request).Performs st steps result st') :
    ¬ refused result = true := by
  rcases serve_performs h with ⟨-, m, -, hresult, -⟩ | ⟨busy, -⟩
  · rw [verdict_eq] at hresult
    exact not_refused_of_eq hresult
  · exact absurd idle busy

theorem refused_of_outOfTurn {fault : Fault} (h : fault.OutOfTurn) :
    refused (.error fault) = true := by
  cases fault with
  | busy state => rfl
  | outOfOrder expected actual => rfl
  | _ => exact False.elim h

/-- a call that neither runs the own turn nor ends a cycle -/
def Call.Quiet : Call → Prop
  | broadcast | use | serve _ => False
  | _ => True

theorem Call.Quiet.reports {call : Call} {steps : List Step} {result : call.Result}
    (quiet : call.Quiet) (h : (call.program c).Performs st steps result st') :
    reports steps = [] := by
  have hlooks (looks : call.Looks) : RangeBearing.reports steps = [] :=
    reports_of_unlogged fun s hs =>
      Action.unlogged_of_not_local ((looks.sections (c := c)).steps h s hs)
  cases call with
  | accept request => exact accept_reports h
  | collect => exact collect_reports h
  | takeEstimate =>
    obtain ⟨rfl, -, -⟩ := performs_shared_iff.mp h
    rfl
  | broadcast => exact False.elim quiet
  | use => exact False.elim quiet
  | serve request => exact False.elim quiet
  | _ => exact hlooks trivial

theorem reports_of_outOfTurn {call : Call} {steps : List Step} {result : call.Result}
    {fault : Fault} (settled : st.Settled) (h : (call.program c).Performs st steps result st')
    (hfault : call.fault? result = some fault) (outOfTurn : fault.OutOfTurn) :
    reports steps = [] := by
  cases call with
  | broadcast =>
    rcases broadcast_performs h with ⟨-, -, -, rfl⟩ | ⟨-, -, _, ⟨rfl, -⟩ | ⟨rfl, -⟩⟩
    · rfl
    · cases hfault
    · cases hfault
      exact False.elim outOfTurn
  | use =>
    obtain rfl : result = .error fault := by
      cases result with
      | ok e => cases hfault
      | error f => cases hfault; rfl
    rcases use_reports settled h with ⟨request, hslot, -⟩ | ⟨-, hreports⟩
    · exact absurd (refused_of_outOfTurn outOfTurn)
        (not_refused_of_use settled (by rw [hslot]) h)
    · exact hreports
  | serve request =>
    obtain rfl : result = .error fault := by
      cases result with
      | ok e => cases hfault
      | error f => cases hfault; rfl
    by_cases idle : st.slot.state = .idle
    · exact absurd (refused_of_outOfTurn outOfTurn) (not_refused_of_serve idle h)
    · rw [serve_reports h, if_neg idle]
  | accept request => exact accept_reports h
  | collect => exact collect_reports h
  | _ => cases hfault

end

/-! ## over a history -/

/-- the requests that calls have accepted, in their order -/
def accepted (past : List Answered) : List Request := past.filterMap Answered.accepted?

theorem accepted_concat (past : List Answered) (r : Answered) :
    accepted (past ++ [r]) = accepted past ++ r.accepted?.toList := by
  unfold accepted
  rw [List.filterMap_append]
  cases h : r.accepted? with
  | none => simp [h]
  | some request => simp [h]

/-- the lines of every call after some calls -/
structure LogsExactly (c : Config) (past : List Answered) (st : Station) : Prop where
  /-- taking up a request, sampling and looking write nothing -/
  quiet : ∀ {call : Call} {steps result st'}, (call.program c).Performs st steps result st' →
    call.Quiet → lines steps = []
  /-- no call out of its turn writes anything -/
  refused : ∀ {call : Call} {steps result st' fault},
    (call.program c).Performs st steps result st' → call.fault? result = some fault →
    fault.OutOfTurn → lines steps = []
  /-- an own turn asks the transceiver to send a request -/
  asks : ∀ {steps result st'}, (broadcast c).Performs st steps result st' →
    st.slot.state = .idle →
    ∃ tag sent, ⟨.radio (.broadcast Acquisition.requestCode tag), sent⟩ ∈ steps
  /-- and whether it was sent decides how the turn ends and which one line it writes -/
  own : ∀ {steps result st' code tag sent}, (broadcast c).Performs st steps result st' →
    st.slot.state = .idle → ⟨.radio (.broadcast code tag), sent⟩ ∈ steps →
    if sent then
      result = .ok tag ∧ lines steps = [⟨.debug, "rnb blast done, tag " ++ toString tag.toNat⟩]
    else
      result = .error .refused ∧
        lines steps = [⟨.warn, "rnb broadcast abandoned: " ++ Fault.message .refused⟩]
  /-- a use in its turn writes the lines of a cycle, for the request that was accepted last -/
  used : ∀ {steps result st'}, (use c).Performs st steps result st' →
    st.slot.state = .estimating →
    ∃ request, (accepted past).getLast? = some request ∧
      lines steps = cycleLines c request (Tally.of (past ++ [⟨.use, steps, result⟩])) result
  /-- and so does a request that is served whole -/
  served : ∀ {request steps result st'}, (serve c request).Performs st steps result st' →
    st.slot.state = .idle →
    lines steps =
      cycleLines c request (Tally.of (past ++ [⟨.serve request, steps, result⟩])) result

end Controller

namespace Station.History

variable {c : Config} {past : List Answered} {st : Station}

/-- the request of a cycle is the one that was accepted last -/
theorem accepted_last (h : History c past st) {request : Request}
    (hrequest : st.slot.request = some request) : (accepted past).getLast? = some request := by
  induction h generalizing request with
  | new => cases hrequest
  | snoc before moves ih =>
    rw [accepted_concat]
    rcases moves.accepted hrequest with haccepted | ⟨hnone, hbefore⟩
    · rw [haccepted]
      exact List.getLast?_concat
    · -- a request that stays in the slot has been accepted earlier
      rw [hnone]
      exact (congrArg List.getLast? (List.append_nil _)).trans (ih hbefore)

theorem lines_of_cycleReports (h : History c past st) {r : Answered} {st' : Station}
    {result : Except Fault Estimate} {request : Request} (moves : r.Moves c st st')
    (hended : r.ended? = some result)
    (hreports : reports r.steps = cycleReports c st.health request st'.store.matrix result) :
    lines r.steps = cycleLines c request (Tally.of (past ++ [r])) result := by
  rcases moves.passes_or_ends h.settled with hpasses | ⟨_, _, hends⟩
  · rw [hpasses.ended] at hended
    cases hended
  · rw [lines_of_reports hreports, Tally.of_concat, hends.tally moves h.tally]
    exact h.tally.lines_cycleReports request _ _ result

theorem logsExactly (h : History c past st) : LogsExactly c past st where
  quiet performs quiet := lines_of_reports (quiet.reports performs)
  refused performs failed outOfTurn :=
    lines_of_reports (reports_of_outOfTurn h.settled performs failed outOfTurn)
  asks performs idle := by
    obtain ⟨tag, sent, hasked, -⟩ := broadcast_answered idle performs
    exact ⟨tag, sent, hasked⟩
  own {_ _ _ _ _ sent} performs idle asked := by
    have hreports := broadcast_reports performs
    rw [if_pos idle] at hreports
    obtain ⟨_, _, -, honly, rfl⟩ := broadcast_answered idle performs
    rcases honly _ asked with hother | hsame
    · exact False.elim hother
    · cases hsame
      cases sent with
      | true => exact ⟨rfl, lines_of_reports hreports⟩
      | false => exact ⟨rfl, lines_of_reports hreports⟩
  used {steps result st'} performs estimating := by
    have hended : Answered.ended? ⟨.use, steps, result⟩ = some result :=
      if_neg (not_refused_of_use h.settled estimating performs)
    rcases use_reports h.settled performs with ⟨request, hslot, hreports⟩ | ⟨hslot, -⟩
    · rw [← use_matrix performs] at hreports
      refine ⟨request, h.accepted_last (by rw [hslot]), ?_⟩
      exact h.lines_of_cycleReports (r := ⟨.use, steps, result⟩) performs hended hreports
    · obtain ⟨request, hestimating⟩ := h.settled.request_of_estimating estimating
      exact absurd hestimating (hslot request)
  served {request steps result st'} performs idle := by
    have hended : Answered.ended? ⟨.serve request, steps, result⟩ = some result :=
      if_neg (not_refused_of_serve idle performs)
    have hreports := serve_reports performs
    rw [if_pos idle] at hreports
    exact h.lines_of_cycleReports (r := ⟨.serve request, steps, result⟩) performs hended hreports

/-- for example, the fifteenth dark cycle in a row writes its matrix, the six sensors and, as
nothing can be refined, its rejection -/
theorem logsExactly_of_darkness : ∃ past st steps st',
    History .default past st ∧ LogsExactly .default past st ∧
      (serve .default ⟨7, 1, 5⟩).Performs st steps (.error (.model .belowAmbientFloor)) st' ∧
      (lines steps).map (·.level) =
        [.debug, .warn, .warn, .warn, .warn, .warn, .warn, .info] := by
  obtain ⟨past, st, history, idle, hended⟩ := darkness .default 14
  obtain ⟨steps, result, st', serves, hrows⟩ :=
    serve_reads .default ⟨7, 1, 5⟩ idle Brightness.dark.rows
  have hdark : Estimate.ofMatrix .default 7 .dark = .error (.model .belowAmbientFloor) := by
    decide +kernel
  have hrange : Estimation.refinement? .dark Config.default.weightFloor = none := by
    decide +kernel
  have moves : Answered.Moves ⟨.serve ⟨7, 1, 5⟩, steps, result⟩ .default st st' := serves
  have hsampled : ∀ m, sampledAfter m (readings steps) = .dark := fun m => by
    rw [hrows]
    exact sampledAfter_rows m .dark
  have logs := history.logsExactly
  rcases serve_performs serves with ⟨-, m, -, hresult, hst'⟩ | ⟨busy, -⟩
  · obtain rfl : m = .dark := by
      have hmatrix := moves.sampled
      rw [hst'] at hmatrix
      exact hmatrix.trans (hsampled _)
    rw [verdict_eq, hdark] at hresult
    subst hresult
    refine ⟨past, st, steps, st', history, logs, serves, ?_⟩
    have htally : Tally.of (past ++
        [⟨.serve ⟨7, 1, 5⟩, steps, .error (.model .belowAmbientFloor)⟩]) =
          ⟨7, .dark, List.replicate 15 .dark⟩ := by
      rw [Tally.of_concat]
      unfold Tally.after
      rw [hsampled, hended]
      rfl
    rw [logs.served serves idle, htally]
    unfold cycleLines
    rw [hrange]
    decide
  · exact absurd idle busy

end Station.History

end RangeBearing
