import RangeBearing.Proofs.Cycles
import RangeBearing.Proofs.Reports

/-!
# The call that ends a cycle

A cycle ends in the call that uses its matrix, whether an estimate comes out of it or not.  That
call counts the matrix in the health and reports the sensors that have reached the limit; no other
call does either.

* `Controller.Answered.ended?`    what came out of the cycle that a call has ended;
* `Controller.Answered.accepted?`, `Controller.Answered.source?`   the request that a call has
  accepted, and the robot it is from;
* `Controller.Answered.Ends`, `Controller.Answered.Passes`   what the two kinds of calls do;
* `Controller.Answered.Moves.passes_or_ends`   every call is of one of them;
* `Controller.Answered.Moves.sampled`, `Controller.Answered.Moves.accepted`   where the matrix and
  the request of a cycle come from.
-/

namespace RangeBearing

open Controller Program

namespace Controller

/-! ## what the calls tell -/

/-- a call that is refused because a cycle is in another state -/
def refused : Except Fault Estimate → Bool
  | .error (.busy _) | .error (.outOfOrder _ _) => true
  | _ => false

theorem not_refused_of_estimation {result : Except Fault Estimate}
    (h : FailsOnly Fault.OfEstimation result) : refused result = false := by
  cases result with
  | ok e => rfl
  | error fault =>
    have hfault := h fault rfl
    cases fault with
    | busy state => exact False.elim hfault
    | outOfOrder expected actual => exact False.elim hfault
    | _ => rfl

namespace Answered

/-- what came out of the cycle that a call has ended -/
def ended? : Answered → Option (Except Fault Estimate)
  | ⟨.use, _, result⟩ | ⟨.serve _, _, result⟩ => if refused result then none else some result
  | _ => none

/-- the request that a call has accepted -/
def accepted? : Answered → Option Request
  | ⟨.accept request, _, .ok ()⟩ => some request
  | ⟨.serve request, _, result⟩ => if refused result then none else some request
  | _ => none

/-- the robot whose request a call has accepted -/
def source? : Answered → Option UInt16
  | ⟨.accept request, _, .ok ()⟩ => some request.source
  | ⟨.serve request, _, result⟩ => if refused result then none else some request.source
  | _ => none

theorem source?_eq (r : Answered) : r.source? = r.accepted?.map (·.source) := by
  obtain ⟨call, steps, result⟩ := r
  cases call with
  | accept request =>
    cases result with
    | ok u => rfl
    | error fault => rfl
  | serve request =>
    simp only [source?, accepted?]
    split
    · rfl
    · rfl
  | _ => rfl

end Answered

/-- the matrix of the rows that were read, or the one before it if none were -/
def sampledAfter (m : Brightness) : List (Row Int16) → Brightness
  | [] => m
  | rows => ⟨.ofFn fun e => rows.getD e.val (.replicate 6 0)⟩

theorem sampledAfter_rows (m m' : Brightness) : sampledAfter m m'.rows.toList = m' := by
  obtain ⟨rows⟩ := m'
  have hne : rows.toList ≠ [] := by
    intro h
    have hlength := congrArg List.length h
    rw [Vector.length_toList] at hlength
    cases hlength
  have hrows : sampledAfter m rows.toList =
      ⟨.ofFn fun e => rows.toList.getD e.val (.replicate 6 0)⟩ := by
    cases hlist : rows.toList with
    | nil => exact absurd hlist hne
    | cons row rest => rfl
  rw [hrows]
  congr 1
  apply Table.ext_entry
  intro e
  rw [Table.entry_ofFn, List.getD_eq_getElem?_getD,
    List.getElem?_eq_getElem (by simp), Option.getD_some]
  simp [Table.entry]

/-! ## what a call does to the matrices and to the health -/

section
variable {c : Config} {st st' : Station} {r : Answered}

/-- the store keeps the matrix that was sampled last -/
theorem Answered.Moves.sampled (h : r.Moves c st st') :
    st'.store.matrix = sampledAfter st.store.matrix (readings r.steps) := by
  obtain ⟨call, steps, result⟩ := r
  cases call with
  | broadcast =>
    rw [broadcast_readings h]
    rcases broadcast_performs h with ⟨-, -, rfl, -⟩ | ⟨-, rfl, -⟩
    · rfl
    · rfl
  | accept request =>
    rw [accept_readings h]
    rcases accept_performs h with ⟨-, -, rfl⟩ | ⟨-, -, rfl, -⟩
    · rfl
    · rfl
  | collect =>
    rcases collect_performs h with ⟨_, _, -, hresult, -⟩ | ⟨-, -, rfl, hsteps⟩
    · obtain rfl : result = .ok () := hresult
      rw [collect_readings h, sampledAfter_rows]
    · obtain rfl : steps = _ := hsteps
      rfl
  | use =>
    rw [use_readings h]
    exact use_matrix h
  | serve request =>
    rcases serve_performs h with ⟨idle, -⟩ | ⟨-, -, rfl, hsteps⟩
    · rw [serve_readings idle h, sampledAfter_rows]
    · obtain rfl : steps = _ := hsteps
      rfl
  | takeEstimate =>
    obtain ⟨rfl, -, rfl⟩ := performs_shared_iff.mp h
    rfl
  | _ =>
    obtain rfl := h.same trivial
    rw [readings_of_blind fun s hs => Action.blind_of_not_local (h.sections trivial s hs)]
    rfl

/-- the request of a cycle has been accepted by the call itself or before it -/
theorem Answered.Moves.accepted {request : Request} (h : r.Moves c st st')
    (hrequest : st'.slot.request = some request) :
    r.accepted? = some request ∨ r.accepted? = none ∧ st.slot.request = some request := by
  obtain ⟨call, steps, result⟩ := r
  cases call with
  | broadcast =>
    rcases broadcast_performs h with ⟨-, -, rfl, -⟩ | ⟨-, rfl, -⟩
    · exact .inr ⟨rfl, hrequest⟩
    · cases hrequest
  | accept entered =>
    rcases accept_performs h with ⟨-, hresult, rfl⟩ | ⟨-, hresult, rfl, -⟩
    · obtain rfl : result = .ok () := hresult
      obtain rfl : entered = request := Option.some.inj hrequest
      exact .inl rfl
    · obtain rfl : result = _ := hresult
      exact .inr ⟨rfl, hrequest⟩
  | collect =>
    rcases collect_performs h with ⟨_, _, hslot, -, rfl, -⟩ | ⟨-, -, rfl, -⟩
    · refine .inr ⟨rfl, ?_⟩
      rw [hslot]
      exact hrequest
    · exact .inr ⟨rfl, hrequest⟩
  | use =>
    rcases use_performs h with ⟨_, _, -, hservice, -⟩ | ⟨-, -, rfl, -⟩
    · rcases serviceOf_performs hservice with ⟨-, -, rfl⟩ | ⟨-, -, rfl⟩
      · cases hrequest
      · cases hrequest
    · exact .inr ⟨rfl, hrequest⟩
  | serve served =>
    rcases serve_performs h with ⟨-, _, -, -, rfl⟩ | ⟨-, hresult, rfl, -⟩
    · cases hrequest
    · obtain rfl : result = _ := hresult
      exact .inr ⟨rfl, hrequest⟩
  | takeEstimate =>
    obtain ⟨-, -, rfl⟩ := performs_shared_iff.mp h
    exact .inr ⟨rfl, hrequest⟩
  | _ =>
    obtain rfl := h.same trivial
    exact .inr ⟨rfl, hrequest⟩

theorem Answered.Moves.source {request : Request} (h : r.Moves c st st')
    (hrequest : st'.slot.request = some request) :
    r.source? = some request.source ∨ r.source? = none ∧ st.slot.request = some request := by
  rw [r.source?_eq]
  rcases h.accepted hrequest with haccepted | ⟨hnone, hbefore⟩
  · rw [haccepted]
    exact .inl rfl
  · rw [hnone]
    exact .inr ⟨rfl, hbefore⟩

/-- a call that ends a cycle counts its matrix -/
structure Answered.Ends (r : Answered) (c : Config) (st st' : Station) (request : Request)
    (result : Except Fault Estimate) : Prop where
  source : r.source? = some request.source ∨ r.source? = none ∧ st.slot.request = some request
  ended : r.ended? = some result
  judged : result = Estimate.ofMatrix c request.source st'.store.matrix
  health : st'.health = (st.health.sweep st'.store.matrix).1
  reported : silenced (reports r.steps) =
    (st.health.sweep st'.store.matrix).2.faulted.toList

/-- any other call leaves the health alone and reports no sensor -/
structure Answered.Passes (r : Answered) (st st' : Station) : Prop where
  ended : r.ended? = none
  health : st'.health = st.health
  reported : silenced (reports r.steps) = []

theorem not_refused_of_eq {source : UInt16} {m : Brightness} {result : Except Fault Estimate}
    (h : result = Estimate.ofMatrix c source m) : ¬ refused result = true := by
  rw [h, ← verdict_eq, not_refused_of_estimation (verdict_fails c source m)]
  exact Bool.false_ne_true

theorem Answered.Moves.passes_or_ends (h : r.Moves c st st') (settled : st.Settled) :
    r.Passes st st' ∨ ∃ request result, r.Ends c st st' request result := by
  obtain ⟨call, steps, result⟩ := r
  cases call with
  | broadcast =>
    have hreports := broadcast_reports h
    have hreported : silenced (reports steps) = [] := by
      rw [hreports]
      split
      · cases result with
        | ok tag => rfl
        | error fault => rfl
      · rfl
    rcases broadcast_performs h with ⟨-, -, rfl, -⟩ | ⟨-, rfl, -⟩
    · exact .inl ⟨rfl, rfl, hreported⟩
    · exact .inl ⟨rfl, rfl, hreported⟩
  | accept request =>
    have hreported : silenced (reports steps) = [] := by
      rw [accept_reports h]
      rfl
    rcases accept_performs h with ⟨-, -, rfl⟩ | ⟨-, -, rfl, -⟩
    · exact .inl ⟨rfl, rfl, hreported⟩
    · exact .inl ⟨rfl, rfl, hreported⟩
  | collect =>
    have hreported : silenced (reports steps) = [] := by
      rw [collect_reports h]
      rfl
    rcases collect_performs h with ⟨_, _, -, -, rfl, -⟩ | ⟨-, -, rfl, -⟩
    · exact .inl ⟨rfl, rfl, hreported⟩
    · exact .inl ⟨rfl, rfl, hreported⟩
  | use =>
    rcases use_performs h with ⟨request, _, hslot, hservice, -⟩ | ⟨hslot, hresult, rfl, hsteps⟩
    · have hfresh := settled.fresh_of_estimating hslot
      rcases serviceOf_performs hservice with ⟨-, hresult, rfl⟩ | ⟨hstale, -⟩
      · rcases use_reports settled h with ⟨request', hslot', hreports⟩ | ⟨hslot', -⟩
        · rw [verdict_eq] at hresult
          have hrequest : st.slot.request = some request := by rw [hslot]
          refine .inr ⟨request, result, .inr ⟨rfl, hrequest⟩, ?_, hresult, rfl, ?_⟩
          · exact if_neg (not_refused_of_eq hresult)
          · exact (congrArg silenced hreports).trans (silenced_cycleReports _ _ _ _ _)
        · exact absurd hslot (hslot' request)
      · rw [hfresh] at hstale
        cases hstale
    · obtain rfl : result = _ := hresult
      obtain rfl : steps = _ := hsteps
      exact .inl ⟨rfl, rfl, rfl⟩
  | serve request =>
    have hreports := serve_reports h
    rcases serve_performs h with ⟨idle, m, -, hresult, rfl⟩ | ⟨-, hresult, rfl, hsteps⟩
    · rw [if_pos idle] at hreports
      rw [verdict_eq] at hresult
      have hjudged := not_refused_of_eq hresult
      refine .inr ⟨request, result, .inl (if_neg hjudged), if_neg hjudged, hresult, rfl, ?_⟩
      exact (congrArg silenced hreports).trans (silenced_cycleReports _ _ _ _ _)
    · obtain rfl : result = _ := hresult
      obtain rfl : steps = _ := hsteps
      exact .inl ⟨rfl, rfl, rfl⟩
  | takeEstimate =>
    obtain ⟨rfl, -, rfl⟩ := performs_shared_iff.mp h
    exact .inl ⟨rfl, rfl, rfl⟩
  | _ =>
    obtain rfl := h.same trivial
    refine .inl ⟨rfl, rfl, ?_⟩
    rw [reports_of_unlogged fun s hs => Action.unlogged_of_not_local (h.sections trivial s hs)]
    rfl

end

end Controller

end RangeBearing
