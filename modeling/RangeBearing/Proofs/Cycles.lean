import Mathlib.Control.Monad.Basic
import RangeBearing.Proofs.Histories
import RangeBearing.Proofs.Sampling

/-!
# A cycle remembers nothing

What a cycle gives is a matter of its six rows and of the robot that sent the request.  The tag,
the clock, the waits and whatever earlier cycles have left in the shared cells do not come into it.

* `Estimate.ofMatrix`         from a matrix to what is published, or to the first fault on the way;
* `Controller.Cycle`          a request accepted, six rows read for it, and their matrix used;
* `Controller.Cycle.result`   such a cycle gives `Estimate.ofMatrix` of its rows;
* `Controller.cycle_forgets`  two cycles with the same rows give the same.
-/

namespace RangeBearing

open Program

/-- the pose behind a matrix, scored against the matrix, in the published units -/
def Estimate.ofMatrix (c : Config) (source : UInt16) (m : Brightness) : Except Fault Estimate := do
  let pose ← Estimation.pose m c.weightFloor
  let a ← Assessment.score c m m.total pose
  return .ofPose source a.rangeCm pose.bearing pose.heading a.confidence

namespace Controller

theorem verdict_eq (c : Config) (source : UInt16) (m : Brightness) :
    verdict c source m = Estimate.ofMatrix c source m := by
  unfold Estimate.ofMatrix Estimation.pose
  cases hfit : Estimation.fit m c.weightFloor with
  | error fault => exact verdict_of_fit_error hfit
  | ok fit =>
    rw [verdict_of_fit_ok hfit]
    show (Assessment.score c m m.total fit.pose).map _ =
      Assessment.score c m m.total fit.pose >>= fun a => pure _
    cases Assessment.score c m m.total fit.pose with
    | error fault => rfl
    | ok a => rfl

/-- a request accepted, six rows read for it, and their matrix used -/
inductive Cycle (c : Config) (request : Request) (rows : Table (Row Int16)) (st : Station)
    (result : Except Fault Estimate) (st' : Station) : Prop where
  | intro {first second third : List Step} {accepted collected : Except Fault Unit}
      {st₁ st₂ : Station} (accepts : (accept request).Performs st first accepted st₁)
      (collects : (collect c).Performs st₁ second collected st₂)
      (reads : readings second = rows.toList)
      (uses : (use c).Performs st₂ third result st')

section
variable {c : Config} {request : Request} {rows : Table (Row Int16)} {st st' : Station}
  {result : Except Fault Estimate}

/-- on an idle station a cycle counts the matrix of its rows in the health, and gives what that
matrix gives -/
theorem Cycle.performs (h : Cycle c request rows st result st') (idle : st.slot.state = .idle) :
    result = Estimate.ofMatrix c request.source ⟨rows⟩ ∧
      st' = ⟨.idle, ⟨⟨rows⟩, false⟩, (st.health.sweep ⟨rows⟩).1, st.mailbox.after result⟩ := by
  obtain ⟨accepts, collects, reads, uses⟩ := h
  rcases accept_performs accepts with ⟨-, rfl, rfl⟩ | ⟨busy, -⟩
  · rcases collect_performs collects with ⟨request', m, hslot, rfl, rfl, -⟩ | ⟨hslot, -⟩
    · obtain rfl : request = request' := Option.some.inj (CycleSlot.mk.inj hslot).2
      obtain rfl : m = ⟨rows⟩ := by
        have hrows : rows.toList = m.rows.toList := reads.symm.trans (collect_readings collects)
        rw [Vector.toList_inj.mp hrows]
      rcases use_performs uses with ⟨request', _, hslot', hservice, -⟩ | ⟨hslot', -⟩
      · obtain rfl : request = request' := Option.some.inj (CycleSlot.mk.inj hslot').2
        rcases serviceOf_performs hservice with ⟨-, hresult, hst'⟩ | ⟨hstale, -⟩
        · exact ⟨hresult.trans (verdict_eq c request.source ⟨rows⟩), hst'⟩
        · cases hstale
      · exact absurd rfl (hslot' request)
    · exact absurd rfl (hslot request)
  · exact absurd idle busy

theorem Cycle.completes (c : Config) (request : Request) (rows : Table (Row Int16))
    (idle : st.slot.state = .idle) : ∃ result st', Cycle c request rows st result st' := by
  obtain ⟨_, _, _, _, _, result, st', accepts, collects, reads, uses⟩ :=
    calls_read c request idle rows
  exact ⟨result, st', ⟨accepts, collects, reads, uses⟩⟩

theorem Cycle.history {past : List Answered} (h : Cycle c request rows st result st')
    (before : Station.History c past st) :
    ∃ first second third, Station.History c (past ++ [first] ++ [second] ++ [third]) st' ∧
      third.estimate? = result.toOption := by
  obtain ⟨accepts, collects, reads, uses⟩ := h
  have hthird := ((before.call (.accept request) accepts).call .collect collects).call .use uses
  refine ⟨_, _, _, hthird, ?_⟩
  cases result <;> rfl

end

/-! ## cycles with the same rows -/

/-- the readings of a robot that stands 10 cm away in the direction of our sensor `0` and faces
us -/
def headOn : Table (Row Int16) :=
  #v[#v[382, 12, 0, 0, 0, 12], #v[24, 0, 0, 0, 0, 5], #v[0, 0, 0, 0, 0, 0],
    #v[0, 0, 0, 0, 0, 0], #v[0, 0, 0, 0, 0, 0], #v[24, 5, 0, 0, 0, 0]]

theorem ofMatrix_headOn :
    Estimate.ofMatrix .default 7 ⟨headOn⟩ = .ok ⟨7, 100, -30, 180, 255⟩ := by
  decide +kernel

/-- on any two idle robots, whatever calls have led there, cycles with the same rows for requests
of the same robot can be completed, and they give the same, which is what the rows give -/
theorem cycle_forgets (c : Config) (source : UInt16) (rows : Table (Row Int16))
    {st₁ st₂ : Station} (idle₁ : st₁.slot.state = .idle) (idle₂ : st₂.slot.state = .idle)
    (tag₁ tag₂ : UInt16) (arrival₁ arrival₂ : UInt32) :
    (∃ result st', Cycle c ⟨source, tag₁, arrival₁⟩ rows st₁ result st') ∧
      (∃ result st', Cycle c ⟨source, tag₂, arrival₂⟩ rows st₂ result st') ∧
      ∀ {result₁ result₂ st₁' st₂'}, Cycle c ⟨source, tag₁, arrival₁⟩ rows st₁ result₁ st₁' →
        Cycle c ⟨source, tag₂, arrival₂⟩ rows st₂ result₂ st₂' →
        result₁ = result₂ ∧ result₁ = Estimate.ofMatrix c source ⟨rows⟩ := by
  refine ⟨Cycle.completes c _ rows idle₁, Cycle.completes c _ rows idle₂, ?_⟩
  intro result₁ result₂ st₁' st₂' h₁ h₂
  obtain ⟨hresult₁, -⟩ := h₁.performs idle₁
  obtain ⟨hresult₂, -⟩ := h₂.performs idle₂
  exact ⟨hresult₁.trans hresult₂.symm, hresult₁⟩

/-- for example, on a new robot and on one that has been through a dark cycle -/
theorem cycle_forgets_dark_cycle : ∃ past st result st₁ st₂,
    Station.History .default past st ∧ st.slot.state = .idle ∧
      (∃ s, st.health.silence s ≠ Station.new.health.silence s) ∧
      Cycle .default ⟨7, 1, 5⟩ headOn .new result st₁ ∧
      Cycle .default ⟨7, 2, 6⟩ headOn st result st₂ ∧ result = .ok ⟨7, 100, -30, 180, 255⟩ := by
  have fresh : Station.new.slot.state = .idle := rfl
  obtain ⟨_, st, hdark⟩ := Cycle.completes .default ⟨3, 4, 5⟩ Brightness.dark.rows fresh
  obtain ⟨_, _, _, history, -⟩ := hdark.history .new
  obtain ⟨-, hst⟩ := hdark.performs fresh
  have idle : st.slot.state = .idle := by rw [hst]; rfl
  have counted : st.health.silence 0 ≠ Station.new.health.silence 0 := by
    rw [hst]
    show (SensorHealth.new.sweep ⟨Brightness.dark.rows⟩).1.silence 0 ≠ SensorHealth.new.silence 0
    decide
  obtain ⟨⟨_, _, h₁⟩, ⟨_, _, h₂⟩, same⟩ := cycle_forgets .default 7 headOn fresh idle 1 2 5 6
  obtain ⟨rfl, hresult⟩ := same h₁ h₂
  exact ⟨_, st, _, _, _, history, idle, ⟨0, counted⟩, h₁, h₂, hresult.trans ofMatrix_headOn⟩

end Controller

end RangeBearing
