import RangeBearing.Controller

/-!
# The faults of an estimation

An estimation ends with an estimate or with the first fault of its stages.  Here: which faults
those can be.

* `Except.FailsOnly`      a computation whose faults all have a property;
* `Fault.OfEstimation`    the faults of the stages;
* `Controller.verdict`    the estimate of a matrix, or the first fault on the way to it;
* `Controller.verdict_fails`.
-/

namespace RangeBearing

/-- a computation that fails with faults of one kind only -/
def FailsOnly {α : Type} (P : Fault → Prop) (x : Except Fault α) : Prop :=
  ∀ f, x = .error f → P f

namespace FailsOnly

variable {α β : Type} {P : Fault → Prop}

theorem ok (a : α) : FailsOnly P (.ok a) := by
  intro f h
  cases h

theorem error {f : Fault} (hf : P f) : FailsOnly P (.error f : Except Fault α) := by
  intro g h
  cases h
  exact hf

theorem bind {x : Except Fault α} {k : α → Except Fault β} (hx : FailsOnly P x)
    (hk : ∀ a, FailsOnly P (k a)) : FailsOnly P (x >>= k) := by
  intro f h
  cases x with
  | error g =>
    have hg : (.error g : Except Fault β) = .error f := h
    cases hg
    exact hx _ rfl
  | ok a => exact hk a f h

/-- a check that fails with one fault, and what comes after it -/
theorem check {p : Prop} [Decidable p] {f : Fault} {k : PUnit → Except Fault α} (hf : P f)
    (hk : FailsOnly P (k ⟨⟩)) :
    FailsOnly P (if p then (throw f : Except Fault PUnit) >>= k else k ⟨⟩) := by
  by_cases hp : p
  · rw [if_pos hp]
    exact error hf
  · rw [if_neg hp]
    exact hk

end FailsOnly

namespace Fault

/-- a fault that the estimation of a matrix can end with -/
def OfEstimation : Fault → Prop
  | outOfView _ _ | model _ | faintNeighbourhood _ | poorFit _ _ => True
  | _ => False

end Fault

namespace Estimation

theorem pairRange_fails (m : Brightness) (e s : Direction) (bearing heading : Binary32) :
    FailsOnly Fault.OfEstimation (pairRange m e s bearing heading) := by
  unfold pairRange
  dsimp only
  refine FailsOnly.check trivial (FailsOnly.check trivial ?_)
  generalize Photometry.distance _ = inverted
  cases inverted with
  | error cause => exact FailsOnly.error trivial
  | ok length => exact FailsOnly.ok _

theorem refine_fails (m : Brightness) (seedRange bearing heading weightFloor : Binary32) :
    FailsOnly Fault.OfEstimation (refine m seedRange bearing heading weightFloor) := by
  unfold refine
  extract_lets
  exact FailsOnly.check trivial (FailsOnly.check trivial (FailsOnly.ok _))

theorem fit_fails (m : Brightness) (weightFloor : Binary32) :
    FailsOnly Fault.OfEstimation (fit m weightFloor) := by
  unfold fit
  refine FailsOnly.bind ?_ fun seedRange => ?_
  · exact pairRange_fails m _ _ _ _
  · exact (refine_fails m seedRange _ _ weightFloor).bind fun _ => FailsOnly.ok _

end Estimation

theorem Innovation.between_fails (measured expected : Grid Binary32) :
    FailsOnly Fault.OfEstimation (between measured expected) := by
  unfold between
  extract_lets
  exact FailsOnly.check trivial (FailsOnly.check trivial (FailsOnly.ok _))

theorem Assessment.score_fails (c : Config) (m : Brightness) (energy : Int32) (pose : Pose) :
    FailsOnly Fault.OfEstimation (score c m energy pose) := by
  unfold score
  extract_lets
  exact (Innovation.between_fails _ _).bind fun _ =>
    FailsOnly.check trivial (FailsOnly.ok _)

namespace Controller

variable {c : Config}

/-- the estimate of a matrix, or the first fault on the way to it -/
def verdict (c : Config) (source : UInt16) (m : Brightness) : Except Fault Estimate :=
  (Estimation.fit m c.weightFloor).bind fun fit =>
    (Assessment.score c m m.total fit.pose).map fun a =>
      .ofPose source a.rangeCm fit.pose.bearing fit.pose.heading a.confidence

theorem verdict_of_fit_error {source : UInt16} {m : Brightness} {fault : Fault}
    (h : Estimation.fit m c.weightFloor = .error fault) : verdict c source m = .error fault := by
  unfold verdict
  rw [h]
  rfl

theorem verdict_of_fit_ok {source : UInt16} {m : Brightness} {fit : Estimation.Fit}
    (h : Estimation.fit m c.weightFloor = .ok fit) :
    verdict c source m = (Assessment.score c m m.total fit.pose).map fun a =>
      .ofPose source a.rangeCm fit.pose.bearing fit.pose.heading a.confidence := by
  unfold verdict
  rw [h]
  rfl

/-- the faults of an estimation are those of its stages -/
theorem verdict_fails (c : Config) (source : UInt16) (m : Brightness) :
    FailsOnly Fault.OfEstimation (verdict c source m) := by
  intro f h
  cases hfit : Estimation.fit m c.weightFloor with
  | error fault =>
    rw [verdict_of_fit_error hfit] at h
    cases h
    exact Estimation.fit_fails m _ _ hfit
  | ok fit =>
    rw [verdict_of_fit_ok hfit] at h
    cases hscore : Assessment.score c m m.total fit.pose with
    | error fault =>
      rw [hscore] at h
      cases h
      exact Assessment.score_fails c m _ _ _ hscore
    | ok a =>
      rw [hscore] at h
      cases h

end Controller

end RangeBearing
