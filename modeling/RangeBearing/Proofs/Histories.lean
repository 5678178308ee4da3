import Mathlib.Data.List.Induction
import RangeBearing.Proofs.CallsAlone

/-!
# Histories of calls

What is said of a robot over time is said of the calls that were made on it one after another, each
with the steps it took and the result it gave back.

* `Controller.Answered`             a call that has been answered;
* `Controller.Answered.estimate?`   the estimate that it has published;
* `Controller.Call.Looks`           a call that changes no cell;
* `Station.History`                 the calls made on a new station, newest last, with the station
  after them;
* `Station.History.split`           a history at one of its calls.
-/

namespace RangeBearing

open Controller Program

namespace Controller

/-- a call that reads cells and changes none -/
def Call.Looks : Call → Prop
  | peekEstimate | lastMatrix | state | sensorHealth | config => True
  | _ => False

theorem Call.Looks.sections {c : Config} {call : Call} (h : call.Looks) :
    (call.program c).Each fun action => ¬ action.Local := by
  cases call with
  | peekEstimate => exact Each.perform nofun
  | lastMatrix => exact Each.perform nofun
  | state => exact (Each.perform nofun).bind fun _ => Each.pure _
  | sensorHealth => exact Each.perform nofun
  | config => exact Each.pure _
  | _ => exact False.elim h

theorem Call.Looks.performs {c : Config} {call : Call} {st st' : Station} {steps : List Step}
    {result : call.Result} (looks : call.Looks)
    (h : (call.program c).Performs st steps result st') : st' = st := by
  cases call with
  | peekEstimate => exact (performs_shared_iff.mp h).2.2
  | lastMatrix => exact (performs_shared_iff.mp h).2.2
  | state =>
    obtain ⟨_, h, -⟩ := performs_shared_bind_iff.mp h
    exact (performs_pure_iff.mp h).2.2
  | sensorHealth => exact (performs_shared_iff.mp h).2.2
  | config => exact (performs_pure_iff.mp h).2.2
  | _ => exact False.elim looks

/-- a call that has been answered -/
structure Answered where
  call : Call
  steps : List Step
  result : call.Result

namespace Answered

/-- the call was made on a station, and left another one behind -/
def Moves (r : Answered) (c : Config) (st st' : Station) : Prop :=
  (r.call.program c).Performs st r.steps r.result st'

section
variable {r : Answered} {c : Config} {st st' : Station}

theorem Moves.same (h : r.Moves c st st') (looks : r.call.Looks) : st' = st :=
  looks.performs h

theorem Moves.sections (h : r.Moves c st st') (looks : r.call.Looks) :
    ∀ s ∈ r.steps, ¬ s.action.Local := (looks.sections (c := c)).steps h

end

/-- the estimate that the call has published -/
def estimate? : Answered → Option Estimate
  | ⟨.use, _, .ok e⟩ | ⟨.serve _, _, .ok e⟩ => some e
  | _ => none

end Answered

end Controller

namespace Station

/-- calls, one after another and with nothing in between, on a new station -/
inductive History (c : Config) : List Answered → Station → Prop where
  | new : History c [] .new
  | snoc {past : List Answered} {st st' : Station} {r : Answered} (before : History c past st)
      (moves : r.Moves c st st') : History c (past ++ [r]) st'

namespace History

variable {c : Config} {past : List Answered} {st st' : Station}

theorem reachable (h : History c past st) : Reachable c st := by
  induction h with
  | new => exact .new
  | snoc _ moves ih => exact .call _ ih moves

theorem settled (h : History c past st) : st.Settled := h.reachable.settled

theorem call (h : History c past st) (call : Call) {steps : List Step} {result : call.Result}
    (performs : (call.program c).Performs st steps result st') :
    History c (past ++ [⟨call, steps, result⟩]) st' :=
  h.snoc performs

theorem split {before after : List Answered} {r : Answered}
    (h : History c (before ++ r :: after) st) :
    ∃ st₀ st₁, History c before st₀ ∧ r.Moves c st₀ st₁ := by
  generalize hpast : before ++ r :: after = past at h
  induction h generalizing after with
  | new => exact absurd hpast (by simp)
  | @snoc past st st' last before' moves ih =>
    rcases List.eq_nil_or_concat after with rfl | ⟨after, x, rfl⟩
    · obtain ⟨rfl, hlast⟩ := List.append_inj' hpast rfl
      obtain rfl := List.singleton_inj.mp hlast
      exact ⟨st, st', before', moves⟩
    · rw [List.concat_eq_append, ← List.cons_append, ← List.append_assoc] at hpast
      obtain ⟨hbefore, -⟩ := List.append_inj' hpast rfl
      exact ih hbefore

theorem at_place {i : Nat} {r : Answered} (h : History c past st) (hi : past[i]? = some r) :
    ∃ st₀ st₁, History c (past.take i) st₀ ∧ r.Moves c st₀ st₁ := by
  obtain ⟨hlt, hget⟩ := List.getElem?_eq_some_iff.mp hi
  have hpast : past = past.take i ++ r :: past.drop (i + 1) := by
    rw [← hget, ← List.drop_eq_getElem_cons hlt, List.take_append_drop]
  rw [hpast] at h
  exact h.split

end History

end Station

end RangeBearing
