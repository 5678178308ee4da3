/-!
# The states of a cycle
-/

namespace RangeBearing

/-- where a robot stands in a cycle -/
inductive CycleState where
  /-- ready to start one -/
  | idle
  /-- lighting the own emitters -/
  | broadcasting
  /-- sampling the emitters of another robot -/
  | acquiring
  /-- holding a full matrix that has not been estimated yet -/
  | estimating
  deriving DecidableEq, Inhabited

namespace CycleState

def all : List CycleState := [idle, broadcasting, acquiring, estimating]

def name : CycleState → String
  | idle => "Idle"
  | broadcasting => "Broadcasting"
  | acquiring => "Acquiring"
  | estimating => "Estimating"

/-- the state with a name -/
def ofName? (text : String) : Option CycleState := all.find? (·.name == text)

theorem ofName?_name (s : CycleState) : ofName? s.name = some s := by
  cases s <;> decide

end CycleState

end RangeBearing
