import RangeBearing.Estimation.SeedRange

/-!
# The range averaged over a neighbourhood

From a first guess of the position, every lit cell is traced and inverted to a position of its
own, its CANDIDATE.  The candidates of the nine cells around the brightest one are averaged with
the squared readings as weights.

* `Estimation.candidates`      the positions that the lit cells imply;
* `Estimation.neighbourhood`   the nine cells around a cell, each direction taken modulo six;
* `Estimation.refine`          the average, with the number of candidates and the weight behind it.
-/

namespace RangeBearing

namespace Estimation

/-- the centre that one cell implies -/
structure Candidate where
  emitter : Direction
  sensor : Direction
  centre : Displacement
  deriving DecidableEq

/-- the centre that a cell implies, when it is lit, traced in view from the guess and inverted -/
def candidate? (guess : Displacement) (heading : Binary32) (c : Grid.Cell Int16) :
    Option Candidate :=
  if c.value ≤ 0 then none
  else
    let ray := Ray.trace guess heading c.emitter c.sensor
    if ¬ ray.inView then none
    else
      let gain := Photometry.sensorGain ray.alpha * Photometry.emitterGain ray.beta
      if ¬ 0 < gain then none
      else
        match Photometry.distance (Brightness.number c.value / gain) with
        | .error _ => none
        | .ok length =>
          let direction := ray.alpha + Ring.boresight c.sensor
          some ⟨c.emitter, c.sensor,
            impliedCentre c.emitter c.sensor heading length direction⟩

/-- the places of the candidate list -/
def capacity : Nat := 36

/-- the candidates in the order of the cells, as many as there are places for -/
def candidates (m : Brightness) (guess : Displacement) (heading : Binary32) : List Candidate :=
  (m.cells.filterMap (candidate? guess heading)).take capacity

/-- a direction with the one before and the one after it -/
def around (k : Direction) : List Direction := [k.turn 5, k, k.turn 1]

/-- the nine cells around a cell -/
def neighbourhood (e s : Direction) : List (Direction × Direction) :=
  (around e).flatMap fun e => (around s).map fun s => (e, s)

/-- a weighted sum of positions and the sum of the weights -/
structure Mean where
  total : Displacement
  weight : Binary32

/-- one more position -/
def Mean.add (mean : Mean) (centre : Displacement) (weight : Binary32) : Mean :=
  ⟨mean.total + centre * weight, mean.weight + weight⟩

/-- a refined range, how many candidates there were and the weight of those in the neighbourhood -/
structure Refinement where
  range : Binary32
  candidates : Nat
  weight : Binary32
  deriving DecidableEq

/-- the refined range; it fails unless the neighbourhood's energy and then the weight of its
candidates exceed the floor -/
def refine (m : Brightness) (seedRange bearing heading weightFloor : Binary32) :
    Except Fault Refinement := do
  let found := candidates m (.polar seedRange bearing) heading
  let cells := neighbourhood m.brightest.1 m.brightest.2
  let square (e s : Direction) : Binary32 :=
    let v := Brightness.number (m.get e s)
    v * v
  let energy := cells.foldl (fun sum (e, s) => sum + square e s) 0
  if ¬ weightFloor < energy then throw (.faintNeighbourhood 0)
  let mean := cells.foldl
    (fun (mean : Mean) (e, s) =>
      match found.find? fun c => c.emitter = e ∧ c.sensor = s with
      | some c => mean.add c.centre (square e s / energy)
      | none => mean)
    ⟨.zero, 0⟩
  if ¬ weightFloor < mean.weight then throw (.faintNeighbourhood mean.weight)
  return ⟨(mean.total * (1 / mean.weight)).length, found.length, mean.weight⟩

end Estimation

end RangeBearing
