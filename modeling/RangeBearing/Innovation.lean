import RangeBearing.Binary.Root
import RangeBearing.Fault
import RangeBearing.Grid

/-!
# The innovation of a prediction

Two grids are scaled to unit norm and compared cell by cell: the innovation is the sum of the
absolute differences.  It is zero for a perfect fit, and the overall brightness cancels out.
-/

namespace RangeBearing

namespace Innovation

/-- the root of the sum of the squares -/
def norm (g : Grid Binary32) : Binary32 := (g.values.foldl (fun sum v => sum + v * v) 0).sqrt

/-- the distance between the directions of two grids; a grid whose norm is not positive has none -/
def between (measured expected : Grid Binary32) : Except Fault Binary32 := do
  let a := norm measured
  let b := norm expected
  if ¬ 0 < a then throw (.model .darkMeasurement)
  if ¬ 0 < b then throw (.model .darkPrediction)
  return (measured.values.zip expected.values).foldl
    (fun sum (m, x) => sum + (m / a - x / b).abs) 0

end Innovation

end RangeBearing
