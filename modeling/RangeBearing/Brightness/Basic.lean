import RangeBearing.Binary.Basic
import RangeBearing.Grid

/-!
# Brightness matrices

One cycle gives a grid of instantaneous infrared readings: the row of emitter `e` was captured
while the other robot's emitter `e` was lit, and its cell `s` is the reading of our sensor `s`.

* `Brightness.brightest`   the first cell with the greatest reading;
* `Brightness.total`       the sum of all readings;
* `Brightness.text`        the rows in braces, in braces.
-/

namespace RangeBearing

/-- the readings of one cycle -/
abbrev Brightness := Grid Int16

namespace Brightness

def dark : Brightness := .const 0

instance : Inhabited Brightness := ⟨dark⟩

/-- the emitter and the sensor of the greatest reading, the first one of several; the scan starts
from the least reading there is -/
def brightest (m : Brightness) : Direction × Direction :=
  let step (best : (Direction × Direction) × Int16) (c : Grid.Cell Int16) :=
    if best.2 < c.value then ((c.emitter, c.sensor), c.value) else best
  (m.cells.foldl step ((Direction.first, Direction.first), Int16.minValue)).1

/-- whether a sensor read zero for every emitter -/
def isSilent (m : Brightness) (s : Direction) : Bool :=
  Direction.all.all fun e => m.get e s = 0

def total (m : Brightness) : Int32 := m.cells.foldl (fun sum c => sum + c.value.toInt32) 0

def number (v : Int16) : Binary32 := .ofInt v.toInt

def numbers (m : Brightness) : Grid Binary32 := m.map number

/-- items between braces, with commas between them -/
def braced (items : List (List Char)) : List Char :=
  '\x7b' :: (items.intersperse [',']).flatten ++ ['\x7d']

def text (m : Brightness) : String :=
  String.ofList <| braced <| m.rows.toList.map fun row =>
    braced <| row.toList.map fun v => (toString v.toInt).toList

end Brightness

end RangeBearing
