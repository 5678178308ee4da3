import RangeBearing.Binary.Bits

/-!
# Parts of a turn

The single-precision numbers nearest to `2π`, `π`, `π/2` and `π/6`.  The first three are exact
multiples of each other; the last is rounded on its own.
-/

namespace RangeBearing

namespace Elementary

def fullTurn : Binary32 := .ofBits 0x40c90fdb

def halfTurn : Binary32 := .ofBits 0x40490fdb

def quarterTurn : Binary32 := .ofBits 0x3fc90fdb

def twelfthTurn : Binary32 := 0.52359877559829887307710723054658381

end Elementary

end RangeBearing
