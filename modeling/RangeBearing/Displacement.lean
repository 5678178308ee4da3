import RangeBearing.Elementary.Arctangent
import RangeBearing.Elementary.Hypotenuse
import RangeBearing.Elementary.Sine

/-!
# Displacements in the plane

A displacement in the frame of a robot: `x` forward and `y` to the left, in centimetres.  All
operations work on the two components; `polar`, `length` and `direction` go between components
and a length with an angle.
-/

namespace RangeBearing

/-- a displacement by its two components -/
structure Displacement where
  x : Binary32
  y : Binary32
  deriving BEq, DecidableEq

namespace Displacement

def zero : Displacement := ⟨0, 0⟩

instance : Inhabited Displacement := ⟨zero⟩

instance : Add Displacement := ⟨fun a b => ⟨a.x + b.x, a.y + b.y⟩⟩
instance : Sub Displacement := ⟨fun a b => ⟨a.x - b.x, a.y - b.y⟩⟩
instance : Neg Displacement := ⟨fun a => ⟨-a.x, -a.y⟩⟩
instance : HMul Displacement Binary32 Displacement := ⟨fun a k => ⟨a.x * k, a.y * k⟩⟩

def polar (length direction : Binary32) : Displacement :=
  ⟨length * Elementary.cos direction, length * Elementary.sin direction⟩

def length (a : Displacement) : Binary32 := Elementary.hypot a.x a.y

/-- the angle from the forward axis, in `[-π, π]` -/
def direction (a : Displacement) : Binary32 := Elementary.atan2 a.y a.x

theorem add_x (a b : Displacement) : (a + b).x = a.x + b.x := rfl
theorem add_y (a b : Displacement) : (a + b).y = a.y + b.y := rfl
theorem mul_x (a : Displacement) (k : Binary32) : (a * k).x = a.x * k := rfl
theorem mul_y (a : Displacement) (k : Binary32) : (a * k).y = a.y * k := rfl

end Displacement

end RangeBearing
