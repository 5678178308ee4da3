import RangeBearing.Binary.Root

/-!
# The length of a hypotenuse

`Elementary.hypot x y` is `√(x² + y²)`.  The squares are added in double precision, where they
cannot overflow once both legs have been scaled into the middle of the range; a leg that is
negligible beside the other is only added.
-/

namespace RangeBearing

namespace Elementary

/-- the codes of `2 ^ 60` and `2 ^ -60`, beyond which the legs are scaled -/
def large : Nat := (0x7f + 60) * Format.binary32.binade
def small : Nat := (0x7f - 60) * Format.binary32.binade

/-- `2 ^ k` and `2 ^ -k` -/
def powerOfTwo (k : Nat) : Binary32 := .ofInt (Nat.pow 2 k)
def inversePowerOfTwo (k : Nat) : Binary32 := 1 / powerOfTwo k

/-- the root of the sum of two squares that neither overflows nor underflows -/
def diagonal (x y : Binary32) : Binary32 :=
  let x : Binary64 := x.convert
  let y : Binary64 := y.convert
  (x * x + y * y).convert (G := Format.binary32) |>.sqrt

/-- the hypotenuse for legs without signs, the longer one first -/
def hypotOrdered (x y : Binary32) : Binary32 :=
  if y = .infinite false then y
  else if ¬ x.isFinite || y.magnitude = 0 ||
      y.magnitude + 25 * Format.binary32.binade ≤ x.magnitude then x + y
  else if large ≤ x.magnitude then
    let k := inversePowerOfTwo 90
    powerOfTwo 90 * diagonal (x * k) (y * k)
  else if y.magnitude < small then
    let k := powerOfTwo 90
    inversePowerOfTwo 90 * diagonal (x * k) (y * k)
  else diagonal x y

/-- `√(x² + y²)` -/
def hypot (x y : Binary32) : Binary32 :=
  let x := x.abs
  let y := y.abs
  if x.magnitude < y.magnitude then hypotOrdered y x else hypotOrdered x y

end Elementary

end RangeBearing
