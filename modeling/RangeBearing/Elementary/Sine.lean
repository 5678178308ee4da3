import RangeBearing.Binary.Bits
import RangeBearing.Binary.Integral

/-!
# Sine and cosine

The argument is reduced to a number of quarter turns and a remainder of at most an eighth of a
turn, in double precision; a polynomial kernel on the remainder gives the value, which is rounded
to single precision.  The reduction is meant for angles of less than `2^28` quarter turns.

* `Elementary.reduce`                              the quarter turns and the remainder of an angle;
* `Elementary.sinKernel`, `Elementary.cosKernel`   the polynomials;
* `Elementary.sin`, `Elementary.cos`               which kernel a quarter turn selects.
-/

namespace RangeBearing

namespace Elementary

/-- `x - x³/6 + …` on a remainder -/
def sinKernel (x : Binary64) : Binary32 :=
  let z := x * x
  let w := z * z
  let r := -0.000198393348360966317347 + z * 0.0000027183114939898219064
  let s := z * x
  ((x + s * (-0.166666666416265235595 + z * 0.0083333293858894631756)) + s * w * r).convert

/-- `1 - x²/2 + …` on a remainder -/
def cosKernel (x : Binary64) : Binary32 :=
  let z := x * x
  let w := z * z
  let r := -0.00138867637746099294692 + z * 0.0000243904487962774090654
  (((1 + z * -0.499999997251031003120) + w * 0.0416666233237390631894) + w * z * r).convert

/-- a quarter turn in double precision -/
def wideQuarterTurn : Binary64 := .ofBits 0x3ff921fb54442d18

/-- the codes of the odd eighths of a turn: `π/4`, `3π/4`, `5π/4`, `7π/4`, `9π/4` -/
def eighths : List Nat := [0x3f490fda, 0x4016cbe3, 0x407b53d1, 0x40afeddf, 0x40e231d5]

/-- the angles below this code are their own sines -/
def tiny : Nat := 0x39800000

/-- beyond `9π/4` the quarter turns are counted by adding and subtracting a number that leaves no
room for a fraction, and a quarter turn is subtracted in two parts.  The parts have 25 and 53 binary
digits of it, enough for codes below `0x4dc90fdb`, angles of less than `2^28` quarter turns. -/
def reduceFar (x : Binary64) : Int × Binary64 :=
  let shift : Binary64 := 6755399441055744
  let turns := (x * 6.36619772367581382433e-01 + shift) - shift
  (turns.truncate, x - turns * 1.57079631090164184570e+00 - turns * 1.58932547735281966916e-08)

/-- the quarter turns in an angle and what remains of it.  This is meant for angles with a code
below `0x4dc90fdb`: from there on the digits of `reduceFar` do not suffice, and what it gives need
not be the remainder of the angle. -/
def reduce (x : Binary32) : Int × Binary64 :=
  let wide : Binary64 := x.convert
  let passed := (eighths.takeWhile (· < x.magnitude)).length
  if passed = eighths.length then reduceFar wide
  else
    let turns : Int := if x.isNegative then -passed else passed
    (turns, wide - .ofInt turns * wideQuarterTurn)

/-- the cosine; `nan` for an angle that is not finite -/
def cos (x : Binary32) : Binary32 :=
  if ¬ x.isFinite then .nan
  else if x.magnitude < tiny then 1
  else
    let (turns, y) := reduce x
    match (turns % 4).toNat with
    | 0 => cosKernel y
    | 1 => sinKernel (-y)
    | 2 => -cosKernel y
    | _ => sinKernel y

/-- the sine; `nan` for an angle that is not finite -/
def sin (x : Binary32) : Binary32 :=
  if ¬ x.isFinite then .nan
  else if x.magnitude < tiny then x
  else
    let (turns, y) := reduce x
    match (turns % 4).toNat with
    | 0 => sinKernel y
    | 1 => cosKernel y
    | 2 => sinKernel (-y)
    | _ => -cosKernel y

end Elementary

end RangeBearing
