import RangeBearing.Elementary.Turn

/-!
# Arctangents

* `Elementary.atan`        the arctangent: the argument is brought near zero by the addition
                           formula at one of four centres, whose arctangent is stored in two parts;
* `Elementary.atan2 y x`   the angle of the point `(x, y)`, by quadrants.
-/

namespace RangeBearing

namespace Elementary

/-- what `halfTurn` lacks of `π` -/
def halfTurnRest : Binary32 := .ofBits 0xb3bbbd2e

/-- the polynomial `x - atan x` on a small argument -/
def atanTail (x : Binary32) : Binary32 :=
  let z := x * x
  let w := z * z
  let s₁ := z * (3.3333328366e-01 + w * (1.4253635705e-01 + w * 6.1687607318e-02))
  let s₂ := w * (-1.9999158382e-01 + w * -1.0648017377e-01)
  x * (s₁ + s₂)

/-- a point at which the arctangent is stored, as a sum of two parts, and the map that brings a
positive argument near zero -/
structure Centre where
  high : Binary32
  low : Binary32
  bring : Binary32 → Binary32

/-- the centres `1/2`, `1`, `3/2` and infinity, each with the code below which it is used -/
def centre (code : Nat) : Centre :=
  if code < 0x3f300000 then
    ⟨.ofBits 0x3eed6338, .ofBits 0x31ac3769, fun x => (2 * x - 1) / (2 + x)⟩
  else if code < 0x3f980000 then
    ⟨.ofBits 0x3f490fda, .ofBits 0x33222168, fun x => (x - 1) / (x + 1)⟩
  else if code < 0x401c0000 then
    ⟨.ofBits 0x3f7b985e, .ofBits 0x33140fb4, fun x => (x - 1.5) / (1 + 1.5 * x)⟩
  else
    ⟨.ofBits 0x3fc90fda, .ofBits 0x33a22168, fun x => -1 / x⟩

def atan (x : Binary32) : Binary32 :=
  let signed (a : Binary32) := if x.isNegative then -a else a
  if x.isNaN then .nan
  else if 0x4c800000 ≤ x.magnitude then signed (.ofBits 0x3fc90fda)
  else if x.magnitude < 0x39800000 then x
  else if x.magnitude < 0x3ee00000 then x - atanTail x
  else
    let c := centre x.magnitude
    let y := c.bring x.abs
    signed (c.high - ((atanTail y - c.low) - y))

/-- an exponent gap of this many codes makes the smaller coordinate negligible -/
def gap : Nat := 26 * Format.binary32.binade

/-- the angle of the point `(x, y)` seen from the origin, in `[-π, π]` -/
def atan2 (y x : Binary32) : Binary32 :=
  let signed (a : Binary32) := if y.isNegative then -a else a
  if x.isNaN || y.isNaN then .nan
  else if x = 1 then atan y
  else if y.magnitude = 0 then
    if x.isNegative then signed halfTurn else y
  else if x.magnitude = 0 then signed quarterTurn
  else if ¬ x.isFinite then
    signed <|
      if y.isFinite then (if x.isNegative then halfTurn else 0)
      else if x.isNegative then 3 * halfTurn / 4 else halfTurn / 4
  else if ¬ y.isFinite || x.magnitude + gap < y.magnitude then signed quarterTurn
  else
    let z := if x.isNegative && y.magnitude + gap < x.magnitude then 0 else atan (y / x).abs
    match x.isNegative, y.isNegative with
    | false, false => z
    | false, true => -z
    | true, false => halfTurn - (z - halfTurnRest)
    | true, true => (z - halfTurnRest) - halfTurn

end Elementary

end RangeBearing
