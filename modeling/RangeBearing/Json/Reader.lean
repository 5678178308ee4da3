import RangeBearing.Json.Value

/-!
# Reading JSON text

A reader takes what it reads from the front of the text and gives back the rest.

* `Json.skip`      drops blanks, tabs and line ends;
* `Json.number?`   the longest literal: no leading zeros, digits after a point and in an exponent;
* `Json.string?`   a string after its opening quote;
* `Json.value?`    a value; each level of nesting takes one unit of fuel and at least one character;
* `Json.parse?`    a text that holds one value and blanks around it.
-/

namespace RangeBearing

namespace Json

def isBlank (c : Char) : Bool := c = ' ' || c = '\t' || c = '\n' || c = '\r'

/-- the text without the blanks at its front -/
def skip (cs : List Char) : List Char := cs.dropWhile isBlank

/-! ## numbers -/

def digits? (cs : List Char) : Option (List Char × List Char) :=
  match cs.takeWhile Char.isDigit with
  | [] => none
  | ds => some (ds, cs.dropWhile Char.isDigit)

/-- the digits before the point; only zero itself begins with a zero -/
def whole? (cs : List Char) : Option (List Char × List Char) := do
  let (ds, rest) ← digits? cs
  if ds.head? = some '0' ∧ ds.length ≠ 1 then none else some (ds, rest)

/-- a point and digits, or nothing -/
def fraction? : List Char → Option (List Char × List Char)
  | '.' :: cs => do
    let (ds, rest) ← digits? cs
    return ('.' :: ds, rest)
  | cs => some ([], cs)

/-- the sign of an exponent, or nothing -/
def exponentSign : List Char → List Char × List Char
  | '+' :: cs => (['+'], cs)
  | '-' :: cs => (['-'], cs)
  | cs => ([], cs)

def exponent? : List Char → Option (List Char × List Char)
  | c :: cs =>
    if c = 'e' ∨ c = 'E' then do
      let (sign, rest) := exponentSign cs
      let (ds, rest) ← digits? rest
      return (c :: sign ++ ds, rest)
    else some ([], c :: cs)
  | [] => some ([], [])

def unsigned? (cs : List Char) : Option (List Char × List Char) := do
  let (whole, rest) ← whole? cs
  let (fraction, rest) ← fraction? rest
  let (exponent, rest) ← exponent? rest
  return (whole ++ fraction ++ exponent, rest)

def number? : List Char → Option (List Char × List Char)
  | '-' :: cs => do
    let (literal, rest) ← unsigned? cs
    return ('-' :: literal, rest)
  | cs => unsigned? cs

/-! ## strings -/

/-- what stands in a string: a character, or a 16-bit unit given by its number -/
inductive Piece where
  | char (c : Char)
  | unit (n : Nat)

def hexDigit? (c : Char) : Option Nat :=
  if c.isDigit then some (c.toNat - '0'.toNat)
  else if 'a' ≤ c ∧ c ≤ 'f' then some (c.toNat - 'a'.toNat + 10)
  else if 'A' ≤ c ∧ c ≤ 'F' then some (c.toNat - 'A'.toNat + 10)
  else none

/-- the unit with four hexadecimal digits -/
def unit? (a b c d : Char) : Option Piece := do
  let high := (← hexDigit? a) * 16 + (← hexDigit? b)
  let low := (← hexDigit? c) * 16 + (← hexDigit? d)
  return .unit (high * 256 + low)

/-- the character that a letter after a backslash stands for -/
def escaped? : Char → Option Char
  | '"' => some '"'
  | '\\' => some '\\'
  | '/' => some '/'
  | 'b' => some '\x08'
  | 'f' => some '\x0c'
  | 'n' => some '\n'
  | 'r' => some '\r'
  | 't' => some '\t'
  | _ => none

/-- the pieces up to the closing quote; a control character is refused -/
def pieces? : List Char → Option (List Piece × List Char)
  | [] => none
  | '"' :: rest => some ([], rest)
  | '\\' :: 'u' :: a :: b :: c :: d :: rest => do
    let piece ← unit? a b c d
    let (pieces, rest) ← pieces? rest
    return (piece :: pieces, rest)
  | '\\' :: c :: rest => do
    let char ← escaped? c
    let (pieces, rest) ← pieces? rest
    return (.char char :: pieces, rest)
  | c :: rest =>
    if c.toNat < 32 ∨ c = '\\' then none
    else do
      let (pieces, rest) ← pieces? rest
      return (.char c :: pieces, rest)

def isHighSurrogate (n : Nat) : Bool := 0xd800 ≤ n && n < 0xdc00
def isLowSurrogate (n : Nat) : Bool := 0xdc00 ≤ n && n < 0xe000

/-- the characters that pieces stand for; two surrogates in a row stand for one character, and one
alone for none -/
def chars? : List Piece → Option (List Char)
  | [] => some []
  | .char c :: rest => (chars? rest).map (c :: ·)
  | .unit n :: rest =>
    if isLowSurrogate n then none
    else if isHighSurrogate n then
      match rest with
      | .unit m :: rest =>
        if isLowSurrogate m then
          (chars? rest).map (Char.ofNat (0x10000 + (n - 0xd800) * 0x400 + (m - 0xdc00)) :: ·)
        else none
      | _ => none
    else (chars? rest).map (Char.ofNat n :: ·)

/-- a string after its opening quote -/
def string? (cs : List Char) : Option (Option (List Char) × List Char) := do
  let (pieces, rest) ← pieces? cs
  return (chars? pieces, rest)

/-! ## values -/

/-- a name and the colon after it, from an opening quote on -/
def key? (cs : List Char) : Option (Option (List Char) × List Char) :=
  match skip cs with
  | '"' :: rest => do
    let (key, rest) ← string? rest
    match skip rest with
    | ':' :: rest => some (key, rest)
    | _ => none
  | _ => none

mutual

/-- a value and the blanks before it -/
def value? : Nat → List Char → Option (Value × List Char)
  | 0, _ => none
  | fuel + 1, cs =>
    match skip cs with
    | 'n' :: 'u' :: 'l' :: 'l' :: rest => some (.null, rest)
    | 't' :: 'r' :: 'u' :: 'e' :: rest => some (.bool true, rest)
    | 'f' :: 'a' :: 'l' :: 's' :: 'e' :: rest => some (.bool false, rest)
    | '"' :: rest => do
      let (chars, rest) ← string? rest
      return (.string chars, rest)
    | '[' :: rest =>
      match skip rest with
      | ']' :: rest => some (.array [], rest)
      | rest => do
        let (v, rest) ← value? fuel rest
        let (vs, rest) ← items? fuel rest
        return (.array (v :: vs), rest)
    | '\x7b' :: rest =>
      match skip rest with
      | '\x7d' :: rest => some (.object [], rest)
      | rest => do
        let (k, rest) ← key? rest
        let (v, rest) ← value? fuel rest
        let (ms, rest) ← members? fuel rest
        return (.object ((k, v) :: ms), rest)
    | rest => do
      let (literal, rest) ← number? rest
      return (.number literal, rest)

/-- the items after the first one, up to the end of the array -/
def items? : Nat → List Char → Option (List Value × List Char)
  | 0, _ => none
  | fuel + 1, cs =>
    match skip cs with
    | ']' :: rest => some ([], rest)
    | ',' :: rest => do
      let (v, rest) ← value? fuel rest
      let (vs, rest) ← items? fuel rest
      return (v :: vs, rest)
    | _ => none

/-- the members after the first one, up to the end of the object -/
def members? : Nat → List Char → Option (List (Option (List Char) × Value) × List Char)
  | 0, _ => none
  | fuel + 1, cs =>
    match skip cs with
    | '\x7d' :: rest => some ([], rest)
    | ',' :: rest => do
      let (k, rest) ← key? rest
      let (v, rest) ← value? fuel rest
      let (ms, rest) ← members? fuel rest
      return ((k, v) :: ms, rest)
    | _ => none

end

/-- the value that a text holds -/
def parse? (cs : List Char) : Option Value :=
  match value? (cs.length + 1) cs with
  | some (v, rest) => if (skip rest).isEmpty then some v else none
  | none => none

end Json

end RangeBearing
