/-!
# JSON values

A value keeps what its text says: a number is its literal, and a string is the list of characters
that its escapes stand for, or nothing when they stand for no text (half of a surrogate pair).

* `Value.int?`      the integer that a number literal denotes;
* `Value.fields?`   the members of a record, from an object or from an array;
* `Value.text`      the compact text.
-/

namespace RangeBearing

namespace Json

/-- a JSON value; the names of an object may occur more than once -/
inductive Value where
  | null
  | bool (b : Bool)
  | number (literal : List Char)
  | string (chars : Option (List Char))
  | array (items : List Value)
  | object (members : List (Option (List Char) × Value))

def ofDigits (digits : List Char) : Nat :=
  digits.foldl (fun n c => 10 * n + (c.toNat - '0'.toNat)) 0

namespace Value

/-- a number literal that denotes an integer: no fraction, no exponent, and no negative zero -/
def int? : Value → Option Int
  | number ('-' :: digits) =>
    if digits.all Char.isDigit && digits != ['0'] then some (-(ofDigits digits : Int)) else none
  | number digits => if digits.all Char.isDigit then some (ofDigits digits) else none
  | _ => none

def intIn? (lo hi : Int) (v : Value) : Option Int := do
  let i ← v.int?
  if lo ≤ i ∧ i ≤ hi then some i else none

/-- the items of an array of a known length -/
def items? (n : Nat) : Value → Option (List Value)
  | array items => if items.length = n then some items else none
  | _ => none

/-- the only member with a name -/
def member? (name : String) (members : List (Option (List Char) × Value)) : Option Value :=
  match members.filter fun m => m.1 = some name.toList with
  | [m] => some m.2
  | _ => none

/-- the members of a record in the order of their names: from an object, where they stand in any
order among others but each once, or from an array of just these members -/
def fields? (names : List String) : Value → Option (List Value)
  | object members =>
    if members.all fun m => m.1.isSome then names.mapM fun name => member? name members else none
  | v => v.items? names.length

/-! ## compact text -/

def ofInt (i : Int) : Value :=
  number <| if i < 0 then '-' :: Nat.toDigits 10 i.natAbs else Nat.toDigits 10 i.natAbs

def ofString (s : String) : Value := string (some s.toList)

/-- an object with named members -/
def record (members : List (String × Value)) : Value :=
  object (members.map fun m => (some m.1.toList, m.2))

/-- a character inside a string -/
def escape (c : Char) : List Char :=
  if c = '"' ∨ c = '\\' then ['\\', c]
  else if c.toNat < 32 then
    ['\\', 'u', '0', '0', Nat.digitChar (c.toNat / 16), Nat.digitChar (c.toNat % 16)]
  else [c]

/-- a string between quotes; half of a surrogate pair stands for one that is no text -/
def quote : Option (List Char) → List Char
  | some cs => '"' :: (cs.flatMap escape ++ ['"'])
  | none => ['"', '\\', 'u', 'd', '8', '0', '0', '"']

mutual

/-- the text of a value, without blanks -/
def text : Value → List Char
  | null => ['n', 'u', 'l', 'l']
  | bool true => ['t', 'r', 'u', 'e']
  | bool false => ['f', 'a', 'l', 's', 'e']
  | number literal => literal
  | string chars => quote chars
  | array [] => ['[', ']']
  | array (v :: vs) => '[' :: (v.text ++ itemsText vs)
  | object [] => ['\x7b', '\x7d']
  | object ((k, v) :: ms) => '\x7b' :: (quote k ++ ':' :: (v.text ++ membersText ms))

/-- the items after the first one, up to the end of the array -/
def itemsText : List Value → List Char
  | [] => [']']
  | v :: vs => ',' :: (v.text ++ itemsText vs)

/-- the members after the first one, up to the end of the object -/
def membersText : List (Option (List Char) × Value) → List Char
  | [] => ['\x7d']
  | (k, v) :: ms => ',' :: (quote k ++ ':' :: (v.text ++ membersText ms))

end

end Value

end Json

end RangeBearing
