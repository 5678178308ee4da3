import RangeBearing.Brightness.Basic
import RangeBearing.CycleState
import RangeBearing.Estimate
import RangeBearing.Json.Reader

/-!
# The published types as JSON

Estimates and matrices are records, written as objects with their members in order; a cycle state
is its name.  Reading also takes a record from an array of its members, and a state from an object
whose only member has the state's name and no value.

* `Codec α`                      writing and reading one type;
* `Codec.write`, `Codec.read?`   the same on texts;
* `Codec.estimate`, `Codec.brightness`, `Codec.cycleState`.
-/

namespace RangeBearing

namespace Json

/-- how the values of a type are written and read -/
structure Codec (α : Type) where
  encode : α → Value
  decode : Value → Option α

namespace Codec

variable {α : Type}

def write (codec : Codec α) (a : α) : String := String.ofList (codec.encode a).text

def read? (codec : Codec α) (text : String) : Option α := parse? text.toList >>= codec.decode

/-! ## integers -/

def uint8? (v : Value) : Option UInt8 := (v.intIn? 0 0xff).map fun i => .ofNat i.toNat
def uint16? (v : Value) : Option UInt16 := (v.intIn? 0 0xffff).map fun i => .ofNat i.toNat
def int16? (v : Value) : Option Int16 := (v.intIn? (-0x8000) 0x7fff).map .ofInt

/-! ## estimates -/

def estimateFields : List String :=
  ["source_id", "range_mm", "bearing_deg", "heading_deg", "confidence"]

def estimate : Codec Estimate where
  encode e := .record <| estimateFields.zip
    [.ofInt e.source.toNat, .ofInt e.rangeMm.toNat, .ofInt e.bearingDeg.toInt,
      .ofInt e.headingDeg.toInt, .ofInt e.confidence.toNat]
  decode v := do
    match ← v.fields? estimateFields with
    | [source, rangeMm, bearingDeg, headingDeg, confidence] =>
      return ⟨← uint16? source, ← uint16? rangeMm, ← int16? bearingDeg, ← int16? headingDeg,
        ← uint8? confidence⟩
    | _ => none

/-! ## matrices -/

/-- six values, each read in the same way -/
def six? {β : Type} (f : Value → Option β) (v : Value) : Option (Table β) := do
  let items ← (← v.items? 6).mapM f
  if h : items.length = 6 then some ⟨items.toArray, h⟩ else none

def brightness : Codec Brightness where
  encode m := .record [("cells", .array <| m.rows.toList.map fun row =>
    .array <| row.toList.map fun reading => .ofInt reading.toInt)]
  decode v := do
    match ← v.fields? ["cells"] with
    | [cells] => return ⟨← six? (six? int16?) cells⟩
    | _ => none

/-! ## states -/

/-- the state with a name -/
def state? (name : Option (List Char)) : Option CycleState :=
  name.bind fun cs => CycleState.ofName? (String.ofList cs)

def cycleState : Codec CycleState where
  encode s := .ofString s.name
  decode
    | .string name => state? name
    | .object [(name, .null)] => state? name
    | _ => none

end Codec

end Json

end RangeBearing
