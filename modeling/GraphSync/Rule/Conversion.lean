import GraphSync.Rule.Basic

namespace GraphSync

/-- What a value becomes on either side. -/
abbrev Conversion := Sided (Value → Value)

namespace Conversion

/-- A flag on the left counts as one or no token on the right. -/
def tokens : Conversion where
  right v := .int (if v.asBool? = some true then 1 else 0)
  left v := .bool (match v.asInt? with
    | some n => 0 < n
    | none => false)

def negateValue : Value → Value
  | .bool b => .bool !b
  | .int n => .int (-n)
  | .float x => .float x.neg
  | v => v

/-- The opposite flag or number; the least integer stays as it is. -/
def negate : Conversion := ⟨negateValue, negateValue⟩

def marker : String := "L:"

/-- Text carries a marker on the right. -/
def marked : Conversion where
  right
    | .text s => .text (marker ++ s)
    | v => v
  left
    | .text s => match marker.toList.isPrefixOf? s.toList with
      | some rest => .text (String.ofList rest)
      | none => .text s
    | v => v

/-- A decimal integer with an optional sign, in the 64-bit range. -/
def readInt? (s : String) : Option Int64 :=
  let (negative, ds) := match s.toList with
    | '-' :: rest => (true, rest)
    | '+' :: rest => (false, rest)
    | cs => (false, cs)
  if ds = [] ∨ !ds.all Char.isDigit then none
  else
    let n : Int := ds.foldl (fun n c => 10 * n + (c.toNat - '0'.toNat)) 0
    let i := if negative then -n else n
    if Int64.minValue.toInt ≤ i ∧ i ≤ Int64.maxValue.toInt then some (Int64.ofInt i) else none

/-- The right side shows the value; integers are read back from it. -/
def shown : Conversion where
  right v := .text v.display
  left
    | .text s => match readInt? s with
      | some n => .int n
      | none => .text s
    | v => v

/-- Neither side accepts a value. -/
def clear : Conversion := ⟨fun _ => .unset, fun _ => .unset⟩

/-- The right side is not a number, whatever the left side is. -/
def notANumber : Conversion where
  right _ := .float .nan
  left v := v

/-- ASCII letters are capitals on the right. -/
def upper : Conversion where
  right
    | .text s => .text s.toUpper
    | v => v
  left v := v

def named? : String → Option Conversion
  | "tokens" => some tokens
  | "negate" => some negate
  | "prefix" => some marked
  | "show" => some shown
  | "clear" => some clear
  | "nan" => some notANumber
  | "upper" => some upper
  | _ => none

end Conversion

end GraphSync
