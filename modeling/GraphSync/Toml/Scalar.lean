import GraphSync.Toml.Scan

namespace GraphSync.Toml.Scan

/-- Digits with single underscores between them; the underscores are left out. -/
def digits (isDigit : Char → Bool) : Scan (List Char) := do
  guard (← nextIs isDigit)
  more (← get).length
where
  more : Nat → Scan (List Char)
    | 0 => return []
    | fuel + 1 => do
      if ← nextIs isDigit then
        let c :: rest ← get | failure
        set rest
        return c :: (← more fuel)
      if ← accept "_" then
        guard (← nextIs isDigit)
        more fuel
      else return []

/-- A sign, if there is one; a minus gives `true`. -/
def sign : Scan Bool := do
  if ← accept "-" then return true
  let _ ← accept "+"
  return false

/-- An integer in the 64-bit range. -/
def inRange (n : Int) : Scan Toml := do
  guard (Int64.minValue.toInt ≤ n ∧ n ≤ Int64.maxValue.toInt)
  return .integer n

/-- The digits of an integer in another base, after its mark. -/
def based (base : Nat) : Scan Toml := do
  skip 2
  let ds ← digits fun c => (Text.digit? c).any (· < base)
  inRange (Text.number base ds)

/-- The exponent of a float, if there is one. -/
def exponent : Scan (Option Int) := do
  if ← nextIs fun c => c = 'e' ∨ c = 'E' then
    skip 1
    let down ← sign
    let e : Int := Text.number 10 (← digits Text.isDecimal)
    return some (if down then -e else e)
  return none

/-- A number, after its sign. A positive float may not be too large. -/
def unsigned (negative : Bool) : Scan Toml := do
  if ← accept "inf" then return .float (Binary64.withSign negative .infinity)
  if ← accept "nan" then return .float (Binary64.withSign negative .nan)
  let whole ← if ← accept "0" then pure ['0'] else digits Text.isDecimal
  let fraction ← if ← accept "." then some <$> digits Text.isDecimal else pure none
  let power ← exponent
  if fraction.isNone && power.isNone then
    let n : Int := Text.number 10 whole
    inRange (if negative then -n else n)
  else
    let places := fraction.getD []
    let x := Binary64.ofDecimal (Text.number 10 (whole ++ places)) (power.getD 0 - places.length)
    guard (negative ∨ !x.isInfinite)
    return .float (Binary64.withSign negative x)

/-- A number of exactly `n` digits between two bounds. -/
def part (n low high : Nat) : Scan Nat := do
  let ds := (← get).take n
  guard (ds.length = n ∧ ds.all Text.isDecimal)
  skip n
  let v := Text.number 10 ds
  guard (low ≤ v ∧ v ≤ high)
  return v

def daysIn (year month : Nat) : Nat :=
  if month = 2 then
    if year % 4 = 0 ∧ (year % 100 ≠ 0 ∨ year % 400 = 0) then 29 else 28
  else if month = 4 ∨ month = 6 ∨ month = 9 ∨ month = 11 then 30
  else 31

def date : Scan Unit := do
  let year ← part 4 0 9999
  expect "-"
  let month ← part 2 1 12
  expect "-"
  let _ ← part 2 1 (daysIn year month)

def timeOfDay : Scan Unit := do
  let _ ← part 2 0 23
  expect ":"
  let _ ← part 2 0 59
  expect ":"
  let _ ← part 2 0 60
  if ← accept "." then
    let places ← takeWhile Text.isDecimal
    guard (places ≠ [])

/-- The distance from universal time, if it is given. -/
def offset : Scan Unit := do
  if ← nextIs fun c => c = 'Z' ∨ c = 'z' then skip 1
  else if ← nextIs fun c => c = '+' ∨ c = '-' then
    skip 1
    let _ ← part 2 0 23
    expect ":"
    let _ ← part 2 0 59

/-- How many digits stand at the front, and what follows them? -/
def leadsWith (n : Nat) (mark : Char) : Scan Bool := do
  let (ds, rest) := Text.spanDecimal (← get)
  return ds.length = n && rest.head? = some mark

/-- A date with an optional time, which a blank or a `T` sets apart. -/
def dateTime : Scan Toml := do
  date
  let rest ← get
  let followed := match rest with
    | c :: a :: b :: _ => (c == 'T' || c == 't' || c == ' ') && Text.isDecimal a && Text.isDecimal b
    | _ => false
  if followed then
    skip 1
    timeOfDay
    offset
  return .dateTime

/-- A date, a time or a number. -/
def numeric : Scan Toml := do
  if ← leadsWith 4 '-' then dateTime
  else if ← leadsWith 2 ':' then
    timeOfDay
    return .dateTime
  else if ← startsWith "0x" then based 16
  else if ← startsWith "0o" then based 8
  else if ← startsWith "0b" then based 2
  else
    let negative ← sign
    unsigned negative

end GraphSync.Toml.Scan
