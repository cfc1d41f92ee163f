import GraphSync.Json.Basic
import GraphSync.Text.Digits

namespace GraphSync.Json

/-- A number word, taken apart. The exponent is absent or signed. -/
structure NumberWord where
  negative : Bool
  whole : List Char
  fraction : Option (List Char)
  exponent : Option (Bool × List Char)

/-- Appends digits to a number as long as it stays below `2 ^ 64`; returns the digits that no longer
fit. -/
def absorb (n : Nat) : List Char → Nat × List Char
  | [] => (n, [])
  | c :: rest =>
    let n' := 10 * n + (Text.digit? c).getD 0
    if n' < UInt64.size then absorb n' rest else (n, c :: rest)

def powerOfTen (k : Nat) : Binary64 := Binary64.ofDecimal 1 k

/-- Divides by `10 ^ k`, in steps of at most 308 places. -/
def scaleDown (x : Binary64) (k : Nat) : Binary64 :=
  if k ≤ 308 then x.divMagnitude (powerOfTen k)
  else if x.isZero then x
  else scaleDown (x.divMagnitude (powerOfTen 308)) (k - 308)
termination_by k

/-- `n · 10 ^ e`; nothing if that is beyond the range. -/
def scale? (n : Nat) (e : Int) : Option Binary64 :=
  let x := Binary64.ofNat n
  if e < 0 then some (scaleDown x e.natAbs)
  else if 308 < e then if x.isZero then some x else none
  else
    let y := x.mulMagnitude (powerOfTen e.toNat)
    if y.isInfinite then none else some y

namespace NumberWord

/-- The exponent that is written, cut off where it is beyond any range. -/
def writtenExponent (w : NumberWord) : Int :=
  match w.exponent with
  | none => 0
  | some (negative, digits) =>
    let e : Int := min (Text.number 10 digits) UInt32.size
    if negative then -e else e

/-- The leading digits as a number, and the power of ten that belongs to them. -/
def leading (w : NumberWord) : Nat × Int :=
  let (n, dropped) := absorb 0 w.whole
  match w.fraction with
  | none => (n, dropped.length)
  | some digits =>
    let (n, unread) := absorb n digits
    (n, (dropped.length : Int) - (digits.length - unread.length : Nat))

def magnitude? (w : NumberWord) : Option Binary64 :=
  let (n, e) := w.leading
  scale? n (e + w.writtenExponent)

/-- The integer of a word without point and exponent, if it fits into 64 bits. A zero with a minus
sign is none. -/
def integer? (w : NumberWord) : Option Int :=
  let (n, unread) := absorb 0 w.whole
  if w.fraction.isSome || w.exponent.isSome || !unread.isEmpty then none
  else if !w.negative then some n
  else if 0 < n && n ≤ Int64.minValue.toInt.natAbs then some (-n)
  else none

def toJson (w : NumberWord) : Json :=
  match w.integer?, w.magnitude? with
  | some n, _ => int n
  | none, some x => float (Binary64.withSign w.negative x)
  | none, none => unreadable

end NumberWord

/-- Reads a minus sign, if there is one. -/
def readMinus : List Char → Bool × List Char
  | '-' :: rest => (true, rest)
  | cs => (false, cs)

/-- Reads the point and the digits behind it, if there is a point. -/
def readFraction? : List Char → Option (Option (List Char) × List Char)
  | '.' :: rest => do
    let (digits, rest) := Text.spanDecimal rest
    guard (digits ≠ [])
    return (some digits, rest)
  | cs => some (none, cs)

/-- Reads the sign of an exponent, if there is one. -/
def readSign : List Char → Bool × List Char
  | '-' :: rest => (true, rest)
  | '+' :: rest => (false, rest)
  | cs => (false, cs)

def isExponent (c : Char) : Bool := c == 'e' || c == 'E'

/-- Reads an exponent, if there is one. -/
def readExponent? : List Char → Option (Option (Bool × List Char) × List Char)
  | [] => some (none, [])
  | c :: rest =>
    if isExponent c then do
      let (down, rest) := readSign rest
      let (digits, rest) := Text.spanDecimal rest
      guard (digits ≠ [])
      return (some (down, digits), rest)
    else some (none, c :: rest)

/-- Reads a number word: no leading zeros, digits on both sides of the point. -/
def readNumber? (cs : List Char) : Option (NumberWord × List Char) := do
  let (negative, cs) := readMinus cs
  let (whole, cs) := Text.spanDecimal cs
  guard (whole ≠ [] ∧ (whole.head? = some '0' → whole.length = 1))
  let (fraction, cs) ← readFraction? cs
  let (exponent, rest) ← readExponent? cs
  return (⟨negative, whole, fraction, exponent⟩, rest)

end GraphSync.Json
