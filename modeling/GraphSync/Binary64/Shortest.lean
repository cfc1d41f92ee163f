import GraphSync.Binary64.Basic

namespace GraphSync.Binary64

/-- A decimal `± digits · 10 ^ exponent`, without trailing zeros in `digits`. -/
structure Decimal where
  digits : Nat
  exponent : Int
  deriving DecidableEq

/-- The numbers that round to `x`, over one denominator: lower end, `x` itself, upper end. Below a
power of two the spacing halves. -/
structure Basin where
  low : Nat
  mid : Nat
  high : Nat
  den : Nat
  closed : Bool

def basin (x : Binary64) : Basin :=
  let m := x.significand
  let up := Nat.pow 2 x.exponent.toNat
  let den := 4 * Nat.pow 2 (-x.exponent).toNat
  let below := if m = hiddenBit ∧ 1 < x.exponentField then 1 else 2
  ⟨(4 * m - below) * up, 4 * m * up, (4 * m + 2) * up, den, m % 2 == 0⟩

/-- Does `n · 10 ^ k` round to the number of this basin? -/
def Basin.contains (b : Basin) (n : Nat) (k : Int) : Bool :=
  let value := n * b.den * Nat.pow 10 k.toNat
  let scale := Nat.pow 10 (-k).toNat
  let low := b.low * scale
  let high := b.high * scale
  if b.closed then low ≤ value && value ≤ high else low < value && value < high

/-- The grid point of step `10 ^ k` inside the basin that lies nearest to its number. -/
def Basin.onGrid? (b : Basin) (tie : Tie) (k : Int) : Option Nat :=
  let num := b.mid * Nat.pow 10 (-k).toNat
  let den := b.den * Nat.pow 10 k.toNat
  let n := num / den
  match b.contains n k && n != 0, b.contains (n + 1) k with
  | true, true => some (divNearest tie num den)
  | true, false => some n
  | false, true => some (n + 1)
  | false, false => none

/-- Moves trailing zeros of the digits into the exponent; `fuel` bounds their number. -/
def Decimal.normalize : Nat → Nat → Int → Decimal
  | fuel + 1, n, k => if n ≠ 0 ∧ n % 10 = 0 then normalize fuel (n / 10) (k + 1) else ⟨n, k⟩
  | 0, n, k => ⟨n, k⟩

/-- The first hit on the grids of step `10 ^ k`, `10 ^ (k - 1)`, …, at most `fuel` of them. -/
def Basin.search (b : Basin) (tie : Tie) : Nat → Int → Option Decimal
  | 0, _ => none
  | fuel + 1, k =>
    match b.onGrid? tie k with
    | some n => some (Decimal.normalize 20 n k)
    | none => b.search tie fuel (k - 1)

/-- A power of ten that is at least a tenth of `num / den`, and at most a hundred times it. -/
def decimalMagnitude (num den : Nat) : Int :=
  let e := logQuotient num den
  e * 30103 / 100000 + 1

/-- The shortest decimal that rounds to the magnitude of a finite number, the nearest one of
several. -/
def shortest (tie : Tie) (x : Binary64) : Decimal :=
  if x.isZero then ⟨0, 0⟩
  else
    let b := x.basin
    (b.search tie 25 (decimalMagnitude b.mid b.den)).getD ⟨0, 0⟩

/-- The digits of a decimal in positional notation, without exponent. -/
def Decimal.positional (d : Decimal) : String :=
  let digits := toString d.digits
  if 0 ≤ d.exponent then digits ++ "".pushn '0' d.exponent.toNat
  else
    let places := (-d.exponent).toNat
    let padded := "".pushn '0' (places + 1 - digits.length) ++ digits
    let whole := padded.length - places
    (padded.take whole).toString ++ "." ++ (padded.drop whole).toString

/-- Positional notation with the fewest digits, the greater ones if two are equally near; a whole
number has no point, and zero keeps its sign. -/
def display (x : Binary64) : String :=
  if x.isNaN then "NaN"
  else
    let magnitude := if x.isInfinite then "inf" else (x.shortest .up).positional
    if x.negative then "-" ++ magnitude else magnitude

end GraphSync.Binary64
