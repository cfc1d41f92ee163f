namespace GraphSync

/-- A 64-bit floating-point number: sign, 11 bits of exponent, 52 bits of fraction. -/
structure Binary64 where
  bits : UInt64
  deriving DecidableEq

namespace Binary64

/-- The weight of the lowest exponent bit; the fraction takes the 52 bits below it. -/
def hiddenBit : Nat := 0x10000000000000

def negative (x : Binary64) : Bool := decide (2048 * hiddenBit ≤ x.bits.toNat)

/-- The stored exponent, 0 for zero and subnormal numbers, 2047 for infinities and NaNs. -/
def exponentField (x : Binary64) : Nat := x.bits.toNat / hiddenBit % 2048

def fraction (x : Binary64) : Nat := x.bits.toNat % hiddenBit

def isNaN (x : Binary64) : Bool := x.exponentField == 2047 && x.fraction != 0

def isInfinite (x : Binary64) : Bool := x.exponentField == 2047 && x.fraction == 0

def isFinite (x : Binary64) : Bool := x.exponentField != 2047

def isZero (x : Binary64) : Bool := x.exponentField == 0 && x.fraction == 0

/-- Numerical equality: a NaN equals nothing, the two zeros equal each other. -/
def same (x y : Binary64) : Bool :=
  !x.isNaN && !y.isNaN && (x == y || x.isZero && y.isZero)

def neg (x : Binary64) : Binary64 := ⟨x.bits ^^^ 0x8000000000000000⟩

def zero : Binary64 := ⟨0⟩

def nan : Binary64 := ⟨0x7ff8000000000000⟩

def infinity : Binary64 := ⟨0x7ff0000000000000⟩

/-- There are two zeros, a negative one and this one. -/
theorem eq_zero {x : Binary64} (h : x.isZero = true) (hn : x.negative = false) : x = zero := by
  simp only [isZero, exponentField, fraction, hiddenBit, Bool.and_eq_true, beq_iff_eq] at h
  have hlt : ¬ 2048 * hiddenBit ≤ x.bits.toNat := of_decide_eq_false hn
  simp only [hiddenBit] at hlt
  have hbits : x.bits.toNat = 0 := by omega
  have hx : x.bits = 0 := UInt64.toNat_inj.mp hbits
  cases x
  exact congrArg mk hx

/-- The integer `m` of a finite number `± m · 2 ^ e`. -/
def significand (x : Binary64) : Nat :=
  if x.exponentField = 0 then x.fraction else x.fraction + hiddenBit

/-- The exponent `e` of a finite number `± m · 2 ^ e`. -/
def exponent (x : Binary64) : Int :=
  if x.exponentField = 0 then -1074 else (x.exponentField : Int) - 1075

/-- Magnitude of a finite number as a fraction. -/
def magnitude (x : Binary64) : Nat × Nat :=
  (x.significand * Nat.pow 2 x.exponent.toNat, Nat.pow 2 (-x.exponent).toNat)

/-- The neighbour that an exact half goes to. -/
inductive Tie where
  | even
  | up
  deriving DecidableEq

/-- The quotient rounded to the nearest integer. -/
def divNearest (tie : Tie) (num den : Nat) : Nat :=
  let q := num / den
  let r := num % den
  if 2 * r < den then q
  else if den < 2 * r then q + 1
  else match tie with
    | .even => q + q % 2
    | .up => q + 1

/-- The greatest `e` with `2 ^ e ≤ num / den`, for positive arguments. -/
def logQuotient (num den : Nat) : Int :=
  let e : Int := (Nat.log2 num : Int) - Nat.log2 den
  if den * Nat.pow 2 e.toNat ≤ num * Nat.pow 2 (-e).toNat then e else e - 1

/-- The number nearest to `num / den`, ties to an even significand; infinity beyond the range. -/
def ofQuotient (num den : Nat) : Binary64 :=
  if num = 0 then zero
  else
    let e : Int := max (logQuotient num den - 52) (-1074)
    let m := divNearest .even (num * Nat.pow 2 (-e).toNat) (den * Nat.pow 2 e.toNat)
    let bits := if m < hiddenBit then m else (e + 1074).toNat * hiddenBit + m
    if bits < 2047 * hiddenBit then ⟨bits.toUInt64⟩ else infinity

def withSign (isNegative : Bool) (x : Binary64) : Binary64 := if isNegative then x.neg else x

def ofNat (n : Nat) : Binary64 := ofQuotient n 1

def ofInt (i : Int) : Binary64 := withSign (i < 0) (ofNat i.natAbs)

/-- The number nearest to `m · 10 ^ e`. The cases beyond either end of the range keep the powers of
ten small. -/
def ofDecimal (m : Nat) (e : Int) : Binary64 :=
  if m = 0 then zero
  else if 310 < e then infinity
  else if (Nat.log2 m : Int) + 3 * e < -1080 then zero
  else ofQuotient (m * Nat.pow 10 e.toNat) (Nat.pow 10 (-e).toNat)

/-- The rounded product of two non-negative finite numbers. -/
def mulMagnitude (x y : Binary64) : Binary64 :=
  ofQuotient (x.magnitude.1 * y.magnitude.1) (x.magnitude.2 * y.magnitude.2)

/-- The rounded quotient of two non-negative finite numbers, the second one not zero. -/
def divMagnitude (x y : Binary64) : Binary64 :=
  ofQuotient (x.magnitude.1 * y.magnitude.2) (x.magnitude.2 * y.magnitude.1)

end Binary64

end GraphSync
