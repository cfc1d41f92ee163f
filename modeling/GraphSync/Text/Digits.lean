namespace GraphSync.Text

/-- The value of a hexadecimal digit, in either case. -/
def digit? (c : Char) : Option Nat :=
  if '0' ≤ c ∧ c ≤ '9' then some (c.toNat - '0'.toNat)
  else if 'a' ≤ c ∧ c ≤ 'f' then some (c.toNat - 'a'.toNat + 10)
  else if 'A' ≤ c ∧ c ≤ 'F' then some (c.toNat - 'A'.toNat + 10)
  else none

def isDecimal (c : Char) : Bool := decide ('0' ≤ c ∧ c ≤ '9')

/-- The digits at the front of a text, and the rest. -/
def spanDecimal (cs : List Char) : List Char × List Char := cs.span isDecimal

/-- The number that digits stand for in a base. -/
def number (base : Nat) (cs : List Char) : Nat :=
  cs.foldl (fun n c => base * n + (digit? c).getD 0) 0

/-- The code point that hexadecimal digits name, unless it is a surrogate or beyond the last one. -/
def codePoint? (n : Nat) : Option Char :=
  if h : n.isValidChar then some (Char.ofNatAux n h) else none

/-- Reads exactly `n` hexadecimal digits. -/
def takeHex? (n : Nat) (cs : List Char) : Option (Nat × List Char) :=
  let (word, rest) := cs.splitAt n
  if word.length = n ∧ word.all (fun c => (digit? c).isSome) then
    some (number 16 word, rest) else none

end GraphSync.Text
