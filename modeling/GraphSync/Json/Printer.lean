import GraphSync.Json.Basic

namespace GraphSync.Json

/-- Two lower-case hexadecimal digits. -/
def hexByte (n : Nat) : List Char :=
  [Nat.digitChar (n / 16 % 16), Nat.digitChar (n % 16)]

def escape (c : Char) : List Char :=
  if c = '"' then ['\\', '"']
  else if c = '\\' then ['\\', '\\']
  else if c = '\n' then ['\\', 'n']
  else if c = '\r' then ['\\', 'r']
  else if c = '\t' then ['\\', 't']
  else if c = '\x08' then ['\\', 'b']
  else if c = '\x0c' then ['\\', 'f']
  else if c.toNat < 32 then ['\\', 'u', '0', '0'] ++ hexByte c.toNat
  else [c]

def quote (s : String) : String := String.ofList ('"' :: s.toList.flatMap escape ++ ['"'])

/-- A float with the fewest digits, the even ones if two are equally near: positional from `1e-5` up
to `1e16`, with an exponent beyond; a number without fraction ends in `.0`. What is not a number has
no JSON form and becomes `null`. -/
def floatText (x : Binary64) : String :=
  if !x.isFinite then "null"
  else
    let d := x.shortest .even
    let digits := toString d.digits
    let point : Int := digits.length + d.exponent
    let body :=
      if 0 ≤ d.exponent ∧ point ≤ 16 then d.positional ++ ".0"
      else if -5 < point ∧ point ≤ 16 then d.positional
      else
        let lead := (digits.take 1).toString
        let tail := (digits.drop 1).toString
        let mantissa := if tail = "" then lead else lead ++ "." ++ tail
        mantissa ++ "e" ++ toString (point - 1)
    if x.negative then "-" ++ body else body

mutual

def render : Json → String
  | null => "null"
  | bool b => if b then "true" else "false"
  | int n => toString n
  | float x => floatText x
  | string s => quote s
  | array items => "[" ++ ",".intercalate (renderItems items) ++ "]"
  | object members => "\x7b" ++ ",".intercalate (renderMembers members) ++ "\x7d"
  | unreadable => "null"

def renderItems : List Json → List String
  | [] => []
  | j :: rest => j.render :: renderItems rest

def renderMembers : List (String × Json) → List String
  | [] => []
  | (k, j) :: rest => (quote k ++ ":" ++ j.render) :: renderMembers rest

end

end GraphSync.Json
