import GraphSync.Json.Number

namespace GraphSync.Json

def isBlank (c : Char) : Bool := c == ' ' || c == '\t' || c == '\n' || c == '\r'

def skipBlanks (cs : List Char) : List Char := cs.dropWhile isBlank

/-- A unit of text in a string: a character, or half of a surrogate pair that stands alone. -/
abbrev Unit16 := Option Char

/-- Reads what follows `\u`: four digits, or eight with a second `\u` between that complete a
surrogate pair. -/
def readUnicode? (cs : List Char) : Option (Unit16 × List Char) := do
  let (n, rest) ← Text.takeHex? 4 cs
  if n < 0xd800 ∨ 0xe000 ≤ n then return (Text.codePoint? n, rest)
  if 0xdc00 ≤ n then return (none, rest)
  match rest with
  | '\\' :: 'u' :: more =>
    let (m, after) ← Text.takeHex? 4 more
    if 0xdc00 ≤ m ∧ m < 0xe000 then
      return (Text.codePoint? (0x10000 + (n - 0xd800) * 0x400 + (m - 0xdc00)), after)
    return (none, rest)
  | _ => return (none, rest)

/-- The character that a letter after a backslash stands for. -/
def simpleEscape? (c : Char) : Option Char :=
  match c with
  | '"' => some '"'
  | '\\' => some '\\'
  | '/' => some '/'
  | 'b' => some '\x08'
  | 'f' => some '\x0c'
  | 'n' => some '\n'
  | 'r' => some '\r'
  | 't' => some '\t'
  | _ => none

/-- Reads the rest of a string up to its closing quote. -/
def readUnits? : Nat → List Char → Option (List Unit16 × List Char)
  | 0, _ => none
  | _, [] => none
  | _, '"' :: rest => some ([], rest)
  | fuel + 1, '\\' :: 'u' :: rest => do
    let (u, rest) ← readUnicode? rest
    let (us, rest) ← readUnits? fuel rest
    return (u :: us, rest)
  | fuel + 1, '\\' :: c :: rest => do
    let u ← simpleEscape? c
    let (us, rest) ← readUnits? fuel rest
    return (some u :: us, rest)
  | fuel + 1, c :: rest => do
    guard (c ≠ '\\' ∧ 32 ≤ c.toNat)
    let (us, rest) ← readUnits? fuel rest
    return (some c :: us, rest)

/-- Reads the rest of a string; the text is absent if it holds half of a surrogate pair. -/
def readText? (cs : List Char) : Option (Option String × List Char) := do
  let (us, rest) ← readUnits? (cs.length + 1) cs
  return ((us.mapM id).map String.ofList, rest)

def keyword? (word : String) (j : Json) (cs : List Char) : Option (Json × List Char) :=
  (word.toList.isPrefixOf? cs).map fun rest => (j, rest)

/-- The members of an object; without a value if a key has none. -/
def ofMembers (members : List (Option String × Json)) : Json :=
  match members.mapM fun (k, j) => k.map fun k => (k, j) with
  | some ms => object ms
  | none => unreadable

mutual

/-- Reads a value at the front of a text. -/
def readValue? : Nat → List Char → Option (Json × List Char)
  | 0, _ => none
  | fuel + 1, cs =>
    match skipBlanks cs with
    | [] => none
    | '[' :: rest =>
      match skipBlanks rest with
      | ']' :: rest => some (array [], rest)
      | rest => do
        let (items, rest) ← readItems? fuel rest
        return (array items, rest)
    | '\x7b' :: rest =>
      match skipBlanks rest with
      | '\x7d' :: rest => some (object [], rest)
      | rest => do
        let (members, rest) ← readMembers? fuel rest
        return (ofMembers members, rest)
    | '"' :: rest => do
      let (s, rest) ← readText? rest
      return ((s.map string).getD unreadable, rest)
    | 'n' :: rest => keyword? "ull" null rest
    | 't' :: rest => keyword? "rue" (bool true) rest
    | 'f' :: rest => keyword? "alse" (bool false) rest
    | cs => do
      let (w, rest) ← readNumber? cs
      return (w.toJson, rest)

/-- Reads one or more items and the bracket that closes them. -/
def readItems? : Nat → List Char → Option (List Json × List Char)
  | 0, _ => none
  | fuel + 1, cs => do
    let (j, rest) ← readValue? fuel cs
    match skipBlanks rest with
    | ',' :: rest => do
      let (js, rest) ← readItems? fuel rest
      return (j :: js, rest)
    | ']' :: rest => return ([j], rest)
    | _ => none

/-- Reads one or more members and the brace that closes them. -/
def readMembers? : Nat → List Char → Option (List (Option String × Json) × List Char)
  | 0, _ => none
  | fuel + 1, cs => do
    let '"' :: rest := skipBlanks cs | none
    let (k, rest) ← readText? rest
    let ':' :: rest := skipBlanks rest | none
    let (j, rest) ← readValue? fuel rest
    match skipBlanks rest with
    | ',' :: rest => do
      let (ms, rest) ← readMembers? fuel rest
      return ((k, j) :: ms, rest)
    | '\x7d' :: rest => return ([(k, j)], rest)
    | _ => none

end

/-- Reads a whole document. -/
def parse? (text : String) : Option Json := do
  let cs := text.toList
  let (j, rest) ← readValue? (2 * cs.length + 2) cs
  guard ((skipBlanks rest).isEmpty)
  return j

end GraphSync.Json
