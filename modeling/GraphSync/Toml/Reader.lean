import GraphSync.Toml.Scalar
import GraphSync.Toml.Table

namespace GraphSync.Toml

namespace Scan

/-- Values nest less deeply than this. -/
def depthLimit : Nat := 80

mutual

/-- Reads a value. `room` counts how many more arrays and tables may open. -/
def value (room : Nat) : Nat → Scan Toml
  | 0 => failure
  | fuel + 1 => do
    let some c ← peek? | failure
    if c = '"' ∨ c = '\'' then return .string (← text c)
    if c = '[' then
      guard (0 < room)
      skip 1
      skipLines fuel
      if ← accept "]" then return .array []
      return .array (← items (room - 1) fuel)
    if c = '\x7b' then
      guard (0 < room)
      skip 1
      skipBlanks
      if ← accept "\x7d" then return .table .inline []
      let lines ← pairs (room - 1) fuel
      let some t := ofInline? lines | failure
      return t
    if c = 't' then
      expect "true"
      return .boolean true
    if c = 'f' then
      expect "false"
      return .boolean false
    numeric

/-- Reads one or more items and the bracket that closes them; a comma may stand before it. -/
def items (room : Nat) : Nat → Scan (List Toml)
  | 0 => failure
  | fuel + 1 => do
    skipLines fuel
    let v ← value room fuel
    skipLines fuel
    if ← accept "," then
      skipLines fuel
      if ← accept "]" then return [v]
      return v :: (← items room fuel)
    expect "]"
    return [v]

/-- Reads one or more pairs and the brace that closes them. -/
def pairs (room : Nat) : Nat → Scan (List Line)
  | 0 => failure
  | fuel + 1 => do
    let (path, k) ← key
    expect "="
    skipBlanks
    let v ← value room fuel
    skipBlanks
    if ← accept "," then return ⟨path, k, v⟩ :: (← pairs room fuel)
    expect "\x7d"
    return [⟨path, k, v⟩]

end

/-- A line that opens a table, or a line that fills one. -/
inductive Statement where
  | header (isItem : Bool) (path : List String) (key : String)
  | line (l : Line)

def header : Scan Statement := do
  let isItem ← accept "[["
  unless isItem do expect "["
  let (path, k) ← key
  expect (if isItem then "]]" else "]")
  restOfLine
  return .header isItem path k

def keyValue : Scan Statement := do
  let (path, k) ← key
  expect "="
  skipBlanks
  let v ← value (depthLimit - 1) (2 * (← get).length + 2)
  restOfLine
  return .line ⟨path, k, v⟩

/-- Reads the statements of a document. -/
def statements : Nat → Scan (List Statement)
  | 0 => failure
  | fuel + 1 => do
    skipBlanks
    let some c ← peek? | return []
    if c = '#' then
      skipComment
      lineEnd
      statements fuel
    else if c = '\n' ∨ c = '\r' then
      newline
      statements fuel
    else
      let s ← if c = '[' then header else keyValue
      return s :: (← statements fuel)

end Scan

/-- The lines before the first header, and the sections. -/
def sections : List Scan.Statement → List Line × List Section
  | [] => ([], [])
  | .line l :: rest =>
    let (lines, ss) := sections rest
    (l :: lines, ss)
  | .header isItem path key :: rest =>
    let (lines, ss) := sections rest
    ([], ⟨isItem, path, key, lines⟩ :: ss)

/-- Reads a document; a byte order mark at its start is skipped. -/
def parse? (source : String) : Option Toml := do
  let cs := source.toList
  let cs := if cs.head? = some '\ufeff' then cs.drop 1 else cs
  let (ss, rest) ← Scan.statements (cs.length + 1) |>.run cs
  guard (rest = [])
  let (lines, opened) := sections ss
  ofSections? lines opened

end GraphSync.Toml
