import GraphSync.Text.Digits
import GraphSync.Toml.Basic

namespace GraphSync.Toml

/-- A reader takes its word off the text, or fails. -/
abbrev Scan (α : Type) := StateT (List Char) Option α

namespace Scan

def startsWith (word : String) : Scan Bool := return word.toList.isPrefixOf (← get)

def skip (n : Nat) : Scan Unit := modify (·.drop n)

def expect (word : String) : Scan Unit := do
  guard (← startsWith word)
  skip word.length

/-- Takes a word off if it is there. -/
def accept (word : String) : Scan Bool := do
  if ← startsWith word then
    skip word.length
    return true
  return false

def takeWhile (p : Char → Bool) : Scan (List Char) := do
  let (taken, rest) := (← get).span p
  set rest
  return taken

/-- The next character, left where it is. -/
def peek? : Scan (Option Char) := return (← get).head?

def nextIs (p : Char → Bool) : Scan Bool := return (← get).head?.any p

def isBlank (c : Char) : Bool := c == ' ' || c == '\t'

def skipBlanks : Scan Unit := do let _ ← takeWhile isBlank

/-- May the character stand in a comment? Controls other than the tab may not. -/
def isPlain (c : Char) : Bool := c == '\t' || ' ' ≤ c && c ≤ '~' || 128 ≤ c.toNat

def atLineEnd : Scan Bool := return (← startsWith "\n") || (← startsWith "\r\n")

/-- A line feed, with or without a carriage return before it. -/
def newline : Scan Unit := do
  unless ← accept "\n" do expect "\r\n"

def skipComment : Scan Unit := do
  if ← accept "#" then let _ ← takeWhile isPlain

/-- The end of a line, or of the text. -/
def lineEnd : Scan Unit := do
  unless (← get).isEmpty do newline

/-- What may follow a statement on its line. -/
def restOfLine : Scan Unit := do
  skipBlanks
  skipComment
  lineEnd

/-- Blanks, comments and line ends, as between the items of an array. -/
def skipLines : Nat → Scan Unit
  | 0 => skipBlanks
  | fuel + 1 => do
    skipBlanks
    if ← startsWith "#" then
      skipComment
      newline
      skipLines fuel
    else if ← atLineEnd then
      newline
      skipLines fuel

/-- The character that an escape stands for; the backslash is taken off already. -/
def escaped : Scan Char := do
  let c :: rest ← get | failure
  set rest
  let point (n : Nat) : Scan Char := do
    let some (v, rest) := Text.takeHex? n (← get) | failure
    set rest
    let some c := Text.codePoint? v | failure
    return c
  match c with
  | 'b' => return '\x08'
  | 't' => return '\t'
  | 'n' => return '\n'
  | 'f' => return '\x0c'
  | 'r' => return '\r'
  | '"' => return '"'
  | '\\' => return '\\'
  | 'u' => point 4
  | 'U' => point 8
  | _ => failure

/-- The rest of a string on one line, up to its closing mark. Only a string in double marks has
escapes. -/
def shortString (mark : Char) : Nat → Scan (List Char)
  | 0 => failure
  | fuel + 1 => do
    let c :: rest ← get | failure
    set rest
    if c = mark then return []
    if c = '\\' ∧ mark = '"' then
      let e ← escaped
      return e :: (← shortString mark fuel)
    guard (isPlain c)
    return c :: (← shortString mark fuel)

/-- Blanks and line ends. -/
def skipEmptyLines : Nat → Scan Unit
  | 0 => skipBlanks
  | fuel + 1 => do
    skipBlanks
    if ← atLineEnd then
      newline
      skipEmptyLines fuel

/-- Takes off a line break that a backslash hides, with the blanks and empty lines after it. -/
def hiddenBreak : Scan Bool := do
  let before ← get
  skip 1
  skipBlanks
  if ← atLineEnd then
    skipEmptyLines before.length
    return true
  set before
  return false

/-- The rest of a string over several lines. One or two marks in a row belong to it; of three to
five the last three close it. -/
def longString (mark : Char) : Nat → Scan (List Char)
  | 0 => failure
  | fuel + 1 => do
    if ← nextIs (· = mark) then
      let marks ← takeWhile (· = mark)
      guard (marks.length ≤ 5)
      if 3 ≤ marks.length then return List.replicate (marks.length - 3) mark
      return marks ++ (← longString mark fuel)
    if ← atLineEnd then
      newline
      return '\n' :: (← longString mark fuel)
    if mark = '"' then
      if ← startsWith "\\" then
        if ← hiddenBreak then return ← longString mark fuel
        skip 1
        let e ← escaped
        return e :: (← longString mark fuel)
    let c :: rest ← get | failure
    guard (isPlain c)
    set rest
    return c :: (← longString mark fuel)

/-- A string in a kind of marks, on one line. -/
def shortText (mark : Char) : Scan String := do
  expect (String.singleton mark)
  return String.ofList (← shortString mark ((← get).length + 1))

/-- A string in a kind of marks, on one line or over several. -/
def text (mark : Char) : Scan String := do
  if ← accept (String.ofList [mark, mark, mark]) then
    if ← atLineEnd then newline
    return String.ofList (← longString mark ((← get).length + 1))
  shortText mark

def isKeyChar (c : Char) : Bool := c.isAlphanum || c == '-' || c == '_'

def simpleKey : Scan String := do
  match ← peek? with
  | some '"' => shortText '"'
  | some '\'' => shortText '\''
  | _ =>
    let word ← takeWhile isKeyChar
    guard (word ≠ [])
    return String.ofList word

/-- Keys joined by dots, with blanks around each. -/
def dottedKey : Nat → Scan (List String)
  | 0 => failure
  | fuel + 1 => do
    skipBlanks
    let k ← simpleKey
    skipBlanks
    if ← accept "." then return k :: (← dottedKey fuel)
    return [k]

/-- A key has fewer than 80 parts; the last one is set apart. -/
def key : Scan (List String × String) := do
  let parts ← dottedKey 79
  let some k := parts.getLast? | failure
  return (parts.dropLast, k)

end Scan

end GraphSync.Toml
