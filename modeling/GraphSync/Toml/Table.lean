import GraphSync.Toml.Basic

namespace GraphSync.Toml

abbrev Entries := List (String × Toml)

/-- Changes what is stored under a key; a new key goes to the end. -/
def alter (k : String) (f : Option Toml → Option Toml) : Entries → Option Entries
  | [] => return [(k, ← f none)]
  | (k', t) :: rest => do
    if k' = k then return (k', ← f (some t)) :: rest
    else return (k', t) :: (← alter k f rest)

/-- Changes the last item of a list. -/
def alterLast (f : Toml → Option Toml) : List Toml → Option (List Toml)
  | [] => none
  | [t] => return [← f t]
  | t :: rest => return t :: (← alterLast f rest)

/-- Changes the table at the end of a path, making the tables on the way. The path of a dotted key
passes no table that has a header of its own; in a list of tables the last one is meant. -/
def descend (byDots : Bool) (f : Origin → Entries → Option Entries) :
    List String → Origin → Entries → Option Entries
  | [], origin, entries => f origin entries
  | k :: path, _, entries =>
    alter k (fun
      | none =>
        let origin := if byDots then .dotted else .parent
        return table origin (← descend byDots f path origin [])
      | some (table origin sub) => do
        guard (origin ≠ .inline ∧ !(byDots ∧ origin = .header))
        return table origin (← descend byDots f path origin sub)
      | some (tables items) => return tables (← alterLast
          (fun
            | table origin sub => return table origin (← descend byDots f path origin sub)
            | _ => none)
          items)
      | some _ => none) entries

/-- One `key = value` line; the path holds the parts of the key before the last one. -/
structure Line where
  path : List String
  key : String
  value : Toml

/-- Adds a line to the table it stands in. -/
def addLine (origin : Origin) (entries : Entries) (l : Line) : Option Entries :=
  descend true
    (fun reached entries => do
      guard (l.path = [] ∨ reached = .dotted)
      guard (entries.all (·.1 ≠ l.key))
      return entries ++ [(l.key, l.value)])
    l.path origin entries

def addLines (origin : Origin) (entries : Entries) (ls : List Line) : Option Entries :=
  ls.foldlM (addLine origin) entries

/-- A header and the lines below it. -/
structure Section where
  isItem : Bool
  path : List String
  key : String
  lines : List Line

/-- Adds a table with its lines to the end of its parent. Tables made earlier on the way to others
are taken up. -/
def openTable (s : Section) (entries : Entries) : Option Entries := do
  let (started, others) := entries.partition (·.1 = s.key)
  let base ← match started with
    | [] => some []
    | [(_, table .parent sub)] => some sub
    | _ => none
  return others ++ [(s.key, table .header (← addLines .header base s.lines))]

/-- Adds one more table to a list of tables. -/
def openItem (s : Section) (entries : Entries) : Option Entries := do
  let item := table .header (← addLines .header [] s.lines)
  alter s.key (fun
    | none => some (tables [item])
    | some (tables items) => some (tables (items ++ [item]))
    | some _ => none) entries

def addSection (entries : Entries) (s : Section) : Option Entries :=
  descend false (fun _ es => if s.isItem then openItem s es else openTable s es)
    s.path .header entries

/-- The document of some lines and sections. -/
def ofSections? (lines : List Line) (sections : List Section) : Option Toml := do
  let top ← addLines .header [] lines
  return table .header (← sections.foldlM addSection top)

/-- The table of the lines between braces. -/
def ofInline? (lines : List Line) : Option Toml :=
  return table .inline (← addLines .header [] lines)

end GraphSync.Toml
