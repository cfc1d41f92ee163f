import GraphSync.Binary64.Shortest

namespace GraphSync

namespace Toml

/-- How a table came to be. -/
inductive Origin where
  /-- Written between braces; nothing can be added to it. -/
  | inline
  /-- Opened by a header of its own. -/
  | header
  /-- Needed by the header of a table below it; a header of its own may still come. -/
  | parent
  /-- Made by a dotted key. -/
  | dotted
  deriving DecidableEq

end Toml

inductive Toml where
  | string (s : String)
  | integer (n : Int)
  | float (x : Binary64)
  | boolean (b : Bool)
  /-- A date, a time or both; their parts are not kept. -/
  | dateTime
  | array (items : List Toml)
  /-- Tables opened one by one by headers in double brackets. -/
  | tables (items : List Toml)
  | table (origin : Toml.Origin) (entries : List (String × Toml))

end GraphSync
