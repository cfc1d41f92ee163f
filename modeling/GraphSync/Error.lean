import GraphSync.Graph.Basic
import GraphSync.Report
import GraphSync.Rule.Set

namespace GraphSync

inductive Error where
  | rule (e : RuleError)
  | graph (e : GraphError)
  | pairConflict (c : PairConflict)
  /-- Double edits that the caller wanted to see as a failure. -/
  | inconsistent (first : Conflict) (rest : List Conflict)
  | invalidDirection (text : String)
  | invalidPropagation (text : String)
  /-- Rules were still being applied when the bound on their nesting was reached. -/
  | tooDeep
  deriving DecidableEq

def Error.message : Error → String
  | rule e => e.message
  | graph e => e.message
  | pairConflict c => c.message
  | inconsistent c rest =>
    toString (rest.length + 1) ++ " synchronization conflict(s), first on " ++ c.rule ++ " (" ++
      c.elements.left.label ++ ", " ++ c.elements.right.label ++ ")"
  | invalidDirection text => "Invalid direction: " ++ text
  | invalidPropagation text => "Invalid propagation mode: " ++ text
  | tooDeep => "Rule applications are nested too deeply"

/-- Fails if there is a conflict. -/
def ensureConsistent : List Conflict → Except Error Unit
  | [] => .ok ()
  | c :: rest => .error (.inconsistent c rest)

def Direction.parse (s : String) : Except Error Direction :=
  match parse? s with
  | some d => .ok d
  | none => .error (.invalidDirection s)

def Propagation.parse (s : String) : Except Error Propagation :=
  match parse? s with
  | some p => .ok p
  | none => .error (.invalidPropagation s)

end GraphSync
