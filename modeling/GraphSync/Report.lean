import GraphSync.Correspondence.Basic

namespace GraphSync

/-- Both attributes of a binding changed since they were last in step. -/
structure Conflict where
  correspondence : CorrespondenceId
  rule : RuleName
  elements : Sided ElementId
  attributes : Sided AttributeName
  values : Sided Value
  deriving DecidableEq

/-- The effects of a pass, counted by kind. -/
structure Report where
  elementsCreated : Nat := 0
  pairsCreated : Nat := 0
  pairsReleased : Nat := 0
  attributesUpdated : Nat := 0
  referencesLinked : Nat := 0
  referencesUnlinked : Nat := 0
  conflicts : List Conflict := []
  deriving DecidableEq

namespace Report

def effects (r : Report) : Nat :=
  r.elementsCreated + r.pairsCreated + r.pairsReleased + r.attributesUpdated + r.referencesLinked +
    r.referencesUnlinked

/-- Did the pass change nothing? -/
def isNoop (r : Report) : Bool := r.effects == 0

/-- A conflict is recorded once for each binding of a correspondence. -/
def addConflict (r : Report) (c : Conflict) : Report :=
  if r.conflicts.any fun k => k.correspondence = c.correspondence ∧
    k.attributes = c.attributes then r
  else { r with conflicts := r.conflicts ++ [c] }

end Report

/-- What became of the queued edits. -/
structure FlushReport where
  applied : Nat := 0
  skipped : Nat := 0
  conflicts : List Conflict := []
  deriving DecidableEq

def FlushReport.isEmpty (r : FlushReport) : Bool :=
  r.applied == 0 && r.skipped == 0 && r.conflicts.isEmpty

end GraphSync
