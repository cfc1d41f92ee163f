import GraphSync.Error

namespace GraphSync

/-- What a walk changes step by step. What it did before an error stays done, so the state is kept
on both outcomes. -/
structure Walk.State where
  graphs : Sided Graph
  pairs : Correspondences
  /-- Pairs whose rule was applied already. -/
  visited : List CorrespondenceId := []
  /-- Deleted elements whose pairs are still to be dropped. -/
  deleted : List (Side × ElementId) := []
  report : Report := {}

abbrev Walk (α : Type) := ExceptT Error (StateM Walk.State) α

namespace Walk

def graph (s : Side) : Walk Graph := return (← get).graphs.on s

def pairs : Walk Correspondences := return (← get).pairs

def liftGraph {α : Type} : Except GraphError α → Walk α
  | .ok a => pure a
  | .error e => throw (.graph e)

def liftRule {α : Type} : Except RuleError α → Walk α
  | .ok a => pure a
  | .error e => throw (.rule e)

/-- Runs an operation on the graph of one side. -/
def onGraph {α : Type} (s : Side) (f : Graph → Except GraphError (α × Graph)) : Walk α := do
  let (a, g) ← liftGraph (f (← graph s))
  modify fun w => { w with graphs := w.graphs.put s g }
  return a

/-- Runs an operation on the record of correspondences. -/
def onPairs {α : Type} (f : Correspondences → Except PairConflict (α × Correspondences)) :
    Walk α := do
  match f (← pairs) with
  | .ok (a, t) =>
    modify fun w => { w with pairs := t }
    return a
  | .error c => throw (.pairConflict c)

def note (f : Report → Report) : Walk Unit := modify fun w => { w with report := f w.report }

/-- Drops a pair and counts it. -/
def releasePair (id : CorrespondenceId) : Walk Unit := do
  modify fun w => { w with pairs := w.pairs.remove id }
  note fun r => { r with pairsReleased := r.pairsReleased + 1 }

/-- Takes an element out of a role, and counts it if it was there. -/
def unlink (s : Side) (owner : ElementId) (role : RoleName) (target : ElementId) : Walk Unit := do
  if ← onGraph s (·.removeReference owner role target) then
    note fun r => { r with referencesUnlinked := r.referencesUnlinked + 1 }

/-- A pair handed out by the record; a new one is counted. -/
def countPair (o : Correspondences.Obtained) : Walk CorrespondenceId := do
  if o.created then note fun r => { r with pairsCreated := r.pairsCreated + 1 }
  return o.id

end Walk

end GraphSync
