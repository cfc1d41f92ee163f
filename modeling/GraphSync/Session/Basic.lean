import GraphSync.Queue
import GraphSync.Walk.Root

namespace GraphSync

/-- Two graphs that are kept in correspondence. Journals are emptied into the queue before a walk
and discarded after it, so the queue holds what users wrote and nothing that a walk wrote. -/
structure Session where
  rules : RuleSet
  rootRule : RuleName
  graphs : Sided Graph
  options : Options
  pairs : Correspondences := {}
  queue : Queue := {}

namespace Session

/-- Empties the journal of one side into the queue, or drops it if edits are not recorded. -/
def collectFrom (s : Session) (side : Side) : Session :=
  let (changes, g) := (s.graphs.on side).takeChanges
  { s with
    graphs := s.graphs.put side g
    queue := if s.options.propagation.records then s.queue.pushAll side changes else s.queue }

/-- Empties both journals, that of the left side first. -/
def collect (s : Session) : Session := Side.all.foldl collectFrom s

/-- Starts a walk on what the session owns. -/
def walkState (s : Session) : Walk.State := { graphs := s.graphs, pairs := s.pairs }

/-- Takes back what a walk changed, without the journal of its own writes. -/
def adopt (s : Session) (w : Walk.State) : Session :=
  { s with graphs := w.graphs.map (·.takeChanges.2), pairs := w.pairs }

/-- Runs a full pass. What it did before an error is kept. -/
def synchronize (s : Session) : Except Error Report × Session :=
  let s := s.collect
  let (outcome, w) := (Walk.syncRoots s.rules s.options.direction s.rootRule).run.run s.walkState
  (outcome.map fun _ => w.report, s.adopt w)

/-- Starts to record the edits made on a side, if the session records edits at all. -/
def observe (s : Session) (side : Side) : Session :=
  if s.options.propagation.records then
    { s with graphs := s.graphs.put side ((s.graphs.on side).observe true) }
  else s

/-- Stops recording; what was recorded stays queued. -/
def stopObserving (s : Session) (side : Side) : Session :=
  let s := s.collect
  { s with graphs := s.graphs.put side ((s.graphs.on side).observe false) }

def isObserving (s : Session) (side : Side) : Bool := (s.graphs.on side).observed

/-- Changes one graph directly. What is recorded joins the queue with the next edit, pass or
flush. -/
def mutate {α : Type} (s : Session) (side : Side) (f : Graph → α × Graph) : α × Session :=
  let (a, g) := f (s.graphs.on side)
  (a, { s with graphs := s.graphs.put side g })

end Session

end GraphSync
