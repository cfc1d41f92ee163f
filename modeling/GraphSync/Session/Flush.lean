import GraphSync.Session.Basic
import GraphSync.Walk.Change

namespace GraphSync.Session

/-- A flush in progress. -/
structure Flush where
  queue : Queue
  walk : Walk.State
  report : FlushReport := {}

namespace Flush

def count (r : FlushReport) : Walk.ChangeOutcome → FlushReport
  | .applied => { r with applied := r.applied + 1 }
  | .skipped => { r with skipped := r.skipped + 1 }
  | .conflicted => r

/-- Carries one edit over, or skips it if its side is not carried over. -/
def step (rules : RuleSet) (o : Options) (f : Flush) (p : Pending) : Except Error Unit × Flush :=
  if o.accepts p.side then
    let (outcome, w) := (Walk.carry rules o.flushDirection p.side p.change).run.run f.walk
    (outcome.map fun _ => (),
      { f with
        walk := w
        report := match outcome with
          | .ok c => count f.report c
          | .error _ => f.report })
  else (.ok (), { f with report := { f.report with skipped := f.report.skipped + 1 } })

/-- Takes the given items off the queue one by one, up to the first error. -/
def drain (rules : RuleSet) (o : Options) : List Pending → Flush → Except Error Unit × Flush
  | [], f => (.ok (), f)
  | p :: rest, f =>
    match step rules o { f with queue := { f.queue with items := rest } } p with
    | (.ok _, f') => drain rules o rest f'
    | (.error e, f') => (.error e, f')

end Flush

/-- Carries all queued edits over. -/
def flush (s : Session) : Except Error FlushReport × Session :=
  let s := s.collect
  if s.queue.items = [] then (.ok {}, s)
  else
    let (outcome, f) :=
      Flush.drain s.rules s.options s.queue.items { queue := s.queue, walk := s.walkState }
    let w := Walk.releaseDeleted f.walk
    (outcome.map fun _ => { f.report with conflicts := w.report.conflicts },
      { s.adopt w with queue := f.queue })

/-- Changes one graph. With immediate propagation the edits are carried over at once. -/
def edit {α : Type} (s : Session) (side : Side) (f : Graph → α × Graph) :
    α × Except Error FlushReport × Session :=
  let (a, s) := s.collect.mutate side f
  (a, if s.options.propagation.isImmediate then s.flush else (.ok {}, s.collect))

end GraphSync.Session
