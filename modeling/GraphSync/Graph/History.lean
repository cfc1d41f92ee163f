import GraphSync.Graph.Edit

namespace GraphSync.Graph

inductive Operation where
  | edit (e : Edit)
  | observe (on : Bool)
  | takeChanges
  /-- Copies the graph; the history goes on with the copy. -/
  | clone
  deriving DecidableEq

inductive Answer where
  | edited (o : Edit.Outcome)
  | refused (e : GraphError)
  | switched
  | drained (cs : List Change)
  | copied (g : Graph)
  deriving DecidableEq

/-- One operation; an edit that is refused leaves the graph as it was. -/
def operate (g : Graph) : Operation → Answer × Graph
  | .edit e =>
    match g.perform e with
    | .ok (o, g') => (.edited o, g')
    | .error err => (.refused err, g)
  | .observe on => (.switched, g.observe on)
  | .takeChanges => let (cs, g') := g.takeChanges; (.drained cs, g')
  | .clone => (.copied g, g)

/-- A history, with the answer to each of its operations. -/
def operateAll (g : Graph) : List Operation → List (Operation × Answer) × Graph
  | [] => ([], g)
  | op :: ops =>
    let (a, g') := g.operate op
    let (log, g'') := g'.operateAll ops
    ((op, a) :: log, g'')

/-- The element that an operation created, and the type it was created with. -/
def created? : Operation × Answer → Option (ElementId × TypeName)
  | (.edit (.add kind), .edited (.created id)) => some (id, kind)
  | _ => none

/-- The elements that a history created, by age. -/
def created (log : List (Operation × Answer)) : List (ElementId × TypeName) :=
  log.filterMap created?

end GraphSync.Graph
