import GraphSync.Graph.Basic

namespace GraphSync

inductive Edit where
  | add (kind : TypeName)
  | set (id : ElementId) (name : AttributeName) (value : Value)
  | push (owner : ElementId) (role : RoleName) (target : ElementId)
  | insert (owner : ElementId) (role : RoleName) (index : Nat) (target : ElementId)
  | unlink (owner : ElementId) (role : RoleName) (target : ElementId)
  | remove (id : ElementId)
  deriving DecidableEq

/-- What an edit that was carried out answers. -/
inductive Edit.Outcome where
  | created (id : ElementId)
  | replaced (before : Value)
  | changed (really : Bool)
  | removed (e : Element)
  deriving DecidableEq

namespace Graph

def perform (g : Graph) : Edit → Except GraphError (Edit.Outcome × Graph)
  | .add kind => let (id, g') := g.add kind; .ok (.created id, g')
  | .set id name v => do let (v, g') ← g.setValue id name v; return (.replaced v, g')
  | .push owner role target => do
    let (b, g') ← g.pushReference owner role target; return (.changed b, g')
  | .insert owner role index target => do
    let (b, g') ← g.insertReference owner role index target; return (.changed b, g')
  | .unlink owner role target => do
    let (b, g') ← g.removeReference owner role target; return (.changed b, g')
  | .remove id => do let (e, g') ← g.remove id; return (.removed e, g')

/-- The graph after an edit; a refused edit leaves it as it was. -/
def edit (g : Graph) (e : Edit) : Graph :=
  match g.perform e with
  | .ok (_, g') => g'
  | .error _ => g

def editAll (g : Graph) (es : List Edit) : Graph := es.foldl edit g

end Graph

end GraphSync
