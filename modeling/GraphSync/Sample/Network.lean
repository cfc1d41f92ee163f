import GraphSync.Graph.Basic
import GraphSync.Rule.Set

namespace GraphSync.Sample

def emptyNetwork (name : String) : Graph := Graph.new name "Net"

/-- Adds a node of some type below the root. -/
def addNode (g : Graph) (kind : TypeName) (name : String) :
    Except GraphError (ElementId × Graph) := do
  let (id, g) := g.add kind
  let (_, g) ← g.setValue id "name" (.text name)
  let (_, g) ← g.pushReference g.root "nodes" id
  return (id, g)

def networks : List Rule :=
  let named : List Binding := [{ attributes := ⟨"name", "name"⟩ }]
  [ { name := "NetToNet"
      types := ⟨"Net", "Net"⟩
      bindings := named
      children := [⟨⟨"nodes", "nodes"⟩, ⟨"Node", "Node"⟩⟩] },
    { name := "NodeToNode"
      types := ⟨"Node", "Node"⟩
      bindings := named
      children := [⟨⟨"next", "next"⟩, ⟨"Node", "Node"⟩⟩] },
    { name := "HubToNode", types := ⟨"Hub", "Node"⟩, bindings := named },
    { name := "NodeToRelay", types := ⟨"Node", "Relay"⟩, bindings := named } ]

end GraphSync.Sample
