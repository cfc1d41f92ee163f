import GraphSync.Graph.Basic
import GraphSync.Rule.Conversion
import GraphSync.Rule.Set

namespace GraphSync.Sample

/-- Adds a state below the root; a flag is written only if it is set. -/
def addState (g : Graph) (name : String) (isStart isEnd : Bool) :
    Except GraphError (ElementId × Graph) := do
  let (id, g) := g.add "State"
  let (_, g) ← g.setValue id "name" (.text name)
  let (_, g) ← if isStart then g.setValue id "is_start_state" (.bool true) else pure (.unset, g)
  let (_, g) ← if isEnd then g.setValue id "is_end_state" (.bool true) else pure (.unset, g)
  let (_, g) ← g.pushReference g.root "states" id
  return (id, g)

/-- Adds a transition between two states below the root. -/
def addTransition (g : Graph) (input : String) (start stop : ElementId) :
    Except GraphError (ElementId × Graph) := do
  let (id, g) := g.add "Transition"
  let (_, g) ← g.setValue id "input" (.text input)
  let (_, g) ← g.pushReference id "start" start
  let (_, g) ← g.pushReference id "end" stop
  let (_, g) ← g.pushReference g.root "transitions" id
  return (id, g)

/-- Three states, the first one the start and the last one the end, and four transitions. -/
def automaton : Graph :=
  let build : Except GraphError Graph := do
    let g := Graph.new "fsm" "FiniteStateMachine"
    let (s1, g) ← addState g "s1" true false
    let (s2, g) ← addState g "s2" false false
    let (s3, g) ← addState g "s3" false true
    let (_, g) ← addTransition g "a" s1 s2
    let (_, g) ← addTransition g "a" s2 s3
    let (_, g) ← addTransition g "b" s2 s1
    let (_, g) ← addTransition g "b" s1 s1
    return g
  build.toOption.getD (Graph.new "fsm" "FiniteStateMachine")

def emptyNet : Graph := Graph.new "pn" "PetriNet"

/-- The names of the members of a role; a member without one counts as empty text. -/
def memberNames (g : Graph) (owner : ElementId) (role : RoleName) :
    Except GraphError (List String) := do
  let members ← g.references owner role
  members.mapM fun id => return ((← g.value id "name").asText?).getD ""

/-- The first place of that name. -/
def placeNamed? (g : Graph) (name : String) : Option ElementId :=
  ((g.elementsOfType "Place").find? fun e => e.value "name" = .text name).map Element.id

def automataToNets : List Rule :=
  [ { name := "AutomataToNet"
      types := ⟨"FiniteStateMachine", "PetriNet"⟩
      bindings := [{ attributes := ⟨"name", "name"⟩ }]
      children :=
        [⟨⟨"states", "places"⟩, ⟨"State", "Place"⟩⟩,
          ⟨⟨"transitions", "transitions"⟩, ⟨"Transition", "Transition"⟩⟩] },
    { name := "StateToPlace"
      types := ⟨"State", "Place"⟩
      bindings :=
        [{ attributes := ⟨"name", "name"⟩ },
          { attributes := ⟨"is_start_state", "tokens"⟩, conversion := some Conversion.tokens }] },
    { name := "TransitionToTransition"
      types := ⟨"Transition", "Transition"⟩
      bindings := [{ attributes := ⟨"input", "input"⟩ }]
      children :=
        [⟨⟨"start", "from"⟩, ⟨"State", "Place"⟩⟩,
          ⟨⟨"end", "to"⟩, ⟨"State", "Place"⟩⟩] } ]

end GraphSync.Sample
