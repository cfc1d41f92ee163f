import GraphSync.Graph.Change

namespace GraphSync

/-- The live elements in the order of their creation; the first one is the root, which is never
removed. While a graph is observed, every write that changes something is appended to its
journal. -/
structure Graph where
  name : String
  elements : List Element
  next : Nat
  observed : Bool := false
  journal : List Change := []
  deriving DecidableEq

inductive GraphError where
  | unknownElement (id : ElementId)
  | rootRemoval (id : ElementId)
  | indexOutOfBounds (owner : ElementId) (role : RoleName) (index length : Nat)
  deriving DecidableEq

def GraphError.message : GraphError → String
  | unknownElement id => "Unknown element: " ++ id.label
  | rootRemoval id => "Cannot remove root element " ++ id.label
  | indexOutOfBounds owner role index length =>
    "Index " ++ toString index ++ " out of bounds for role '" ++ role ++ "' of " ++ owner.label ++
      " (len " ++ toString length ++ ")"

namespace Graph

def new (name : String) (kind : TypeName) : Graph :=
  { name, elements := [{ id := ⟨0⟩, kind }], next := 1 }

/-- The root has the first handle. -/
def root (_ : Graph) : ElementId := ⟨0⟩

def size (g : Graph) : Nat := g.elements.length

def element? (g : Graph) (id : ElementId) : Option Element := g.elements.find? (·.id = id)

def contains (g : Graph) (id : ElementId) : Bool := (g.element? id).isSome

def element (g : Graph) (id : ElementId) : Except GraphError Element :=
  match g.element? id with
  | some e => .ok e
  | none => .error (.unknownElement id)

def typeOf (g : Graph) (id : ElementId) : Except GraphError TypeName :=
  (g.element id).map Element.kind

def value (g : Graph) (id : ElementId) (name : AttributeName) : Except GraphError Value :=
  (g.element id).map (·.value name)

def references (g : Graph) (id : ElementId) (role : RoleName) :
    Except GraphError (List ElementId) :=
  (g.element id).map (·.targets role)

def elementsOfType (g : Graph) (kind : TypeName) : List Element :=
  g.elements.filter (·.kind = kind)

/-- Every owner and role that lists `target`: owners by age, the roles of one owner by name. -/
def referrers (g : Graph) (target : ElementId) : List (ElementId × RoleName) :=
  g.elements.flatMap fun e =>
    (e.roles.entries.filter (fun r => target ∈ r.2)).map fun r => (e.id, r.1)

/-- Changes one element. -/
def modify (g : Graph) (id : ElementId) (f : Element → Element) : Graph :=
  { g with elements := g.elements.map fun e => if e.id = id then f e else e }

def record (g : Graph) (c : Change) : Graph :=
  if g.observed then { g with journal := g.journal ++ [c] } else g

def add (g : Graph) (kind : TypeName) : ElementId × Graph :=
  let id : ElementId := ⟨g.next⟩
  (id, { g with elements := g.elements ++ [{ id, kind }], next := g.next + 1 })

/-- Writes an attribute and returns what it held. A value equal to the held one is stored, but not
journalled. -/
def setValue (g : Graph) (id : ElementId) (name : AttributeName) (v : Value) :
    Except GraphError (Value × Graph) := do
  let e ← g.element id
  let before := e.value name
  let written := g.modify id (·.setValue name v)
  return (before, if before.same v then written
    else written.record ⟨id, .attributeSet name before v⟩)

/-- Puts `target` into a role at `index`; a target that is already there is refused with `false`. -/
def insertReference (g : Graph) (owner : ElementId) (role : RoleName) (index : Nat)
    (target : ElementId) : Except GraphError (Bool × Graph) := do
  let _ ← g.element target
  let ts := (← g.element owner).targets role
  if target ∈ ts then return (false, g)
  if ts.length < index then throw (.indexOutOfBounds owner role index ts.length)
  let linked := g.modify owner (·.setTargets role (ts.insertIdx index target))
  return (true, linked.record ⟨owner, .referenceAdded role index target⟩)

def pushReference (g : Graph) (owner : ElementId) (role : RoleName) (target : ElementId) :
    Except GraphError (Bool × Graph) := do
  let ts ← g.references owner role
  g.insertReference owner role ts.length target

/-- Takes `target` out of a role of `owner`, if it is there. -/
def dropReference (g : Graph) (owner : ElementId) (role : RoleName) (target : ElementId) : Graph :=
  let ts := ((g.element? owner).map (·.targets role)).getD []
  match ts.idxOf? target with
  | none => g
  | some index =>
    (g.modify owner (·.setTargets role (ts.eraseIdx index))).record
      ⟨owner, .referenceRemoved role index target⟩

/-- Takes `target` out of a role; `false` if it was not there. -/
def removeReference (g : Graph) (owner : ElementId) (role : RoleName) (target : ElementId) :
    Except GraphError (Bool × Graph) := do
  let ts ← g.references owner role
  return (decide (target ∈ ts), g.dropReference owner role target)

/-- Takes an element out of every role that lists it. -/
def isolate (g : Graph) (id : ElementId) : Graph :=
  (g.referrers id).foldl (fun g r => g.dropReference r.1 r.2 id) g

/-- Deletes an element, unlinking it first; returns it as it then was. -/
def remove (g : Graph) (id : ElementId) : Except GraphError (Element × Graph) := do
  if id = g.root then throw (.rootRemoval id)
  let _ ← g.element id
  let isolated := g.isolate id
  let e ← isolated.element id
  return (e, { isolated with elements := isolated.elements.filter (·.id ≠ id) })

def observe (g : Graph) (on : Bool) : Graph := { g with observed := on }

/-- Hands out the journal and empties it. -/
def takeChanges (g : Graph) : List Change × Graph := (g.journal, { g with journal := [] })

end Graph

end GraphSync
