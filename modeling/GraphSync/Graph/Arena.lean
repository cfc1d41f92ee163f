import GraphSync.Graph.History

namespace GraphSync

/-- What can be seen of an element: a role without targets looks like one that was never used. -/
def Element.shown (e : Element) : Element := { e with roles := e.roles.filter (· ≠ []) }

/-- Fills the place of a role. -/
def Element.fill (e : Element) (role : RoleName) (ts : List ElementId) : Element :=
  { e with roles := e.roles.insert role ts }

/-- Makes a place for a role that has none. -/
def Element.reserve (e : Element) (role : RoleName) : Element := e.fill role (e.targets role)

/-- What can be asked of a graph. -/
inductive Graph.Query where
  | name
  | root
  | size
  | elements
  | elementsOfType (kind : TypeName)
  | contains (id : ElementId)
  | element (id : ElementId)
  | typeOf (id : ElementId)
  | value (id : ElementId) (name : AttributeName)
  | references (id : ElementId) (role : RoleName)
  | referrers (target : ElementId)
  | observed
  | journal

def Graph.Query.Reply : Graph.Query → Type
  | name => String
  | root => ElementId
  | size => Nat
  | elements | elementsOfType _ => List Element
  | contains _ | observed => Bool
  | element _ => Except GraphError Element
  | typeOf _ => Except GraphError TypeName
  | value _ _ => Except GraphError Value
  | references _ _ => Except GraphError (List ElementId)
  | referrers _ => List (ElementId × RoleName)
  | journal => List Change

def Graph.ask (g : Graph) : (q : Query) → q.Reply
  | .name => g.name
  | .root => g.root
  | .size => g.size
  | .elements => g.elements
  | .elementsOfType kind => g.elementsOfType kind
  | .contains id => g.contains id
  | .element id => g.element id
  | .typeOf id => g.typeOf id
  | .value id name => g.value id name
  | .references id role => g.references id role
  | .referrers target => g.referrers target
  | .observed => g.observed
  | .journal => g.journal

/-- A graph as it is stored; `Graph` is what callers can see of it. Each handle that was ever given
out has a slot, which is emptied when its element is removed. A role keeps a place of its own from
the first insertion that looks at it on, also if nothing is put there, or nothing is left. -/
structure Arena where
  name : String
  slots : List (Option Element)
  observed : Bool := false
  journal : List Change := []
  deriving DecidableEq

namespace Arena

def new (name : String) (kind : TypeName) : Arena :=
  { name, slots := [some { id := ⟨0⟩, kind }] }

def root (_ : Arena) : ElementId := ⟨0⟩

/-- The elements that are live, by age. -/
def live (a : Arena) : List Element := a.slots.filterMap id

def element? (a : Arena) (id : ElementId) : Option Element := a.slots[id.index]?.join

def element (a : Arena) (id : ElementId) : Except GraphError Element :=
  match a.element? id with
  | some e => .ok e
  | none => .error (.unknownElement id)

/-- Every owner and role that lists `target`. -/
def referrers (a : Arena) (target : ElementId) : List (ElementId × RoleName) :=
  a.live.flatMap fun e =>
    (e.roles.entries.filter (fun r => target ∈ r.2)).map fun r => (e.id, r.1)

/-- The graph that callers see. -/
def shown (a : Arena) : Graph where
  name := a.name
  elements := a.live.map Element.shown
  next := a.slots.length
  observed := a.observed
  journal := a.journal

def ask (a : Arena) : (q : Graph.Query) → q.Reply
  | .name => a.name
  | .root => a.root
  | .size => a.live.length
  | .elements => a.live.map Element.shown
  | .elementsOfType kind => (a.live.filter (·.kind = kind)).map Element.shown
  | .contains id => (a.element? id).isSome
  | .element id => (a.element id).map Element.shown
  | .typeOf id => (a.element id).map Element.kind
  | .value id name => (a.element id).map (·.value name)
  | .references id role => (a.element id).map (·.targets role)
  | .referrers target => a.referrers target
  | .observed => a.observed
  | .journal => a.journal

/-- Changes one element. -/
def modify (a : Arena) (id : ElementId) (f : Element → Element) : Arena :=
  { a with slots := a.slots.modify id.index (Option.map f) }

def record (a : Arena) (c : Change) : Arena :=
  if a.observed then { a with journal := a.journal ++ [c] } else a

def add (a : Arena) (kind : TypeName) : ElementId × Arena :=
  let id : ElementId := ⟨a.slots.length⟩
  (id, { a with slots := a.slots ++ [some { id, kind }] })

/-- Writes an attribute and returns what it held. -/
def setValue (a : Arena) (id : ElementId) (name : AttributeName) (v : Value) :
    Except GraphError Value × Arena :=
  match a.element id with
  | .error err => (.error err, a)
  | .ok e =>
    let before := e.value name
    let written := a.modify id (·.setValue name v)
    (.ok before, if before.same v then written
      else written.record ⟨id, .attributeSet name before v⟩)

/-- Puts `target` into a role at `index`. The role gets its place before its targets and the index
are looked at. -/
def insertReference (a : Arena) (owner : ElementId) (role : RoleName) (index : Nat)
    (target : ElementId) : Except GraphError Bool × Arena :=
  match a.element target with
  | .error err => (.error err, a)
  | .ok _ =>
    match a.element owner with
    | .error err => (.error err, a)
    | .ok e =>
      let ts := e.targets role
      let reserved := a.modify owner (·.reserve role)
      if target ∈ ts then (.ok false, reserved)
      else if ts.length < index then
        (.error (.indexOutOfBounds owner role index ts.length), reserved)
      else
        let linked := reserved.modify owner (·.fill role (ts.insertIdx index target))
        (.ok true, linked.record ⟨owner, .referenceAdded role index target⟩)

def pushReference (a : Arena) (owner : ElementId) (role : RoleName) (target : ElementId) :
    Except GraphError Bool × Arena :=
  match a.element owner with
  | .error err => (.error err, a)
  | .ok e => a.insertReference owner role (e.targets role).length target

/-- Takes `target` out of a role; `false` if it was not there. The place of the role stays. -/
def removeReference (a : Arena) (owner : ElementId) (role : RoleName) (target : ElementId) :
    Except GraphError Bool × Arena :=
  match a.element owner with
  | .error err => (.error err, a)
  | .ok e =>
    let ts := e.targets role
    match ts.idxOf? target with
    | none => (.ok false, a)
    | some index =>
      let unlinked := a.modify owner (·.fill role (ts.eraseIdx index))
      (.ok true, unlinked.record ⟨owner, .referenceRemoved role index target⟩)

/-- Takes `target` out of the given roles, one after the other, up to the first one that refuses. -/
def removeReferences (a : Arena) (target : ElementId) :
    List (ElementId × RoleName) → Except GraphError Unit × Arena
  | [] => (.ok (), a)
  | (owner, role) :: rest =>
    match a.removeReference owner role target with
    | (.error err, a) => (.error err, a)
    | (.ok _, a) => a.removeReferences target rest

/-- Deletes an element, unlinking it first; returns it as it then was. -/
def remove (a : Arena) (id : ElementId) : Except GraphError Element × Arena :=
  if id = a.root then (.error (.rootRemoval id), a)
  else match a.element id with
    | .error err => (.error err, a)
    | .ok _ =>
      match a.removeReferences id (a.referrers id) with
      | (.error err, a) => (.error err, a)
      | (.ok (), a) => (a.element id, { a with slots := a.slots.modify id.index fun _ => none })

def perform (a : Arena) : Edit → Except GraphError Edit.Outcome × Arena
  | .add kind => let (id, a') := a.add kind; (.ok (.created id), a')
  | .set id name v => let (r, a') := a.setValue id name v; (r.map .replaced, a')
  | .push owner role target =>
    let (r, a') := a.pushReference owner role target; (r.map .changed, a')
  | .insert owner role index target =>
    let (r, a') := a.insertReference owner role index target; (r.map .changed, a')
  | .unlink owner role target =>
    let (r, a') := a.removeReference owner role target; (r.map .changed, a')
  | .remove id => let (r, a') := a.remove id; (r.map fun e => .removed e.shown, a')

def operate (a : Arena) : Graph.Operation → Graph.Answer × Arena
  | .edit e =>
    match a.perform e with
    | (.ok o, a') => (.edited o, a')
    | (.error err, a') => (.refused err, a')
  | .observe on => (.switched, { a with observed := on })
  | .takeChanges => (.drained a.journal, { a with journal := [] })
  | .clone => (.copied a.shown, a)

/-- A history, with the answer to each of its operations. -/
def operateAll (a : Arena) :
    List Graph.Operation → List (Graph.Operation × Graph.Answer) × Arena
  | [] => ([], a)
  | op :: ops =>
    let (answer, a') := a.operate op
    let (log, a'') := a'.operateAll ops
    ((op, answer) :: log, a'')

/-- Is the answer to an edit an error or `false`? -/
def Refuses (a : Arena) (e : Edit) : Prop :=
  (∃ err, (a.perform e).1 = .error err) ∨ (a.perform e).1 = .ok (.changed false)

end Arena

end GraphSync
