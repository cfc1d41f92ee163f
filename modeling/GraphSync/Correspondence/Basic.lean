import GraphSync.Options
import GraphSync.Rule.Basic

namespace GraphSync

/-- Handle of a correspondence; never reused. -/
structure CorrespondenceId where
  index : Nat
  deriving DecidableEq

def CorrespondenceId.label (id : CorrespondenceId) : String := "c" ++ toString id.index

/-- The values of one binding when they were last seen in step. -/
abbrev Shadow := Sided Value

structure Correspondence where
  id : CorrespondenceId
  rule : RuleName
  elements : Sided ElementId
  /-- The direction of the pass that made the pair. -/
  createdIn : Direction
  /-- Is this the pair of the two roots? -/
  isAnchor : Bool := false
  /-- The values last seen in step, by the position of the binding in its rule. -/
  shadows : Dict Nat Shadow := ∅
  deriving DecidableEq

namespace Correspondence

def element (c : Correspondence) (s : Side) : ElementId := c.elements.on s

def shadow? (c : Correspondence) (binding : Nat) : Option Shadow := c.shadows.get? binding

/-- Is this the pair that a rule asks for? -/
def Is (c : Correspondence) (rule : RuleName) (pair : Sided ElementId) : Prop :=
  c.rule = rule ∧ c.elements = pair

instance (c : Correspondence) (rule : RuleName) (pair : Sided ElementId) :
    Decidable (c.Is rule pair) :=
  inferInstanceAs (Decidable (_ ∧ _))

end Correspondence

/-- A request for a pair that contradicts a recorded one. -/
structure PairConflict where
  rule : RuleName
  requested : Sided ElementId
  existing : Sided ElementId
  deriving DecidableEq

def PairConflict.message (c : PairConflict) : String :=
  "Correspondence conflict under " ++ c.rule ++ ": requested (" ++ c.requested.left.label ++ ", " ++
    c.requested.right.label ++ ") but (" ++ c.existing.left.label ++ ", " ++
    c.existing.right.label ++ ") exists"

/-- The recorded correspondences, oldest first. -/
structure Correspondences where
  entries : List Correspondence := []
  next : Nat := 0
  deriving DecidableEq

namespace Correspondences

def get? (t : Correspondences) (id : CorrespondenceId) : Option Correspondence :=
  t.entries.find? (·.id = id)

/-- The pair of an element under one rule. -/
def lookup? (t : Correspondences) (rule : RuleName) (s : Side) (e : ElementId) :
    Option Correspondence :=
  t.entries.find? fun c => c.rule = rule ∧ c.element s = e

/-- The pair of two elements, whichever rule owns it. -/
def pairing? (t : Correspondences) (pair : Sided ElementId) : Option Correspondence :=
  t.entries.find? (·.elements = pair)

/-- The pair of the two roots. -/
def anchor? (t : Correspondences) : Option Correspondence := t.entries.find? (·.isAnchor)

/-- Every pair an element takes part in, oldest first. -/
def ofElement (t : Correspondences) (s : Side) (e : ElementId) : List Correspondence :=
  t.entries.filter (·.element s = e)

/-- The counterparts of an element under any rule, oldest pair first. -/
def partners (t : Correspondences) (s : Side) (e : ElementId) : List ElementId :=
  (t.ofElement s e).map (·.element s.other)

/-- The pairs other than the one of the roots. -/
def members (t : Correspondences) : List Correspondence := t.entries.filter (!·.isAnchor)

def ofRule (t : Correspondences) (rule : RuleName) : List Correspondence :=
  t.members.filter (·.rule = rule)

/-- A recorded pair that shares the left element and the rule, or the right element and the rule, or
both elements, with the requested pair; looked for in this order. -/
def rival? (t : Correspondences) (rule : RuleName) (pair : Sided ElementId) :
    Option Correspondence :=
  (t.lookup? rule .left pair.left).or
    ((t.lookup? rule .right pair.right).or (t.pairing? pair))

/-- A handle, and whether the pair it names is new. -/
structure Obtained where
  id : CorrespondenceId
  created : Bool
  deriving DecidableEq

/-- The recorded pair, or a new one if nothing recorded contradicts it. -/
def obtain? (t : Correspondences) (rule : RuleName) (pair : Sided ElementId) (d : Direction) :
    Except PairConflict (Obtained × Correspondences) :=
  match t.rival? rule pair with
  | some c =>
    if c.Is rule pair then .ok (⟨c.id, false⟩, t) else .error ⟨rule, pair, c.elements⟩
  | none =>
    let id : CorrespondenceId := ⟨t.next⟩
    let c : Correspondence := { id, rule, elements := pair, createdIn := d }
    .ok (⟨id, true⟩, { entries := t.entries ++ [c], next := t.next + 1 })

/-- Changes one entry. -/
def modify (t : Correspondences) (id : CorrespondenceId) (f : Correspondence → Correspondence) :
    Correspondences :=
  { t with entries := t.entries.map fun c => if c.id = id then f c else c }

/-- The pair of the two roots, recorded or new. There is at most one, so asking for another is a
conflict. -/
def anchor (t : Correspondences) (rule : RuleName) (pair : Sided ElementId) (d : Direction) :
    Except PairConflict (Obtained × Correspondences) :=
  match t.anchor? with
  | some c =>
    if c.Is rule pair then .ok (⟨c.id, false⟩, t) else .error ⟨rule, pair, c.elements⟩
  | none => do
    let (o, t') ← t.obtain? rule pair d
    return (o, t'.modify o.id ({ · with isAnchor := true }))

/-- Drops an entry; dropping an absent one changes nothing. -/
def remove (t : Correspondences) (id : CorrespondenceId) : Correspondences :=
  { t with entries := t.entries.filter (·.id ≠ id) }

/-- Drops every entry of an element, and returns what was dropped. -/
def release (t : Correspondences) (s : Side) (e : ElementId) :
    List Correspondence × Correspondences :=
  (t.ofElement s e, { t with entries := t.entries.filter (·.element s ≠ e) })

def recordShadow (t : Correspondences) (id : CorrespondenceId) (binding : Nat) (values : Shadow) :
    Correspondences :=
  t.modify id fun c => { c with shadows := c.shadows.insert binding values }

end Correspondences

end GraphSync
