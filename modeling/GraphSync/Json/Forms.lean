import GraphSync.Json.Basic
import GraphSync.Options
import GraphSync.Report
import GraphSync.Queue

namespace GraphSync

namespace Json

/-- The value of a member; nothing if it is absent or repeated. -/
def member? (members : List (String × Json)) (name : String) : Option Json :=
  match members.filter (·.1 = name) with
  | [(_, j)] => some j
  | _ => none

def repeats (members : List (String × Json)) (name : String) : Bool :=
  1 < (members.filter (·.1 = name)).length

/-- The fields of a record, in the order of the given names; absent ones are left out. -/
def fields? (names : List String) : Json → Option (List (Option Json))
  | object members =>
    if names.any (repeats members) then none else some (names.map (member? members))
  | array items =>
    if names.length < items.length then none else some (List.range names.length |>.map (items[·]?))
  | _ => none

def asString? : Json → Option String
  | string s => some s
  | _ => none

def asBool? : Json → Option Bool
  | bool b => some b
  | _ => none

/-- A natural number below a bound. -/
def asNatBelow? (bound : Nat) : Json → Option Nat
  | int n => if 0 ≤ n ∧ n < bound then some n.toNat else none
  | _ => none

def asInt64? : Json → Option Int64
  | int n =>
    if Int64.minValue.toInt ≤ n ∧ n ≤ Int64.maxValue.toInt then some (Int64.ofInt n) else none
  | _ => none

/-- A float; an integer literal is one, too. -/
def asFloat? : Json → Option Binary64
  | float x => some x
  | int n => some (Binary64.ofInt n)
  | _ => none

/-- A name from a list, written as text or as the only member of an object with the value `null`. -/
def asName? : Json → Option String
  | string s => some s
  | object [(name, null)] => some name
  | _ => none

end Json

open Json

def ElementId.toJson (id : ElementId) : Json := .ofNat id.index

/-- Handles are 32-bit numbers. -/
def ElementId.ofJson? (j : Json) : Option ElementId := (j.asNatBelow? UInt32.size).map ElementId.mk

def CorrespondenceId.toJson (id : CorrespondenceId) : Json := .ofNat id.index

def CorrespondenceId.ofJson? (j : Json) : Option CorrespondenceId :=
  (j.asNatBelow? UInt32.size).map CorrespondenceId.mk

def Side.toJson (s : Side) : Json := .string s.name

def Side.ofJson? (j : Json) : Option Side := do
  let name ← j.asName?
  Side.all.find? (·.name = name)

def Direction.toJson (d : Direction) : Json := .string d.name

def Direction.ofJson? (j : Json) : Option Direction := j.asName? >>= Direction.ofName?

def Propagation.toJson (p : Propagation) : Json := .string p.name

def Propagation.ofJson? (j : Json) : Option Propagation := j.asName? >>= Propagation.ofName?

namespace Value

def toJson : Value → Json
  | unset => .object [("type", .string "unset")]
  | bool b => .object [("type", .string "bool"), ("value", .bool b)]
  | int n => .object [("type", .string "int"), ("value", .int n.toInt)]
  | float x => .object [("type", .string "float"), ("value", .float x)]
  | text s => .object [("type", .string "text"), ("value", .string s)]

/-- A value of the named type. Only `unset` may lack its content. -/
def ofContent? (type : String) (content : Option Json) : Option Value :=
  match type, content with
  | "unset", none => some unset
  | "unset", some .null => some unset
  | "bool", some j => j.asBool?.map bool
  | "int", some j => j.asInt64?.map int
  | "float", some j => j.asFloat?.map float
  | "text", some j => j.asString?.map text
  | _, _ => none

def typeNames : List String := ["unset", "bool", "int", "float", "text"]

/-- The type as a member of an object. Inside a `nested` form an empty object is as good as
`null`. -/
def memberType? (nested : Bool) : Json → Option String
  | .object [(name, .object [])] => if nested then some name else none
  | j => j.asName?

/-- The type at the head of an array. Inside a `nested` form its position among the types will
do. -/
def headType? (nested : Bool) : Json → Option String
  | .string s => some s
  | .int n => if nested ∧ 0 ≤ n then typeNames[n.toNat]? else none
  | _ => none

/-- Reads a value, on its own or inside a `nested` form. As an array it needs both of its parts. -/
def ofJson? (nested : Bool) (j : Json) : Option Value := do
  let fields ← fields? ["type", "value"] j
  match j, fields with
  | .array _, [some type, some content] => ofContent? (← headType? nested type) content
  | .object _, [some type, content] => ofContent? (← memberType? nested type) content
  | _, _ => none

end Value

namespace Shadow

def toJson (s : Shadow) : Json := .object [("left", s.left.toJson), ("right", s.right.toJson)]

def ofJson? (j : Json) : Option Shadow := do
  match ← fields? ["left", "right"] j with
  | [some l, some r] => return ⟨← Value.ofJson? false l, ← Value.ofJson? false r⟩
  | _ => none

end Shadow

namespace Effect

def toJson : Effect → Json
  | attributeSet name before after => .object
    [("change", .string "attribute_set"), ("name", .string name), ("old", before.toJson),
      ("new", after.toJson)]
  | referenceAdded role index target => .object
    [("change", .string "reference_added"), ("role", .string role), ("index", .ofNat index),
      ("target", target.toJson)]
  | referenceRemoved role index target => .object
    [("change", .string "reference_removed"), ("role", .string role), ("index", .ofNat index),
      ("target", target.toJson)]

/-- The fields of an effect without its tag: the other members, or the items after the first one. -/
def untagged? : Json → Option (String × Json)
  | .object members => do
    guard (!repeats members "change")
    let tag ← member? members "change"
    return (← tag.asString?, .object (members.filter (·.1 ≠ "change")))
  | .array (tag :: rest) => return (← tag.asString?, .array rest)
  | _ => none

def reference? (j : Json) : Option (RoleName × Nat × ElementId) := do
  match ← fields? ["role", "index", "target"] j with
  | [some role, some index, some target] =>
    return (← role.asString?, ← index.asNatBelow? UInt64.size, ← ElementId.ofJson? target)
  | _ => none

/-- Containers may nest this deep around and inside an effect. -/
def depthLimit : Nat := 126

/-- Reads the effect that a tag names from the fields without it. -/
def ofFields? (tag : String) (rest : Json) : Option Effect :=
  match tag with
  | "attribute_set" => do
    match ← fields? ["name", "old", "new"] rest with
    | [some name, some before, some after] =>
      return attributeSet (← name.asString?) (← Value.ofJson? true before)
        (← Value.ofJson? true after)
    | _ => none
  | "reference_added" => do
    let (role, index, target) ← reference? rest
    return referenceAdded role index target
  | "reference_removed" => do
    let (role, index, target) ← reference? rest
    return referenceRemoved role index target
  | _ => none

/-- Reads an effect. Every part of it must have a value, also a part that is ignored. -/
def ofJson? (j : Json) : Option Effect := do
  guard (j.isReadable ∧ j.depth ≤ depthLimit)
  let (tag, rest) ← untagged? j
  ofFields? tag rest

end Effect

namespace Change

def toJson (c : Change) : Json := .object [("element", c.element.toJson), ("kind", c.effect.toJson)]

def ofJson? (j : Json) : Option Change := do
  match ← fields? ["element", "kind"] j with
  | [some e, some kind] => return ⟨← ElementId.ofJson? e, ← Effect.ofJson? kind⟩
  | _ => none

end Change

namespace Child

def toJson (c : Child) : Json := .object
  [("left_role", .string c.roles.left), ("right_role", .string c.roles.right),
    ("left_type", .string c.types.left), ("right_type", .string c.types.right)]

def ofJson? (j : Json) : Option Child := do
  match ← fields? ["left_role", "right_role", "left_type", "right_type"] j with
  | [some lr, some rr, some lt, some rt] =>
    return ⟨⟨← lr.asString?, ← rr.asString?⟩, ⟨← lt.asString?, ← rt.asString?⟩⟩
  | _ => none

end Child

namespace Options

def toJson (o : Options) : Json :=
  .object [("direction", o.direction.toJson), ("propagation", o.propagation.toJson)]

/-- Reads options; an absent one has its default. -/
def ofJson? (j : Json) : Option Options := do
  match ← fields? ["direction", "propagation"] j with
  | [d, p] =>
    let direction ← (d.map Direction.ofJson?).getD (some ({} : Options).direction)
    let propagation ← (p.map Propagation.ofJson?).getD (some ({} : Options).propagation)
    return ⟨direction, propagation⟩
  | _ => none

end Options

def Pending.toJson (p : Pending) : Json := .object
  [("sequence", .ofNat p.sequence), ("side", p.side.toJson), ("change", p.change.toJson)]

def Correspondence.toJson (c : Correspondence) : Json := .object
  [("id", c.id.toJson), ("rule", .string c.rule), ("left", c.elements.left.toJson),
    ("right", c.elements.right.toJson), ("created_direction", c.createdIn.toJson),
    ("is_anchor", .bool c.isAnchor),
    ("shadows", .object (c.shadows.entries.map fun (i, s) => (toString i, Shadow.toJson s)))]

def Conflict.toJson (c : Conflict) : Json := .object
  [("correspondence", c.correspondence.toJson), ("rule", .string c.rule),
    ("left", c.elements.left.toJson), ("right", c.elements.right.toJson),
    ("left_attribute", .string c.attributes.left), ("right_attribute", .string c.attributes.right),
    ("left_value", c.values.left.toJson), ("right_value", c.values.right.toJson)]

def Report.toJson (r : Report) : Json := .object
  [("elements_created", .ofNat r.elementsCreated),
    ("correspondences_created", .ofNat r.pairsCreated),
    ("correspondences_released", .ofNat r.pairsReleased),
    ("attributes_updated", .ofNat r.attributesUpdated),
    ("references_linked", .ofNat r.referencesLinked),
    ("references_unlinked", .ofNat r.referencesUnlinked),
    ("conflicts", .array (r.conflicts.map Conflict.toJson))]

def FlushReport.toJson (r : FlushReport) : Json := .object
  [("applied", .ofNat r.applied), ("skipped", .ofNat r.skipped),
    ("conflicts", .array (r.conflicts.map Conflict.toJson))]

end GraphSync
