import GraphSync.Text.Quoted
import GraphSync.Toml.Basic

namespace GraphSync

namespace Toml

/-- What was found where something else was expected. -/
inductive Found where
  | string (s : String)
  | integer (n : Int)
  | float (x : Binary64)
  | boolean (b : Bool)
  | sequence
  | map
  deriving DecidableEq

/-- A float always looks like one. -/
def floatWord (x : Binary64) : String :=
  let word := x.display
  if x.isFinite && !word.contains '.' then word ++ ".0" else word

def Found.message : Found → String
  | string s => "string " ++ Text.quoted s
  | integer n => "integer \x60" ++ toString n ++ "\x60"
  | float x => "floating point \x60" ++ floatWord x ++ "\x60"
  | boolean b => "boolean \x60" ++ (if b then "true" else "false") ++ "\x60"
  | sequence => "sequence"
  | map => "map"

inductive DecodeError where
  | missingField (name : String)
  | unknownVariant (found : String) (expected : List String)
  | invalidType (found : Found) (expected : String)
  /-- Not a document, or not of a shape that has a message of its own. -/
  | malformed
  deriving DecidableEq

namespace DecodeError

def inTicks (s : String) : String := "\x60" ++ s ++ "\x60"

/-- The message for the reader of the document, if there is a definite one. -/
def message? : DecodeError → Option String
  | missingField name => some ("missing field " ++ inTicks name)
  | unknownVariant found expected =>
    some ("unknown variant " ++ inTicks found ++ ", expected one of " ++
      ", ".intercalate (expected.map inTicks))
  | invalidType found expected =>
    some ("invalid type: " ++ found.message ++ ", expected " ++ expected)
  | malformed => none

end DecodeError

abbrev Decoded (α : Type) := Except DecodeError α

def found : Toml → Found
  | string s => .string s
  | integer n => .integer n
  | float x => .float x
  | boolean b => .boolean b
  | dateTime => .map
  | array _ => .sequence
  | tables _ => .sequence
  | table .. => .map

def asString : Toml → Decoded String
  | string s => .ok s
  | t => .error (.invalidType t.found "a string")

/-- The items of a sequence, each decoded. -/
def asList {α : Type} (item : Toml → Decoded α) : Toml → Decoded (List α)
  | array ts => ts.mapM item
  | tables ts => ts.mapM item
  | t => .error (.invalidType t.found "a sequence")

def isEmptyContainer : Toml → Bool
  | array [] => true
  | tables [] => true
  | table _ [] => true
  | _ => false

/-- One of some names: as text, or as the only key of a table that holds an empty table or array. -/
def asVariant (names : List String) : Toml → Decoded String
  | string s => if s ∈ names then .ok s else .error (.unknownVariant s names)
  | table _ [(k, t)] =>
    if k ∉ names then .error (.unknownVariant k names)
    else if t.isEmptyContainer then .ok k
    else .error .malformed
  | _ => .error .malformed

/-- A field of a record, with a check of what it holds. -/
structure Field where
  name : String
  check : Toml → Decoded Unit

/-- A record whose fields can be asked for by name; an absent required field is the given fault. -/
structure Record where
  get? : String → Option Toml
  absent : String → DecodeError

/-- Opens a record. The fields of a table are checked in the order in which they are written. -/
def asRecord (expected : String) (fields : List Field) : Toml → Decoded Record
  | table _ entries => do
    entries.forM fun (k, t) =>
      match fields.find? (·.name = k) with
      | some f => f.check t
      | none => .ok ()
    return ⟨fun name => entries.lookup name, .missingField⟩
  | dateTime => .ok ⟨fun _ => none, .missingField⟩
  | array ts => .ok (ofItems ts)
  | tables ts => .ok (ofItems ts)
  | t => .error (.invalidType t.found expected)
where
  ofItems (ts : List Toml) : Record :=
    ⟨fun name => (fields.findIdx? (·.name = name)).bind (ts[·]?), fun _ => .malformed⟩

namespace Record

def required {α : Type} (r : Record) (name : String) (decode : Toml → Decoded α) : Decoded α :=
  match r.get? name with
  | some t => decode t
  | none => .error (r.absent name)

def optional {α : Type} (r : Record) (name : String) (default : α)
    (decode : Toml → Decoded α) : Decoded α :=
  match r.get? name with
  | some t => decode t
  | none => .ok default

end Record

/-- A field whose check is its decoder. -/
def field {α : Type} (name : String) (decode : Toml → Decoded α) : Field :=
  ⟨name, fun t => (decode t).map fun _ => ()⟩

end Toml

end GraphSync
