import GraphSync.Error
import GraphSync.Rule.Indexed
import GraphSync.Toml.Decode
import GraphSync.Toml.Reader

namespace GraphSync

/-- What stands under a path. -/
inductive FileContent where
  | absent
  | directory
  | bytes (content : ByteArray)

inductive ConfigError where
  | notFound (path : String)
  /-- The file is there, but it is no text. -/
  | unreadable
  | decode (e : Toml.DecodeError)
  | rule (e : RuleError)

def ConfigError.message? : ConfigError → Option String
  | notFound path => some ("Configuration not found at " ++ path)
  | unreadable => none
  | decode e => e.message?
  | rule e => some e.message

namespace Toml

/-- Reads a document and decodes it. -/
def decodeText {α : Type} (decode : Toml → Decoded α) (source : String) : Decoded α :=
  match parse? source with
  | some t => decode t
  | none => .error .malformed

end Toml

open Toml

/-- The text of a file. -/
def FileContent.text (path : String) : FileContent → Except ConfigError String
  | absent => .error (.notFound path)
  | directory => .error .unreadable
  | bytes content =>
    match String.fromUTF8? content with
    | some s => .ok s
    | none => .error .unreadable

def Direction.ofToml (t : Toml) : Decoded Direction := do
  let name ← asVariant (all.map Direction.name) t
  match ofName? name with
  | some d => return d
  | none => throw .malformed

def Propagation.ofToml (t : Toml) : Decoded Propagation := do
  let name ← asVariant (all.map Propagation.name) t
  match ofName? name with
  | some p => return p
  | none => throw .malformed

namespace Options

def ofToml (t : Toml) : Decoded Options := do
  let r ← asRecord "struct SyncOptions"
    [field "direction" Direction.ofToml, field "propagation" Propagation.ofToml] t
  let defaults : Options := {}
  return {
    direction := ← r.optional "direction" defaults.direction Direction.ofToml
    propagation := ← r.optional "propagation" defaults.propagation Propagation.ofToml }

def parse (source : String) : Except ConfigError Options :=
  (decodeText ofToml source).mapError .decode

def load (path : String) (content : FileContent) : Except ConfigError Options :=
  content.text path >>= parse

end Options

def Binding.ofToml (t : Toml) : Decoded Binding := do
  let r ← asRecord "struct BindingDefinition" [field "left" asString, field "right" asString] t
  let left ← r.required "left" asString
  let right ← r.required "right" asString
  return { attributes := ⟨left, right⟩ }

def Child.ofToml (t : Toml) : Decoded Child := do
  let r ← asRecord "struct ChildRule"
    [field "left_role" asString, field "right_role" asString, field "left_type" asString,
      field "right_type" asString] t
  let leftRole ← r.required "left_role" asString
  let rightRole ← r.required "right_role" asString
  let leftType ← r.required "left_type" asString
  let rightType ← r.required "right_type" asString
  return ⟨⟨leftRole, rightRole⟩, ⟨leftType, rightType⟩⟩

def Rule.ofToml (t : Toml) : Decoded Rule := do
  let r ← asRecord "struct RuleDefinition"
    [field "name" asString, field "left" asString, field "right" asString,
      field "bindings" (asList Binding.ofToml), field "children" (asList Child.ofToml)] t
  let name ← r.required "name" asString
  let left ← r.required "left" asString
  let right ← r.required "right" asString
  let bindings ← r.optional "bindings" [] (asList Binding.ofToml)
  let children ← r.optional "children" [] (asList Child.ofToml)
  return { name, types := ⟨left, right⟩, bindings, children }

namespace RuleSet

/-- The rules of a document, in order. -/
def rulesOfToml (t : Toml) : Decoded (List Rule) := do
  let r ← asRecord "struct RuleFile" [field "rules" (asList Rule.ofToml)] t
  r.optional "rules" [] (asList Rule.ofToml)

/-- The rule set of a document: its rules, registered one after the other. -/
def parse (source : String) : Except ConfigError RuleSet := do
  let rules ← (decodeText rulesOfToml source).mapError .decode
  (ofList rules).mapError .rule

def load (path : String) (content : FileContent) : Except ConfigError RuleSet :=
  content.text path >>= parse

/-- The same with tables. -/
def Indexed.parse (source : String) : Except ConfigError Indexed := do
  let rules ← (decodeText rulesOfToml source).mapError .decode
  (Indexed.ofList rules).mapError .rule

end RuleSet

end GraphSync
