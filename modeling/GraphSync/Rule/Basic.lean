import GraphSync.Graph.Element
import GraphSync.Side

namespace GraphSync

abbrev RuleName := String

/-- Two attributes that carry the same value. Without a conversion the value is copied; the
conversion on a side gives the form a value takes there. -/
structure Binding where
  attributes : Sided AttributeName
  conversion : Option (Sided (Value → Value)) := none

namespace Binding

def convert (b : Binding) (toward : Side) (v : Value) : Value :=
  match b.conversion with
  | some c => c.on toward v
  | none => v

def swap (b : Binding) : Binding := ⟨b.attributes.swap, b.conversion.map Sided.swap⟩

/-- A summary for a reader. -/
def summary (b : Binding) : String :=
  "AttributeBinding \x7b left: " ++ Text.quoted b.attributes.left ++
    ", right: " ++ Text.quoted b.attributes.right ++
    ", transformed: " ++ (if b.conversion.isSome then "true" else "false") ++ " \x7d"

end Binding

/-- Two roles whose members correspond. The types tell which kind of counterpart a member without
one is given. -/
structure Child where
  roles : Sided RoleName
  types : Sided TypeName
  deriving DecidableEq

def Child.swap (c : Child) : Child := ⟨c.roles.swap, c.types.swap⟩

/-- Elements of one left type correspond to elements of one right type: which attributes of the two
carry the same value, and which roles hold elements that correspond in turn. -/
structure Rule where
  name : RuleName
  types : Sided TypeName
  bindings : List Binding := []
  children : List Child := []

/-- Why a rule cannot be used. -/
inductive Rule.Fault where
  | emptyName
  | emptyAttribute
  | emptyRole
  | rootTypes (found expected : Sided TypeName)
  | selfApplication (pair : Sided ElementId)
  deriving DecidableEq

def Rule.Fault.message : Rule.Fault → String
  | emptyName => "rule id is empty"
  | emptyAttribute => "binding with empty attribute name"
  | emptyRole => "child rule with empty role name"
  | rootTypes found expected =>
    "root pair has types (" ++ found.left ++ ", " ++ found.right ++ "), rule expects (" ++
      expected.left ++ ", " ++ expected.right ++ ")"
  | selfApplication pair =>
    "rule invokes itself on pair (" ++ pair.left.label ++ ", " ++ pair.right.label ++ ")"

namespace Rule

def swap (r : Rule) : Rule :=
  ⟨r.name, r.types.swap, r.bindings.map Binding.swap, r.children.map Child.swap⟩

/-- The first thing that is wrong with a rule as it is written. -/
def fault? (r : Rule) : Option Fault :=
  if r.name = "" then some .emptyName
  else if r.bindings.any (fun b => b.attributes.left = "" || b.attributes.right = "") then
    some .emptyAttribute
  else if r.children.any (fun c => c.roles.left = "" || c.roles.right = "") then some .emptyRole
  else none

/-- The bindings with their positions. -/
def numbered (r : Rule) : List (Binding × Nat) := r.bindings.zipIdx

/-- The bindings, with their positions, of an attribute on one side. -/
def bindingsOn (r : Rule) (s : Side) (name : AttributeName) : List (Binding × Nat) :=
  r.numbered.filter (·.1.attributes.on s = name)

/-- The children that walk a role on one side. -/
def childrenOn (r : Rule) (s : Side) (role : RoleName) : List Child :=
  r.children.filter (·.roles.on s = role)

end Rule

end GraphSync
