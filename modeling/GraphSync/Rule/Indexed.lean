import GraphSync.Rule.Set
import Std.Data.HashMap

namespace GraphSync.RuleSet

/-- A set of rules as it is held for fast look-ups, with the names in the order of registration. -/
structure Indexed where
  byName : Std.HashMap RuleName Rule := ∅
  /-- The name of the rule of a pair of types. -/
  byTypes : Std.HashMap (Sided TypeName) RuleName := ∅
  order : List RuleName := []

namespace Indexed

def rule (t : Indexed) (name : RuleName) : Except RuleError Rule :=
  match t.byName[name]? with
  | some r => .ok r
  | none => .error (.unknown name)

def ruleFor (t : Indexed) (types : Sided TypeName) : Except RuleError Rule :=
  match t.byTypes[types]?.bind (t.byName[·]?) with
  | some r => .ok r
  | none => .error (.noRule types)

/-- The rule of a pair of types, as side `s` sees the pair. -/
def ruleFrom (t : Indexed) (s : Side) (this that : TypeName) : Except RuleError Rule :=
  t.ruleFor (s.arrange this that)

def contains (t : Indexed) (name : RuleName) : Bool := t.byName.contains name

def size (t : Indexed) : Nat := t.byName.size

/-- The rules in the order of their registration. -/
def rules (t : Indexed) : List Rule := t.order.filterMap (t.byName[·]?)

/-- A child whose pair of types has no rule: the invoking rule and that pair. -/
def missing (t : Indexed) : List (RuleName × Sided TypeName) :=
  t.rules.flatMap fun r =>
    (r.children.filter fun c => !t.byTypes.contains c.types).map fun c => (r.name, c.types)

/-- Adds a rule at the end. A clash with an earlier rule is reported before any fault of the rule
itself. -/
def register (t : Indexed) (r : Rule) : Except RuleError Unit × Indexed :=
  if t.byName.contains r.name || t.byTypes.contains r.types then
    (.error (.duplicate r.name r.types), t)
  else match r.fault? with
    | some fault => (.error (.invalid r.name fault), t)
    | none =>
      (.ok (), {
        byName := t.byName.insert r.name r
        byTypes := t.byTypes.insert r.types r.name
        order := t.order ++ [r.name] })

/-- Rules that are registered one after the other, refused ones included, each with the answer to
it. -/
def registerAll (t : Indexed) : List Rule → List (Rule × Except RuleError Unit) × Indexed
  | [] => ([], t)
  | r :: rs =>
    let (answer, t) := t.register r
    let (log, t) := t.registerAll rs
    ((r, answer) :: log, t)

/-- Registers rules one after the other, up to the first one that is refused. -/
def extend (t : Indexed) : List Rule → Except RuleError Indexed
  | [] => .ok t
  | r :: rs =>
    match t.register r with
    | (.error e, _) => .error e
    | (.ok _, t) => t.extend rs

/-- The set of the given rules, or the error of the first one that is refused. -/
def ofList (rules : List Rule) : Except RuleError Indexed := extend {} rules

end Indexed

/-- The rules that were accepted. -/
def accepted (log : List (Rule × Except RuleError Unit)) : List Rule :=
  log.filterMap fun p => match p.2 with
    | .ok _ => some p.1
    | .error _ => none

/-- The first refusal. -/
def refusal? (log : List (Rule × Except RuleError Unit)) : Option RuleError :=
  log.findSome? fun p => match p.2 with
    | .ok _ => none
    | .error e => some e

end GraphSync.RuleSet
