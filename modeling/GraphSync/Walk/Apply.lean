import GraphSync.Walk.Binding
import GraphSync.Walk.Child

namespace GraphSync.Walk

/-- The bindings and children of a rule on a pair. -/
def applyParts (rules : RuleSet) (d : Direction) (apply : Apply) (rule : Rule)
    (id : CorrespondenceId) (pair : Sided ElementId) : Walk Unit := do
  rule.numbered.forM fun (b, index) => do
    let _ ← applyBinding d rule.name id pair b index
  rule.children.forM fun child =>
    d.authorities.forM fun auth => syncRole rules d apply child auth pair

/-- Applies a rule to a pair below the pairs of `path`. The fuel bounds the depth of nesting. -/
def applyRule (rules : RuleSet) (d : Direction) :
    Nat → List CorrespondenceId → Rule → CorrespondenceId → Sided ElementId → Walk Unit
  | 0, _, _, _, _ => throw .tooDeep
  | fuel + 1, path, rule, id, pair => do
    if id ∈ path then throw (.rule (.invalid rule.name (.selfApplication pair)))
    if id ∈ (← get).visited then return
    modify fun w => { w with visited := id :: w.visited }
    applyParts rules d (applyRule rules d fuel (id :: path)) rule id pair

/-- Enough fuel for any walk. Applications in progress differ in the followed element or in the
rule, the pair of the roots apart, and one more application finds a repetition. A two-way walk may
also follow elements that it makes on the way, of which there are fewer than `2 ^ 32`, as many as
handles. -/
def nestingLimit (rules : RuleSet) (d : Direction) (graphs : Sided Graph) : Nat :=
  match d with
  | .oneWay source _ => (graphs.on source).size * rules.size + 2
  | .twoWay => (graphs.left.size + graphs.right.size + UInt32.size) * rules.size + 2

/-- Applies a rule to a pair, with enough fuel. -/
def start (rules : RuleSet) (d : Direction) : Apply := fun rule id pair => do
  applyRule rules d (nestingLimit rules d (← get).graphs) [] rule id pair

end GraphSync.Walk
