import GraphSync.Walk.Basic

namespace GraphSync

/-- What is to be done about a binding. -/
inductive Verdict where
  /-- Nothing is written; `inStep` tells whether the values are remembered. -/
  | keep (inStep : Bool)
  /-- The value of `source` goes to the other side. -/
  | copy (source : Side)
  /-- Both sides changed, and differently. -/
  | conflict
  deriving DecidableEq

namespace Binding

/-- Does the value on `source` convert to the one on the other side? -/
def agreesFrom (b : Binding) (values : Sided Value) (source : Side) : Bool :=
  (b.convert source.other (values.on source)).same (values.on source.other)

def inStep (b : Binding) (values : Sided Value) : Bool :=
  b.agreesFrom values .left || b.agreesFrom values .right

/-- Did the value on `s` change since it was last in step? Without a memory, anything but a default
value counts. -/
def changed (shadow? : Option Shadow) (values : Sided Value) (s : Side) : Bool :=
  match shadow? with
  | some shadow => !(shadow.on s).same (values.on s)
  | none => !(values.on s).isDefault

def verdict (b : Binding) (d : Direction) (shadow? : Option Shadow) (values : Sided Value) :
    Verdict :=
  match d with
  | .oneWay source true =>
    if b.agreesFrom values source then .keep (b.inStep values) else .copy source
  | .oneWay source false =>
    if !b.agreesFrom values source && (values.on source.other).isDefault then .copy source
    else .keep (b.inStep values)
  | .twoWay =>
    if b.agreesFrom values .left then .keep (b.inStep values)
    else match changed shadow? values .left, changed shadow? values .right with
      | true, false => .copy .left
      | false, true => .copy .right
      | true, true => .conflict
      | false, false => .keep (b.inStep values)

/-- The values after the one on `source` went to the other side. -/
def copied (b : Binding) (values : Sided Value) (source : Side) : Sided Value :=
  values.put source.other (b.convert source.other (values.on source))

end Binding

namespace Walk

inductive BindingOutcome where
  | unchanged
  | written
  | conflict
  deriving DecidableEq

def recordShadow (id : CorrespondenceId) (index : Nat) (values : Shadow) : Walk Unit :=
  modify fun w => { w with pairs := w.pairs.recordShadow id index values }

/-- Applies the binding at position `index` of a rule to a pair. -/
def applyBinding (d : Direction) (rule : RuleName) (id : CorrespondenceId) (pair : Sided ElementId)
    (b : Binding) (index : Nat) : Walk BindingOutcome := do
  let w ← get
  let left ← liftGraph (w.graphs.left.value pair.left b.attributes.left)
  let right ← liftGraph (w.graphs.right.value pair.right b.attributes.right)
  let values : Sided Value := ⟨left, right⟩
  match b.verdict d ((w.pairs.get? id).bind (·.shadow? index)) values with
  | .keep inStep =>
    if inStep then recordShadow id index values
    return .unchanged
  | .conflict =>
    note (·.addConflict
      { correspondence := id, rule, elements := pair, attributes := b.attributes, values })
    return .conflict
  | .copy source =>
    let target := source.other
    let updated := b.copied values source
    let _ ← onGraph target
      (·.setValue (pair.on target) (b.attributes.on target) (updated.on target))
    note fun r => { r with attributesUpdated := r.attributesUpdated + 1 }
    recordShadow id index updated
    return .written

end Walk

end GraphSync
