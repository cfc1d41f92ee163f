import GraphSync.Graph.Element

namespace GraphSync

inductive Effect where
  | attributeSet (name : AttributeName) (before after : Value)
  | referenceAdded (role : RoleName) (index : Nat) (target : ElementId)
  | referenceRemoved (role : RoleName) (index : Nat) (target : ElementId)
  deriving DecidableEq

/-- The name of the attribute or role that was written. -/
def Effect.feature : Effect → String
  | .attributeSet name _ _ => name
  | .referenceAdded role _ _ => role
  | .referenceRemoved role _ _ => role

/-- What one write did to one element, with enough of the state before to take it back. -/
structure Change where
  element : ElementId
  effect : Effect
  deriving DecidableEq

end GraphSync
