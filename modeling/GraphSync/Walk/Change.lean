import GraphSync.Walk.Apply

namespace GraphSync.Walk

/-- Carries an attribute over; tells whether a binding was in conflict. -/
def carryAttribute (rules : RuleSet) (d : Direction) (s : Side) (e : ElementId)
    (name : AttributeName) : Walk Bool := do
  if !(← graph s).contains e then return false
  let ids := ((← pairs).ofElement s e).map (·.id)
  let conflicts ← ids.mapM fun id => do
    let some c := (← pairs).get? id | return false
    let rule ← liftRule (rules.rule c.rule)
    let outcomes ← (rule.bindingsOn s name).mapM fun (b, index) =>
      applyBinding d rule.name id c.elements b index
    return outcomes.contains .conflict
  return conflicts.contains true

/-- Carries a new member of a role over, unless it has left the role again. -/
def carryAddition (rules : RuleSet) (d : Direction) (s : Side) (owner : ElementId) (role : RoleName)
    (target : ElementId) : Walk Unit := do
  let g ← graph s
  if !g.contains owner || !g.contains target then return
  let members ← liftGraph (g.references owner role)
  let some position := members.idxOf? target | return
  let earlier := (members.take position).reverse
  let later := members.drop (position + 1)
  let ids := ((← pairs).ofElement s owner).map (·.id)
  ids.forM fun id => do
    let some c := (← pairs).get? id | return
    let rule ← liftRule (rules.rule c.rule)
    (rule.childrenOn s role).forM fun child => do
      let _ ← linkMember rules d (start rules d) child s (c.element s.other) earlier target later

/-- Carries the removal of a member over, unless it is back in the role. A member that is gone from
its graph is noted, so that its pairs are dropped when no edit needs them any more. -/
def carryRemoval (rules : RuleSet) (s : Side) (owner : ElementId) (role : RoleName)
    (target : ElementId) : Walk Unit := do
  let other := s.other
  let g ← graph s
  if ((g.element? owner).map (·.targets role)).any (target ∈ ·) then return
  let ids := ((← pairs).ofElement s owner).map (·.id)
  ids.forM fun id => do
    let some c := (← pairs).get? id | return
    let rule ← liftRule (rules.rule c.rule)
    let follower := c.element other
    if (← graph other).contains follower then
      (rule.childrenOn s role).forM fun child => do
        let followed := child.roles.on other
        let present ← liftGraph ((← graph other).references follower followed)
        let partners := ((← pairs).partners s target).filter (· ∈ present)
        partners.forM fun p => unlink other follower followed p
  if !g.contains target then
    modify fun w =>
      if (s, target) ∈ w.deleted then w else { w with deleted := w.deleted ++ [(s, target)] }

inductive ChangeOutcome where
  | applied
  | skipped
  | conflicted
  deriving DecidableEq

/-- Carries one edit made on side `s` over to the other side. -/
def carry (rules : RuleSet) (d : Direction) (s : Side) (c : Change) : Walk ChangeOutcome := do
  modify fun w => { w with visited := [] }
  let before := (← get).report.effects
  let conflicted ← match c.effect with
    | .attributeSet name _ _ => carryAttribute rules d s c.element name
    | .referenceAdded role _ target => do
      carryAddition rules d s c.element role target
      pure false
    | .referenceRemoved role _ target => do
      carryRemoval rules s c.element role target
      pure false
  if before < (← get).report.effects then return .applied
  return if conflicted then .conflicted else .skipped

/-- Drops the pairs of the deleted elements that were met. -/
def releaseDeleted (w : State) : State :=
  let release (w : State) (x : Side × ElementId) : State :=
    let (released, pairs) := w.pairs.release x.1 x.2
    { w with
      pairs
      report := { w.report with pairsReleased := w.report.pairsReleased + released.length } }
  w.deleted.foldl release { w with deleted := [] }

end GraphSync.Walk
