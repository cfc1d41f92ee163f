import GraphSync.Walk.Apply

namespace GraphSync

/-- The side on which a pair lost its element, the left one first. -/
def Correspondence.lostOn? (c : Correspondence) (graphs : Sided Graph) : Option Side :=
  Side.all.find? fun s => !(graphs.on s).contains (c.element s)

/-- Does a rule of a pair of `owner` walk this role? -/
def Correspondences.walksRole (t : Correspondences) (rules : RuleSet) (s : Side) (owner : ElementId)
    (role : RoleName) : Bool :=
  (t.ofElement s owner).any fun c => (rules.rule? c.rule).any fun r => r.childrenOn s role ≠ []

namespace Walk

/-- Takes an element out of every role that a rule walks. -/
def unlinkWalked (rules : RuleSet) (s : Side) (e : ElementId) : Walk Unit := do
  ((← graph s).referrers e).forM fun (owner, role) => do
    if (← pairs).walksRole rules s owner role then unlink s owner role e

/-- Drops one pair that lost its element on side `s`. If deletions on that side reach the other one,
the survivor is unlinked first, or the walk would make a new counterpart for it. -/
def releaseLost (rules : RuleSet) (d : Direction) (c : Correspondence) (s : Side) : Walk Unit := do
  let survivor := c.element s.other
  if d.deletesFrom s && (← graph s.other).contains survivor then
    unlinkWalked rules s.other survivor
  releasePair c.id

/-- Drops every pair, but that of the roots, that lost an element since the last pass. -/
def releaseAllLost (rules : RuleSet) (d : Direction) : Walk Unit := do
  let w ← get
  let lost := w.pairs.members.filterMap fun c => (c.lostOn? w.graphs).map fun s => (c, s)
  lost.forM fun (c, s) => releaseLost rules d c s

/-- A pass from the roots down. -/
def syncRoots (rules : RuleSet) (d : Direction) (rootRule : RuleName) : Walk Unit := do
  let rule ← liftRule (rules.rule rootRule)
  let graphs := (← get).graphs
  let roots := graphs.map Graph.root
  let left ← liftGraph (graphs.left.typeOf roots.left)
  let right ← liftGraph (graphs.right.typeOf roots.right)
  let types : Sided TypeName := ⟨left, right⟩
  if types ≠ rule.types then throw (.rule (.invalid rule.name (.rootTypes types rule.types)))
  let id ← countPair (← onPairs (·.anchor rule.name roots d))
  releaseAllLost rules d
  start rules d rule id roots

end Walk

end GraphSync
