import GraphSync.Walk.Basic

namespace GraphSync

/-- The live counterpart that `member` already has for a child. A counterpart that stands in the
following role is preferred, whatever rule made the pair; otherwise one whose rule makes elements of
the declared type will do. The pair of the roots is never a candidate. -/
def Correspondences.counterpart? (t : Correspondences) (rules : RuleSet) (child : Child)
    (auth : Side) (following : Graph) (present : List ElementId) (member : ElementId) :
    Option Correspondence :=
  let other := auth.other
  let live := (t.ofElement auth member).filter fun c =>
    !c.isAnchor && following.contains (c.element other)
  (live.find? fun c => c.element other ∈ present).or
    (live.find? fun c => (rules.rule? c.rule).any (·.types.on other = child.types.on other))

/-- Where in `present` the first counterpart of `member` stands. -/
def Correspondences.position? (t : Correspondences) (auth : Side) (present : List ElementId)
    (member : ElementId) : Option Nat :=
  (t.partners auth member).findSome? (present.idxOf? ·)

/-- Where a new counterpart goes: right after the counterpart of the nearest earlier sibling, else
right before that of the nearest later one, else at the end. Both lists of siblings start with the
nearest. -/
def Correspondences.slot (t : Correspondences) (auth : Side)
    (present earlier later : List ElementId) : Nat :=
  match earlier.findSome? (t.position? auth present) with
  | some i => i + 1
  | none => (later.findSome? (t.position? auth present)).getD present.length

namespace Walk

/-- Applies a rule to a recorded pair. -/
abbrev Apply := Rule → CorrespondenceId → Sided ElementId → Walk Unit

/-- Puts `target` into a role unless it is there. -/
def link (auth : Side) (owner : ElementId) (role : RoleName) (target : ElementId)
    (earlier later : List ElementId) : Walk Unit := do
  let other := auth.other
  let present ← liftGraph ((← graph other).references owner role)
  if target ∈ present then return
  let index := (← pairs).slot auth present earlier later
  let _ ← onGraph other (·.insertReference owner role index target)
  note fun r => { r with referencesLinked := r.referencesLinked + 1 }

/-- Makes a counterpart for `member` by the rule for its type and the type that the child declares.
A pair it still has under that rule is useless, or it would have been found, and is dropped. -/
def create (rules : RuleSet) (child : Child) (auth : Side) (member : ElementId) :
    Walk (Rule × ElementId) := do
  let other := auth.other
  let kind ← liftGraph ((← graph auth).typeOf member)
  let rule ← liftRule (rules.ruleFor (auth.arrange kind (child.types.on other)))
  if let some stale := (← pairs).lookup? rule.name auth member then releasePair stale.id
  let created ← onGraph other fun g => .ok (g.add (rule.types.on other))
  note fun r => { r with elementsCreated := r.elementsCreated + 1 }
  return (rule, created)

/-- The counterpart of a member, found or made, with the rule of their pair. -/
def findOrCreate (rules : RuleSet) (child : Child) (auth : Side) (owner member : ElementId) :
    Walk (Rule × ElementId) := do
  let other := auth.other
  let following ← graph other
  let present ← liftGraph (following.references owner (child.roles.on other))
  match (← pairs).counterpart? rules child auth following present member with
  | some c => return (← liftRule (rules.rule c.rule), c.element other)
  | none => create rules child auth member

/-- Records a pair, if it is new, and applies its rule. -/
def enter (d : Direction) (apply : Apply) (rule : Rule) (pair : Sided ElementId) : Walk Unit := do
  let id ← countPair (← onPairs (·.obtain? rule.name pair d))
  apply rule id pair

/-- Gives one member of a role its counterpart in the role of `owner` on the other side. -/
def linkMember (rules : RuleSet) (d : Direction) (apply : Apply) (child : Child) (auth : Side)
    (owner : ElementId) (earlier : List ElementId) (member : ElementId) (later : List ElementId) :
    Walk ElementId := do
  let (rule, partner) ← findOrCreate rules child auth owner member
  link auth owner (child.roles.on auth.other) partner earlier later
  enter d apply rule (auth.arrange member partner)
  return partner

/-- Gives every member its counterpart, in order; `earlier` holds the members done, the last one
first. -/
def linkMembers (rules : RuleSet) (d : Direction) (apply : Apply) (child : Child) (auth : Side)
    (owner : ElementId) (earlier : List ElementId) : List ElementId → Walk (List ElementId)
  | [] => return []
  | member :: later => do
    let partner ← linkMember rules d apply child auth owner earlier member later
    return partner :: (← linkMembers rules d apply child auth owner (member :: earlier) later)

/-- Takes out of a role the elements that have a counterpart, but none among the members just
walked. Elements without any counterpart are left alone. -/
def unlinkStale (child : Child) (auth : Side) (owner : ElementId) (partners : List ElementId) :
    Walk Unit := do
  let other := auth.other
  let role := child.roles.on other
  let present ← liftGraph ((← graph other).references owner role)
  present.forM fun e => do
    if e ∉ partners ∧ (← pairs).partners other e ≠ [] then
      let _ ← onGraph other (·.removeReference owner role e)
      note fun r => { r with referencesUnlinked := r.referencesUnlinked + 1 }

/-- Walks the role of one child on the `auth` side of a pair. -/
def syncRole (rules : RuleSet) (d : Direction) (apply : Apply) (child : Child) (auth : Side)
    (pair : Sided ElementId) : Walk Unit := do
  let members ← liftGraph ((← graph auth).references (pair.on auth) (child.roles.on auth))
  let owner := pair.on auth.other
  let partners ← linkMembers rules d apply child auth owner [] members
  if d.isForced then unlinkStale child auth owner partners

end Walk

end GraphSync
