import GraphSync.Side

namespace GraphSync

/-- Who follows whom during a pass. A forced direction overwrites the following side, an unforced
one only fills what is still unset there. With `twoWay` both sides follow each other, and a double
edit is a conflict. -/
inductive Direction where
  | oneWay (source : Side) (forced : Bool)
  | twoWay
  deriving DecidableEq

namespace Direction

/-- The side whose edits drive one-way propagation. -/
def source : Direction → Side
  | oneWay s _ => s
  | twoWay => .left

def isForced : Direction → Bool
  | oneWay _ forced => forced
  | twoWay => false

/-- The sides whose roles are walked, in that order. -/
def authorities : Direction → List Side
  | oneWay s _ => [s]
  | twoWay => Side.all

/-- Does a deletion on side `s` reach the other side? -/
def deletesFrom : Direction → Side → Bool
  | oneWay source forced, s => forced && source == s
  | twoWay, _ => true

def swap : Direction → Direction
  | oneWay s forced => oneWay s.other forced
  | twoWay => twoWay

def all : List Direction :=
  [oneWay .left true, oneWay .right true, oneWay .left false, oneWay .right false, twoWay]

def name : Direction → String
  | oneWay .left true => "left-to-right-forced"
  | oneWay .right true => "right-to-left-forced"
  | oneWay .left false => "left-to-right"
  | oneWay .right false => "right-to-left"
  | twoWay => "two-way"

def ofName? (s : String) : Option Direction := all.find? (·.name = s)

@[simp] theorem ofName?_name (d : Direction) : ofName? d.name = some d := by
  rcases d with ⟨_ | _, _ | _⟩ | _ <;> rfl

end Direction

/-- A name as it is compared: letters in lower case, words joined by hyphens. ASCII is enough,
because no accepted name contains `k`, the only ASCII letter that is the lower case of another
character. -/
def foldName (s : String) : String :=
  s.map fun c => if c = '_' then '-' else c.toLower

/-- Reads a direction as a person writes it. -/
def Direction.parse? (s : String) : Option Direction :=
  let folded := foldName s
  if folded = "twoway" then some .twoWay else ofName? folded

inductive Timing where
  | deferred
  | immediate
  deriving DecidableEq

/-- What happens to edits after a pass: they are not recorded, or those of the source side are
carried over, or those of both sides are. -/
inductive Propagation where
  | off
  | oneWay (timing : Timing)
  | twoWay (timing : Timing)
  deriving DecidableEq

namespace Propagation

def records : Propagation → Bool
  | off => false
  | _ => true

def isImmediate : Propagation → Bool
  | oneWay .immediate => true
  | twoWay .immediate => true
  | _ => false

def isTwoWay : Propagation → Bool
  | twoWay _ => true
  | _ => false

/-- Is an edit made on side `s` carried over? -/
def accepts : Propagation → Side → Direction → Bool
  | off, _, _ => false
  | oneWay _, s, d => s == d.source
  | twoWay _, _, _ => true

def all : List Propagation :=
  [off, oneWay .deferred, oneWay .immediate, twoWay .deferred, twoWay .immediate]

def name : Propagation → String
  | off => "none"
  | oneWay .deferred => "one-way-deferred"
  | oneWay .immediate => "one-way-immediate"
  | twoWay .deferred => "two-way"
  | twoWay .immediate => "two-way-immediate"

def ofName? (s : String) : Option Propagation := all.find? (·.name = s)

@[simp] theorem ofName?_name (p : Propagation) : ofName? p.name = some p := by
  rcases p with _ | ⟨_ | _⟩ | ⟨_ | _⟩ <;> rfl

/-- Other spellings that a person may write. -/
def aliases : List (String × Propagation) :=
  [("off", off), ("deferred", oneWay .deferred), ("one-way", oneWay .immediate),
    ("immediate", oneWay .immediate), ("two-way-deferred", twoWay .deferred)]

/-- Reads a propagation mode as a person writes it. -/
def parse? (s : String) : Option Propagation :=
  let folded := foldName s
  (ofName? folded).or ((aliases.find? (·.1 = folded)).map Prod.snd)

end Propagation

structure Options where
  direction : Direction := .oneWay .left true
  propagation : Propagation := .off
  deriving DecidableEq

namespace Options

/-- The direction in which recorded edits are carried over. -/
def flushDirection (o : Options) : Direction :=
  if o.propagation.isTwoWay then .twoWay else o.direction

def accepts (o : Options) (s : Side) : Bool := o.propagation.accepts s o.direction

end Options

end GraphSync
