import GraphSync.Binary64.Shortest

namespace GraphSync

/-- Members of an object keep their order and may repeat. -/
inductive Json where
  | null
  | bool (b : Bool)
  /-- An integer that was written as one and fits into 64 bits, signed or unsigned. -/
  | int (n : Int)
  | float (x : Binary64)
  | string (s : String)
  | array (items : List Json)
  | object (members : List (String × Json))
  /-- Well-formed text without a value: a number beyond the range, an unpaired surrogate. It may
  only stand where it is ignored. -/
  | unreadable

namespace Json

def ofNat (n : Nat) : Json := int n

/-- Containers nested in each other, this one included. -/
def depth : Json → Nat
  | array items => depths items + 1
  | object members => memberDepths members + 1
  | _ => 0
where
  depths : List Json → Nat
    | [] => 0
    | j :: rest => max j.depth (depths rest)
  memberDepths : List (String × Json) → Nat
    | [] => 0
    | (_, j) :: rest => max j.depth (memberDepths rest)

/-- Does every part have a value? -/
def isReadable : Json → Bool
  | unreadable => false
  | array items => allReadable items
  | object members => membersReadable members
  | _ => true
where
  allReadable : List Json → Bool
    | [] => true
    | j :: rest => j.isReadable && allReadable rest
  membersReadable : List (String × Json) → Bool
    | [] => true
    | (_, j) :: rest => j.isReadable && membersReadable rest

end Json

end GraphSync
