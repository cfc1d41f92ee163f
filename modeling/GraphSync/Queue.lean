import GraphSync.Graph.Change
import GraphSync.Side

namespace GraphSync

structure Pending where
  sequence : Nat
  side : Side
  change : Change
  deriving DecidableEq

/-- Edits waiting to be carried over, oldest first. Sequence numbers are never reused, also after
the queue was emptied. -/
structure Queue where
  items : List Pending := []
  next : Nat := 0
  deriving DecidableEq

namespace Queue

def push (q : Queue) (s : Side) (c : Change) : Queue :=
  { items := q.items ++ [⟨q.next, s, c⟩], next := q.next + 1 }

def pushAll (q : Queue) (s : Side) (cs : List Change) : Queue := cs.foldl (·.push s ·) q

/-- The oldest item and the rest. -/
def pop? (q : Queue) : Option (Pending × Queue) :=
  match q.items with
  | [] => none
  | p :: rest => some (p, { q with items := rest })

def clear (q : Queue) : Queue := { q with items := [] }

end Queue

end GraphSync
