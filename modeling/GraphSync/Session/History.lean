import GraphSync.Graph.Edit
import GraphSync.Session.Flush

namespace GraphSync.Session

inductive Action where
  /-- Edits one graph through the session, which may carry the edits over at once. -/
  | edit (side : Side) (edits : List Edit)
  /-- Edits one graph directly. -/
  | mutate (side : Side) (edits : List Edit)
  | observe (side : Side)
  | stopObserving (side : Side)
  | collect
  | synchronize
  | flush
  deriving DecidableEq

/-- The session after an action. A pass or a flush that fails keeps what it did. -/
def perform (s : Session) : Action → Session
  | .edit side es => (s.edit side fun g => ((), g.editAll es)).2.2
  | .mutate side es => (s.mutate side fun g => ((), g.editAll es)).2
  | .observe side => s.observe side
  | .stopObserving side => s.stopObserving side
  | .collect => s.collect
  | .synchronize => s.synchronize.2
  | .flush => s.flush.2

def performAll (s : Session) (history : List Action) : Session := history.foldl perform s

@[simp] theorem performAll_nil (s : Session) : s.performAll [] = s := rfl

@[simp] theorem performAll_cons (s : Session) (a : Action) (history : List Action) :
    s.performAll (a :: history) = (s.perform a).performAll history := rfl

theorem performAll_append (s : Session) (h h' : List Action) :
    s.performAll (h ++ h') = (s.performAll h).performAll h' := List.foldl_append

/-- What holds at the start and is kept by every action holds after every history. -/
theorem performAll_induction {P : Session → Prop} {s : Session} (start : P s)
    (keep : ∀ t a, P t → P (t.perform a)) (history : List Action) :
    P (s.performAll history) := by
  induction history generalizing s with
  | nil => exact start
  | cons a history ih => exact ih (keep s a start)

end GraphSync.Session
