import GraphSync.Correspondence.Basic
import Mathlib.Data.List.ReduceOption

namespace GraphSync

deriving instance Hashable for ElementId

namespace Correspondences

/-- The record as it is held for fast look-ups. Each handle that was ever given out has a slot,
which is emptied when its pair is dropped; tables lead from what is known of a pair to its
handle. -/
structure Indexed where
  slots : List (Option Correspondence) := []
  /-- The handle of the pair of an element under a rule, on each side. -/
  byKey : Sided (Std.HashMap (RuleName × ElementId) CorrespondenceId) := ⟨∅, ∅⟩
  byPair : Std.HashMap (Sided ElementId) CorrespondenceId := ∅
  /-- The handles of the pairs that an element takes part in; no list is empty. -/
  byElement : Std.HashMap (Side × ElementId) (List CorrespondenceId) := ∅
  /-- The handle of the pair of the two roots. -/
  anchored : Option CorrespondenceId := none

namespace Indexed

/-- The pairs that are recorded, oldest first. -/
def live (t : Indexed) : List Correspondence := t.slots.reduceOption

/-- The record as a list. -/
def record (t : Indexed) : Correspondences := ⟨t.live, t.slots.length⟩

def get? (t : Indexed) (id : CorrespondenceId) : Option Correspondence := t.slots[id.index]?.join

def lookup? (t : Indexed) (rule : RuleName) (s : Side) (e : ElementId) : Option Correspondence :=
  (t.byKey.on s)[(rule, e)]?.bind t.get?

def anchor? (t : Indexed) : Option Correspondence := t.anchored.bind t.get?

/-- The handles of the pairs of an element. -/
def ofElement (t : Indexed) (s : Side) (e : ElementId) : List CorrespondenceId :=
  t.byElement[(s, e)]?.getD []

def partners (t : Indexed) (s : Side) (e : ElementId) : List ElementId :=
  ((t.ofElement s e).filterMap t.get?).map (·.element s.other)

def members (t : Indexed) : List Correspondence := t.live.filter (!·.isAnchor)

def ofRule (t : Indexed) (rule : RuleName) : List Correspondence :=
  t.members.filter (·.rule = rule)

def length (t : Indexed) : Nat := t.members.length

/-- Lists a pair with one of its elements. -/
def enroll (m : Std.HashMap (Side × ElementId) (List CorrespondenceId)) (s : Side) (e : ElementId)
    (id : CorrespondenceId) : Std.HashMap (Side × ElementId) (List CorrespondenceId) :=
  m.alter (s, e) fun ids => some (ids.getD [] ++ [id])

/-- Takes a pair off the list of one of its elements, and the list out of the table if nothing is
left on it. -/
def dismiss (m : Std.HashMap (Side × ElementId) (List CorrespondenceId)) (s : Side) (e : ElementId)
    (id : CorrespondenceId) : Std.HashMap (Side × ElementId) (List CorrespondenceId) :=
  m.alter (s, e) fun ids => ids.bind fun ids =>
    let rest := ids.filter (· ≠ id)
    if rest = [] then none else some rest

/-- Records a pair under the next handle. -/
def push (t : Indexed) (rule : RuleName) (pair : Sided ElementId) (d : Direction) : Indexed :=
  let id : CorrespondenceId := ⟨t.slots.length⟩
  { t with
    slots := t.slots ++ [some { id, rule, elements := pair, createdIn := d }]
    byKey :=
      ⟨t.byKey.left.insert (rule, pair.left) id, t.byKey.right.insert (rule, pair.right) id⟩
    byPair := t.byPair.insert pair id
    byElement := enroll (enroll t.byElement .left pair.left id) .right pair.right id }

/-- The recorded pair, or a new one if nothing recorded contradicts it. -/
def obtain? (t : Indexed) (rule : RuleName) (pair : Sided ElementId) (d : Direction) :
    Except PairConflict (Obtained × Indexed) :=
  let known :=
    t.byKey.left[(rule, pair.left)]?.or (t.byKey.right[(rule, pair.right)]?.or t.byPair[pair]?)
  match known.bind t.get? with
  | some c =>
    if c.Is rule pair then .ok (⟨c.id, false⟩, t) else .error ⟨rule, pair, c.elements⟩
  | none => .ok (⟨⟨t.slots.length⟩, true⟩, t.push rule pair d)

/-- Changes one entry, if it is recorded. -/
def modify (t : Indexed) (id : CorrespondenceId) (f : Correspondence → Correspondence) :
    Indexed :=
  { t with slots := t.slots.modify id.index (Option.map f) }

/-- The pair of the two roots, recorded or new. -/
def anchor (t : Indexed) (rule : RuleName) (pair : Sided ElementId) (d : Direction) :
    Except PairConflict (Obtained × Indexed) :=
  match t.anchor? with
  | some c =>
    if c.Is rule pair then .ok (⟨c.id, false⟩, t) else .error ⟨rule, pair, c.elements⟩
  | none => do
    let (o, t') ← t.obtain? rule pair d
    return (o, { t'.modify o.id ({ · with isAnchor := true }) with anchored := some o.id })

/-- Drops an entry and returns it; dropping an absent one changes nothing. -/
def remove (t : Indexed) (id : CorrespondenceId) : Option Correspondence × Indexed :=
  match t.get? id with
  | none => (none, t)
  | some c =>
    let left := c.element .left
    let right := c.element .right
    (some c,
      { slots := t.slots.modify id.index fun _ => none
        byKey := ⟨t.byKey.left.erase (c.rule, left), t.byKey.right.erase (c.rule, right)⟩
        byPair := t.byPair.erase c.elements
        byElement := dismiss (dismiss t.byElement .left left id) .right right id
        anchored := if t.anchored = some id then none else t.anchored })

/-- Drops the entries of the given handles one by one, and returns what was dropped. -/
def removeAll (t : Indexed) : List CorrespondenceId → List Correspondence × Indexed
  | [] => ([], t)
  | id :: ids =>
    let (c?, t) := t.remove id
    let (cs, t) := t.removeAll ids
    (c?.toList ++ cs, t)

/-- Drops every entry of an element. -/
def release (t : Indexed) (s : Side) (e : ElementId) : List Correspondence × Indexed :=
  t.removeAll (t.ofElement s e)

def recordShadow (t : Indexed) (id : CorrespondenceId) (binding : Nat) (values : Shadow) :
    Indexed :=
  t.modify id fun c => { c with shadows := c.shadows.insert binding values }

end Indexed

/-- What the record may be asked for. -/
inductive Call where
  /-- The pair of two elements under a rule. -/
  | pair (rule : RuleName) (elements : Sided ElementId) (d : Direction)
  /-- The pair of the two roots. -/
  | root (rule : RuleName) (elements : Sided ElementId) (d : Direction)
  | drop (id : CorrespondenceId)
  | release (s : Side) (e : ElementId)
  | remember (id : CorrespondenceId) (binding : Nat) (values : Shadow)

inductive Answer where
  | obtained (o : Obtained)
  | refused (c : PairConflict)
  | dropped (cs : List Correspondence)
  | remembered
  deriving DecidableEq

/-- Answers a request for a pair; a refusal changes nothing. -/
def answer {α : Type} (t : α) : Except PairConflict (Obtained × α) → Answer × α
  | .ok (o, t') => (.obtained o, t')
  | .error c => (.refused c, t)

def call (t : Correspondences) : Call → Answer × Correspondences
  | .pair rule elements d => answer t (t.obtain? rule elements d)
  | .root rule elements d => answer t (t.anchor rule elements d)
  | .drop id => (.dropped (t.get? id).toList, t.remove id)
  | .release s e => (.dropped (t.release s e).1, (t.release s e).2)
  | .remember id binding values => (.remembered, t.recordShadow id binding values)

def Indexed.call (t : Indexed) : Call → Answer × Indexed
  | .pair rule elements d => answer t (t.obtain? rule elements d)
  | .root rule elements d => answer t (t.anchor rule elements d)
  | .drop id => (.dropped (t.remove id).1.toList, (t.remove id).2)
  | .release s e => (.dropped (t.release s e).1, (t.release s e).2)
  | .remember id binding values => (.remembered, t.recordShadow id binding values)

/-- The record after a sequence of calls. -/
def callAll (t : Correspondences) (calls : List Call) : Correspondences :=
  calls.foldl (fun t c => (t.call c).2) t

def Indexed.callAll (t : Indexed) (calls : List Call) : Indexed :=
  calls.foldl (fun t c => (t.call c).2) t

end Correspondences

end GraphSync
