import GraphSync.Dict
import GraphSync.Value

namespace GraphSync

/-- Handle of an element. A graph hands out increasing handles and never reuses one. -/
structure ElementId where
  index : Nat
  deriving DecidableEq

namespace ElementId

def label (id : ElementId) : String := "#" ++ toString id.index

end ElementId

abbrev TypeName := String

abbrev AttributeName := String

abbrev RoleName := String

/-- An empty role is not stored, so a role that was emptied and one that was never used are the
same. -/
structure Element where
  id : ElementId
  kind : TypeName
  attributes : Dict AttributeName Value := ∅
  roles : Dict RoleName (List ElementId) := ∅
  deriving DecidableEq

namespace Element

def value (e : Element) (name : AttributeName) : Value := (e.attributes.get? name).getD .unset

def setValue (e : Element) (name : AttributeName) (v : Value) : Element :=
  { e with attributes := e.attributes.insert name v }

/-- The targets of a role, in order. -/
def targets (e : Element) (role : RoleName) : List ElementId := (e.roles.get? role).getD []

def setTargets (e : Element) (role : RoleName) (ts : List ElementId) : Element :=
  { e with roles := if ts = [] then e.roles.erase role else e.roles.insert role ts }

@[simp] theorem value_setValue_self (e : Element) (name : AttributeName) (v : Value) :
    (e.setValue name v).value name = v := by
  simp [value, setValue]

theorem value_setValue_of_ne (e : Element) {name other : AttributeName} (v : Value)
    (h : other ≠ name) : (e.setValue name v).value other = e.value other := by
  simp [value, setValue, Dict.get?_insert_of_ne _ _ h]

@[simp] theorem targets_setValue (e : Element) (name : AttributeName) (v : Value)
    (role : RoleName) : (e.setValue name v).targets role = e.targets role := rfl

@[simp] theorem targets_setTargets_self (e : Element) (role : RoleName) (ts : List ElementId) :
    (e.setTargets role ts).targets role = ts := by
  by_cases h : ts = [] <;> simp [targets, setTargets, h]

theorem targets_setTargets_of_ne (e : Element) {role other : RoleName} (ts : List ElementId)
    (h : other ≠ role) : (e.setTargets role ts).targets other = e.targets other := by
  by_cases hts : ts = [] <;>
    simp [targets, setTargets, hts, Dict.get?_erase_of_ne _ h, Dict.get?_insert_of_ne _ _ h]

@[simp] theorem value_setTargets (e : Element) (role : RoleName) (ts : List ElementId)
    (name : AttributeName) : (e.setTargets role ts).value name = e.value name := rfl

end Element

end GraphSync
