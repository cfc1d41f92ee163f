import GraphSync.Binary64.Shortest
import GraphSync.Text.Quoted

namespace GraphSync

/-- What an attribute holds. An attribute that was never written reads as `unset`. -/
inductive Value where
  | unset
  | bool (b : Bool)
  | int (n : Int64)
  | float (x : Binary64)
  | text (s : String)
  deriving DecidableEq

namespace Value

instance : Inhabited Value := ⟨unset⟩

/-- Equality of values: of one kind, and equal as that kind compares. -/
def same : Value → Value → Bool
  | unset, unset => true
  | bool a, bool b => a == b
  | int a, int b => a == b
  | float a, float b => a.same b
  | text a, text b => a == b
  | _, _ => false

/-- Absence, and the zero of every kind. A pass that does not overwrite fills exactly these. -/
def isDefault : Value → Bool
  | unset => true
  | bool b => !b
  | int n => n == 0
  | float x => x.isZero
  | text s => s == ""

def isUnset : Value → Bool
  | unset => true
  | _ => false

def asBool? : Value → Option Bool
  | bool b => some b
  | _ => none

def asInt? : Value → Option Int64
  | int n => some n
  | _ => none

def asText? : Value → Option String
  | text s => some s
  | _ => none

/-- The value for a reader: text is quoted, absence is named. -/
def display : Value → String
  | unset => "<unset>"
  | bool b => if b then "true" else "false"
  | int n => toString n.toInt
  | float x => x.display
  | text s => Text.quoted s

/-- Is this value free of NaN? -/
def isOrdered : Value → Bool
  | float x => !x.isNaN
  | _ => true

/-- Neither a NaN nor a negative zero. -/
def isPlain : Value → Bool
  | float x => !x.isNaN && !(x.isZero && x.negative)
  | _ => true

theorem isOrdered_of_isPlain {v : Value} (h : v.isPlain = true) : v.isOrdered = true := by
  cases v <;> simp_all [isPlain, isOrdered]

private theorem eq_of_same_float {x y : Binary64} (hx : (float x).isPlain = true)
    (hy : (float y).isPlain = true) (h : x.same y = true) : x = y := by
  simp only [isPlain, Bool.and_eq_true, Bool.not_eq_true', Bool.and_eq_false_iff] at hx hy
  simp only [Binary64.same, Bool.and_eq_true, Bool.or_eq_true, beq_iff_eq] at h
  rcases h.2 with rfl | ⟨hzx, hzy⟩
  · rfl
  · rw [Binary64.eq_zero hzx (hx.2.resolve_left (by simp [hzx])),
      Binary64.eq_zero hzy (hy.2.resolve_left (by simp [hzy]))]

/-- Plain values that compare as equal are identical. -/
theorem eq_of_same {v w : Value} (hv : v.isPlain = true) (hw : w.isPlain = true)
    (h : v.same w = true) : v = w := by
  cases v <;> cases w <;> simp only [same, Bool.false_eq_true, beq_iff_eq] at h
  case unset.unset => rfl
  case float.float => rw [eq_of_same_float hv hw h]
  all_goals rw [h]

theorem same_self_iff (v : Value) : v.same v = true ↔ v.isOrdered = true := by
  cases v <;> simp [same, isOrdered, Binary64.same]

theorem same_comm (v w : Value) : v.same w = w.same v := by
  cases v <;> cases w <;> simp only [same] <;>
    first
    | exact Bool.beq_comm
    | (rename_i a b
       simp only [Binary64.same, Bool.beq_comm (a := a), Bool.and_comm a.isZero]
       cases a.isNaN <;> cases b.isNaN <;> rfl)

theorem same_trans {u v w : Value} (h : u.same v = true) (h' : v.same w = true) :
    u.same w = true := by
  cases u <;> cases v <;> simp only [same, Bool.false_eq_true] at h <;>
    cases w <;> simp only [same, Bool.false_eq_true, beq_iff_eq] at h h' ⊢
  case float.float.float x y z =>
    simp only [Binary64.same, Bool.and_eq_true, Bool.or_eq_true, Bool.not_eq_true',
      beq_iff_eq] at h h' ⊢
    grind
  all_goals exact h.trans h'

end Value

end GraphSync
