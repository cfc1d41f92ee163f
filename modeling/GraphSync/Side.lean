namespace GraphSync

/-- One of the two synchronized graphs. -/
inductive Side where
  | left
  | right
  deriving DecidableEq, Hashable, Repr

namespace Side

def other : Side → Side
  | left => right
  | right => left

def name : Side → String
  | left => "left"
  | right => "right"

def all : List Side := [left, right]

@[simp] theorem mem_all (s : Side) : s ∈ all := by cases s <;> decide

@[simp] theorem other_other (s : Side) : s.other.other = s := by cases s <;> rfl

@[simp] theorem other_ne (s : Side) : s.other ≠ s := by cases s <;> decide

@[simp] theorem ne_other (s : Side) : s ≠ s.other := by cases s <;> decide

theorem forall_iff {p : Side → Prop} : (∀ s, p s) ↔ p left ∧ p right :=
  ⟨fun h => ⟨h left, h right⟩, fun h s => by cases s <;> simp [h]⟩

theorem eq_or_eq_other (s t : Side) : t = s ∨ t = s.other := by cases s <;> cases t <;> decide

end Side

/-- One thing for each side. -/
@[ext] structure Sided (α : Type) where
  left : α
  right : α
  deriving DecidableEq, Hashable

/-- The pair that has `this` on the named side and `that` on the other one. -/
def Side.arrange {α : Type} (s : Side) (this that : α) : Sided α :=
  match s with
  | left => ⟨this, that⟩
  | right => ⟨that, this⟩

namespace Sided

variable {α β : Type}

def on (p : Sided α) : Side → α
  | .left => p.left
  | .right => p.right

/-- Replaces what is on one side. -/
def put (p : Sided α) (s : Side) (a : α) : Sided α :=
  match s with
  | .left => { p with left := a }
  | .right => { p with right := a }

def swap (p : Sided α) : Sided α := ⟨p.right, p.left⟩

def map (f : α → β) (p : Sided α) : Sided β := ⟨f p.left, f p.right⟩

@[simp] theorem on_put_self (p : Sided α) (s : Side) (a : α) : (p.put s a).on s = a := by
  cases s <;> rfl

@[simp] theorem on_put_other (p : Sided α) (s : Side) (a : α) :
    (p.put s a).on s.other = p.on s.other := by
  cases s <;> rfl

@[simp] theorem on_put_other_self (p : Sided α) (s : Side) (a : α) :
    (p.put s.other a).on s = p.on s := by
  cases s <;> rfl

theorem on_put_of_ne (p : Sided α) {s t : Side} (a : α) (h : t ≠ s) :
    (p.put s a).on t = p.on t := by
  cases s <;> cases t <;> first | rfl | exact absurd rfl h

theorem ext_on {p q : Sided α} (s : Side) (hs : p.on s = q.on s)
    (ho : p.on s.other = q.on s.other) : p = q := by
  cases s
  · exact Sided.ext hs ho
  · exact Sided.ext ho hs

@[simp] theorem put_put (p : Sided α) (s : Side) (a b : α) : (p.put s a).put s b = p.put s b := by
  cases s <;> rfl

@[simp] theorem put_on (p : Sided α) (s : Side) : p.put s (p.on s) = p := by cases s <;> rfl

@[simp] theorem swap_swap (p : Sided α) : p.swap.swap = p := rfl

theorem swap_inj {p q : Sided α} : p.swap = q.swap ↔ p = q :=
  ⟨fun h => congrArg swap h, fun h => congrArg swap h⟩

@[simp] theorem on_swap (p : Sided α) (s : Side) : p.swap.on s = p.on s.other := by cases s <;> rfl

@[simp] theorem swap_put (p : Sided α) (s : Side) (a : α) :
    (p.put s a).swap = p.swap.put s.other a := by
  cases s <;> rfl

@[simp] theorem on_map (f : α → β) (p : Sided α) (s : Side) : (p.map f).on s = f (p.on s) := by
  cases s <;> rfl

@[simp] theorem on_arrange_self (s : Side) (this that : α) :
    (s.arrange this that).on s = this := by
  cases s <;> rfl

@[simp] theorem on_arrange_other (s : Side) (this that : α) :
    (s.arrange this that).on s.other = that := by
  cases s <;> rfl

@[simp] theorem swap_arrange (s : Side) (this that : α) :
    (s.arrange this that).swap = s.other.arrange this that := by
  cases s <;> rfl

@[simp] theorem arrange_on (p : Sided α) (s : Side) : s.arrange (p.on s) (p.on s.other) = p := by
  cases s <;> rfl

end Sided

end GraphSync
