import Mathlib.Data.List.ReduceOption

namespace GraphSync

variable {α ι : Type} {key : α → ι} {handle : Nat → ι} {n : Nat} {slots : List (Option α)}

/-- Each thing stands in the slot of its handle; the first slot is that of number `n`. -/
def Placed (key : α → ι) (handle : Nat → ι) (n : Nat) (slots : List (Option α)) : Prop :=
  ∀ (i : Nat) (a : α), slots[i]? = some (some a) → key a = handle (n + i)

namespace Placed

theorem tail {x : Option α} (h : Placed key handle n (x :: slots)) :
    Placed key handle (n + 1) slots := by
  intro i a hi
  rw [h (i + 1) a (by simpa using hi)]
  congr 1
  omega

theorem exists_index (h : Placed key handle n slots) {a : α} (ha : a ∈ slots.reduceOption) :
    ∃ i, key a = handle (n + i) := by
  obtain ⟨i, hi⟩ := List.mem_iff_getElem?.mp (List.reduceOption_mem_iff.mp ha)
  exact ⟨i, h i a hi⟩

/-- Nothing in later slots has the handle of an earlier one. -/
theorem ne_of_lt (hinj : handle.Injective) (h : Placed key handle n slots) {a : α}
    (ha : a ∈ slots.reduceOption) {m : Nat} (hm : m < n) : key a ≠ handle m := by
  obtain ⟨i, hi⟩ := h.exists_index ha
  rw [hi]
  intro he
  have := hinj he
  omega

theorem modify (h : Placed key handle n slots) {g : α → Option α}
    (hg : ∀ a a', g a = some a' → key a' = key a) (i : Nat) :
    Placed key handle n (slots.modify i (·.bind g)) := by
  intro j a hj
  rw [List.getElem?_modify] at hj
  obtain ⟨x, hx, hxa⟩ := Option.map_eq_some_iff.mp hj
  by_cases hij : i = j
  · rw [if_pos hij] at hxa
    obtain ⟨b, rfl, hb⟩ := Option.bind_eq_some_iff.mp hxa
    rw [hg b a hb]
    exact h j b hx
  · rw [if_neg hij] at hxa
    cases hxa
    exact h j a hx

theorem concat (h : Placed key handle 0 slots) {a : α} (ha : key a = handle slots.length) :
    Placed key handle 0 (slots ++ [some a]) := by
  intro i b hi
  rw [List.getElem?_append] at hi
  split at hi
  · exact h i b hi
  · rename_i hlt
    obtain ⟨hlast, hab⟩ : i - slots.length = 0 ∧ some a = some b := by
      rw [List.getElem?_singleton] at hi
      split at hi
      · rename_i hzero
        exact ⟨hzero, Option.some.inj hi⟩
      · cases hi
    obtain rfl := Option.some.inj hab
    rw [ha]
    congr 1
    omega

variable [DecidableEq ι]

/-- What is done to one slot is done to what has its handle. -/
theorem reduceOption_modify (hinj : handle.Injective) (h : Placed key handle n slots) (i : Nat)
    (g : α → Option α) :
    (slots.modify i (·.bind g)).reduceOption =
      slots.reduceOption.filterMap fun a => if key a = handle (n + i) then g a else some a := by
  induction slots generalizing n i with
  | nil => simp
  | cons x slots ih =>
    have head (a : α) (hx : x = some a) : key a = handle n := h 0 a (by simp [hx])
    cases i with
    | zero =>
      have hrest :
          slots.reduceOption.filterMap (fun a => if key a = handle n then g a else some a) =
          slots.reduceOption := by
        refine (List.filterMap_congr (g := some) fun a ha => ?_).trans List.filterMap_some
        rw [if_neg (h.tail.ne_of_lt hinj ha (Nat.lt_succ_self n))]
      rw [Nat.add_zero]
      cases x with
      | none =>
        simp only [List.modify_zero_cons, Option.bind_none, List.reduceOption_cons_of_none, hrest]
      | some a =>
        simp only [List.modify_zero_cons, Option.bind_some, List.reduceOption_cons_of_some,
          List.filterMap_cons, head a rfl, if_true]
        cases g a <;> simp [hrest]
    | succ i =>
      have hi := ih h.tail i
      rw [Nat.succ_add_eq_add_succ] at hi
      cases x with
      | none => simp only [List.modify_succ_cons, List.reduceOption_cons_of_none, hi]
      | some a =>
        have hne : key a ≠ handle (n + (i + 1)) := by
          rw [head a rfl]
          intro he
          have := hinj he
          omega
        simp only [List.modify_succ_cons, List.reduceOption_cons_of_some, hi, List.filterMap_cons,
          hne, if_false]

/-- A slot is emptied. -/
theorem clear (hinj : handle.Injective) (h : Placed key handle 0 slots) (i : Nat) :
    Placed key handle 0 (slots.modify i fun _ => none) ∧
      (slots.modify i fun _ => none).reduceOption = slots.reduceOption.filter
        (key · ≠ handle i) := by
  have hfun : (fun _ : Option α => (none : Option α)) = (·.bind fun _ => none) := by
    funext y
    cases y <;> rfl
  rw [hfun]
  refine ⟨h.modify (fun _ _ he => by cases he) i, ?_⟩
  rw [h.reduceOption_modify hinj, ← List.filterMap_eq_filter, Nat.zero_add]
  refine List.filterMap_congr fun a _ => ?_
  by_cases hi : key a = handle i <;> simp [Option.guard, hi]

/-- What stands in a slot is changed and keeps its handle. -/
theorem map (hinj : handle.Injective) (h : Placed key handle 0 slots) (i : Nat) {f : α → α}
    (hf : ∀ a, key (f a) = key a) :
    Placed key handle 0 (slots.modify i (Option.map f)) ∧
      (slots.modify i (Option.map f)).reduceOption =
      slots.reduceOption.map fun a => if key a = handle i then f a else a := by
  have hfun : Option.map f = (·.bind fun a => some (f a)) := by
    funext y
    cases y <;> rfl
  rw [hfun]
  refine ⟨h.modify (fun a a' he => ?_) i, ?_⟩
  · rw [← Option.some.inj he, hf]
  · rw [h.reduceOption_modify hinj, ← List.filterMap_eq_map, Nat.zero_add]
    refine List.filterMap_congr fun a _ => ?_
    by_cases hi : key a = handle i <;> simp [hi]

/-- The slot of a handle holds what a search for the handle finds. -/
theorem join_getElem? (hinj : handle.Injective) (h : Placed key handle n slots) (i : Nat) :
    slots[i]?.join = slots.reduceOption.find? (key · = handle (n + i)) := by
  induction slots generalizing n i with
  | nil => simp
  | cons x slots ih =>
    have head (a : α) (hx : x = some a) : key a = handle n := h 0 a (by simp [hx])
    cases i with
    | zero =>
      have hrest : slots.reduceOption.find? (key · = handle n) = none :=
        List.find?_eq_none.mpr fun a ha => by
          simpa using h.tail.ne_of_lt hinj ha (Nat.lt_succ_self n)
      cases x with
      | none => simpa using hrest.symm
      | some a => simp [head a rfl]
    | succ i =>
      have hi := ih h.tail i
      rw [Nat.succ_add_eq_add_succ] at hi
      cases x with
      | none => simpa using hi
      | some a =>
        have hne : key a ≠ handle (n + (i + 1)) := by
          rw [head a rfl]
          intro he
          have := hinj he
          omega
        simp only [List.getElem?_cons_succ, hi, List.reduceOption_cons_of_some]
        rw [List.find?_cons_of_neg (by simpa using hne)]

end Placed

end GraphSync
