namespace GraphSync

/-- Finite map from keys to values; the entries are listed by increasing key. -/
structure Dict (κ : Type) [Ord κ] (α : Type) where
  entries : List (κ × α)
  sorted : entries.Pairwise (fun a b => compare a.1 b.1 = .lt)
  deriving DecidableEq

namespace Dict

variable {κ α : Type} [Ord κ]

def empty : Dict κ α := ⟨[], .nil⟩

instance : EmptyCollection (Dict κ α) := ⟨empty⟩

instance : Inhabited (Dict κ α) := ⟨empty⟩

def keys (d : Dict κ α) : List κ := d.entries.map Prod.fst

/-- The value stored under `k`, if any. -/
def get? [DecidableEq κ] (d : Dict κ α) (k : κ) : Option α :=
  (d.entries.find? (·.1 = k)).map Prod.snd

/-- Entries with `k` bound to `v`, in the place that keeps the keys increasing. -/
def put (k : κ) (v : α) : List (κ × α) → List (κ × α)
  | [] => [(k, v)]
  | (k', v') :: rest =>
    match compare k k' with
    | .lt => (k, v) :: (k', v') :: rest
    | .eq => (k, v) :: rest
    | .gt => (k', v') :: put k v rest

theorem mem_put {k : κ} {v : α} {l : List (κ × α)} {e : κ × α} (h : e ∈ put k v l) :
    e = (k, v) ∨ e ∈ l := by
  induction l with
  | nil => simpa [put] using h
  | cons a l ih =>
    unfold put at h
    split at h
    · simpa using h
    · rcases List.mem_cons.1 h with h | h
      · exact .inl h
      · exact .inr (List.mem_cons_of_mem _ h)
    · rcases List.mem_cons.1 h with h | h
      · exact .inr (h ▸ List.mem_cons_self)
      · exact (ih h).imp_right (List.mem_cons_of_mem _)

theorem sorted_put [Std.TransOrd κ] {k : κ} {v : α} {l : List (κ × α)}
    (h : l.Pairwise (fun a b => compare a.1 b.1 = .lt)) :
    (put k v l).Pairwise (fun a b => compare a.1 b.1 = .lt) := by
  induction l with
  | nil => simp [put]
  | cons a l ih =>
    obtain ⟨ha, hl⟩ := List.pairwise_cons.1 h
    unfold put
    split
    · rename_i hc
      refine List.pairwise_cons.2 ⟨fun b hb => ?_, h⟩
      rcases List.mem_cons.1 hb with rfl | hb
      · exact hc
      · exact Std.TransCmp.lt_trans hc (ha b hb)
    · rename_i hc
      exact List.pairwise_cons.2 ⟨fun b hb => Std.TransCmp.lt_of_eq_of_lt hc (ha b hb), hl⟩
    · rename_i hc
      refine List.pairwise_cons.2 ⟨fun b hb => ?_, ih hl⟩
      rcases mem_put hb with rfl | hb
      · exact Std.OrientedCmp.lt_of_gt hc
      · exact ha b hb

/-- Binds `k` to `v`, replacing what was there. -/
def insert [Std.TransOrd κ] (d : Dict κ α) (k : κ) (v : α) : Dict κ α :=
  ⟨put k v d.entries, sorted_put d.sorted⟩

/-- Drops the entry of `k`. -/
def erase [DecidableEq κ] (d : Dict κ α) (k : κ) : Dict κ α :=
  ⟨d.entries.filter (·.1 ≠ k), d.sorted.filter _⟩

/-- The entries whose value is wanted. -/
def filter (p : α → Bool) (d : Dict κ α) : Dict κ α :=
  ⟨d.entries.filter (p ·.2), d.sorted.filter _⟩

section Lookup

variable [DecidableEq κ]

theorem mem_of_get? {d : Dict κ α} {k : κ} {v : α} (h : d.get? k = some v) :
    (k, v) ∈ d.entries := by
  obtain ⟨⟨k', v'⟩, he, rfl⟩ := Option.map_eq_some_iff.mp h
  obtain rfl : k' = k := by simpa using List.find?_some he
  exact List.mem_of_find?_eq_some he

@[simp] theorem get?_empty (k : κ) : (∅ : Dict κ α).get? k = none := rfl

@[simp] theorem get?_erase_self (d : Dict κ α) (k : κ) : (d.erase k).get? k = none := by
  simp [get?, erase]

theorem get?_erase_of_ne (d : Dict κ α) {k k' : κ} (h : k' ≠ k) :
    (d.erase k).get? k' = d.get? k' := by
  simp only [get?, erase, List.find?_filter]
  congr 2
  funext e
  by_cases he : e.1 = k' <;> simp [he, h]

variable [Std.TransOrd κ] [Std.LawfulEqOrd κ]

@[simp] theorem get?_insert_self (d : Dict κ α) (k : κ) (v : α) :
    (d.insert k v).get? k = some v := by
  simp only [get?, insert]
  generalize d.entries = l
  induction l with
  | nil => simp [put]
  | cons a l ih =>
    unfold put
    split
    · simp
    · simp
    · rename_i hc
      have hne : a.1 ≠ k := by
        intro he
        simp [he] at hc
      rw [List.find?_cons_of_neg (by simpa using hne)]
      exact ih

theorem get?_insert_of_ne (d : Dict κ α) {k k' : κ} (v : α) (h : k' ≠ k) :
    (d.insert k v).get? k' = d.get? k' := by
  simp only [get?, insert]
  generalize d.entries = l
  induction l with
  | nil => simp [put, h.symm]
  | cons a l ih =>
    unfold put
    split
    · simp [h.symm]
    · rename_i hc
      have hk : k = a.1 := Std.LawfulEqOrd.eq_of_compare hc
      simp [h.symm, ← hk]
    · by_cases ha : a.1 = k'
      · simp [ha]
      · rw [List.find?_cons_of_neg (by simpa using ha), List.find?_cons_of_neg (by simpa using ha)]
        exact ih

/-- Binding a key to the value that it has changes nothing. -/
theorem insert_eq_self {d : Dict κ α} {k : κ} {v : α} (h : d.get? k = some v) :
    d.insert k v = d := by
  obtain ⟨l, hl⟩ := d
  suffices hput : put k v l = l by simp [insert, hput]
  simp only [get?] at h
  induction l with
  | nil => simp at h
  | cons a l ih =>
    obtain ⟨ha, hl'⟩ := List.pairwise_cons.1 hl
    unfold put
    split
    · rename_i hc
      have hne : a.1 ≠ k := by
        intro he
        simp [he] at hc
      rw [List.find?_cons_of_neg (by simpa using hne)] at h
      obtain ⟨e, he, _⟩ := Option.map_eq_some_iff.1 h
      obtain rfl : e.1 = k := by simpa using List.find?_some he
      have hlt := ha e (List.mem_of_find?_eq_some he)
      simpa using Std.TransCmp.lt_trans hc hlt
    · rename_i hc
      have hk : k = a.1 := Std.LawfulEqOrd.eq_of_compare hc
      rw [List.find?_cons_of_pos (by simp [hk])] at h
      cases h
      rw [hk]
    · rename_i hc
      have hne : a.1 ≠ k := by
        intro he
        simp [he] at hc
      rw [List.find?_cons_of_neg (by simpa using hne)] at h
      rw [ih hl' h]

end Lookup

end Dict

end GraphSync
