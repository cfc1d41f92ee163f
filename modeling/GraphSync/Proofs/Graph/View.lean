import GraphSync.Graph.Edit

namespace GraphSync.Graph

/-- The members of a role, in order. -/
def members (g : Graph) (owner : ElementId) (role : RoleName) : List ElementId :=
  ((g.element? owner).map (·.targets role)).getD []

/-- The value of an attribute. -/
def reading (g : Graph) (id : ElementId) (name : AttributeName) : Value :=
  ((g.element? id).map (·.value name)).getD .unset

/-- The type of a live element. -/
def kind? (g : Graph) (id : ElementId) : Option TypeName := (g.element? id).map Element.kind

/-- The handles of the live elements, by age. -/
def ids (g : Graph) : List ElementId := g.elements.map Element.id

theorem contains_iff {g : Graph} {x : ElementId} :
    g.contains x = true ↔ ∃ e, g.element? x = some e := by
  simp [contains, Option.isSome_iff_exists]

theorem not_contains_iff {g : Graph} {x : ElementId} :
    g.contains x = false ↔ g.element? x = none := by
  simp [contains]

theorem contains_iff_kind {g : Graph} {x : ElementId} :
    g.contains x = true ↔ ∃ k, g.kind? x = some k := by
  cases h : g.element? x <;> simp [contains, kind?, h]

theorem not_contains_iff_kind {g : Graph} {x : ElementId} :
    g.contains x = false ↔ g.kind? x = none := by
  cases h : g.element? x <;> simp [contains, kind?, h]

theorem id_of_element? {g : Graph} {x : ElementId} {e : Element} (h : g.element? x = some e) :
    e.id = x := by
  simpa using List.find?_some h

theorem mem_of_element? {g : Graph} {x : ElementId} {e : Element} (h : g.element? x = some e) :
    e ∈ g.elements :=
  List.mem_of_find?_eq_some h

theorem mem_ids {g : Graph} {x : ElementId} : x ∈ g.ids ↔ g.contains x = true := by
  constructor
  · intro h
    obtain ⟨e, he, hid⟩ := List.mem_map.mp h
    exact contains_iff.mpr
      (Option.isSome_iff_exists.mp (List.find?_isSome.mpr ⟨e, he, by simp [hid]⟩))
  · intro h
    obtain ⟨e, he⟩ := contains_iff.mp h
    exact List.mem_map.mpr ⟨e, mem_of_element? he, id_of_element? he⟩

theorem contains_of_mem_members {g : Graph} {x y : ElementId} {role : RoleName}
    (h : y ∈ g.members x role) : g.contains x = true := by
  cases he : g.element? x with
  | none => simp [members, he] at h
  | some e => exact contains_iff.mpr ⟨e, he⟩

theorem contains_of_mem_referrers {g : Graph} {x target : ElementId} {role : RoleName}
    (h : (x, role) ∈ g.referrers target) : g.contains x = true := by
  obtain ⟨e, he, hrole⟩ := List.mem_flatMap.mp h
  obtain ⟨entry, _, hentry⟩ := List.mem_map.mp hrole
  exact mem_ids.mp (List.mem_map.mpr ⟨e, he, congrArg Prod.fst hentry⟩)

theorem members_of_dead {g : Graph} {x : ElementId} (h : g.contains x = false) (role : RoleName) :
    g.members x role = [] := by
  simp [members, not_contains_iff.mp h]

theorem reading_of_dead {g : Graph} {x : ElementId} (h : g.contains x = false)
    (name : AttributeName) : g.reading x name = .unset := by
  simp [reading, not_contains_iff.mp h]

theorem element_eq (g : Graph) (x : ElementId) :
    g.element x = match g.element? x with
      | some e => .ok e
      | none => .error (.unknownElement x) := rfl

theorem references_eq (g : Graph) (x : ElementId) (role : RoleName) :
    g.references x role =
      if g.contains x then .ok (g.members x role) else .error (.unknownElement x) := by
  cases h : g.element? x <;> simp [references, element_eq, contains, members, h, Except.map]

theorem value_eq (g : Graph) (x : ElementId) (name : AttributeName) :
    g.value x name = if g.contains x then .ok (g.reading x name)
      else .error (.unknownElement x) := by
  cases h : g.element? x <;> simp [value, element_eq, contains, reading, h, Except.map]

theorem value_error {g : Graph} {x : ElementId} {name : AttributeName} {e : GraphError}
    (h : g.value x name = .error e) : e = .unknownElement x := by
  rw [value_eq] at h
  split at h <;> cases h
  rfl

theorem typeOf_eq (g : Graph) (x : ElementId) :
    g.typeOf x = match g.kind? x with
      | some k => .ok k
      | none => .error (.unknownElement x) := by
  cases h : g.element? x <;> simp [typeOf, element_eq, kind?, h, Except.map]

theorem typeOf_error {g : Graph} {x : ElementId} {e : GraphError} (h : g.typeOf x = .error e) :
    e = .unknownElement x := by
  rw [typeOf_eq] at h
  split at h <;> cases h
  rfl

theorem typeOf_ok {g : Graph} {x : ElementId} {k : TypeName} (h : g.kind? x = some k) :
    g.typeOf x = .ok k := by
  rw [typeOf_eq, h]

/-- `g'` is `g` with the element `x` changed by `f`; the journal may differ. -/
structure Rewrites (g g' : Graph) (x : ElementId) (f : Element → Element) : Prop where
  next : g'.next = g.next
  observed : g'.observed = g.observed
  ids : g'.ids = g.ids
  element? : ∀ y, g'.element? y = if y = x then (g.element? y).map f else g.element? y

@[simp] theorem element?_record (g : Graph) (c : Change) (y : ElementId) :
    (g.record c).element? y = g.element? y := by
  unfold record
  split <;> rfl

@[simp] theorem ids_record (g : Graph) (c : Change) : (g.record c).ids = g.ids := by
  unfold record
  split <;> rfl

@[simp] theorem next_record (g : Graph) (c : Change) : (g.record c).next = g.next := by
  unfold record
  split <;> rfl

theorem journal_record (g : Graph) (c : Change) :
    (g.record c).journal = g.journal ++ if g.observed then [c] else [] := by
  unfold record
  split <;> simp

@[simp] theorem observed_record (g : Graph) (c : Change) : (g.record c).observed = g.observed := by
  unfold record
  split <;> rfl

theorem element?_modify (g : Graph) (x y : ElementId) (f : Element → Element)
    (hf : ∀ e, (f e).id = e.id) :
    (g.modify x f).element? y = if y = x then (g.element? y).map f else g.element? y := by
  have hp : ((fun e : Element => decide (e.id = y)) ∘ fun e => if e.id = x then f e else e) =
      fun e => decide (e.id = y) := by
    funext e
    by_cases h : e.id = x <;> simp [h, hf]
  simp only [Graph.element?, modify, List.find?_map, hp]
  cases h : g.elements.find? (fun e => decide (e.id = y)) with
  | none => simp
  | some e =>
    have he : e.id = y := by simpa using List.find?_some h
    by_cases hy : y = x <;> simp [he, hy]

theorem ids_modify (g : Graph) (x : ElementId) (f : Element → Element)
    (hf : ∀ e, (f e).id = e.id) : (g.modify x f).ids = g.ids := by
  unfold ids modify
  rw [List.map_map]
  refine List.map_congr_left fun e _ => ?_
  rw [Function.comp_apply]
  split
  · exact hf e
  · rfl

theorem rewrites_modify (g : Graph) (x : ElementId) (f : Element → Element)
    (hf : ∀ e, (f e).id = e.id) : g.Rewrites (g.modify x f) x f :=
  ⟨rfl, rfl, ids_modify g x f hf, fun y => element?_modify g x y f hf⟩

namespace Rewrites

variable {g g' : Graph} {x y : ElementId} {f : Element → Element}

theorem record (h : g.Rewrites g' x f) (c : Change) : g.Rewrites (g'.record c) x f :=
  ⟨by simpa using h.next, by simpa using h.observed, by simpa using h.ids,
    fun y => by simpa using h.element? y⟩

theorem element?_of_ne (h : g.Rewrites g' x f) (hy : y ≠ x) : g'.element? y = g.element? y := by
  rw [h.element?, if_neg hy]

theorem contains (h : g.Rewrites g' x f) (y : ElementId) : g'.contains y = g.contains y := by
  unfold Graph.contains
  rw [h.element?]
  split <;> simp

theorem kind? (h : g.Rewrites g' x f) (hf : ∀ e, (f e).kind = e.kind) (y : ElementId) :
    g'.kind? y = g.kind? y := by
  unfold Graph.kind?
  rw [h.element?]
  split
  · cases g.element? y <;> simp [hf]
  · rfl

theorem members_setTargets {role : RoleName} {ts : List ElementId}
    (h : g.Rewrites g' x (·.setTargets role ts)) (hx : g.contains x = true) (y : ElementId)
    (r : RoleName) : g'.members y r = if y = x ∧ r = role then ts else g.members y r := by
  obtain ⟨e, he⟩ := contains_iff.mp hx
  unfold members
  rw [h.element?]
  by_cases hy : y = x
  · subst y
    by_cases hr : r = role
    · simp [he, hr]
    · simp [he, hr, Element.targets_setTargets_of_ne e ts hr]
  · simp [hy]

theorem reading_setTargets {role : RoleName} {ts : List ElementId}
    (h : g.Rewrites g' x (·.setTargets role ts)) (y : ElementId) (n : AttributeName) :
    g'.reading y n = g.reading y n := by
  unfold reading
  rw [h.element?]
  split
  · cases g.element? y <;> simp
  · rfl

theorem members_setValue {name : AttributeName} {v : Value}
    (h : g.Rewrites g' x (·.setValue name v)) (y : ElementId) (r : RoleName) :
    g'.members y r = g.members y r := by
  unfold members
  rw [h.element?]
  split
  · cases g.element? y <;> simp
  · rfl

theorem reading_setValue {name : AttributeName} {v : Value}
    (h : g.Rewrites g' x (·.setValue name v)) (hx : g.contains x = true) (y : ElementId)
    (n : AttributeName) : g'.reading y n = if y = x ∧ n = name then v else g.reading y n := by
  obtain ⟨e, he⟩ := contains_iff.mp hx
  unfold reading
  rw [h.element?]
  by_cases hy : y = x
  · subst y
    by_cases hn : n = name
    · simp [he, hn]
    · simp [he, hn, Element.value_setValue_of_ne e v hn]
  · simp [hy]

end Rewrites

/-- `g'` is `g` with another list of members in one role. -/
structure Relists (g g' : Graph) (x : ElementId) (role : RoleName)
    (ts : List ElementId) : Prop where
  next : g'.next = g.next
  observed : g'.observed = g.observed
  ids : g'.ids = g.ids
  element?_of_ne : ∀ y, y ≠ x → g'.element? y = g.element? y
  contains : ∀ y, g'.contains y = g.contains y
  kind? : ∀ y, g'.kind? y = g.kind? y
  members : ∀ y r, g'.members y r = if y = x ∧ r = role then ts else g.members y r
  reading : ∀ y n, g'.reading y n = g.reading y n

theorem Rewrites.relists {g g' : Graph} {x : ElementId} {role : RoleName} {ts : List ElementId}
    (h : g.Rewrites g' x (·.setTargets role ts)) (hx : g.contains x = true) :
    g.Relists g' x role ts :=
  ⟨h.next, h.observed, h.ids, fun _ => h.element?_of_ne, h.contains, h.kind? fun _ => rfl,
    h.members_setTargets hx, h.reading_setTargets⟩

namespace Relists

variable {g g' g'' : Graph} {x : ElementId} {role : RoleName} {ts ts' : List ElementId}

theorem refl (g : Graph) (x : ElementId) (role : RoleName) :
    g.Relists g x role (g.members x role) := by
  refine ⟨rfl, rfl, rfl, fun _ _ => rfl, fun _ => rfl, fun _ => rfl, ?_, fun _ _ => rfl⟩
  intro y r
  split
  · rename_i h
    rw [h.1, h.2]
  · rfl

theorem trans (h : g.Relists g' x role ts) (h' : g'.Relists g'' x role ts') :
    g.Relists g'' x role ts' := by
  refine ⟨h'.next.trans h.next, h'.observed.trans h.observed, h'.ids.trans h.ids,
    fun y hy => (h'.element?_of_ne y hy).trans (h.element?_of_ne y hy),
    fun y => (h'.contains y).trans (h.contains y), fun y => (h'.kind? y).trans (h.kind? y), ?_,
    fun y n => (h'.reading y n).trans (h.reading y n)⟩
  intro y r
  rw [h'.members, h.members]
  split <;> rfl

theorem members_self (h : g.Relists g' x role ts) : g'.members x role = ts := by simp [h.members]

theorem members_of_ne (h : g.Relists g' x role ts) {y : ElementId} {r : RoleName}
    (hr : r ≠ role) : g'.members y r = g.members y r := by
  simp [h.members, hr]

end Relists

theorem setValue_eq (g : Graph) (x : ElementId) (name : AttributeName) (v : Value) :
    (g.contains x = false ∧ g.setValue x name v = .error (.unknownElement x)) ∨
    (g.contains x = true ∧ ∃ g', g.setValue x name v = .ok (g.reading x name, g') ∧
      g.Rewrites g' x (·.setValue name v)) := by
  cases he : g.element? x with
  | none => exact .inl ⟨not_contains_iff.mpr he, by rw [setValue, element_eq, he]; rfl⟩
  | some e =>
    have hw := rewrites_modify g x (·.setValue name v) (fun _ => rfl)
    refine .inr ⟨contains_iff.mpr ⟨e, he⟩, ?_⟩
    refine ⟨_, by simp only [setValue, element_eq, he, reading]; rfl, ?_⟩
    split
    · exact hw
    · exact hw.record _

/-- A value is set at a live element. -/
theorem rewrites_of_setValue {g g' : Graph} {x : ElementId} {name : AttributeName}
    {v before : Value} (hr : g.setValue x name v = .ok (before, g')) :
    g.contains x = true ∧ g.Rewrites g' x (·.setValue name v) := by
  rcases setValue_eq g x name v with ⟨_, he⟩ | ⟨hlive, g₁, he, hw⟩
  · cases he.symm.trans hr
  · cases he.symm.trans hr
    exact ⟨hlive, hw⟩

theorem insertReference_ok {g : Graph} {owner target : ElementId} {role : RoleName} {index : Nat}
    (ho : g.contains owner = true) (ht : g.contains target = true)
    (hn : target ∉ g.members owner role) (hi : index ≤ (g.members owner role).length) :
    ∃ g', g.insertReference owner role index target = .ok (true, g') ∧
      g.Rewrites g' owner (·.setTargets role ((g.members owner role).insertIdx index target)) := by
  obtain ⟨e, he⟩ := contains_iff.mp ho
  obtain ⟨t, ht⟩ := contains_iff.mp ht
  have hm : g.members owner role = e.targets role := by simp [members, he]
  rw [hm] at hn hi ⊢
  have hw := rewrites_modify g owner (·.setTargets role ((e.targets role).insertIdx index target))
    (fun _ => rfl)
  refine ⟨_, ?_, hw.record ⟨owner, .referenceAdded role index target⟩⟩
  · simp only [insertReference, element_eq, he, ht]
    simp [bind, Except.bind, pure, Except.pure, hn, Nat.not_lt.mpr hi]

theorem insertReference_unknown {g : Graph} {target : ElementId} (ht : g.contains target = false)
    (owner : ElementId) (role : RoleName) (index : Nat) :
    g.insertReference owner role index target = .error (.unknownElement target) := by
  simp only [insertReference, element_eq, not_contains_iff.mp ht]
  rfl

/-- An insertion is refused, or finds the target there, or puts it into the list of members. -/
theorem insertReference_cases (g : Graph) (owner target : ElementId) (role : RoleName)
    (index : Nat) :
    (∃ e, g.insertReference owner role index target = .error e) ∨
    g.insertReference owner role index target = .ok (false, g) ∨
    (g.contains owner = true ∧ g.contains target = true ∧ target ∉ g.members owner role ∧
      index ≤ (g.members owner role).length) := by
  cases ht : g.element? target with
  | none => exact .inl ⟨_, by simp only [insertReference, element_eq, ht]; rfl⟩
  | some t =>
    cases he : g.element? owner with
    | none => exact .inl ⟨_, by simp only [insertReference, element_eq, ht, he]; rfl⟩
    | some e =>
      have hm : g.members owner role = e.targets role := by simp [members, he]
      by_cases hn : target ∈ e.targets role
      · refine .inr (.inl ?_)
        simp [insertReference, element_eq, ht, he, bind, Except.bind, pure, Except.pure, hn]
      · by_cases hi : (e.targets role).length < index
        · refine .inl ⟨.indexOutOfBounds owner role index (e.targets role).length, ?_⟩
          simp [insertReference, element_eq, ht, he, bind, Except.bind, hn, hi, throw, throwThe,
            MonadExceptOf.throw]
        · exact .inr
            (.inr ⟨contains_iff.mpr ⟨e, he⟩, contains_iff.mpr ⟨t, ht⟩, hm ▸ hn,
            hm ▸ Nat.le_of_not_lt hi⟩)

/-- An insertion that is not refused finds the target there, or puts it into the list of members. -/
theorem eq_or_rewrites_of_insertReference {g g' : Graph} {owner target : ElementId}
    {role : RoleName} {index : Nat} {b : Bool}
    (hr : g.insertReference owner role index target = .ok (b, g')) :
    g' = g ∨
      (g.contains owner = true ∧ g.contains target = true ∧ target ∉ g.members owner role ∧
      index ≤ (g.members owner role).length ∧
      g.Rewrites g' owner
        (·.setTargets role ((g.members owner role).insertIdx index target))) := by
  rcases insertReference_cases g owner target role index with ⟨_, he⟩ | he | ⟨ho, ht, hn, hi⟩
  · cases he.symm.trans hr
  · cases he.symm.trans hr
    exact .inl rfl
  · obtain ⟨g₁, he, hw⟩ := insertReference_ok ho ht hn hi
    cases he.symm.trans hr
    exact .inr ⟨ho, ht, hn, hi, hw⟩

/-- Taking a target out of a role changes nothing, or takes its first occurrence out of the
members. -/
theorem dropReference_cases (g : Graph) (owner target : ElementId) (role : RoleName) :
    (target ∉ g.members owner role ∧ g.dropReference owner role target = g) ∨
    (target ∈ g.members owner role ∧ g.Rewrites (g.dropReference owner role target) owner
      (·.setTargets role ((g.members owner role).erase target))) := by
  have hmembers : ((g.element? owner).map (·.targets role)).getD [] = g.members owner role := rfl
  simp only [dropReference, hmembers]
  rw [List.erase_eq_eraseIdx]
  cases hi : (g.members owner role).idxOf? target with
  | none => exact .inl ⟨List.idxOf?_eq_none_iff.mp hi, rfl⟩
  | some i =>
    have hm : target ∈ g.members owner role := List.isSome_idxOf?.mp (by rw [hi]; rfl)
    have hw := rewrites_modify g owner (·.setTargets role ((g.members owner role).eraseIdx i))
      (fun _ => rfl)
    exact .inr ⟨hm, hw.record _⟩

theorem contains_dropReference (g : Graph) (owner : ElementId) (role : RoleName)
    (target x : ElementId) : (g.dropReference owner role target).contains x = g.contains x := by
  rcases g.dropReference_cases owner target role with ⟨_, hg⟩ | ⟨_, hw⟩
  · rw [hg]
  · exact hw.contains x

theorem removeReference_eq (g : Graph) (owner target : ElementId) (role : RoleName) :
    g.removeReference owner role target =
      if g.contains owner then
        .ok (decide (target ∈ g.members owner role), g.dropReference owner role target)
      else .error (.unknownElement owner) := by
  unfold removeReference
  rw [references_eq]
  split <;> rfl

@[simp] theorem element?_add_of_ne {g : Graph} {x : ElementId} (kind : TypeName)
    (hx : x ≠ ⟨g.next⟩) : (g.add kind).2.element? x = g.element? x := by
  have h : ¬ (⟨g.next⟩ : ElementId) = x := fun e => hx e.symm
  simp [Graph.element?, add, h]

theorem element?_add_self {g : Graph} (kind : TypeName) (hx : g.contains ⟨g.next⟩ = false) :
    (g.add kind).2.element? ⟨g.next⟩ = some { id := ⟨g.next⟩, kind } := by
  have h : g.elements.find? (fun e => decide (e.id = ⟨g.next⟩)) = none := not_contains_iff.mp hx
  simp [Graph.element?, add, h]

end GraphSync.Graph
