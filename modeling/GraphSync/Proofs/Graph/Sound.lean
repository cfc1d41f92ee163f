import GraphSync.Proofs.Graph.View
import Mathlib.Tactic.ByContra

namespace GraphSync.Graph

structure Sound (g : Graph) : Prop where
  ids_nodup : g.ids.Nodup
  live_lt : ∀ x, g.contains x = true → x.index < g.next
  root_live : g.contains g.root = true
  members_nodup : ∀ x role, (g.members x role).Nodup
  members_live : ∀ x role y, y ∈ g.members x role → g.contains y = true

/-- `g'` is sound, and hands out no handle that `g` has handed out; no element comes back or changes
its type. -/
structure Follows (g g' : Graph) : Prop where
  sound : g'.Sound
  next_le : g.next ≤ g'.next
  kind_of_old : ∀ x kind, x.index < g.next → g'.kind? x = some kind → g.kind? x = some kind

theorem Follows.trans {g g' g'' : Graph} (h : g.Follows g') (h' : g'.Follows g'') : g.Follows g'' :=
  ⟨h'.sound, Nat.le_trans h.next_le h'.next_le, fun x kind hx hk =>
    h.kind_of_old x kind hx (h'.kind_of_old x kind (Nat.lt_of_lt_of_le hx h.next_le) hk)⟩

/-- `g'` is `g` without an element; the journal may differ. -/
structure Deletes (g g' : Graph) (id : ElementId) : Prop where
  next : g'.next = g.next
  observed : g'.observed = g.observed
  ids : g'.ids.Sublist g.ids
  element? : ∀ x, g'.element? x = if x = id then none else g.element? x

namespace Deletes

variable {g g' : Graph} {id : ElementId}

theorem contains (h : g.Deletes g' id) (x : ElementId) :
    g'.contains x = true ↔ x ≠ id ∧ g.contains x = true := by
  unfold Graph.contains
  rw [h.element?]
  split <;> simp_all

theorem members (h : g.Deletes g' id) (x : ElementId) (r : RoleName) :
    g'.members x r = if x = id then [] else g.members x r := by
  unfold Graph.members
  rw [h.element?]
  split <;> rfl

theorem mem_members (h : g.Deletes g' id) {x y : ElementId} {r : RoleName}
    (hy : y ∈ g'.members x r) : y ∈ g.members x r := by
  rw [h.members] at hy
  split at hy
  · cases hy
  · exact hy

end Deletes

/-- Deleting isolates the element first, and never concerns the root. -/
theorem remove_ok {g g' : Graph} {id : ElementId} {e : Element} (hr : g.remove id = .ok (e, g')) :
    id ≠ g.root ∧ g.contains id = true ∧ (g.isolate id).Deletes g' id ∧
    g'.journal = (g.isolate id).journal := by
  by_cases hid : id = g.root
  · rw [Graph.remove, if_pos hid] at hr
    cases hr
  cases he : g.element? id with
  | none => simp [Graph.remove, hid, element_eq, he, bind, Except.bind] at hr
  | some e₀ =>
    cases hi : (g.isolate id).element? id with
    | none => simp [Graph.remove, hid, element_eq, he, hi, bind, Except.bind] at hr
    | some e₁ =>
      simp only [Graph.remove, hid, element_eq, he, hi, bind, Except.bind, pure, Except.pure,
        if_false] at hr
      cases hr
      refine ⟨hid, contains_iff.mpr ⟨e₀, he⟩,
        ⟨rfl, rfl, List.filter_sublist.map Element.id, fun x => ?_⟩, rfl⟩
      simp only [Graph.element?, List.find?_filter]
      split
      · rename_i hx
        subst x
        simp
      · rename_i hx
        congr 1
        funext a
        by_cases ha : a.id = x <;> simp [ha, hx]

namespace Sound

variable {g g' : Graph}

theorem refl (h : g.Sound) : g.Follows g := ⟨h, Nat.le_refl _, fun _ _ _ hk => hk⟩

/-- The journal and its switch do not matter. -/
theorem congr (h : g.Sound) (g' : Graph) (he : g'.elements = g.elements) (hn : g'.next = g.next) :
    g.Follows g' := by
  have hel (x : ElementId) : g'.element? x = g.element? x := by
    unfold Graph.element?
    rw [he]
  refine ⟨⟨?_, ?_, ?_, ?_, ?_⟩, Nat.le_of_eq hn.symm, fun x kind _ hk => ?_⟩
  · rw [Graph.ids, he]
    exact h.ids_nodup
  · intro x hx
    rw [hn]
    apply h.live_lt x
    rwa [Graph.contains, hel] at hx
  · rw [Graph.contains, hel]
    exact h.root_live
  · intro x r
    rw [Graph.members, hel]
    exact h.members_nodup x r
  · intro x r y hy
    rw [Graph.members, hel] at hy
    rw [Graph.contains, hel]
    exact h.members_live x r y hy
  · rwa [Graph.kind?, hel] at hk

theorem member_lt (h : g.Sound) {x y : ElementId} {role : RoleName} (hy : y ∈ g.members x role) :
    y.index < g.next :=
  h.live_lt y (h.members_live x role y hy)

/-- A new element is not the root. -/
theorem next_ne_root (h : g.Sound) : (⟨g.next⟩ : ElementId) ≠ g.root := by
  intro he
  have hlt : g.root.index < g.next := h.live_lt g.root h.root_live
  rw [← he] at hlt
  exact Nat.lt_irrefl _ hlt

theorem fresh (h : g.Sound) : g.contains ⟨g.next⟩ = false := by
  by_contra hc
  exact Nat.lt_irrefl _ (h.live_lt ⟨g.next⟩ (by simpa using hc))

theorem relists (h : g.Sound) {x : ElementId} {role : RoleName} {ts : List ElementId}
    (hw : g.Relists g' x role ts) (hn : ts.Nodup) (hl : ∀ y ∈ ts, g.contains y = true) :
    g.Follows g' := by
  refine ⟨⟨hw.ids ▸ h.ids_nodup, ?_, ?_, ?_, ?_⟩, Nat.le_of_eq hw.next.symm,
    fun y kind _ hk => hw.kind? y ▸ hk⟩
  · intro y hy
    rw [hw.next]
    exact h.live_lt y (by rwa [hw.contains] at hy)
  · rw [hw.contains]
    exact h.root_live
  · intro y r
    rw [hw.members]
    split
    · exact hn
    · exact h.members_nodup y r
  · intro y r z hz
    rw [hw.members] at hz
    rw [hw.contains]
    split at hz
    · exact hl z hz
    · exact h.members_live y r z hz

theorem setValue (h : g.Sound) {x : ElementId} {name : AttributeName} {v : Value}
    (hw : g.Rewrites g' x (·.setValue name v)) : g.Follows g' := by
  refine ⟨⟨hw.ids ▸ h.ids_nodup, ?_, ?_, ?_, ?_⟩, Nat.le_of_eq hw.next.symm,
    fun y kind _ hk => hw.kind? (fun _ => rfl) y ▸ hk⟩
  · intro y hy
    rw [hw.next]
    exact h.live_lt y (by rwa [hw.contains] at hy)
  · rw [hw.contains]
    exact h.root_live
  · intro y r
    rw [hw.members_setValue]
    exact h.members_nodup y r
  · intro y r z hz
    rw [hw.members_setValue] at hz
    rw [hw.contains]
    exact h.members_live y r z hz

theorem contains_add (h : g.Sound) (kind : TypeName) (x : ElementId) :
    (g.add kind).2.contains x = (g.contains x || decide (x = ⟨g.next⟩)) := by
  by_cases hx : x = ⟨g.next⟩
  · subst x
    simp [contains, element?_add_self kind h.fresh]
  · simp [contains, element?_add_of_ne kind hx, hx]

theorem members_add (h : g.Sound) (kind : TypeName) (x : ElementId) (role : RoleName) :
    (g.add kind).2.members x role = g.members x role := by
  by_cases hx : x = ⟨g.next⟩
  · subst x
    have hn := not_contains_iff.mp h.fresh
    simp [members, element?_add_self kind h.fresh, hn, Element.targets]
  · simp [members, element?_add_of_ne kind hx]

theorem reading_add (h : g.Sound) (kind : TypeName) (x : ElementId) (name : AttributeName) :
    (g.add kind).2.reading x name = g.reading x name := by
  by_cases hx : x = ⟨g.next⟩
  · subst x
    have hn := not_contains_iff.mp h.fresh
    simp [reading, element?_add_self kind h.fresh, hn, Element.value]
  · simp [reading, element?_add_of_ne kind hx]

theorem add (h : g.Sound) (kind : TypeName) : g.Follows (g.add kind).2 := by
  have hn : (g.add kind).2.next = g.next + 1 := rfl
  refine ⟨⟨?_, ?_, ?_, ?_, ?_⟩, by omega, ?_⟩
  · have hids : (g.add kind).2.ids = g.ids ++ [⟨g.next⟩] := List.map_append
    rw [hids, List.nodup_append]
    refine ⟨h.ids_nodup, by simp, fun x hx y hy he => ?_⟩
    rw [he, List.mem_singleton.mp hy, mem_ids, h.fresh] at hx
    cases hx
  · intro x hx
    rw [h.contains_add, Bool.or_eq_true, decide_eq_true_eq] at hx
    rcases hx with hx | rfl
    · have := h.live_lt x hx
      omega
    · simp [hn]
  · rw [h.contains_add, Bool.or_eq_true]
    exact .inl h.root_live
  · intro x role
    rw [h.members_add]
    exact h.members_nodup x role
  · intro x role y hy
    rw [h.members_add] at hy
    rw [h.contains_add, Bool.or_eq_true]
    exact .inl (h.members_live x role y hy)
  · intro x k hx hk
    have hne : x ≠ ⟨g.next⟩ := fun e => by simp [e] at hx
    rwa [kind?, element?_add_of_ne kind hne] at hk

theorem insertIdx (h : g.Sound) {owner target : ElementId} {role : RoleName} {index : Nat}
    (hw : g.Relists g' owner role ((g.members owner role).insertIdx index target))
    (ht : g.contains target = true) (hn : target ∉ g.members owner role)
    (hi : index ≤ (g.members owner role).length) : g.Follows g' := by
  have hp := List.perm_insertIdx target (g.members owner role) hi
  apply h.relists hw (hp.nodup_iff.mpr (List.nodup_cons.mpr ⟨hn, h.members_nodup owner role⟩))
  intro y hy
  rcases List.mem_cons.mp (hp.mem_iff.mp hy) with rfl | hy
  · exact ht
  · exact h.members_live owner role y hy

theorem erase_members (h : g.Sound) (owner : ElementId) (role : RoleName) (target : ElementId) :
    (g.members owner role).erase target = (g.members owner role).filter (· ≠ target) := by
  rw [(h.members_nodup owner role).erase_eq_filter target]
  exact List.filter_congr fun y _ => by simp [bne, Bool.beq_eq_decide_eq]

theorem relists_dropReference (h : g.Sound) (owner : ElementId) (role : RoleName)
    (target : ElementId) :
    g.Relists (g.dropReference owner role target) owner role
      ((g.members owner role).filter (· ≠ target)) := by
  rcases dropReference_cases g owner target role with ⟨hn, hd⟩ | ⟨hm, hw⟩
  · have hf : (g.members owner role).filter (· ≠ target) = g.members owner role :=
      List.filter_eq_self.mpr fun y hy => by simpa using fun e : y = target => hn (e ▸ hy)
    rw [hd, hf]
    exact .refl g owner role
  · rw [← h.erase_members]
    exact hw.relists (contains_of_mem_members hm)

theorem dropReference (h : g.Sound) (owner : ElementId) (role : RoleName) (target : ElementId) :
    g.Follows (g.dropReference owner role target) :=
  h.relists (h.relists_dropReference owner role target) ((h.members_nodup owner role).filter _)
    fun y hy => h.members_live owner role y (List.mem_filter.mp hy).1

/-- Dropping a target from a list of places drops it there and nowhere else. -/
theorem foldl_dropReference (target : ElementId) (places : List (ElementId × RoleName)) {g : Graph}
    (h : g.Sound) :
    let g' := places.foldl (fun g r => g.dropReference r.1 r.2 target) g
    g.Follows g' ∧ (∀ x, g'.contains x = g.contains x) ∧
      ∀ x r, g'.members x r =
        if (x, r) ∈ places then (g.members x r).filter (· ≠ target) else g.members x r := by
  induction places generalizing g with
  | nil => exact ⟨h.refl, fun _ => rfl, fun _ _ => by simp⟩
  | cons p places ih =>
    have hd := h.dropReference p.1 p.2 target
    have hl := h.relists_dropReference p.1 p.2 target
    obtain ⟨hf, hc, hm⟩ := ih hd.sound
    refine ⟨hd.trans hf, fun x => (hc x).trans (hl.contains x), ?_⟩
    intro x r
    rw [List.foldl_cons, hm, hl.members]
    by_cases hp : (x, r) = p
    · subst hp
      simp [List.filter_filter]
    · have hp' : ¬ (x = p.1 ∧ r = p.2) := fun e => hp (Prod.ext e.1 e.2)
      simp [hp, hp']

theorem mem_referrers {x target : ElementId} {role : RoleName} (h : target ∈ g.members x role) :
    (x, role) ∈ g.referrers target := by
  cases he : g.element? x with
  | none => simp [members, he] at h
  | some e =>
    rw [members, he] at h
    unfold referrers
    refine List.mem_flatMap.mpr ⟨e, mem_of_element? he, List.mem_map.mpr ?_⟩
    cases hf : e.roles.entries.find? (·.1 = role) with
    | none => simp [Element.targets, Dict.get?, hf] at h
    | some entry =>
      have hr : entry.1 = role := by simpa using List.find?_some hf
      refine ⟨entry, List.mem_filter.mpr ⟨List.mem_of_find?_eq_some hf, ?_⟩, ?_⟩
      · simpa [Element.targets, Dict.get?, hf] using h
      · rw [id_of_element? he, hr]

theorem notMem_of_referrers {target : ElementId} (h : g.referrers target = []) (x : ElementId)
    (role : RoleName) : target ∉ g.members x role := by
  intro hm
  have hmem := mem_referrers hm
  rw [h] at hmem
  cases hmem

theorem isolate (h : g.Sound) (id : ElementId) :
    g.Follows (g.isolate id) ∧ (∀ x, (g.isolate id).contains x = g.contains x) ∧
      ∀ x r, id ∉ (g.isolate id).members x r := by
  obtain ⟨hf, hc, hm⟩ := foldl_dropReference id (g.referrers id) h
  refine ⟨hf, hc, ?_⟩
  intro x r hx
  have hx : id ∈ if (x, r) ∈ g.referrers id then (g.members x r).filter (· ≠ id)
      else g.members x r :=
    hm x r ▸ hx
  split at hx
  · simp at hx
  · rename_i hn
    exact hn (mem_referrers hx)

theorem reading_foldl_dropReference (target : ElementId) (places : List (ElementId × RoleName))
    {g : Graph} (h : g.Sound) (x : ElementId) (name : AttributeName) :
    (places.foldl (fun g r => g.dropReference r.1 r.2 target) g).reading x name =
      g.reading x name := by
  induction places generalizing g with
  | nil => rfl
  | cons p places ih =>
    rw [List.foldl_cons, ih (h.dropReference p.1 p.2 target).sound,
      (h.relists_dropReference p.1 p.2 target).reading]

/-- An element that no role lists may be deleted. -/
theorem delete (h : g.Sound) {id : ElementId} (hw : g.Deletes g' id) (hid : id ≠ g.root)
    (hm : ∀ x r, id ∉ g.members x r) : g.Follows g' := by
  refine ⟨⟨h.ids_nodup.sublist hw.ids, ?_, ?_, ?_, ?_⟩, Nat.le_of_eq hw.next.symm, ?_⟩
  · intro x hx
    rw [hw.next]
    exact h.live_lt x ((hw.contains x).mp hx).2
  · exact (hw.contains _).mpr ⟨fun e => hid e.symm, h.root_live⟩
  · intro x r
    rw [hw.members]
    split
    · exact .nil
    · exact h.members_nodup x r
  · intro x r y hy
    have hy' := hw.mem_members hy
    exact (hw.contains y).mpr ⟨fun e => hm x r (e ▸ hy'), h.members_live x r y hy'⟩
  · intro x kind _ hk
    rw [kind?, hw.element?] at hk
    split at hk
    · cases hk
    · exact hk

end Sound

theorem sound_new (name : String) (kind : TypeName) : (new name kind).Sound := by
  have hel (x : ElementId) : (new name kind).element? x =
      if x = ⟨0⟩ then some { id := ⟨0⟩, kind } else none := by
    by_cases hx : x = ⟨0⟩
    · subst x
      simp [new, element?]
    · have hx' : ¬ (⟨0⟩ : ElementId) = x := fun e => hx e.symm
      simp [new, element?, hx, hx']
  have hm (x : ElementId) (r : RoleName) : (new name kind).members x r = [] := by
    unfold members
    rw [hel]
    split <;> simp [Element.targets]
  refine ⟨by simp [new, ids], ?_, ?_, fun x r => by simp [hm],
    fun x r y hy => by simp [hm] at hy⟩
  · intro x hx
    unfold contains at hx
    rw [hel] at hx
    split at hx
    · rename_i hx0
      subst x
      exact Nat.zero_lt_one
    · simp at hx
  · unfold contains
    rw [hel]
    rfl

end GraphSync.Graph
