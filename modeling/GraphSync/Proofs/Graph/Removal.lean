import GraphSync.Proofs.Graph.Journal

namespace GraphSync.Graph

/-- `g'` is `g` without some of its elements; the journal may differ. -/
structure Prunes (g g' : Graph) : Prop where
  sound : g'.Sound
  live : ∀ x, g'.contains x = true → g.contains x = true
  reading : ∀ x, g'.contains x = true → ∀ name, g'.reading x name = g.reading x name
  mem_members : ∀ x role y, y ∈ g'.members x role ↔
    y ∈ g.members x role ∧ g'.contains x = true ∧ g'.contains y = true

variable {g g' g'' : Graph}

theorem Sound.prunes (h : g.Sound) : g.Prunes g where
  sound := h
  live _ hx := hx
  reading _ _ _ := rfl
  mem_members x role y :=
    ⟨fun hy => ⟨hy, contains_of_mem_members hy, h.members_live x role y hy⟩, And.left⟩

namespace Prunes

theorem trans (h : g.Prunes g') (h' : g'.Prunes g'') : g.Prunes g'' where
  sound := h'.sound
  live x hx := h.live x (h'.live x hx)
  reading x hx name := (h'.reading x hx name).trans (h.reading x (h'.live x hx) name)
  mem_members x role y := by
    rw [h'.mem_members, h.mem_members]
    constructor
    · rintro ⟨⟨hy, _, _⟩, hlive⟩
      exact ⟨hy, hlive⟩
    · rintro ⟨hy, hx, hy'⟩
      exact ⟨⟨hy, h'.live x hx, h'.live y hy'⟩, hx, hy'⟩

/-- The journal and its switch do not matter. -/
theorem congr (h : g.Prunes g') (he : g''.elements = g'.elements) (hn : g''.next = g'.next) :
    g.Prunes g'' := by
  have hel (x : ElementId) : g''.element? x = g'.element? x := by simp only [Graph.element?, he]
  refine ⟨(h.sound.congr g'' he hn).sound, ?_, ?_, ?_⟩
  · intro x hx
    rw [contains, hel] at hx
    exact h.live x hx
  · intro x hx name
    rw [contains, hel] at hx
    rw [Graph.reading, hel]
    exact h.reading x hx name
  · intro x role y
    simp only [members, contains, hel]
    exact h.mem_members x role y

end Prunes

theorem Sound.members_isolate (h : g.Sound) (id x : ElementId) (role : RoleName) :
    (g.isolate id).members x role = (g.members x role).filter (· ≠ id) := by
  obtain ⟨_, _, hm⟩ := foldl_dropReference id (g.referrers id) h
  have hmembers : (g.isolate id).members x role = if (x, role) ∈ g.referrers id then
      (g.members x role).filter (· ≠ id) else g.members x role := hm x role
  rw [hmembers]
  split
  · rfl
  · rename_i hn
    refine (List.filter_eq_self.mpr fun y hy => ?_).symm
    simpa using fun he : y = id => hn (mem_referrers (he ▸ hy))

theorem Sound.mem_isolate (h : g.Sound) {id x y : ElementId} {role : RoleName} :
    y ∈ (g.isolate id).members x role ↔ y ∈ g.members x role ∧ y ≠ id := by
  rw [h.members_isolate, List.mem_filter, decide_eq_true_eq]

/-- A removal, carried out or refused. -/
theorem Sound.prunes_remove (h : g.Sound) (id : ElementId) : g.Prunes (g.edit (.remove id)) := by
  have hreading (x : ElementId) (hx : (g.edit (.remove id)).contains x = true)
      (name : AttributeName) : (g.edit (.remove id)).reading x name = g.reading x name :=
    h.reading_edit (fun _ he => by cases he) hx
  have hsound := (h.edit (.remove id)).sound
  cases hr : g.remove id with
  | error e =>
    have hsame : g.edit (.remove id) = g := by simp only [Graph.edit, perform, hr]; rfl
    rw [hsame]
    exact h.prunes
  | ok p =>
    have hedit : g.edit (.remove id) = p.2 := by simp only [Graph.edit, perform, hr]; rfl
    rw [hedit] at hreading hsound ⊢
    obtain ⟨_, _, hw, _⟩ := remove_ok hr
    have hlive (x : ElementId) : p.2.contains x = true ↔ x ≠ id ∧ g.contains x = true := by
      rw [hw.contains, (h.isolate id).2.1]
    refine ⟨hsound, fun x hx => ((hlive x).mp hx).2, hreading, fun x role y => ?_⟩
    rw [hw.members, hlive, hlive]
    split
    · rename_i hx
      simp [hx]
    · rename_i hx
      rw [h.mem_isolate]
      constructor
      · rintro ⟨hy, hne⟩
        exact ⟨hy, ⟨hx, contains_of_mem_members hy⟩, hne, h.members_live x role y hy⟩
      · rintro ⟨hy, _, hne, _⟩
        exact ⟨hy, hne⟩

end GraphSync.Graph
