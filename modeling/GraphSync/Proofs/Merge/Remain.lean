import GraphSync.Proofs.Graph.Removal
import GraphSync.Proofs.Merge.Stable
import GraphSync.Proofs.Walk.Shed

namespace GraphSync.Merge

open Walk

/-- A sublist is a filter of the list, if the list has no duplicates and it is known which members
are left. -/
theorem eq_filter_of_sublist {α : Type} {l l' : List α} (h : l'.Sublist l) (hn : l.Nodup)
    {p : α → Bool} (hp : ∀ a, a ∈ l' ↔ a ∈ l ∧ p a = true) : l' = l.filter p := by
  have hself : l'.filter p = l' := List.filter_eq_self.mpr fun a ha => ((hp a).mp ha).2
  have hsub : l'.Sublist (l.filter p) := hself ▸ h.filter p
  refine hsub.eq_of_length_le (List.subperm_of_subset (hn.filter p) fun a ha => ?_).length_le
  exact (hp a).mpr (List.mem_filter.mp ha)

variable {k : Scheme} {w₀ w w₁ w₂ : State} {done : List CorrespondenceId} {c : Correspondence}
  {r : Rule} {child : Child} {s : Side} {m : ElementId} {X : List Conflict}

/-- Elements of `w` were deleted, and the pairs that lost one were dropped: their other elements
stay in no role that a rule walks, and no other member has left a role. -/
structure Remains (k : Scheme) (w w₂ : State) : Prop where
  mem_entries : ∀ c, c ∈ w₂.pairs.entries ↔
    c ∈ w.pairs.entries ∧ ∀ s, (w₂.graphs.on s).contains (c.element s) = true
  sound : ∀ s, (w₂.graphs.on s).Sound
  reading : ∀ s x, (w₂.graphs.on s).contains x = true → ∀ name,
    (w₂.graphs.on s).reading x name = (w.graphs.on s).reading x name
  members : ∀ s x role m, m ∈ (w₂.graphs.on s).members x role →
    m ∈ (w.graphs.on s).members x role
  stays : ∀ s x role m, m ∈ (w.graphs.on s).members x role →
    (w₂.graphs.on s).contains x = true → (w₂.graphs.on s).contains m = true →
      (∀ c ∈ w.pairs.entries, c.element s = m → c ∈ w₂.pairs.entries) →
      m ∈ (w₂.graphs.on s).members x role
  leaves : ∀ c ∈ w.pairs.entries, c ∉ w₂.pairs.entries → ∀ s x role,
    w₂.pairs.walksRole k.rules s x role = true →
      c.element s ∉ (w₂.graphs.on s).members x role

/-- The pairs that were lost are dropped from what the deletions have left. -/
theorem Remains.of_sheds (hk : k.Consistent w₁.graphs w₁.pairs) (hpairs : w₁.pairs = w.pairs)
    (hprunes : ∀ s, (w.graphs.on s).Prunes (w₁.graphs.on s)) (hf : Frees .twoWay w₁ w₂)
    (hs : Sheds k.rules .twoWay w₁.lost w₁ w₂)
    (hleft : ∀ c, c ∈ w₂.pairs.entries ↔ c ∈ w₁.pairs.entries ∧
      ∀ s, (w₁.graphs.on s).contains (c.element s) = true) : Remains k w w₂ where
  mem_entries c := by
    simp only [hleft, hpairs, hf.contains]
  sound := hs.sound
  reading s x hx name := by
    rw [hf.contains] at hx
    rw [hf.reading, (hprunes s).reading x hx]
  members s x role m hm := (((hprunes s).mem_members x role m).mp (hs.members hm)).1
  stays s x role m hm hx hm' hin := by
    rw [hf.contains] at hx hm'
    refine hs.stays (((hprunes s).mem_members x role m).mpr ⟨hm, hx, hm'⟩) fun p hp _ he => ?_
    obtain ⟨hmem, hlost⟩ := State.mem_lost.mp hp
    have hentry := (hleft p.1).mp (hin p.1 (hpairs ▸ (List.mem_filter.mp hmem).1) he)
    rw [lostOn?_eq_none.mpr hentry.2] at hlost
    cases hlost
  leaves c hc hgone s x role hwalks hm := by
    have hc₁ : c ∈ w₁.pairs.entries := hpairs ▸ hc
    cases hlost : c.lostOn? w₁.graphs with
    | none => exact hgone ((hleft c).mpr ⟨hc₁, lostOn?_eq_none.mp hlost⟩)
    | some t =>
      have hdead := contains_of_lostOn? hlost
      have hinner : c.isAnchor = false := hk.inner_of_dead hc₁ hdead
      have hmem : (c, t) ∈ w₁.lost :=
        State.mem_lost.mpr ⟨List.mem_filter.mpr ⟨hc₁, by simp [hinner]⟩, hlost⟩
      rcases t.eq_or_eq_other s with rfl | rfl
      · have hlive := (hs.sound s).members_live x role _ hm
        rw [hf.contains] at hlive
        exact Bool.noConfusion (hdead.symm.trans hlive)
      · exact hs.leaves hmem rfl hwalks hm

namespace Remains

theorem entry (h : Remains k w w₂) (hc : c ∈ w₂.pairs.entries) : c ∈ w.pairs.entries :=
  ((h.mem_entries c).mp hc).1

theorem alive (h : Remains k w w₂) : w₂.store.Alive := fun c hc => ((h.mem_entries c).mp hc).2

/-- The pairs that did not lose an element are recorded as before. -/
theorem entries_eq {d : Direction} (h : Remains k w w₂) (hl : w.pairs.Listed)
    (hpairs : w₁.pairs = w.pairs) (hf : Frees d w₁ w₂) :
    w₂.pairs.entries = w.pairs.entries.filter fun c => (c.lostOn? w₁.graphs).isNone := by
  have hsub : w₂.pairs.entries.Sublist w.pairs.entries := hpairs ▸ hf.entries
  refine eq_filter_of_sublist hsub (hl.sorted.imp fun hlt he => by simp [he] at hlt) fun c => ?_
  rw [h.mem_entries, Option.isNone_iff_eq_none, lostOn?_eq_none]
  simp only [hf.contains]

theorem values (h : Remains k w w₂) (hc : c ∈ w₂.pairs.entries) (b : Binding) :
    w₂.values c.elements b = w.values c.elements b := by
  have hon (s : Side) : (w₂.values c.elements b).on s = (w.values c.elements b).on s := by
    rw [State.values_on, State.values_on]
    exact h.reading s (c.element s) (h.alive c hc s) (b.attributes.on s)
  exact Sided.ext (hon .left) (hon .right)

theorem ordered (h : Remains k w w₂) (ho : k.Ordered w.store) : k.Ordered w₂.store := by
  intro c hc r hr bi hbi s hs
  have hvalues : c.values w₂.store.graphs bi.1 = c.values w.store.graphs bi.1 := h.values hc bi.1
  rw [hvalues]
  exact ho c (h.entry hc) r hr bi hbi s hs

theorem stays_binding (h : Remains k w w₂) (hc : c ∈ w₂.pairs.entries) {bi : Binding × Nat}
    (hb : Scheme.Stays .twoWay X w c bi) : Scheme.Stays .twoWay X w₂ c bi := by
  rwa [Scheme.Stays, h.values hc, State.conflict, h.values hc, ← State.conflict]

/-- A member that is still in its role has kept its counterpart there: if the counterpart were
deleted, the member would have left the role. -/
theorem placed (h : Remains k w w₂) (hl : w₂.pairs.Listed) (hapart : ∀ s, w.store.Apart s)
    (hc : c ∈ w₂.pairs.entries) (hr : k.rules.rule? c.rule = some r)
    (hchild : child ∈ r.children) (hm : m ∈ w₂.role c child s)
    (hmet : Met w done c child s m) : ∃ y, k.Placed w₂ done c child s m y := by
  obtain ⟨a, ha, hi, he, hp, hid⟩ := hmet
  have hpair : a ∈ w₂.pairs.entries := by
    by_contra hgone
    have hwalks := Correspondences.walksRole_of_mem hc hr hchild s
    exact h.leaves a ha hgone s _ _ hwalks (he ▸ hm)
  have hplaced : a.element s.other ∈ w₂.role c child s.other := by
    refine h.stays s.other _ _ _ hp (h.alive c hc s.other) (h.alive a hpair s.other)
      fun a' ha' he' => ?_
    exact hapart s.other a' ha' a ha he' ▸ hpair
  refine ⟨_,
    .of_oldest hl ⟨hpair, hi, he, h.alive a hpair s.other⟩ hplaced (fun a' hcand _ => ?_) hid⟩
  obtain rfl := hapart s a' (h.entry hcand.mem) a ha (hcand.of_member.trans he.symm)
  exact Nat.le_refl _

/-- By induction on the rules that were applied, the last one first. -/
theorem atRest (h : Remains k w w₂) (hl : w₂.pairs.Listed) (hapart : ∀ s, w.store.Apart s)
    (hfinished : Finished k w done)
    (hbound : ∀ c ∈ w.pairs.entries, c.id ∈ done → ∀ r, k.rules.rule? c.rule = some r →
      ∀ bi ∈ r.numbered, Scheme.Stays .twoWay X w c bi) : k.AtRest .twoWay X w₂ done := by
  induction hfinished with
  | nil => exact .nil
  | @cons id done hhead _ ih =>
    refine .cons ?_ (ih fun c hc hid => hbound c hc (List.mem_cons_of_mem _ hid))
    rintro c hc rfl r hr
    refine ⟨fun bi hbi => ?_, fun child hchild s _ m hm => ?_, fun hforced => by cases hforced⟩
    · exact h.stays_binding hc (hbound c (h.entry hc) List.mem_cons_self r hr bi hbi)
    · exact h.placed hl hapart hc hr hchild hm
        (hhead c (h.entry hc) rfl r hr child hchild s m (h.members s _ _ m hm))

end Remains

namespace Merged

/-- A pass that starts where elements were deleted drops the pairs that lost one, and does nothing
else but take their other elements out of roles. -/
theorem run_pruned (h : Merged k w₀ done w) (ht : ∀ s, k.rules.UniqueTypes s)
    (hk : k.Consistent w₁.graphs w₁.pairs) (hpairs : w₁.pairs = w.pairs)
    (hprunes : ∀ s, (w.graphs.on s).Prunes (w₁.graphs.on s)) (ho : k.Ordered w.store)
    (hx : w₁.report.conflicts = []) :
    wp (syncRoots k.rules .twoWay k.rootRule)
      (fun _ w' => ∃ w₂, Frees .twoWay w₁ w₂ ∧
      Sheds k.rules .twoWay w₁.lost w₁ w₂ ∧
      Remains k w w₂ ∧ Scheme.Same done w.report.conflicts w₂ w')
      (fun _ _ => False) w₁ := by
  obtain ⟨c, hm, hanchor, hid⟩ := h.roots
  have hc : c ∈ w₁.pairs.entries := hpairs ▸ hm
  obtain ⟨r, hr, hkinds⟩ := hk.anchor_rule hc hanchor
  refine Scheme.wp_syncRoots_recorded hk hc hanchor hr hkinds ?_
  rw [wp_bind]
  have hanchors : ∀ c ∈ w₁.pairs.entries, c.isAnchor = true → ∀ s,
      (w₁.graphs.on s).contains (c.element s) = true :=
    fun c hc ha => hk.anchor_alive hc ha
  refine wp_mono
    (wp_and (frees_releaseAllLost hk.sound hk.listed hanchors)
      (sheds_releaseAllLost hk.sound hk.listed k.rules .twoWay)) ?_
    fun _ _ hf => hf.1
  rintro _ w₂ ⟨⟨hf, hleft⟩, hs⟩
  have hrem : Remains k w w₂ := .of_sheds hk hpairs hprunes hf hs hleft
  have hk₂ := hk.freed hf
  have hc₂ := hf.anchors c hc hanchor
  have hrest : k.AtRest .twoWay w.report.conflicts w₂ _ :=
    (hrem.atRest hk₂.listed (fun s => h.consistent.apart h.alive (ht s)) h.whole
      fun a ha hid r hr bi hbi =>
        (h.bound ha hid hr hbi).bindingDone.stays fun s => ho a ha r hr bi hbi s s.mem_all).recorded
          hk₂.listed
  have hn : (done.filter (· ∈ w₂.pairs.entries.map Correspondence.id)).Nodup :=
    List.Nodup.filter _ (by simpa using h.ids_nodup)
  have hids : done.filter (· ∈ w₂.pairs.entries.map Correspondence.id) ⊆
      w₂.pairs.entries.map Correspondence.id :=
    fun id hi => by simpa using (List.mem_filter.mp hi).2
  have hrepeats := Scheme.repeats_start hk₂ hrest (fun a ha _ => hrem.alive a ha) hn
    (hk₂.length_le_nestingLimit hrem.alive hn hids)
  refine wp_imp
    (hrepeats c hc₂ (List.mem_filter.mpr ⟨hid, by simpa using ⟨c, hc₂, rfl⟩⟩) r
    ((hk.anchor c hc hanchor).1 ▸ hr) w₂ (.refl (by simp [hf.conflicts, hx]))) fun _ w' hw => ?_
  exact ⟨w₂, hf, hs, hrem, hw.mono fun _ hi => (List.mem_filter.mp hi).1⟩

end Merged

end GraphSync.Merge
