import GraphSync.Proofs.Merge.Stable

namespace GraphSync.Merge

open Walk Relation

variable {k : Scheme} {w₀ w₀' w w₁ w' : State} {done done' : List CorrespondenceId}
  {c : Correspondence} {r : Rule} {child : Child} {s : Side} {m : ElementId}
  {i j : CorrespondenceId}

/-- If no pair is lost, then no member leaves its role in the pass, and no pair is dropped as long
as the roots are paired. -/
theorem retains_syncRoots (h : k.Consistent w.graphs w.pairs) (ha : w.store.Alive) :
    wp (syncRoots k.rules .twoWay k.rootRule) (fun _ w' =>
      (∀ s x role, ∀ m ∈ (w.graphs.on s).members x role,
        m ∈ (w'.graphs.on s).members x role) ∧
        (w'.store.Anchored → Retains w w')) (fun _ _ => True) w := by
  refine Scheme.wp_syncRoots_paired h (fun _ _ => trivial) fun r c w₁ hp => ?_
  obtain ⟨hrule, hroots⟩ := hp.consistent.anchor c hp.entry hp.anchor
  have halive : w₁.store.Alive := by
    intro a hmem s
    cases hanchor : a.isAnchor with
    | true => exact hp.consistent.anchor_alive hmem hanchor s
    | false =>
      have hlive := ha a (hp.new a hmem hanchor) s
      rwa [State.store, ← hp.graphs] at hlive
  rw [wp_bind, ← hroots]
  refine wp_releaseAllLost_of_alive (fun a hmem => halive a (List.mem_filter.mp hmem).1) ?_
  refine wp_mono
    (Scheme.traces_start hp.consistent (hrule ▸ hp.rule) hp.entry (halive c hp.entry))
    ?_ fun _ _ _ => trivial
  intro _ w' hw
  have hmembers (s : Side) (x : ElementId) (role : RoleName) (m : ElementId)
      (hm : m ∈ (w.graphs.on s).members x role) : m ∈ (w'.graphs.on s).members x role := by
    rw [← hp.graphs] at hm
    exact hw.acts.members hp.consistent (mem_authorities s) hm
  refine ⟨hmembers, fun hanchored => ⟨fun a hmem => ?_, hmembers⟩⟩
  exact hw.acts.kept hp.consistent hanchored (hp.old a hmem) (halive a (hp.old a hmem))

namespace Merged

variable (h : Merged k w₀ done w) (ht : ∀ s, k.rules.UniqueTypes s)

include h ht

/-- After a pass, a rule leads to the same pairs by the roles of either side. -/
theorem leads_of_side (hl : Leads k w i j) (hi : i ∈ done) (s : Side)
    (hpairs : w₁.pairs = w.pairs)
    (hmembers : ∀ x role, (w₁.graphs.on s).members x role = (w.graphs.on s).members x role) :
    Leads k w₁ i j := by
  obtain ⟨c, hc, rfl, r, hr, child, hchild, t, a, ha, rfl, hinner, hm⟩ := hl
  refine ⟨c, hpairs ▸ hc, rfl, r, hr, child, hchild, s, a, hpairs ▸ ha, rfl, hinner, ?_⟩
  rw [State.role, hmembers]
  rcases t.eq_or_eq_other s with rfl | rfl
  · exact hm
  · obtain ⟨a', ha', _, he, hp, _⟩ := h.whole.rolesDone hc hi r hr child hchild t _ hm
    rwa [h.consistent.apart h.alive (ht t) a' ha' a ha he] at hp

theorem reached_of_side (hi : i ∈ done) (s : Side) (hpairs : w₁.pairs = w.pairs)
    (hmembers : ∀ x role, (w₁.graphs.on s).members x role = (w.graphs.on s).members x role) :
    Reached k w₁ i := by
  obtain ⟨a, ha, hanchor, hpath⟩ := h.reached i (by simpa using hi)
  refine ⟨a, hpairs ▸ ha, hanchor, ?_⟩
  clear hi
  induction hpath with
  | refl => exact .refl
  | tail hrun hlead ih =>
    have hdone := h.mem_of_reached ht ⟨a, ha, hanchor, hrun⟩
    exact ih.tail (h.leads_of_side ht hlead hdone s hpairs hmembers)

/-- A member whose counterpart is still in the role on the other side is a member after the next
pass. -/
theorem restores (hpairs : w₁.pairs = w.pairs)
    (hmembers : ∀ x role,
      (w₁.graphs.on s.other).members x role = (w.graphs.on s.other).members x role)
    (hw : Retains w₁ w') (h' : Merged k w₀' done' w') (hc : c ∈ w.pairs.entries)
    (hid : c.id ∈ done) (hr : k.rules.rule? c.rule = some r) (hchild : child ∈ r.children)
    (hm : m ∈ w.role c child s) : m ∈ w'.role c child s := by
  obtain ⟨a, ha, _, rfl, hp, _⟩ := h.whole.rolesDone hc hid r hr child hchild s _ hm
  obtain ⟨c', hc', hcore⟩ := hw.kept c (hpairs ▸ hc)
  obtain ⟨a', ha', hcore'⟩ := hw.kept a (hpairs ▸ ha)
  have hid' : c'.id ∈ done' := by
    rw [Correspondence.id_eq_of_core hcore]
    exact h'.mem_of_reached ht ((h.reached_of_side ht hid s.other hpairs hmembers).retains hw)
  have hp' : a.element s.other ∈ w'.role c' child s.other := by
    refine hw.role (w := w₁) hcore ?_
    rwa [State.role, hmembers]
  have hr' : k.rules.rule? c'.rule = some r := by rwa [Correspondence.rule_eq_of_core hcore]
  obtain ⟨b, hb, _, he, hback, _⟩ :=
    h'.whole.rolesDone hc' hid' r hr' child hchild s.other _ hp'
  have hsame : b = a' := h'.consistent.apart h'.alive (ht s.other) b hb a' ha'
    (he.trans (Correspondence.element_eq_of_core hcore' s.other).symm)
  rw [Side.other_other, hsame, Correspondence.element_eq_of_core hcore', State.role,
    Correspondence.element_eq_of_core hcore] at hback
  exact hback

end Merged

end GraphSync.Merge
