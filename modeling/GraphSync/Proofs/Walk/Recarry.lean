import GraphSync.Proofs.Walk.Attribute

namespace GraphSync

open Walk

/-- The graphs, the pairs and the number of effects are the same. -/
structure Walk.State.Stands (w w' : State) : Prop where
  graphs : w'.graphs = w.graphs
  pairs : w'.pairs = w.pairs
  effects : w'.report.effects = w.report.effects

namespace Scheme

variable {k : Scheme} {d : Direction} {V done : List CorrespondenceId} {X : List Conflict}
  {w w' : State} {s : Side} {e m : ElementId} {role : RoleName}

theorem Same.stands {visited : List CorrespondenceId} (h : Same V X { w with visited } w') :
    w.Stands w' := by
  obtain ⟨_, _, _, _, rfl⟩ := h
  exact ⟨rfl, rfl, rfl⟩

/-- A new member that has its counterparts, at rest with all that they lead to, is carried over to
no effect. -/
theorem repeat_carryAddition (h : k.Consistent w.graphs w.pairs)
    (happly : k.Repeats V X w (start k.rules d) done) (hx : w.report.conflicts ⊆ X)
    (hplaced : m ∈ (w.graphs.on s).members e role → ∀ c ∈ w.pairs.entries,
      c.element s = e → ∀ r, k.rules.rule? c.rule = some r →
        ∀ child ∈ r.childrenOn s role, ∃ y, k.Placed w done c child s m y) :
    wp (carryAddition k.rules d s e role m) (fun _ => Same V X w) (fun _ _ => False) w := by
  apply wp_carryAddition (h.sound s)
  · exact fun _ => .refl hx
  intro earlier later hsplit
  have hm : m ∈ (w.graphs.on s).members e role := by simp [hsplit]
  refine wp_forM_keep (fun id hid w₁ hw₁ => ?_) (.refl hx)
  refine wp_eachPair h hw₁.store.2 hid fun c hc _ he r hr => ?_
  refine wp_forM_keep (fun child hchild w₂ hw₂ => ?_) hw₁
  obtain ⟨y, hy⟩ := hplaced hm c hc he r hr child hchild
  have hfollowed : m ∈ w.role c child s := by
    rw [State.role, he, (Rule.mem_childrenOn.mp hchild).2]
    exact hm
  have hlive : ∀ t, (w.graphs.on t).contains (c.element t) = true := by
    intro t
    rcases s.eq_or_eq_other t with rfl | rfl
    · exact Graph.contains_of_mem_members hfollowed
    · obtain ⟨_, _, _, hp, _⟩ := hy
      exact Graph.contains_of_mem_members hp
  rw [wp_bind]
  exact wp_imp (repeat_linkMember h hlive hfollowed hy happly earlier later hw₂)
    fun _ _ hw₃ => hw₃.2

end Scheme

namespace Pass

variable {p : Pass} {w₀ w w' : State} {D : List Frame} {c : Correspondence} {r : Rule}
  {child : Child} {e m : ElementId} {role : RoleName} {name : AttributeName}

namespace Adding

variable (h : p.Adding w₀ D w)

include h

/-- Whether its rule was applied or not, every pair of the owner has the counterpart in its role. -/
theorem placed (hgiven : ∀ c ∈ w₀.pairs.entries, c.element p.source = e → ∀ r,
      p.rules.rule? c.rule = some r → ∀ child ∈ r.childrenOn p.source role,
        p.Given w c.id child m)
    (hm : m ∈ p.base.members e role) (hc : c ∈ w.pairs.entries) (he : c.element p.source = e)
    (hr : p.rules.rule? c.rule = some r) (hchild : child ∈ r.childrenOn p.source role) :
    ∃ y, p.scheme.Placed w (D.map Frame.id) c child p.source m y := by
  obtain ⟨hin, hrole⟩ := Rule.mem_childrenOn.mp hchild
  by_cases hv : c.id ∈ w.visited
  · obtain ⟨f, hf, hid⟩ := List.mem_map.mp (h.mem_visited.mp hv)
    have hown := h.steady.owned f (by simpa using hf)
    obtain ⟨hrule, hel⟩ := hown.entry c hc hid.symm
    rw [hrule, hown.rule] at hr
    cases hr
    refine h.steady.placed hf hel hin ?_
    rw [State.role, h.steady.source, he, hrole]
    exact hm
  · obtain ⟨c₀, hc₀, hcore⟩ := h.grows.old_of_id hc (h.old_of_not_visited hc hv)
    have hid := Correspondence.id_eq_of_core hcore
    have hnow := hgiven c₀ hc₀ ((Correspondence.element_eq_of_core hcore _).symm.trans he) r
      (Correspondence.rule_eq_of_core hcore ▸ hr) child hchild c hc hid
    obtain ⟨y, hy⟩ := hnow.resolve_left (hid ▸ hv)
    exact ⟨y, OneWay.Placed.mono hy fun _ hi => h.mem_visited.mp hi⟩

/-- The rules that were applied are applied again to no effect, where no pair is visited yet. -/
theorem repeats (hattributes : p.rules.UniqueAttributes p.target)
    (ho : p.Ordered w.graphs w.pairs) :
    p.scheme.Repeats (D.map Frame.id) w.report.conflicts { w with visited := [] }
      (start p.rules p.direction) (D.map Frame.id) := by
  have hs := h.steady
  have hrest : p.scheme.AtRest p.direction w.report.conflicts w (D.map Frame.id) :=
    (hs.finished.atRest hs hattributes ho (List.Subset.refl D)).widen (List.nil_subset _)
  refine Scheme.repeats_start (k := p.scheme) h.consistent
    (hrest.alike h.listed ⟨fun _ => rfl, rfl⟩) (fun c hc hid s => ?_)
    (by simpa using hs.ids_nodup) ?_
  · obtain ⟨f, hf, hi⟩ := List.mem_map.mp hid
    have hown := hs.owned f (by simpa using hf)
    rw [Correspondence.element, (hown.entry c hc hi.symm).2]
    exact hown.live s
  · have hlength := hs.length_frames_le
    rw [← hs.source] at hlength
    rw [List.length_map]
    exact Nat.le_succ_of_le hlength

end Adding

theorem Outset.carryAddition_again (h : p.Outset w)
    (hattributes : p.rules.UniqueAttributes p.target) :
    wp (Walk.carryAddition p.rules p.direction p.source e role m)
      (fun _ w' => p.Ordered w'.graphs w'.pairs →
      wp (Walk.carryAddition p.rules p.direction p.source e role m) (fun _ => State.Stands w')
        (fun _ _ => False) { w' with visited := [] }) (fun _ _ => True) w := by
  refine wp_imp h.carryAddition fun _ w' hend => ?_
  obtain ⟨D, hadding, hgiven⟩ := hend
  intro ho
  refine wp_imp
    (Scheme.repeat_carryAddition (k := p.scheme) hadding.consistent (hadding.repeats hattributes ho)
      (List.Subset.refl _) fun hm c hc he r hr child hchild => ?_) fun _ _ hsame => hsame.stands
  have hbase : m ∈ p.base.members e role := by rwa [← hadding.steady.source]
  obtain ⟨y, hy⟩ := hadding.placed (hgiven hbase) hbase hc he hr hchild
  exact ⟨y, hy.alike hadding.listed ⟨fun _ => rfl, rfl⟩⟩

theorem Outset.carryAttribute_again (h : p.Outset w)
    (hattributes : p.rules.UniqueAttributes p.target) :
    wp (Walk.carryAttribute p.rules p.direction p.source e name)
      (fun _ w' => p.Ordered w'.graphs w'.pairs →
      wp (Walk.carryAttribute p.rules p.direction p.source e name)
        (fun conflicted w'' => conflicted = false ∧ w'.Stands w'') (fun _ _ => False)
        { w' with visited := [] })
      (fun _ _ => True) w := by
  refine wp_imp (h.carryAttribute hattributes) fun _ w' hend => ?_
  obtain ⟨hset, hcarried⟩ := hend
  intro ho
  refine wp_imp
    (Scheme.repeat_carryAttribute (k := p.scheme) (w := { w' with visited := [] })
    hset.went.consistent fun hlive c hc he r hr bi hbi => ?_) fun conflicted w'' hend => ?_
  · have hdone := hcarried hlive c hc he r hr bi hbi
    exact ⟨hdone.live, hdone.settled.stays hc hr (Rule.mem_bindingsOn.mp hbi).1 ho⟩
  · obtain ⟨hquiet, rfl⟩ := hend
    exact ⟨hquiet, rfl, rfl, rfl⟩

theorem Outset.carryRemoval_again (h : p.Outset w) :
    wp (Walk.carryRemoval p.rules p.source e role m) (fun _ w' =>
      wp (Walk.carryRemoval p.rules p.source e role m) (fun _ => State.Stands w') (fun _ _ => False)
        { w' with visited := [] }) (fun _ _ => True) w := by
  have hauth : p.source ∈ p.direction.authorities := List.mem_singleton_self _
  refine wp_mono (frees_carryRemoval (k := p.scheme) h.consistent hauth e role m)
    (fun _ w' hend => ?_) fun _ _ _ => trivial
  obtain ⟨⟨w₁, deleted, hf, _, rfl, _⟩, hgone⟩ := hend
  have hsource := p.source_freed hf
  have hk : p.scheme.Consistent w₁.graphs w₁.pairs := h.consistent.freed hf
  refine wp_imp
    (repeat_carryRemoval (k := p.scheme) (w := { w₁ with deleted, visited := [] }) hk fun hm => ?_)
    fun _ w'' hend => ?_
  · rw [hsource] at hm
    exact hgone hm
  · obtain ⟨_, rfl⟩ := hend
    exact ⟨rfl, rfl, rfl⟩

/-- An edit that was carried over is skipped the next time, and nothing is changed but the notes of
what is deleted. -/
theorem Outset.carry_again {change : Change} (h : p.Outset { w with visited := [] })
    (hattributes : p.rules.UniqueAttributes p.target) :
    wp (carry p.rules p.direction p.source change) (fun _ w' => p.Ordered w'.graphs w'.pairs →
      wp (carry p.rules p.direction p.source change) (fun o w'' => o = .skipped ∧ w'.Stands w'')
        (fun _ _ => False) w')
      (fun _ _ => True) w := by
  obtain ⟨element, effect⟩ := change
  have quiet (w' w'' : State) (hs : w'.Stands w'') :
      w''.report.effects = w'.report.effects := hs.effects
  apply wp_carry
  · rintro name before after ⟨rfl⟩
    refine wp_imp (h.carryAttribute_again hattributes) fun _ w' hagain ho => ?_
    refine wp_carry_skipped (quiet w') ?_ nofun nofun
    rintro name before after ⟨rfl⟩
    exact hagain ho
  · rintro role index target ⟨rfl⟩
    refine wp_imp (h.carryAddition_again hattributes) fun _ w' hagain ho => ?_
    refine wp_carry_skipped (quiet w') nofun ?_ nofun
    rintro role index target ⟨rfl⟩
    exact hagain ho
  · rintro role index target ⟨rfl⟩
    refine wp_imp h.carryRemoval_again fun _ w' hagain _ => ?_
    refine wp_carry_skipped (quiet w') nofun nofun ?_
    rintro role index target ⟨rfl⟩
    exact hagain

end Pass

/-- Whatever a session has recorded that follows one side. -/
theorem OneWay.carry_again {k : OneWay} {w : State}
    (hattributes : k.rules.UniqueAttributes k.target) (hroles : k.rules.UniqueRoles k.target)
    (hk : k.scheme.Consistent w.graphs w.pairs) (hco : k.Coherent w.graphs w.pairs)
    (change : Change) :
    wp (carry k.rules k.direction k.source change) (fun _ w' => k.Ordered w'.graphs w'.pairs →
      wp (carry k.rules k.direction k.source change) (fun o w'' => o = .skipped ∧ w'.Stands w'')
        (fun _ _ => False) w')
      (fun _ _ => True) w :=
  (Pass.Outset.of_editPass (w := { w with visited := [] }) hroles hk hco rfl).carry_again
    hattributes

end GraphSync
