import GraphSync.Proofs.Walk.Linking

namespace GraphSync.Pass

open Walk Relation

variable {p : Pass} {w w' w₀ : State} {f g : Frame} {stack done done₀ : List Frame}
  {child : Child} {earlier later ys ps : List ElementId} {apply : Apply}

theorem linkMembers_spec (happly : p.Applies apply (f :: stack)) (hchained : p.Chained (f :: stack))
    (hchild : child ∈ f.rule.children) (hall : p.followed f child = earlier.reverse ++ later)
    (ha : p.Applying stack done₀ w₀ f done w) (hl : p.Linking w done f child earlier ys) :
    wp (linkMembers p.rules p.direction apply child p.source (f.pair.on p.target) earlier later)
      (fun ps w' => ∃ done', p.Applying stack done₀ w₀ f done' w' ∧
        p.Shifts f (child.roles.on p.target) w w' ∧
        done ⊆ done' ∧ p.Linking w' done' f child (later.reverse ++ earlier) (ps.reverse ++ ys))
      (p.Breaks stack done₀ w₀ f done child w) w := by
  induction later generalizing earlier ys done w with
  | nil => exact ⟨done, ha, .refl p f _ w, fun _ h => h, hl⟩
  | cons m later ih =>
    have hs := ha.steady
    have hn : (earlier.reverse ++ m :: later).Nodup := hall ▸ hs.base_sound.members_nodup _ _
    have hm : m ∉ earlier :=
      fun he => (List.nodup_append.mp hn).2.2 m (by simpa using he) m (by simp) rfl
    have hturn : p.Turn stack done₀ w₀ f done child earlier ys m w :=
      ⟨ha, hl, hchained, hchild, by simp [hall], hm⟩
    rw [linkMembers, wp_bind]
    refine hturn.wp_linkMember (fun hc kind hkind hnone => ?_) fun w₁ c r hready hsh => ?_
    · refine ⟨fun hf => .noRule _ (hturn.not_resolves hkind hnone hf), [], done,
        fun _ h => h, hs, ha.moves, .refl p f _ w,
        earlier.reverse, m, later, hall, fun m' hm' => ?_, fun hcomes =>
          .noRule ?_ hcomes hc hkind hnone⟩
      · obtain ⟨y, _, hy⟩ := exists_of_mem_left hl.met (List.mem_reverse.mp hm')
        exact ⟨y, hy⟩
      · exact (show p.Steady ([] ++ f :: stack) done w from hs).new
    · refine wp_mono (happly done w₁ ⟨c.id, r, c.elements⟩ hready.steady hready.called) ?_
        fun _ _ hhalted => hready.breaks hall hsh hhalted
      rintro _ w₂ ⟨done', hd, hs', hmoves, hg, hseen⟩
      obtain ⟨ha₂, hsh₂, hl₂⟩ :=
        hready.linking hd hs' hmoves (List.mem_map_of_mem hg) hseen (child.roles.on p.target)
      rw [wp_bind]
      refine wp_mono (ih (by simp [hall]) ha₂ hl₂) ?_ fun _ _ hbreaks =>
        hbreaks.after (hsh.trans hsh₂) hd
      rintro ps w₃ ⟨done'', ha₃, hsh₃, hd', hl₃⟩
      refine ⟨done'', ha₃, (hsh.trans hsh₂).trans hsh₃, List.Subset.trans hd hd', ?_⟩
      simpa using hl₃

/-- When all members have their counterparts and the stale ones are gone, the role is done. -/
theorem unlinkStale_spec {E : Error → State → Prop}
    (ha : p.Applying stack done₀ w₀ f done w)
    (hl : p.Linking w done f child (p.followed f child).reverse ps.reverse) :
    wp (unlinkStale child p.source (f.pair.on p.target) ps)
      (fun _ w' => p.Applying stack done₀ w₀ f done w' ∧
        p.Shifts f (child.roles.on p.target) w w' ∧ p.RoleDone w' done f child) E w := by
  have hs := ha.steady
  apply OneWay.wp_unlinkStale hs.sound
  · intro e hd
    rw [(hs.owned f (by simp)).live p.target] at hd
    cases hd
  · intro _ g' report hw hreport
    have hf : (w.graphs.on p.target).Follows g' := hs.sound.relists hw
      ((hs.sound.members_nodup _ _).filter _) fun y hy =>
        hs.sound.members_live _ _ y (List.mem_filter.mp hy).1
    obtain ⟨ha', hsh⟩ := ha.relist report hf hw hreport
    have hmir : p.mirrored { w with graphs := w.graphs.put p.target g', report } f child =
        (p.mirrored w f child).filter (OneWay.Stays w.pairs p.target ps ·) := by
      simp only [Pass.mirrored, Sided.on_put_self]
      exact hw.members_self
    refine ⟨ha', hsh, ps, ?_, ?_, ?_⟩
    · apply forall₂_of_mem (List.forall₂_reverse_iff.mp hl.met)
      intro m y hy hmet
      refine hmet.of hsh.toGrows ?_ ?_ hs.sound fun _ hi => hi
      · intro h
        rw [hmir]
        exact List.mem_filter.mpr ⟨h, by simpa using .inl hy⟩
      · intro c _ _ _ hp
        rw [hmir] at hp
        exact (List.mem_filter.mp hp).1
    · intro _ c hc hp
      rw [hmir] at hp
      have hstays : OneWay.Stays w.pairs p.target ps (c.element p.target) := by
        simpa using (List.mem_filter.mp hp).2
      rcases hstays with h | hnone
      · exact h
      · have hmem : c.element p.target.other ∈ w.pairs.partners p.target (c.element p.target) :=
          Correspondences.mem_partners.mpr ⟨c, hc, rfl, rfl⟩
        rw [hnone] at hmem
        cases hmem
    · intro hb
      rw [hmir, hl.exact hb, List.reverse_reverse]
      exact List.filter_eq_self.mpr fun y hy => by simpa using .inl hy

theorem syncRole_spec (happly : p.Applies apply (f :: stack)) (hchained : p.Chained (f :: stack))
    (hchild : child ∈ f.rule.children) (ha : p.Applying stack done₀ w₀ f done w)
    (hv : p.Vacant w f child) :
    wp (syncRole p.rules p.direction apply child p.source f.pair)
      (fun _ w' => ∃ done', p.Applying stack done₀ w₀ f done' w' ∧
        p.Shifts f (child.roles.on p.target) w w' ∧ done ⊆ done' ∧
        p.RoleDone w' done' f child)
      (p.Breaks stack done₀ w₀ f done child w) w := by
  have hs := ha.steady
  have hrefs := (hs.owned f (by simp)).references_followed hs.source child
  have start : p.Linking w done f child [] [] :=
    ⟨.nil, fun hf c hc hi hp => absurd hp (hv.unpaired hf c hc hi), hv.empty⟩
  rw [syncRole, wp_bind, wp_graph, wp_bind, wp_liftGraph, hrefs]
  simp only
  rw [wp_bind]
  apply wp_imp (linkMembers_spec happly hchained hchild rfl ha start)
  intro ps w₁ h₁
  obtain ⟨done', ha₁, hsh₁, hd, hl⟩ := h₁
  simp only [List.append_nil] at hl
  rw [wp_ite]
  split
  · apply wp_imp (unlinkStale_spec ha₁ hl)
    intro _ w₂ h₂
    obtain ⟨ha₂, hsh₂, hdone⟩ := h₂
    exact ⟨done', ha₂, hsh₁.trans hsh₂, hd, hdone⟩
  · rename_i hforced
    refine ⟨done', ha₁, hsh₁, hd, ps, List.forall₂_reverse_iff.mp hl.met, fun hf =>
      absurd hf hforced, ?_⟩
    intro hb
    rw [hl.exact hb, List.reverse_reverse]

/-- The roles of `pre` are done. -/
structure Worked (p : Pass) (stack done₀ : List Frame) (w₀ : State) (f : Frame)
    (pre : List Child) (w : State) : Prop where
  applying : ∃ done, p.Applying stack done₀ w₀ f done w ∧ ∀ child ∈ pre,
    p.RoleDone w done f child
  bound : (f.rule.bindings.map (·.attributes.on p.target)).Nodup →
    ∀ bi ∈ f.rule.numbered, p.BindingDone w f bi.1 bi.2
  vacant : ∀ child : Child, (∀ c ∈ pre, c.roles.on p.target ≠ child.roles.on p.target) →
    p.Vacant w f child

theorem Worked.syncRole {pre post : List Child} (h : p.Worked stack done₀ w₀ f pre w)
    (happly : p.Applies apply (f :: stack)) (hchained : p.Chained (f :: stack))
    (hsplit : f.rule.children = pre ++ child :: post) :
    wp (syncRole p.rules p.direction apply child p.source f.pair)
      (fun _ w' => p.Worked stack done₀ w₀ f (pre ++ [child]) w')
      (p.Halted stack done₀ w₀ f) w := by
  obtain ⟨done, ha, hroles⟩ := h.applying
  have hown := ha.steady.owned f (by simp)
  have hnodup := p.unique_roles f.rule (RuleSet.mem_of_rule? hown.rule).1
  rw [hsplit, List.map_append, List.map_cons] at hnodup
  have hapart : ∀ c ∈ pre, c.roles.on p.target ≠ child.roles.on p.target := fun c hc =>
    (List.nodup_append.mp hnodup).2.2 _ (List.mem_map_of_mem hc) _ (by simp)
  have hs := ha.steady.sound
  -- in the role of `child` neither the bindings nor the roles before it are touched
  have hbound {w' : State} (hsh : p.Shifts f (child.roles.on p.target) w w')
      (hn : (f.rule.bindings.map (·.attributes.on p.target)).Nodup) :
      ∀ bi ∈ f.rule.numbered, p.BindingDone w' f bi.1 bi.2 := fun bi hbi =>
    (h.bound hn bi hbi).of (hsh.values bi.1) fun c hc hi => ⟨c, hsh.entries c hc hi, hi, rfl⟩
  have hbefore {w' : State} {done' : List Frame} (hsh : p.Shifts f (child.roles.on p.target) w w')
      (hd : done ⊆ done') :
      ∀ c ∈ pre, p.RoleDone w' done' f c := fun c hc =>
    (hroles c hc).of hsh.toGrows (hsh.mirrored c (hapart c hc)) hs fun id hi =>
      List.map_subset _ hd hi
  refine wp_mono (syncRole_spec happly hchained (by simp [hsplit]) ha (h.vacant child hapart)) ?_ ?_
  · rintro _ w' ⟨done', ha', hsh, hd, hdone⟩
    refine ⟨⟨done', ha', ?_⟩, hbound hsh, ?_⟩
    · intro c hc
      rcases List.mem_append.mp hc with hc | hc
      · exact hbefore hsh hd c hc
      · rw [List.mem_singleton.mp hc]
        exact hdone
    · intro c hc
      have hne : c.roles.on p.target ≠ child.roles.on p.target := (hc child (by simp)).symm
      exact (h.vacant c fun c' hc' => hc c' (by simp [hc'])).of hsh.toGrows (hsh.mirrored c hne) hs
  · rintro e w'
      ⟨hfails, inner, done', hd, hsteady, hm, hsh, earlier, m, later, hsplit', hmet, hhalts⟩
    refine ⟨hfails, inner ++ [f], done',
      List.Subset.trans ha.later hd, by simpa using hsteady, hm, hhalts ⟨hbound hsh, ?_, ?_⟩⟩
    · exact ⟨pre, post, hsplit, hbefore hsh hd⟩
    · exact ⟨earlier, later, hsplit', hmet⟩

theorem applyParts_spec (happly : p.Applies apply (f :: stack)) (hchained : p.Chained (f :: stack))
    (hs : p.Steady (f :: stack) done w) (hseen : p.Seen w)
    (hv : ∀ child, p.Vacant w f child)
    (hb : p.blank → ∀ name, (w.graphs.on p.target).reading (f.pair.on p.target) name = .unset) :
    wp (applyParts p.rules p.direction apply f.rule f.id f.pair)
      (fun _ w' => ∃ done', p.Applying stack done w f done' w' ∧ p.Done w' done' f)
      (p.Halted stack done w f) w := by
  rw [applyParts, wp_bind]
  apply wp_imp (bindings_spec hs hseen hv hb)
  intro _ w₁ hbound
  have start : p.Worked stack done w f [] w₁ :=
    ⟨⟨done, hbound.applying, fun _ hc => by cases hc⟩, hbound.bound, fun child _ =>
      hbound.vacant child⟩
  refine wp_imp (wp_forM_worked (I := p.Worked stack done w f) ?_ start) ?_
  · intro pre child post hl w₂ hw
    have hd : p.direction.authorities = [p.source] := rfl
    rw [hd, wp_forM_cons]
    exact hw.syncRole happly hchained hl
  · intro _ w' hw
    obtain ⟨done', ha, hroles⟩ := hw.applying
    exact ⟨done', ha, hw.bound, hroles⟩

/-- A rule that is called for the first time starts in a state as steady as the one it is called
in. -/
theorem Steady.push (h : p.Steady stack done w) (hc : p.Called w stack g)
    (hv : g.id ∉ w.visited) :
    p.Steady (g :: stack) done { w with visited := g.id :: w.visited } := by
  obtain ⟨c, hm, hid, hrule, hel⟩ := hc.entry
  have hnew : g.id ∉ (stack ++ done).map Frame.id := fun hi => hv ((h.visited g.id).mpr hi)
  have hco := h.coherent
  have htarget : c.element p.target = g.pair.on p.target := congrArg (·.on p.target) hel
  exact {
    coherent := h.coherent
    source := h.source
    alive := h.alive
    ids_nodup := List.nodup_cons.mpr ⟨hnew, h.ids_nodup⟩
    targets_nodup := by
      refine List.nodup_cons.mpr ⟨?_, h.targets_nodup⟩
      intro hi
      obtain ⟨x, hx, he⟩ := List.mem_map.mp hi
      have := (h.owned x hx).sole c hm (htarget.trans he.symm)
      exact hnew (List.mem_map.mpr ⟨x, hx, this.symm.trans hid⟩)
    visited := fun id => by
      rw [List.mem_cons, h.visited]
      simp
    owned := fun x hx => by
      rcases List.mem_cons.mp hx with rfl | hx
      · refine ⟨hc.rule, ?_, ?_, ?_, ?_, ?_, hc.reached⟩
        · cases ha : c.isAnchor with
          | false => exact .inl ⟨c, hm, hid, ha⟩
          | true =>
            obtain ⟨hroot, hroots⟩ := hco.anchor c hm ha
            exact .inr ⟨hrule.symm.trans hroot, hel.symm.trans hroots⟩
        · intro a ha hi
          rw [hco.listed.eq_of_id ha hm (hi.trans hid.symm)]
          exact ⟨hrule, hel⟩
        · intro a ha ht
          rw [hco.target_inj a ha c hm (ht.trans htarget.symm), hid]
        · exact hc.live
        · rw [← hid]
          exact hco.listed.bounded c hm
      · have hx := h.owned x hx
        exact ⟨hx.rule, hx.recorded, hx.entry, hx.sole, hx.live, hx.old, hx.reached⟩
    finished := h.finished.moved (.marked p done w _) h.sound fun _ h => h
    typed := h.typed
    anchored := h.anchored
    rooted := h.rooted
    tally := h.tally }

/-- A frame is known by its handle. -/
theorem eq_of_called {x : Frame} (h : p.Steady stack done w) (hc : p.Called w stack g)
    (hx : x ∈ stack ++ done) (hid : x.id = g.id) : x = g := by
  obtain ⟨c, hm, hcid, hrule, hel⟩ := hc.entry
  have hown := h.owned x hx
  obtain ⟨hrule', hel'⟩ := hown.entry c hm (hcid.trans hid.symm)
  have hr : x.rule = g.rule := by
    have h₁ := hown.rule
    rw [← hrule', hrule, hc.rule] at h₁
    exact (Option.some.inj h₁).symm
  cases x
  cases g
  simp_all

/-- A rule that is called below itself comes back to its own node. -/
theorem not_acyclic_of_mem (h : p.Steady stack done w) (hc : p.Called w stack g)
    (hp : g.id ∈ stack.map Frame.id) (hfirst : p.first) : ¬ p.Acyclic p.base := by
  intro hacyclic
  obtain ⟨x, hx, hid⟩ := List.mem_map.mp hp
  have hloop := (List.pairwise_cons.mp (hc.chained hfirst)).1 x hx
  rw [eq_of_called h hc (List.mem_append_left _ hx) hid] at hloop
  exact hacyclic (p.node g) (hc.reached hfirst) hloop

theorem applyRule_applies (fuel : Nat) (stack : List Frame)
    (hfuel : p.base.size * p.rules.size + 2 ≤ fuel + stack.length) :
    p.Applies (applyRule p.rules p.direction fuel (stack.map Frame.id)) stack := by
  induction fuel generalizing stack with
  | zero =>
    intro done w g hs hc
    have hlength := hs.length_frames_le
    rw [List.length_append] at hlength
    omega
  | succ fuel ih =>
    intro done w g hs hc
    have happly : p.Applies (applyRule p.rules p.direction fuel (g.id :: stack.map Frame.id))
        (g :: stack) :=
      ih (g :: stack) (by simp only [List.length_cons]; omega)
    rw [applyRule, wp_ite]
    split
    · rename_i hp
      exact ⟨fun hf => .cycle _ _ (not_acyclic_of_mem hs hc hp hf), [], done, fun _ h => h, hs,
        .refl p _ w, .cycle hp⟩
    · rename_i hp
      rw [wp_bind, wp_get, wp_ite]
      split
      · rename_i hv
        have hdone : g ∈ done := by
          have hi := (hs.visited g.id).mp hv
          rw [List.map_append, List.mem_append] at hi
          obtain ⟨x, hx, hid⟩ := List.mem_map.mp (hi.resolve_left hp)
          rwa [← eq_of_called hs hc (List.mem_append_right _ hx) hid]
        refine ⟨done, fun _ h => h, hs, .refl p _ w, hdone, ?_⟩
        intro c hm hfresh
        rcases hc.seen c hm hfresh with h | h
        · exact h
        · rw [h]
          exact hv
      · rename_i hv
        rw [wp_bind, wp_modify]
        obtain ⟨hvacant, hbare⟩ := hc.fresh hv
        refine wp_mono (applyParts_spec happly hc.chained (hs.push hc hv) ?_
          (fun child => ⟨(hvacant child).unpaired, (hvacant child).empty⟩) hbare) ?_ ?_
        · intro c hm hfresh
          rcases hc.seen c hm hfresh with h | h
          · exact List.mem_cons_of_mem _ h
          · rw [h]
            exact List.mem_cons_self
        · intro _ w' h'
          obtain ⟨done', ha, hdone⟩ := h'
          have hperm : (g :: stack ++ done').Perm (stack ++ g :: done') := List.perm_middle.symm
          exact ⟨g :: done', fun x hx => List.mem_cons_of_mem _ (ha.later hx),
            ha.steady.perm hperm (.cons hdone ha.steady.finished),
            (Moves.marked p _ w _).trans ha.moves, by simp, ha.seen⟩
        · rintro e w' ⟨hfails, inner, done', hd, hs', hm, hhalts⟩
          exact ⟨hfails, inner, done', hd, hs', (Moves.marked p _ w _).trans hm, hhalts⟩

/-- The fuel of a walk suffices for it. -/
theorem start_applies (p : Pass) : p.Applies (start p.rules p.direction) [] := by
  intro done w g hs hc
  have hfuel : nestingLimit p.rules p.direction w.graphs = p.base.size * p.rules.size + 2 := by
    rw [← hs.source]
    rfl
  rw [start, wp_bind, wp_get, hfuel]
  exact applyRule_applies _ [] (by simp only [List.length_nil]; omega) done w g hs hc

end GraphSync.Pass
