import GraphSync.Proofs.Walk.Descent
import GraphSync.Proofs.Walk.Release

namespace GraphSync.Pass

open Walk Relation

variable {p : Pass} {w w' : State} {done : List Frame} {g : Frame} {r : Rule} {c : Correspondence}

/-- The state in which a pass starts bears out what is known of it. -/
structure Starts (p : Pass) (w : State) : Prop where
  coherent : p.Coherent w.graphs w.pairs
  source : w.graphs.on p.source = p.base
  visited : w.visited = []
  created : w.report.elementsCreated = 0
  intact : p.intact
  first : p.first → w.pairs.entries = []
  fresh : ∀ id, p.fresh id → p.first
  bare : p.blank →
    (∀ role, (w.graphs.on p.target).members (w.graphs.on p.target).root role = []) ∧
    ∀ name, (w.graphs.on p.target).reading (w.graphs.on p.target).root name = .unset

/-- What a pass that succeeded leaves behind; `g` is the application of the root rule to the
roots. -/
structure Passed (p : Pass) (w : State) (done : List Frame) (g : Frame) : Prop where
  intact : p.intact
  steady : p.Steady [] done w
  alive : ∀ c ∈ w.pairs.entries, ∀ s, (w.graphs.on s).contains (c.element s) = true
  mem : g ∈ done
  rule : p.rules.rule? p.rootRule = some g.rule
  pair : g.pair = w.graphs.map Graph.root
  kinds : ∀ s, (w.graphs.on s).kind? (w.graphs.on s).root = some (g.rule.types.on s)
  seen : p.Seen w

/-- What a pass leaves behind that failed with `e` below the application of the root rule to the
roots; rules are still being applied to the frames of `inner`. -/
structure Broken (p : Pass) (w : State) (inner done : List Frame) (g : Frame)
    (e : Error) : Prop where
  intact : p.intact
  steady : p.Steady inner done w
  alive : ∀ c ∈ w.pairs.entries, ∀ s, (w.graphs.on s).contains (c.element s) = true
  rule : p.rules.rule? p.rootRule = some g.rule
  pair : g.pair = w.graphs.map Graph.root
  kinds : ∀ s, (w.graphs.on s).kind? (w.graphs.on s).root = some (g.rule.types.on s)
  roots : ∀ c ∈ w.pairs.entries, c.isAnchor = true → c.id = g.id
  halts : p.Halts w done [] g e
  fails : p.Fails e w

/-- The roots are paired, and pairs that lost an element are gone. -/
structure Anchored (p : Pass) (w : State) (r : Rule) (c : Correspondence) : Prop where
  coherent : p.Coherent w.graphs w.pairs
  source : w.graphs.on p.source = p.base
  visited : w.visited = []
  created : w.report.elementsCreated = 0
  mem : c ∈ w.pairs.entries
  anchor : c.isAnchor = true
  intact : p.intact
  only : p.first → w.pairs.entries = [c]
  fresh : ∀ id, p.fresh id → p.first
  bare : p.blank →
    (∀ role, (w.graphs.on p.target).members (w.graphs.on p.target).root role = []) ∧
    ∀ name, (w.graphs.on p.target).reading (w.graphs.on p.target).root name = .unset
  rule : p.rules.rule? p.rootRule = some r
  kinds : ∀ s, (w.graphs.on s).kind? (w.graphs.on s).root = some (r.types.on s)

theorem Anchored.steady (h : p.Anchored w r c)
    (halive : ∀ c ∈ w.pairs.entries, ∀ s, (w.graphs.on s).contains (c.element s) = true) :
    p.Steady [] [] w := by
  obtain ⟨hrule, hel⟩ := h.coherent.anchor c h.mem h.anchor
  have hroot : c.element p.source = p.base.root := by
    rw [Correspondence.element, hel, Sided.on_map, h.source]
  exact {
    coherent := h.coherent
    source := h.source
    alive := fun _ a ha => halive a ha p.target
    ids_nodup := .nil
    targets_nodup := .nil
    visited := fun id => by simp [h.visited]
    owned := fun _ hf => by cases hf
    finished := .nil
    typed := fun hf a ha => by
      rw [h.only hf, List.mem_singleton] at ha
      subst a
      refine ⟨r, hrule ▸ h.rule, ?_⟩
      rw [hroot, ← h.source]
      exact h.kinds p.source
    anchored := fun _ => ⟨c, h.mem, h.anchor⟩
    rooted := fun _ => ⟨c, h.mem, hrule, hroot⟩
    tally := fun hf => by simp [h.created, Correspondences.members, h.only hf, h.anchor] }

theorem Anchored.called (h : p.Anchored w r c) :
    p.Called w [] ⟨c.id, r, w.graphs.map Graph.root⟩ := by
  obtain ⟨hrule, hel⟩ := h.coherent.anchor c h.mem h.anchor
  have hname := (RuleSet.mem_of_rule? h.rule).2
  refine ⟨hname ▸ h.rule, ⟨c, h.mem, rfl, hrule.trans hname.symm, hel⟩, ?_, ?_, fun _ =>
    List.pairwise_singleton _ _, fun _ => ⟨fun child => ⟨?_, ?_⟩, ?_⟩, ?_⟩
  · intro s
    rw [Sided.on_map]
    exact (h.coherent.sound s).root_live
  · intro _
    refine ⟨r, h.rule, ?_⟩
    have hnode : p.node ⟨c.id, r, w.graphs.map Graph.root⟩ = ⟨p.base.root, r⟩ := by
      simp only [Pass.node, Sided.on_map]
      rfl
    rw [hnode]
  · intro hf a ha hi
    rw [h.only hf, List.mem_singleton] at ha
    rw [ha, h.anchor] at hi
    cases hi
  · intro hb
    simpa only [Pass.mirrored, Sided.on_map] using (h.bare hb).1 _
  · intro hb name
    simpa only [Sided.on_map] using (h.bare hb).2 name
  · intro a ha hfresh
    rw [h.only (h.fresh _ hfresh), List.mem_singleton] at ha
    exact .inr (congrArg Correspondence.id ha :)

/-- What follows leaves no pair without its elements, the roots their types, and no other pair of
theirs. -/
theorem Anchored.moved {stack frames : List Frame} (h : p.Anchored w r c)
    (halive : ∀ c ∈ w.pairs.entries, ∀ s, (w.graphs.on s).contains (c.element s) = true)
    (hm : p.Moves frames w w') (hs : p.Steady stack done w') :
    (∀ c ∈ w'.pairs.entries, ∀ s, (w'.graphs.on s).contains (c.element s) = true) ∧
      (∀ s, (w'.graphs.on s).kind? (w'.graphs.on s).root = some (r.types.on s)) ∧
      ∀ a ∈ w'.pairs.entries, a.isAnchor = true → a.id = c.id := by
  refine ⟨?_, ?_, ?_⟩
  · intro a ha s
    rcases p.side_cases s with rfl | rfl
    · rcases hm.origin a ha with ⟨b, hb, he⟩ | ⟨_, _, _, hl⟩
      · rw [hm.source, Correspondence.element_eq_of_core he]
        exact halive b hb p.source
      · exact hl
    · exact hs.alive h.intact a ha
  · intro s
    rcases p.side_cases s with rfl | rfl
    · rw [hm.source]
      exact h.kinds p.source
    · have hk := hm.kind
      rw [h.kinds p.target] at hk
      exact hk
  · intro a ha hanchor
    rcases hm.origin a ha with ⟨b, hb, he⟩ | ⟨hinner, _⟩
    · rw [Correspondence.isAnchor_eq_of_core he] at hanchor
      rw [Correspondence.id_eq_of_core he, h.coherent.target_inj b hb c h.mem]
      rw [Correspondence.element, Correspondence.element, (h.coherent.anchor b hb hanchor).2,
        (h.coherent.anchor c h.mem h.anchor).2]
    · exact Bool.noConfusion (hinner.symm.trans hanchor)

/-- From paired roots on, a pass succeeds or is broken off. -/
theorem Anchored.start_spec (h : p.Anchored w r c)
    (halive : ∀ c ∈ w.pairs.entries, ∀ s, (w.graphs.on s).contains (c.element s) = true) :
    wp (start p.rules p.direction r c.id (w.graphs.map Graph.root))
      (fun _ w' => ∃ done g, p.Passed w' done g)
      (fun e w' => ∃ inner done g, p.Broken w' inner done g e) w := by
  refine wp_mono (p.start_applies [] w _ (h.steady halive) h.called) ?_ ?_
  · rintro _ w' ⟨done', _, hs, hm, hg, hseen⟩
    obtain ⟨halive', hkinds, _⟩ := h.moved halive hm hs
    exact ⟨done', _, h.intact, hs, halive', hg, h.rule, rfl, hkinds, hseen⟩
  · rintro e w' ⟨hfails, inner, done', _, hs, hm, hhalts⟩
    obtain ⟨halive', hkinds, hroots⟩ := h.moved halive hm hs
    exact ⟨inner, done', _, h.intact, List.append_nil inner ▸ hs, halive', h.rule, rfl, hkinds,
      hroots, hhalts, hfails⟩

/-- Dropping what was lost keeps the roots paired. -/
theorem Anchored.release_spec (h : p.Anchored w r c) :
    wp (releaseAllLost p.rules p.direction)
      (fun _ => wp (start p.rules p.direction r c.id (w.graphs.map Graph.root))
        (fun _ w' => ∃ done g, p.Passed w' done g)
        (fun e w' => ∃ inner done g, p.Broken w' inner done g e))
      (fun e w' => ∃ inner done g, p.Broken w' inner done g e) w := by
  by_cases hf : p.first
  · have honly := h.only hf
    refine wp_releaseAllLost_of_alive ?_ (h.start_spec ?_)
    · intro a ha
      simp [Correspondences.members, honly, h.anchor] at ha
    · intro a ha s
      rw [honly, List.mem_singleton] at ha
      rw [ha]
      exact h.coherent.anchor_alive h.mem h.anchor s
  · refine wp_mono
      (frees_releaseAllLost h.coherent.sound h.coherent.listed fun _ => h.coherent.anchor_alive) ?_
      fun _ _ hfalse => hfalse.elim
    intro _ w₁ h₁
    obtain ⟨hfree, hmem⟩ := h₁
    have hanchored : p.Anchored w₁ r c := {
      coherent := h.coherent.freed hfree
      source := (OneWay.source_freed hfree).trans h.source
      visited := hfree.visited.trans h.visited
      created := hfree.created.trans h.created
      mem := (hmem c).mpr ⟨h.mem, h.coherent.anchor_alive h.mem h.anchor⟩
      anchor := h.anchor
      intact := h.intact
      only := fun hf' => absurd hf' hf
      fresh := h.fresh
      bare := fun hb => absurd (p.first_of_blank hb) hf
      rule := h.rule
      kinds := fun s => (hfree.kind? s _).trans (h.kinds s) }
    apply hanchored.start_spec
    intro a ha s
    rw [hfree.contains]
    exact ((hmem a).mp ha).2 s

/-- Pairing the roots and what follows it. -/
theorem Starts.anchor_spec (h : p.Starts w) (hr : p.rules.rule? p.rootRule = some r)
    (hk : ∀ s, (w.graphs.on s).kind? (w.graphs.on s).root = some (r.types.on s)) :
    wp (onPairs (·.anchor p.rootRule (w.graphs.map Graph.root) p.direction) >>= fun o =>
        countPair o >>= fun id => releaseAllLost p.rules p.direction >>= fun _ =>
          start p.rules p.direction r id (w.graphs.map Graph.root))
      (fun _ w' => ∃ done g, p.Passed w' done g)
      (fun e w' => p.Fails e w' ∧ (w' = w ∨ ∃ inner done g, p.Broken w' inner done g e)) w := by
  have failed {e : Error} {w' : State} (hb : ∃ inner done g, p.Broken w' inner done g e) :
      p.Fails e w' ∧ (w' = w ∨ ∃ inner done g, p.Broken w' inner done g e) := by
    obtain ⟨_, _, _, hbroken⟩ := hb
    exact ⟨hbroken.fails, .inr ⟨_, _, _, hbroken⟩⟩
  rw [wp_bind, wp_onPairs]
  rcases h.coherent.anchor_cases p.direction with ⟨c, hc, ha, he⟩ | ⟨_, c, hc, _, _,
    he⟩ | ⟨hn, hs, he⟩
  · have hfirst : ¬ p.first := fun hf => by simp [h.first hf] at hc
    rw [he]
    simp only
    rw [wp_bind, wp_countPair, wp_bind]
    refine wp_mono
      (Anchored.release_spec ⟨h.coherent, h.source, h.visited, h.created, hc, ha, h.intact,
      fun hf => absurd hf hfirst, h.fresh, fun hb => absurd (p.first_of_blank hb) hfirst, hr, hk⟩)
      ?_ fun _ _ => failed
    exact fun _ _ hq => wp_mono hq (fun _ _ hq => hq) fun _ _ => failed
  · rw [he]
    exact ⟨fun hf => by simp [h.first hf] at hc, .inl rfl⟩
  · rw [he]
    simp only
    rw [wp_bind, wp_countPair, wp_bind]
    have hco := OneWay.keeps_anchor hr w h.coherent p.direction
    rw [wp_onPairs, he] at hco
    refine wp_mono
      (Anchored.release_spec
      (c := w.pairs.anchorEntry p.rootRule (w.graphs.map Graph.root) p.direction)
      ⟨hco, h.source, h.visited, h.created, by simp, rfl, h.intact,
        fun hf => by simp [h.first hf], h.fresh, h.bare, hr, hk⟩) ?_
      fun _ _ => failed
    exact fun _ _ hq => wp_mono hq (fun _ _ hq => hq) fun _ _ => failed

theorem syncRoots_spec (h : p.Starts w) :
    wp (syncRoots p.rules p.direction p.rootRule) (fun _ w' => ∃ done g, p.Passed w' done g)
      (fun e w' => (p.RootsFit w.graphs → p.Fails e w') ∧
        (w' = w ∨ ∃ inner done g, p.Broken w' inner done g e)) w := by
  apply OneWay.wp_syncRoots h.coherent
  · refine fun hnone _ => ⟨fun hfit => ?_, .inl rfl⟩
    obtain ⟨r, hr, _⟩ := hfit
    rw [hnone] at hr
    cases hr
  · refine fun r hr hne _ => ⟨fun hfit => ?_, .inl rfl⟩
    obtain ⟨r', hr', hk⟩ := hfit
    rw [hr] at hr'
    cases hr'
    obtain ⟨s, hs⟩ := hne
    exact absurd (hk s) hs
  · intro r hr hk
    exact wp_mono (h.anchor_spec hr hk) (fun _ _ hq => hq) fun _ _ he => ⟨fun _ => he.1, he.2⟩

/-- A listed rule is done with rules that come after it. -/
theorem Finished.done_of_mem (h : p.Finished w done) {f : Frame} (hf : f ∈ done) :
    ∃ tail, tail ⊆ done ∧ p.Done w tail f := by
  induction h with
  | nil => cases hf
  | @cons f' done head _ ih =>
    rcases List.mem_cons.mp hf with rfl | hf
    · exact ⟨done, List.subset_cons_self _ _, head⟩
    · obtain ⟨tail, hs, hd⟩ := ih hf
      exact ⟨tail, fun x hx => List.mem_cons_of_mem _ (hs hx), hd⟩

/-- The application of the rule of a pair that was visited. -/
theorem Passed.frame_of_mem (h : p.Passed w done g) (hc : c ∈ w.pairs.entries)
    (hv : c.id ∈ w.visited) :
    ∃ f ∈ done, f.id = c.id ∧ c.elements = f.pair ∧ p.rules.rule? c.rule = some f.rule := by
  obtain ⟨f, hf, hid⟩ := List.mem_map.mp ((h.steady.visited c.id).mp hv)
  have hown := h.steady.owned f hf
  obtain ⟨hrule, hel⟩ := hown.entry c hc hid.symm
  exact ⟨f, hf, hid, hel, hrule ▸ hown.rule⟩

end GraphSync.Pass
