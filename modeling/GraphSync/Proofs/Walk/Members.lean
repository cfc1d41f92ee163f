import GraphSync.Proofs.Walk.Bindings
import GraphSync.Proofs.Walk.Keep

namespace GraphSync.Pass

open Walk

variable {p : Pass} {w w' w'' : State} {f : Frame} {stack done : List Frame} {child : Child}
  {role : RoleName}

/-- Only one role of the target of `f` changes, as far as `f` is concerned. -/
structure Shifts (p : Pass) (f : Frame) (role : RoleName)
    (w w' : State) : Prop extends p.Grows w w' where
  values : ∀ b, w'.values f.pair b = w.values f.pair b
  mirrored : ∀ child : Child, child.roles.on p.target ≠ role →
    p.mirrored w' f child = p.mirrored w f child
  entries : ∀ c ∈ w'.pairs.entries, c.id = f.id → c ∈ w.pairs.entries

theorem Shifts.refl (p : Pass) (f : Frame) (role : RoleName) (w : State) : p.Shifts f role w w :=
  ⟨.refl p w, fun _ => rfl, fun _ _ => rfl, fun _ hc _ => hc⟩

theorem Shifts.trans (h : p.Shifts f role w w') (h' : p.Shifts f role w' w'') :
    p.Shifts f role w w'' :=
  ⟨h.toGrows.trans h'.toGrows, fun b => (h'.values b).trans (h.values b),
    fun child hc => (h'.mirrored child hc).trans (h.mirrored child hc),
    fun c hc hi => h.entries c (h'.entries c hc hi) hi⟩

/-- What happens below a frame does not change anything for it. -/
theorem Moves.shifts {frames : List Frame} (h : p.Moves frames w w') (hf : f ∈ frames)
    (role : RoleName) : p.Shifts f role w w' :=
  ⟨h.toGrows, h.values hf, fun _ _ => h.mirrored hf, h.entries f hf⟩

/-- A role of the target of `f` gets other members. -/
theorem Applying.relist {done₀ : List Frame} {w₀ : State}
    (h : p.Applying stack done₀ w₀ f done w) {g' : Graph} {ts : List ElementId}
    (report : Report) (hf : (w.graphs.on p.target).Follows g')
    (hw : (w.graphs.on p.target).Relists g' (f.pair.on p.target) role ts)
    (hr : report.elementsCreated = w.report.elementsCreated) :
    p.Applying stack done₀ w₀ f done { w with graphs := w.graphs.put p.target g', report } ∧
      p.Shifts f role w { w with graphs := w.graphs.put p.target g', report } := by
  obtain ⟨ha, hg⟩ :=
    h.write g' report (h.steady.coherent.put hf) hw.next hw.contains hw.kind? hw.element?_of_ne
    (.refl w.pairs f.id) hr
  refine ⟨ha, hg, fun b => OneWay.sided_ext (k := p.toOneWay) ?_ ?_, ?_, fun _ hc _ => hc⟩
  · rw [State.values_on, State.values_on, hg.source]
  · rw [State.values_on, State.values_on, Sided.on_put_self]
    exact hw.reading _ _
  · intro child hc
    simp only [Pass.mirrored, Sided.on_put_self]
    exact hw.members_of_ne hc

/-- The pair of `m` with a new counterpart. -/
def newPair (p : Pass) (w : State) (r : Rule) (m : ElementId) : Correspondence :=
  { id := ⟨w.pairs.next⟩
    rule := r.name
    elements := p.pair m ⟨(w.graphs.on p.target).next⟩
    createdIn := p.direction }

/-- The state after a new counterpart for `m` was put into a role and paired with it. -/
def created (p : Pass) (w : State) (r : Rule) (m : ElementId) (g' : Graph) (report : Report) :
    State :=
  { w with
    graphs := w.graphs.put p.target g'
    pairs := {
      entries := (w.pairs.without r.name p.source m).entries ++ [p.newPair w r m]
      next := w.pairs.next + 1 }
    report }

theorem element_newPair_source (p : Pass) (w : State) (r : Rule) (m : ElementId) :
    (p.newPair w r m).element p.source = m := p.pair_source _ _

theorem element_newPair_target (p : Pass) (w : State) (r : Rule) (m : ElementId) :
    (p.newPair w r m).element p.target = ⟨(w.graphs.on p.target).next⟩ := p.pair_target _ _

theorem mem_created (h : p.Coherent w.graphs w.pairs) (r : Rule) (m : ElementId) (g' : Graph)
    (report : Report) {c : Correspondence} : c ∈ (p.created w r m g' report).pairs.entries ↔
      (c ∈ w.pairs.entries ∧ ¬ (c.rule = r.name ∧ c.element p.source = m)) ∨
      c = p.newPair w r m := by
  simp only [created, List.mem_append, List.mem_singleton, h.mem_without]

theorem members_created (h : p.Coherent w.graphs w.pairs) {r : Rule} {m : ElementId} {g' : Graph}
    {report : Report}
    (hnone : ∀ c ∈ w.pairs.entries, c.rule = r.name → c.element p.source = m →
      c.isAnchor = true) :
    (p.created w r m g' report).pairs.members.length = w.pairs.members.length + 1 := by
  have hw : (w.pairs.without r.name p.source m).members = w.pairs.members := by
    unfold Correspondences.without
    cases hl : w.pairs.lookup? r.name p.source m with
    | none => rfl
    | some stale =>
      obtain ⟨hm, hr, he⟩ := Correspondences.of_lookup?_eq_some hl
      simp only [Correspondences.members, Correspondences.remove, List.filter_filter]
      apply List.filter_congr
      intro c hc
      by_cases hi : c.id = stale.id
      · rw [h.listed.eq_of_id hc hm hi, hnone stale hm hr he]
        rfl
      · simp [hi]
  have hn : (p.newPair w r m).isAnchor = false := rfl
  simp only [Correspondences.members] at hw
  simp [Correspondences.members, created, List.filter_append, hw, hn]

theorem coherent_created (h : p.Coherent w.graphs w.pairs) {r : Rule} {m : ElementId}
    (hr : p.rules.rule? r.name = some r) {g' : Graph}
    (hf : ((w.graphs.on p.target).add (r.types.on p.target)).2.Follows g') (report : Report) :
    p.Coherent (p.created w r m g' report).graphs (p.created w r m g' report).pairs := by
  obtain ⟨_, hnext⟩ := Correspondences.without_sublist w.pairs r.name p.source m
  have hmade := (h.made (r.types.on p.target) r.name m).put (s := p.target) (g := g')
    (by rwa [Sided.on_put_self])
  have hrec := (OneWay.Recordable.made h hr (r.types.on p.target) m).put (g := g')
    (by rwa [Sided.on_put_self])
  rw [Sided.put_put] at hmade hrec
  obtain ⟨_, ⟨c, hc, hcr, hce⟩ | ⟨hs, ht, hl, hroot⟩⟩ := hrec
  · refine absurd ⟨hcr, ?_⟩ (h.mem_without.mp hc).2
    rw [Correspondence.element, hce, p.pair_source]
  · have ha :=
      hmade.append (c := p.newPair w r m) (congrArg CorrespondenceId.mk hnext.symm) hs ht hl
      (fun hf => by cases hf) (fun _ => hroot) ⟨r, hr⟩
    rwa [hnext] at ha

/-- A new counterpart for `m` comes into a role of `f`. If `m` has a pair under the rule, it is
dropped; it has lost its target, or is that of the roots, and not where these are to stay paired. -/
structure Creates (p : Pass) (w : State) (f : Frame) (role : RoleName) (r : Rule) (m : ElementId)
    (g' : Graph) (ts : List ElementId) (report : Report) : Prop where
  rule : p.rules.rule? r.name = some r
  kind : p.base.kind? m = some (r.types.on p.source)
  unpaired : ∀ c ∈ w.pairs.entries, c.rule = r.name → c.element p.source = m →
    (w.graphs.on p.target).contains (c.element p.target) = true → c.isAnchor = true
  spared : p.spare → ∀ c ∈ w.pairs.entries, c.rule = r.name → c.element p.source ≠ m
  follows : ((w.graphs.on p.target).add (r.types.on p.target)).2.Follows g'
  relists :
    ((w.graphs.on p.target).add (r.types.on p.target)).2.Relists g' (f.pair.on p.target) role ts
  tally : report.elementsCreated = w.report.elementsCreated + 1

namespace Creates

variable {r : Rule} {m : ElementId} {g' : Graph} {ts : List ElementId} {report : Report}

theorem source (p : Pass) (w : State) (r : Rule) (m : ElementId) (g' : Graph) (report : Report) :
    (p.created w r m g' report).graphs.on p.source = w.graphs.on p.source :=
  Sided.on_put_of_ne _ _ p.target_ne_source.symm

theorem target (p : Pass) (w : State) (r : Rule) (m : ElementId) (g' : Graph) (report : Report) :
    (p.created w r m g' report).graphs.on p.target = g' :=
  Sided.on_put_self _ _ _

theorem contains (h : p.Creates w f role r m g' ts report) (hs : (w.graphs.on p.target).Sound)
    (x : ElementId) :
    g'.contains x =
      ((w.graphs.on p.target).contains x || decide (x = ⟨(w.graphs.on p.target).next⟩)) := by
  rw [h.relists.contains, hs.contains_add]

theorem grows (h : p.Creates w f role r m g' ts report) (hs : p.Steady (f :: stack) done w) :
    p.Grows w (p.created w r m g' report) := by
  have hmem {c : Correspondence} := mem_created hs.coherent r m g' report (c := c)
  refine ⟨source p w r m g' report, ?_, ?_, ?_, Nat.le_succ _, ?_, ?_⟩
  · intro x hx
    rw [target, h.contains hs.sound, hx, Bool.true_or]
  · have hnext : g'.next = (w.graphs.on p.target).next + 1 := h.relists.next
    rw [target, hnext]
    exact Nat.le_succ _
  · rw [target, h.relists.kind?, Graph.kind?, Graph.kind?,
      Graph.element?_add_of_ne _ hs.sound.next_ne_root.symm]
  · intro c hc hn hl
    refine ⟨c, hmem.mpr (.inl ⟨hc, ?_⟩), rfl⟩
    intro hkey
    rw [h.unpaired c hc hkey.1 hkey.2 hl] at hn
    cases hn
  · intro c hc
    rcases hmem.mp hc with hc | rfl
    · exact .inl ⟨c, hc.1, rfl⟩
    · refine .inr ⟨rfl, Nat.le_refl _, Nat.le_of_eq (by rw [element_newPair_target]), ?_⟩
      rw [source, hs.source, element_newPair_source]
      exact Graph.contains_iff_kind.mpr ⟨_, h.kind⟩

/-- The new pair is that of no frame. -/
theorem entries {g : Frame} (hs : p.Steady (f :: stack) done w) (hg : g ∈ f :: stack ++ done) :
    ∀ c ∈ (p.created w r m g' report).pairs.entries, c.id = g.id → c ∈ w.pairs.entries := by
  intro c hc hi
  rcases (mem_created hs.coherent r m g' report).mp hc with hc | rfl
  · exact hc.1
  · have hold := (hs.owned g hg).old
    rw [← hi] at hold
    exact absurd hold (Nat.lt_irrefl _)

theorem moves (h : p.Creates w f role r m g' ts report) (hs : p.Steady (f :: stack) done w) :
    p.Moves (stack ++ done) w (p.created w r m g' report) := by
  refine ⟨h.grows hs, ?_, fun g hg => entries hs (List.mem_cons_of_mem f hg)⟩
  intro g hg
  have hne : g.pair.on p.target ≠ f.pair.on p.target := by
    intro he
    exact (List.nodup_cons.mp hs.targets_nodup).1 (List.mem_map.mpr ⟨g, hg, he⟩)
  have hfresh : g.pair.on p.target ≠ ⟨(w.graphs.on p.target).next⟩ := by
    intro he
    have hlive := (hs.owned g (List.mem_cons_of_mem f hg)).live p.target
    rw [he, hs.sound.fresh] at hlive
    cases hlive
  rw [target, h.relists.element?_of_ne _ hne, Graph.element?_add_of_ne _ hfresh]

theorem shifts (h : p.Creates w f role r m g' ts report) (hs : p.Steady (f :: stack) done w) :
    p.Shifts f role w (p.created w r m g' report) := by
  refine ⟨h.grows hs, ?_, ?_, entries hs (by simp)⟩
  · intro b
    apply OneWay.sided_ext (k := p.toOneWay)
    · rw [State.values_on, State.values_on, source]
    · rw [State.values_on, State.values_on, target, h.relists.reading, hs.sound.reading_add]
  · intro child hc
    rw [Pass.mirrored, Pass.mirrored, target, h.relists.members_of_ne hc, hs.sound.members_add]

theorem steady (h : p.Creates w f role r m g' ts report) (hs : p.Steady (f :: stack) done w) :
    p.Steady (f :: stack) done (p.created w r m g' report) := by
  have hsrc := source p w r m g' report
  have hmem {c : Correspondence} := mem_created hs.coherent r m g' report (c := c)
  have hgrows := h.grows hs
  exact {
    coherent := coherent_created hs.coherent h.rule h.follows report
    source := hsrc.trans hs.source
    alive := fun hi c hc => by
      rcases hmem.mp hc with hc | rfl
      · exact hgrows.live _ (hs.alive hi c hc.1)
      · rw [target, element_newPair_target, h.contains hs.sound]
        simp
    ids_nodup := hs.ids_nodup
    targets_nodup := hs.targets_nodup
    visited := hs.visited
    owned := fun g hg => (hs.owned g hg).grows hs.sound hgrows
    finished := hs.finished.moved (h.moves hs) hs.sound (List.subset_append_right _ _)
    typed := fun hfirst c hc => by
      rcases hmem.mp hc with hc | rfl
      · exact hs.typed hfirst c hc.1
      · exact ⟨r, h.rule, by rw [element_newPair_source, h.kind]⟩
    anchored := fun hspare => by
      obtain ⟨c, hc, ha⟩ := hs.anchored hspare
      exact ⟨c, hmem.mpr (.inl ⟨hc, fun hkey => h.spared hspare c hc hkey.1 hkey.2⟩), ha⟩
    rooted := fun hi => by
      obtain ⟨c, hc, hroot, he⟩ := hs.rooted hi
      by_cases hkey : c.rule = r.name ∧ c.element p.source = m
      · refine ⟨p.newPair w r m, hmem.mpr (.inr rfl), hkey.1.symm.trans hroot, ?_⟩
        rw [element_newPair_source, ← hkey.2, he]
      · exact ⟨c, hmem.mpr (.inl ⟨hc, hkey⟩), hroot, he⟩
    tally := fun hfirst => by
      have halive := hs.alive (p.intact_of_first hfirst)
      rw [members_created hs.coherent fun c hc hr he =>
        h.unpaired c hc hr he (halive c hc), ← hs.tally hfirst]
      exact h.tally }

theorem mirrored (h : p.Creates w f (child.roles.on p.target) r m g' ts report) :
    p.mirrored (p.created w r m g' report) f child = ts := by
  rw [Pass.mirrored, target]
  exact h.relists.members_self

/-- What stands in the role belongs to the new pair, or stood there before. -/
theorem placed (h : p.Creates w f (child.roles.on p.target) r m g' ts report)
    (hco : p.Coherent w.graphs w.pairs)
    (hts : ∀ y, y ∈ ts ↔ y = ⟨(w.graphs.on p.target).next⟩ ∨
      y ∈ p.mirrored w f child) {c : Correspondence}
    (hc : c ∈ (p.created w r m g' report).pairs.entries)
    (hp : c.element p.target ∈ p.mirrored (p.created w r m g' report) f child) :
    c = p.newPair w r m ∨
    (c ∈ w.pairs.entries ∧ c.element p.target ∈ p.mirrored w f child) := by
  rw [h.mirrored] at hp
  rcases (mem_created hco r m g' report).mp hc with ⟨hc, _⟩ | he
  · rcases (hts _).mp hp with he | hp
    · have hlt := hco.target_lt c hc
      rw [he] at hlt
      exact absurd hlt (Nat.lt_irrefl _)
    · exact .inr ⟨hc, hp⟩
  · exact .inl he

/-- A new element has no members and no attributes. -/
theorem blank (h : p.Creates w f role r m g' ts report) (hs : p.Steady (f :: stack) done w) :
    (∀ child, p.mirrored (p.created w r m g' report)
        ⟨(p.newPair w r m).id, r, (p.newPair w r m).elements⟩ child = []) ∧
      ∀ name, ((p.created w r m g' report).graphs.on p.target).reading
        ((p.newPair w r m).elements.on p.target) name = .unset := by
  have hfresh := hs.sound.fresh
  have hne : (⟨(w.graphs.on p.target).next⟩ : ElementId) ≠ f.pair.on p.target := by
    intro he
    rw [he, (hs.owned f (by simp)).live p.target] at hfresh
    cases hfresh
  have hel : (p.newPair w r m).elements.on p.target = ⟨(w.graphs.on p.target).next⟩ :=
    p.pair_target _ _
  constructor
  · intro child
    rw [Pass.mirrored, target]
    simp only [hel]
    rw [h.relists.members, if_neg fun he => hne he.1, hs.sound.members_add,
      Graph.members_of_dead hfresh]
  · intro name
    rw [target, hel, h.relists.reading, hs.sound.reading_add, Graph.reading_of_dead hfresh]

end Creates

end GraphSync.Pass
