import GraphSync.Proofs.Walk.Carried
import GraphSync.Proofs.Walk.Carry

namespace GraphSync.Pass

open Walk

variable {p : Pass} {o o' : Debts} {G D' : List CorrespondenceId} {D : List Frame} {w w' : State}
  {c a : Correspondence} {r : Rule} {child : Child} {f : Frame} {done done' : List CorrespondenceId}

/-- A pass that is not the first of a session; no role holds the root. -/
structure Later (p : Pass) : Prop where
  intact : p.intact
  later : ¬ p.first
  old : ∀ id, ¬ p.fresh id
  inner : ∀ x role, p.base.root ∉ p.base.members x role
  attributes : p.rules.UniqueAttributes p.target

theorem Later.spare (h : p.Later) : p.spare := ⟨h.intact, .inr (OneWay.not_returns h.inner)⟩

/-- Rules were applied to the frames of `D` for the edit that is being carried over. The pairs of
`G` are behind by what is owed, and deleted elements that were noted are elements of the source
side. -/
structure Carrying (p : Pass) (o : Debts) (G : List CorrespondenceId) (D : List Frame)
    (w : State) : Prop where
  pass : p.Later
  steady : p.Steady [] D w
  consistent : p.scheme.Consistent w.graphs w.pairs
  behind : p.Behind o w (D.map Frame.id) G
  bounded : ∀ id ∈ G, id.index < w.pairs.next
  nodup : (G ++ D.map Frame.id).Nodup
  roots : ∀ c ∈ w.pairs.entries, c.isAnchor = true → c.id ∈ G ++ D.map Frame.id
  gone : ∀ x ∈ w.deleted, x.1 = p.source ∧ p.base.contains x.2 = false

/-- As long as the roots are paired, the pair of a frame is recorded. -/
theorem Owned.exists_entry (h : p.Owned w f) (hco : p.Coherent w.graphs w.pairs)
    (ha : w.store.Anchored) : ∃ c ∈ w.pairs.entries, c.id = f.id ∧ c.elements = f.pair := by
  rcases h.recorded with ⟨c, hc, hid, _⟩ | ⟨_, hroots⟩
  · exact ⟨c, hc, hid, (h.entry c hc hid).2⟩
  · obtain ⟨c, hc, hanchor⟩ := ha
    have hid : c.id = f.id := by
      refine h.sole c hc ?_
      rw [hroots, Correspondence.element, (hco.anchor c hc hanchor).2]
    exact ⟨c, hc, hid, (h.entry c hc hid).2⟩

/-- What is done for other pairs leaves the frames alone. -/
theorem Grows.moves (hg : p.Grows w w') (hs : p.Steady [] D w) (ha : w.store.Anchored)
    (hl : w'.pairs.Listed)
    (hkeeps : ∀ f ∈ D, ∀ a ∈ w.pairs.entries, a.id = f.id →
      (∀ s, (w.graphs.on s).contains (a.element s) = true) →
      w.store.Keeps w'.store a) : p.Moves D w w' := by
  have entry (f : Frame) (hf : f ∈ D) :
      ∃ a ∈ w.pairs.entries, a.id = f.id ∧ a.elements = f.pair ∧
        w.store.Keeps w'.store a := by
    have hown := hs.owned f (by simpa using hf)
    obtain ⟨a, hmem, hid, hel⟩ := hown.exists_entry hs.coherent ha
    refine ⟨a, hmem, hid, hel, hkeeps f hf a hmem hid fun s => ?_⟩
    rw [Correspondence.element, hel]
    exact hown.live s
  refine ⟨hg, fun f hf => ?_, fun f hf c hc hid => ?_⟩
  · obtain ⟨a, _, _, hel, hkeep⟩ := entry f hf
    have hsame := hkeep.element? p.target
    rwa [Correspondence.element, hel] at hsame
  · obtain ⟨a, hmem, hid', _, hkeep⟩ := entry f hf
    rwa [hl.eq_of_id hc hkeep.entry (hid.trans hid'.symm)]

/-- Where nothing is recorded that contradicts it, frames stay as steady as they are. -/
theorem Steady.moved (h : p.Steady [] D w) (hp : p.Later) (hm : p.Moves D w w')
    (hco : p.Coherent w'.graphs w'.pairs) (hv : w'.visited = w.visited)
    (halive : ∀ c ∈ w'.pairs.entries,
      (w'.graphs.on p.target).contains (c.element p.target) = true)
    (hroots : w'.store.Anchored) : p.Steady [] D w' where
  coherent := hco
  source := hm.source.trans h.source
  alive _ := halive
  ids_nodup := h.ids_nodup
  targets_nodup := h.targets_nodup
  visited id := hv ▸ h.visited id
  owned f hf := (h.owned f hf).grows h.sound hm.toGrows
  finished := h.finished.moved hm h.sound fun _ hf => hf
  typed hf := absurd hf hp.later
  anchored _ := hroots
  rooted _ := by
    obtain ⟨c, hc, ha⟩ := hroots
    obtain ⟨hrule, hel⟩ := hco.anchor c hc ha
    refine ⟨c, hc, hrule, ?_⟩
    rw [Correspondence.element, hel, Sided.on_map, hm.source, h.source]
  tally hf := absurd hf hp.later

/-- When one binding of a pair was brought in step, the others are as they were. -/
theorem Nearly.bound {c' : Correspondence} {bi : Binding × Nat}
    (h : p.Nearly o w done c r) (hg : p.Grows w w') (hl : w.pairs.Listed) (hl' : w'.pairs.Listed)
    (hs : (w.graphs.on p.target).Sound) (hcore : c'.core = c.core)
    (hrole : ∀ child, w'.role c child p.target = w.role c child p.target)
    (hother : ∀ bi' ∈ r.numbered, bi' ≠ bi →
      w'.values c.elements bi'.1 = w.values c.elements bi'.1 ∧ c'.shadow? bi'.2 = c.shadow? bi'.2)
    (hnew : p.BindingNearly (fun _ _ _ => False) w' c' bi) :
    p.Nearly (o.pay c.id (.value bi)) w' done c' r where
  bindings bi' hbi' hordered := by
    by_cases hbi : bi' = bi
    · rw [hbi] at hordered ⊢
      exact .inl ((hnew hordered).resolve_right id)
    · obtain ⟨hvalues, hshadow⟩ := hother bi' hbi' hbi
      refine ((h.bindings bi' hbi').congr hcore hvalues hshadow hordered).imp_right
        fun hdue => ⟨hdue, fun hpaid => hbi ?_⟩
      exact Due.value.inj hpaid.2
  roles child hchild :=
    ((RoleNearly.grows (h.roles child hchild) hg hl hl' hs (hrole child)).core hcore).mono
      (fun _ _ hdue => ⟨hdue, fun hpaid => Due.noConfusion hpaid.2⟩)
      (fun _ _ _ _ hdue => ⟨hdue, fun hpaid => Due.noConfusion hpaid.2⟩) fun _ hi => hi

/-- When one role of a pair was seen to, the others are as they were. -/
theorem Nearly.relist (h : p.Nearly o w done c r) (hr : r ∈ p.rules.rules) (hg : p.Grows w w')
    (hl : w.pairs.Listed) (hl' : w'.pairs.Listed) (hs : (w.graphs.on p.target).Sound)
    (hd : done ⊆ done') (hchild : child ∈ r.children)
    (hvalues : ∀ b, w'.values c.elements b = w.values c.elements b)
    (hother : ∀ child' : Child, child'.roles.on p.target ≠ child.roles.on p.target →
      w'.role c child' p.target = w.role c child' p.target)
    (ho : ∀ due, (∀ m, due ≠ .addition child m ∧ due ≠ .removal child m) →
      o c.id (c.element p.source) due → o' c.id (c.element p.source) due)
    (hnew : p.RoleNearly o' w' done' c child) : p.Nearly o' w' done' c r where
  bindings bi hbi hordered := by
    rw [hvalues] at hordered
    refine (h.bindings bi hbi hordered).imp (fun hstays => ?_) (ho _ fun _ => by simp)
    rw [Scheme.Stays] at hstays ⊢
    rw [hvalues]
    simpa using hstays
  roles child' hchild' := by
    by_cases hrole : child'.roles.on p.target = child.roles.on p.target
    · rwa [List.inj_on_of_nodup_map (p.unique_roles r hr) hchild' hchild hrole]
    · have hne : child' ≠ child := fun he => hrole (he ▸ rfl)
      refine (RoleNearly.grows (h.roles child' hchild') hg hl hl' hs (hother child' hrole)).mono
        (fun _ _ => ho _ fun _ => ⟨fun he => ?_, by simp⟩)
        (fun _ _ _ _ => ho _ fun _ => ⟨by simp, fun he => ?_⟩) hd
      all_goals
        cases he
        exact hne rfl

namespace Carrying

theorem coherent (h : p.Carrying o G D w) : p.Coherent w.graphs w.pairs := h.steady.coherent

theorem anchored (h : p.Carrying o G D w) : w.store.Anchored := h.steady.anchored h.pass.spare

theorem alive (h : p.Carrying o G D w) (hc : c ∈ w.pairs.entries) :
    (w.graphs.on p.target).contains (c.element p.target) = true :=
  h.steady.alive h.pass.intact c hc

theorem mono (h : p.Carrying o G D w) (ho : ∀ c ∈ w.pairs.entries, c.id ∈ G →
    p.base.contains (c.element p.source) = true → ∀ r,
      p.rules.rule? c.rule = some r → ∀ due, p.Asks w c r due →
      o c.id (c.element p.source) due → o' c.id (c.element p.source) due) :
    p.Carrying o' G D w where
  pass := h.pass
  steady := h.steady
  consistent := h.consistent
  behind := h.behind.mono fun c hc hid hlive => ho c hc hid (h.steady.source ▸ hlive)
  bounded := h.bounded
  nodup := h.nodup
  roots := h.roots
  gone := h.gone

/-- A step of the walk. -/
theorem step {D' : List Frame} (h : p.Carrying o G D w) (hg : p.Grows w w') (hs : p.Steady [] D' w')
    (hk : p.scheme.Consistent w'.graphs w'.pairs) (hd : D.map Frame.id ⊆ D'.map Frame.id)
    (hdeleted : w'.deleted = w.deleted)
    (hb : p.Behind o' w' (D'.map Frame.id) (G.filter (· ∉ D'.map Frame.id))) :
    p.Carrying o' (G.filter (· ∉ D'.map Frame.id)) D' w' where
  pass := h.pass
  steady := hs
  consistent := hk
  behind := hb
  bounded id hid := Nat.lt_of_lt_of_le (h.bounded id (List.mem_filter.mp hid).1) hg.pairs_le
  nodup := by
    refine List.nodup_append.mpr
      ⟨(List.nodup_append.mp h.nodup).1.filter _, by simpa using hs.ids_nodup, ?_⟩
    rintro i hi j hj rfl
    exact absurd hj (by simpa using (List.mem_filter.mp hi).2)
  roots c hc ha := by
    rcases hg.origin c hc with ⟨c₀, hc₀, hcore⟩ | ⟨hinner, _⟩
    · rw [Correspondence.isAnchor_eq_of_core hcore] at ha
      rw [Correspondence.id_eq_of_core hcore]
      by_cases hin : c₀.id ∈ D'.map Frame.id
      · exact List.mem_append_right _ hin
      · refine List.mem_append_left _ (List.mem_filter.mpr ⟨?_, by simpa using hin⟩)
        exact (List.mem_append.mp (h.roots c₀ hc₀ ha)).resolve_right fun hi => hin (hd hi)
    · rw [ha] at hinner
      cases hinner
  gone x hx := h.gone x (hdeleted ▸ hx)

/-- No pair was dropped. -/
theorem kept {G' : List CorrespondenceId} {D' : List Frame} (h : p.Carrying o G D w)
    (h' : p.Carrying o' G' D' w') (hg : p.Grows w w') (hc : c ∈ w.pairs.entries) :
    ∃ c' ∈ w'.pairs.entries, c'.core = c.core := by
  cases hi : c.isAnchor with
  | false => exact hg.kept c hc hi (h.alive hc)
  | true =>
    obtain ⟨a, ha, hanchor⟩ := h'.anchored
    rcases hg.origin a ha with ⟨a₀, ha₀, hcore⟩ | ⟨hinner, _⟩
    · have hanchor₀ := (Correspondence.isAnchor_eq_of_core hcore).symm.trans hanchor
      exact ⟨a, ha, h.consistent.anchor_unique ha₀ hc hanchor₀ hi ▸ hcore⟩
    · rw [hanchor] at hinner
      cases hinner

theorem filter_eq (h : p.Carrying o G D w) : G.filter (· ∉ D.map Frame.id) = G :=
  List.filter_eq_self.mpr fun id hid => by
    simpa using fun f hf he =>
      (List.nodup_append.mp h.nodup).2.2 id hid f.id (List.mem_map_of_mem hf) he.symm

/-- What is done for one pair, of which no rule was applied for this edit. -/
theorem apply (h : p.Carrying o G D w) (hc : c ∈ w.pairs.entries) (hD : c.id ∉ D.map Frame.id)
    (hg : p.Grows w w') (hk : p.scheme.Consistent w'.graphs w'.pairs) (hv : w'.visited = w.visited)
    (hco : p.Coherent w'.graphs w'.pairs)
    (halive : ∀ c ∈ w'.pairs.entries,
      (w'.graphs.on p.target).contains (c.element p.target) = true)
    (hroots : w'.store.Anchored)
    (hkeeps : ∀ a ∈ w.pairs.entries, a.id ≠ c.id →
      (∀ s, (w.graphs.on s).contains (a.element s) = true) →
      w.store.Keeps w'.store a) (hsub : D.map Frame.id ⊆ D')
    (howner : ∀ c' ∈ w'.pairs.entries, c'.core = c.core → ∀ r done done',
      p.rules.rule? c.rule = some r →
      done ⊆ done' → D' ⊆ done' → p.Nearly o w done c r → p.Nearly o' w' done' c' r)
    (ho : ∀ id x due, id ≠ c.id → o id x due → o' id x due) :
    p.Moves D w w' ∧ p.Steady [] D w' ∧ p.Behind o' w' D' G := by
  have hl := h.coherent.listed
  have hm : p.Moves D w w' := by
    refine hg.moves h.steady h.anchored hk.listed fun f hf a ha hid hlive => hkeeps a ha ?_ hlive
    rintro hsame
    exact hD (hsame ▸ hid ▸ List.mem_map_of_mem hf)
  refine ⟨hm, h.steady.moved h.pass hm hco hv halive hroots,
    OneWay.Behind.map h.behind fun a ha hid hlive => ?_⟩
  obtain ⟨b, hb, hcore⟩ := hg.old_of_id ha (h.bounded _ hid)
  rw [hg.source, Correspondence.element_eq_of_core hcore] at hlive
  refine ⟨b, hb, hcore, hlive, fun r done hr hnearly => ?_⟩
  have hdone : done ++ D.map Frame.id ⊆ done ++ D' :=
    List.append_subset.mpr
      ⟨List.subset_append_left _ _, fun _ hi => List.mem_append_right _ (hsub hi)⟩
  by_cases hbc : b.id = c.id
  · obtain rfl := hl.eq_of_id hb hc hbc
    exact howner a ha hcore r _ _ hr hdone (List.subset_append_right _ _) hnearly
  · have hkeep := hkeeps b hb hbc fun s => by
      rcases p.side_cases s with rfl | rfl
      · exact hlive
      · exact h.alive hb
    obtain rfl : a = b := hk.listed.eq_of_id ha hkeep.entry (Correspondence.id_eq_of_core hcore)
    exact (Nearly.keeps hnearly hg hl hk.listed h.steady.sound hkeep).mono
      (fun due _ => ho _ _ due hbc) hdone

/-- A write to the target of one pair, of which no rule was applied for this edit, or to what is
remembered of it. -/
theorem write (h : p.Carrying o G D w) (report : Report) (hc : c ∈ w.pairs.entries)
    (hD : c.id ∉ D.map Frame.id) {g' : Graph} {t' : Correspondences}
    (hn : g'.next = (w.graphs.on p.target).next)
    (hcontains : ∀ x, g'.contains x = (w.graphs.on p.target).contains x)
    (hkind : ∀ x, g'.kind? x = (w.graphs.on p.target).kind? x)
    (he : ∀ y, y ≠ c.element p.target → g'.element? y = (w.graphs.on p.target).element? y)
    (ht : w.pairs.Touches t' c.id) (hk : p.scheme.Consistent (w.graphs.put p.target g') t')
    (howner : p.Grows w { w with graphs := w.graphs.put p.target g', pairs := t', report } →
      ∀ c' ∈ t'.entries, c'.core = c.core → ∀ r done, p.rules.rule? c.rule = some r →
        p.Nearly o w done c r →
        p.Nearly o' { w with graphs := w.graphs.put p.target g', pairs := t', report } done c' r)
    (ho : ∀ id x due, id ≠ c.id → o id x due → o' id x due) :
    p.Grows w { w with graphs := w.graphs.put p.target g', pairs := t', report } ∧
      p.Carrying o' G D { w with graphs := w.graphs.put p.target g', pairs := t', report } := by
  have hsrc : (w.graphs.put p.target g').on p.source = w.graphs.on p.source :=
    Sided.on_put_of_ne _ _ p.target_ne_source.symm
  have htgt : (w.graphs.put p.target g').on p.target = g' := Sided.on_put_self _ _ _
  have hg : p.Grows w { w with graphs := w.graphs.put p.target g', pairs := t', report } :=
    .write hn hcontains hkind ht
  have hroots : Store.Anchored ⟨w.graphs.put p.target g', t'⟩ := by
    obtain ⟨a, ha, hanchor⟩ := h.anchored
    obtain ⟨b, hb, hcore⟩ := ht.kept a ha
    exact ⟨b, hb, (Correspondence.isAnchor_eq_of_core hcore).trans hanchor⟩
  have hold : w.store.Apart p.target := h.coherent.target_inj
  have hapart : Store.Apart ⟨w.graphs.put p.target g', t'⟩ p.target :=
    hold.of_origin hk.listed fun a ha => by
      obtain ⟨a₀, ha₀, hcore, _⟩ := ht.old a ha
      exact ⟨a₀, ha₀, hcore⟩
  have halive : ∀ a ∈ t'.entries, g'.contains (a.element p.target) = true := by
    intro a ha
    obtain ⟨b, hb, hcore, _⟩ := ht.old a ha
    rw [Correspondence.element_eq_of_core hcore, hcontains]
    exact h.alive hb
  have hkeeps : ∀ a ∈ w.pairs.entries, a.id ≠ c.id →
      w.store.Keeps ⟨w.graphs.put p.target g', t'⟩ a := by
    intro a ha hne
    obtain ⟨b, hb, hcore⟩ := ht.kept a ha
    obtain ⟨a₀, ha₀, hcore', hsame⟩ := ht.old b hb
    obtain rfl : a₀ = a := h.coherent.listed.eq_of_id ha₀ ha (by
      rw [← Correspondence.id_eq_of_core hcore', Correspondence.id_eq_of_core hcore])
    refine ⟨hsame hne ▸ hb, fun s => ?_⟩
    rcases p.side_cases s with rfl | rfl
    · rw [hsrc]
      rfl
    · rw [htgt]
      refine he _ fun hab => hne ?_
      rw [h.coherent.target_inj a₀ ha c hc hab]
  obtain ⟨_, hs, hb⟩ := h.apply hc hD hg hk rfl (OneWay.coherent_of_apart hk hapart hroots)
    (fun a ha => by simpa only [htgt] using halive a ha) hroots (fun a ha hne _ => hkeeps a ha hne)
    (fun _ hi => hi) (fun c' hc' hcore r done done' hr hd _ hn =>
      (howner hg c' hc' hcore r done hr hn).mono (fun _ _ h => h) hd) ho
  have hnext := h.step hg hs hk (fun _ hi => hi) rfl (by rwa [h.filter_eq])
  rw [h.filter_eq] at hnext
  exact ⟨hg, hnext⟩

/-- One attribute of the target may be written, and one value of the pair be remembered. -/
theorem bound {bi : Binding × Nat} (h : p.Carrying o G D w) (report : Report)
    (hc : c ∈ w.pairs.entries) (hD : c.id ∉ D.map Frame.id) (hr : p.rules.rule? c.rule = some r)
    (hbi : bi ∈ r.numbered) {g' : Graph} {t' : Correspondences}
    (hn : g'.next = (w.graphs.on p.target).next)
    (hcontains : ∀ x, g'.contains x = (w.graphs.on p.target).contains x)
    (hkind : ∀ x, g'.kind? x = (w.graphs.on p.target).kind? x)
    (he : ∀ y, y ≠ c.element p.target → g'.element? y = (w.graphs.on p.target).element? y)
    (hmembers : ∀ x role, g'.members x role = (w.graphs.on p.target).members x role)
    (ht : w.pairs.Touches t' c.id) (hk : p.scheme.Consistent (w.graphs.put p.target g') t')
    (hset : p.Sets c bi w { w with graphs := w.graphs.put p.target g', pairs := t', report }) :
    p.Grows w { w with graphs := w.graphs.put p.target g', pairs := t', report } ∧
      p.Carrying (o.pay c.id (.value bi)) G D
        { w with graphs := w.graphs.put p.target g', pairs := t', report } := by
  have hnodup := h.pass.attributes r (RuleSet.mem_of_rule? hr).1
  refine h.write report hc hD hn hcontains hkind he ht hk ?_
    fun _ _ _ hne ho => ⟨ho, fun hpaid => hne hpaid.1⟩
  intro hg c' hc' hcore r' done hr' hnearly
  obtain rfl : r = r' := Option.some.inj (hr.symm.trans hr')
  have hid := Correspondence.id_eq_of_core hcore
  refine Nearly.bound hnearly hg h.coherent.listed hk.listed h.steady.sound hcore (fun child => ?_)
    (fun bi' hbi' hne => hset.other hnodup hbi hbi' hne hc' hid) (hset.entry c' hc' hid).2.1.settled
  simp only [State.role, Sided.on_put_self]
  exact hmembers _ _

/-- The values of a binding are left as they are, and are remembered if they agree. -/
theorem keep {bi : Binding × Nat} {t' : Correspondences} (h : p.Carrying o G D w)
    (hc : c ∈ w.pairs.entries) (hD : c.id ∉ D.map Frame.id) (hr : p.rules.rule? c.rule = some r)
    (hbi : bi ∈ r.numbered) (ht : w.pairs.Touches t' c.id)
    (hset : p.Sets c bi w { w with pairs := t' }) (hk : p.scheme.Consistent w.graphs t') :
    p.Grows w { w with pairs := t' } ∧
    p.Carrying (o.pay c.id (.value bi)) G D { w with pairs := t' } := by
  have hnext := h.bound w.report hc hD hr hbi rfl (fun _ => rfl) (fun _ => rfl) (fun _ _ => rfl)
    (fun _ _ => rfl) ht (by rwa [Sided.put_on]) (by rwa [Sided.put_on])
  rwa [Sided.put_on] at hnext

/-- A binding of a pair is brought in step. -/
theorem applyBinding {bi : Binding × Nat} (h : p.Carrying o G D w) (hc : c ∈ w.pairs.entries)
    (hD : c.id ∉ D.map Frame.id) (hr : p.rules.rule? c.rule = some r) (hbi : bi ∈ r.numbered) :
    wp (applyBinding p.direction r.name c.id c.elements bi.1 bi.2)
      (fun _ w' => p.Grows w w' ∧ p.Carrying (o.pay c.id (.value bi)) G D w')
      (fun _ _ => True) w := by
  obtain ⟨_, hname⟩ := RuleSet.mem_of_rule? hr
  have hl := h.coherent.listed
  -- the record stays consistent, as after any write
  have htraces := Scheme.traces_applyBinding (V := (· = c.id)) (P := fun _ => True)
    (d := p.direction) h.consistent
    (fun hlive => .of_entry h.consistent hc hlive hr) (fun _ _ => trivial) (hname ▸ hr) rfl hbi
  suffices hbound : wp (Walk.applyBinding p.direction r.name c.id c.elements bi.1 bi.2) (fun _ w' =>
      p.scheme.Consistent w'.graphs w'.pairs → p.Grows w w' ∧
        p.Carrying (o.pay c.id (.value bi)) G D w')
      (fun _ _ => True) w from
    wp_mono (wp_and htraces hbound) (fun _ _ h' => h'.2 h'.1.consistent) fun _ _ _ => trivial
  apply OneWay.wp_applyBinding
  · exact fun _ _ _ => trivial
  · intro hlive hkeep
    have hset := OneWay.Sets.keep (k := p.toOneWay) hl hc hlive hkeep
    split
    · rename_i hin
      rw [if_pos hin] at hset
      exact h.keep hc hD hr hbi (.recordShadow ..) hset
    · rename_i hout
      rw [if_neg hout] at hset
      exact h.keep hc hD hr hbi (.refl w.pairs c.id) hset
  · intro hlive _ g' hw hk
    exact h.bound _ hc hD hr hbi hw.next hw.contains (hw.kind? fun _ => rfl)
      (fun _ hy => hw.element?_of_ne hy)
      (fun x role => hw.members_setValue x role) (.recordShadow ..) hk (.copy hl hc hlive hw _)

end Carrying

end GraphSync.Pass
