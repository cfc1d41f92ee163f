import GraphSync.Proofs.Walk.Align
import GraphSync.Proofs.Walk.Preserve

namespace GraphSync

open Walk

namespace OneWay

variable {k : OneWay} {R : ElementId → RoleName → Prop} {w w' : State}

theorem trims_carryAttribute (e : ElementId) (name : AttributeName) (w : State) :
    wp (carryAttribute k.rules k.direction k.source e name) (fun _ w' => k.Trims w.store w'.store)
      (fun _ w' => k.Trims w.store w'.store) w := by
  rw [carryAttribute, wp_bind, wp_graph, wp_ite]
  split
  · exact .refl k _
  rw [wp_bind, wp_pairs, wp_bind]
  refine wp_imp (wp_mapM_keep (I := fun w' => k.Trims w.store w'.store) (fun id _ w₁ h₁ => ?_)
    (.refl k _)) fun _ _ h => h
  rw [wp_bind, wp_pairs]
  split
  · rw [wp_bind, wp_liftRule]
    split
    · rw [wp_bind]
      refine wp_imp
        (wp_mapM_keep (I := fun w' => k.Trims w.store w'.store) (fun bi _ w₂ h₂ => ?_) h₁)
        fun _ _ h => h
      exact wp_mono (trims_applyBinding _ _ _ _ _ w₂) (fun _ _ h => h₂.trans h) fun _ _ h =>
        h₂.trans h
    · exact h₁
  · exact h₁

/-- A new member finds its place. -/
theorem aligns_carryAddition (hroles : k.rules.UniqueRoles k.target)
    (hk : k.scheme.Consistent w.graphs w.pairs) (h : k.Aligned R w.store) (e : ElementId)
    (role : RoleName) (target : ElementId) :
    k.Aligns R (carryAddition k.rules k.direction k.source e role target) w := by
  refine wp_carryAddition (hk.sound _) (fun _ => ⟨.refl hk, h⟩) fun earlier later hsplit => ?_
  refine Aligns.forM hk h fun id hid w₁ hw₁ h₁ => ?_
  refine hw₁.wp_eachPair hk hid (fun _ => ⟨.refl hw₁.consistent, h₁⟩)
    fun c₀ _ _ he r hr₀ c hc hcore => ?_
  rw [← Correspondence.element_eq_of_core hcore] at he
  have hr : k.rules.rule? c.rule = some r := (Correspondence.rule_eq_of_core hcore).symm ▸ hr₀
  have hname := (RuleSet.mem_of_rule? hr).2
  refine Aligns.forM hw₁.consistent h₁ fun child hchild w₂ hw₂ h₂ => ?_
  obtain ⟨hmem, hrole⟩ := Rule.mem_childrenOn.mp hchild
  have hsource : w₂.graphs.on k.source = w.graphs.on k.source :=
    hw₂.acts.source.trans hw₁.acts.source
  refine .bind ?_ fun _ _ hw₃ h₃ => .pure hw₃.consistent h₃ _
  refine aligns_linkMember (alignsAll_start hroles) hroles (hname ▸ hr) hw₂.consistent h₂
    (fun hl => hw₂.names_of_entry hw₁.consistent hc hr hl) hmem ?_
  rw [hsource, hrole]
  exact (congrArg (fun x => (w.graphs.on k.source).members x role) he).trans hsplit

/-- What frees a walk takes members out of roles, and pairs out of the record. -/
theorem thins_freed (hf : Frees k.direction w w') : k.Thins w.store w'.store :=
  ⟨congrArg Graph.members (source_freed hf), fun x role => hf.members k.target x role,
    fun c hc => ⟨c, hf.entries.subset hc, rfl⟩⟩

/-- What a flush notes as deleted is on the source side, and it is not the root. -/
def SparesRoot (k : OneWay) (w : State) : Prop :=
  ∀ p ∈ w.deleted, p.1 = k.source ∧ p.2 ≠ (w.graphs.on k.source).root

/-- A walk that carries edits over has the counterparts in order. -/
structure Straight (k : OneWay) (R : ElementId → RoleName → Prop) (w : State) : Prop where
  consistent : k.scheme.Consistent w.graphs w.pairs
  aligned : k.Aligned R w.store
  spares : k.SparesRoot w

/-- Carrying an edit of the source side over keeps the counterparts in order. -/
theorem aligned_carry (hroles : k.rules.UniqueRoles k.target)
    (hk : k.scheme.Consistent w.graphs w.pairs) (h : k.Aligned R w.store) (c : Change) :
    wp (carry k.rules k.direction k.source c) (fun _ w' => k.Aligned R w'.store)
      (fun _ w' => k.Aligned R w'.store) w := by
  let w₀ : State := { w with visited := [] }
  have hk₀ : k.scheme.Consistent w₀.graphs w₀.pairs := hk
  have h₀ : k.Aligned R w₀.store := h
  have hauth : k.source ∈ k.direction.authorities := List.mem_singleton_self _
  apply wp_carry
  · intro name before after _
    have htraces := Scheme.traces_carryAttribute (k := k.scheme) (d := k.direction)
      (V := fun _ => True) (s := k.source) (e := c.element)
      (P := fun _ => True) hk₀ (fun _ _ _ => trivial) name before after fun _ _ => trivial
    exact wp_imp
      (Aligns.of_trims (w := w₀) h₀ htraces (trims_carryAttribute c.element name w₀))
      fun _ _ hw => hw.2
  · intro role _ target _
    exact wp_imp (aligns_carryAddition (w := w₀) hroles hk₀ h₀ c.element role target)
      fun _ _ hw => hw.2
  · intro role _ target _
    refine wp_mono (frees_carryRemoval (k := k.scheme) hk₀ hauth c.element role target) ?_
      fun _ _ hf => hf.elim
    rintro _ w' ⟨⟨w₁, deleted, hf, hpairs, rfl, _⟩, _⟩
    have hkept : k.Trims w₀.store w₁.store := by
      refine ⟨thins_freed hf, fun c hc => ⟨c, ?_, rfl⟩⟩
      change c ∈ w₁.pairs.entries
      rw [hpairs]
      exact hc
    have hlisted : w₁.pairs.Listed := by
      rw [hpairs]
      exact hk₀.listed
    exact h₀.trim hkept hlisted

theorem Straight.carry (h : k.Straight R w) (hroles : k.rules.UniqueRoles k.target) (c : Change) :
    k.Straight R (exec (carry k.rules k.direction k.source c) w).2 := by
  have hauth : k.source ∈ k.direction.authorities := List.mem_singleton_self _
  have hcarried := exec_of_wp (I := k.scheme.Carried k.source c w)
    (wp_mono (Scheme.carried_carry h.consistent hauth c) (fun _ _ hw => hw) fun _ _ hw => hw.1)
  refine ⟨hcarried.consistent, exec_of_wp (I := fun w' => k.Aligned R w'.store)
    (aligned_carry hroles h.consistent h.aligned c), fun q hq => ?_⟩
  rcases (hcarried.deleted q).mp hq with hq | ⟨role, index, target, _, rfl, hdead⟩
  · exact h.spares q hq
  · refine ⟨rfl, fun (he : target = (w.graphs.on k.source).root) => ?_⟩
    have hlive := (h.consistent.sound k.source).root_live
    rw [← he, hdead] at hlive
    cases hlive

/-- The root is not deleted, so its pair stays. -/
theorem Straight.releaseDeleted (h : k.Straight R w) : k.Aligned R (releaseDeleted w).store := by
  obtain ⟨hgraphs, hnext, hsub, hmem⟩ := releaseDeleted_spec w
  have hgraphs' : (Walk.releaseDeleted w).store.graphs = w.store.graphs := hgraphs
  have hconsistent := h.consistent.sublist hsub hnext
  obtain ⟨c, hc, hrule, hroot⟩ := h.aligned.rooted
  refine h.aligned.thin ⟨?_, fun x role => ?_, fun c hc => ⟨c, hsub.subset hc, rfl⟩⟩
    hconsistent.listed ⟨c, (hmem c hc).mpr fun p hp he => ?_, hrule, ?_⟩
  · rw [hgraphs']
  · rw [hgraphs']
  · obtain ⟨hside, hne⟩ := h.spares p hp
    rw [hside] at he
    exact hne (he.symm.trans hroot)
  · rw [hgraphs']
    exact hroot

/-- What was lost takes pairs out of the record, and members out of roles. -/
theorem Aligned.purged {r : Rule} {c : Correspondence} (h : k.Aligned R w.store)
    (hc : c ∈ w.pairs.entries) (hi : c.isAnchor = true)
    (hp : k.scheme.Purged k.direction r c w w') : k.Aligned R w'.store := by
  have hk := hp.consistent
  have hc' := hp.frees.anchors c hc hi
  obtain ⟨hrule, hel⟩ := hk.anchor c hc' hi
  refine h.thin (thins_freed hp.frees) hk.listed ⟨c, hc', hrule, ?_⟩
  rw [Correspondence.element, hel, Sided.on_map]
  rfl

/-- Once the roots are paired, a pass keeps the counterparts in order. -/
theorem aligned_run {r : Rule} {c : Correspondence} (hroles : k.rules.UniqueRoles k.target)
    (hk : k.scheme.Consistent w.graphs w.pairs) (h : k.Aligned R w.store)
    (hr : k.rules.rule? k.rootRule = some r) (hc : c ∈ w.pairs.entries) (hi : c.isAnchor = true) :
    wp (do releaseAllLost k.rules k.direction; start k.rules k.direction r c.id (w.graphs.map
      Graph.root)) (fun _ w' => k.Aligned R w'.store) (fun _ w' => k.Aligned R w'.store) w := by
  refine Scheme.wp_run_purged (k := k.scheme) hk hc hi hr fun w₁ hp => ?_
  have h₁ : k.Aligned R w₁.store := h.purged hc hi hp
  exact wp_imp (alignsAll_start hroles r c w₁ hp.rule hp.consistent hp.entry (hp.alive c hp.entry)
    h₁) fun _ _ hw => hw.2

/-- A pass keeps the counterparts in order. -/
theorem aligned_syncRoots (hroles : k.rules.UniqueRoles k.target)
    (hk : k.scheme.Consistent w.graphs w.pairs) (h : k.Aligned R w.store) :
    wp (syncRoots k.rules k.direction k.rootRule) (fun _ w' => k.Aligned R w'.store)
      (fun _ w' => k.Aligned R w'.store) w := by
  refine Scheme.wp_syncRoots_paired (k := k.scheme) hk (fun _ _ => h) ?_
  intro r c w₁ hp
  have hk₁ := hp.consistent
  obtain ⟨hrule, hel⟩ := hk₁.anchor c hp.entry hp.anchor
  -- the source root has a pair under the root rule, and it can have but one
  have hc : c ∈ w.pairs.entries := by
    obtain ⟨c₀, hc₀, hrule₀, hroot₀⟩ := h.rooted
    have he : c.element k.source = c₀.element k.source := by
      rw [hroot₀, Correspondence.element, hel, Sided.on_map, hp.graphs]
      rfl
    rwa [hk₁.key_inj k.source c hp.entry c₀ (hp.old c₀ hc₀) (hrule.trans hrule₀.symm) he]
  have hgraphs : w₁.store.graphs = w.store.graphs := hp.graphs
  have hthins : k.Thins w.store w₁.store := by
    refine ⟨by rw [hgraphs], fun x role => by rw [hgraphs], fun a ha => ⟨a, ?_, rfl⟩⟩
    cases hi : a.isAnchor with
    | false => exact hp.new a ha hi
    | true => exact hk₁.anchor_unique ha hp.entry hi hp.anchor ▸ hc
  have h₁ : k.Aligned R w₁.store := by
    refine h.thin hthins hk₁.listed ⟨c, hp.entry, hrule, ?_⟩
    rw [Correspondence.element, hel, Sided.on_map]
    rfl
  exact aligned_run hroles hk₁ h₁ hp.rule hp.entry hp.anchor

/-- A pass that starts without correspondences, and with nothing below the root of the target, puts
everything in order. -/
theorem aligned_syncRoots_fresh (hroles : k.rules.UniqueRoles k.target)
    (hk : k.scheme.Consistent w.graphs w.pairs) (hnone : w.pairs.entries = [])
    (hbare : ∀ role, (w.graphs.on k.target).members (w.graphs.on k.target).root role = []) :
    wp (syncRoots k.rules k.direction k.rootRule) (fun _ w' => k.Aligned R w'.store)
      (fun _ _ => True) w := by
  refine Scheme.wp_syncRoots_paired (k := k.scheme) hk (fun _ _ => trivial) ?_
  intro r c w₁ hp
  have hk₁ := hp.consistent
  obtain ⟨hrule, hel⟩ := hk₁.anchor c hp.entry hp.anchor
  have hanchor (a : Correspondence) (ha : a ∈ w₁.pairs.entries) : a.isAnchor = true := by
    cases hi : a.isAnchor with
    | true => rfl
    | false =>
      have hin := hp.new a ha hi
      rw [hnone] at hin
      cases hin
  have hnil (a : Correspondence) (ha : a ∈ w₁.pairs.entries) (child : Child) :
      w₁.store.role a child k.target = [] := by
    rw [Store.role, Correspondence.element, (hk₁.anchor a ha (hanchor a ha)).2, Sided.on_map]
    change (w₁.graphs.on k.target).members (w₁.graphs.on k.target).root _ = []
    rw [hp.graphs]
    exact hbare _
  have h₁ : k.Aligned R w₁.store := by
    refine ⟨fun a ha a' ha' _ => hk₁.anchor_unique ha ha' (hanchor a ha) (hanchor a' ha'),
      fun a ha hi => ?_,
      ⟨c, hp.entry, hrule, ?_⟩, fun a ha _ _ child _ _ _ _ => ?_,
        fun a ha _ _ child _ _ => ?_⟩
    · exact Bool.noConfusion ((hanchor a ha).symm.trans hi)
    · rw [Correspondence.element, hel, Sided.on_map]
      rfl
    · rw [hnil a ha child]
      exact List.not_mem_nil
    · rw [hnil a ha child]
      exact .nil
  exact wp_mono (aligned_run hroles hk₁ h₁ hp.rule hp.entry hp.anchor) (fun _ _ h => h)
    fun _ _ _ => trivial

/-- The role of a child of pair `c` that mirrors another one has the counterparts in order. -/
def Sorts (k : OneWay) (a : Store) (c : Correspondence) (child : Child) : Prop :=
  a.pairs.InOrder k.source (a.role c child k.source) (a.role c child k.target)

/-- Where the target root is in no role, it has no part in what is in order. -/
theorem aligned_paired {r : Rule} {c : Correspondence} (hco : k.Coherent w.graphs w.pairs)
    (hroot : ∀ x role, (w.graphs.on k.target).root ∉ (w.graphs.on k.target).members x role)
    (hp : k.scheme.Paired r c w w') : k.Aligned (fun _ _ => False) w'.store := by
  have hk := hp.consistent
  have hgraphs : w'.store.graphs = w.store.graphs := hp.graphs
  have hanchor (a : Correspondence) (ha : a ∈ w'.pairs.entries) (hi : a.isAnchor = true)
      (s : Side) : a.element s = (w'.graphs.on s).root := by
    rw [Correspondence.element, (hk.anchor a ha hi).2, Sided.on_map]
  have hinner (a : Correspondence) (ha : a ∈ w'.pairs.entries) (hi : a.isAnchor = false) :
      a.element k.target ≠ (w'.graphs.on k.target).root := by
    rw [hp.graphs]
    exact hco.member a (hp.new a ha hi) hi
  refine ⟨fun a ha a' ha' he => ?_, hinner, ⟨c, hp.entry, (hk.anchor c hp.entry hp.anchor).1,
    hanchor c hp.entry hp.anchor _⟩, fun a _ _ _ child _ a' ha' hi => ?_,
    fun _ _ _ _ _ _ hR => hR.elim⟩
  · cases hi : a.isAnchor <;> cases hi' : a'.isAnchor
    · exact hco.target_inj a (hp.new a ha hi) a' (hp.new a' ha' hi') he
    · exact absurd (he.trans (hanchor a' ha' hi' _)) (hinner a ha hi)
    · exact absurd (he.symm.trans (hanchor a ha hi _)) (hinner a' ha' hi')
    · exact hk.anchor_unique ha ha' hi hi'
  · rw [hanchor a' ha' hi, Store.role, hgraphs, hp.graphs]
    exact hroot _ _

/-- What is dropped before the rules are applied, and the pair of the roots, do not matter for the
order. -/
theorem Sorts.purged {r : Rule} {c : Correspondence} {w₁ : State} {e e' : Correspondence}
    {child : Child}
    (hroot : ∀ x role, (w.graphs.on k.target).root ∉ (w.graphs.on k.target).members x role)
    (hp : k.scheme.Paired r c w w₁) (hpurged : k.scheme.Purged k.direction r c w₁ w')
    (h : k.Sorts w.store e child) (he : ∀ s, e'.element s = e.element s) :
    k.Sorts w'.store e' child := by
  have hsource : w'.store.role e' child k.source = w.store.role e child k.source := by
    have hg : w'.graphs.on k.source = w.graphs.on k.source :=
      hp.graphs ▸ source_freed hpurged.frees
    rw [Store.role, he]
    exact congrArg (fun g : Graph => g.members _ _) hg
  have htarget : (w'.store.role e' child k.target).Sublist (w.store.role e child k.target) := by
    have hsub := hpurged.frees.members k.target (e'.element k.target) (child.roles.on k.target)
    rw [he, hp.graphs] at hsub
    rw [Store.role, he]
    exact hsub
  rw [Sorts, hsource]
  refine Correspondences.InOrder.mono h htarget fun y hy x hx => ?_
  obtain ⟨a, ha, hax, hay⟩ := Correspondences.mem_partners.mp hx
  have ha₁ := hpurged.frees.entries.subset ha
  cases hi : a.isAnchor with
  | false => exact Correspondences.mem_partners.mpr ⟨a, hp.new a ha₁ hi, hax, hay⟩
  | true =>
    have hay : a.element k.target = y := hay
    have hy := htarget.subset hy
    rw [← hay, Correspondence.element, (hp.consistent.anchor a ha₁ hi).2, Sided.on_map,
      hp.graphs] at hy
    exact absurd hy (hroot _ _)

/-- A pass that keeps the pair of the roots keeps the counterparts in order in each role where they
were, whatever the other roles are like. -/
theorem sorts_syncRoots (hroles : k.rules.UniqueRoles k.target)
    (hk : k.scheme.Consistent w.graphs w.pairs) (hco : k.Coherent w.graphs w.pairs)
    (hroot : ∀ x role, (w.graphs.on k.target).root ∉ (w.graphs.on k.target).members x role) :
    wp (syncRoots k.rules k.direction k.rootRule) (fun _ w' => w'.store.Anchored →
      ∀ c ∈ w'.pairs.entries, ∀ r, k.rules.rule? c.rule = some r → ∀ child ∈ r.children,
        k.Sorts w.store c child → k.Sorts w'.store c child) (fun _ _ => True) w := by
  refine Scheme.wp_syncRoots_paired (k := k.scheme) hk (fun _ _ => trivial) fun r c₁ w₁ hp => ?_
  refine Scheme.wp_run_purged (k := k.scheme) hp.consistent hp.entry hp.anchor hp.rule
    fun w₂ hpurged => ?_
  have hbase : k.Aligned (fun _ _ => False) w₂.store :=
    (aligned_paired hco hroot hp).purged hp.entry hp.anchor hpurged
  -- the roles to be looked at are those that are in order now
  let R (owner : ElementId) (role : RoleName) : Prop :=
    ∀ c ∈ w₂.pairs.entries, c.element k.target = owner →
    ∀ r, k.rules.rule? c.rule = some r → ∀ child ∈ r.children,
      child.roles.on k.target = role → k.Sorts w₂.store c child
  have h₂ : k.Aligned R w₂.store :=
    ⟨hbase.apart, hbase.inner, hbase.rooted, hbase.bare, fun c hc r hr child hchild hR =>
      hR c hc rfl r hr child hchild rfl⟩
  refine wp_mono (alignsAll_start hroles r c₁ w₂ hpurged.rule hpurged.consistent hpurged.entry
    (hpurged.alive c₁ hpurged.entry) h₂) ?_
    fun _ _ _ => trivial
  rintro _ w₃ ⟨hwent, h₃⟩ hanchored c hc r hr child hchild hsorts
  refine h₃.ordered c hc r hr child hchild
    fun c₀ hc₀ he r₀ hr₀ child₀ hchild₀ hrole => ?_
  -- what is recorded now stays, so it is the pair in question
  obtain ⟨c', hc', hcore⟩ :=
    hwent.acts.kept hpurged.consistent hanchored hc₀ (hpurged.alive c₀ hc₀)
  obtain rfl : c' = c :=
    h₃.apart c' hc' c hc ((Correspondence.element_eq_of_core hcore _).trans he)
  obtain rfl : r = r₀ :=
    Option.some.inj (hr.symm.trans (Correspondence.rule_eq_of_core hcore ▸ hr₀))
  obtain rfl :=
    List.inj_on_of_nodup_map (hroles r (RuleSet.mem_of_rule? hr).1) hchild₀ hchild hrole
  exact hsorts.purged hroot hp hpurged fun s => (Correspondence.element_eq_of_core hcore s).symm

end OneWay

end GraphSync
