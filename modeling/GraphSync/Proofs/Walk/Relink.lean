import GraphSync.Proofs.Walk.Carrying

namespace GraphSync

namespace Pass

open Walk

variable {p : Pass} {o o' : Debts} {G done done' : List CorrespondenceId} {D : List Frame}
  {w w' : State} {c a : Correspondence} {r r' : Rule} {child : Child} {m : ElementId}

theorem Grows.of_linked {V : CorrespondenceId → Prop} {pair : Sided ElementId}
    (hk : p.scheme.Consistent w.graphs w.pairs)
    (hl : p.scheme.Linked p.direction V p.source child pair m r' a w w') : p.Grows w w' := by
  have hacts := hl.went.acts
  refine ⟨hl.followed, fun _ => hacts.contains hk, (hacts.follows hk _).next_le, ?_,
    hacts.next_le hk, ?_, ?_⟩
  · obtain ⟨kind, hkind⟩ := Graph.contains_iff_kind.mp (hk.sound p.target).root_live
    have hkind' := hacts.kind? hk hkind
    exact hkind'.trans hkind.symm
  · intro b hb hinner hlive
    rcases hl.kept b hb with hmem | ⟨_, _, _, hanchor | hdead⟩
    · exact ⟨b, hmem, rfl⟩
    · exact Bool.noConfusion (hanchor.symm.trans hinner)
    · exact Bool.noConfusion (hdead.symm.trans hlive)
  · intro b hb
    rcases hl.origin b hb with hmem | rfl
    · exact .inl ⟨b, hmem, rfl⟩
    · rcases hl.new with hmem | ⟨hid, hel⟩
      · exact .inl ⟨b, hmem, rfl⟩
      · refine .inr ⟨hl.inner, ?_, ?_, hl.live p.source⟩
        · exact Nat.le_of_eq (by rw [hid])
        · exact Nat.le_of_eq (congrArg ElementId.index hel).symm

/-- A member has the counterpart that it was given, in that role. -/
theorem Placed.of_linked {V : CorrespondenceId → Prop} {pair : Sided ElementId} {child' : Child}
    (hl : p.scheme.Linked p.direction V p.source child pair m r' a w w') (hg : p.Grows w w')
    (hs : (w.graphs.on p.target).Sound) (hco : p.Coherent w'.graphs w'.pairs) (ha : a.id ∈ done)
    (hel : c.element p.target = pair.on p.target)
    (hsame : child'.roles.on p.target = child.roles.on p.target) :
    p.scheme.Placed w' done c child' p.source m (a.element p.target) := by
  have hbefore : w.role c child' p.target = (w.graphs.on p.target).members (pair.on p.target)
      (child.roles.on p.target) := by
    rw [State.role, hel, hsame]
  have hrole : ∀ z, z ∈ w'.role c child' p.target ↔ z = a.element p.target ∨
      z ∈ w.role c child' p.target := by
    rw [hbefore, State.role, hel, hsame]
    exact hl.mem_role
  refine .of_oldest hco.listed ⟨hl.entry, hl.inner, hl.member, hl.live p.target⟩
    ((hrole _).mpr (.inl rfl)) (fun b hb hp => ?_) ha
  rcases (hrole _).mp hp with he | hp
  · exact Nat.le_of_eq (by rw [hco.target_inj b hb.mem a hl.entry he])
  · -- what stood in the role before is a candidate of old
    obtain ⟨b₀, hb₀, hcore⟩ := hg.old_of_lt hb.mem (hs.member_lt hp)
    have hel := Correspondence.element_eq_of_core hcore
    rw [OneWay.source_other, hel, hbefore] at hp
    rw [Correspondence.id_eq_of_core hcore]
    refine (hl.oldest b₀ ⟨hb₀, ?_, ?_, hs.members_live _ _ _ hp⟩ hp).2
    · exact (Correspondence.isAnchor_eq_of_core hcore).symm.trans hb.inner
    · exact (hel p.source).symm.trans hb.of_member

/-- A member of any pair that had its counterpart has one when it was given another, or this one. -/
theorem Placed.linked {V : CorrespondenceId → Prop} {pair : Sided ElementId} {child' : Child}
    {y : ElementId} (h : p.scheme.Placed w done c child' p.source m y)
    (hl : p.scheme.Linked p.direction V p.source child pair m r' a w w') (hg : p.Grows w w')
    (hl₀ : w.pairs.Listed) (hs : (w.graphs.on p.target).Sound)
    (hco : p.Coherent w'.graphs w'.pairs) (ha : a.id ∈ done) :
    ∃ y', p.scheme.Placed w' done c child' p.source m y' := by
  obtain ⟨_, _, _, hp, _⟩ := id h
  by_cases hsame : c.element p.target = pair.on p.target ∧
    child'.roles.on p.target = child.roles.on p.target
  · exact ⟨_, Placed.of_linked hl hg hs hco ha hsame.1 hsame.2⟩
  -- another role is as it was
  have hrole : w'.role c child' p.target = w.role c child' p.target := by
    rw [State.role, State.role]
    by_cases hel : c.element p.target = pair.on p.target
    · rw [hel]
      exact hl.members _ fun hrole => hsame ⟨hel, hrole⟩
    · rw [Graph.members, Graph.members]
      have hkept := hl.element? _ hel (Graph.contains_of_mem_members hp)
      exact congrArg (fun e : Option Element => (e.map _).getD _) hkept
  exact ⟨y, Placed.grows h hg hl₀ hco.listed hs (hrole ▸ hp) fun _ _ _ hp' => hrole ▸ hp'⟩

/-- The rule of the pair of a member is to be applied, unless that is the first pass. -/
theorem Called.of_linked {V : CorrespondenceId → Prop} {pair : Sided ElementId}
    (hl : p.scheme.Linked p.direction V p.source child pair m r a w w') (hlater : ¬ p.first)
    (hseen : ∀ b ∈ w'.pairs.entries, p.fresh b.id → b.id ∈ w'.visited ∨ b.id = a.id) :
    p.Called w' [] ⟨a.id, r, a.elements⟩ := by
  have hname := (RuleSet.mem_of_rule? hl.rule).2
  refine ⟨hname ▸ hl.rule, ⟨a, hl.entry, rfl, hname.symm, rfl⟩, hl.live, fun hf =>
    absurd hf hlater, fun hf => absurd hf hlater, fun _ =>
      ⟨fun _ => ⟨fun hf => absurd hf hlater, fun hb => ?_⟩, fun hb => ?_⟩, hseen⟩
  · exact absurd (p.first_of_blank hb) hlater
  · exact absurd (p.first_of_blank hb) hlater

/-- The role of a pair when one of its members has its counterpart there. -/
theorem RoleNearly.linked (h : p.RoleNearly o w done c child)
    (hl : p.scheme.Linked p.direction (· = c.id) p.source child c.elements m r' a w w')
    (hg : p.Grows w w') (hs : (w.graphs.on p.target).Sound) (hl₀ : w.pairs.Listed)
    (hco : p.Coherent w'.graphs w'.pairs) (hm : m ∈ w.role c child p.source)
    (hinner : ∀ b ∈ w.pairs.entries, b.element p.source = m → b.isAnchor = false)
    (hd : done ⊆ done') (ha : a.id ∈ done') :
    p.RoleNearly (o.pay c.id (.addition child m)) w' done' c child := by
  have hrole : ∀ z, z ∈ w'.role c child p.target ↔ z = a.element p.target ∨
      z ∈ w.role c child p.target := hl.mem_role
  have hfollowed := hg.role_source c child
  -- a pair in the role is the new member's, or was in it before
  have split {b : Correspondence} (hb : b ∈ w'.pairs.entries)
      (hp : b.element p.target ∈ w'.role c child p.target) :
      b = a ∨ b.element p.target ∈ w.role c child p.target :=
    ((hrole _).mp hp).imp_left fun he => hco.target_inj b hb a hl.entry he
  have oldest {b : Correspondence} (hb : b ∈ w'.pairs.entries) (hbm : b.element p.source = m)
      (hp : b.element p.target ∈ w.role c child p.target) :
      a.element p.target ∈ w.role c child p.target := by
    obtain ⟨b₀, hb₀, hcore⟩ := hg.old_of_lt hb (hs.member_lt hp)
    have hel := Correspondence.element_eq_of_core hcore
    rw [hel] at hbm hp
    exact (hl.oldest b₀ ⟨hb₀, hinner b₀ hb₀ hbm, hbm, hs.members_live _ _ _ hp⟩ hp).1
  refine ⟨fun m' hm' => ?_, fun hforced b hb hp => ?_, fun hforced b hb b' hb' he hp hp' => ?_⟩
  · rw [hfollowed] at hm'
    by_cases hmm : m' = m
    · subst hmm
      exact .inl ⟨_, Placed.of_linked hl hg hs hco ha rfl rfl⟩
    · rcases h.placed m' hm' with ⟨y, hy⟩ | hdue
      · obtain ⟨_, _, _, hp, _⟩ := id hy
        refine .inl ⟨y,
          OneWay.Placed.mono
            (Placed.grows hy hg hl₀ hco.listed hs ((hrole _).mpr (.inr hp)) ?_) hd⟩
        intro b hb hbm hp
        rcases split hb hp with rfl | hp
        · exact absurd (hbm.symm.trans hl.member) hmm
        · exact hp
      · refine .inr ⟨hdue, fun hpaid => hmm ?_⟩
        cases hpaid.2
        rfl
  · rw [hfollowed]
    rcases split hb hp with rfl | hp
    · exact .inl (hl.member ▸ hm)
    · exact (RoleNearly.matched_before h hg hs hforced hb hp).imp_right fun hdue =>
        ⟨hdue, fun hpaid => by cases hpaid.2⟩
  · have both := RoleNearly.sole_before h hg hco.listed hs hforced hb hb' he
    rcases split hb hp with rfl | hp <;> rcases split hb' hp' with rfl | hp'
    · rfl
    · exact both (oldest hb' (he.symm.trans hl.member) hp') hp'
    · exact both hp (oldest hb (he.trans hl.member) hp)
    · exact both hp hp'

/-- The role of a pair when a counterpart of an element that is no member has left it. -/
theorem RoleNearly.unlinked (h : p.RoleNearly o w done c child) (hco : p.Coherent w.graphs w.pairs)
    (hs : (w.graphs.on p.target).Sound) (hg : p.Grows w w') (hpairs : w'.pairs = w.pairs)
    (hrole : w'.role c child p.target = (w.role c child p.target).filter (· ≠ a.element p.target))
    (ha : a ∈ w.pairs.entries) (hm : a.element p.source ∉ w.role c child p.source) :
    p.RoleNearly o w' done c child := by
  have hl := hco.listed
  have left {z : ElementId} (hz : z ∈ w'.role c child p.target) : z ∈ w.role c child p.target :=
    (List.mem_filter.mp (hrole ▸ hz)).1
  refine ⟨fun m hm' => ?_, fun hforced b hb hp => ?_, fun hforced b hb b' hb' he hp hp' => ?_⟩
  · rw [hg.role_source] at hm'
    refine (h.placed m hm').imp_left
      fun ⟨y, hy⟩ => ⟨y, Placed.grows hy hg hl (hpairs ▸ hl) hs ?_ fun _ _ _ => left⟩
    -- the counterpart of a member is another element
    obtain ⟨b, hb, rfl, hp, _⟩ := hy.oldest hl
    refine hrole ▸ List.mem_filter.mpr ⟨hp, decide_eq_true fun he => hm ?_⟩
    rw [← hco.target_inj b hb.mem a ha he, hb.of_member]
    exact hm'
  · rw [hg.role_source]
    exact h.matched hforced b (hpairs ▸ hb) (left hp)
  · exact h.sole hforced b (hpairs ▸ hb) b' (hpairs ▸ hb') he (left hp) (left hp')

/-- Where a rule was applied, the members of its roles have their counterparts. -/
theorem Steady.placed {f : Frame} (hs : p.Steady [] D w) (hf : f ∈ D) (hel : c.elements = f.pair)
    (hchild : child ∈ f.rule.children) (hm : m ∈ w.role c child p.source) :
    ∃ y, p.scheme.Placed w (D.map Frame.id) c child p.source m y := by
  obtain ⟨tail, hsub, hdone⟩ := hs.finished.done_of_mem hf
  have hnearly : p.RoleNearly (fun _ _ _ => False) w (tail.map Frame.id) c child :=
    (hdone.roles child hchild).nearly hs hel
  obtain ⟨y, hy⟩ := (hnearly.placed m hm).resolve_right id
  exact ⟨y, OneWay.Placed.mono hy (List.map_subset _ hsub)⟩

/-- Giving a member its counterpart once more does nothing. -/
theorem Steady.link_done {f : Frame} (hs : p.Steady [] D w)
    (hk : p.scheme.Consistent w.graphs w.pairs) (hf : f ∈ D) (hel : c.elements = f.pair)
    (hchild : child ∈ f.rule.children)
    (hm : m ∈ p.base.members (c.element p.source) (child.roles.on p.source))
    (earlier later : List ElementId) :
    wp (linkMember p.rules p.direction (start p.rules p.direction) child p.source
      (c.element p.target) earlier m later) (fun _ w' => w' = w) (fun _ _ => False) w := by
  have hfollowed : m ∈ w.role c child p.source := by
    rw [State.role, hs.source]
    exact hm
  obtain ⟨_, a, ha, rfl, hplaced, hin⟩ := hs.placed hf hel hchild hfollowed
  refine Scheme.wp_linkMember_placed (k := p.scheme) (c := c) hk
    (fun s => ?_) hfollowed ha hplaced earlier later fun r' hr' => ?_
  · have hlive := (hs.owned f (by simpa using hf)).live s
    rwa [← hel] at hlive
  · have hvisited : a.id ∈ w.visited := (hs.visited a.id).mpr hin
    rw [start, wp_bind, wp_get]
    simp only [nestingLimit, OneWay.direction]
    rw [applyRule, wp_ite, if_neg (by simp), wp_bind, wp_get, wp_ite, if_pos hvisited]
    exact rfl

namespace Carrying

/-- The root is no member. -/
theorem inner_of_member (h : p.Carrying o G D w) {x : ElementId} {role : RoleName}
    (hm : m ∈ p.base.members x role) :
    ∀ b ∈ w.pairs.entries, b.element p.source = m → b.isAnchor = false := by
  intro b hb hbm
  refine Bool.eq_false_iff.mpr fun hanchor => h.pass.inner x role ?_
  have hroot := (h.coherent.anchor b hb hanchor).2
  rw [Correspondence.element, hroot, Sided.on_map, h.steady.source] at hbm
  exact hbm ▸ hm

/-- A member has its counterpart; the rule of their pair is still to be applied. -/
theorem linked (h : p.Carrying o G D w) (hc : c ∈ w.pairs.entries) (hD : c.id ∉ D.map Frame.id)
    (hr : p.rules.rule? c.rule = some r) (hchild : child ∈ r.children)
    (hm : m ∈ p.base.members (c.element p.source) (child.roles.on p.source))
    (hl : p.scheme.Linked p.direction (· = c.id) p.source child c.elements m r' a w w') :
    p.Moves D w w' ∧ p.Steady [] D w' ∧
      p.Behind (o.pay c.id (.addition child m)) w' (a.id :: D.map Frame.id) G := by
  have hinner := h.inner_of_member hm
  have hg := Grows.of_linked h.consistent hl
  have hk := hl.went.consistent
  have hacts : Acts p.scheme p.direction (· = c.id) w.store w'.store :=
    hl.went.acts.mono fun _ hv => hv.resolve_right fun ⟨hin, hout⟩ => hout (hl.visited ▸ hin)
  have hroots : w'.store.Anchored := by
    obtain ⟨b, hb, hanchor⟩ := h.anchored
    rcases hl.kept b hb with hmem | ⟨_, _, hbm, _⟩
    · exact ⟨b, hmem, hanchor⟩
    · rw [hinner b hb hbm] at hanchor
      cases hanchor
  have hapart : w.store.Apart p.target := h.coherent.target_inj
  have hco := OneWay.coherent_of_apart hk (p.apart_of_acts hacts h.consistent hapart) hroots
  refine h.apply hc hD hg hk hl.visited hco (fun b hb => ?_) hroots (fun b hb hne hlive =>
    p.keeps_others hacts h.consistent hapart hroots hb hlive hne)
    (List.subset_cons_self _ _) ?_ fun _ _ _ hne howed => ⟨howed, fun hpaid => hne hpaid.1⟩
  · rcases hg.origin b hb with ⟨b₀, hb₀, hcore⟩ | _
    · rw [Correspondence.element_eq_of_core hcore]
      exact hg.live _ (h.alive hb₀)
    · rcases hl.origin b hb with hmem | rfl
      · exact hg.live _ (h.alive hmem)
      · exact hl.live p.target
  · intro c' hc' hcore r₀ done done' hr₀ hdone hsub hnearly
    obtain rfl : r = r₀ := Option.some.inj (hr.symm.trans hr₀)
    -- the entry of the pair itself is as it was
    obtain rfl : c' = c := by
      rcases hl.origin c' hc' with hmem | rfl
      · exact h.coherent.listed.eq_of_id hmem hc (Correspondence.id_eq_of_core hcore)
      · rcases hl.new with hmem | ⟨hid, _⟩
        · exact h.coherent.listed.eq_of_id hmem hc (Correspondence.id_eq_of_core hcore)
        · have hlt := h.coherent.listed.bounded c hc
          rw [← Correspondence.id_eq_of_core hcore, hid] at hlt
          exact absurd hlt (Nat.lt_irrefl _)
    have hfollowed : m ∈ w.role c' child p.source := by
      rw [State.role, h.steady.source]
      exact hm
    refine Nearly.relist hnearly (RuleSet.mem_of_rule? hr).1 hg h.coherent.listed hk.listed
      h.steady.sound hdone hchild (fun b => OneWay.sided_ext (k := p.toOneWay) ?_ ?_)
      (fun child' hrole => hl.members _ hrole)
      (fun due hne howed => ⟨howed, fun hpaid => (hne m).1 hpaid.2⟩) ?_
    · rw [State.values_on, State.values_on, hg.source]
    · rw [State.values_on, State.values_on]
      exact hl.reading _ _
    · exact RoleNearly.linked (hnearly.roles child hchild) hl hg h.steady.sound h.coherent.listed
        hco hfollowed hinner hdone (hsub List.mem_cons_self)

/-- A rule is applied to a pair below none, and to those that it leads to. What is listed apart from
them stays as far behind as it was. -/
theorem descend (h : p.Carrying o G D w) (hm : p.Moves D w w') (hs : p.Steady [] D w')
    (hl : p.scheme.Linked p.direction (· = c.id) p.source child c.elements m r a w w')
    (hb : p.Behind o' w' (a.id :: D.map Frame.id) G) :
    wp (start p.rules p.direction r a.id a.elements)
      (fun _ w'' => ∃ D', p.Carrying o' (G.filter (· ∉ D'.map Frame.id)) D' w'' ∧
      p.Grows w w'') (fun _ _ => True) w' := by
  have hk := hl.went.consistent
  have hcalled : p.Called w' [] ⟨a.id, r, a.elements⟩ :=
    .of_linked hl h.pass.later fun _ _ hfresh => absurd hfresh (h.pass.old _)
  have htraces := Scheme.traces_start (d := p.direction) hk hl.rule hl.entry hl.live
  refine wp_mono (wp_and (p.start_applies D w' _ hs hcalled) htraces) ?_ fun _ _ _ => trivial
  rintro _ w'' ⟨⟨D', hd, hs', hm', hmem, _⟩, hwent⟩
  have hg := hm'.toGrows
  have hids : D.map Frame.id ⊆ D'.map Frame.id := List.map_subset _ hd
  have hvisited : a.id :: D.map Frame.id ⊆ D'.map Frame.id :=
    List.cons_subset.mpr ⟨List.mem_map_of_mem hmem, hids⟩
  have hshift := hb.shift hvisited
  refine ⟨D',
    h.step (hm.toGrows.trans hg) hs' hwent.consistent hids (hwent.deleted.trans hl.went.deleted) ?_,
    hm.toGrows.trans hg⟩
  refine Behind.keeps hshift hg hk.listed hwent.consistent.listed hs.sound (fun id hid => ?_)
    fun b hbm hid hlive => ?_
  · exact Nat.lt_of_lt_of_le (h.bounded id (List.mem_filter.mp hid).1) hm.pairs_le
  · -- the walk wrote on behalf of the pairs that it visited
    have hapart : w'.store.Apart p.target := hs.coherent.target_inj
    refine p.keeps_others hwent.acts hk hapart (hs'.anchored h.pass.spare) hbm (fun s => ?_) ?_
    · rcases p.side_cases s with rfl | rfl
      · exact hlive
      · exact hs.alive h.pass.intact b hbm
    · rintro (hf | ⟨hin, _⟩)
      · exact hf
      · have hvisited := (hs'.visited b.id).mp hin
        exact absurd hvisited (by simpa using (List.mem_filter.mp hid).2)

/-- A member gets its counterpart, and everything below it. -/
theorem link (h : p.Carrying o G D w) (hc : c ∈ w.pairs.entries)
    (hr : p.rules.rule? c.rule = some r) (hchild : child ∈ r.children)
    (hm : m ∈ p.base.members (c.element p.source) (child.roles.on p.source))
    (earlier later : List ElementId) :
    wp (linkMember p.rules p.direction (start p.rules p.direction) child p.source
      (c.element p.target) earlier m later)
      (fun _ w' => ∃ G' D', p.Carrying (o.pay c.id (.addition child m)) G' D' w' ∧ G' ⊆ G ∧
        p.Grows w w')
      (fun _ _ => True) w := by
  by_cases hD : c.id ∈ D.map Frame.id
  · obtain ⟨f, hf, hid⟩ := List.mem_map.mp hD
    have hown := h.steady.owned f (by simpa using hf)
    obtain ⟨hrule, hel⟩ := hown.entry c hc hid.symm
    obtain rfl : r = f.rule := by
      rw [hrule, hown.rule] at hr
      exact (Option.some.inj hr).symm
    have hlinked := h.steady.link_done h.consistent hf hel hchild hm earlier later
    refine wp_mono hlinked (fun _ w' hw => ?_) fun _ _ _ => trivial
    subst hw
    refine ⟨G, D, h.mono fun b _ hid _ _ _ _ _ howed => ⟨howed, fun hpaid => ?_⟩,
      fun _ hi => hi, .refl p w'⟩
    exact (List.nodup_append.mp h.nodup).2.2 _ hid _ hD hpaid.1
  · have hname := (RuleSet.mem_of_rule? hr).2
    refine Scheme.wp_linkMember (k := p.scheme) (V := (· = c.id)) h.consistent
      (fun hlive => .of_entry h.consistent hc hlive hr) (hname ▸ hr) rfl
      (List.mem_singleton_self _) hchild ?_
      earlier later (fun _ => trivial) (fun _ _ => trivial) fun r' a w' hl => ?_
    · rw [h.steady.source]
      exact hm
    · obtain ⟨hmoves, hs, hb⟩ := h.linked hc hD hr hchild hm hl
      refine wp_imp (h.descend hmoves hs hl hb) ?_
      rintro _ w'' ⟨D', hcarrying, hg⟩
      exact ⟨_, D', hcarrying, fun _ hi => (List.mem_filter.mp hi).1, hg⟩

theorem unlink (h : p.Carrying o G D w) (hc : c ∈ w.pairs.entries) (hD : c.id ∉ D.map Frame.id)
    (hr : p.rules.rule? c.rule = some r) (hchild : child ∈ r.children)
    (ha : a ∈ w.pairs.entries)
    (hm : a.element p.source ∉ p.base.members (c.element p.source) (child.roles.on p.source)) :
    wp (unlink p.target (c.element p.target) (child.roles.on p.target) (a.element p.target))
      (fun _ w' =>
        p.Carrying o G D w' ∧ p.Grows w w' ∧ w'.pairs = w.pairs ∧
          w'.role c child p.target = (w.role c child p.target).filter (· ≠ a.element p.target))
          (fun _ _ => False) w := by
  have hl := h.coherent.listed
  have hs := h.steady.sound
  have hrel := hs.relists_dropReference (c.element p.target) (child.roles.on p.target)
    (a.element p.target)
  have hk : p.scheme.Consistent
      (w.graphs.put p.target ((w.graphs.on p.target).dropReference (c.element p.target)
      (child.roles.on p.target) (a.element p.target))) w.pairs :=
    h.consistent.edited (Act.put_follows h.consistent.sound p.target (hs.dropReference _ _ _))
  refine wp_unlink (fun hdead => Bool.noConfusion (hdead.symm.trans (h.alive hc)))
    fun _ unlinked _ => ?_
  let report : Report := { w.report with referencesUnlinked := unlinked }
  have hrole : State.role { w with
        graphs := w.graphs.put p.target ((w.graphs.on p.target).dropReference (c.element p.target)
          (child.roles.on p.target) (a.element p.target))
        report } c child p.target = (w.role c child p.target).filter
          (· ≠ a.element p.target) := by
    rw [State.role, Sided.on_put_self, hrel.members_self]
    rfl
  suffices hwrite : p.Grows w _ ∧ p.Carrying o G D _ from ⟨hwrite.2, hwrite.1, rfl, hrole⟩
  refine h.write report hc hD hrel.next hrel.contains hrel.kind? hrel.element?_of_ne
    (.refl w.pairs c.id) hk ?_ fun _ _ _ _ howed => howed
  intro hg c' hc' hcore r₀ done hr₀ hnearly
  obtain rfl : r = r₀ := Option.some.inj (hr.symm.trans hr₀)
  obtain rfl := hl.eq_of_id hc' hc (Correspondence.id_eq_of_core hcore)
  refine Nearly.relist hnearly (RuleSet.mem_of_rule? hr).1 hg hl hl hs (fun _ hi => hi) hchild
    (fun b => OneWay.sided_ext (k := p.toOneWay) ?_ ?_) (fun child' hne => ?_)
    (fun _ _ howed => howed)
    (RoleNearly.unlinked (hnearly.roles child hchild) h.coherent hs hg rfl hrole ha ?_)
  · rw [State.values_on, State.values_on, hg.source]
  · rw [State.values_on, State.values_on, Sided.on_put_self]
    exact hrel.reading _ _
  · rw [State.role, State.role, Sided.on_put_self]
    exact hrel.members_of_ne hne
  · rwa [State.role, h.steady.source]

end Carrying

end Pass

end GraphSync
