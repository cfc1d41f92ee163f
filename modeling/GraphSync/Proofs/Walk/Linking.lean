import GraphSync.Proofs.Walk.Halt

namespace GraphSync.Pass

open Walk Relation

variable {p : Pass} {w w' w₀ w₁ : State} {f : Frame} {stack done done' done₀ : List Frame}
  {child : Child} {earlier later ys : List ElementId} {m : ElementId}
  {c : Correspondence} {r : Rule}

/-- The rule of each frame has led to those above it. -/
def Chained (p : Pass) (stack : List Frame) : Prop :=
  p.first → stack.Pairwise fun x y => TransGen (p.Step p.base) (p.node y) (p.node x)

/-- A rule is to be applied to a recorded pair, below the frames of `stack`. -/
structure Called (p : Pass) (w : State) (stack : List Frame) (g : Frame) : Prop where
  rule : p.rules.rule? g.rule.name = some g.rule
  entry : ∃ c ∈ w.pairs.entries, c.id = g.id ∧ c.rule = g.rule.name ∧ c.elements = g.pair
  live : ∀ s, (w.graphs.on s).contains (g.pair.on s) = true
  reached : p.first → p.Reached p.base (p.node g)
  chained : p.Chained (g :: stack)
  fresh : g.id ∉ w.visited → (∀ child, p.Vacant w g child) ∧
    (p.blank → ∀ name, (w.graphs.on p.target).reading (g.pair.on p.target) name = .unset)
  seen : ∀ c ∈ w.pairs.entries, p.fresh c.id → c.id ∈ w.visited ∨ c.id = g.id

/-- What the application of rules below the frames of `stack` is to do. -/
def Applies (p : Pass) (apply : Apply) (stack : List Frame) : Prop :=
  ∀ done w g, p.Steady stack done w → p.Called w stack g →
    wp (apply g.rule g.id g.pair)
      (fun _ w' => ∃ done', done ⊆ done' ∧ p.Steady stack done' w' ∧
        p.Moves (stack ++ done) w w' ∧ g ∈ done' ∧ p.Seen w')
      (p.Halted stack done w g) w

/-- The members of `earlier`, the last one first, were given the counterparts `ys`. -/
structure Linking (p : Pass) (w : State) (done : List Frame) (f : Frame) (child : Child)
    (earlier ys : List ElementId) : Prop where
  met : List.Forall₂ (p.Met w done f child) earlier ys
  clean : p.first → ∀ c ∈ w.pairs.entries, c.isAnchor = false →
    c.element p.target ∈ p.mirrored w f child → c.element p.source ∈ earlier
  exact : p.blank → p.mirrored w f child = ys.reverse

/-- It is the turn of the member `m`. -/
structure Turn (p : Pass) (stack done₀ : List Frame) (w₀ : State) (f : Frame)
    (done : List Frame) (child : Child) (earlier ys : List ElementId) (m : ElementId)
    (w : State) : Prop where
  applying : p.Applying stack done₀ w₀ f done w
  linking : p.Linking w done f child earlier ys
  chained : p.Chained (f :: stack)
  invoked : child ∈ f.rule.children
  member : m ∈ p.followed f child
  apart : m ∉ earlier

/-- The next member has its pair `c`, whose rule is about to be applied. -/
structure Ready (p : Pass) (stack done₀ : List Frame) (w₀ : State) (f : Frame)
    (done : List Frame) (child : Child) (earlier ys : List ElementId) (m : ElementId) (w : State)
    (c : Correspondence) (r : Rule) : Prop where
  steady : p.Steady (f :: stack) done w
  moves : p.Moves (stack ++ done₀) w₀ w
  later : done₀ ⊆ done
  called : p.Called w (f :: stack) ⟨c.id, r, c.elements⟩
  chosen : p.Chosen w f child m c
  resolved : p.first → ∃ r, p.resolve? p.base child m = some r ∧ r.name = c.rule
  met : List.Forall₂ (p.Met w done f child) earlier ys
  clean : p.first → ∀ c ∈ w.pairs.entries, c.isAnchor = false →
    c.element p.target ∈ p.mirrored w f child → c.element p.source ∈ m :: earlier
  exact : p.blank → p.mirrored w f child = (c.element p.target :: ys).reverse

theorem Chosen.unique {c' : Correspondence} (h : p.Chosen w f child m c)
    (h' : p.Chosen w f child m c') (hl : w.pairs.Listed) : c = c' :=
  hl.eq_of_id h.mem h'.mem (congrArg CorrespondenceId.mk (Nat.le_antisymm
    (h.oldest c' h'.mem h'.inner h'.of_member h'.placed)
    (h'.oldest c h.mem h.inner h.of_member h.placed)))

/-- In a forced direction, a pair whose target stands in a role that is done was chosen for a
member. -/
theorem RoleDone.chosen (h : p.RoleDone w done f child) (hforced : p.forced = true)
    (hco : p.Coherent w.graphs w.pairs) {c : Correspondence} (hc : c ∈ w.pairs.entries)
    (hp : c.element p.target ∈ p.mirrored w f child) :
    c.element p.source ∈ p.followed f child ∧ p.Chosen w f child (c.element p.source) c := by
  obtain ⟨ys, hmet, hstale, _⟩ := h
  obtain ⟨m, hm, c', hchosen, he, _⟩ := exists_of_mem_right hmet (hstale hforced c hc hp)
  obtain rfl := hco.target_inj c' hchosen.mem c hc he
  rw [hchosen.of_member]
  exact ⟨hm, hchosen⟩

theorem Ready.rule (h : p.Ready stack done₀ w₀ f done child earlier ys m w c r) :
    p.rules.rule? c.rule = some r := by
  obtain ⟨c', hc', hid, hrule, _⟩ := h.called.entry
  rw [← h.steady.coherent.listed.eq_of_id hc' h.chosen.mem hid, hrule]
  exact h.called.rule

/-- What happens below `f` leaves the member its counterpart, and the earlier ones theirs. -/
theorem Ready.stays (h : p.Ready stack done₀ w₀ f done child earlier ys m w c r)
    (hd : done ⊆ done') (hm : p.Moves (f :: stack ++ done) w w') :
    p.Moves (stack ++ done₀) w₀ w' ∧
      (∃ c', c'.core = c.core ∧ p.Chosen w' f child m c') ∧
      List.Forall₂ (p.Met w' done' f child) earlier ys := by
  have hmir : p.mirrored w' f child = p.mirrored w f child := hm.mirrored (by simp)
  have hsound := h.steady.sound
  refine ⟨h.moves.trans (hm.mono ?_),
    h.chosen.of hm.toGrows (fun hp => hmir ▸ hp) (fun _ _ _ _ hp => hmir ▸ hp) hsound,
    h.met.imp fun m' y hy => ?_⟩
  · exact List.append_subset.mpr
      ⟨List.Subset.trans (List.subset_cons_self f stack) (List.subset_append_left _ _),
      List.Subset.trans h.later (List.subset_append_right _ _)⟩
  · exact hy.of hm.toGrows (fun hp => hmir ▸ hp) (fun _ _ _ _ hp => hmir ▸ hp) hsound
      fun id hi => List.map_subset _ hd hi

/-- When the rule of the pair was applied, the member has been given its counterpart. -/
theorem Ready.linking (h : p.Ready stack done₀ w₀ f done child earlier ys m w c r)
    (hd : done ⊆ done') (hs : p.Steady (f :: stack) done' w')
    (hm : p.Moves (f :: stack ++ done) w w') (hid : c.id ∈ done'.map Frame.id) (hseen : p.Seen w')
    (role : RoleName) :
    p.Applying stack done₀ w₀ f done' w' ∧ p.Shifts f role w w' ∧
      p.Linking w' done' f child (m :: earlier) (c.element p.target :: ys) := by
  have hf : f ∈ f :: stack ++ done := by simp
  have hmir : p.mirrored w' f child = p.mirrored w f child := hm.mirrored hf
  obtain ⟨hmoves, ⟨c', he, hchosen⟩, hmet⟩ := h.stays hd hm
  refine ⟨⟨hs, hmoves, List.Subset.trans h.later hd, hseen⟩, hm.shifts hf role,
    .cons ?_ hmet, ?_, fun hb => hmir.trans (h.exact hb)⟩
  · refine ⟨c', hchosen, Correspondence.element_eq_of_core he p.target, ?_, ?_⟩
    · rw [Correspondence.id_eq_of_core he]
      exact hid
    · rw [Correspondence.rule_eq_of_core he]
      exact h.resolved
  · intro hp a ha hi hpl
    rw [hmir] at hpl
    rcases hm.origin a ha with ⟨b, hb, he⟩ | ⟨_, _, hnew, _⟩
    · rw [Correspondence.element_eq_of_core he] at hpl ⊢
      rw [Correspondence.isAnchor_eq_of_core he] at hi
      exact h.clean hp b hb hi hpl
    · have hl := h.steady.sound.member_lt hpl
      omega

/-- When the rule of the pair was broken off, the rule of `f` stops at the member. -/
theorem Ready.breaks {e : Error} (h : p.Ready stack done₀ w₀ f done child earlier ys m w₁ c r)
    (hall : p.followed f child = earlier.reverse ++ m :: later)
    (hsh : p.Shifts f (child.roles.on p.target) w w₁)
    (hhalted : p.Halted (f :: stack) done w₁ ⟨c.id, r, c.elements⟩ e w') :
    p.Breaks stack done₀ w₀ f done child w e w' := by
  obtain ⟨inner, done', hd, hs, hm, hhalts⟩ := hhalted.left
  obtain ⟨hmoves, ⟨c', he, hchosen⟩, hmet⟩ := h.stays hd hm
  refine ⟨hhalted.fails, inner, done', hd, hs, hmoves,
    hsh.trans (hm.shifts (by simp) _), earlier.reverse, m, later, hall, fun m' hm' => ?_,
      fun hcomes => ?_⟩
  · obtain ⟨y, _, hy⟩ := exists_of_mem_left hmet (List.mem_reverse.mp hm')
    exact ⟨y, hy⟩
  · refine .deeper hs.new hcomes hchosen (Correspondence.id_eq_of_core he)
      (Correspondence.elements_eq_of_core he) ?_ hhalts
    rw [Correspondence.rule_eq_of_core he]
    exact h.rule

theorem Turn.owned (h : p.Turn stack done₀ w₀ f done child earlier ys m w) : p.Owned w f :=
  h.applying.steady.owned f (by simp)

/-- A member without a rule is one that does not resolve. -/
theorem Turn.not_resolves {kind : TypeName}
    (h : p.Turn stack done₀ w₀ f done child earlier ys m w) (hkind : p.base.kind? m = some kind)
    (hnone : p.rules.ruleFor? (p.source.arrange kind (child.types.on p.target)) = none)
    (hf : p.first) : ¬ p.Resolves p.base := by
  intro hresolves
  obtain ⟨r, hr⟩ := hresolves (p.node f) (h.owned.reached hf) child h.invoked m h.member
  obtain ⟨kind', hkind', hfor⟩ := OneWay.resolve?_eq_some.mp hr
  rw [hkind] at hkind'
  cases hkind'
  rw [hfor] at hnone
  cases hnone

/-- What the rule of `f` asks for at the member may be applied below `f`. -/
theorem Turn.below {g : Frame} (h : p.Turn stack done₀ w₀ f done child earlier ys m w)
    (hg : g.pair.on p.source = m) (hr : p.first → p.resolve? p.base child m = some g.rule) :
    (p.first → p.Reached p.base (p.node g)) ∧ p.Chained (g :: f :: stack) := by
  subst hg
  have hstep (hf : p.first) : p.Step p.base (p.node f) (p.node g) :=
    ⟨child, h.invoked, h.member, hr hf⟩
  constructor
  · intro hf
    exact (h.owned.reached hf).step (hstep hf)
  · intro hf
    have hchained := h.chained hf
    refine List.pairwise_cons.mpr ⟨?_, hchained⟩
    intro x hx
    rcases List.mem_cons.mp hx with rfl | hx
    · exact .single (hstep hf)
    · exact ((List.pairwise_cons.mp hchained).1 x hx).tail (hstep hf)

/-- In a first pass, a counterpart found for a member has the rule that its child asks for, and
stands in no role. -/
theorem Turn.found_first (h : p.Turn stack done₀ w₀ f done child earlier ys m w)
    (hr : p.rules.rule? c.rule = some r)
    (hc : w.pairs.counterpart? p.rules child p.source (w.graphs.on p.target) (p.mirrored w f child)
      m = some c) (hf : p.first) :
    c.element p.target ∉ p.mirrored w f child ∧ p.resolve? p.base child m = some r := by
  have hs := h.applying.steady
  obtain ⟨hcand, hcase⟩ := Correspondences.of_counterpart?_eq_some hs.coherent.listed hc
  have hout : c.element p.target ∉ p.mirrored w f child := by
    intro hp
    have hin := h.linking.clean hf c hcand.mem hcand.inner hp
    rw [hcand.of_member] at hin
    exact h.apart hin
  refine ⟨hout, ?_⟩
  obtain ⟨hp, _⟩ | ⟨_, r', hr', ht⟩ := hcase
  · exact absurd hp hout
  · obtain ⟨r'', hr'', hk⟩ := hs.typed hf c hcand.mem
    rw [hr] at hr' hr''
    cases hr'
    cases hr''
    rw [hcand.of_member] at hk
    refine OneWay.resolve?_eq_some.mpr ⟨_, hk, ?_⟩
    have harr : p.source.arrange (r.types.on p.source) (child.types.on p.target) = r.types := by
      rw [OneWay.source_other] at ht
      rw [← ht]
      exact Sided.arrange_on _ _
    rw [harr]
    exact RuleSet.ruleFor?_of_mem (RuleSet.mem_of_rule? hr).1

theorem Turn.ready_found (h : p.Turn stack done₀ w₀ f done child earlier ys m w)
    (hr : p.rules.rule? c.rule = some r)
    (hc : w.pairs.counterpart? p.rules child p.source (w.graphs.on p.target)
      (p.mirrored w f child) m = some c)
    (ha₁ : p.Applying stack done₀ w₀ f done w₁) (hg : p.Grows w w₁)
    (hpairs : w₁.pairs = w.pairs)
    (hmem : ∀ y, y ∈ p.mirrored w₁ f child ↔ y = c.element p.target ∨
      y ∈ p.mirrored w f child)
    (hend : p.blank → p.mirrored w₁ f child = p.mirrored w f child ++ [c.element p.target]) :
    p.Ready stack done₀ w₀ f done child earlier ys m w₁ c r := by
  have hs := h.applying.steady
  obtain ⟨hcand, hcase⟩ := Correspondences.of_counterpart?_eq_some hs.coherent.listed hc
  have hname : r.name = c.rule := (RuleSet.mem_of_rule? hr).2
  have hfirst (hf : p.first) := h.found_first hr hc hf
  have hcandidate (c' : Correspondence) (h' : c' ∈ w.pairs.entries) (hi : c'.isAnchor = false)
      (hm' : c'.element p.source = m) (hp : c'.element p.target ∈ p.mirrored w f child) :
      w.pairs.Candidate p.source (w.graphs.on p.target) m c' :=
    ⟨h', hi, hm', hs.sound.members_live _ _ _ hp⟩
  have hsame (c' : Correspondence) (h' : c' ∈ w.pairs.entries)
      (he : c'.element p.target = c.element p.target) : c' = c :=
    hs.coherent.target_inj c' h' c hcand.mem he
  obtain ⟨hreached, hbelow⟩ :=
    h.below (g := ⟨c.id, r, c.elements⟩) hcand.of_member fun hf => (hfirst hf).2
  refine ⟨ha₁.steady, ha₁.moves, ha₁.later, ?_, ?_,
    fun hf => ⟨r, (hfirst hf).2, hname⟩, ?_, ?_, ?_⟩
  · refine ⟨hname ▸ hr, ⟨c, hpairs ▸ hcand.mem, rfl, hname.symm, rfl⟩, ?_,
      hreached, hbelow, ?_, fun c' hc' hfresh => .inl (ha₁.seen c' hc' hfresh)⟩
    · intro s
      rcases p.side_cases s with rfl | rfl
      · have hm : c.elements.on p.source = m := hcand.of_member
        rw [ha₁.steady.source, hm]
        exact hs.base_sound.members_live _ _ m h.member
      · exact hg.live _ hcand.live
    intro hv
    have hold (hf : p.first) : False := hv (ha₁.seen.of_first hf c (hpairs ▸ hcand.mem))
    exact ⟨fun child => ⟨fun hf => (hold hf).elim, fun hb => (hold (p.first_of_blank hb)).elim⟩,
      fun hb => (hold (p.first_of_blank hb)).elim⟩
  · refine ⟨hpairs ▸ hcand.mem, hcand.inner, hcand.of_member, (hmem _).mpr (.inl rfl), ?_⟩
    intro c' h' hi hm' hp
    rw [hpairs] at h'
    rcases (hmem _).mp hp with he | hp
    · exact Nat.le_of_eq (by rw [hsame c' h' he])
    · rcases hcase with ⟨_, hmin⟩ | ⟨hnone, _⟩
      · exact hmin c' (hcandidate c' h' hi hm' hp) hp
      · exact absurd hp (hnone c' (hcandidate c' h' hi hm' hp))
  · refine h.linking.met.imp ?_
    intro m' y hy
    refine hy.of hg (fun hy => (hmem y).mpr (.inr hy)) ?_ hs.sound fun _ hi => hi
    intro c' h' hi hm' hp
    rw [hpairs] at h'
    rcases (hmem _).mp hp with he | hp
    · -- another pair of an earlier member comes into the role only if that member is `m` itself
      have hmm : m' = m := by rw [← hm', hsame c' h' he, hcand.of_member]
      obtain ⟨c'', hc'', _⟩ := hy
      rcases hcase with ⟨hp, _⟩ | ⟨hnone, _⟩
      · rwa [he]
      · exact absurd hc''.placed
          (hnone c'' (hcandidate c'' hc''.mem hc''.inner (hc''.of_member.trans hmm) hc''.placed))
    · exact hp
  · intro hf c' h' hi hp
    rw [hpairs] at h'
    rcases (hmem _).mp hp with he | hp
    · rw [hsame c' h' he, hcand.of_member]
      exact List.mem_cons_self
    · exact List.mem_cons_of_mem _ (h.linking.clean hf c' h' hi hp)
  · intro hb
    rw [hend hb, h.linking.exact hb, List.reverse_cons]

/-- Without a counterpart for it, a member has no pair with a live target under the rule that its
child asks for, but maybe that of the roots. -/
theorem unpaired_of_none (hr : p.resolve? p.base child m = some r)
    (hc : w.pairs.counterpart? p.rules child p.source (w.graphs.on p.target)
      (p.mirrored w f child) m = none) :
    ∀ c ∈ w.pairs.entries, c.rule = r.name → c.element p.source = m →
      (w.graphs.on p.target).contains (c.element p.target) = true → c.isAnchor = true := by
  intro c hm hrule hsource hlive
  cases hi : c.isAnchor with
  | true => rfl
  | false =>
    obtain ⟨kind, _, hfor⟩ := OneWay.resolve?_eq_some.mp hr
    obtain ⟨hmem, htypes⟩ := RuleSet.mem_of_ruleFor? hfor
    have ht := (Correspondences.of_counterpart?_eq_none hc ⟨hm, hi, hsource, hlive⟩).2 r
      (hrule ▸ RuleSet.rule?_of_mem hmem)
    rw [htypes] at ht
    exact absurd (Sided.on_arrange_other _ _ _) ht

/-- The counterpart is created where there is none. The pair of the roots is not dropped for it,
unless a rule leads back to the root. -/
theorem Turn.creates (h : p.Turn stack done₀ w₀ f done child earlier ys m w)
    (hr : p.resolve? p.base child m = some r)
    (hc : w.pairs.counterpart? p.rules child p.source (w.graphs.on p.target)
      (p.mirrored w f child) m = none)
    {g' : Graph} {ts : List ElementId} (report : Report)
    (hf : ((w.graphs.on p.target).add (r.types.on p.target)).2.Follows g')
    (hw : ((w.graphs.on p.target).add (r.types.on p.target)).2.Relists g' (f.pair.on p.target)
      (child.roles.on p.target) ts)
    (hreport : report.elementsCreated = w.report.elementsCreated + 1) :
    p.Creates w f (child.roles.on p.target) r m g' ts report := by
  have hs := h.applying.steady
  have hown := h.owned
  have hnone := unpaired_of_none hr hc
  obtain ⟨kind, hkind, hfor⟩ := OneWay.resolve?_eq_some.mp hr
  obtain ⟨hrule, htypes⟩ := RuleSet.mem_of_ruleFor? hfor
  refine ⟨RuleSet.rule?_of_mem hrule, ?_, hnone, ?_, hf, hw, hreport⟩
  · rw [hkind, htypes, Sided.on_arrange_self]
  · intro hspare c hce hcr he
    have hanchor := hs.coherent.anchor c hce (hnone c hce hcr he (hs.alive hspare.1 c hce))
    refine p.spares hspare (p.node f) ⟨m, r⟩ (RuleSet.mem_of_rule? hown.rule).1 hown.reached
      ⟨child, h.invoked, h.member, hr⟩ ⟨?_, hcr ▸ hanchor.1⟩
    rw [← he, Correspondence.element, hanchor.2, Sided.on_map, hs.source]

theorem Turn.ready_created (h : p.Turn stack done₀ w₀ f done child earlier ys m w)
    (hr : p.resolve? p.base child m = some r)
    (hc : w.pairs.counterpart? p.rules child p.source (w.graphs.on p.target)
      (p.mirrored w f child) m = none)
    {g' : Graph} {ts : List ElementId} {report : Report}
    (hcreates : p.Creates w f (child.roles.on p.target) r m g' ts report)
    (hts : ∀ y, y ∈ ts ↔ y = ⟨(w.graphs.on p.target).next⟩ ∨ y ∈ p.mirrored w f child)
    (hend : p.blank → ts = p.mirrored w f child ++ [⟨(w.graphs.on p.target).next⟩]) :
    p.Ready stack done₀ w₀ f done child earlier ys m (p.created w r m g' report)
      (p.newPair w r m) r := by
  have ha := h.applying
  have hs := ha.steady
  have hmir := hcreates.mirrored
  have hnew : p.newPair w r m ∈ (p.created w r m g' report).pairs.entries :=
    (mem_created hs.coherent r m g' report).mpr (.inr rfl)
  have hunpaired (c : Correspondence) (hce : c ∈ w.pairs.entries) (hi : c.isAnchor = false)
      (he : c.element p.source = m) : c.element p.target ∉ p.mirrored w f child := fun hp =>
    (Correspondences.of_counterpart?_eq_none hc ⟨hce, hi, he, hs.sound.members_live _ _ _ hp⟩).1 hp
  obtain ⟨hempty, hunset⟩ := hcreates.blank hs
  obtain ⟨hreached, hbelow⟩ :=
    h.below (g := ⟨(p.newPair w r m).id, r, (p.newPair w r m).elements⟩)
    (element_newPair_source p w r m) fun _ => hr
  refine ⟨hcreates.steady hs, ha.moves.trans ((hcreates.moves hs).mono ?_), ha.later, ?_, ?_,
    fun _ => ⟨r, hr, rfl⟩, ?_, ?_, ?_⟩
  · exact List.append_subset.mpr
      ⟨List.subset_append_left _ _, List.Subset.trans ha.later (List.subset_append_right _ _)⟩
  · refine ⟨hcreates.rule, ⟨p.newPair w r m, hnew, rfl, rfl, rfl⟩, ?_, hreached, hbelow,
      fun _ => ⟨?_, fun _ => hunset⟩, ?_⟩
    · intro s
      rcases p.side_cases s with rfl | rfl
      · have hm : (p.newPair w r m).elements.on p.source = m := element_newPair_source p w r m
        rw [Creates.source, hs.source, hm]
        exact Graph.contains_iff_kind.mpr ⟨_, hcreates.kind⟩
      · have hy : (p.newPair w r m).elements.on p.target = ⟨(w.graphs.on p.target).next⟩ :=
          element_newPair_target p w r m
        rw [Creates.target, hy, hcreates.contains hs.sound]
        simp
    · intro child'
      refine ⟨?_, fun _ => hempty child'⟩
      intro _ c _ _
      rw [hempty]
      exact List.not_mem_nil
    · intro c hce hfresh
      rcases (mem_created hs.coherent r m g' report).mp hce with ⟨hce, _⟩ | rfl
      · exact .inl (ha.seen c hce hfresh)
      · exact .inr rfl
  · refine ⟨hnew, rfl, element_newPair_source p w r m, ?_, ?_⟩
    · rw [hmir, element_newPair_target]
      exact (hts _).mpr (.inl rfl)
    · intro c' h' hi hm' hp
      rcases hcreates.placed hs.coherent hts h' hp with rfl | ⟨hce, hp⟩
      · exact Nat.le_refl _
      · exact absurd hp (hunpaired c' hce hi hm')
  · refine h.linking.met.imp ?_
    intro m' y hy
    refine hy.of (hcreates.grows hs) ?_ ?_ hs.sound fun _ hi => hi
    · intro hy
      rw [hmir]
      exact (hts y).mpr (.inr hy)
    · intro c' h' hi hm' hp
      rcases hcreates.placed hs.coherent hts h' hp with rfl | ⟨_, hp⟩
      · rw [element_newPair_source] at hm'
        obtain ⟨c'', hc'', _⟩ := hy
        exact absurd hc''.placed (hunpaired c'' hc''.mem hc''.inner (hc''.of_member.trans hm'.symm))
      · exact hp
  · intro hf c' h' hi hp
    rcases hcreates.placed hs.coherent hts h' hp with rfl | ⟨hce, hp⟩
    · rw [element_newPair_source]
      exact List.mem_cons_self
    · exact List.mem_cons_of_mem _ (h.linking.clean hf c' hce hi hp)
  · intro hb
    rw [hmir, hend hb, h.linking.exact hb, element_newPair_target, List.reverse_cons]

/-- In a bare role the next counterpart goes to the end. -/
theorem Linking.slot (hl : p.Linking w done f child earlier ys) (hs : p.Steady (f :: stack) done w)
    (hb : p.blank) {t : Correspondences} (hsub : ∀ c ∈ t.entries, c ∈ w.pairs.entries)
    (hkeep : ∀ c ∈ w.pairs.entries, c.isAnchor = false →
      (w.graphs.on p.target).contains (c.element p.target) = true → c ∈ t.entries) :
    t.slot p.source (p.mirrored w f child) earlier later = (p.mirrored w f child).length := by
  have hexact := hl.exact hb
  apply Correspondences.slot_eq_length
  · intro he
    have hmet := hl.met
    rw [he, List.forall₂_nil_left_iff] at hmet
    rw [hexact, hmet, List.reverse_nil]
  · intro m' rest he
    have hmet := hl.met
    rw [he, List.forall₂_cons_left_iff] at hmet
    obtain ⟨y, ys', ⟨c', hc', hy, _⟩, hrest, rfl⟩ := hmet
    rw [List.reverse_cons] at hexact
    have hnodup : (ys'.reverse ++ [y]).Nodup := hexact ▸ hs.sound.members_nodup _ _
    have hlast : y ∉ ys'.reverse := fun h => (List.nodup_append.mp hnodup).2.2 y h y (by simp) rfl
    refine ⟨?_, by simp [hexact]⟩
    apply Correspondences.position?_eq (y := y)
    · rw [hexact, Correspondences.idxOf?_last hlast]
      simp
    · exact Correspondences.mem_partners.mpr
        ⟨c', hkeep c' hc'.mem hc'.inner (hs.sound.members_live _ _ _ hc'.placed),
          hc'.of_member, hy⟩
    · intro y' hy' hin
      obtain ⟨c'', hm'', hsource, htarget⟩ := Correspondences.mem_partners.mp hy'
      have hin' : y' ∈ y :: ys' := by simpa [hexact, or_comm] using hin
      obtain ⟨mi, _, ci, hci, hyi, _⟩ := exists_of_mem_right hl.met hin'
      have hsame : c'' = ci :=
        hs.coherent.target_inj c'' (hsub c'' hm'') ci hci.mem (htarget.trans hyi.symm)
      have hmi : mi = m' := by rw [← hci.of_member, ← hsame, hsource]
      rw [hmi] at hci
      rw [← hyi, ← hy, hci.unique hc' hs.coherent.listed]

section Member

variable {apply : Apply} {Q : ElementId → State → Prop} {E : Error → State → Prop}

/-- Puts a counterpart into the role and applies the rule of its pair. -/
def place (p : Pass) (apply : Apply) (child : Child) (f : Frame) (earlier : List ElementId)
    (m : ElementId) (later : List ElementId) (r : Rule) (y : ElementId) : Walk ElementId := do
  link p.source (f.pair.on p.target) (child.roles.on p.target) y earlier later
  enter p.direction apply r (p.pair m y)
  return y

theorem Turn.place_found (h : p.Turn stack done₀ w₀ f done child earlier ys m w)
    (hr : p.rules.rule? c.rule = some r)
    (hc : w.pairs.counterpart? p.rules child p.source (w.graphs.on p.target)
      (p.mirrored w f child) m = some c)
    (next : ∀ w₁, p.Ready stack done₀ w₀ f done child earlier ys m w₁ c r →
      p.Shifts f (child.roles.on p.target) w w₁ →
      wp (apply r c.id c.elements) (fun _ => Q (c.element p.target)) E w₁) :
    wp (p.place apply child f earlier m later r (c.element p.target)) Q E w := by
  have hs := h.applying.steady
  obtain ⟨hcand, _⟩ := Correspondences.of_counterpart?_eq_some hs.coherent.listed hc
  have hpair : p.pair m (c.element p.target) = c.elements := by
    rw [← hcand.of_member]
    exact Sided.arrange_on _ _
  have hname : c.rule = r.name := (RuleSet.mem_of_rule? hr).2.symm
  have hout (hb : p.blank) := (h.found_first hr hc (p.first_of_blank hb)).1
  rw [place, wp_bind]
  apply OneWay.wp_link
  · intro e hd
    rcases hd with hd | hd
    · rw [h.owned.live p.target] at hd
      cases hd
    · exact Bool.noConfusion (hd.symm.trans hcand.live)
  · intro hp
    have hready := h.ready_found hr hc h.applying (.refl p w) rfl
      (fun y => ⟨.inr, fun hy => hy.elim (fun he => he ▸ hp) id⟩) fun hb =>
        absurd hp (hout hb)
    rw [wp_bind, hpair]
    exact OneWay.wp_enter_recorded hs.coherent hcand.mem hname (next w hready (.refl p f _ w))
  · intro _ hp hnew g' hw
    have hle := w.pairs.slot_le p.source (p.mirrored w f child) earlier later
    obtain ⟨ha₁, hsh⟩ :=
      h.applying.relist { w.report with referencesLinked := w.report.referencesLinked + 1 }
      (hs.sound.insertIdx hw hp hnew hle) hw rfl
    have hmir := hw.members_self
    have hready := h.ready_found hr hc ha₁ hsh.toGrows rfl (fun y => ?_) fun hb => ?_
    · rw [wp_bind, hpair]
      exact OneWay.wp_enter_recorded ha₁.steady.coherent hcand.mem hname (next _ hready hsh)
    · simp only [Pass.mirrored, Sided.on_put_self, hmir]
      exact List.mem_insertIdx hle
    · have hslot : w.pairs.slot p.source (p.mirrored w f child) earlier later =
          (p.mirrored w f child).length := h.linking.slot hs hb (fun _ h => h) fun _ h _ _ => h
      simp only [Pass.mirrored] at hslot
      simp only [Pass.mirrored, Sided.on_put_self, hmir]
      rw [hslot, List.insertIdx_length_self]

theorem Turn.place_created (h : p.Turn stack done₀ w₀ f done child earlier ys m w)
    (hr : p.resolve? p.base child m = some r)
    (hc : w.pairs.counterpart? p.rules child p.source (w.graphs.on p.target)
      (p.mirrored w f child) m = none)
    {report : Report} (hreport : report.elementsCreated = w.report.elementsCreated + 1)
    (next : ∀ w₁ c, p.Ready stack done₀ w₀ f done child earlier ys m w₁ c r →
      p.Shifts f (child.roles.on p.target) w w₁ →
      wp (apply r c.id c.elements) (fun _ => Q (c.element p.target)) E w₁) :
    wp (p.place apply child f earlier m later r ⟨(w.graphs.on p.target).next⟩) Q E { w with
      graphs := w.graphs.put p.target ((w.graphs.on p.target).add (r.types.on p.target)).2
      pairs := w.pairs.without r.name p.source m
      report } := by
  have hs := h.applying.steady
  have hname := RuleSet.rule?_of_mem (OneWay.mem_of_resolve? hr)
  have hadd := hs.sound.add (r.types.on p.target)
  have hfresh := hs.sound.fresh
  obtain ⟨hsub, hnext⟩ := Correspondences.without_sublist w.pairs r.name p.source m
  have hmembers : ((w.graphs.on p.target).add (r.types.on p.target)).2.members (f.pair.on p.target)
      (child.roles.on p.target) = p.mirrored w f child := hs.sound.members_add _ _ _
  have hnew : (⟨(w.graphs.on p.target).next⟩ : ElementId) ∉ p.mirrored w f child := by
    intro hin
    rw [hs.sound.members_live _ _ _ hin] at hfresh
    cases hfresh
  have hcontains : ((w.graphs.on p.target).add (r.types.on p.target)).2.contains
      ⟨(w.graphs.on p.target).next⟩ = true := by
    rw [hs.sound.contains_add]
    simp
  rw [place, wp_bind]
  apply OneWay.wp_link
  · simp only [Sided.on_put_self]
    intro e hd
    rcases hd with hd | hd
    · rw [hs.sound.contains_add, h.owned.live p.target] at hd
      cases hd
    · rw [hcontains] at hd
      cases hd
  · intro hp
    simp only [Sided.on_put_self, hmembers] at hp
    exact absurd hp hnew
  · simp only [Sided.on_put_self, hmembers, Sided.put_put]
    intro _ _ _ g' hw
    have hle :=
      (w.pairs.without r.name p.source m).slot_le p.source (p.mirrored w f child) earlier later
    have hf : ((w.graphs.on p.target).add (r.types.on p.target)).2.Follows g' :=
      hadd.sound.insertIdx (by rwa [hmembers]) hcontains (by rwa [hmembers]) (by rwa [hmembers])
    have hkept : ∀ c ∈ w.pairs.entries, c.isAnchor = false →
        (w.graphs.on p.target).contains (c.element p.target) = true →
          c ∈ (w.pairs.without r.name p.source m).entries := by
      intro c hc' hi hl
      refine hs.coherent.mem_without.mpr ⟨hc', ?_⟩
      intro hkey
      rw [unpaired_of_none hr hc c hc' hkey.1 hkey.2 hl] at hi
      cases hi
    have hcreates := h.creates hr hc { report with
      referencesLinked := report.referencesLinked + 1
      pairsCreated := report.pairsCreated + 1 } hf hw hreport
    have hready := h.ready_created hr hc hcreates (fun y => List.mem_insertIdx hle) fun hb => by
      rw [h.linking.slot hs hb (fun c hc => hsub.subset hc) hkept, List.insertIdx_length_self]
    have hnext' := next _ _ hready (hcreates.shifts hs)
    rw [element_newPair_target] at hnext'
    rw [wp_bind]
    apply OneWay.wp_enter_new
    · intro c hc' hkey he
      rw [p.pair_source] at he
      exact (hs.coherent.mem_without.mp hc').2 ⟨hkey, he⟩
    · intro c hc' he
      rw [p.pair_target] at he
      have hlt := hs.coherent.target_lt c (hsub.subset hc')
      rw [he] at hlt
      exact absurd hlt (Nat.lt_irrefl _)
    · simp only [Correspondences.newEntry, hnext]
      exact hnext'

/-- A member gets its counterpart, unless it has none and no rule; then the rule of the pair is
applied. -/
theorem Turn.wp_linkMember (h : p.Turn stack done₀ w₀ f done child earlier ys m w)
    (noRule : w.pairs.counterpart? p.rules child p.source (w.graphs.on p.target)
      (p.mirrored w f child) m = none →
      ∀ kind, p.base.kind? m = some kind →
        p.rules.ruleFor? (p.source.arrange kind (child.types.on p.target)) = none →
        E (.rule (.noRule (p.source.arrange kind (child.types.on p.target)))) w)
    (next : ∀ w₁ c r, p.Ready stack done₀ w₀ f done child earlier ys m w₁ c r →
      p.Shifts f (child.roles.on p.target) w w₁ →
      wp (apply r c.id c.elements) (fun _ => Q (c.element p.target)) E w₁) :
    wp (linkMember p.rules p.direction apply child p.source (f.pair.on p.target) earlier m later)
      Q E w := by
  have hs := h.applying.steady
  have hown := h.owned
  rw [linkMember, wp_bind]
  apply OneWay.wp_findOrCreate hs.coherent
  · intro e hd
    rcases hd with hd | hd
    · rw [hown.live p.target] at hd
      cases hd
    · rw [hs.source, hs.base_sound.members_live _ _ m h.member] at hd
      cases hd
  · exact fun hc kind hkind hfor => noRule hc kind (hs.source ▸ hkind) hfor
  · intro _ c r hc hr
    exact h.place_found hr hc fun w₁ => next w₁ c r
  · intro _ hc kind r hkind hfor report hreport
    have hr : p.resolve? p.base child m = some r :=
      OneWay.resolve?_eq_some.mpr ⟨kind, hs.source ▸ hkind, hfor⟩
    exact h.place_created hr hc hreport fun w₁ c => next w₁ c r

end Member

end GraphSync.Pass
