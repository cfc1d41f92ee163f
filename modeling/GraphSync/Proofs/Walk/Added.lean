import GraphSync.Proofs.Walk.Relink

namespace GraphSync

open Walk

/-- A walk that carries an edit over where `next` is the first handle to be given out. -/
def OneWay.editPass (k : OneWay) (base : Graph) (next : Nat)
    (hroles : k.rules.UniqueRoles k.target) : Pass where
  toOneWay := k
  base := base
  intact := False
  first := False
  blank := False
  fresh := fun id => next ≤ id.index
  intact_of_first := id
  fresh_of_first := False.elim
  first_of_blank := id
  unique_roles := hroles

namespace Pass

variable {p : Pass} {w₀ w w₁ w' : State} {D D' : List Frame} {c a : Correspondence}
  {r r' : Rule} {child child' : Child} {id : CorrespondenceId} {m : ElementId} {f : Frame}

/-- One edit is to be carried over in `w`. Nothing is known of lost pairs or of that of the roots;
what is recorded from here on is the walk's own. -/
structure Outset (p : Pass) (w : State) : Prop where
  consistent : p.scheme.Consistent w.graphs w.pairs
  coherent : p.Coherent w.graphs w.pairs
  source : w.graphs.on p.source = p.base
  visited : w.visited = []
  loose : ¬ p.intact
  fresh : ∀ id, p.fresh id ↔ w.pairs.next ≤ id.index

/-- Every edit of the source side may be carried over, in any state that a session may be in. -/
theorem Outset.of_editPass {k : OneWay} {w : State} (hroles : k.rules.UniqueRoles k.target)
    (hk : k.scheme.Consistent w.graphs w.pairs) (hco : k.Coherent w.graphs w.pairs)
    (hv : w.visited = []) : (k.editPass (w.graphs.on k.source) w.pairs.next hroles).Outset w where
  consistent := hk
  coherent := hco
  source := rfl
  visited := hv
  loose := id
  fresh _ := Iff.rfl

/-- The walk has come from `w₀`, and rules were applied to the frames of `D`. -/
structure Adding (p : Pass) (w₀ : State) (D : List Frame) (w : State) : Prop where
  outset : p.Outset w₀
  steady : p.Steady [] D w
  seen : p.Seen w
  went : p.scheme.Went p.direction (fun _ => True) w₀ w
  grows : p.Grows w₀ w

/-- The member has its counterpart in the role of the pair with that handle, or the rule of the pair
was applied. -/
def Given (p : Pass) (w : State) (id : CorrespondenceId) (child : Child) (m : ElementId) : Prop :=
  ∀ c ∈ w.pairs.entries, c.id = id → id ∈ w.visited ∨
    ∃ y, p.scheme.Placed w w.visited c child p.source m y

namespace Outset

variable (h : p.Outset w)

include h

theorem not_first : ¬ p.first := fun hf => h.loose (p.intact_of_first hf)

theorem adding : p.Adding w [] w where
  outset := h
  steady := {
    coherent := h.coherent
    source := h.source
    alive := fun hi => absurd hi h.loose
    ids_nodup := .nil
    targets_nodup := .nil
    visited := fun id => by simp [h.visited]
    owned := fun _ hf => by cases hf
    finished := .nil
    typed := fun hf => absurd hf h.not_first
    anchored := fun hs => absurd hs.1 h.loose
    rooted := fun hi => absurd hi h.loose
    tally := fun hf => absurd hf h.not_first }
  seen c hc hfresh :=
    absurd (h.coherent.listed.bounded c hc) (Nat.not_lt_of_le ((h.fresh c.id).mp hfresh))
  went := .refl h.consistent
  grows := .refl p w

end Outset

namespace Adding

variable (h : p.Adding w₀ D w)

include h

theorem consistent : p.scheme.Consistent w.graphs w.pairs := h.went.consistent

theorem listed : w.pairs.Listed := h.consistent.listed

theorem mem_visited : id ∈ w.visited ↔ id ∈ D.map Frame.id := h.steady.visited id

/-- A pair that the walk has recorded was visited. -/
theorem old_of_not_visited (hc : c ∈ w.pairs.entries) (hv : c.id ∉ w.visited) :
    c.id.index < w₀.pairs.next := by
  by_contra hnew
  exact hv (h.seen c hc ((h.outset.fresh c.id).mpr (Nat.le_of_not_lt hnew)))

/-- A handle that was given out before the walk stands for the same elements. -/
theorem element_of_old (hc : c ∈ w₀.pairs.entries) (ha : a ∈ w.pairs.entries)
    (hid : a.id = c.id) (s : Side) : a.element s = c.element s := by
  have hl := h.outset.coherent.listed
  obtain ⟨c₀, hc₀, hcore⟩ := h.grows.old_of_id ha (hid ▸ hl.bounded c hc)
  obtain rfl := hl.eq_of_id hc₀ hc ((Correspondence.id_eq_of_core hcore).symm.trans hid)
  exact Correspondence.element_eq_of_core hcore s

/-- A frame stands for a pair that was there at the start, or has a new target. -/
theorem frame_cases (hf : f ∈ D) :
    (∃ c ∈ w₀.pairs.entries, c.id = f.id ∧ c.rule = f.rule.name ∧ c.elements = f.pair) ∨
    (w₀.pairs.next ≤ f.id.index ∧
      (w₀.graphs.on p.target).next ≤ (f.pair.on p.target).index) := by
  have hown := h.steady.owned f (by simpa using hf)
  rcases hown.recorded with ⟨c, hc, hid, _⟩ | ⟨hrule, hroots⟩
  · obtain ⟨hrule, hel⟩ := hown.entry c hc hid
    rcases h.grows.origin c hc with ⟨c₀, hc₀, hcore⟩ | ⟨_, hnew, htarget, _⟩
    · exact .inl ⟨c₀, hc₀, (Correspondence.id_eq_of_core hcore).symm.trans hid,
        (Correspondence.rule_eq_of_core hcore).symm.trans hrule,
        (Correspondence.elements_eq_of_core hcore).symm.trans hel⟩
    · rw [Correspondence.element, hel] at htarget
      exact .inr ⟨hid ▸ hnew, htarget⟩
  · -- the pair of the roots may be dropped after it was visited
    have hvisited : f.id ∈ w.visited := h.mem_visited.mpr (List.mem_map_of_mem hf)
    rcases h.went.paired f.id hvisited with hin | ⟨c, hc, hid, hinner, _⟩ | ⟨c, hc, hid, hanchor⟩
    · rw [h.outset.visited] at hin
      cases hin
    · obtain ⟨_, hel⟩ := hown.entry c hc hid
      refine absurd ?_ (h.steady.coherent.member c hc hinner)
      rw [Correspondence.element, hel, hroots, Sided.on_map]
    · obtain ⟨hrule₀, hel⟩ := h.outset.coherent.anchor c hc hanchor
      exact .inl ⟨c, hc, hid, hrule₀.trans hrule.symm, hel.trans hroots.symm⟩

/-- A pair that was there at the start and was visited is that of a frame. -/
theorem exists_frame (hc : c ∈ w₀.pairs.entries) (hv : c.id ∈ w.visited)
    (hr : p.rules.rule? c.rule = some r) :
    ∃ f ∈ D, f.id = c.id ∧ f.rule = r ∧ c.elements = f.pair := by
  obtain ⟨f, hf, hid⟩ := List.mem_map.mp (h.mem_visited.mp hv)
  have hl := h.outset.coherent.listed
  rcases h.frame_cases hf with ⟨c₀, hc₀, hid₀, hrule, hel⟩ | ⟨hnew, _⟩
  · obtain rfl := hl.eq_of_id hc₀ hc (hid₀.trans hid)
    refine ⟨f, hf, hid, ?_, hel⟩
    have hrule' := (h.steady.owned f (by simpa using hf)).rule
    rw [← hrule, hr] at hrule'
    exact (Option.some.inj hrule').symm
  · rw [hid] at hnew
    exact absurd (hl.bounded c hc) (Nat.not_lt_of_le hnew)

/-- One that was not visited shares its target with no frame. -/
theorem target_ne (hc : c ∈ w₀.pairs.entries) (hv : c.id ∉ w.visited) (hf : f ∈ D) :
    f.pair.on p.target ≠ c.element p.target := by
  intro he
  rcases h.frame_cases hf with ⟨c₀, hc₀, hid₀, _, hel⟩ | ⟨_, hnew⟩
  · obtain rfl :=
      h.outset.coherent.target_inj c₀ hc₀ c hc (by rw [Correspondence.element, hel, he])
    exact hv (h.mem_visited.mpr (hid₀ ▸ List.mem_map_of_mem hf))
  · rw [he] at hnew
    exact absurd (h.outset.coherent.target_lt c hc) (Nat.not_lt_of_le hnew)

/-- The counterpart of the member stands in the role of the pair, and the rule of their pair is to
be applied. -/
theorem linked (hc : c ∈ w₀.pairs.entries) (hv : c.id ∉ w.visited)
    (hl : p.scheme.Linked p.direction (· = c.id) p.source child c.elements m r' a w w₁) :
    p.Moves D w w₁ ∧ p.Steady [] D w₁ := by
  have hs := h.steady
  have hg := Grows.of_linked h.consistent hl
  have hacts : Acts p.scheme p.direction _ w.store w₁.store := hl.went.acts
  have hm : p.Moves D w w₁ := by
    refine ⟨hg, fun f hf => ?_, fun f hf b hb hid => ?_⟩
    · exact hl.element? _ (h.target_ne hc hv hf) ((hs.owned f (by simpa using hf)).live p.target)
    · rcases hl.origin b hb with hmem | rfl
      · exact hmem
      · rcases hl.new with hmem | ⟨hnew, _⟩
        · exact hmem
        · have hold := (hs.owned f (by simpa using hf)).old
          rw [← hid, hnew] at hold
          exact absurd hold (Nat.lt_irrefl _)
  refine ⟨hm, {
    coherent := p.coherent_of_acts hacts h.consistent hs.coherent
    source := hl.followed.trans hs.source
    alive := fun hi => absurd hi h.outset.loose
    ids_nodup := hs.ids_nodup
    targets_nodup := hs.targets_nodup
    visited := fun id => hl.visited ▸ hs.visited id
    owned := fun f hf => (hs.owned f hf).grows hs.sound hg
    finished := hs.finished.moved hm hs.sound fun _ hf => hf
    typed := fun hf => absurd hf h.outset.not_first
    anchored := fun hspare => absurd hspare.1 h.outset.loose
    rooted := fun hi => absurd hi h.outset.loose
    tally := fun hf => absurd hf h.outset.not_first }⟩

/-- The rule is applied to the new pair and to those that it leads to. A pair that is not visited
stays as it is. -/
theorem descend (hm : p.Moves D w w₁) (hs : p.Steady [] D w₁)
    (hl : p.scheme.Linked p.direction (· = c.id) p.source child c.elements m r a w w₁) :
    wp (start p.rules p.direction r a.id a.elements)
      (fun _ w' => (∃ D', p.Adding w₀ D' w') ∧ p.Grows w₁ w' ∧
      w.visited ⊆ w'.visited ∧ a.id ∈ w'.visited ∧
        ∀ b ∈ w'.pairs.entries, b.id ∉ w'.visited → b ∈ w₁.pairs.entries ∧
          w₁.store.Keeps w'.store b)
      (fun _ _ => True) w₁ := by
  have hk := hl.went.consistent
  have hcalled : p.Called w₁ [] ⟨a.id, r, a.elements⟩ := by
    refine .of_linked hl h.outset.not_first fun b hb hfresh => ?_
    rcases hl.origin b hb with hmem | rfl
    · exact .inl (hl.visited ▸ h.seen b hmem hfresh)
    · exact .inr rfl
  have htraces := Scheme.traces_start (d := p.direction) hk hl.rule hl.entry hl.live
  refine wp_mono (wp_and (p.start_applies D w₁ _ hs hcalled) htraces) ?_ fun _ _ _ => trivial
  intro _ w' hend
  obtain ⟨⟨D', _, hs', hm', hmem, hseen⟩, hwent⟩ := hend
  have hg := hm'.toGrows
  have hnext : p.Adding w₀ D' w' := ⟨h.outset, hs', hseen, (h.went.later hl.went).later hwent,
    (h.grows.trans hm.toGrows).trans hg⟩
  refine ⟨⟨D', hnext⟩, hg, fun _ hi => hwent.visited (hl.visited ▸ hi), ?_,
    fun b hb hv => ?_⟩
  · exact hnext.mem_visited.mpr (List.mem_map_of_mem hmem)
  · have hold :=
      Nat.lt_of_lt_of_le (hnext.old_of_not_visited hb hv) (h.grows.trans hm.toGrows).pairs_le
    refine p.keeps_of_acts hwent.acts hk hs.coherent hb hold fun hon => ?_
    exact hon.elim id fun hin => hv hin.1

/-- The member is given its counterpart for one pair of its owner, and keeps those that it has for
others. -/
theorem link (hc : c ∈ w₀.pairs.entries) (hr : p.rules.rule? c.rule = some r)
    (hchild : child ∈ r.children)
    (hm : m ∈ p.base.members (c.element p.source) (child.roles.on p.source))
    (earlier later : List ElementId) :
    wp (linkMember p.rules p.direction (start p.rules p.direction) child p.source
      (c.element p.target) earlier m later)
      (fun _ w' => (∃ D', p.Adding w₀ D' w') ∧ p.Given w' c.id child m ∧
        ∀ id child', p.Given w id child' m → p.Given w' id child' m) (fun _ _ => True) w := by
  by_cases hv : c.id ∈ w.visited
  · obtain ⟨f, hf, _, rfl, hel⟩ := h.exists_frame hc hv hr
    refine wp_mono (h.steady.link_done h.consistent hf hel hchild hm earlier later)
      (fun _ w' hw => ?_) fun _ _ _ => trivial
    subst hw
    exact ⟨⟨D, h⟩, fun _ _ _ => .inl hv, fun _ _ hgiven => hgiven⟩
  have hname := (RuleSet.mem_of_rule? hr).2
  refine Scheme.wp_linkMember (k := p.scheme) (V := (· = c.id)) h.consistent
    (fun hlive => h.went.names_of_entry h.outset.consistent hc hr hlive) (hname ▸ hr) rfl
    (List.mem_singleton_self _) hchild
    (h.steady.source ▸ hm) earlier later (fun _ => trivial) (fun _ _ => trivial)
    fun r' a w₁ hl => ?_
  obtain ⟨hmoves, hs⟩ := h.linked hc hv hl
  refine wp_imp (h.descend hmoves hs hl) fun _ w' hend => ?_
  obtain ⟨hnext, hg, hsub, ha, hkeeps⟩ := hend
  obtain ⟨D', hadding⟩ := hnext
  have hl₁ : w₁.pairs.Listed := hs.coherent.listed
  -- what an older pair that was not visited has got with the new member, it keeps
  have given {id : CorrespondenceId} {child' : Child}
      (hplaced : ∀ b ∈ w.pairs.entries, b.id = id → id ∉ w.visited →
      ∃ y, p.scheme.Placed w₁ w'.visited b child' p.source m y) : p.Given w' id child' m := by
    intro b hb hid
    by_cases hvisited : id ∈ w'.visited
    · exact .inl hvisited
    · obtain ⟨hb₁, hkeep⟩ := hkeeps b hb (hid ▸ hvisited)
      rcases hl.origin b hb₁ with hmem | rfl
      · obtain ⟨y, hy⟩ := hplaced b hmem hid fun hin => hvisited (hsub hin)
        exact .inr ⟨y, Placed.keeps hy hg hl₁ hadding.listed hs.sound hkeep⟩
      · exact absurd (hid ▸ ha) hvisited
  refine ⟨⟨D', hadding⟩, given fun b hb hid _ => ?_, fun id child' hgiven =>
    given fun b hb hid hvisited => ?_⟩
  · exact ⟨_, Placed.of_linked hl hmoves.toGrows h.steady.sound hs.coherent ha
      (h.element_of_old hc hb hid _) rfl⟩
  · obtain ⟨y, hy⟩ := (hgiven b hb hid).resolve_left hvisited
    exact Placed.linked (OneWay.Placed.mono hy hsub) hl hmoves.toGrows h.listed h.steady.sound
      hs.coherent ha

end Adding

/-- When a new member was carried over, it has its counterparts. -/
theorem Outset.carryAddition {e : ElementId} {role : RoleName} (h : p.Outset w) :
    wp (carryAddition p.rules p.direction p.source e role m) (fun _ w' => ∃ D, p.Adding w D w' ∧
      (m ∈ p.base.members e role → ∀ c ∈ w.pairs.entries, c.element p.source = e → ∀ r,
        p.rules.rule? c.rule = some r →
        ∀ child ∈ r.childrenOn p.source role, p.Given w' c.id child m))
        (fun _ _ => True) w := by
  let I (w' : State) : Prop := ∃ D, p.Adding w D w'
  let G (id : CorrespondenceId) (w' : State) : Prop :=
    ∀ c ∈ w.pairs.entries, c.id = id → ∀ r,
    p.rules.rule? c.rule = some r → ∀ child ∈ r.childrenOn p.source role,
      p.Given w' id child m
  apply wp_carryAddition (h.consistent.sound p.source)
  · intro hmoot
    rw [h.source] at hmoot
    exact ⟨[], h.adding, fun hm => absurd hm hmoot⟩
  intro earlier later hsplit
  have hm : m ∈ p.base.members e role := by
    rw [← h.source, hsplit]
    simp
  refine wp_imp (wp_forM_each (I := I) (G := G) (fun id hid w₁ hw₁ => ?_) ⟨[], h.adding⟩)
    fun _ w' hend => ?_
  · obtain ⟨D₁, h₁⟩ := hw₁
    refine h₁.went.wp_eachPair h.consistent hid (fun hgone => ?_)
      fun c hc hi he r hr c' _ hcore => ?_
    · exact ⟨⟨D₁, h₁⟩, fun _ _ _ _ _ _ _ b hb hib => absurd hib (hgone b hb),
        fun _ hg => hg⟩
    have hel := Correspondence.element_eq_of_core hcore p.target
    refine wp_imp
      (wp_forM_each
      (I := fun w₂ => I w₂ ∧ ∀ id' child, p.Given w₁ id' child m →
        p.Given w₂ id' child m)
      (G := fun child w₂ => p.Given w₂ id child m)
      (fun child hchild w₂ hw₂ => ?_) ⟨⟨D₁, h₁⟩, fun _ _ hg => hg⟩)
      fun _ w₂ hw₂ => ?_
    · obtain ⟨⟨D₂, h₂⟩, hkept⟩ := hw₂
      obtain ⟨hin, hrole⟩ := Rule.mem_childrenOn.mp hchild
      rw [wp_bind, OneWay.source_other, hel]
      refine wp_imp (h₂.link hc hr hin ?_ earlier later) fun _ w₃ hw₃ => ?_
      · rwa [he, hrole]
      · obtain ⟨hnext, hgiven, hkept'⟩ := hw₃
        exact ⟨⟨hnext, fun id' child' hg => hkept' id' child' (hkept id' child' hg)⟩,
          hi ▸ hgiven, hkept' id⟩
    · obtain ⟨⟨hnext, hkept⟩, hgiven⟩ := hw₂
      refine ⟨hnext, fun b hb hib r' hr' child hchild => ?_,
        fun id' hg b hb hib r' hr' child hchild => ?_⟩
      · obtain rfl := h.coherent.listed.eq_of_id hb hc (hib.trans hi.symm)
        obtain rfl : r = r' := Option.some.inj (hr.symm.trans hr')
        exact hgiven child hchild
      · exact hkept id' child (hg b hb hib r' hr' child hchild)
  · obtain ⟨⟨D, hadding⟩, hgiven⟩ := hend
    refine ⟨D, hadding, fun _ c hc he r hr child hchild => ?_⟩
    exact hgiven c.id (Correspondences.mem_handles.mpr ⟨c, hc, he, rfl⟩)
      c hc rfl r hr child hchild

end Pass

end GraphSync
