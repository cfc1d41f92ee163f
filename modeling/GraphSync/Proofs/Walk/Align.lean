import GraphSync.Proofs.Correspondence.Order
import GraphSync.Proofs.Walk.Anchor
import GraphSync.Proofs.Walk.Apart
import GraphSync.Proofs.Walk.Steps

namespace GraphSync

open Walk

variable {k : OneWay} {a b : Store} {V : CorrespondenceId → Prop} {w w' : State}
  {id : CorrespondenceId} {rule r : Rule} {pair : Sided ElementId} {child : Child} {m : ElementId}
  {c : Correspondence} {earlier later : List ElementId} {apply : Apply}
  {R : ElementId → RoleName → Prop}

/-- The members that the element of a pair has on side `s` in the role of a child. -/
def Store.role (a : Store) (c : Correspondence) (child : Child) (s : Side) : List ElementId :=
  (a.graphs.on s).members (c.element s) (child.roles.on s)

namespace OneWay

/-- Wherever a recorded pair lets a role of the target side mirror another one, the target root is
none of the counterparts, and these are in order if `R` holds of the role. The source root keeps a
pair under the root rule, so that a pass pairs no roots afresh. -/
structure Aligned (k : OneWay) (R : ElementId → RoleName → Prop) (a : Store) : Prop where
  apart : a.Apart k.target
  inner : ∀ c ∈ a.pairs.entries, c.isAnchor = false →
    c.element k.target ≠ (a.graphs.on k.target).root
  rooted : ∃ c ∈ a.pairs.entries, c.rule = k.rootRule ∧
    c.element k.source = (a.graphs.on k.source).root
  bare : ∀ c ∈ a.pairs.entries, ∀ r, k.rules.rule? c.rule = some r →
    ∀ child ∈ r.children,
    ∀ c' ∈ a.pairs.entries, c'.isAnchor = true →
      c'.element k.target ∉ a.role c child k.target
  ordered : ∀ c ∈ a.pairs.entries, ∀ r, k.rules.rule? c.rule = some r →
    ∀ child ∈ r.children, R (c.element k.target) (child.roles.on k.target) →
      a.pairs.InOrder k.source (a.role c child k.source) (a.role c child k.target)

/-- At most members leave roles of the target side, and pairs the record. -/
structure Thins (k : OneWay) (a b : Store) : Prop where
  source : (b.graphs.on k.source).members = (a.graphs.on k.source).members
  target : ∀ x role,
    ((b.graphs.on k.target).members x role).Sublist ((a.graphs.on k.target).members x role)
  origin : ∀ c ∈ b.pairs.entries, ∃ c₀ ∈ a.pairs.entries, c.core = c₀.core

theorem Thins.partners (h : k.Thins a b) {x y : ElementId}
    (hy : y ∈ b.pairs.partners k.source x) : y ∈ a.pairs.partners k.source x := by
  obtain ⟨c, hc, hcx, hcy⟩ := Correspondences.mem_partners.mp hy
  obtain ⟨c₀, hc₀, hcore⟩ := h.origin c hc
  have hel := Correspondence.element_eq_of_core hcore
  exact Correspondences.mem_partners.mpr
    ⟨c₀, hc₀, (hel _).symm.trans hcx, (hel _).symm.trans hcy⟩

theorem Aligned.thin (h : k.Aligned R a) (ht : k.Thins a b) (hl : b.pairs.Listed)
    (hroot : ∃ c ∈ b.pairs.entries, c.rule = k.rootRule ∧
      c.element k.source = (b.graphs.on k.source).root) :
    k.Aligned R b := by
  have role (c c₀ : Correspondence) (hcore : c.core = c₀.core) (child : Child) :
      b.role c child k.source = a.role c₀ child k.source ∧
      (b.role c child k.target).Sublist (a.role c₀ child k.target) := by
    unfold Store.role
    rw [Correspondence.element_eq_of_core hcore, Correspondence.element_eq_of_core hcore, ht.source]
    exact ⟨rfl, ht.target _ _⟩
  refine ⟨h.apart.of_origin hl ht.origin, fun c hc hi => ?_, hroot,
    fun c hc r hr child hchild c' hc' hi => ?_, fun c hc r hr child hchild hR => ?_⟩
  · obtain ⟨c₀, hc₀, hcore⟩ := ht.origin c hc
    rw [Correspondence.element_eq_of_core hcore]
    exact h.inner c₀ hc₀ ((Correspondence.isAnchor_eq_of_core hcore).symm.trans hi)
  · obtain ⟨c₀, hc₀, hcore⟩ := ht.origin c hc
    obtain ⟨c₁, hc₁, hcore'⟩ := ht.origin c' hc'
    rw [Correspondence.element_eq_of_core hcore']
    refine fun hin =>
      h.bare c₀ hc₀ r (Correspondence.rule_eq_of_core hcore ▸ hr) child hchild c₁ hc₁
      ((Correspondence.isAnchor_eq_of_core hcore').symm.trans hi)
        ((role c c₀ hcore child).2.subset hin)
  · obtain ⟨c₀, hc₀, hcore⟩ := ht.origin c hc
    obtain ⟨hsource, htarget⟩ := role c c₀ hcore child
    rw [Correspondence.element_eq_of_core hcore] at hR
    rw [hsource]
    exact (h.ordered c₀ hc₀ r (Correspondence.rule_eq_of_core hcore ▸ hr) child hchild hR).mono
      htarget fun _ _ _ hy => ht.partners hy

/-- Only the members of roles play a part. -/
theorem Aligned.congr (h : k.Aligned R a) (hl : b.pairs.Listed) (hp : b.pairs = a.pairs)
    (hm : ∀ s, (b.graphs.on s).members = (a.graphs.on s).members) : k.Aligned R b := by
  obtain ⟨c, hc, hrule, hroot⟩ := h.rooted
  refine h.thin ⟨hm _, fun x role => hm _ ▸ .refl _, fun c hc => ⟨c, hp ▸ hc, rfl⟩⟩ hl
    ⟨c, hp.symm ▸ hc, hrule, hroot⟩

/-- A pair on behalf of which something is written is the one that its target element has. -/
theorem eq_of_names (hapart : a.Apart k.target)
    (hinner : ∀ c ∈ a.pairs.entries, c.isAnchor = false →
      c.element k.target ≠ (a.graphs.on k.target).root)
    (hn : a.Names id rule pair) (hc : c ∈ a.pairs.entries)
    (he : c.element k.target = pair.on k.target) : c.rule = rule.name ∧ c.elements = pair := by
  rcases hn.recorded with ⟨c₁, hc₁, hi, _⟩ | ⟨hroot, hanchor⟩
  · have hel := (hn.entry c₁ hc₁ hi).2
    rw [hapart c hc c₁ hc₁ (he.trans (congrArg (·.on k.target) hel).symm)]
    exact hn.entry c₁ hc₁ hi
  · refine hn.entry c hc (hanchor c hc ?_)
    cases hi : c.isAnchor with
    | true => rfl
    | false => exact absurd (he.trans (by rw [hroot, Sided.on_map])) (hinner c hc hi)

section Linked

variable (h : k.Aligned R w.store) (hk : k.scheme.Consistent w.graphs w.pairs)
  (hl : k.scheme.Linked k.direction V k.source child pair m r c w w')

include hk hl

/-- The pair of the new counterpart was recorded, or its counterpart is a new element. -/
theorem mem_or_dead_of_linked :
    c ∈ w.pairs.entries ∨ (w.graphs.on k.target).contains (c.element k.target) = false := by
  refine hl.new.imp_right fun ⟨_, hy⟩ => ?_
  rw [← source_other, hy]
  exact (hk.sound _).fresh

/-- What was live has no new partners. -/
theorem partners_of_linked {x y : ElementId} (hy : (w.graphs.on k.target).contains y = true)
    (hx : y ∈ w'.pairs.partners k.source x) : y ∈ w.pairs.partners k.source x := by
  obtain ⟨e, he, hex, hey⟩ := Correspondences.mem_partners.mp hx
  refine Correspondences.mem_partners.mpr ⟨e, ?_, hex, hey⟩
  rcases hl.origin e he with he | rfl
  · exact he
  rcases mem_or_dead_of_linked hk hl with hc | hdead
  · exact hc
  · rw [show e.element k.target = y from hey, hy] at hdead
    cases hdead

include h

theorem inner_of_linked : ∀ e ∈ w'.pairs.entries, e.isAnchor = false →
    e.element k.target ≠ (w'.graphs.on k.target).root := by
  intro e he hi
  rcases hl.origin e he with he | rfl
  · exact h.inner e he hi
  rcases mem_or_dead_of_linked hk hl with hc | hdead
  · exact h.inner e hc hi
  · intro hroot
    rw [hroot] at hdead
    exact Bool.noConfusion (hdead.symm.trans (hk.sound k.target).root_live)

theorem apart_of_linked : w'.store.Apart k.target :=
  k.apart_of_acts hl.went.acts hk h.apart

omit hk in
theorem rooted_of_linked : ∃ e ∈ w'.pairs.entries, e.rule = k.rootRule ∧
    e.element k.source = (w'.graphs.on k.source).root := by
  obtain ⟨e, he, hrule, hroot⟩ := h.rooted
  rcases hl.kept e he with he | ⟨_, hsame, hm, _⟩
  · exact ⟨e, he, hrule, hroot⟩
  · exact ⟨c, hl.entry, hsame.symm.trans hrule, hl.member.trans (hm.symm.trans hroot)⟩

variable (hs : Scheme.Slotted k.source child pair earlier later c w w')

include hs

/-- A role that mirrors another one for a recorded pair is that of the new counterpart, or it is as
it was. -/
theorem role_of_linked (hroles : k.rules.UniqueRoles k.target) (hn : w.store.Names id rule pair)
    (hr : k.rules.rule? rule.name = some rule) (hchild : child ∈ rule.children)
    {e : Correspondence} (he : e ∈ w'.pairs.entries) {r' : Rule}
    (hr' : k.rules.rule? e.rule = some r') {child' : Child} (hchild' : child' ∈ r'.children) :
    (e ∈ w.pairs.entries ∧ e.elements = pair ∧ child' = child) ∨
      (w'.store.role e child' k.target = w.store.role e child' k.target ∧
        (e ∈ w.pairs.entries ∨ w.store.role e child' k.target = [])) := by
  have hnew := mem_or_dead_of_linked hk hl
  by_cases howned : e.element k.target = pair.on k.target
  · obtain ⟨hrule, hel⟩ :=
      eq_of_names (apart_of_linked h hk hl) (inner_of_linked h hk hl) (hl.went.acts.names hk hn)
      he howned
    obtain rfl : rule = r' := Option.some.inj (hr.symm.trans (hrule ▸ hr'))
    have hmem : e ∈ w.pairs.entries := by
      rcases hl.origin e he with he | rfl
      · exact he
      · exact hnew.resolve_right fun hdead => hn.absurd_dead hk (howned ▸ hdead)
    by_cases hrole : child'.roles.on k.target = child.roles.on k.target
    · exact .inl ⟨hmem, hel,
        List.inj_on_of_nodup_map (hroles rule (RuleSet.mem_of_rule? hr).1) hchild' hchild hrole⟩
    · refine .inr ⟨?_, .inl hmem⟩
      have hmembers := hl.members (child'.roles.on k.target) hrole
      unfold Store.role
      rw [howned]
      exact hmembers
  · refine .inr ⟨hs.members_of_ne _ howned _, ?_⟩
    rcases hl.origin e he with he | rfl
    · exact .inl he
    refine hnew.imp_right fun hdead => List.eq_nil_iff_forall_not_mem.mpr fun y hy => ?_
    exact Bool.noConfusion (hdead.symm.trans (Graph.contains_of_mem_members hy))

/-- The new counterpart stands after those of earlier members and before those of later ones. -/
theorem inOrder_of_linked
      (hms : (w.graphs.on k.source).members (pair.on k.source) (child.roles.on k.source) =
      earlier.reverse ++ m :: later) {e : Correspondence} (he : e ∈ w.pairs.entries)
    (hpair : e.elements = pair) (hr : k.rules.rule? e.rule = some rule)
    (hchild : child ∈ rule.children) (hR : R (e.element k.target) (child.roles.on k.target)) :
    w'.pairs.InOrder k.source (w.store.role e child k.source) (w'.store.role e child k.target) := by
  subst hpair
  obtain ⟨t, hsub, _, hfrom, hplaced⟩ := hs.placed
  have hrole : w'.store.role e child k.target =
      t.placed k.source (w.store.role e child k.target) earlier later (c.element k.target) :=
        hplaced
  have hin := h.ordered e he rule hr child hchild hR
  have hlive {z : ElementId} (hz : z ∈ w.store.role e child k.target) :
      (w.graphs.on k.target).contains z = true :=
    (hk.sound _).members_live _ _ z hz
  have hpartners {z x : ElementId} (hz : z ∈ t.partners k.source x) :
      z ∈ w.pairs.partners k.source x := by
    obtain ⟨e', he', hex, hey⟩ := Correspondences.mem_partners.mp hz
    exact Correspondences.mem_partners.mpr ⟨e', hsub he', hex, hey⟩
  rw [hrole]
  unfold Correspondences.placed
  split
  · exact hin.mono (.refl _) fun z hz x hx => partners_of_linked hk hl (hlive hz) hx
  rename_i hout
  refine (hin.mono (.refl _) fun z _ x hx => hpartners hx).insertIdx hms
    ((hk.sound _).members_nodup _ _) ?_ ?_ ?_ ?_
  · -- a counterpart of the member in the role would have been found
    intro z hz hzin
    obtain ⟨e', he', hm', rfl⟩ := Correspondences.mem_partners.mp (hpartners hz)
    cases hi : e'.isAnchor with
    | true => exact h.bare e he rule hr child hchild e' he' hi hzin
    | false => exact hout (hl.oldest e' ⟨he', hi, hm', hlive hzin⟩ hzin).1
  · exact fun z _ x x' hx hx' => h.apart.partner_unique (hpartners hx) (hpartners hx')
  · intro z hz x hx
    obtain ⟨e', he', hex, hey⟩ := Correspondences.mem_partners.mp hx
    rcases hfrom e' he' with he' | rfl
    · exact Correspondences.mem_partners.mpr ⟨e', he', hex, hey⟩
    · exact absurd (hey ▸ hz) hout
  · intro x hx
    obtain ⟨e', he', hex, hey⟩ := Correspondences.mem_partners.mp hx
    rw [← hex, apart_of_linked h hk hl e' he' c hl.entry hey, hl.member]

/-- A member that is linked to its counterpart leaves the counterparts in order. -/
theorem Aligned.linked (hroles : k.rules.UniqueRoles k.target) (hn : w.store.Names id rule pair)
    (hr : k.rules.rule? rule.name = some rule) (hchild : child ∈ rule.children)
    (hms : (w.graphs.on k.source).members (pair.on k.source) (child.roles.on k.source) =
      earlier.reverse ++ m :: later) : k.Aligned R w'.store := by
  have hcases (e : Correspondence) (he : e ∈ w'.pairs.entries) (r' : Rule)
      (hr' : k.rules.rule? e.rule = some r') (child' : Child) (hchild' : child' ∈ r'.children) :=
    role_of_linked h hk hl hs hroles hn hr hchild he hr' hchild'
  have hinner := inner_of_linked h hk hl
  refine ⟨apart_of_linked h hk hl, hinner, rooted_of_linked h hl, ?_, ?_⟩
  · intro e he r' hr' child' hchild' e' he' hi hin
    have hbare (hmem : e ∈ w.pairs.entries) :
        e'.element k.target ∉ w.store.role e child' k.target := by
      rcases hl.origin e' he' with he' | rfl
      · exact h.bare e hmem r' hr' child' hchild' e' he' hi
      · exact Bool.noConfusion (hl.inner.symm.trans hi)
    rcases hcases e he r' hr' child' hchild' with ⟨hmem, rfl, rfl⟩ | ⟨hsame, hmem | hnil⟩
    · rcases (hl.mem_role _).mp hin with heq | hin
      · have hroot : e'.element k.target = (w'.graphs.on k.target).root := by
          rw [Correspondence.element, (hl.went.consistent.anchor e' he' hi).2, Sided.on_map]
        exact hinner c hl.entry hl.inner (heq.symm.trans hroot)
      · exact hbare hmem hin
    · exact hbare hmem (hsame ▸ hin)
    · rw [hsame, hnil] at hin
      cases hin
  · intro e he r' hr' child' hchild' hR
    have hsource : w'.store.role e child' k.source = w.store.role e child' k.source :=
      congrArg (fun g : Graph => g.members _ _) hl.followed
    rw [hsource]
    rcases hcases e he r' hr' child' hchild' with ⟨hmem, hpair, rfl⟩ | ⟨hsame, hmem | hnil⟩
    · exact inOrder_of_linked h hk hl hs hms hmem hpair hr' hchild' hR
    · rw [hsame]
      refine (h.ordered e hmem r' hr' child' hchild' hR).mono (.refl _) fun z hz x hx =>
        partners_of_linked hk hl ?_ hx
      exact (hk.sound _).members_live _ _ z hz
    · rw [hsame, hnil]
      exact .nil

end Linked

/-- At most members leave roles of the target side; the pairs stay. -/
structure Trims (k : OneWay) (a b : Store) : Prop extends k.Thins a b where
  kept : ∀ c ∈ a.pairs.entries, ∃ c' ∈ b.pairs.entries, c'.core = c.core

theorem Trims.refl (k : OneWay) (a : Store) : k.Trims a a :=
  ⟨⟨rfl, fun _ _ => .refl _, fun c hc => ⟨c, hc, rfl⟩⟩, fun c hc => ⟨c, hc, rfl⟩⟩

theorem Trims.trans {b' : Store} (h : k.Trims a b) (h' : k.Trims b b') : k.Trims a b' := by
  refine ⟨⟨h'.source.trans h.source, fun x role => (h'.target x role).trans (h.target x role),
    fun c hc => ?_⟩, fun c hc => ?_⟩
  · obtain ⟨c₁, hc₁, hcore₁⟩ := h'.origin c hc
    obtain ⟨c₀, hc₀, hcore₀⟩ := h.origin c₁ hc₁
    exact ⟨c₀, hc₀, hcore₁.trans hcore₀⟩
  · obtain ⟨c₁, hc₁, hcore₁⟩ := h.kept c hc
    obtain ⟨c₂, hc₂, hcore₂⟩ := h'.kept c₁ hc₁
    exact ⟨c₂, hc₂, hcore₂.trans hcore₁⟩

theorem Aligned.trim (h : k.Aligned R a) (ht : k.Trims a b) (hl : b.pairs.Listed) :
    k.Aligned R b := by
  obtain ⟨c, hc, hrule, hroot⟩ := h.rooted
  obtain ⟨c', hc', hcore⟩ := ht.kept c hc
  refine h.thin ht.toThins hl ⟨c', hc', (Correspondence.rule_eq_of_core hcore).trans hrule, ?_⟩
  rw [Correspondence.element_eq_of_core hcore]
  exact hroot

/-- A binding concerns no role. -/
theorem trims_applyBinding (rule : RuleName) (id : CorrespondenceId) (pair : Sided ElementId)
    (b : Binding) (index : Nat) (w : State) :
    wp (applyBinding k.direction rule id pair b index) (fun _ w' => k.Trims w.store w'.store)
      (fun _ w' => k.Trims w.store w'.store) w := by
  have remembered (graphs : Sided Graph)
      (hsource : (graphs.on k.source).members = (w.graphs.on k.source).members)
      (htarget : ∀ x role, (graphs.on k.target).members x role =
        (w.graphs.on k.target).members x role) (values : Shadow) :
      k.Trims w.store ⟨graphs, w.pairs.recordShadow id index values⟩ := by
    refine ⟨⟨hsource, fun x role => htarget x role ▸ .refl _, fun c hc => ?_⟩,
      fun c hc => ?_⟩
    · obtain ⟨c₀, hc₀, hcore, _⟩ := (Correspondences.Touches.recordShadow _ _ _ _).old c hc
      exact ⟨c₀, hc₀, hcore⟩
    · exact (Correspondences.Touches.recordShadow _ _ _ _).kept c hc
  refine wp_applyBinding (fun _ _ _ => .refl k _) ?_ ?_
  · intro _ _
    split
    · exact remembered w.graphs rfl (fun _ _ => rfl) _
    · exact .refl k _
  · intro _ _ g' hg
    refine remembered _ ?_ (fun x role => ?_) _
    · rw [Sided.on_put_of_ne _ _ k.target_ne_source.symm]
    · rw [Sided.on_put_self, hg.members_setValue]

theorem trims_unlinkStale (hs : (w.graphs.on k.target).Sound) (child : Child) (owner : ElementId)
    (partners : List ElementId) :
    wp (unlinkStale child k.source owner partners) (fun _ w' => k.Trims w.store w'.store)
      (fun _ w' => k.Trims w.store w'.store) w := by
  refine wp_unlinkStale hs (fun _ _ => .refl k _) fun _ g' report hg _ => ?_
  refine ⟨⟨?_, fun x role => ?_, fun c hc => ⟨c, hc, rfl⟩⟩,
    fun c hc => ⟨c, hc, rfl⟩⟩
  · exact congrArg Graph.members (Sided.on_put_of_ne _ _ k.target_ne_source.symm)
  · change (((w.graphs.put k.target g').on k.target).members x role).Sublist _
    rw [Sided.on_put_self, hg.members]
    split
    · rename_i he
      rw [he.1, he.2]
      exact List.filter_sublist
    · exact .refl _

/-- However the walk ends, the counterparts are in order. -/
def Aligns {α : Type} (k : OneWay) (R : ElementId → RoleName → Prop) (x : Walk α)
    (w : State) : Prop :=
  wp x (fun _ w' => k.scheme.Went k.direction (fun _ => True) w w' ∧ k.Aligned R w'.store)
    (fun _ w' => k.Aligned R w'.store) w

namespace Aligns

variable {α β : Type}

theorem pure (hk : k.scheme.Consistent w.graphs w.pairs) (h : k.Aligned R w.store) (a : α) :
    k.Aligns R (Pure.pure a : Walk α) w := ⟨.refl hk, h⟩

theorem bind {x : Walk β} {f : β → Walk α} (hx : k.Aligns R x w)
    (hf : ∀ b w', k.scheme.Went k.direction (fun _ => True) w w' → k.Aligned R w'.store →
      k.Aligns R (f b) w') :
    k.Aligns R (x >>= f) w := by
  rw [Aligns, wp_bind]
  refine wp_imp hx fun b w' hw => ?_
  exact wp_imp (hf b w' hw.1 hw.2) fun _ _ hw' => ⟨hw.1.trans hw'.1, hw'.2⟩

theorem forM {f : α → Walk Unit} {l : List α} (hk : k.scheme.Consistent w.graphs w.pairs)
    (h : k.Aligned R w.store)
    (hf : ∀ a ∈ l, ∀ w', k.scheme.Went k.direction (fun _ => True) w w' →
      k.Aligned R w'.store → k.Aligns R (f a) w') :
    k.Aligns R (l.forM f) w := by
  refine wp_forM_keep (I := fun w' => k.scheme.Went k.direction (fun _ => True) w w' ∧
    k.Aligned R w'.store) ?_ ⟨.refl hk, h⟩
  intro a ha w' hw
  exact wp_imp (hf a ha w' hw.1 hw.2) fun _ _ hw' => ⟨hw.1.trans hw'.1, hw'.2⟩

/-- What only trims the target side leaves the counterparts in order. -/
theorem of_trims {x : Walk α} {P : Error → Prop} (h : k.Aligned R w.store)
    (ht : k.scheme.Traces k.direction (fun _ => True) P x w)
    (htrims : wp x (fun _ w' => k.Trims w.store w'.store) (fun _ w' => k.Trims w.store w'.store)
      w) : k.Aligns R x w :=
  wp_mono (wp_and ht htrims) (fun _ _ hw => ⟨hw.1, h.trim hw.2 hw.1.consistent.listed⟩)
    fun _ _ hw => h.trim hw.2 hw.1.1.consistent.listed

end Aligns

/-- A rule may be applied to every recorded pair with live elements. -/
def AlignsAll (k : OneWay) (R : ElementId → RoleName → Prop) (apply : Apply) : Prop :=
  ∀ (r : Rule) (c : Correspondence) (w : State), k.rules.rule? c.rule = some r →
    k.scheme.Consistent w.graphs w.pairs → c ∈ w.pairs.entries →
      (∀ s, (w.graphs.on s).contains (c.element s) = true) →
      k.Aligned R w.store → k.Aligns R (apply r c.id c.elements) w

section Apply

variable (happly : k.AlignsAll R apply) (hroles : k.rules.UniqueRoles k.target)
  (hr : k.rules.rule? rule.name = some rule)

include happly hroles hr

/-- Only the name of the pair is asked for if both its elements live. -/
theorem aligns_linkMember (hk : k.scheme.Consistent w.graphs w.pairs) (h : k.Aligned R w.store)
    (hn : (∀ s, (w.graphs.on s).contains (pair.on s) = true) → w.store.Names id rule pair)
    (hchild : child ∈ rule.children)
    (hms : (w.graphs.on k.source).members (pair.on k.source) (child.roles.on k.source) =
      earlier.reverse ++ m :: later) :
    k.Aligns R
      (linkMember k.rules k.direction apply child k.source (pair.on k.source.other) earlier m later)
      w := by
  have hm : m ∈ (w.graphs.on k.source).members (pair.on k.source) (child.roles.on k.source) := by
    rw [hms]; simp
  refine Scheme.wp_linkMember_slotted (k := k.scheme) (V := fun _ => True) hk hn hr trivial
    (List.mem_singleton_self _) hchild hm earlier later (fun _ => h) (fun _ _ => h) ?_
  intro r c w₁ hl hs
  have hn' : w.store.Names id rule pair := by
    refine hn fun s => ?_
    rcases k.side_cases s with rfl | rfl
    · exact Graph.contains_of_mem_members hm
    · exact hs.owner
  have h₁ := Aligned.linked h hk hl hs hroles hn' hr hchild hms
  exact wp_imp (happly r c w₁ hl.rule hl.went.consistent hl.entry hl.live h₁)
    fun _ _ hw => ⟨hl.went.trans hw.1, hw.2⟩

theorem aligns_linkMembers (hchild : child ∈ rule.children)
    (ms earlier : List ElementId) {w : State} (hk : k.scheme.Consistent w.graphs w.pairs)
    (h : k.Aligned R w.store) (hn : w.store.Names id rule pair)
    (hms : (w.graphs.on k.source).members (pair.on k.source) (child.roles.on k.source) =
      earlier.reverse ++ ms) :
    k.Aligns R
      (linkMembers k.rules k.direction apply child k.source (pair.on k.source.other) earlier ms)
      w := by
  induction ms generalizing earlier w with
  | nil => exact .pure hk h _
  | cons m later ih =>
    refine .bind (aligns_linkMember happly hroles hr hk h (fun _ => hn) hchild hms)
      fun _ w₁ hw₁ h₁ => ?_
    have hsource : w₁.graphs.on k.source = w.graphs.on k.source := hw₁.acts.source
    refine .bind (ih (m :: earlier) hw₁.consistent h₁ (hw₁.acts.names hk hn) ?_)
      fun _ _ hw₂ h₂ => .pure hw₂.consistent h₂ _
    rw [hsource, hms]
    simp

theorem aligns_syncRole (hk : k.scheme.Consistent w.graphs w.pairs) (h : k.Aligned R w.store)
    (hn : w.store.Names id rule pair) (hchild : child ∈ rule.children) :
    k.Aligns R (syncRole k.rules k.direction apply child k.source pair) w := by
  have hlive : (w.graphs.on k.source).contains (pair.on k.source) = true :=
    hn.live hk.sound k.source
  rw [Aligns, syncRole, wp_bind, wp_graph, wp_bind, wp_liftGraph, Graph.references_eq, if_pos hlive]
  refine Aligns.bind (aligns_linkMembers happly hroles hr hchild _ [] hk h hn rfl)
    fun ys w₁ hw₁ h₁ => ?_
  split
  · rename_i hforced
    have htraces := Scheme.traces_unlinkStale (V := fun _ => True) (P := fun _ => True) hr trivial
      (List.mem_singleton_self k.source) hforced hchild hw₁.consistent (hw₁.acts.names hk hn) ys
    exact .of_trims h₁ htraces (trims_unlinkStale (hw₁.consistent.sound k.target) child _ ys)
  · exact .pure hw₁.consistent h₁ _

theorem aligns_applyParts (hk : k.scheme.Consistent w.graphs w.pairs) (h : k.Aligned R w.store)
    (hn : w.store.Names id rule pair) :
    k.Aligns R (applyParts k.rules k.direction apply rule id pair) w := by
  refine .bind (.forM hk h fun bi hbi w₁ hw₁ h₁ => ?_) fun _ w₁ hw₁ h₁ => ?_
  · have hn₁ := hw₁.acts.names hk hn
    have htraces := Scheme.traces_applyBinding (d := k.direction) (V := fun _ => True)
      (P := fun _ => True) hw₁.consistent (fun _ => hn₁) (fun _ _ => trivial) hr trivial hbi
    exact .bind (.of_trims h₁ htraces (trims_applyBinding _ _ _ _ _ w₁)) fun _ _ hw₂ h₂ =>
      .pure hw₂.consistent h₂ _
  · have hn₁ := hw₁.acts.names hk hn
    refine .forM hw₁.consistent h₁ fun child hchild w₂ hw₂ h₂ =>
      .forM hw₂.consistent h₂ fun auth hauth w₃ hw₃ h₃ => ?_
    obtain rfl : auth = k.source := List.mem_singleton.mp hauth
    exact aligns_syncRole happly hroles hr hw₃.consistent h₃
      ((hw₂.trans hw₃).acts.names hw₁.consistent hn₁) hchild

end Apply

theorem alignsAll_applyRule (hroles : k.rules.UniqueRoles k.target) (fuel : Nat)
    (path : List CorrespondenceId) : k.AlignsAll R (applyRule k.rules k.direction fuel path) := by
  induction fuel generalizing path with
  | zero => exact fun _ _ _ _ _ _ _ h => h
  | succ fuel ih =>
    intro r c w hr hk hc hl h
    have hname := (RuleSet.mem_of_rule? hr).2
    have hn : w.store.Names c.id r c.elements := .of_entry hk hc hl hr
    rw [Aligns, applyRule, wp_ite]
    split
    · exact h
    · rw [wp_bind, wp_get, wp_ite]
      split
      · exact ⟨.refl hk, h⟩
      · rename_i hnew
        rw [wp_bind, wp_modify]
        refine wp_imp
          (aligns_applyParts (w := { w with visited := c.id :: w.visited })
          (ih (c.id :: path)) hroles (hname ▸ hr) hk h hn) ?_
        rintro _ w' ⟨hw, h'⟩
        exact ⟨(Scheme.Went.mark hk hc hl hnew).trans hw, h'⟩

theorem alignsAll_start (hroles : k.rules.UniqueRoles k.target) :
    k.AlignsAll R (start k.rules k.direction) := by
  intro r c w hr hk hc hl h
  rw [Aligns, start, wp_bind, wp_get]
  exact alignsAll_applyRule hroles _ [] r c w hr hk hc hl h

end OneWay

end GraphSync
