import GraphSync.Proofs.Walk.Went

namespace GraphSync

open Walk

namespace Scheme

variable {k : Scheme} {d : Direction} {V : CorrespondenceId → Prop} {w w' : State}
  {id : CorrespondenceId} {rule r : Rule} {pair : Sided ElementId} {child : Child} {auth : Side}
  {apply : Apply} {m : ElementId} {c : Correspondence}

/-- The pair `c` of `m` is recorded under `r`, and its other element is in the role of `pair` on the
side that follows. A pair that had to make way for it was that of the roots or had lost its other
element. -/
structure Linked (k : Scheme) (d : Direction) (V : CorrespondenceId → Prop) (auth : Side)
    (child : Child) (pair : Sided ElementId) (m : ElementId) (r : Rule) (c : Correspondence)
    (w w' : State) : Prop where
  went : k.Went d V w w'
  entry : c ∈ w'.pairs.entries
  inner : c.isAnchor = false
  member : c.element auth = m
  rule : k.rules.rule? c.rule = some r
  live : ∀ s, (w'.graphs.on s).contains (c.element s) = true
  kept : ∀ a ∈ w.pairs.entries, a ∈ w'.pairs.entries ∨
    (c.id = ⟨w.pairs.next⟩ ∧ a.rule = c.rule ∧ a.element auth = m ∧
      (a.isAnchor = true ∨ (w.graphs.on auth.other).contains (a.element auth.other) = false))
  origin : ∀ a ∈ w'.pairs.entries, a ∈ w.pairs.entries ∨ a = c
  new : c ∈ w.pairs.entries ∨
    (c.id = ⟨w.pairs.next⟩ ∧ c.element auth.other = ⟨(w.graphs.on auth.other).next⟩)
  oldest : ∀ a, w.pairs.Candidate auth (w.graphs.on auth.other) m a →
    a.element auth.other ∈ (w.graphs.on auth.other).members (pair.on auth.other)
      (child.roles.on auth.other) →
      c.element auth.other ∈ (w.graphs.on auth.other).members (pair.on auth.other)
        (child.roles.on auth.other) ∧ c.id.index ≤ a.id.index
  followed : w'.graphs.on auth = w.graphs.on auth
  element? : ∀ x, x ≠ pair.on auth.other → (w.graphs.on auth.other).contains x = true →
    (w'.graphs.on auth.other).element? x = (w.graphs.on auth.other).element? x
  reading : ∀ x name,
    (w'.graphs.on auth.other).reading x name = (w.graphs.on auth.other).reading x name
  mem_role : ∀ z,
    z ∈ (w'.graphs.on auth.other).members (pair.on auth.other) (child.roles.on auth.other) ↔
    z = c.element auth.other ∨
    z ∈ (w.graphs.on auth.other).members (pair.on auth.other) (child.roles.on auth.other)
  members : ∀ role, role ≠ child.roles.on auth.other →
    (w'.graphs.on auth.other).members (pair.on auth.other) role =
      (w.graphs.on auth.other).members (pair.on auth.other) role
  visited : w'.visited = w.visited
  conflicts : w'.report.conflicts = w.report.conflicts

theorem Linked.names (h : k.Linked d V auth child pair m r c w w') :
    w'.store.Names c.id r c.elements :=
  .of_entry h.went.consistent h.entry h.live h.rule

/-- The new member stands where its siblings tell, as they were paired when it was put there. Other
elements keep their members. -/
structure Slotted (auth : Side) (child : Child) (pair : Sided ElementId)
    (earlier later : List ElementId) (c : Correspondence) (w w' : State) : Prop where
  owner : (w.graphs.on auth.other).contains (pair.on auth.other) = true
  members_of_ne : ∀ x, x ≠ pair.on auth.other → ∀ role,
    (w'.graphs.on auth.other).members x role = (w.graphs.on auth.other).members x role
  placed : ∃ t : Correspondences, t.entries ⊆ w.pairs.entries ∧
    t.entries ⊆ w'.pairs.entries ∧ (∀ a ∈ w'.pairs.entries, a ∈ t.entries ∨ a = c) ∧
    (w'.graphs.on auth.other).members (pair.on auth.other) (child.roles.on auth.other) =
      t.placed auth
        ((w.graphs.on auth.other).members (pair.on auth.other) (child.roles.on auth.other))
        earlier later (c.element auth.other)

/-- As long as the roots stay paired, no live pair makes way for another one. -/
theorem Linked.mem (h : k.Linked d V auth child pair m r c w w')
    (hk : k.Consistent w.graphs w.pairs) (hb : w'.store.Anchored) {a : Correspondence}
    (ha : a ∈ w.pairs.entries) (hl : ∀ s, (w.graphs.on s).contains (a.element s) = true) :
    a ∈ w'.pairs.entries := by
  rcases h.kept a ha with hmem | ⟨hnew, hrule, hm, _⟩
  · exact hmem
  · -- the new pair would be the old one
    obtain ⟨a', ha', hcore⟩ := h.went.acts.kept hk hb ha hl
    have hsame : a' = c := by
      refine h.went.consistent.key_inj auth a' ha' c h.entry ?_ ?_
      · rw [Correspondence.rule_eq_of_core hcore, hrule]
      · rw [Correspondence.element_eq_of_core hcore, hm, h.member]
    have hid := Correspondence.id_eq_of_core hcore
    have hlt := hk.listed.bounded a ha
    rw [← hid, hsame, hnew] at hlt
    exact absurd hlt (Nat.lt_irrefl _)

/-- A counterpart is put into a role of a pair, and then `x` is done. -/
theorem wp_linkCounterpart {x : Walk Unit} {Q : Unit → State → Prop}
    {E : Error → State → Prop} {y : ElementId} {role : RoleName}
    (h : k.Consistent w.graphs w.pairs) (hn : w.store.Names id rule pair)
    (hu : k.Uses rule auth.other role) (hv : V id) (hauth : auth ∈ d.authorities)
    (hy : y ≠ (w.graphs.on auth.other).root ∨ ∃ c ∈ w.pairs.entries, c.isAnchor = false ∧
      c.element auth.other = y) (ho : (w.graphs.on auth.other).contains (pair.on auth.other) = true)
    (hl : (w.graphs.on auth.other).contains y = true) (earlier later : List ElementId)
    (next : ∀ g' (report : Report),
      (w.graphs.on auth.other).Relists g' (pair.on auth.other) role
        (w.pairs.placed auth ((w.graphs.on auth.other).members (pair.on auth.other) role)
          earlier later y) →
      k.Went d V w { w with graphs := w.graphs.put auth.other g', report } →
      report.conflicts = w.report.conflicts →
      wp x Q E { w with graphs := w.graphs.put auth.other g', report }) :
    wp (do link auth (pair.on auth.other) role y earlier later; x) Q E w := by
  rw [wp_bind]
  apply wp_link
  · rintro e (hd | hd)
    · exact absurd (ho.symm.trans hd) (by simp)
    · exact absurd (hl.symm.trans hd) (by simp)
  · intro hin
    have hsame := next (w.graphs.on auth.other) w.report
    rw [Correspondences.placed, if_pos hin, Sided.put_on] at hsame
    exact hsame (.refl _ _ role) (.refl h) rfl
  · intro _ _ hnew g' hw
    have hle := w.pairs.slot_le auth ((w.graphs.on auth.other).members (pair.on auth.other) role)
      earlier later
    refine next g' _ ?_ ?_ rfl
    · rwa [Correspondences.placed, if_neg hnew]
    · exact .act h (.link hv hn hauth hy hl hnew hle hw hu) rfl rfl

/-- A member keeps the counterpart that is recorded for it. -/
theorem wp_linkMember_found {Q : Unit → State → Prop} {E : Error → State → Prop}
    (h : k.Consistent w.graphs w.pairs) (hn : w.store.Names id rule pair)
    (hu : k.Uses rule auth.other (child.roles.on auth.other)) (hv : V id)
    (hauth : auth ∈ d.authorities)
    (ho : (w.graphs.on auth.other).contains (pair.on auth.other) = true)
    (hm : m ∈ (w.graphs.on auth).members (pair.on auth) (child.roles.on auth))
    (hfound : w.pairs.counterpart? k.rules child auth (w.graphs.on auth.other)
      ((w.graphs.on auth.other).members (pair.on auth.other) (child.roles.on auth.other)) m =
        some c)
    (hr : k.rules.rule? c.rule = some r) (earlier later : List ElementId)
    (run : ∀ w', k.Linked d V auth child pair m r c w w' →
      Slotted auth child pair earlier later c w w' → wp (apply r c.id c.elements) Q E w') :
    wp (do
        link auth (pair.on auth.other) (child.roles.on auth.other) (c.element auth.other)
          earlier later
        enter d apply r (auth.arrange m (c.element auth.other))) Q E w := by
  obtain ⟨hc, hcase⟩ := Correspondences.of_counterpart?_eq_some h.listed hfound
  have hpair : auth.arrange m (c.element auth.other) = c.elements := by
    rw [← hc.of_member]
    exact Sided.arrange_on _ _
  have hlive (s : Side) : (w.graphs.on s).contains (c.element s) = true := by
    rcases auth.eq_or_eq_other s with rfl | rfl
    · rw [hc.of_member]
      exact (h.sound _).members_live _ _ _ hm
    · exact hc.live
  refine wp_linkCounterpart h hn hu hv hauth (.inr ⟨c, hc.mem, hc.inner, rfl⟩)
    ho hc.live earlier later ?_
  intro g' report hg hwent hconflicts
  have hname := (RuleSet.mem_of_rule? hr).2
  rw [hpair]
  refine wp_enter (hname ▸ h.obtain?_recorded hc.mem d) (run _ ?_ ?_)
  swap
  · refine ⟨ho, fun x hx role => ?_, w.pairs, fun _ ha => ha, fun _ ha => ha, fun _ ha =>
      .inl ha, ?_⟩
    · rw [Sided.on_put_self, hg.members, if_neg fun he => hx he.1]
    · rw [Sided.on_put_self, hg.members_self]
  exact {
    went := hwent
    entry := hc.mem
    inner := hc.inner
    member := hc.of_member
    rule := hr
    live := fun s => hwent.acts.contains h (hlive s)
    kept := fun a ha => .inl ha
    origin := fun a ha => .inl ha
    new := .inl hc.mem
    oldest := fun a ha hp => by
      rcases hcase with ⟨hin, hmin⟩ | ⟨hout, _⟩
      · exact ⟨hin, hmin a ha hp⟩
      · exact absurd hp (hout a ha)
    followed := Sided.on_put_of_ne _ _ auth.ne_other
    element? := fun x hx _ => by simpa using hg.element?_of_ne x hx
    reading := fun x name => by simpa using hg.reading x name
    mem_role := fun z => by rw [Sided.on_put_self, hg.members_self, Correspondences.mem_placed]
    members := fun role hrole => by simpa using hg.members_of_ne hrole
    visited := rfl
    conflicts := hconflicts }

section Made

variable (h : k.Consistent w.graphs w.pairs) {kind : TypeName}
  (hfor : k.rules.ruleFor? (auth.arrange kind (child.types.on auth.other)) = some r)
  (hnone : w.pairs.counterpart? k.rules child auth (w.graphs.on auth.other)
    ((w.graphs.on auth.other).members (pair.on auth.other) (child.roles.on auth.other)) m = none)

include hfor hnone

/-- Where a member has no counterpart, what is recorded for it under the rule of a new one makes
way: it is the pair of the roots, or has lost its other element. -/
theorem stale_of_unpaired {a : Correspondence} (ha : a ∈ w.pairs.entries)
    (hrule : a.rule = r.name) (he : a.element auth = m) :
    a.isAnchor = true ∨ (w.graphs.on auth.other).contains (a.element auth.other) = false := by
  obtain ⟨hmem, htypes⟩ := RuleSet.mem_of_ruleFor? hfor
  cases hi : a.isAnchor with
  | true => exact .inl rfl
  | false =>
    cases hl : (w.graphs.on auth.other).contains (a.element auth.other) with
    | false => exact .inr rfl
    | true =>
      have ht := (Correspondences.of_counterpart?_eq_none hnone ⟨ha, hi, he, hl⟩).2 r
        (hrule ▸ RuleSet.rule?_of_mem hmem)
      rw [htypes, Sided.on_arrange_other] at ht
      exact absurd rfl ht

include h

/-- A new counterpart is made, and what is recorded for the member under its rule makes way. -/
theorem went_make (hr : k.rules.rule? rule.name = some rule) (hauth : auth ∈ d.authorities)
    (hchild : child ∈ rule.children)
    (hm : m ∈ (w.graphs.on auth).members (pair.on auth) (child.roles.on auth)) (report : Report) :
    k.Went d V w { w with
      graphs := w.graphs.put auth.other ((w.graphs.on auth.other).add (r.types.on auth.other)).2
      pairs := w.pairs.without r.name auth m
      report } := by
  obtain ⟨hmem, htypes⟩ := RuleSet.mem_of_ruleFor? hfor
  refine .act h (.make hauth ⟨rule, (RuleSet.mem_of_rule? hr).1, hchild⟩ hm hmem ?_ ?_) rfl rfl
  · rw [htypes, Sided.on_arrange_other]
  · exact fun a ha => stale_of_unpaired hfor hnone ha

/-- The pair of the member and a new counterpart that was put into its role is recorded. -/
theorem linked_made (hauth : auth ∈ d.authorities)
    (hm : m ∈ (w.graphs.on auth).members (pair.on auth) (child.roles.on auth))
    (hkind : (w.graphs.on auth).kind? m = some kind) {g' : Graph} {report : Report}
    {targets : List ElementId} (hw : k.Went d V w { w with
      graphs := w.graphs.put auth.other g'
      pairs := w.pairs.without r.name auth m
      report })
    (hg : ((w.graphs.on auth.other).add (r.types.on auth.other)).2.Relists g' (pair.on auth.other)
      (child.roles.on auth.other) targets)
    (htargets : ∀ z, z ∈ targets ↔ z = ⟨(w.graphs.on auth.other).next⟩ ∨
      z ∈ (w.graphs.on auth.other).members (pair.on auth.other) (child.roles.on auth.other))
    (hconflicts : report.conflicts = w.report.conflicts) :
    k.Linked d V auth child pair m r
      ((w.pairs.without r.name auth m).newEntry r.name
        (auth.arrange m ⟨(w.graphs.on auth.other).next⟩) d) w
      { w with
        graphs := w.graphs.put auth.other g'
        pairs := {
          entries := (w.pairs.without r.name auth m).entries ++
            [(w.pairs.without r.name auth m).newEntry r.name
              (auth.arrange m ⟨(w.graphs.on auth.other).next⟩) d]
          next := (w.pairs.without r.name auth m).next + 1 }
        report := { report with pairsCreated := report.pairsCreated + 1 } } := by
  obtain ⟨hmem, htypes⟩ := RuleSet.mem_of_ruleFor? hfor
  have hname := RuleSet.rule?_of_mem hmem
  obtain ⟨hsub, hnext⟩ := Correspondences.without_sublist w.pairs r.name auth m
  have hsound := h.sound auth.other
  let y : ElementId := ⟨(w.graphs.on auth.other).next⟩
  let c := (w.pairs.without r.name auth m).newEntry r.name (auth.arrange m y) d
  have hy : c.element auth.other = y := Sided.on_arrange_other _ _ _
  have hfresh : ∀ c ∈ (w.pairs.without r.name auth m).entries, c.element auth.other ≠ y :=
    fun c hc => h.fresh auth.other c (hsub.subset hc)
  have hkind₁ : (w.graphs.on auth).kind? m = some (r.types.on auth) := by
    rw [htypes, Sided.on_arrange_self]
    exact hkind
  have hkind₂ : g'.kind? y = some (r.types.on auth.other) := by
    rw [hg.kind?]
    simp [y, Graph.kind?, Graph.element?_add_self _ hsound.fresh]
  have hrecord := Act.record (k := k) (V := fun id => V id)
    (a := ⟨w.graphs.put auth.other g', w.pairs.without r.name auth m⟩) hauth (m := m) (y := y)
    (by simpa using hm) hname (by simpa using hkind₁) (by simpa using hkind₂)
    h.unpaired_without hfresh hsound.next_ne_root
  exact {
    went := hw.trans (.act hw.consistent hrecord rfl rfl)
    entry := List.mem_append_right _ (List.mem_singleton_self _)
    inner := rfl
    member := Sided.on_arrange_self _ _ _
    rule := hname
    live := fun s => by
      rcases auth.eq_or_eq_other s with rfl | rfl
      · have hl := Graph.contains_iff_kind.mpr ⟨_, hkind₁⟩
        simpa [c] using hl
      · have hl := Graph.contains_iff_kind.mpr ⟨_, hkind₂⟩
        simpa [c] using hl
    kept := fun a ha => by
      by_cases hkey : a.rule = r.name ∧ a.element auth = m
      · exact .inr ⟨congrArg CorrespondenceId.mk hnext, hkey.1, hkey.2,
          stale_of_unpaired hfor hnone ha hkey.1 hkey.2⟩
      · exact .inl (List.mem_append_left _ (h.mem_without.mpr ⟨ha, hkey⟩))
    origin := fun a ha => by
      rcases List.mem_append.mp ha with ha | ha
      · exact .inl (hsub.subset ha)
      · exact .inr (List.mem_singleton.mp ha)
    new := .inr ⟨congrArg CorrespondenceId.mk hnext, hy⟩
    oldest := fun a ha hp => absurd hp (Correspondences.of_counterpart?_eq_none hnone ha).1
    followed := Sided.on_put_of_ne _ _ auth.ne_other
    element? := fun x hx hlive => by
      have hne : x ≠ ⟨(w.graphs.on auth.other).next⟩ := by
        intro he
        rw [he, hsound.fresh] at hlive
        cases hlive
      rw [Sided.on_put_self, hg.element?_of_ne x hx, Graph.element?_add_of_ne _ hne]
    reading := fun x name => by
      rw [Sided.on_put_self, hg.reading, hsound.reading_add]
    mem_role := fun z => by
      rw [Sided.on_put_self, hg.members_self, htargets, hy]
    members := fun role hrole => by
      rw [Sided.on_put_self, hg.members_of_ne hrole, hsound.members_add]
    visited := rfl
    conflicts := hconflicts }

/-- A member without a counterpart gets a new one. -/
theorem wp_linkMember_made {Q : Unit → State → Prop} {E : Error → State → Prop}
    (hn : w.store.Names id rule pair) (hr : k.rules.rule? rule.name = some rule) (hv : V id)
    (hauth : auth ∈ d.authorities) (hchild : child ∈ rule.children)
    (ho : (w.graphs.on auth.other).contains (pair.on auth.other) = true)
    (hm : m ∈ (w.graphs.on auth).members (pair.on auth) (child.roles.on auth))
    (hkind : (w.graphs.on auth).kind? m = some kind) (earlier later : List ElementId)
    (report : Report) (hreport : report.conflicts = w.report.conflicts)
    (run : ∀ c w', k.Linked d V auth child pair m r c w w' →
      Slotted auth child pair earlier later c w w' →
      c.element auth.other = ⟨(w.graphs.on auth.other).next⟩ →
        wp (apply r c.id c.elements) Q E w') :
    wp (do
        link auth (pair.on auth.other) (child.roles.on auth.other)
          ⟨(w.graphs.on auth.other).next⟩ earlier later
        enter d apply r (auth.arrange m ⟨(w.graphs.on auth.other).next⟩)) Q E
      { w with
        graphs := w.graphs.put auth.other ((w.graphs.on auth.other).add (r.types.on auth.other)).2
        pairs := w.pairs.without r.name auth m
        report } := by
  obtain ⟨hsub, _⟩ := Correspondences.without_sublist w.pairs r.name auth m
  have hsound := h.sound auth.other
  have hmake := went_make (V := V) h hfor hnone hr hauth hchild hm report
  refine wp_linkCounterpart hmake.consistent (hmake.acts.names h hn)
    ⟨hr, child, hchild, rfl⟩ hv hauth (.inl ?_) ?_ ?_ earlier later ?_
  · exact hsound.next_ne_root
  · rw [Sided.on_put_self, hsound.contains_add, ho, Bool.true_or]
  · rw [Sided.on_put_self, hsound.contains_add]
    simp
  intro g' report' hg hlink hconflicts
  have hall := hmake.trans hlink
  simp only [Sided.put_put, Sided.on_put_self] at hg hall ⊢
  refine wp_enter (Correspondences.obtain?_new (s := auth) (by simpa using h.unpaired_without)
    (by simpa using fun c hc => h.fresh auth.other c (hsub.subset hc)) d) ?_
  refine run
    ((w.pairs.without r.name auth m).newEntry r.name
      (auth.arrange m ⟨(w.graphs.on auth.other).next⟩) d) _ ?_ ?_
    (Sided.on_arrange_other _ _ _)
  · refine linked_made h hfor hnone hauth hm hkind hall hg (fun z => ?_) (hconflicts.trans hreport)
    rw [Correspondences.mem_placed, hsound.members_add]
  · refine ⟨ho, fun x hx role => ?_, w.pairs.without r.name auth m, hsub.subset,
      fun _ ha => List.mem_append_left _ ha, fun a ha =>
        (List.mem_append.mp ha).imp_right List.mem_singleton.mp, ?_⟩
    · rw [Sided.on_put_self, hg.members, if_neg fun he => hx he.1, hsound.members_add]
    · rw [Sided.on_put_self, hg.members_self, hsound.members_add]
      exact congrArg _ (Sided.on_arrange_other _ _ _).symm

end Made

/-- On a side that is followed, a member of a role that a rule walks has no rule for its type and
the one that the child declares. -/
def Unruled (k : Scheme) (d : Direction) (a : Store) (types : Sided TypeName) : Prop :=
  ∃ s ∈ d.authorities, ∃ rule ∈ k.rules.rules, ∃ child ∈ rule.children, ∃ x m kind,
    (a.graphs.on s).kind? x = some (rule.types.on s) ∧
      m ∈ (a.graphs.on s).members x (child.roles.on s) ∧
      (a.graphs.on s).kind? m = some kind ∧ types = s.arrange kind (child.types.on s.other) ∧
      k.rules.ruleFor? types = none

/-- A member is linked to its counterpart, found or made, in its slot, before the rule of their pair
is applied. -/
theorem wp_linkMember_slotted {Q : ElementId → State → Prop} {E : Error → State → Prop}
    (h : k.Consistent w.graphs w.pairs)
    (hn : (∀ s, (w.graphs.on s).contains (pair.on s) = true) → w.store.Names id rule pair)
    (hr : k.rules.rule? rule.name = some rule) (hv : V id) (hauth : auth ∈ d.authorities)
    (hchild : child ∈ rule.children)
    (hm : m ∈ (w.graphs.on auth).members (pair.on auth) (child.roles.on auth))
    (earlier later : List ElementId)
    (dead : (w.graphs.on auth.other).contains (pair.on auth.other) = false →
      E (.graph (.unknownElement (pair.on auth.other))) w)
    (noRule : ∀ types, k.Unruled d w.store types → E (.rule (.noRule types)) w)
    (run : ∀ r c w', k.Linked d V auth child pair m r c w w' →
      Slotted auth child pair earlier later c w w' →
      wp (apply r c.id c.elements) (fun _ => Q (c.element auth.other)) E w') :
    wp (linkMember k.rules d apply child auth (pair.on auth.other) earlier m later) Q E w := by
  have hnamed (ho : (w.graphs.on auth.other).contains (pair.on auth.other) = true) :
      w.store.Names id rule pair := by
    refine hn fun s => ?_
    rcases auth.eq_or_eq_other s with rfl | rfl
    · exact Graph.contains_of_mem_members hm
    · exact ho
  -- the counterpart is handed back at the end
  have handBack {y : ElementId} {r : Rule} {w : State} (hw : wp (do
        link auth (pair.on auth.other) (child.roles.on auth.other) y earlier later
        enter d apply r (auth.arrange m y)) (fun _ => Q y) E w) :
      wp (do
        link auth (pair.on auth.other) (child.roles.on auth.other) y earlier later
        enter d apply r (auth.arrange m y)
        return y) Q E w := by
    rw [wp_bind] at hw ⊢
    refine wp_imp hw fun _ w' h' => ?_
    rw [wp_bind]
    exact h'
  rw [linkMember, wp_bind]
  apply wp_findOrCreate h.listed fun c hc => (h.typed c hc).imp fun _ hr => hr.1
  · rintro x (⟨rfl, hd⟩ | ⟨_, hd⟩)
    · exact dead hd
    · exact Bool.noConfusion (hd.symm.trans ((h.sound auth).members_live _ _ m hm))
  · intro ho _ kind hkind hfor
    exact noRule _
      ⟨auth, hauth, rule, (RuleSet.mem_of_rule? hr).1, child, hchild, pair.on auth, m, kind,
      (hnamed ho).kinds auth, hm, hkind, rfl, hfor⟩
  · intro ho c r hc hcr
    exact handBack
      (wp_linkMember_found h (hnamed ho) ⟨hr, child, hchild, rfl⟩
        hv hauth ho hm hc hcr earlier later (run r c))
  · intro ho hnone kind r hkind hfor report _ hreport
    refine handBack
      (wp_linkMember_made h hfor hnone (hnamed ho) hr hv hauth hchild ho hm hkind earlier
      later report hreport ?_)
    intro c w' hl hslot hy
    exact hy ▸ run r c w' hl hslot

/-- The slot does not matter for what a member is linked to. -/
theorem wp_linkMember {Q : ElementId → State → Prop} {E : Error → State → Prop}
    (h : k.Consistent w.graphs w.pairs)
    (hn : (∀ s, (w.graphs.on s).contains (pair.on s) = true) → w.store.Names id rule pair)
    (hr : k.rules.rule? rule.name = some rule) (hv : V id) (hauth : auth ∈ d.authorities)
    (hchild : child ∈ rule.children)
    (hm : m ∈ (w.graphs.on auth).members (pair.on auth) (child.roles.on auth))
    (earlier later : List ElementId)
    (dead : (w.graphs.on auth.other).contains (pair.on auth.other) = false →
      E (.graph (.unknownElement (pair.on auth.other))) w)
    (noRule : ∀ types, k.Unruled d w.store types → E (.rule (.noRule types)) w)
    (run : ∀ r c w', k.Linked d V auth child pair m r c w w' →
      wp (apply r c.id c.elements) (fun _ => Q (c.element auth.other)) E w') :
    wp (linkMember k.rules d apply child auth (pair.on auth.other) earlier m later) Q E w :=
  wp_linkMember_slotted h hn hr hv hauth hchild hm earlier later dead noRule fun r c w' hl _ =>
    run r c w' hl

end Scheme

end GraphSync
