import GraphSync.Proofs.Merge.Steady

namespace GraphSync.Merge

open Walk Relation

variable {k : Scheme} {V : CorrespondenceId → Prop} {w₀ w w' w'' : State}
  {path done done' : List CorrespondenceId} {c c' : Correspondence} {r r' : Rule} {child : Child}
  {auth s : Side} {m : ElementId} {apply : Apply}

/-- Applied to one more pair below those of `path`, a rule leaves the state between two operations
again. -/
def Calls (k : Scheme) (w₀ : State) (path : List CorrespondenceId) (apply : Apply) : Prop :=
  ∀ done w c r, Steady k w₀ path done [] w → c ∈ w.pairs.entries →
    k.rules.rule? c.rule = some r → Reached k w c.id → Grounded k w (c.id :: path) →
    wp (apply r c.id c.elements)
      (fun _ w' => k.Went .twoWay (fun _ => False) w w' ∧
        ∃ new, Steady k w₀ path (new ++ done) [] w' ∧ c.id ∈ new ++ done)
      (fun _ _ => True) w

/-- A rule cannot be applied to a new pair that has a member whose pair is in `path`, or is that
pair itself. -/
def Refuses (k : Scheme) (path : List CorrespondenceId) (apply : Apply) : Prop :=
  ∀ w c r child s c', k.Consistent w.graphs w.pairs → w.store.Alive →
    c ∈ w.pairs.entries → c.isAnchor = false →
    c.id ∉ w.visited → k.rules.rule? c.rule = some r → child ∈ r.children →
      c' ∈ w.pairs.entries →
    c'.isAnchor = false → c'.element s ∈ w.role c child s → c'.id ∈ c.id :: path →
    wp (apply r c.id c.elements) (fun _ _ => False) (fun _ _ => True) w

/-- The members of the role of a child on the side `auth` are given counterparts on the other side,
and only that role of the pair changes. -/
structure Fills (k : Scheme) (done : List CorrespondenceId) (c : Correspondence) (child : Child)
    (auth : Side) (w w' : State) : Prop where
  grows : Grows k (fun _ => True) w w'
  entry : c ∈ w'.pairs.entries
  role : ∀ (a : Child) s, s = auth ∨ a.roles.on s ≠ child.roles.on s →
    w'.role c a s = w.role c a s
  added : ∀ z ∈ w'.role c child auth.other, z ∈ w.role c child auth.other ∨
    Met w' done c child auth.other z

namespace Fills

theorem refl (h : Steady k w₀ path done pending w) (hc : c ∈ w.pairs.entries) (child : Child)
    (auth : Side) : Fills k done c child auth w w :=
  ⟨⟨h.consistent, h.alive, h.anchored, .refl⟩, hc, fun _ _ _ => rfl, fun _ hz => .inl hz⟩

theorem trans (h : Fills k done c child auth w w') (h' : Fills k done' c child auth w' w'')
    (hd : done ⊆ done') : Fills k done' c child auth w w'' := by
  refine ⟨⟨h.grows.consistent, h.grows.alive, h'.grows.anchored, h.grows.acts.trans h'.grows.acts⟩,
    h'.entry, ?_, ?_⟩
  · exact fun a s hs => (h'.role a s hs).trans (h.role a s hs)
  · intro z hz
    rcases h'.added z hz with hz | hz
    · exact (h.added z hz).imp_right fun hm => hm.grows h'.grows hd
    · exact .inr hz

end Fills

namespace Steady

/-- The state in which the rule of the pair of a member is about to be applied. -/
theorem linked (h : Steady k w₀ (c.id :: path) done [] w) (ht : ∀ s, k.rules.UniqueTypes s)
    (hc : c ∈ w.pairs.entries)
    (hl : k.Linked .twoWay (· = c.id) auth child c.elements m r' c' w w')
    (hb : w'.store.Anchored) : Steady k w₀ (c.id :: path) done [] w' := by
  have hacts : Acts k .twoWay (· = c.id) w.store w'.store := by
    refine hl.went.acts.mono ?_
    rintro id (hi | ⟨hin, hout⟩)
    · exact hi
    · exact absurd (hl.visited ▸ hin) hout
  refine h.write_roles ht ⟨h.consistent, h.alive, hb, hacts⟩ hl.visited hl.conflicts hc
    (hl.mem h.consistent hb hc (h.alive c hc)) ?_
  intro s x name
  rcases auth.eq_or_eq_other s with rfl | rfl
  · rw [hl.followed]
  · exact hl.reading x name

theorem linked_reached (h : Steady k w₀ (c.id :: path) done [] w) (hc : c ∈ w.pairs.entries)
    (hr : k.rules.rule? c.rule = some r) (hchild : child ∈ r.children)
    (hc' : c' ∈ w.pairs.entries) (hi : c'.isAnchor = false)
    (hm : c'.element auth ∈ w.role c child auth) : Reached k w c'.id := by
  obtain ⟨a, ha, hanchor, hpath⟩ := h.reached c.id (by simp)
  exact ⟨a, ha, hanchor, hpath.tail ⟨c, hc, rfl, r, hr, child, hchild, auth, c', hc', rfl, hi, hm⟩⟩

/-- The roots and a pair of members of theirs lead to the pair of a member. -/
theorem linked_grounded (h : Steady k w₀ (c.id :: path) done [] w) (hc : c ∈ w.pairs.entries)
    (hr : k.rules.rule? c.rule = some r) (hchild : child ∈ r.children)
    (hc' : c' ∈ w.pairs.entries) (hi : c'.isAnchor = false)
    (hm : ∀ s, c'.element s ∈ w.role c child s) : Grounded k w (c'.id :: c.id :: path) := by
  obtain ⟨a, ha, ⟨hanchor, hhead⟩ | ⟨hbelow, hin⟩⟩ :=
    h.grounded c.id path List.suffix_rfl
  · obtain rfl := h.eq_of_id ha hc (Option.some.inj hhead).symm
    obtain ⟨hrule, hroots⟩ := h.consistent.anchor a hc hanchor
    refine ⟨c', hc', .inr ⟨⟨hi, r, hrule ▸ hr, child, hchild, fun s => ?_⟩, by simp⟩⟩
    have hroot : a.element s = (w.graphs.on s).root := by
      rw [Correspondence.element, hroots, Sided.on_map]
    exact hroot ▸ hm s
  · exact ⟨a, ha, .inr ⟨hbelow, List.mem_cons_of_mem _ hin⟩⟩

/-- Where a new counterpart of a root takes the place of the other root, its rule comes back to a
pair that it is being applied to. -/
theorem refused (h : Steady k w₀ (c.id :: path) done [] w)
    (hrefuses : Refuses k (c.id :: path) apply) (hc : c ∈ w.pairs.entries)
    (hr : k.rules.rule? c.rule = some r) (hchild : child ∈ r.children)
    (hm : m ∈ w.role c child auth) (hl : k.Linked .twoWay V auth child c.elements m r' c' w w')
    (hb : ¬ w'.store.Anchored) :
    wp (apply r' c'.id c'.elements) (fun _ _ => False) (fun _ _ => True) w' := by
  obtain ⟨a, ha, hanchor⟩ := h.anchored
  obtain ⟨hnew, hrule, hroot, _⟩ :=
    (hl.kept a ha).resolve_left fun hmem => hb ⟨a, hmem, hanchor⟩
  have hunvisited : c'.id ∉ w'.visited := by
    rw [hl.visited, h.visited, hnew]
    intro hin
    obtain ⟨b, hb, hid⟩ := h.recorded _ hin
    have hlt := h.consistent.listed.bounded b hb
    rw [hid] at hlt
    exact absurd hlt (Nat.lt_irrefl _)
  have halive := hl.went.acts.alive h.consistent h.alive
  have hmember (child' : Child) {x : ElementId}
      (hx : x ∈ (w.graphs.on auth).members m (child'.roles.on auth)) :
      x ∈ w'.role c' child' auth := by
    rwa [State.role, hl.followed, hl.member]
  obtain ⟨a', ha', ⟨hanchor', hhead⟩ | ⟨⟨hinner, r₀, hr₀, child₀, hchild₀, hmem₀⟩, hin⟩⟩ :=
    h.grounded c.id path List.suffix_rfl
  · -- the root is a member of its own role
    obtain rfl := h.consistent.anchor_unique ha' ha hanchor' hanchor
    obtain rfl := h.eq_of_id ha' hc (Option.some.inj hhead).symm
    have hr' : r' = r := Option.some.inj (hl.rule.symm.trans (hrule ▸ hr))
    refine hrefuses w' c' r' child auth c' hl.went.consistent halive hl.entry hl.inner hunvisited
      hl.rule (hr' ▸ hchild) hl.entry hl.inner ?_ (by simp)
    rw [hl.member]
    refine hmember child ?_
    rw [State.role, hroot] at hm
    exact hm
  · obtain ⟨hrootRule, hroots⟩ := h.consistent.anchor a ha hanchor
    have hr' : r' = r₀ := by
      have hrule' := hl.rule
      rw [← hrule, hrootRule, hr₀] at hrule'
      exact (Option.some.inj hrule').symm
    have hkept : a' ∈ w'.pairs.entries := by
      rcases hl.kept a' ha' with hmem | ⟨_, _, _, hanchor' | hdead⟩
      · exact hmem
      · exact absurd (hanchor'.symm.trans hinner) (by simp)
      · exact absurd (hdead.symm.trans (h.alive a' ha' auth.other)) (by simp)
    refine hrefuses w' c' r' child₀ auth a' hl.went.consistent halive hl.entry hl.inner
      hunvisited hl.rule (hr' ▸ hchild₀) hkept hinner (hmember child₀ ?_)
      (List.mem_cons_of_mem _ hin)
    have hm₀ := hmem₀ auth
    rw [← hroot, Correspondence.element, hroots, Sided.on_map]
    exact hm₀

/-- The innermost pair is left as it is by what is done for the pair of a member. -/
theorem went_keeps (h : Steady k w₀ (c.id :: path) done [] w) (ht : ∀ s, k.rules.UniqueTypes s)
    (hc : c ∈ w.pairs.entries) (hw : k.Went .twoWay (fun _ => False) w w')
    (hb : w'.store.Anchored) : w.store.Keeps w'.store c := by
  refine hw.acts.keeps_others_of_types h.consistent h.alive ht hb hc ?_
  rintro (hf | ⟨_, hout⟩)
  · exact hf
  · exact hout ((h.visited c.id).mpr (by simp))

/-- One member of a role is given its counterpart. -/
theorem linkMember (h : Steady k w₀ (c.id :: path) done [] w) (ht : ∀ s, k.rules.UniqueTypes s)
    (hcalls : Calls k w₀ (c.id :: path) apply) (hrefuses : Refuses k (c.id :: path) apply)
    (hc : c ∈ w.pairs.entries) (hr : k.rules.rule? c.rule = some r)
    (hchild : child ∈ r.children) (hm : m ∈ w.role c child auth)
    (earlier later : List ElementId) :
    wp (linkMember k.rules .twoWay apply child auth (c.element auth.other) earlier m later)
      (fun _ w' => ∃ new, Steady k w₀ (c.id :: path) (new ++ done) [] w' ∧
        Fills k (new ++ done) c child auth w w' ∧
        Met w' (new ++ done) c child auth m) (fun _ _ => True) w := by
  have hname := (RuleSet.mem_of_rule? hr).2
  have hnames : w.store.Names c.id r c.elements := .of_entry h.consistent hc (h.alive c hc) hr
  refine Scheme.wp_linkMember (V := (· = c.id)) h.consistent (fun _ => hnames) (hname ▸ hr) rfl
    (mem_authorities auth) hchild hm earlier later (fun _ => trivial) (fun _ _ => trivial) ?_
  intro r' c' w₁ hl
  by_cases hb₁ : w₁.store.Anchored
  swap
  · exact wp_imp (h.refused hrefuses hc hr hchild hm hl hb₁) fun _ _ hf => hf.elim
  have h₁ := h.linked ht hc hl hb₁
  have hc₁ : c ∈ w₁.pairs.entries := hl.mem h.consistent hb₁ hc (h.alive c hc)
  have hmember : ∀ s, c'.element s ∈ w₁.role c child s := by
    intro s
    rcases auth.eq_or_eq_other s with rfl | rfl
    · rwa [State.role, hl.followed, hl.member]
    · exact (hl.mem_role _).mpr (.inl rfl)
  refine wp_imp (hcalls done w₁ c' r' h₁ hl.entry hl.rule
    (h₁.linked_reached hc₁ hr hchild hl.entry hl.inner (hmember auth))
    (h₁.linked_grounded hc₁ hr hchild hl.entry hl.inner hmember)) ?_
  rintro _ w₂ ⟨hwent, new, h₂, hdone⟩
  have hkeeps := h₁.went_keeps ht hc₁ hwent h₂.anchored
  obtain ⟨c₂, hc₂, hcore⟩ :=
    hwent.acts.kept h₁.consistent h₂.anchored hl.entry (h₁.alive c' hl.entry)
  have met (s : Side) : Met w₂ (new ++ done) c child s (c'.element s) := by
    refine ⟨c₂, hc₂, (Correspondence.isAnchor_eq_of_core hcore).trans hl.inner,
      Correspondence.element_eq_of_core hcore s, ?_, ?_⟩
    · rw [hkeeps.role, Correspondence.element_eq_of_core hcore]
      exact hmember s.other
    · rw [Correspondence.id_eq_of_core hcore]
      exact hdone
  refine ⟨new, h₂, ⟨⟨h.consistent, h.alive, h₂.anchored, ?_⟩, hkeeps.entry, ?_, ?_⟩,
    hl.member ▸ met auth⟩
  · exact (hl.went.acts.mono fun _ _ => trivial).trans (hwent.acts.mono fun _ _ => trivial)
  · intro a s hs
    rw [hkeeps.role]
    rcases hs with rfl | hs
    · rw [State.role, hl.followed, State.role]
    · by_cases he : s = auth
      · rw [he, State.role, hl.followed, State.role]
      · obtain rfl : s = auth.other := (auth.eq_or_eq_other s).resolve_left he
        exact hl.members _ hs
  · intro z hz
    rw [hkeeps.role] at hz
    rcases (hl.mem_role z).mp hz with rfl | hz
    · exact .inr (met auth.other)
    · exact .inl hz

theorem linkMembers (h : Steady k w₀ (c.id :: path) done [] w) (ht : ∀ s, k.rules.UniqueTypes s)
    (hcalls : Calls k w₀ (c.id :: path) apply) (hrefuses : Refuses k (c.id :: path) apply)
    (hc : c ∈ w.pairs.entries) (hr : k.rules.rule? c.rule = some r)
    (hchild : child ∈ r.children) (ms earlier : List ElementId)
    (hms : ∀ m ∈ ms, m ∈ w.role c child auth) :
    wp (linkMembers k.rules .twoWay apply child auth (c.element auth.other) earlier ms)
      (fun _ w' => ∃ new, Steady k w₀ (c.id :: path) (new ++ done) [] w' ∧
        Fills k (new ++ done) c child auth w w' ∧
        ∀ m ∈ ms, Met w' (new ++ done) c child auth m) (fun _ _ => True) w := by
  induction ms generalizing earlier w done with
  | nil => exact ⟨[], h, .refl h hc child auth, by simp⟩
  | cons m later ih =>
    rw [Walk.linkMembers, wp_bind]
    refine wp_imp (h.linkMember ht hcalls hrefuses hc hr hchild (hms m (by simp)) earlier later) ?_
    rintro partner w₁ ⟨new, h₁, hfills, hmet⟩
    rw [wp_bind]
    refine wp_imp (ih h₁ hfills.entry (m :: earlier) fun m' hm' => ?_) ?_
    · rw [hfills.role child auth (.inl rfl)]
      exact hms m' (by simp [hm'])
    · rintro _ w₂ ⟨new', h₂, hfills', hmets⟩
      have hsub : new ++ done ⊆ new' ++ (new ++ done) := List.subset_append_right _ _
      refine ⟨new' ++ new, by simpa using h₂, by simpa using hfills.trans hfills' hsub, ?_⟩
      intro m' hm'
      rw [List.append_assoc]
      rcases List.mem_cons.mp hm' with rfl | hm'
      · exact hmet.grows hfills'.grows hsub
      · exact hmets m' hm'

/-- One side of a role is walked. -/
theorem syncRole (h : Steady k w₀ (c.id :: path) done [] w) (ht : ∀ s, k.rules.UniqueTypes s)
    (hcalls : Calls k w₀ (c.id :: path) apply) (hrefuses : Refuses k (c.id :: path) apply)
    (hc : c ∈ w.pairs.entries) (hr : k.rules.rule? c.rule = some r)
    (hchild : child ∈ r.children) (auth : Side) :
    wp (syncRole k.rules .twoWay apply child auth c.elements)
      (fun _ w' => ∃ new, Steady k w₀ (c.id :: path) (new ++ done) [] w' ∧
        Fills k (new ++ done) c child auth w w' ∧
        ∀ m ∈ w'.role c child auth, Met w' (new ++ done) c child auth m)
        (fun _ _ => True) w := by
  rw [Walk.syncRole, wp_bind, wp_graph, wp_bind, wp_liftGraph, Graph.references_eq]
  have hlive : (w.graphs.on auth).contains (c.elements.on auth) = true := h.alive c hc auth
  simp only [hlive, if_true, wp_bind]
  refine wp_imp (h.linkMembers ht hcalls hrefuses hc hr hchild _ [] fun _ hm => hm) ?_
  rintro _ w' ⟨new, h', hfills, hmets⟩
  refine ⟨new, h', hfills, fun m hm => hmets m ?_⟩
  rwa [hfills.role child auth (.inl rfl)] at hm

/-- Both sides of a role are walked, and the other roles of the pair stay as they are. -/
theorem syncRoles (h : Steady k w₀ (c.id :: path) done [] w) (ht : ∀ s, k.rules.UniqueTypes s)
    (hcalls : Calls k w₀ (c.id :: path) apply) (hrefuses : Refuses k (c.id :: path) apply)
    (hc : c ∈ w.pairs.entries) (hr : k.rules.rule? c.rule = some r)
    (hchild : child ∈ r.children) :
    wp (Direction.twoWay.authorities.forM fun auth =>
      Walk.syncRole k.rules .twoWay apply child auth c.elements)
      (fun _ w' => ∃ new, Steady k w₀ (c.id :: path) (new ++ done) [] w' ∧
        Grows k (fun _ => True) w w' ∧ c ∈ w'.pairs.entries ∧
        RoleDone w' (new ++ done) c child ∧
        ∀ a : Child, (∀ s, a.roles.on s ≠ child.roles.on s) → ∀ s,
          w'.role c a s = w.role c a s)
      (fun _ _ => True) w := by
  rw [Direction.authorities, Side.all, wp_forM_cons]
  refine wp_imp (h.syncRole ht hcalls hrefuses hc hr hchild .left) ?_
  rintro _ w₁ ⟨new₁, h₁, hfills₁, hmets₁⟩
  rw [wp_forM_cons]
  refine wp_imp (h₁.syncRole ht hcalls hrefuses hfills₁.entry hr hchild .right) ?_
  rintro _ w₂ ⟨new₂, h₂, hfills₂, hmets₂⟩
  have hsub : new₁ ++ done ⊆ new₂ ++ (new₁ ++ done) := List.subset_append_right _ _
  refine ⟨new₂ ++ new₁, by simpa using h₂, ⟨h.consistent, h.alive, h₂.anchored,
    hfills₁.grows.acts.trans hfills₂.grows.acts⟩, hfills₂.entry, ?_, ?_⟩
  · rintro (_ | _) m hm <;> rw [List.append_assoc]
    · rcases hfills₂.added m hm with hm | hm
      · exact (hmets₁ m hm).grows hfills₂.grows hsub
      · exact hm
    · exact hmets₂ m hm
  · intro a ha s
    rw [hfills₂.role a s (.inr (ha s)), hfills₁.role a s (.inr (ha s))]

theorem children (h : Steady k w₀ (c.id :: path) done [] w) (ht : ∀ s, k.rules.UniqueTypes s)
    (hcalls : Calls k w₀ (c.id :: path) apply) (hrefuses : Refuses k (c.id :: path) apply)
    (hc : c ∈ w.pairs.entries) (hr : k.rules.rule? c.rule = some r) :
    wp (r.children.forM fun child =>
        Direction.twoWay.authorities.forM fun auth =>
          Walk.syncRole k.rules .twoWay apply child auth c.elements)
      (fun _ w' => ∃ new, Steady k w₀ (c.id :: path) (new ++ done) [] w' ∧
        c ∈ w'.pairs.entries ∧
        ((∀ s, k.rules.UniqueRoles s) → RolesDone k w' (new ++ done) c))
        (fun _ _ => True) w := by
  -- where two children share a role, the later one may add members to what the earlier one saw
  refine wp_imp
    (wp_forM_worked (I := fun pre w' => ∃ new, Steady k w₀ (c.id :: path) (new ++ done) [] w' ∧
    c ∈ w'.pairs.entries ∧
    ((∀ s, k.rules.UniqueRoles s) → ∀ child ∈ pre, RoleDone w' (new ++ done) c child)) ?_
    ⟨[], h, hc, by simp⟩) ?_
  · rintro pre child post hl w₁ ⟨new₁, h₁, hc₁, hdone⟩
    refine wp_imp (h₁.syncRoles ht hcalls hrefuses hc₁ hr (by simp [hl])) ?_
    rintro _ w₂ ⟨new₂, h₂, hgrows, hc₂, hnow, hsame⟩
    refine ⟨new₂ ++ new₁, by simpa using h₂, hc₂, fun hroles a ha => ?_⟩
    rw [List.append_assoc]
    rcases List.mem_append.mp ha with ha | ha
    · refine (hdone hroles a ha).grows hgrows (hsame a fun s he => ?_)
        (List.subset_append_right _ _)
      have hnodup := hroles s r (RuleSet.mem_of_rule? hr).1
      rw [hl, List.map_append, List.map_cons, List.nodup_append] at hnodup
      exact hnodup.2.2 _ (List.mem_map.mpr ⟨a, ha, rfl⟩) _ (List.mem_cons_self) he
    · exact List.mem_singleton.mp ha ▸ hnow
  · rintro _ w' ⟨new, h', hc', hdone⟩
    refine ⟨new, h', hc', fun hroles r' hr' child hchild => hdone hroles child ?_⟩
    rwa [← Option.some.inj (hr'.symm.trans hr)]

end Steady

end GraphSync.Merge
