import GraphSync.Proofs.Walk.Apart
import GraphSync.Proofs.Walk.Rest
import GraphSync.Proofs.Walk.Whole

namespace GraphSync

open Walk

/-- No value that a recorded pair carries over to the target side is a NaN there. -/
def OneWay.Ordered (k : OneWay) (graphs : Sided Graph) (t : Correspondences) : Prop :=
  ∀ c ∈ t.entries, ∀ r ∈ k.rules.rule? c.rule, ∀ b ∈ r.bindings,
    (b.convert k.target
      ((graphs.on k.source).reading (c.element k.source) (b.attributes.on k.source))).isOrdered

instance (k : OneWay) (graphs : Sided Graph) (t : Correspondences) :
    Decidable (k.Ordered graphs t) :=
  inferInstanceAs (Decidable (∀ c ∈ t.entries, ∀ r ∈ k.rules.rule? c.rule, _))

/-- What an edit leaves to be done for a pair of the edited element. -/
inductive Due where
  | value (bi : Binding × Nat)
  | addition (child : Child) (member : ElementId)
  | removal (child : Child) (member : ElementId)

/-- What is still to be done for the pairs, by their handles and their source elements. -/
abbrev Debts := CorrespondenceId → ElementId → Due → Prop

/-- What is left when some of it was done. -/
def Debts.drop (o : Debts) (paid : CorrespondenceId → Due → Prop) : Debts :=
  fun id x due => o id x due ∧ ¬ paid id due

/-- What is left when one thing was done for one pair. -/
def Debts.pay (o : Debts) (id : CorrespondenceId) (due : Due) : Debts :=
  o.drop fun id' due' => id' = id ∧ due' = due

namespace OneWay

variable {k : OneWay} {o o' : Debts} {w w' : State} {done done' D D' G : List CorrespondenceId}
  {c c' : Correspondence} {r : Rule} {child : Child} {bi : Binding × Nat} {m y : ElementId}

/-- The binding of a pair stays as it is, or is still to be brought in step. -/
def BindingNearly (k : OneWay) (o : Debts) (w : State) (c : Correspondence)
    (bi : Binding × Nat) : Prop :=
  (bi.1.convert k.target ((w.values c.elements bi.1).on k.source)).isOrdered = true →
    Scheme.Stays k.direction [] w c bi ∨ o c.id (c.element k.source) (.value bi)

/-- A binding whose values are left as they are, and are remembered if they agree. -/
theorem BindingNearly.of_kept
      (hv : (bi.1.convert k.target ((w.values c.elements bi.1).on k.source)).isOrdered = true →
      bi.1.verdict k.direction none (w.values c.elements bi.1) =
        .keep (bi.1.inStep (w.values c.elements bi.1)))
    (hs : bi.1.inStep (w.values c.elements bi.1) = true →
      c.shadow? bi.2 = some (w.values c.elements bi.1)) :
    k.BindingNearly o w c bi :=
  fun hordered => .inl (.inl ⟨(k.verdict_eq _ _ _).trans (hv hordered), hs⟩)

/-- A binding whose source value was written on the target side and is remembered. -/
theorem BindingNearly.of_copied {values : Sided Value}
    (hv : w.values c.elements bi.1 = bi.1.copied values k.source)
    (hs : c.shadow? bi.2 = some (bi.1.copied values k.source)) : k.BindingNearly o w c bi := by
  refine .of_kept (fun hordered => ?_) fun _ => hv ▸ hs
  rw [hv] at hordered ⊢
  exact k.verdict_copied hordered

/-- Only the values of a binding matter, and what is remembered of them. -/
theorem BindingNearly.congr (h : k.BindingNearly o w c bi) (hcore : c'.core = c.core)
    (hvalues : w'.values c.elements bi.1 = w.values c.elements bi.1)
    (hshadow : c'.shadow? bi.2 = c.shadow? bi.2) : k.BindingNearly o w' c' bi := by
  have hel := Correspondence.elements_eq_of_core hcore
  intro hordered
  rw [hel, hvalues] at hordered
  rw [Correspondence.id_eq_of_core hcore, Correspondence.element_eq_of_core hcore]
  refine (h hordered).imp_left fun hstays => ?_
  rw [Scheme.Stays] at hstays ⊢
  rw [hel, hvalues, hshadow]
  simpa using hstays

/-- Where nothing is owed, a binding of a recorded pair is left as it is. -/
theorem BindingNearly.stays (h : k.BindingNearly (fun _ _ _ => False) w c bi)
    (hc : c ∈ w.pairs.entries) (hr : k.rules.rule? c.rule = some r) (hbi : bi ∈ r.numbered)
    (ho : k.Ordered w.graphs w.pairs) : Scheme.Stays k.direction [] w c bi := by
  have hb : bi.1 ∈ r.bindings := (List.mem_zipIdx' hbi).2 ▸ List.getElem_mem _
  refine (h ?_).resolve_right id
  rw [State.values_on]
  exact ho c hc r hr bi.1 hb

/-- The role of a pair is as it should be, but for members that are still to be added or removed. -/
structure RoleNearly (k : OneWay) (o : Debts) (w : State) (done : List CorrespondenceId)
    (c : Correspondence) (child : Child) : Prop where
  placed : ∀ m ∈ w.role c child k.source,
    (∃ y, k.scheme.Placed w done c child k.source m y) ∨
    o c.id (c.element k.source) (.addition child m)
  matched : k.forced = true → ∀ a ∈ w.pairs.entries,
    a.element k.target ∈ w.role c child k.target →
    a.element k.source ∈ w.role c child k.source ∨
    o c.id (c.element k.source) (.removal child (a.element k.source))
  sole : k.forced = true → ∀ a ∈ w.pairs.entries, ∀ a' ∈ w.pairs.entries,
    a.element k.source = a'.element k.source →
    a.element k.target ∈ w.role c child k.target →
      a'.element k.target ∈ w.role c child k.target → a = a'

/-- What a rule asks for of a pair is there, or it is still to be done. -/
structure Nearly (k : OneWay) (o : Debts) (w : State) (done : List CorrespondenceId)
    (c : Correspondence) (r : Rule) : Prop where
  bindings : ∀ bi ∈ r.numbered, k.BindingNearly o w c bi
  roles : ∀ child ∈ r.children, k.RoleNearly o w done c child

theorem Placed.mono (h : k.scheme.Placed w done c child k.source m y) (hd : done ⊆ done') :
    k.scheme.Placed w done' c child k.source m y :=
  h.imp fun _ ⟨ha, he, hp, hid⟩ => ⟨ha, he, hp, hd hid⟩

/-- What is known of a role does not depend on remembered values. -/
theorem RoleNearly.core (h : k.RoleNearly o w done c child)
    (hcore : c'.core = c.core) : k.RoleNearly o w done c' child := by
  have hrole (s : Side) : w.role c' child s = w.role c child s := by
    rw [State.role, State.role, Correspondence.element_eq_of_core hcore]
  have hid := Correspondence.id_eq_of_core hcore
  have hel := Correspondence.element_eq_of_core hcore k.source
  refine ⟨?_, ?_, ?_⟩ <;> simp only [Scheme.Placed, hrole, hid, hel]
  · exact h.placed
  · exact h.matched
  · exact h.sole

/-- The rule of a pair has work of that kind: the new member is in the role, or one that left it
still has a counterpart there. -/
def Asks (k : OneWay) (w : State) (c : Correspondence) (r : Rule) : Due → Prop
  | .value bi => bi ∈ r.numbered
  | .addition child m => child ∈ r.children ∧ m ∈ w.role c child k.source
  | .removal child m => child ∈ r.children ∧ m ∉ w.role c child k.source ∧
    ∃ a ∈ w.pairs.entries, a.element k.source = m ∧
      a.element k.target ∈ w.role c child k.target

theorem Asks.core {due : Due} (h : k.Asks w c r due) (hcore : c'.core = c.core) :
    k.Asks w c' r due := by
  have hel := Correspondence.element_eq_of_core hcore
  cases due <;> simpa only [Asks, State.role, hel] using h

theorem RoleNearly.mono (h : k.RoleNearly o w done c child)
    (hadd : ∀ m ∈ w.role c child k.source, o c.id (c.element k.source) (.addition child m) →
      o' c.id (c.element k.source) (.addition child m))
    (hrem : ∀ a ∈ w.pairs.entries, a.element k.target ∈ w.role c child k.target →
      a.element k.source ∉ w.role c child k.source →
        o c.id (c.element k.source) (.removal child (a.element k.source)) →
        o' c.id (c.element k.source) (.removal child (a.element k.source)))
    (hd : done ⊆ done') : k.RoleNearly o' w done' c child where
  placed m hm := (h.placed m hm).imp (fun ⟨y, hy⟩ => ⟨y, Placed.mono hy hd⟩) (hadd m hm)
  matched hforced a ha hp := by
    by_cases hm : a.element k.source ∈ w.role c child k.source
    · exact .inl hm
    · exact .inr (hrem a ha hp hm ((h.matched hforced a ha hp).resolve_left hm))
  sole := h.sole

theorem Nearly.mono (h : k.Nearly o w done c r)
    (ho : ∀ due, k.Asks w c r due → o c.id (c.element k.source) due →
    o' c.id (c.element k.source) due) (hd : done ⊆ done') : k.Nearly o' w done' c r where
  bindings bi hbi hordered := (h.bindings bi hbi hordered).imp_right (ho (.value bi) hbi)
  roles child hchild :=
    (h.roles child hchild).mono (fun m hm => ho (.addition child m) ⟨hchild, hm⟩)
    (fun a ha hp hm => ho (.removal child _) ⟨hchild, hm, a, ha, rfl, hp⟩) hd

theorem RoleNearly.alike (h : k.RoleNearly o w done c child) (hl : w.pairs.Listed)
    (ha : w.Alike w') : k.RoleNearly o w' done c child := by
  refine ⟨?_, ?_, ?_⟩ <;> simp only [ha.role, ha.pairs]
  · exact fun m hm => (h.placed m hm).imp_left fun ⟨y, hy⟩ => ⟨y, hy.alike hl ha⟩
  · exact h.matched
  · exact h.sole

theorem Nearly.alike (h : k.Nearly o w done c r) (hl : w.pairs.Listed) (ha : w.Alike w') :
    k.Nearly o w' done c r where
  bindings bi hbi := by
    have hb := h.bindings bi hbi
    rw [BindingNearly, Scheme.Stays] at hb ⊢
    rwa [ha.values, ha.conflict]
  roles child hchild := (h.roles child hchild).alike hl ha

/-- Where nothing is owed, an element of the role that takes part in a pair is the counterpart of a
member. -/
theorem RoleNearly.fresh (h : k.RoleNearly (fun _ _ _ => False) w done c child)
    (hl : w.pairs.Listed) (hforced : k.forced = true) (hy : y ∈ w.role c child k.target) :
    (∃ m ∈ w.role c child k.source, k.scheme.Placed w done c child k.source m y) ∨
    w.pairs.partners k.target y = [] := by
  rw [or_iff_not_imp_right]
  intro hne
  obtain ⟨x, hx⟩ := List.exists_mem_of_ne_nil _ hne
  obtain ⟨a, ha, rfl, _⟩ := Correspondences.mem_partners.mp hx
  have hm := (h.matched hforced a ha hy).resolve_right id
  obtain ⟨y', hy'⟩ := (h.placed _ hm).resolve_right id
  obtain ⟨b, hcand, he, hp, _⟩ := hy'.oldest hl
  have hsame : b = a := h.sole hforced b hcand.mem a ha hcand.of_member (he ▸ hp) hy
  exact ⟨_, hm, by rw [← hsame]; exact he ▸ hsame ▸ hy'⟩

/-- Where nothing is owed, what the rule asks for is there. -/
theorem Nearly.rests (h : k.Nearly (fun _ _ _ => False) w done c r) (hl : w.pairs.Listed)
    (hc : c ∈ w.pairs.entries) (hr : k.rules.rule? c.rule = some r)
    (ho : k.Ordered w.graphs w.pairs) : k.scheme.Rests k.direction [] w done c r where
  bindings bi hbi := (h.bindings bi hbi).stays hc hr hbi ho
  placed child hchild auth hauth m hm := by
    obtain rfl := List.mem_singleton.mp hauth
    exact ((h.roles child hchild).placed m hm).resolve_right id
  fresh hforced child hchild auth hauth y hy := by
    obtain rfl := List.mem_singleton.mp hauth
    exact (h.roles child hchild).fresh hl hforced hy

/-- For every listed pair whose source is live the rule has done its work, as far as it is not owed,
and led to pairs after it in the list, or to those of `D`. -/
inductive Behind (k : OneWay) (o : Debts) (w : State) (D : List CorrespondenceId) :
    List CorrespondenceId → Prop where
  | nil : Behind k o w D []
  | cons {id : CorrespondenceId} {G : List CorrespondenceId}
    (head : ∀ c ∈ w.pairs.entries, c.id = id →
      (w.graphs.on k.source).contains (c.element k.source) = true →
      ∀ r, k.rules.rule? c.rule = some r → k.Nearly o w (G ++ D) c r)
    (tail : Behind k o w D G) : Behind k o w D (id :: G)

namespace Behind

/-- What holds for each pair on its own. -/
theorem map (h : k.Behind o w D G) (hmap : ∀ c' ∈ w'.pairs.entries, c'.id ∈ G →
      (w'.graphs.on k.source).contains (c'.element k.source) = true → ∃ c ∈ w.pairs.entries,
        c'.core = c.core ∧ (w.graphs.on k.source).contains (c.element k.source) = true ∧
          ∀ r done, k.rules.rule? c.rule = some r → k.Nearly o w (done ++ D) c r →
            k.Nearly o' w' (done ++ D') c' r) : k.Behind o' w' D' G := by
  induction h with
  | nil => exact .nil
  | @cons id G head _ ih =>
    refine .cons ?_ (ih fun c' hc' hid => hmap c' hc' (List.mem_cons_of_mem _ hid))
    rintro c' hc' rfl hlive r hr
    obtain ⟨c, hc, hcore, hlive', hnearly⟩ := hmap c' hc' List.mem_cons_self hlive
    rw [Correspondence.rule_eq_of_core hcore] at hr
    exact hnearly r G hr (head c hc (Correspondence.id_eq_of_core hcore).symm hlive' r hr)

theorem mono (h : k.Behind o w D G) (ho : ∀ c ∈ w.pairs.entries, c.id ∈ G →
    (w.graphs.on k.source).contains (c.element k.source) = true → ∀ r,
      k.rules.rule? c.rule = some r →
      ∀ due, k.Asks w c r due → o c.id (c.element k.source) due →
        o' c.id (c.element k.source) due) : k.Behind o' w D G :=
  h.map fun c hc hid hlive => ⟨c, hc, rfl, hlive, fun r _ hr hn =>
    hn.mono (ho c hc hid hlive r hr) fun _ hi => hi⟩

/-- Pairs whose rules were applied since are listed last. -/
theorem shift (h : k.Behind o w D G) (hd : D ⊆ D') : k.Behind o w D' (G.filter (· ∉ D')) := by
  induction h with
  | nil => exact .nil
  | @cons id G head _ ih =>
    rw [List.filter_cons]
    split
    · refine .cons
        (fun c hc hid hlive r hr => (head c hc hid hlive r hr).mono (fun _ _ h => h) ?_) ih
      intro i hi
      by_cases hin : i ∈ D'
      · exact List.mem_append_right _ hin
      · rcases List.mem_append.mp hi with hi | hi
        · exact List.mem_append_left _ (List.mem_filter.mpr ⟨hi, by simpa using hin⟩)
        · exact absurd (hd hi) hin
    · exact ih

theorem append {D₁ : List CorrespondenceId} (h : k.Behind o w (D₁ ++ D) G)
    (hd : k.Behind o w D D₁) : k.Behind o w D (G ++ D₁) := by
  induction h with
  | nil => exact hd
  | cons head _ ih =>
    exact .cons (fun c hc hid hlive r hr => by simpa using head c hc hid hlive r hr) ih

/-- Where nothing is owed, all pairs that are recorded are at rest. -/
theorem atRest (h : k.Behind (fun _ _ _ => False) w [] G) (hl : w.pairs.Listed)
    (ha : ∀ c ∈ w.pairs.entries, (w.graphs.on k.source).contains (c.element k.source) = true)
    (ho : k.Ordered w.graphs w.pairs) :
    k.scheme.AtRest k.direction [] w (G.filter (· ∈ w.pairs.entries.map Correspondence.id)) := by
  refine Scheme.AtRest.recorded ?_ hl
  induction h with
  | nil => exact .nil
  | @cons id G head _ ih =>
    refine .cons (fun c hc hid r hr => ?_) ih
    have hrests := (head c hc hid (ha c hc) r hr).rests hl hc hr ho
    rwa [List.append_nil] at hrests

end Behind

end OneWay

namespace Pass

variable {p : Pass} {o : Debts} {w w' : State} {done done' D D' G : List CorrespondenceId}
  {frames tail : List Frame} {c c' a a' : Correspondence} {r : Rule} {f : Frame} {child : Child}
  {m y : ElementId}

/-- A pair whose target the old graph could hold is not new. -/
theorem Grows.old_of_lt (hg : p.Grows w w') (ha : a ∈ w'.pairs.entries)
    (hlt : (a.element p.target).index < (w.graphs.on p.target).next) :
    ∃ a₀ ∈ w.pairs.entries, a.core = a₀.core := by
  rcases hg.origin a ha with hold | ⟨_, _, hnew, _⟩
  · exact hold
  · omega

theorem Grows.old_of_id (hg : p.Grows w w') (ha : a ∈ w'.pairs.entries)
    (hlt : a.id.index < w.pairs.next) : ∃ a₀ ∈ w.pairs.entries, a.core = a₀.core := by
  rcases hg.origin a ha with hold | ⟨_, hnew, _, _⟩
  · exact hold
  · omega

/-- A counterpart stays if it stands in the role and no other pair of its member came there. -/
theorem Placed.grows (h : p.scheme.Placed w done c child p.source m y) (hg : p.Grows w w')
    (hl : w.pairs.Listed) (hl' : w'.pairs.Listed) (hs : (w.graphs.on p.target).Sound)
    (hp : y ∈ w'.role c child p.target)
    (ho : ∀ a ∈ w'.pairs.entries, a.element p.source = m →
      a.element p.target ∈ w'.role c child p.target →
      a.element p.target ∈ w.role c child p.target) :
    p.scheme.Placed w' done c child p.source m y := by
  obtain ⟨a, hcand, rfl, hpl, hid, hmin⟩ := h.oldest hl
  obtain ⟨a', ha', hcore⟩ := hg.kept a hcand.mem hcand.inner hcand.live
  have hkey := Correspondence.id_eq_of_core hcore
  have htarget : a'.element p.target = a.element p.target :=
    Correspondence.element_eq_of_core hcore p.target
  have hcand' : w'.pairs.Candidate p.source (w'.graphs.on p.target) m a' := by
    refine ⟨ha', (Correspondence.isAnchor_eq_of_core hcore).trans hcand.inner, ?_, ?_⟩
    · rw [Correspondence.element_eq_of_core hcore, hcand.of_member]
    · rw [OneWay.source_other, htarget]
      exact hg.live _ hcand.live
  have hpl' : a'.element p.target ∈ w'.role c child p.target := htarget ▸ hp
  have hplaced : p.scheme.Placed w' [a'.id] c child p.source m (a'.element p.target) := by
    refine .of_oldest hl' hcand' hpl' (fun b hb hbp => ?_) (by simp)
    have hold := ho b hb.mem hb.of_member hbp
    obtain ⟨b₀, hb₀, hcore₀⟩ := hg.old_of_lt hb.mem (hs.member_lt hold)
    rw [hkey, Correspondence.id_eq_of_core hcore₀]
    refine hmin b₀ ⟨hb₀, ?_, ?_, ?_⟩ ?_
    · rw [← Correspondence.isAnchor_eq_of_core hcore₀, hb.inner]
    · rw [← Correspondence.element_eq_of_core hcore₀, hb.of_member]
    · rw [← Correspondence.element_eq_of_core hcore₀]
      exact hs.members_live _ _ _ hold
    · rwa [← Correspondence.element_eq_of_core hcore₀]
  obtain ⟨b, hb, he, hp', hid'⟩ := hplaced
  refine ⟨b, hb, he.trans htarget, htarget ▸ hp', ?_⟩
  rw [List.mem_singleton.mp hid', hkey]
  exact hid

theorem Grows.role_source (hg : p.Grows w w') (c : Correspondence) (child : Child) :
    w'.role c child p.source = w.role c child p.source := by
  rw [State.role, State.role, hg.source]

/-- What stood in a role before is no newer than the role: a pair in it is one that was recorded
before. -/
theorem RoleNearly.matched_before (h : p.RoleNearly o w done c child) (hg : p.Grows w w')
    (hs : (w.graphs.on p.target).Sound) (hforced : p.forced = true) (ha : a ∈ w'.pairs.entries)
    (hp : a.element p.target ∈ w.role c child p.target) :
    a.element p.source ∈ w.role c child p.source ∨
      o c.id (c.element p.source) (.removal child (a.element p.source)) := by
  obtain ⟨a₀, ha₀, hcore⟩ := hg.old_of_lt ha (hs.member_lt hp)
  rw [Correspondence.element_eq_of_core hcore] at hp ⊢
  exact h.matched hforced a₀ ha₀ hp

theorem RoleNearly.sole_before (h : p.RoleNearly o w done c child) (hg : p.Grows w w')
    (hl' : w'.pairs.Listed) (hs : (w.graphs.on p.target).Sound) (hforced : p.forced = true)
    (ha : a ∈ w'.pairs.entries) (ha' : a' ∈ w'.pairs.entries)
    (he : a.element p.source = a'.element p.source)
    (hp : a.element p.target ∈ w.role c child p.target)
    (hp' : a'.element p.target ∈ w.role c child p.target) : a = a' := by
  obtain ⟨a₀, ha₀, hcore⟩ := hg.old_of_lt ha (hs.member_lt hp)
  obtain ⟨a₁, ha₁, hcore'⟩ := hg.old_of_lt ha' (hs.member_lt hp')
  rw [Correspondence.element_eq_of_core hcore] at he hp
  rw [Correspondence.element_eq_of_core hcore'] at he hp'
  refine hl'.eq_of_id ha ha' ?_
  rw [Correspondence.id_eq_of_core hcore, Correspondence.id_eq_of_core hcore',
    h.sole hforced a₀ ha₀ a₁ ha₁ he hp hp']

theorem RoleNearly.grows (h : p.RoleNearly o w done c child) (hg : p.Grows w w')
    (hl : w.pairs.Listed) (hl' : w'.pairs.Listed) (hs : (w.graphs.on p.target).Sound)
    (hrole : w'.role c child p.target = w.role c child p.target) :
    p.RoleNearly o w' done c child where
  placed m hm := by
    rw [hg.role_source] at hm
    refine (h.placed m hm).imp_left
      fun ⟨y, hy⟩ => ⟨y, Placed.grows hy hg hl hl' hs ?_ fun _ _ _ hp => hrole ▸ hp⟩
    rw [hrole]
    obtain ⟨_, _, _, hp, _⟩ := hy
    exact hp
  matched hforced a ha hp := by
    rw [hg.role_source]
    exact RoleNearly.matched_before h hg hs hforced ha (hrole ▸ hp)
  sole hforced a ha a' ha' he hp hp' :=
    RoleNearly.sole_before h hg hl' hs hforced ha ha' he (hrole ▸ hp) (hrole ▸ hp')

/-- So does one in the role of a pair that is as it was. -/
theorem Placed.keeps (h : p.scheme.Placed w done c child p.source m y) (hg : p.Grows w w')
    (hl : w.pairs.Listed) (hl' : w'.pairs.Listed) (hs : (w.graphs.on p.target).Sound)
    (hk : w.store.Keeps w'.store c) : p.scheme.Placed w' done c child p.source m y := by
  have hrole := hk.role child p.target
  obtain ⟨_, _, _, hp, _⟩ := id h
  exact Placed.grows h hg hl hl' hs (hrole ▸ hp) fun _ _ _ hp' => hrole ▸ hp'

/-- A pair that is as it was, among pairs that are still recorded. -/
theorem Nearly.keeps (h : p.Nearly o w done c r) (hg : p.Grows w w') (hl : w.pairs.Listed)
    (hl' : w'.pairs.Listed) (hs : (w.graphs.on p.target).Sound) (hk : w.store.Keeps w'.store c) :
    p.Nearly o w' done c r where
  bindings bi hbi := (h.bindings bi hbi).congr rfl (hk.values bi.1) rfl
  roles child hchild :=
    RoleNearly.grows (h.roles child hchild) hg hl hl' hs (hk.role child p.target)

/-- Pairs of the list are as they were, unless they are no longer of interest. -/
theorem Behind.keeps (h : p.Behind o w D G) (hg : p.Grows w w') (hl : w.pairs.Listed)
    (hl' : w'.pairs.Listed) (hs : (w.graphs.on p.target).Sound)
    (hb : ∀ id ∈ G, id.index < w.pairs.next)
    (hk : ∀ c ∈ w.pairs.entries, c.id ∈ G →
      (w.graphs.on p.source).contains (c.element p.source) = true →
      w.store.Keeps w'.store c) : p.Behind o w' D G := by
  refine OneWay.Behind.map h fun c' hc' hid hlive => ?_
  obtain ⟨c, hc, hcore⟩ := hg.old_of_id hc' (hb _ hid)
  rw [hg.source, Correspondence.element_eq_of_core hcore] at hlive
  have hi := Correspondence.id_eq_of_core hcore
  have hkeeps := hk c hc (hi ▸ hid) hlive
  obtain rfl : c' = c := hl'.eq_of_id hc' hkeeps.entry hi
  exact ⟨c', hc, rfl, hlive, fun r done _ hn => Nearly.keeps hn hg hl hl' hs hkeeps⟩

theorem BindingDone.nearly {b : Binding} {index : Nat} (h : p.BindingDone w f b index)
    (hc : c ∈ w.pairs.entries) (hid : c.id = f.id) (hel : c.elements = f.pair) :
    p.BindingNearly o w c (b, index) :=
  .of_kept (hel ▸ h.settled) (hel ▸ fun hin => h.remembered hin c hc hid)

theorem role_mirrored (hel : c.elements = f.pair) (child : Child) :
    w.role c child p.target = p.mirrored w f child := by
  rw [State.role, Correspondence.element, hel]
  rfl

theorem Steady.role_followed {stack : List Frame} (hs : p.Steady stack frames w)
    (hel : c.elements = f.pair) (child : Child) : w.role c child p.source = p.followed f child := by
  rw [State.role, Correspondence.element, hel, hs.source]
  rfl

theorem Chosen.toPlaced {stack : List Frame} (h : p.Chosen w f child m a)
    (hs : p.Steady stack frames w) (hel : c.elements = f.pair) (hid : a.id ∈ done) :
    p.scheme.Placed w done c child p.source m (a.element p.target) := by
  have hrole : w.role c child p.source.other = p.mirrored w f child := role_mirrored hel child
  refine .of_oldest hs.coherent.listed
    ⟨h.mem, h.inner, h.of_member, hs.sound.members_live _ _ _ h.placed⟩
    (hrole ▸ h.placed) ?_ hid
  intro b hb hp
  exact h.oldest b hb.mem hb.inner hb.of_member (hrole ▸ hp)

theorem Met.toPlaced {stack : List Frame} (h : p.Met w tail f child m y)
    (hs : p.Steady stack frames w) (hel : c.elements = f.pair) :
    p.scheme.Placed w (tail.map Frame.id) c child p.source m y := by
  obtain ⟨a, ha, rfl, hid, _⟩ := h
  exact ha.toPlaced hs hel hid

theorem RoleDone.nearly {stack : List Frame} (h : p.RoleDone w tail f child)
    (hs : p.Steady stack frames w) (hel : c.elements = f.pair) :
    p.RoleNearly o w (tail.map Frame.id) c child := by
  have hrole : w.role c child p.target = p.mirrored w f child := role_mirrored hel child
  have hchosen {a : Correspondence} (hforced : p.forced = true) (ha : a ∈ w.pairs.entries)
      (hp : a.element p.target ∈ w.role c child p.target) :=
        h.chosen hforced hs.coherent ha (hrole ▸ hp)
  refine ⟨fun m hm => .inl ?_, fun hforced a ha hp => .inl ?_,
    fun hforced a ha b hb he hp hp' => ?_⟩
  · obtain ⟨ys, hmet, _⟩ := h
    rw [hs.role_followed hel] at hm
    obtain ⟨y, _, hy⟩ := exists_of_mem_left hmet hm
    exact ⟨y, hy.toPlaced hs hel⟩
  · rw [hs.role_followed hel]
    exact (hchosen hforced ha hp).1
  · exact (hchosen hforced ha hp).2.unique (he ▸ (hchosen hforced hb hp').2) hs.coherent.listed

/-- Where a rule is done, nothing is left to do for its pair. -/
theorem Done.nearly {stack : List Frame} (h : p.Done w tail f) (hs : p.Steady stack frames w)
    (hattributes : p.rules.UniqueAttributes p.target) (hf : f ∈ frames)
    (hc : c ∈ w.pairs.entries) (hid : c.id = f.id) :
    p.Nearly o w (tail.map Frame.id) c f.rule := by
  have hown := hs.owned f (List.mem_append_right stack hf)
  have hel := (hown.entry c hc hid).2
  have hnodup := hattributes f.rule (RuleSet.mem_of_rule? hown.rule).1
  exact ⟨fun bi hbi => (h.bindings hnodup bi hbi).nearly hc hid hel,
    fun child hchild => (h.roles child hchild).nearly hs hel⟩

/-- What was done by a walk is not behind. -/
theorem Finished.behind {stack : List Frame} (h : p.Finished w tail) (hs : p.Steady stack frames w)
    (hattributes : p.rules.UniqueAttributes p.target) (hsub : tail ⊆ frames) :
    p.Behind o w [] (tail.map Frame.id) := by
  induction h with
  | nil => exact .nil
  | @cons f tail head _ ih =>
    obtain ⟨hf, hsub'⟩ := List.cons_subset.mp hsub
    refine .cons (fun c hc hid _ r hr => ?_) (ih hsub')
    have hown := hs.owned f (List.mem_append_right stack hf)
    obtain rfl : f.rule = r := by
      rw [(hown.entry c hc hid).1, hown.rule] at hr
      exact Option.some.inj hr
    rw [List.append_nil]
    exact head.nearly hs hattributes hf hc hid

/-- The pairs of rules that were applied are at rest, as far as they are still recorded. -/
theorem Finished.atRest {stack : List Frame} (h : p.Finished w tail) (hs : p.Steady stack frames w)
    (hattributes : p.rules.UniqueAttributes p.target) (ho : p.Ordered w.graphs w.pairs)
    (hsub : tail ⊆ frames) : p.scheme.AtRest p.direction [] w (tail.map Frame.id) := by
  induction h with
  | nil => exact .nil
  | @cons f tail head _ ih =>
    obtain ⟨hf, hsub'⟩ := List.cons_subset.mp hsub
    refine .cons (fun c hc hid r hr => ?_) (ih hsub')
    have hown := hs.owned f (List.mem_append_right stack hf)
    obtain rfl : f.rule = r := by
      rw [show p.scheme.rules.rule? c.rule = p.rules.rule? c.rule from rfl, (hown.entry c hc hid).1,
        hown.rule] at hr
      exact Option.some.inj hr
    exact (head.nearly hs hattributes hf hc hid).rests hs.coherent.listed hc hr ho

end Pass

end GraphSync
