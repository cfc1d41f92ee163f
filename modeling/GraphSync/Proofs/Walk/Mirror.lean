import GraphSync.Proofs.Walk.Anchor
import GraphSync.Proofs.Walk.Apart
import GraphSync.Proofs.Walk.Steps

namespace GraphSync

open Walk Relation

variable {k : Scheme} {d : Direction} {V V' : CorrespondenceId → Prop} {a b z : Store} {s : Side}
  {m y owner : ElementId} {role : RoleName} {id : CorrespondenceId}

/-- The element `y` stands for `m` in a role of `owner` on the other side. -/
structure Store.Mirrors (a : Store) (s : Side) (m owner : ElementId) (role : RoleName)
    (y : ElementId) : Prop where
  member : y ∈ (a.graphs.on s.other).members owner role
  paired : ∃ c ∈ a.pairs.entries, c.isAnchor = false ∧ c.element s = m ∧
    c.element s.other = y

/-- No other pair of `owner` than that of the handle has a rule that mirrors something in the role.
The root has its pair. -/
structure Scheme.Sole (k : Scheme) (a : Store) (s : Side) (id : CorrespondenceId)
    (owner : ElementId) (role : RoleName) : Prop where
  entry : ∀ c ∈ a.pairs.entries, c.element s = owner → ∀ r,
    k.rules.rule? c.rule = some r →
    (∃ child ∈ r.children, child.roles.on s = role) → c.id = id
  root : owner = (a.graphs.on s).root → a.Anchored

/-- What leaves a role is taken out on behalf of a pair of its owner. -/
theorem Act.mem_members_or (h : Act k d V a b) (hsound : ∀ s, (a.graphs.on s).Sound)
    (hy : y ∈ (a.graphs.on s).members owner role) : y ∈ (b.graphs.on s).members owner role ∨
      ∃ id rule pair, V id ∧ a.Names id rule pair ∧ pair.on s = owner ∧
        k.Uses rule s role := by
  have put {t : Side} {g : Graph} {P : Prop} (hg : s = t → y ∈ g.members owner role ∨ P) :
      y ∈ ((a.graphs.put t g).on s).members owner role ∨ P := by
    by_cases ht : s = t
    · have hm := hg ht
      subst t
      rwa [Sided.on_put_self]
    · rw [Sided.on_put_of_ne _ _ ht]
      exact .inl hy
  cases h with
  | remember => exact .inl hy
  | copy on names known numbered side write =>
    exact put fun ht => .inl (by subst ht; rwa [write.members_setValue])
  | link on names side partner live new le write =>
    refine put fun ht => .inl ?_
    subst ht
    rw [write.members]
    split
    · rename_i he
      rw [List.mem_insertIdx le, ← he.1, ← he.2]
      exact .inr hy
    · exact hy
  | @unlink id rule pair t role' y' g' forced on names side write used =>
    refine put fun ht => ?_
    subst ht
    by_cases he : owner = pair.on t.other ∧ role = role'
    · obtain ⟨rfl, rfl⟩ := he
      exact .inr ⟨id, rule, pair, on, names, rfl, used⟩
    · refine .inl ?_
      rwa [write.members, if_neg he]
  | make => exact put fun ht => .inl (by subst ht; rwa [(hsound _).members_add])
  | record => exact .inl hy

/-- If the pair of the handle is the only one that feeds the role when all is done, a write on
behalf of another pair leaves the counterparts there. -/
theorem Act.mirrors (h : Act k d V a b) (hk : k.Consistent a.graphs a.pairs) (hz : Acts k d V' b z)
    (hsole : k.Sole z s.other id owner role) (hv : ∀ i, V i → i ≠ id)
    (hm : (a.graphs.on s).contains m = true) (ha : a.Mirrors s m owner role y) :
    b.Mirrors s m owner role y := by
  obtain ⟨hy, c, hc, hi, hcm, hcy⟩ := ha
  have hlive (t : Side) : (a.graphs.on t).contains (c.element t) = true := by
    rcases s.eq_or_eq_other t with rfl | rfl
    · rwa [hcm]
    · rw [hcy]
      exact (hk.sound _).members_live _ _ _ hy
  refine ⟨?_, ?_⟩
  · rcases h.mem_members_or hk.sound hy with hy | ⟨i, rule, pair, hvi, hn, rfl, hrule, hchild⟩
    · exact hy
    -- the pair that the write is for is still recorded in the end, and feeds the role
    refine absurd ?_ (hv i hvi)
    have hnz : z.Names i rule pair := hz.names (h.consistent hk) (h.names hk hn)
    have feeds {e : Correspondence} (he : e ∈ z.pairs.entries) (hei : e.id = i) : i = id := by
      obtain ⟨her, hel⟩ := hnz.entry e he hei
      rw [← hei]
      refine hsole.entry e he ?_ rule ?_ hchild
      · rw [Correspondence.element, hel]
      · rw [her]
        exact hrule
    rcases hnz.recorded with ⟨e, he, hei, _⟩ | ⟨hroot, hanchor⟩
    · exact feeds he hei
    · obtain ⟨e, he, hea⟩ := hsole.root (by rw [hroot, Sided.on_map])
      exact feeds he (hanchor e he hea)
  · obtain ⟨c', hc', hcore⟩ := h.kept hk hc hi hlive
    exact ⟨c', hc', (Correspondence.isAnchor_eq_of_core hcore).trans hi,
      (Correspondence.element_eq_of_core hcore _).trans hcm,
      (Correspondence.element_eq_of_core hcore _).trans hcy⟩

theorem Acts.mirrors (h : Acts k d V a b) (hk : k.Consistent a.graphs a.pairs)
    (hz : Acts k d (fun _ => True) b z) (hsole : k.Sole z s.other id owner role)
    (hv : ∀ i, V i → i ≠ id) (hm : (a.graphs.on s).contains m = true)
    (ha : a.Mirrors s m owner role y) : b.Mirrors s m owner role y := by
  induction h with
  | refl => exact ha
  | @tail b c hrun hact ih =>
    have hrun' : Acts k d V a b := hrun
    have hbz : Acts k d (fun _ => True) b z := .head (hact.mono fun _ _ => trivial) hz
    exact hact.mirrors (hrun'.consistent hk) hz hsole hv (hrun'.contains hk hm) (ih hbz)

/-- On the pair of the handle, a child that is the last one of its rule to mirror into some role has
a counterpart there for each member, if no other pair feeds that role. -/
def Scheme.Settled (k : Scheme) (s : Side) (a : Store) (id : CorrespondenceId) : Prop :=
  ∀ c ∈ a.pairs.entries, c.id = id → ∀ r, k.rules.rule? c.rule = some r →
    ∀ front child back, r.children = front ++ child :: back →
      (∀ child' ∈ back, child'.roles.on s.other ≠ child.roles.on s.other) →
    k.Sole a s.other id (c.element s.other) (child.roles.on s.other) →
    ∀ m ∈ (a.graphs.on s).members (c.element s) (child.roles.on s),
      ∃ y, a.Mirrors s m (c.element s.other) (child.roles.on s.other) y

namespace OneWay

variable {k : OneWay} {w w' w'' : State} {rule : Rule} {pair : Sided ElementId} {child : Child}
  {apply : Apply} {R R' : RoleName → Prop}

/-- The pair of the handle is settled, whatever is done on behalf of others. -/
def Secured (k : OneWay) (a : Store) (id : CorrespondenceId) : Prop :=
  ∀ z, Acts k.scheme k.direction (· ≠ id) a z → k.scheme.Settled k.source z id

/-- Pairs visited from `w` to `w'` are settled. As long as the pair of the handle alone feeds a role
that `R` holds of, the counterparts in that role of `owner` stay there. -/
structure Mirroring (k : OneWay) (id : CorrespondenceId) (owner : ElementId) (R : RoleName → Prop)
    (w w' : State) : Prop where
  went : k.scheme.Went k.direction (· = id) w w'
  secured : ∀ i ∈ w'.visited, i ∉ w.visited → k.Secured w'.store i
  retains : ∀ z, Acts k.scheme k.direction (fun _ => True) w'.store z → ∀ role, R role →
    k.scheme.Sole z k.source.other id owner role → ∀ m y,
      (w.graphs.on k.source).contains m = true →
      w.store.Mirrors k.source m owner role y → w'.store.Mirrors k.source m owner role y

namespace Mirroring

theorem of_same (hw : k.scheme.Went k.direction (· = id) w w')
    (hv : w'.visited = w.visited)
    (hr : ∀ role, R role → ∀ m y, (w.graphs.on k.source).contains m = true →
      w.store.Mirrors k.source m owner role y → w'.store.Mirrors k.source m owner role y) :
    k.Mirroring id owner R w w' :=
  ⟨hw, fun _ hi hn => absurd (hv ▸ hi) hn, fun _ _ role hrole _ => hr role hrole⟩

theorem refl (h : k.scheme.Consistent w.graphs w.pairs) : k.Mirroring id owner R w w :=
  .of_same (.refl h) rfl fun _ _ _ _ _ hm => hm

theorem mono (h : k.Mirroring id owner R w w') (hr : ∀ role, R' role → R role) :
    k.Mirroring id owner R' w w' :=
  ⟨h.went, h.secured, fun z hz role hrole => h.retains z hz role (hr role hrole)⟩

theorem trans (hid : id ∈ w.visited) (h : k.Mirroring id owner R w w')
    (h' : k.Mirroring id owner R w' w'') : k.Mirroring id owner R w w'' := by
  refine ⟨h.went.trans h'.went, fun i hi hn => ?_, fun z hz role hrole hsole m y hm hy => ?_⟩
  · by_cases hi' : i ∈ w'.visited
    · intro z hz
      refine h.secured i hi' hn z (.trans (h'.went.acts.mono fun j hj => ?_) hz)
      rintro rfl
      rcases hj with rfl | ⟨_, hnot⟩
      · exact hn hid
      · exact hnot hi'
    · exact h'.secured i hi hi'
  · have hz' : Acts k.scheme k.direction (fun _ => True) w'.store z :=
      .trans (h'.went.acts.mono fun _ _ => trivial) hz
    refine h'.retains z hz role hrole hsole m y ?_ (h.retains z hz' role hrole hsole m y hm hy)
    have hs : w'.graphs.on k.source = w.graphs.on k.source := h.went.acts.source
    rwa [hs]

/-- Pairs visited below are others. -/
theorem of_nested (hid : id ∈ w.visited) (h : k.scheme.Consistent w.graphs w.pairs)
    (hw : k.scheme.Went k.direction (fun _ => False) w w')
    (hs : ∀ i ∈ w'.visited, i ∉ w.visited → k.Secured w'.store i) :
    k.Mirroring id owner R w w' := by
  refine ⟨hw.mono fun _ hf => hf.elim, hs, fun z hz role _ hsole m y hm hy => ?_⟩
  refine hw.acts.mirrors h hz hsole ?_ hm hy
  rintro i (hf | ⟨_, hn⟩) rfl
  · exact hf
  · exact hn hid

/-- A counterpart that takes its place in a role pushes no other one out. -/
theorem of_linked {r : Rule} {c : Correspondence} (h : k.scheme.Consistent w.graphs w.pairs)
    (hl : k.scheme.Linked k.direction (· = id) k.source child pair m r c w w') :
    k.Mirroring id (pair.on k.source.other) R w w' := by
  refine .of_same hl.went hl.visited
    fun role _ m' y _ ⟨hy, a, ha, hi, ham, hay⟩ => ⟨?_, a, ?_, hi, ham, hay⟩
  · by_cases hrole : role = child.roles.on k.source.other
    · subst hrole
      exact (hl.mem_role y).mpr (.inr hy)
    · exact (hl.members role hrole).symm ▸ hy
  · rcases hl.kept a ha with ha | ⟨_, _, _, hanchor | hdead⟩
    · exact ha
    · exact Bool.noConfusion (hi.symm.trans hanchor)
    · rw [hay, (h.sound _).members_live _ _ _ hy] at hdead
      cases hdead

end Mirroring

/-- What the application of a rule visits is settled in the end. -/
def Secures (k : OneWay) (apply : Apply) : Prop :=
  ∀ (r : Rule) (c : Correspondence) (w : State), k.rules.rule? c.rule = some r →
    k.scheme.Consistent w.graphs w.pairs → c ∈ w.pairs.entries →
      (∀ s, (w.graphs.on s).contains (c.element s) = true) →
      wp (apply r c.id c.elements) (fun _ w' => k.scheme.Went k.direction (fun _ => False) w w' ∧
        ∀ i ∈ w'.visited, i ∉ w.visited → k.Secured w'.store i) (fun _ _ => True) w

/-- The counterparts of the members are among the given elements, and stand in the role, if no other
pair feeds it. -/
def Placed (k : OneWay) (id : CorrespondenceId) (pair : Sided ElementId) (child : Child)
    (ms ys : List ElementId) (w : State) : Prop :=
  ∀ z, Acts k.scheme k.direction (fun _ => True) w.store z →
    k.scheme.Sole z k.source.other id (pair.on k.source.other) (child.roles.on k.source.other) →
    ∀ m ∈ ms, ∃ y ∈ ys,
      w.store.Mirrors k.source m (pair.on k.source.other) (child.roles.on k.source.other) y

theorem Placed.later {ms ys : List ElementId} (h : k.Placed id pair child ms ys w)
    (hr : R (child.roles.on k.source.other)) (hw : k.Mirroring id (pair.on k.source.other) R w w')
    (hms : ∀ m ∈ ms, (w.graphs.on k.source).contains m = true) :
    k.Placed id pair child ms ys w' := by
  intro z hz hsole m hm
  obtain ⟨y, hy, hmirrors⟩ := h z (.trans (hw.went.acts.mono fun _ _ => trivial) hz) hsole m hm
  exact ⟨y, hy, hw.retains z hz _ hr hsole m y (hms m hm) hmirrors⟩

section Names

variable (happly : k.Secures apply) (hr : k.rules.rule? rule.name = some rule)
  (hid : id ∈ w.visited) (h : k.scheme.Consistent w.graphs w.pairs)
  (hn : w.store.Names id rule pair)

include happly hr hid h hn

theorem mirroring_linkMember (hchild : child ∈ rule.children)
    (hm : m ∈ (w.graphs.on k.source).members (pair.on k.source) (child.roles.on k.source))
    (earlier later : List ElementId) :
    wp (linkMember k.rules k.direction apply child k.source (pair.on k.source.other)
      earlier m later) (fun y w' => k.Mirroring id (pair.on k.source.other) (fun _ => True) w w' ∧
      k.Placed id pair child [m] [y] w') (fun _ _ => True) w := by
  refine Scheme.wp_linkMember (k := k.scheme) (V := (· = id)) h (fun _ => hn) hr rfl
    (List.mem_singleton_self _) hchild hm earlier later (fun _ => trivial) (fun _ _ => trivial) ?_
  intro r c w₁ hl
  refine wp_imp (happly r c w₁ hl.rule hl.went.consistent hl.entry hl.live) ?_
  rintro _ w' ⟨hw, hs⟩
  have hnested : k.Mirroring id (pair.on k.source.other) (fun _ => True) w₁ w' :=
    .of_nested (hl.visited ▸ hid) hl.went.consistent hw hs
  have hplaced : k.Placed id pair child [m] [c.element k.source.other] w₁ := by
    intro z _ _ m' hm'
    obtain rfl := List.mem_singleton.mp hm'
    exact ⟨_, List.mem_singleton_self _, (hl.mem_role _).mpr (.inl rfl), c, hl.entry, hl.inner,
      hl.member, rfl⟩
  refine ⟨(Mirroring.of_linked h hl).trans hid hnested,
    hplaced.later trivial hnested fun m' hm' => ?_⟩
  rw [List.mem_singleton.mp hm', ← hl.member]
  exact hl.live k.source

theorem mirroring_linkMembers (hchild : child ∈ rule.children) (ms : List ElementId)
    (hms : ∀ m ∈ ms,
      m ∈ (w.graphs.on k.source).members (pair.on k.source) (child.roles.on k.source))
    (earlier : List ElementId) :
    wp (linkMembers k.rules k.direction apply child k.source (pair.on k.source.other) earlier ms)
      (fun ys w' => k.Mirroring id (pair.on k.source.other) (fun _ => True) w w' ∧
        k.Placed id pair child ms ys w')
      (fun _ _ => True) w := by
  induction ms generalizing earlier w with
  | nil => exact ⟨.refl h, fun _ _ _ _ hm => by cases hm⟩
  | cons m later ih =>
    rw [linkMembers, wp_bind]
    refine wp_imp
      (mirroring_linkMember happly hr hid h hn hchild (hms m (by simp)) earlier later) ?_
    rintro y w₁ ⟨hw₁, hfirst⟩
    have hsource : w₁.graphs.on k.source = w.graphs.on k.source := hw₁.went.acts.source
    have hms₁ : ∀ m' ∈ m :: later, m' ∈ (w₁.graphs.on k.source).members (pair.on k.source)
        (child.roles.on k.source) :=
      hsource ▸ hms
    have hs₁ := hw₁.went.consistent.sound k.source
    rw [wp_bind]
    refine wp_imp (ih (hw₁.went.visited hid) hw₁.went.consistent (hw₁.went.acts.names h hn)
      (fun m' hm' => hms₁ m' (by simp [hm'])) (m :: earlier)) ?_
    rintro ys w₂ ⟨hw₂, hrest⟩
    refine ⟨hw₁.trans hid hw₂, fun z hz hsole m' hm' => ?_⟩
    rcases List.mem_cons.mp hm' with rfl | hm'
    · have hfirst₂ := hfirst.later trivial hw₂ fun m'' hm'' =>
        hs₁.members_live _ _ _ (hms₁ m'' (by simp [List.mem_singleton.mp hm'']))
      obtain ⟨y', hy', hmirrors⟩ := hfirst₂ z hz hsole m' (List.mem_singleton_self _)
      exact ⟨y', List.mem_cons.mpr (.inl (List.mem_singleton.mp hy')), hmirrors⟩
    · obtain ⟨y', hy', hmirrors⟩ := hrest z hz hsole m' hm'
      exact ⟨y', List.mem_cons_of_mem _ hy', hmirrors⟩

omit happly hid in
/-- What is taken out of a role is none of the given counterparts. -/
theorem mirroring_unlinkStale (hforced : k.direction.isForced = true)
    (hchild : child ∈ rule.children) {ms ys : List ElementId}
    (hplaced : k.Placed id pair child ms ys w) :
    wp (unlinkStale child k.source (pair.on k.source.other) ys)
      (fun _ w' =>
        k.Mirroring id (pair.on k.source.other) (· ≠ child.roles.on k.source.other) w w' ∧
        k.Placed id pair child ms ys w') (fun _ _ => True) w := by
  have htraces : k.scheme.Traces k.direction (· = id) (fun _ => True)
      (unlinkStale child k.source (pair.on k.source.other) ys) w :=
    Scheme.traces_unlinkStale (V := (· = id)) hr rfl (List.mem_singleton_self _)
      hforced hchild h hn ys
  refine wp_imp (htraces.and (Q := fun _ w' => w'.pairs = w.pairs ∧ w'.visited = w.visited ∧
    (w.graphs.on k.source.other).Relists (w'.graphs.on k.source.other) (pair.on k.source.other)
      (child.roles.on k.source.other)
      (((w.graphs.on k.source.other).members (pair.on k.source.other)
        (child.roles.on k.source.other)).filter (Stays w.pairs k.target ys ·))) ?_) ?_
  · refine wp_unlinkStale (h.sound k.target) (fun _ _ => trivial)
      fun _ g' report hg _ => ⟨rfl, rfl, ?_⟩
    have hput : (w.graphs.put k.target g').on k.source.other = g' := Sided.on_put_self _ _ _
    rw [hput]
    exact hg
  rintro _ w' ⟨hw, hpairs, hvisited, hrelists⟩
  have mirrors {m' y' : ElementId} {role' : RoleName}
      (hm : w.store.Mirrors k.source m' (pair.on k.source.other) role' y')
      (hstay : role' = child.roles.on k.source.other → y' ∈ ys) :
      w'.store.Mirrors k.source m' (pair.on k.source.other) role' y' := by
    refine ⟨?_, ?_⟩
    swap
    · obtain ⟨c, hc, hcm⟩ := hm.paired
      exact ⟨c, (congrArg Correspondences.entries hpairs).symm ▸ hc, hcm⟩
    have hy : y' ∈ (w.graphs.on k.source.other).members (pair.on k.source.other) role' :=
      hm.member
    change y' ∈ (w'.graphs.on k.source.other).members _ _
    rw [hrelists.members]
    split
    · rename_i he
      exact List.mem_filter.mpr ⟨he.2 ▸ hy, by simpa using .inl (hstay he.2)⟩
    · exact hy
  refine ⟨.of_same hw hvisited fun role' hne m' y' _ hm => mirrors hm fun he => absurd he hne,
    fun z hz hsole m' hm' => ?_⟩
  obtain ⟨y', hy', hm⟩ := hplaced z (.trans (hw.acts.mono fun _ _ => trivial) hz) hsole m' hm'
  exact ⟨y', hy', mirrors hm fun _ => hy'⟩

/-- Only the role that mirrors the child loses anything. -/
theorem mirroring_syncRole (hchild : child ∈ rule.children) :
    wp (syncRole k.rules k.direction apply child k.source pair)
      (fun _ w' =>
        k.Mirroring id (pair.on k.source.other) (· ≠ child.roles.on k.source.other) w w' ∧
        ∃ ys, k.Placed id pair child
          ((w.graphs.on k.source).members (pair.on k.source) (child.roles.on k.source)) ys w')
      (fun _ _ => True) w := by
  have hlive : (w.graphs.on k.source).contains (pair.on k.source) = true := hn.live h.sound k.source
  rw [syncRole, wp_bind, wp_graph, wp_bind, wp_liftGraph, Graph.references_eq, if_pos hlive]
  dsimp only
  rw [wp_bind]
  refine wp_imp (mirroring_linkMembers happly hr hid h hn hchild _ (fun _ hm => hm) []) ?_
  rintro ys w₁ ⟨hw₁, hplaced⟩
  have hfirst : k.Mirroring id (pair.on k.source.other)
      (· ≠ child.roles.on k.source.other) w w₁ :=
    hw₁.mono fun _ _ => trivial
  rw [wp_ite]
  split
  · rename_i hforced
    refine wp_imp
      (mirroring_unlinkStale hr hw₁.went.consistent (hw₁.went.acts.names h hn)
        hforced hchild hplaced) ?_
    rintro _ w₂ ⟨hw₂, hplaced₂⟩
    exact ⟨hfirst.trans hid hw₂, ys, hplaced₂⟩
  · exact ⟨hfirst, ys, hplaced⟩

omit happly hid in
/-- A binding concerns no role. -/
theorem mirroring_applyBinding {b : Binding} {index : Nat} (hbi : (b, index) ∈ rule.numbered) :
    wp (applyBinding k.direction rule.name id pair b index)
      (fun _ w' => k.Mirroring id (pair.on k.source.other) (fun _ => True) w w')
      (fun _ _ => True) w := by
  have htraces : k.scheme.Traces k.direction (· = id) (fun _ => True)
      (applyBinding k.direction rule.name id pair b index) w :=
    Scheme.traces_applyBinding (V := (· = id)) h (fun _ => hn) (fun _ _ => trivial) hr rfl hbi
  have remembered (w : State) (values : Shadow) {c : Correspondence} (hc : c ∈ w.pairs.entries) :
      ∃ c' ∈ (w.pairs.recordShadow id index values).entries, c'.core = c.core :=
    (Correspondences.Touches.recordShadow _ _ _ _).kept c hc
  refine wp_imp (htraces.and (Q := fun _ w' => w'.visited = w.visited ∧
    (∀ x role,
      (w'.graphs.on k.source.other).members x role =
        (w.graphs.on k.source.other).members x role) ∧
    ∀ c ∈ w.pairs.entries, ∃ c' ∈ w'.pairs.entries, c'.core = c.core) ?_) ?_
  · refine Walk.wp_applyBinding (fun _ _ => trivial) ?_ ?_ ?_
    · intro _ inStep _
      split
      · exact ⟨rfl, fun _ _ => rfl, fun _ hc => remembered w _ hc⟩
      · exact ⟨rfl, fun _ _ => rfl, fun c hc => ⟨c, hc, rfl⟩⟩
    · exact fun _ _ => ⟨rfl, fun _ _ => rfl, fun c hc => ⟨c, hc, rfl⟩⟩
    · intro _ source _ g' hw
      refine ⟨rfl, fun x role => ?_, fun _ hc => remembered w _ hc⟩
      by_cases hs : k.source.other = source.other
      · simp only [hs, Sided.on_put_self]
        exact hw.members_setValue x role
      · rw [Sided.on_put_of_ne _ _ hs]
  · rintro _ w' ⟨hw, hvisited, hmembers, hcores⟩
    refine .of_same hw hvisited fun role _ m' y' _ hm => ⟨?_, ?_⟩
    · exact (hmembers _ _).symm ▸ hm.member
    · obtain ⟨c, hc, hi, hcm, hcy⟩ := hm.paired
      obtain ⟨c', hc', hcore⟩ := hcores c hc
      exact ⟨c', hc', (Correspondence.isAnchor_eq_of_core hcore).trans hi,
        (Correspondence.element_eq_of_core hcore _).trans hcm,
        (Correspondence.element_eq_of_core hcore _).trans hcy⟩

end Names

/-- The children of a rule, one after the other: what one has placed stays until a later one mirrors
into the same role. -/
theorem mirroring_children (happly : k.Secures apply) (hr : k.rules.rule? rule.name = some rule)
    (hid : id ∈ w.visited) (h : k.scheme.Consistent w.graphs w.pairs)
    (hn : w.store.Names id rule pair) :
    wp (rule.children.forM fun child => k.direction.authorities.forM fun auth =>
        syncRole k.rules k.direction apply child auth pair)
      (fun _ w' => k.Mirroring id (pair.on k.source.other) (fun _ => False) w w' ∧
        ∀ front child back, rule.children = front ++ child :: back →
        (∀ child' ∈ back, child'.roles.on k.source.other ≠ child.roles.on k.source.other) →
        ∃ ys, k.Placed id pair child
          ((w.graphs.on k.source).members (pair.on k.source) (child.roles.on k.source)) ys w')
      (fun _ _ => True) w := by
  refine wp_forM_worked
    (I := fun pre w' => k.Mirroring id (pair.on k.source.other) (fun _ => False) w w' ∧
    ∀ front child back, pre = front ++ child :: back →
      (∀ child' ∈ back, child'.roles.on k.source.other ≠ child.roles.on k.source.other) →
      ∃ ys, k.Placed id pair child
        ((w.graphs.on k.source).members (pair.on k.source) (child.roles.on k.source)) ys w')
    ?_ ⟨.refl h, fun front child back he => by simp at he⟩
  rintro pre a post hsplit w₁ ⟨hw₁, hpre⟩
  have hchild : a ∈ rule.children := hsplit ▸ by simp
  have hsource : w₁.graphs.on k.source = w.graphs.on k.source := hw₁.went.acts.source
  have hauthorities : k.direction.authorities = [k.source] := rfl
  rw [hauthorities, wp_forM_cons]
  refine wp_imp (mirroring_syncRole happly hr (hw₁.went.visited hid) hw₁.went.consistent
    (hw₁.went.acts.names h hn) hchild) ?_
  rintro _ w₂ ⟨hw₂, ys, hplaced⟩
  rw [hsource] at hplaced
  refine ⟨hw₁.trans hid (hw₂.mono fun _ hf => hf.elim), fun front child back he hback => ?_⟩
  rcases List.eq_nil_or_concat back with rfl | ⟨init, x, rfl⟩
  · obtain ⟨_, hx⟩ := List.append_inj' he rfl
    cases hx
    exact ⟨ys, hplaced⟩
  · have he' : pre ++ [a] = (front ++ child :: init) ++ [x] := by simpa using he
    obtain ⟨hfront, hx⟩ := List.append_inj' he' rfl
    cases hx
    obtain ⟨ys', hplaced'⟩ :=
      hpre front child init hfront fun child' hc => hback child' (by simp [hc])
    refine ⟨ys', hplaced'.later (hback a (by simp)).symm hw₂ fun m' hm' => ?_⟩
    rw [hsource]
    exact (h.sound k.source).members_live _ _ _ hm'

/-- When the parts of a rule have been applied, its pair is settled. -/
theorem mirroring_applyParts (happly : k.Secures apply) (hr : k.rules.rule? rule.name = some rule)
    (hid : id ∈ w.visited) (h : k.scheme.Consistent w.graphs w.pairs)
    (hn : w.store.Names id rule pair) :
    wp (applyParts k.rules k.direction apply rule id pair)
      (fun _ w' => k.Mirroring id (pair.on k.source.other) (fun _ => False) w w' ∧
        k.Secured w'.store id)
      (fun _ _ => True) w := by
  rw [applyParts, wp_bind]
  refine wp_imp (wp_forM_keep (I := k.Mirroring id (pair.on k.source.other) (fun _ => False) w)
    (fun bi hbi w₁ hw₁ => ?_) (.refl h)) fun _ w₁ hw₁ => ?_
  · rw [wp_bind]
    refine wp_imp (mirroring_applyBinding hr hw₁.went.consistent (hw₁.went.acts.names h hn) hbi)
      fun _ w₂ hw₂ => ?_
    exact hw₁.trans hid (hw₂.mono fun _ _ => trivial)
  · have h₁ := hw₁.went.consistent
    have hn₁ := hw₁.went.acts.names h hn
    refine wp_imp (mirroring_children happly hr (hw₁.went.visited hid) h₁ hn₁) ?_
    rintro _ w₂ ⟨hw₂, hplaced⟩
    refine ⟨hw₁.trans hid hw₂,
      fun z hz c hc hi r hcr front child back hchildren hback hsole m hm => ?_⟩
    have hn₂ := hw₂.went.acts.names h₁ hn₁
    obtain ⟨hrule, hel⟩ := (hz.names hw₂.went.consistent hn₂).entry c hc hi
    obtain rfl : rule = r := Option.some.inj (hr.symm.trans (hrule ▸ hcr))
    have hside (s : Side) : c.element s = pair.on s := congrArg (·.on s) hel
    have hsource : z.graphs.on k.source = w₁.graphs.on k.source :=
      hz.source.trans hw₂.went.acts.source
    rw [hside] at hsole hm ⊢
    rw [hsource] at hm
    obtain ⟨ys, hys⟩ := hplaced front child back hchildren hback
    obtain ⟨y, _, hy⟩ := hys z (hz.mono fun _ _ => trivial) hsole m hm
    have hlive : (w₂.graphs.on k.source).contains m = true :=
      hw₂.went.acts.contains h₁ ((h₁.sound k.source).members_live _ _ _ hm)
    exact ⟨y, hz.mirrors hw₂.went.consistent .refl hsole (fun _ hi => hi) hlive hy⟩

theorem secures_applyRule (fuel : Nat) (path : List CorrespondenceId) :
    k.Secures (applyRule k.rules k.direction fuel path) := by
  induction fuel generalizing path with
  | zero => exact fun _ _ _ _ _ _ _ => trivial
  | succ fuel ih =>
    intro r c w hr h hc hl
    have hname := (RuleSet.mem_of_rule? hr).2
    have hn : w.store.Names c.id r c.elements := .of_entry h hc hl hr
    rw [applyRule, wp_ite]
    split
    · trivial
    · rw [wp_bind, wp_get, wp_ite]
      split
      · exact ⟨.refl h, fun _ hi hnot => absurd hi hnot⟩
      · rename_i hnew
        rw [wp_bind, wp_modify]
        refine wp_imp (mirroring_applyParts (w := { w with visited := c.id :: w.visited })
          (ih (c.id :: path)) (hname ▸ hr) List.mem_cons_self h hn) ?_
        rintro _ w' ⟨hw, hs⟩
        refine ⟨.visit h hc hl hnew hw.went, fun i hi hnot => ?_⟩
        by_cases he : i = c.id
        · exact he ▸ hs
        · exact hw.secured i hi (by simp [he, hnot])

theorem secures_start : k.Secures (start k.rules k.direction) := by
  intro r c w hr h hc hl
  rw [start, wp_bind, wp_get]
  exact secures_applyRule _ [] r c w hr h hc hl

/-- The pairs that a pass visits are settled when it succeeds. -/
theorem settled_syncRoots (h : k.scheme.Consistent w.graphs w.pairs) (hv : w.visited = []) :
    wp (syncRoots k.rules k.direction k.rootRule)
      (fun _ w' => ∀ i ∈ w'.visited, k.scheme.Settled k.source w'.store i)
      (fun _ _ => True) w := by
  refine Scheme.wp_syncRoots_paired (k := k.scheme) h (fun _ _ => trivial) ?_
  intro r c w₁ hp
  refine Scheme.wp_run_purged (k := k.scheme) hp.consistent hp.entry hp.anchor hp.rule
    fun w₂ hpurged => ?_
  refine wp_imp (secures_start r c w₂ hpurged.rule hpurged.consistent hpurged.entry
    (hpurged.alive c hpurged.entry)) ?_
  rintro _ w₃ ⟨_, hs⟩ i hi
  refine hs i hi ?_ _ .refl
  rw [hpurged.frees.visited, hp.visited, hv]
  exact List.not_mem_nil

end OneWay

end GraphSync
