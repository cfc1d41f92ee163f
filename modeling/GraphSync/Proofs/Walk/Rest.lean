import GraphSync.Proofs.Correspondence.Consistent
import GraphSync.Proofs.Walk.Anchor

namespace GraphSync

open Walk

/-- The elements and the pairs are the same; journals and reports may differ. -/
structure Walk.State.Alike (w w' : State) : Prop where
  elements : ∀ s, (w'.graphs.on s).elements = (w.graphs.on s).elements
  pairs : w'.pairs = w.pairs

namespace Walk.State.Alike

variable {w w' : State} {c : Correspondence} {s : Side}

theorem symm (h : w.Alike w') : w'.Alike w := ⟨fun s => (h.elements s).symm, h.pairs.symm⟩

theorem element? (h : w.Alike w') (s : Side) (x : ElementId) :
    (w'.graphs.on s).element? x = (w.graphs.on s).element? x := by
  rw [Graph.element?, h.elements]
  rfl

theorem contains (h : w.Alike w') (s : Side) (x : ElementId) :
    (w'.graphs.on s).contains x = (w.graphs.on s).contains x := by
  simp only [Graph.contains, h.element?]

theorem role (h : w.Alike w') (c : Correspondence) (child : Child) (s : Side) :
    w'.role c child s = w.role c child s := by
  simp only [State.role, Graph.members, h.element?]

theorem values (h : w.Alike w') (pair : Sided ElementId) (b : Binding) :
    w'.values pair b = w.values pair b := by
  have hon (s : Side) : (w'.values pair b).on s = (w.values pair b).on s := by
    simp only [State.values_on, Graph.reading, h.element?]
  exact Sided.ext (hon .left) (hon .right)

theorem counterpart? (h : w.Alike w') (rules : RuleSet) (child : Child) (auth s : Side)
    (present : List ElementId) (m : ElementId) :
    w'.pairs.counterpart? rules child auth (w'.graphs.on s) present m =
      w.pairs.counterpart? rules child auth (w.graphs.on s) present m := by
  simp only [Correspondences.counterpart?, h.contains, h.pairs]

theorem conflict (h : w.Alike w') (rule : RuleName) (id : CorrespondenceId) (pair : Sided ElementId)
    (b : Binding) : w'.conflict rule id pair b = w.conflict rule id pair b := by
  rw [State.conflict, h.values, State.conflict]

theorem alive (h : w.Alike w') (ha : w.store.Alive) : w'.store.Alive := by
  intro c (hc : c ∈ w'.pairs.entries) s
  rw [h.pairs] at hc
  exact (h.contains s (c.element s)).trans (ha c hc s)

end Walk.State.Alike

namespace Scheme

variable {k : Scheme} {d : Direction} {V : List CorrespondenceId} {X : List Conflict} {w w' : State}
  {done tail : List CorrespondenceId}
  {c : Correspondence} {r : Rule} {child : Child} {auth : Side} {apply : Apply}

/-- The counterpart that a member would be given stands in the role already, and their pair is
listed. -/
def Placed (k : Scheme) (w : State) (done : List CorrespondenceId) (c : Correspondence)
    (child : Child) (auth : Side) (m y : ElementId) : Prop :=
  ∃ a, w.pairs.counterpart? k.rules child auth (w.graphs.on auth.other)
    (w.role c child auth.other) m = some a ∧ a.element auth.other = y ∧
    y ∈ w.role c child auth.other ∧ a.id ∈ done

/-- A binding of a pair is left as it is, and values in step are remembered; or it is in one of the
conflicts of `X`. -/
def Stays (d : Direction) (X : List Conflict) (w : State) (c : Correspondence)
    (bi : Binding × Nat) : Prop :=
  (bi.1.verdict d (c.shadow? bi.2) (w.values c.elements bi.1) =
      .keep (bi.1.inStep (w.values c.elements bi.1)) ∧
      (bi.1.inStep (w.values c.elements bi.1) = true →
        c.shadow? bi.2 = some (w.values c.elements bi.1))) ∨
    (bi.1.verdict d (c.shadow? bi.2) (w.values c.elements bi.1) = .conflict ∧
      w.conflict c.rule c.id c.elements bi.1 ∈ X)

/-- What a rule asks for of a pair is there; its members lead to pairs of `done`. -/
structure Rests (k : Scheme) (d : Direction) (X : List Conflict) (w : State)
    (done : List CorrespondenceId) (c : Correspondence) (r : Rule) : Prop where
  bindings : ∀ bi ∈ r.numbered, Stays d X w c bi
  placed : ∀ child ∈ r.children, ∀ auth ∈ d.authorities, ∀ m ∈ w.role c child auth,
    ∃ y, k.Placed w done c child auth m y
  fresh : d.isForced = true → ∀ child ∈ r.children, ∀ auth ∈ d.authorities,
    ∀ y ∈ w.role c child auth.other,
    (∃ m ∈ w.role c child auth, k.Placed w done c child auth m y) ∨
    w.pairs.partners auth.other y = []

/-- Every listed pair that is still recorded is at rest, and leads to those after it. -/
inductive AtRest (k : Scheme) (d : Direction) (X : List Conflict) (w : State) :
    List CorrespondenceId → Prop where
  | nil : AtRest k d X w []
  | cons {id : CorrespondenceId} {done : List CorrespondenceId}
    (head : ∀ c ∈ w.pairs.entries, c.id = id → ∀ r, k.rules.rule? c.rule = some r →
      k.Rests d X w done c r)
    (tail : AtRest k d X w done) : AtRest k d X w (id :: done)

/-- The oldest pair of a member whose other element stands in the role is the one that is found. -/
theorem Placed.of_oldest {m : ElementId} {a : Correspondence} (hl : w.pairs.Listed)
    (h : w.pairs.Candidate auth (w.graphs.on auth.other) m a)
    (hp : a.element auth.other ∈ w.role c child auth.other)
    (hmin : ∀ a', w.pairs.Candidate auth (w.graphs.on auth.other) m a' →
      a'.element auth.other ∈ w.role c child auth.other → a.id.index ≤ a'.id.index)
    (hid : a.id ∈ done) : k.Placed w done c child auth m (a.element auth.other) :=
  ⟨a, Correspondences.counterpart?_eq_some hl h hp hmin, rfl, hp, hid⟩

theorem Placed.oldest {m y : ElementId} (h : k.Placed w done c child auth m y)
    (hl : w.pairs.Listed) :
    ∃ a, w.pairs.Candidate auth (w.graphs.on auth.other) m a ∧ a.element auth.other = y ∧
      y ∈ w.role c child auth.other ∧ a.id ∈ done ∧
        ∀ a', w.pairs.Candidate auth (w.graphs.on auth.other) m a' →
        a'.element auth.other ∈ w.role c child auth.other → a.id.index ≤ a'.id.index := by
  obtain ⟨a, ha, rfl, hp, hid⟩ := h
  obtain ⟨hcand, ⟨_, hmin⟩ | ⟨hnone, _⟩⟩ :=
    Correspondences.of_counterpart?_eq_some hl ha
  · exact ⟨a, hcand, rfl, hp, hid, hmin⟩
  · exact absurd hp (hnone a hcand)

theorem Placed.unique {m y y' : ElementId} {done' : List CorrespondenceId}
    (h : k.Placed w done c child auth m y) (h' : k.Placed w done' c child auth m y') : y = y' := by
  obtain ⟨a, hfound, rfl, _⟩ := h
  obtain ⟨a', hfound', rfl, _⟩ := h'
  rw [Option.some.inj (hfound.symm.trans hfound')]

theorem Placed.alike {m y : ElementId} (h : k.Placed w done c child auth m y) (hl : w.pairs.Listed)
    (ha : w.Alike w') : k.Placed w' done c child auth m y := by
  have hcandidate {t t' : State} (ha : t.Alike t') {a : Correspondence}
      (hcand : t.pairs.Candidate auth (t.graphs.on auth.other) m a) :
      t'.pairs.Candidate auth (t'.graphs.on auth.other) m a :=
    ⟨ha.pairs ▸ hcand.mem, hcand.inner, hcand.of_member, (ha.contains _ _).trans hcand.live⟩
  obtain ⟨a, hcand, rfl, hp, hid, hmin⟩ := h.oldest hl
  rw [← ha.role] at hp
  refine .of_oldest (ha.pairs ▸ hl) (hcandidate ha hcand) hp (fun a' hcand' hp' => ?_) hid
  rw [ha.role] at hp'
  exact hmin a' (hcandidate ha.symm hcand') hp'

/-- Only recorded pairs matter. -/
theorem Placed.recorded {m y : ElementId} (h : k.Placed w done c child auth m y)
    (hl : w.pairs.Listed) :
    k.Placed w (done.filter (· ∈ w.pairs.entries.map Correspondence.id)) c child auth m y := by
  obtain ⟨a, ha, he, hp, hid⟩ := h
  have hm := (Correspondences.of_counterpart?_eq_some hl ha).1.mem
  exact ⟨a, ha, he, hp, List.mem_filter.mpr ⟨hid, decide_eq_true (List.mem_map_of_mem hm)⟩⟩

theorem Rests.imp (h : k.Rests d X w done c r)
    (hp : ∀ child auth m y, k.Placed w done c child auth m y →
    k.Placed w tail c child auth m y) : k.Rests d X w tail c r where
  bindings := h.bindings
  placed child hchild auth hauth m hm :=
    (h.placed child hchild auth hauth m hm).imp (hp child auth m)
  fresh hforced child hchild auth hauth y hy :=
    (h.fresh hforced child hchild auth hauth y hy).imp_left
      fun ⟨m, hm, hy⟩ => ⟨m, hm, hp child auth m y hy⟩

/-- More conflicts may be reported. -/
theorem Rests.widen {X' : List Conflict} (h : k.Rests d X w done c r) (hx : X ⊆ X') :
    k.Rests d X' w done c r where
  bindings bi hbi :=
    (h.bindings bi hbi).imp_right fun hconflict => ⟨hconflict.1, hx hconflict.2⟩
  placed := h.placed
  fresh := h.fresh

theorem Rests.alike (h : k.Rests d X w done c r) (hl : w.pairs.Listed) (ha : w.Alike w') :
    k.Rests d X w' done c r := by
  refine ⟨?_, ?_, ?_⟩
  · intro bi hbi
    have hb := h.bindings bi hbi
    rwa [Stays, ← ha.values, ← ha.conflict] at hb
  · intro child hchild auth hauth m hm
    rw [ha.role] at hm
    obtain ⟨y, hy⟩ := h.placed child hchild auth hauth m hm
    exact ⟨y, hy.alike hl ha⟩
  · intro hforced child hchild auth hauth y hy
    rw [ha.role] at hy
    rw [ha.pairs]
    refine (h.fresh hforced child hchild auth hauth y hy).imp_left
      fun ⟨m, hm, hp⟩ => ⟨m, ?_, hp.alike hl ha⟩
    rwa [ha.role]

theorem AtRest.recorded (h : k.AtRest d X w done) (hl : w.pairs.Listed) :
    k.AtRest d X w (done.filter (· ∈ w.pairs.entries.map Correspondence.id)) := by
  induction h with
  | nil => exact .nil
  | cons head _ ih =>
    rw [List.filter_cons]
    split
    · exact .cons
        (fun c hc hid r hr => (head c hc hid r hr).imp fun _ _ _ _ hp => hp.recorded hl) ih
    · exact ih

theorem AtRest.widen {X' : List Conflict} (h : k.AtRest d X w done) (hx : X ⊆ X') :
    k.AtRest d X' w done := by
  induction h with
  | nil => exact .nil
  | cons head _ ih => exact .cons (fun c hc hi r hr => (head c hc hi r hr).widen hx) ih

theorem AtRest.alike (h : k.AtRest d X w done) (hl : w.pairs.Listed) (ha : w.Alike w') :
    k.AtRest d X w' done := by
  induction h with
  | nil => exact .nil
  | cons head _ ih =>
    exact .cons (fun c hc hi r hr => (head c (ha.pairs ▸ hc) hi r hr).alike hl ha) ih

/-- At most the visited pairs and the reported conflicts differ; pairs of `V` were visited, and
conflicts of `X` reported. -/
def Same (V : List CorrespondenceId) (X : List Conflict) (w w' : State) : Prop :=
  ∃ visited conflicts, visited ⊆ w.visited ++ V ∧ conflicts ⊆ X ∧
    w' = { w with visited, report := { w.report with conflicts } }

theorem Same.refl (h : w.report.conflicts ⊆ X) : Same V X w w :=
  ⟨w.visited, w.report.conflicts, List.subset_append_left _ _, h, rfl⟩

theorem Same.mono {V' : List CorrespondenceId} (h : Same V X w w') (hv : V ⊆ V') :
    Same V' X w w' := by
  obtain ⟨visited, conflicts, hvisited, hsub, rfl⟩ := h
  exact ⟨visited, conflicts, List.Subset.trans hvisited (List.append_subset.mpr
    ⟨List.subset_append_left _ _, List.Subset.trans hv (List.subset_append_right _ _)⟩),
    hsub, rfl⟩

theorem Same.visit (h : Same V X w w') {id : CorrespondenceId} (hid : id ∈ V) :
    Same V X w { w' with visited := id :: w'.visited } := by
  obtain ⟨_, conflicts, hvisited, hsub, rfl⟩ := h
  exact ⟨_, conflicts, List.cons_subset.mpr ⟨List.mem_append_right _ hid, hvisited⟩, hsub, rfl⟩

theorem Same.report (h : Same V X w w') {x : Conflict} (hx : x ∈ X) :
    Same V X w { w' with report := w'.report.addConflict x } := by
  obtain ⟨visited, conflicts, hvisited, hsub, rfl⟩ := h
  unfold Report.addConflict
  split
  · exact ⟨visited, conflicts, hvisited, hsub, rfl⟩
  · refine ⟨visited, conflicts ++ [x], hvisited, ?_, rfl⟩
    exact List.append_subset.mpr ⟨hsub, List.cons_subset.mpr ⟨hx, List.nil_subset X⟩⟩

theorem Same.store (h : Same V X w w') : w'.graphs = w.graphs ∧ w'.pairs = w.pairs := by
  obtain ⟨_, _, _, _, rfl⟩ := h
  exact ⟨rfl, rfl⟩

/-- On recorded pairs of `done`, `apply` changes nothing. -/
def Repeats (k : Scheme) (V : List CorrespondenceId) (X : List Conflict) (w : State) (apply : Apply)
    (done : List CorrespondenceId) : Prop :=
  ∀ c ∈ w.pairs.entries, c.id ∈ done → ∀ r, k.rules.rule? c.rule = some r → ∀ w',
    Same V X w w' → wp (apply r c.id c.elements) (fun _ => Same V X w) (fun _ _ => False) w'

/-- A member whose counterpart stands in the role keeps it; then the rule of their pair is
applied. -/
theorem wp_linkMember_placed {Q : ElementId → State → Prop} {E : Error → State → Prop}
    (h : k.Consistent w.graphs w.pairs) (hl : ∀ s, (w.graphs.on s).contains (c.element s) = true)
    {m : ElementId} (hm : m ∈ w.role c child auth) {a : Correspondence}
    (ha : w.pairs.counterpart? k.rules child auth
      (w.graphs.on auth.other) (w.role c child auth.other) m = some a)
    (hp : a.element auth.other ∈ w.role c child auth.other) (earlier later : List ElementId)
    (run : ∀ r, k.rules.rule? a.rule = some r →
      wp (apply r a.id a.elements) (fun _ => Q (a.element auth.other)) E w) :
    wp (linkMember k.rules d apply child auth (c.element auth.other) earlier m later) Q E w := by
  have hknown : ∀ c ∈ w.pairs.entries, ∃ r, k.rules.rule? c.rule = some r := fun c hc =>
    (h.typed c hc).imp fun _ hr => hr.1
  obtain ⟨hcand, _⟩ := Correspondences.of_counterpart?_eq_some h.listed ha
  rw [linkMember, wp_bind]
  apply wp_findOrCreate h.listed hknown
  · rintro x (⟨_, hd⟩ | ⟨_, hd⟩)
    · exact Bool.noConfusion (hd.symm.trans (hl auth.other))
    · exact Bool.noConfusion (hd.symm.trans ((h.sound auth).members_live _ _ m hm))
  · exact fun _ hnone => absurd (ha.symm.trans hnone) (by simp)
  · intro _ a' r ha' hr
    obtain rfl : a = a' := Option.some.inj (ha.symm.trans ha')
    have hpair : auth.arrange m (a.element auth.other) = a.elements := by
      rw [← hcand.of_member]
      exact Sided.arrange_on _ _
    simp only
    rw [wp_bind]
    refine wp_link ?_ ?_ fun _ _ hnew => absurd hp hnew
    · rintro e (hd | hd)
      · exact Bool.noConfusion (hd.symm.trans (hl auth.other))
      · exact Bool.noConfusion (hd.symm.trans hcand.live)
    · intro _
      have hname := (RuleSet.mem_of_rule? hr).2
      rw [wp_bind, hpair]
      exact wp_enter (hname ▸ h.obtain?_recorded hcand.mem d) (wp_imp (run r hr) fun _ _ hq => hq)
  · exact fun _ hnone => absurd (ha.symm.trans hnone) (by simp)

/-- A member that has neither a counterpart nor a rule for a new one is not linked. -/
theorem wp_linkMember_unresolved {Q : ElementId → State → Prop} {E : Error → State → Prop}
    (h : k.Consistent w.graphs w.pairs)
    (hl : (w.graphs.on auth.other).contains (c.element auth.other) = true) {m : ElementId}
    {kind : TypeName} (hnone : w.pairs.counterpart? k.rules child auth (w.graphs.on auth.other)
      (w.role c child auth.other) m = none) (hkind : (w.graphs.on auth).kind? m = some kind)
    (hfor : k.rules.ruleFor? (auth.arrange kind (child.types.on auth.other)) = none)
    (earlier later : List ElementId)
    (fails : E (.rule (.noRule (auth.arrange kind (child.types.on auth.other)))) w) :
    wp (linkMember k.rules d apply child auth (c.element auth.other) earlier m later) Q E w := by
  rw [linkMember, wp_bind]
  apply wp_findOrCreate h.listed fun c hc => (h.typed c hc).imp fun _ hr => hr.1
  · rintro x (⟨_, hd⟩ | ⟨_, hd⟩)
    · exact Bool.noConfusion (hd.symm.trans hl)
    · exact Bool.noConfusion (hd.symm.trans (Graph.contains_iff_kind.mpr ⟨kind, hkind⟩))
  · intro _ _ kind' hkind' _
    obtain rfl : kind = kind' := Option.some.inj (hkind.symm.trans hkind')
    exact fails
  · exact fun _ _ _ hsome => absurd (hnone.symm.trans hsome) (by simp)
  · intro _ _ kind' r hkind' hsome
    obtain rfl : kind = kind' := Option.some.inj (hkind.symm.trans hkind')
    exact absurd (hfor.symm.trans hsome) (by simp)

/-- A binding whose values are left as they are, and are remembered if they are in step, stays as it
is. -/
theorem wp_applyBinding_kept (h : w.pairs.Listed)
    (hl : ∀ s, (w.graphs.on s).contains (c.element s) = true) (hc : c ∈ w.pairs.entries)
    {b : Binding} {index : Nat}
    (hkeep : b.verdict d (c.shadow? index) (w.values c.elements b) =
      .keep (b.inStep (w.values c.elements b))) (hremembered :
      b.inStep (w.values c.elements b) = true → c.shadow? index = some (w.values c.elements b))
    (rule : RuleName) :
    wp (applyBinding d rule c.id c.elements b index) (fun o w' => o = .unchanged ∧ w' = w)
      (fun _ _ => False) w := by
  have hshadow : w.shadow? c.id index = c.shadow? index := State.shadow?_of_mem h hc index
  apply wp_applyBinding
  · exact fun s hd => Bool.noConfusion (hd.symm.trans (hl s))
  · intro _ inStep hv
    rw [hshadow] at hv
    obtain rfl := Verdict.keep.inj (hv.symm.trans hkeep)
    split
    · rename_i hin
      refine ⟨rfl, ?_⟩
      rw [Correspondences.recordShadow_eq_self]
      intro a ha hi
      rw [h.eq_of_id ha hc hi]
      exact hremembered hin
    · exact ⟨rfl, rfl⟩
  · intro _ hv
    rw [hshadow] at hv
    exact Verdict.noConfusion (hv.symm.trans hkeep)
  · intro _ source hv
    rw [hshadow] at hv
    exact Verdict.noConfusion (hv.symm.trans hkeep)

/-- Where the pair of the roots is recorded, a pass drops what was lost and applies the root
rule. -/
theorem wp_syncRoots_recorded {Q : Unit → State → Prop} {E : Error → State → Prop}
    (h : k.Consistent w.graphs w.pairs) (hroot : c ∈ w.pairs.entries)
    (hanchor : c.isAnchor = true) (hr : k.rules.rule? k.rootRule = some r)
    (hkinds : ∀ s, (w.graphs.on s).kind? (w.graphs.on s).root = some (r.types.on s))
    (run : wp (do releaseAllLost k.rules d; start k.rules d r c.id c.elements) Q E w) :
    wp (syncRoots k.rules d k.rootRule) Q E w := by
  obtain ⟨hrule, hel⟩ := h.anchor c hroot hanchor
  apply wp_syncRoots h.sound
  · exact fun hnone => absurd (hr.symm.trans hnone) (by simp)
  · rintro r' hr' ⟨s, hs⟩
    obtain rfl : r = r' := Option.some.inj (hr.symm.trans hr')
    exact absurd (hkinds s) hs
  · intro r' hr' _
    obtain rfl : r = r' := Option.some.inj (hr.symm.trans hr')
    have hanchored :
        w.pairs.anchor k.rootRule (w.graphs.map Graph.root) d =
          .ok (⟨c.id, false⟩, w.pairs) := by
      have his : c.Is k.rootRule (w.graphs.map Graph.root) := ⟨hrule, hel⟩
      simp [Correspondences.anchor, h.anchor?_eq hroot hanchor, his]
    rw [wp_bind, wp_onPairs, hanchored]
    simp only [wp_bind, wp_countPair]
    rw [wp_bind] at run
    rwa [← hel]

section Replay

variable (h : k.Consistent w.graphs w.pairs)

include h

theorem repeat_binding (hl : ∀ s, (w.graphs.on s).contains (c.element s) = true)
    (hc : c ∈ w.pairs.entries) {b : Binding} {index : Nat} (hb : Stays d X w c (b, index))
    (rule : RuleName) (hr : rule = c.rule) (hw : Same V X w w') :
    wp (applyBinding d rule c.id c.elements b index) (fun _ => Same V X w)
      (fun _ _ => False) w' := by
  obtain ⟨visited, conflicts, hvisited, hsub, rfl⟩ := id hw
  let w' : State := { w with visited, report := { w.report with conflicts } }
  rcases hb with ⟨hkeep, hremembered⟩ | ⟨hconflict, hx⟩
  · refine wp_imp (wp_applyBinding_kept (w := w') h.listed hl hc hkeep hremembered rule)
      fun _ w₁ hkept => ?_
    obtain ⟨_, rfl⟩ := hkept
    exact hw
  have hshadow : w'.shadow? c.id index = c.shadow? index := State.shadow?_of_mem h.listed hc index
  apply wp_applyBinding
  · exact fun s hd => Bool.noConfusion (hd.symm.trans (hl s))
  · intro _ inStep hv
    exact Verdict.noConfusion ((hshadow ▸ hv).symm.trans hconflict)
  · intro _ _
    rw [State.conflict, hr]
    exact hw.report hx
  · intro _ source hv
    exact Verdict.noConfusion ((hshadow ▸ hv).symm.trans hconflict)

/-- A member whose counterpart stands in the role keeps it. -/
theorem repeat_linkMember (hl : ∀ s, (w.graphs.on s).contains (c.element s) = true)
    {m y : ElementId} (hm : m ∈ w.role c child auth) (hp : k.Placed w tail c child auth m y)
    (happly : k.Repeats V X w apply tail) (earlier later : List ElementId) (hw : Same V X w w') :
    wp (linkMember k.rules d apply child auth (c.element auth.other) earlier m later)
      (fun z w₁ => z = y ∧ Same V X w w₁) (fun _ _ => False) w' := by
  obtain ⟨a, hfound, rfl, hplaced, hid⟩ := hp
  obtain ⟨hcand, _⟩ := Correspondences.of_counterpart?_eq_some h.listed hfound
  obtain ⟨visited, conflicts, hvisited, hsub, rfl⟩ := hw
  refine wp_linkMember_placed (w := { w with visited, report := { w.report with conflicts } })
    h hl hm hfound hplaced earlier later fun r hr => ?_
  exact wp_imp (happly a hcand.mem hid r hr _ ⟨visited, conflicts, hvisited, hsub, rfl⟩)
    fun _ _ hw₁ => ⟨rfl, hw₁⟩

/-- Members whose counterparts stand in the role keep them; then it is the turn of the others. -/
theorem repeat_linkMembers {Q : List ElementId → State → Prop} {E : Error → State → Prop}
    (hl : ∀ s, (w.graphs.on s).contains (c.element s) = true) {earlier l later : List ElementId}
    (hm : ∀ m ∈ l, m ∈ w.role c child auth)
    (hp : ∀ m ∈ l, ∃ y, k.Placed w tail c child auth m y)
    (happly : k.Repeats V X w apply tail)
    (next : ∀ ys w', (∀ m ∈ l, ∀ y, k.Placed w tail c child auth m y → y ∈ ys) →
      Same V X w w' → wp (linkMembers k.rules d apply child auth (c.element auth.other)
        (l.reverse ++ earlier) later) (fun zs => Q (ys ++ zs)) E w') (hw : Same V X w w') :
    wp (linkMembers k.rules d apply child auth (c.element auth.other) earlier (l ++ later))
      Q E w' := by
  induction l generalizing earlier w' Q with
  | nil => exact next [] w' (fun _ hm => by cases hm) hw
  | cons m l ih =>
    obtain ⟨y, hplaced⟩ := hp m (by simp)
    rw [List.cons_append, linkMembers, wp_bind]
    refine wp_mono
      (repeat_linkMember h hl (hm m (by simp)) hplaced happly earlier (l ++ later) hw) ?_
      fun _ _ hf => hf.elim
    intro z w₁ hlinked
    obtain ⟨rfl, hw₁⟩ := hlinked
    rw [wp_bind]
    refine ih (fun m' hm' => hm m' (by simp [hm'])) (fun m' hm' => hp m' (by simp [hm'])) ?_ hw₁
    intro ys w₂ hys hw₂
    have hnext := next (z :: ys) w₂ (fun m' hm' y' hy => ?_) hw₂
    · rwa [List.reverse_cons, List.append_assoc] at hnext
    · rcases List.mem_cons.mp hm' with rfl | hm'
      · exact hy.unique hplaced ▸ List.mem_cons_self
      · exact List.mem_cons_of_mem _ (hys m' hm' y' hy)

theorem repeat_syncRole (hl : ∀ s, (w.graphs.on s).contains (c.element s) = true)
    (hp : ∀ m ∈ w.role c child auth, ∃ y, k.Placed w tail c child auth m y)
    (hfresh : d.isForced = true → ∀ y ∈ w.role c child auth.other,
      (∃ m ∈ w.role c child auth, k.Placed w tail c child auth m y) ∨
      w.pairs.partners auth.other y = [])
    (happly : k.Repeats V X w apply tail) (hw : Same V X w w') :
    wp (syncRole k.rules d apply child auth c.elements) (fun _ => Same V X w)
      (fun _ _ => False) w' := by
  have live (s : Side) : (w.graphs.on s).contains (c.elements.on s) = true := hl s
  rw [syncRole, wp_bind, wp_graph, wp_bind, wp_liftGraph, Graph.references_eq,
    hw.store.1, live auth]
  simp only [if_true, wp_bind]
  rw [← List.append_nil ((w.graphs.on auth).members _ _)]
  refine repeat_linkMembers h hl (fun m hm => hm) hp happly (fun ys w₁ hys hw₁ => ?_) hw
  rw [linkMembers, wp_pure, List.append_nil, wp_ite]
  split
  · rename_i hforced
    rw [unlinkStale, wp_bind, wp_graph, wp_bind, wp_liftGraph, Graph.references_eq, hw₁.store.1,
      live auth.other]
    refine wp_forM_keep ?_ hw₁
    intro y hy w₂ hw₂
    rw [wp_bind, wp_pairs, wp_ite, if_neg, wp_pure]
    · exact hw₂
    · rintro ⟨hout, hpartners⟩
      rw [hw₂.store.2] at hpartners
      rcases hfresh hforced y hy with ⟨m, hm, hplaced⟩ | hnone
      · exact hout (hys m hm y hplaced)
      · exact hpartners hnone
  · exact hw₁

/-- Where a member cannot be linked, its role is walked up to there without effect. -/
theorem wp_syncRole_until {E : Error → State → Prop}
    (hl : ∀ s, (w.graphs.on s).contains (c.element s) = true) {m : ElementId}
    {before after : List ElementId} (hrole : w.role c child auth = before ++ m :: after)
    (hp : ∀ m ∈ before, ∃ y, k.Placed w tail c child auth m y)
    (happly : k.Repeats V X w apply tail) (stop : ∀ earlier w', Same V X w w' →
      wp (linkMember k.rules d apply child auth (c.element auth.other) earlier m after)
      (fun _ _ => False) E w') (hw : Same V X w w') :
    wp (syncRole k.rules d apply child auth c.elements) (fun _ _ => False) E w' := by
  have live : (w.graphs.on auth).contains (c.elements.on auth) = true := hl auth
  have hmembers : (w.graphs.on auth).members (c.elements.on auth)
      (child.roles.on auth) = before ++ m :: after := hrole
  have hbefore (m' : ElementId) (hm' : m' ∈ before) : m' ∈ w.role c child auth := by
    simp [hrole, hm']
  rw [syncRole, wp_bind, wp_graph, wp_bind, wp_liftGraph, Graph.references_eq, hw.store.1, live]
  simp only [if_true, wp_bind, hmembers]
  refine repeat_linkMembers h hl hbefore hp happly (fun ys w₁ _ hw₁ => ?_) hw
  rw [linkMembers, wp_bind]
  exact wp_imp (stop _ w₁ hw₁) fun _ _ hf => hf.elim

/-- A rule leads only to pairs that come after its own in the list, so it is not called below
itself. -/
theorem repeat_applyRule (hrest : k.AtRest d X w tail)
    (hl : ∀ c ∈ w.pairs.entries, c.id ∈ tail → ∀ s,
      (w.graphs.on s).contains (c.element s) = true)
    (hn : tail.Nodup) (hvisits : tail ⊆ V) (fuel : Nat) (path : List CorrespondenceId)
    (hfuel : tail.length ≤ fuel) (hpath : ∀ id ∈ path, id ∉ tail) :
    k.Repeats V X w (applyRule k.rules d fuel path) tail := by
  induction hrest generalizing fuel path with
  | nil => exact fun _ _ hid => by cases hid
  | @cons id tail hhead _ ih =>
    obtain ⟨hnew, hn'⟩ := List.nodup_cons.mp hn
    obtain ⟨hvisit, hvisits'⟩ := List.cons_subset.mp hvisits
    have hpath' : ∀ id ∈ path, id ∉ tail :=
      fun id hi ht => hpath id hi (List.mem_cons_of_mem _ ht)
    have hl' : ∀ c ∈ w.pairs.entries, c.id ∈ tail → ∀ s,
        (w.graphs.on s).contains (c.element s) = true :=
      fun c hc hid => hl c hc (List.mem_cons_of_mem _ hid)
    intro c hc hid r hr w' hw
    rcases List.mem_cons.mp hid with rfl | hid
    · rw [List.length_cons] at hfuel
      obtain ⟨fuel, rfl⟩ : ∃ n, fuel = n + 1 := ⟨fuel - 1, by omega⟩
      have hbelow : k.Repeats V X w (applyRule k.rules d fuel (c.id :: path)) tail := by
        apply ih hl' hn' hvisits' fuel (c.id :: path) (by omega)
        intro id hi
        rcases List.mem_cons.mp hi with rfl | hi
        · exact hnew
        · exact hpath' id hi
      rw [applyRule, wp_ite, if_neg fun hi => hpath _ hi (by simp), wp_bind, wp_get, wp_ite]
      split
      · exact hw
      · have hrests := hhead c hc rfl r hr
        rw [wp_bind, wp_modify, applyParts, wp_bind]
        refine wp_imp (wp_forM_keep (I := Same V X w) ?_ (hw.visit hvisit)) ?_
        · intro bi hbi w₁ hw₁
          rw [wp_bind]
          exact repeat_binding h (hl c hc List.mem_cons_self) hc (hrests.bindings bi hbi) r.name
            (RuleSet.mem_of_rule? hr).2 hw₁
        · intro _ w₁ hw₁
          refine wp_forM_keep
            (fun child hchild w₂ hw₂ =>
              wp_forM_keep (fun auth hauth w₃ hw₃ => ?_) hw₂) hw₁
          exact repeat_syncRole h (hl c hc List.mem_cons_self)
            (hrests.placed child hchild auth hauth)
            (fun hforced => hrests.fresh hforced child hchild auth hauth) hbelow hw₃
    · exact ih hl' hn' hvisits' fuel path (Nat.le_of_succ_le hfuel) hpath' c hc hid r hr w' hw

theorem repeats_start (hrest : k.AtRest d X w done)
    (hl : ∀ c ∈ w.pairs.entries, c.id ∈ done → ∀ s,
      (w.graphs.on s).contains (c.element s) = true)
    (hn : done.Nodup) (hlength : done.length ≤ nestingLimit k.rules d w.graphs) :
    k.Repeats done X w (start k.rules d) done := by
  intro c hc hid r hr w' hw
  rw [start, wp_bind, wp_get]
  refine repeat_applyRule h hrest hl hn (List.Subset.refl done) _ [] ?_ (fun _ hi => by cases hi)
    c hc hid r hr w' hw
  rwa [hw.store.1]

/-- A pass that starts where everything is at rest changes nothing. -/
theorem repeat_syncRoots (ha : w.store.Alive) (hrest : k.AtRest d X w done) (hn : done.Nodup)
    (hlength : done.length ≤ nestingLimit k.rules d w.graphs) (hroot : c ∈ w.pairs.entries)
    (hanchor : c.isAnchor = true) (hid : c.id ∈ done) (hr : k.rules.rule? k.rootRule = some r)
    (hkinds : ∀ s, (w.graphs.on s).kind? (w.graphs.on s).root = some (r.types.on s))
    (hx : w.report.conflicts ⊆ X) :
    wp (syncRoots k.rules d k.rootRule) (fun _ => Same done X w) (fun _ _ => False) w := by
  refine wp_syncRoots_recorded h hroot hanchor hr hkinds ?_
  rw [wp_bind]
  refine wp_releaseAllLost_of_alive (fun a ha' => ha a (List.mem_filter.mp ha').1) ?_
  exact repeats_start h hrest (fun a ha' _ => ha a ha') hn hlength c hroot hid r
    ((h.anchor c hroot hanchor).1 ▸ hr) w (.refl hx)

end Replay

end Scheme

end GraphSync
