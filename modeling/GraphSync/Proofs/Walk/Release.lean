import GraphSync.Proofs.Graph.Spared
import GraphSync.Proofs.Walk.Keep

namespace GraphSync

open Walk

/-- The element of that side is in no recorded pair. -/
def Correspondences.Unpaired (t : Correspondences) (s : Side) (x : ElementId) : Prop :=
  ∀ c ∈ t.entries, c.element s ≠ x

instance (t : Correspondences) (s : Side) (x : ElementId) : Decidable (t.Unpaired s x) :=
  inferInstanceAs (Decidable (∀ c ∈ t.entries, c.element s ≠ x))

namespace Walk

variable {w w' w'' : State} {d : Direction}

/-- At most members leave their roles and pairs the record, but not that of the roots. What leaves a
role, and what it leaves, is in a recorded pair. -/
structure Frees (d : Direction) (w w' : State) : Prop where
  follows : ∀ s, (w.graphs.on s).Follows (w'.graphs.on s)
  kept : ∀ s, s.other ∉ d.authorities → w'.graphs.on s = w.graphs.on s
  next : ∀ s, (w'.graphs.on s).next = (w.graphs.on s).next
  observed : ∀ s, (w'.graphs.on s).observed = (w.graphs.on s).observed
  contains : ∀ s x, (w'.graphs.on s).contains x = (w.graphs.on s).contains x
  kind? : ∀ s x, (w'.graphs.on s).kind? x = (w.graphs.on s).kind? x
  reading : ∀ s x name, (w'.graphs.on s).reading x name = (w.graphs.on s).reading x name
  members : ∀ s x role, ((w'.graphs.on s).members x role).Sublist ((w.graphs.on s).members x role)
  spared : ∀ s, (w.graphs.on s).Spared (w.pairs.Unpaired s) (w'.graphs.on s)
  entries : w'.pairs.entries.Sublist w.pairs.entries
  anchors : ∀ c ∈ w.pairs.entries, c.isAnchor = true → c ∈ w'.pairs.entries
  pairs_next : w'.pairs.next = w.pairs.next
  visited : w'.visited = w.visited
  deleted : w'.deleted = w.deleted
  created : w'.report.elementsCreated = w.report.elementsCreated
  conflicts : w'.report.conflicts = w.report.conflicts

namespace Frees

theorem refl (d : Direction) (h : ∀ s, (w.graphs.on s).Sound) : Frees d w w :=
  ⟨fun s => (h s).refl, fun _ _ => rfl, fun _ => rfl, fun _ => rfl, fun _ _ => rfl,
    fun _ _ => rfl, fun _ _ _ => rfl,
    fun _ _ _ => .refl _, fun _ => .refl _ _, .refl _, fun _ hc _ => hc, rfl, rfl, rfl, rfl, rfl⟩

theorem trans (h : Frees d w w') (h' : Frees d w' w'') : Frees d w w'' where
  follows s := (h.follows s).trans (h'.follows s)
  kept s hs := (h'.kept s hs).trans (h.kept s hs)
  next s := (h'.next s).trans (h.next s)
  observed s := (h'.observed s).trans (h.observed s)
  contains s x := (h'.contains s x).trans (h.contains s x)
  kind? s x := (h'.kind? s x).trans (h.kind? s x)
  reading s x name := (h'.reading s x name).trans (h.reading s x name)
  members s x role := (h'.members s x role).trans (h.members s x role)
  spared s := (h.spared s).trans ((h'.spared s).mono fun _ hx c hc => hx c (h.entries.subset hc))
  entries := h'.entries.trans h.entries
  anchors c hc ha := h'.anchors c (h.anchors c hc ha) ha
  pairs_next := h'.pairs_next.trans h.pairs_next
  visited := h'.visited.trans h.visited
  deleted := h'.deleted.trans h.deleted
  created := h'.created.trans h.created
  conflicts := h'.conflicts.trans h.conflicts

theorem sound (h : Frees d w w') (s : Side) : (w'.graphs.on s).Sound := (h.follows s).sound

/-- Taking an element out of a role. -/
theorem drop (h : ∀ s, (w.graphs.on s).Sound) {s : Side} (hs : s.other ∈ d.authorities)
    {owner e : ElementId} (howner : ¬ w.pairs.Unpaired s owner) (he : ¬ w.pairs.Unpaired s e)
    (role : RoleName) (unlinked : Nat) :
    Frees d w { w with
      graphs := w.graphs.put s ((w.graphs.on s).dropReference owner role e)
      report := { w.report with referencesUnlinked := unlinked } } := by
  have hrel := (h s).relists_dropReference owner role e
  have hput {P : Graph → Graph → Prop}
      (hp : P (w.graphs.on s) ((w.graphs.on s).dropReference owner role e)) (hq : ∀ g, P g g)
      (t : Side) :
      P (w.graphs.on t) ((w.graphs.put s ((w.graphs.on s).dropReference owner role e)).on t) := by
    by_cases ht : t = s
    · subst t
      rwa [Sided.on_put_self]
    · rw [Sided.on_put_of_ne _ _ ht]
      exact hq _
  refine ⟨?_, ?_, hput (P := fun g g' => g'.next = g.next) hrel.next fun _ => rfl,
    hput (P := fun g g' => g'.observed = g.observed) hrel.observed fun _ => rfl,
    hput (P := fun g g' => ∀ x, g'.contains x = g.contains x) hrel.contains fun _ _ => rfl,
    hput (P := fun g g' => ∀ x, g'.kind? x = g.kind? x) hrel.kind? fun _ _ => rfl,
    hput (P := fun g g' => ∀ x name, g'.reading x name = g.reading x name) hrel.reading
      fun _ _ _ => rfl,
    hput (P := fun g g' => ∀ x role, (g'.members x role).Sublist (g.members x role)) ?_
      fun _ _ _ => .refl _,
    fun t => ?_, .refl _, fun _ hc _ => hc, rfl, rfl, rfl, rfl, rfl⟩
  · intro t
    by_cases ht : t = s
    · subst t
      simpa using (h s).dropReference owner role e
    · rw [Sided.on_put_of_ne _ _ ht]
      exact (h t).refl
  · intro t ht
    exact Sided.on_put_of_ne _ _ fun e => ht (e ▸ hs)
  · intro x r
    rw [hrel.members]
    split
    · rename_i he
      rw [he.1, he.2]
      exact List.filter_sublist
    · exact .refl _
  · by_cases ht : t = s
    · subst t
      rw [Sided.on_put_self]
      exact hrel.spared_filter howner he
    · rw [Sided.on_put_of_ne _ _ ht]
      exact .refl _ _

/-- Dropping a pair other than that of the roots. -/
theorem release (h : ∀ s, (w.graphs.on s).Sound) {id : CorrespondenceId}
    (hi : ∀ c ∈ w.pairs.entries, c.id = id → c.isAnchor = false) (report : Report)
    (hcreated : report.elementsCreated = w.report.elementsCreated)
    (hconflicts : report.conflicts = w.report.conflicts) :
    Frees d w { w with pairs := w.pairs.remove id, report } := by
  refine ⟨fun s => (h s).refl, fun _ _ => rfl, fun _ => rfl, fun _ => rfl, fun _ _ => rfl,
    fun _ _ => rfl,
    fun _ _ _ => rfl, fun _ _ _ => .refl _, fun _ => .refl _ _, List.filter_sublist, ?_, rfl, rfl,
      rfl, hcreated,
    hconflicts⟩
  intro c hc ha
  refine List.mem_filter.mpr ⟨hc, ?_⟩
  simpa using fun e => Bool.noConfusion (ha.symm.trans (hi c hc e))

end Frees

theorem frees_unlink (h : ∀ s, (w.graphs.on s).Sound) {s : Side} (hs : s.other ∈ d.authorities)
    {owner e : ElementId} (howner : ¬ w.pairs.Unpaired s owner) (he : ¬ w.pairs.Unpaired s e)
    (role : RoleName) :
    wp (unlink s owner role e) (fun _ w' => Frees d w w' ∧ w'.pairs = w.pairs)
      (fun _ _ => (w.graphs.on s).contains owner = false) w :=
  wp_unlink id fun _ _ _ => ⟨.drop h hs howner he role _, rfl⟩

/-- An element is taken out of roles of live owners only, so nothing is missed. -/
theorem frees_unlinkWalked (h : ∀ s, (w.graphs.on s).Sound) {rules : RuleSet} {s : Side}
    (hs : s.other ∈ d.authorities) {e : ElementId} (he : ¬ w.pairs.Unpaired s e) :
    wp (unlinkWalked rules s e) (fun _ w' => Frees d w w' ∧ w'.pairs = w.pairs)
      (fun _ _ => False) w := by
  rw [unlinkWalked, wp_bind, wp_graph]
  refine wp_forM_keep (I := fun w' => Frees d w w' ∧ w'.pairs = w.pairs) ?_ ⟨.refl d h, rfl⟩
  intro place hplace w₁ h₁
  obtain ⟨hf, hp⟩ := h₁
  have hlive : (w₁.graphs.on s).contains place.1 = true := by
    rw [hf.contains]
    exact Graph.contains_of_mem_referrers hplace
  rw [wp_bind, wp_pairs, wp_ite]
  split
  · rename_i hwalks
    obtain ⟨c, hc, _⟩ := List.any_eq_true.mp hwalks
    obtain ⟨hmem, hplace⟩ := List.mem_filter.mp hc
    have howner : ¬ w₁.pairs.Unpaired s place.1 := fun hno => hno c hmem (by simpa using hplace)
    exact wp_mono (frees_unlink hf.sound hs howner (hp ▸ he) _)
      (fun _ _ h₂ => ⟨hf.trans h₂.1, h₂.2.trans hp⟩)
      fun _ _ hdead => Bool.noConfusion (hdead.symm.trans hlive)
  · exact ⟨hf, hp⟩

theorem source_of_deletesFrom {s : Side} (h : d.deletesFrom s = true) : s ∈ d.authorities := by
  cases d with
  | oneWay source forced =>
    simp only [Direction.deletesFrom, Bool.and_eq_true, beq_iff_eq] at h
    simp [Direction.authorities, h.2]
  | twoWay => cases s <;> simp [Direction.authorities, Side.all]

theorem frees_releaseLost (h : ∀ s, (w.graphs.on s).Sound) {rules : RuleSet} {c : Correspondence}
    (hmem : c ∈ w.pairs.entries)
    (hc : ∀ c' ∈ w.pairs.entries, c'.id = c.id → c'.isAnchor = false) (s : Side) :
    wp (releaseLost rules d c s)
      (fun _ w' => Frees d w w' ∧ w'.pairs.entries = w.pairs.entries.filter (·.id ≠ c.id))
      (fun _ _ => False) w := by
  rw [releaseLost, wp_bind, wp_graph, wp_ite]
  split
  · rename_i hcond
    have hs : s.other.other ∈ d.authorities := by
      rw [Side.other_other]
      exact source_of_deletesFrom (Bool.and_eq_true_iff.mp hcond).1
    rw [wp_bind]
    apply wp_imp (frees_unlinkWalked h hs fun hno => hno c hmem rfl)
    intro _ w₁ h₁
    obtain ⟨hf, hp⟩ := h₁
    rw [wp_releasePair]
    refine ⟨hf.trans (.release hf.sound (fun c' hc' => hc c' (hp ▸ hc')) _ rfl rfl), ?_⟩
    simp only [Correspondences.remove, hp]
  · exact ⟨.release h hc _ rfl rfl, rfl⟩

theorem lostOn?_eq_none {graphs : Sided Graph} {c : Correspondence} :
    c.lostOn? graphs = none ↔ ∀ s, (graphs.on s).contains (c.element s) = true := by
  constructor
  · intro h s
    have := List.find?_eq_none.mp h s (by cases s <;> simp [Side.all])
    simpa using this
  · intro h
    exact List.find?_eq_none.mpr fun s _ => by simp [h s]

/-- The pairs but that of the roots that lost an element, and the side where they did. -/
def State.lost (w : State) : List (Correspondence × Side) :=
  w.pairs.members.filterMap fun c => (c.lostOn? w.graphs).map fun s => (c, s)

theorem State.mem_lost {p : Correspondence × Side} :
    p ∈ w.lost ↔ p.1 ∈ w.pairs.members ∧ p.1.lostOn? w.graphs = some p.2 := by
  simp only [State.lost, List.mem_filterMap, Option.map_eq_some_iff]
  constructor
  · rintro ⟨c, hc, s, hs, rfl⟩
    exact ⟨hc, hs⟩
  · rintro ⟨hc, hs⟩
    exact ⟨p.1, hc, p.2, hs, rfl⟩

theorem State.fst_lost (w : State) :
    w.lost.map Prod.fst = w.pairs.members.filter fun c => (c.lostOn? w.graphs).isSome := by
  rw [State.lost, List.map_filterMap, ← List.filterMap_eq_filter]
  congr
  funext c
  cases hc : c.lostOn? w.graphs <;> simp [Option.guard, hc]

theorem contains_of_lostOn? {graphs : Sided Graph} {c : Correspondence} {s : Side}
    (h : c.lostOn? graphs = some s) : (graphs.on s).contains (c.element s) = false := by
  simpa using List.find?_some h

/-- What is left are the pairs with live elements; the pair of the roots is one of them. Nothing is
missed on the way. -/
theorem frees_releaseAllLost {rules : RuleSet} (h : ∀ s, (w.graphs.on s).Sound)
    (hl : w.pairs.Listed)
    (hanchor : ∀ c ∈ w.pairs.entries, c.isAnchor = true → ∀ s,
      (w.graphs.on s).contains (c.element s) = true) :
    wp (releaseAllLost rules d)
      (fun _ w' => Frees d w w' ∧ ∀ c, c ∈ w'.pairs.entries ↔ c ∈ w.pairs.entries ∧
        ∀ s, (w.graphs.on s).contains (c.element s) = true) (fun _ _ => False) w := by
  rw [releaseAllLost, wp_bind, wp_get]
  have hmem (c : Correspondence) :
      c ∈ w.lost.map Prod.fst ↔ c ∈ w.pairs.members ∧ c.lostOn? w.graphs ≠ none := by
    rw [State.fst_lost, List.mem_filter, Option.isSome_iff_ne_none]
  have hnodup : (w.lost.map Prod.fst).Nodup := by
    rw [State.fst_lost]
    exact (hl.entries_nodup.filter _).filter _
  have hentry {c : Correspondence} (hc : c ∈ w.lost.map Prod.fst) :
      c ∈ w.pairs.entries ∧ c.isAnchor = false := by
    simpa using List.mem_filter.mp ((hmem c).mp hc).1
  refine wp_imp (wp_forM_worked (I := fun pre w' => Frees d w w' ∧
    ∀ c, c ∈ w'.pairs.entries ↔ c ∈ w.pairs.entries ∧ c ∉ pre.map Prod.fst) ?_
    ⟨.refl d h, by simp⟩) ?_
  · intro pre gone post hsplit w₁ h₁
    obtain ⟨a, s⟩ := gone
    obtain ⟨hf, hleft⟩ := h₁
    replace hsplit : w.lost = pre ++ (a, s) :: post := hsplit
    have ha : a ∈ w.pairs.entries ∧ a.isAnchor = false := hentry (by rw [hsplit]; simp)
    have hnew : a ∉ pre.map Prod.fst := by
      rw [hsplit, List.map_append, List.nodup_append] at hnodup
      exact fun hin => hnodup.2.2 a hin a List.mem_cons_self rfl
    refine wp_imp (frees_releaseLost hf.sound ((hleft a).mpr ⟨ha.1, hnew⟩) ?_ s) ?_
    · intro c hc hi
      rw [hl.eq_of_id ((hleft c).mp hc).1 ha.1 hi]
      exact ha.2
    · intro _ w₂ h₂
      obtain ⟨hf', he⟩ := h₂
      refine ⟨hf.trans hf', ?_⟩
      intro c
      rw [he, List.mem_filter, hleft]
      simp only [decide_eq_true_eq, List.map_append, List.map_cons, List.map_nil, List.mem_append,
        List.mem_singleton, not_or, and_assoc]
      apply and_congr_right
      intro hc
      apply and_congr_right
      intro _
      apply not_congr
      constructor
      · intro hi
        exact hl.eq_of_id hc ha.1 hi
      · intro hi
        rw [hi]
  · intro _ w' h'
    obtain ⟨hf, hleft⟩ := h'
    replace hleft : ∀ c, c ∈ w'.pairs.entries ↔ c ∈ w.pairs.entries ∧
      c ∉ w.lost.map Prod.fst := hleft
    refine ⟨hf, ?_⟩
    intro c
    rw [hleft]
    apply and_congr_right
    intro hc
    rw [hmem, ← lostOn?_eq_none, not_and_or, not_not]
    constructor
    · intro hor
      rcases hor with hn | hn
      · have ha : c.isAnchor = true := by simpa [Correspondences.members, hc] using hn
        exact lostOn?_eq_none.mpr (hanchor c hc ha)
      · exact hn
    · exact .inr

/-- Nothing happens if no pair was lost. -/
theorem wp_releaseAllLost_of_alive {Q : Unit → State → Prop} {E : Error → State → Prop}
    {rules : RuleSet}
    (h : ∀ c ∈ w.pairs.members, ∀ s, (w.graphs.on s).contains (c.element s) = true)
    (hq : Q () w) : wp (releaseAllLost rules d) Q E w := by
  rw [releaseAllLost, wp_bind, wp_get]
  have hnone :
      w.pairs.members.filterMap (fun c => (c.lostOn? w.graphs).map fun s => (c, s)) = [] := by
    apply List.filterMap_eq_nil_iff.mpr
    intro c hc
    rw [lostOn?_eq_none.mpr (h c hc)]
    rfl
  simp only [hnone]
  exact hq

end Walk

namespace OneWay

variable {k : OneWay} {w w' : State}

/-- The roots are live, so their pair is not lost. -/
theorem Coherent.anchor_alive (h : k.Coherent w.graphs w.pairs) {c : Correspondence}
    (hc : c ∈ w.pairs.entries) (ha : c.isAnchor = true) (s : Side) :
    (w.graphs.on s).contains (c.element s) = true := by
  rw [Correspondence.element, (h.anchor c hc ha).2, Sided.on_map]
  exact (h.sound s).root_live

theorem Coherent.freed (h : k.Coherent w.graphs w.pairs) (hf : Frees k.direction w w') :
    k.Coherent w'.graphs w'.pairs :=
  (h.edited hf.follows).sublist hf.entries hf.pairs_next

/-- A one-way pass leaves the source graph alone. -/
theorem source_freed (hf : Frees k.direction w w') : w'.graphs.on k.source = w.graphs.on k.source :=
  hf.kept k.source fun hs => k.target_ne_source (List.mem_singleton.mp hs)

end OneWay

/-- At the end of a flush the pairs of the deleted elements that were noted are dropped, and nothing
else. -/
theorem Walk.releaseDeleted_spec (w : State) :
    (releaseDeleted w).graphs = w.graphs ∧ (releaseDeleted w).pairs.next = w.pairs.next ∧
      (releaseDeleted w).pairs.entries.Sublist w.pairs.entries ∧
      ∀ c ∈ w.pairs.entries, c ∈ (releaseDeleted w).pairs.entries ↔ ∀ p ∈ w.deleted,
        c.element p.1 ≠ p.2 := by
  unfold releaseDeleted
  dsimp only
  generalize hv : ({ w with deleted := [] } : State) = v
  have hg : v.graphs = w.graphs := hv ▸ rfl
  have hp : v.pairs = w.pairs := hv ▸ rfl
  rw [← hg, ← hp]
  clear hv hg hp
  generalize w.deleted = l
  induction l generalizing v with
  | nil => exact ⟨rfl, rfl, .refl _, fun c hc => ⟨fun _ _ hp => (by cases hp), fun _ => hc⟩⟩
  | cons p l ih =>
    obtain ⟨hgraphs, hnext, hsub, hmem⟩ := ih { v with
      pairs := (v.pairs.release p.1 p.2).2
      report :=
        { v.report with pairsReleased :=
          v.report.pairsReleased + (v.pairs.release p.1 p.2).1.length } }
    have hfirst (c : Correspondence) : c ∈ (v.pairs.release p.1 p.2).2.entries ↔
        c ∈ v.pairs.entries ∧ c.element p.1 ≠ p.2 := by
      simp [Correspondences.release, List.mem_filter]
    refine ⟨hgraphs, hnext, hsub.trans List.filter_sublist, fun c hc => ?_⟩
    rw [List.foldl_cons, List.forall_mem_cons]
    constructor
    · intro hin
      have hc₁ := hsub.subset hin
      exact ⟨((hfirst c).mp hc₁).2, (hmem c hc₁).mp hin⟩
    · rintro ⟨hne, hrest⟩
      exact (hmem c ((hfirst c).mpr ⟨hc, hne⟩)).mpr hrest

end GraphSync
