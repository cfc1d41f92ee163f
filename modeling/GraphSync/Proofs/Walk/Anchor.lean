import GraphSync.Proofs.Walk.Carry

namespace GraphSync

open Walk Relation

theorem Store.not_exposed {a : Store} {s : Side}
    (hr : (a.graphs.on s).referrers (a.graphs.on s).root = [])
    (hc : ∀ c ∈ a.pairs.entries, c.isAnchor = false → c.element s ≠ (a.graphs.on s).root) :
    ¬ a.Exposed s := by
  intro h
  rcases h with ⟨x, role, hm⟩ | ⟨c, hm, hi, he⟩
  · exact Graph.Sound.notMem_of_referrers hr x role hm
  · exact hc c hm hi he

/-- No root is among the deleted elements that were met. -/
def Walk.State.Spares (w : State) : Prop := ∀ p ∈ w.deleted, p.2 ≠ (w.graphs.on p.1).root

namespace Scheme

/-- A child asks for elements of the type of the root on the other side. -/
def Returns (k : Scheme) (s : Side) : Prop :=
  ∃ rule ∈ k.rules.rules, ∃ child ∈ rule.children,
    ∃ r ∈ k.rules.rules, r.name = k.rootRule ∧ child.types.on s.other = r.types.on s.other

instance (k : Scheme) (s : Side) : Decidable (k.Returns s) :=
  inferInstanceAs
    (Decidable (∃ rule ∈ k.rules.rules, ∃ child ∈ rule.children, ∃ r ∈ k.rules.rules, _))

/-- On a side that is followed the root may be met as a member, under the root rule. -/
def LeadsBack (k : Scheme) (d : Direction) (a : Store) : Prop :=
  ∃ s ∈ d.authorities, k.Returns s ∧ a.Exposed s

/-- What a walk leaves of the pair of the roots, and where these may be met. -/
structure Leaves (k : Scheme) (d : Direction) (a b : Store) : Prop where
  consistent : k.Consistent b.graphs b.pairs
  exposed : ∀ s, b.Exposed s → a.Exposed s
  anchors : ¬ k.LeadsBack d a → ∀ c ∈ a.pairs.entries, c.isAnchor = true →
    ∃ c' ∈ b.pairs.entries, c'.core = c.core

namespace Leaves

variable {k : Scheme} {d : Direction} {a a' b : Store}

theorem refl (h : k.Consistent a.graphs a.pairs) : k.Leaves d a a :=
  ⟨h, fun _ he => he, fun _ c hc _ => ⟨c, hc, rfl⟩⟩

theorem trans (h : k.Leaves d a a') (h' : k.Leaves d a' b) : k.Leaves d a b := by
  refine ⟨h'.consistent, fun s he => h.exposed s (h'.exposed s he), ?_⟩
  intro hl c hc ha
  obtain ⟨c', hc', he⟩ := h.anchors hl c hc ha
  have hl' : ¬ k.LeadsBack d a' := fun ⟨s, hs, hr, hx⟩ => hl ⟨s, hs, hr, h.exposed s hx⟩
  obtain ⟨c'', hc'', he'⟩ :=
    h'.anchors hl' c' hc' ((Correspondence.isAnchor_eq_of_core he).trans ha)
  exact ⟨c'', hc'', he'.trans he⟩

end Leaves

end Scheme

namespace Act

variable {k : Scheme} {d : Direction} {V : CorrespondenceId → Prop} {a b : Store}

/-- No write makes a root a member, or a partner of another element. -/
theorem exposed (h : Act k d V a b) (hk : k.Consistent a.graphs a.pairs) {s : Side}
    (hb : b.Exposed s) : a.Exposed s := by
  rcases hb with ⟨x, role, hm⟩ | ⟨c, hc, hi, he⟩
  · have put {t : Side} {g : Graph} (hg : (a.graphs.on t).root ∈ g.members x role →
        (a.graphs.on t).root ∈ (a.graphs.on t).members x role ∨ a.Exposed t)
        (hm : ((a.graphs.put t g).on s).root ∈ ((a.graphs.put t g).on s).members x role) :
        a.Exposed s := by
      by_cases ht : s = t
      · subst t
        rw [Sided.on_put_self] at hm
        exact (hg hm).elim (fun hm => .inl ⟨x, role, hm⟩) id
      · rw [Sided.on_put_of_ne _ _ ht] at hm
        exact .inl ⟨x, role, hm⟩
    cases h with
    | remember => exact .inl ⟨x, role, hm⟩
    | copy on names known numbered side write =>
      exact put (fun hm => .inl (write.members_setValue x role ▸ hm)) hm
    | link on names side partner live new le write =>
      refine put (fun hm => ?_) hm
      rw [write.members] at hm
      split at hm
      · rename_i heq
        rcases (List.mem_insertIdx le).mp hm with hroot | hm
        · rcases partner with hne | ⟨c, hc, hi, he⟩
          · exact absurd hroot.symm hne
          · exact .inr (.inr ⟨c, hc, hi, he.trans hroot.symm⟩)
        · rw [heq.1, heq.2]
          exact .inl hm
      · exact .inl hm
    | unlink forced on names side write =>
      refine put (fun hm => ?_) hm
      rw [write.members] at hm
      split at hm
      · rename_i heq
        rw [heq.1, heq.2]
        exact .inl (List.mem_filter.mp hm).1
      · exact .inl hm
    | make => exact put (fun hm => .inl ((hk.sound _).members_add _ x role ▸ hm)) hm
    | record => exact .inl ⟨x, role, hm⟩
  · have hroot : (b.graphs.on s).root = (a.graphs.on s).root := rfl
    rw [hroot] at he
    rcases h.origin hc with ⟨c', hc', hcore, _⟩ | ⟨_, _, _, t, _, ⟨owner, role, hm⟩, hne, _⟩
    · refine .inr ⟨c', hc', (Correspondence.isAnchor_eq_of_core hcore).symm.trans hi, ?_⟩
      rw [← Correspondence.element_eq_of_core hcore, he]
    · rcases t.eq_or_eq_other s with rfl | rfl
      · exact .inl ⟨owner, role, he ▸ hm⟩
      · exact absurd he hne

/-- The pair of the roots is dropped only for a root that is a member, under the root rule. -/
theorem leaves (h : Act k d V a b) (hk : k.Consistent a.graphs a.pairs) : k.Leaves d a b := by
  refine ⟨h.consistent hk, fun s => h.exposed hk, ?_⟩
  intro hl c hc ha
  cases h with
  | remember => exact (Correspondences.Touches.recordShadow _ _ _ _).kept c hc
  | copy => exact (Correspondences.Touches.recordShadow _ _ _ _).kept c hc
  | link => exact ⟨c, hc, rfl⟩
  | unlink => exact ⟨c, hc, rfl⟩
  | @make s child owner m r side invoked member rule type stale =>
    refine ⟨c, hk.mem_without.mpr ⟨hc, ?_⟩, rfl⟩
    intro hkey
    obtain ⟨hrule, hel⟩ := hk.anchor c hc ha
    obtain ⟨rule', hrule', hchild⟩ := invoked
    have hm : m = (a.graphs.on s).root := by
      rw [← hkey.2, Correspondence.element, hel, Sided.on_map]
    exact hl
      ⟨s, side, ⟨rule', hrule', child, hchild, r, rule, hkey.1.symm.trans hrule, type.symm⟩,
      .inl ⟨owner, _, hm ▸ member⟩⟩
  | record => exact ⟨c, List.mem_append_left _ hc, rfl⟩

end Act

namespace Scheme

variable {k : Scheme} {d : Direction} {V : CorrespondenceId → Prop} {a b : Store} {w w' : State}

theorem leaves_acts (h : Acts k d V a b) (hk : k.Consistent a.graphs a.pairs) : k.Leaves d a b := by
  induction h with
  | refl => exact .refl hk
  | tail hrun hact ih => exact ih.trans (hact.leaves (Acts.consistent hrun hk))

theorem Consistent.freed (h : k.Consistent w.graphs w.pairs) (hf : Frees d w w') :
    k.Consistent w'.graphs w'.pairs :=
  (h.edited hf.follows).sublist hf.entries hf.pairs_next

theorem leaves_freed (h : k.Consistent w.graphs w.pairs) (hf : Frees d w w') :
    k.Leaves d w.store w'.store := by
  refine ⟨h.freed hf, ?_, fun _ c hc ha => ⟨c, hf.anchors c hc ha, rfl⟩⟩
  intro s hs
  rcases hs with ⟨x, role, hm⟩ | ⟨c, hc, hi, he⟩
  · exact .inl ⟨x, role, (hf.members s x role).subset hm⟩
  · exact .inr ⟨c, hf.entries.subset hc, hi, he⟩

/-- The roots are live, so their pair is not lost. -/
theorem Consistent.anchor_alive (h : k.Consistent w.graphs w.pairs) {c : Correspondence}
    (hc : c ∈ w.pairs.entries) (ha : c.isAnchor = true) (s : Side) :
    (w.graphs.on s).contains (c.element s) = true := by
  rw [Correspondence.element, (h.anchor c hc ha).2, Sided.on_map]
  exact (h.sound s).root_live

theorem Consistent.inner_of_dead (h : k.Consistent w.graphs w.pairs) {c : Correspondence}
    (hc : c ∈ w.pairs.entries) {s : Side}
    (hdead : (w.graphs.on s).contains (c.element s) = false) : c.isAnchor = false := by
  cases ha : c.isAnchor with
  | false => rfl
  | true => exact Bool.noConfusion (hdead.symm.trans (h.anchor_alive hc ha s))

theorem Went.leaves (h : k.Consistent w.graphs w.pairs) (hw : k.Went d V w w') :
    k.Leaves d w.store w'.store :=
  leaves_acts hw.acts h

/-- The pairs that lost an element were dropped, and the root rule `r` may be applied to the pair
`c` of the roots. -/
structure Purged (k : Scheme) (d : Direction) (r : Rule) (c : Correspondence)
    (w w' : State) : Prop where
  frees : Frees d w w'
  consistent : k.Consistent w'.graphs w'.pairs
  alive : w'.store.Alive
  kept : ∀ c ∈ w.pairs.entries, (∀ s, (w.graphs.on s).contains (c.element s) = true) →
    c ∈ w'.pairs.entries
  rule : k.rules.rule? c.rule = some r
  entry : c ∈ w'.pairs.entries

theorem Purged.traces {r : Rule} {c : Correspondence} (h : k.Purged d r c w w') :
    k.Traces d (fun _ => False) (Error.OfGraph fun _ => False)
      (start k.rules d r c.id c.elements) w' :=
  traces_start h.consistent h.rule h.entry (h.alive c h.entry)

/-- Once the roots have their pair, a pass drops what was lost, which does not fail, and applies the
root rule. -/
theorem wp_run_purged {apply : Apply} {r : Rule} {c : Correspondence} {Q : Unit → State → Prop}
    {E : Error → State → Prop} (h : k.Consistent w.graphs w.pairs) (hc : c ∈ w.pairs.entries)
    (ha : c.isAnchor = true) (hr : k.rules.rule? k.rootRule = some r)
    (walk : ∀ w', k.Purged d r c w w' → wp (apply r c.id c.elements) Q E w') :
    wp (do releaseAllLost k.rules d; apply r c.id (w.graphs.map Graph.root)) Q E w := by
  rw [wp_bind]
  refine wp_mono (frees_releaseAllLost h.sound h.listed fun c' hc' ha' => h.anchor_alive hc' ha') ?_
    fun _ _ hf => hf.elim
  intro _ w₁ hw₁
  obtain ⟨hf, hleft⟩ := hw₁
  have h₁ := h.freed hf
  have hc₁ := hf.anchors c hc ha
  have halive : w₁.store.Alive := fun a ha s => (hf.contains s _).trans (((hleft a).mp ha).2 s)
  obtain ⟨hrule, hel⟩ := h.anchor c hc ha
  rw [← hel]
  exact walk w₁
    ⟨hf, h₁, halive, fun a ha hl => (hleft a).mpr ⟨ha, hl⟩, hrule ▸ hr, hc₁⟩

/-- What follows in a pass once the roots have their pair. -/
theorem leaves_run (h : k.Consistent w.graphs w.pairs) {c : Correspondence}
    (hc : c ∈ w.pairs.entries) (ha : c.isAnchor = true) {r : Rule}
    (hr : k.rules.rule? k.rootRule = some r) :
    wp (do releaseAllLost k.rules d; start k.rules d r c.id (w.graphs.map Graph.root))
      (fun _ w' => k.Leaves d w.store w'.store)
      (fun e w' => k.Leaves d w.store w'.store ∧ ∀ conflict, e ≠ .pairConflict conflict) w := by
  refine wp_run_purged h hc ha hr fun w₁ hp => ?_
  have hfreed := leaves_freed h hp.frees
  refine wp_mono (hp.traces) ?_ ?_
  · intro _ w₂ hw₂
    exact hfreed.trans (hw₂.leaves hp.consistent)
  · intro _ w₂ hw₂
    exact ⟨hfreed.trans (hw₂.1.leaves hp.consistent), hw₂.2.1.no_conflict⟩

/-- The roots have their pair `c`, and nothing else has changed. -/
structure Paired (k : Scheme) (r : Rule) (c : Correspondence) (w w' : State) : Prop where
  rule : k.rules.rule? k.rootRule = some r
  consistent : k.Consistent w'.graphs w'.pairs
  entry : c ∈ w'.pairs.entries
  anchor : c.isAnchor = true
  graphs : w'.graphs = w.graphs
  old : ∀ a ∈ w.pairs.entries, a ∈ w'.pairs.entries
  new : ∀ a ∈ w'.pairs.entries, a.isAnchor = false → a ∈ w.pairs.entries
  next_le : w.pairs.next ≤ w'.pairs.next
  fresh : ∀ a ∈ w'.pairs.entries, a ∈ w.pairs.entries ∨ w.pairs.next ≤ a.id.index
  shadow? : ∀ a ∈ w'.pairs.entries, ∀ index, a.shadow? index = w.shadow? a.id index
  visited : w'.visited = w.visited
  conflicts : w'.report.conflicts = w.report.conflicts

/-- The roots have their pair or get one, which remembers no values yet. What may be wrong is known
before anything is written. -/
theorem wp_pairRoots_paired {Q : Rule × CorrespondenceId × Sided ElementId → State → Prop}
    {E : Error → State → Prop} (h : k.Consistent w.graphs w.pairs)
    (unknown : k.rules.rule? k.rootRule = none → E (.rule (.unknown k.rootRule)) w)
    (types : ∀ name fault, E (.rule (.invalid name fault)) w)
    (conflict : ¬ w.store.Anchored → ∀ c, E (.pairConflict c) w)
    (paired : ∀ r c w', k.Paired r c w w' → c ∈ w.pairs.entries ∨
      (∀ index, c.shadow? index = none) → Q (r, c.id, w'.graphs.map Graph.root) w') :
    wp (pairRoots k.rules d k.rootRule) Q E w := by
  refine wp_pairRoots h.sound unknown (fun _ _ _ _ => types _ _) fun r hr hk => ?_
  rw [wp_onPairs]
  rcases h.anchor_cases d with ⟨c, hc, ha, he⟩ | ⟨hn, ⟨fault, he⟩ | ⟨hs, he⟩⟩ <;> rw [he]
  · exact paired r c w ⟨hr, h, hc, ha, rfl, fun _ ha => ha, fun _ ha _ => ha, Nat.le_refl _,
      fun _ ha => .inl ha, fun _ ha index => (State.shadow?_of_mem h.listed ha index).symm, rfl,
        rfl⟩ (.inl hc)
  · refine conflict ?_ fault
    rintro ⟨c, hc, ha⟩
    have hfalse := (hn c hc).symm.trans ha
    cases hfalse
  · let c := w.pairs.anchorEntry k.rootRule (w.graphs.map Graph.root) d
    refine paired r c { w with
      pairs := { entries := w.pairs.entries ++ [c], next := w.pairs.next + 1 }
      report := { w.report with pairsCreated := w.report.pairsCreated + 1 } } ?_ (.inr fun _ => rfl)
    refine ⟨hr, ?_, List.mem_append_right _ (List.mem_singleton_self c), rfl, rfl,
      fun a ha => List.mem_append_left _ ha, ?_, Nat.le_succ _, ?_, ?_, rfl, rfl⟩
    · refine h.append rfl ?_ ?_ (fun _ => ⟨rfl, rfl⟩) (fun hf => by cases hf) ⟨r, hr, ?_⟩
        fun _ => rfl
      · intro s a ha hrule
        rw [Correspondences.element_anchorEntry, Sided.on_map]
        exact hs s a ha hrule
      · intro s
        rw [Correspondences.element_anchorEntry, Sided.on_map]
        exact (h.sound s).live_lt _ (h.sound s).root_live
      · intro s kind hkind
        rw [Correspondences.element_anchorEntry, Sided.on_map, hk s] at hkind
        exact (Option.some.inj hkind).symm
    · intro a ha hi
      rcases List.mem_append.mp ha with ha | ha
      · exact ha
      · rw [List.mem_singleton.mp ha] at hi
        cases hi
    · intro a ha
      refine (List.mem_append.mp ha).imp_right fun ha => ?_
      rw [List.mem_singleton.mp ha]
      exact Nat.le_refl _
    · intro a ha index
      rcases List.mem_append.mp ha with ha | ha
      · exact (State.shadow?_of_mem h.listed ha index).symm
      · rw [List.mem_singleton.mp ha]
        exact (State.shadow?_of_le h.listed (Nat.le_refl _) index).symm

/-- A pass fails at once, or pairs the roots first. -/
theorem wp_syncRootsBy_paired {apply : Apply} {Q : Unit → State → Prop}
    {E : Error → State → Prop} (h : k.Consistent w.graphs w.pairs)
    (unknown : k.rules.rule? k.rootRule = none → E (.rule (.unknown k.rootRule)) w)
    (types : ∀ name fault, E (.rule (.invalid name fault)) w)
    (conflict : ¬ w.store.Anchored → ∀ c, E (.pairConflict c) w)
    (run : ∀ r c w', k.Paired r c w w' →
      wp (do releaseAllLost k.rules d; apply r c.id (w'.graphs.map Graph.root)) Q E w') :
    wp (syncRootsBy k.rules d apply k.rootRule) Q E w := by
  rw [syncRootsBy, wp_bind]
  exact wp_pairRoots_paired h unknown types conflict fun r c w' hp _ => run r c w' hp

theorem wp_syncRoots_paired {Q : Unit → State → Prop} {E : Error → State → Prop}
    (h : k.Consistent w.graphs w.pairs)
    (fails : ∀ e, (w.store.Anchored → ∀ c, e ≠ .pairConflict c) → E e w)
    (run : ∀ r c w', k.Paired r c w w' →
      wp (do releaseAllLost k.rules d; start k.rules d r c.id (w'.graphs.map Graph.root)) Q E w') :
    wp (syncRoots k.rules d k.rootRule) Q E w := by
  rw [syncRoots_eq]
  exact wp_syncRootsBy_paired h (fun _ => fails _ fun _ _ he => by cases he)
    (fun _ _ => fails _ fun _ _ he => by cases he) (fun hn _ => fails _ fun ha => absurd ha hn) run

theorem Paired.leaves {r : Rule} {c : Correspondence} (h : k.Paired r c w w') :
    k.Leaves d w.store w'.store := by
  have hg (s : Side) : w'.store.graphs.on s = w.store.graphs.on s := congrArg (·.on s) h.graphs
  refine ⟨h.consistent, ?_, fun _ a ha _ => ⟨a, h.old a ha, rfl⟩⟩
  intro s hx
  rw [Store.Exposed, hg] at hx
  exact hx.imp_right fun ⟨a, ha, hi, he⟩ => ⟨a, h.new a ha hi, hi, he⟩

/-- A pass keeps the pair of the roots, and does not ask for another one. -/
theorem leaves_syncRoots (h : k.Consistent w.graphs w.pairs) :
    wp (syncRoots k.rules d k.rootRule) (fun _ w' => k.Leaves d w.store w'.store)
      (fun e w' => k.Leaves d w.store w'.store ∧
        (w.store.Anchored → ∀ c, e ≠ .pairConflict c))
      w := by
  refine wp_syncRoots_paired h (fun e he => ⟨.refl h, he⟩) ?_
  intro r c w₁ hp
  exact wp_mono (leaves_run hp.consistent hp.entry hp.anchor hp.rule)
    (fun _ _ hl => hp.leaves.trans hl) fun _ _ hl => ⟨hp.leaves.trans hl.1, fun _ => hl.2⟩

/-- Carrying edits over leaves the pair of the roots, and notes no root as deleted. -/
def Carries (k : Scheme) (d : Direction) (w w' : State) : Prop :=
  k.Leaves d w.store w'.store ∧ (w.Spares → w'.Spares)

theorem carries_carry (h : k.Consistent w.graphs w.pairs) {s : Side} (hs : s ∈ d.authorities)
    (c : Change) :
    wp (carry k.rules d s c) (fun _ w' => k.Carries d w w') (fun _ w' => k.Carries d w w') w := by
  let w₀ : State := { w with visited := [] }
  have h₀ : k.Consistent w₀.graphs w₀.pairs := h
  have wrote {w' : State} (hw : k.Went d (fun _ => True) w₀ w') : k.Carries d w w' :=
    ⟨Went.leaves (w := w₀) h₀ hw, fun hsp p hp => hsp p (hw.deleted ▸ hp)⟩
  refine wp_carry_traced h hs (fun _ hw _ => wrote hw) (fun _ _ hw _ _ => wrote hw) ?_
  rintro _ _ target _ w' ⟨w₁, deleted, hf, _, rfl, hmem⟩
  refine ⟨?_, fun hsp p hp => ?_⟩
  · have hl : k.Leaves d w₀.store w₁.store := leaves_freed h₀ hf
    exact hl
  rcases (hmem p).mp hp with hp | ⟨rfl, hgone⟩
  · exact hsp p hp
  · intro (he : target = (w.graphs.on s).root)
    have hlive : (w₀.graphs.on s).contains target = true := he ▸ (h.sound s).root_live
    exact Bool.noConfusion (hgone.symm.trans hlive)

theorem leaves_releaseDeleted (h : k.Consistent w.graphs w.pairs) (hsp : w.Spares) :
    k.Leaves d w.store (releaseDeleted w).store := by
  obtain ⟨hgraphs, hnext, hsub, hmem⟩ := releaseDeleted_spec w
  have hg : (releaseDeleted w).store.graphs = w.store.graphs := hgraphs
  refine ⟨?_, fun s hx => ?_, fun _ c hc ha => ⟨c, (hmem c hc).mpr fun p hp he => hsp p hp ?_, rfl⟩⟩
  · rw [hg]
    exact h.sublist hsub hnext
  · rw [Store.Exposed, hg] at hx
    exact hx.imp_right fun ⟨c, hc, hi, he⟩ => ⟨c, hsub.subset hc, hi, he⟩
  · rw [← he, Correspondence.element, (h.anchor c hc ha).2, Sided.on_map]

end Scheme

end GraphSync
