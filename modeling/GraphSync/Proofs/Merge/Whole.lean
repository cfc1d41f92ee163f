import GraphSync.Proofs.Merge.Descent
import GraphSync.Proofs.Walk.Anchor

namespace GraphSync.Merge

open Walk Relation

variable {k : Scheme} {w₀ w w' : State} {done : List CorrespondenceId}
  {c : Correspondence} {r : Rule}

/-- The pass is over: rules were applied to the pairs of `done`, that of the roots among them, and
to no other ones. -/
structure Ended (k : Scheme) (w₀ : State) (done : List CorrespondenceId)
    (w : State) : Prop extends Steady k w₀ [] done [] w where
  roots : ∃ c ∈ w.pairs.entries, c.isAnchor = true ∧ c.id ∈ done

/-- Where roles tell children apart, all that a rule asks for of the roles of a pair is there in the
end. -/
structure Merged (k : Scheme) (w₀ : State) (done : List CorrespondenceId)
    (w : State) : Prop extends Ended k w₀ done w where
  whole : Finished k w done

theorem Met.mono {child : Child} {s : Side} {m : ElementId} {done' : List CorrespondenceId}
    (h : Met w done c child s m) (hd : done ⊆ done') : Met w done' c child s m := by
  obtain ⟨a, ha, hi, he, hp, hid⟩ := h
  exact ⟨a, ha, hi, he, hp, hd hid⟩

/-- The roles of a pair whose rule was applied to the end. -/
theorem Finished.rolesDone (h : Finished k w done) (hc : c ∈ w.pairs.entries)
    (hid : c.id ∈ done) : RolesDone k w done c := by
  induction h with
  | nil => cases hid
  | @cons id done head _ ih =>
    have more {done' : List CorrespondenceId} (hr : RolesDone k w done' c)
        (hd : done' ⊆ id :: done) : RolesDone k w (id :: done) c :=
      fun r hr' child hchild s m hm => (hr r hr' child hchild s m hm).mono hd
    rcases List.mem_cons.mp hid with he | hid
    · exact more (head c hc he) (List.subset_cons_self _ _)
    · exact more (ih hid) (List.subset_cons_self _ _)

namespace Merged

/-- A member of a role has one partner, which is in the role on the other side. -/
theorem partner (h : Merged k w₀ done w) (ht : ∀ s, k.rules.UniqueTypes s)
    (hc : c ∈ w.pairs.entries) (hid : c.id ∈ done) (hr : k.rules.rule? c.rule = some r)
    {child : Child} (hchild : child ∈ r.children) {s : Side} {m : ElementId}
    (hm : m ∈ w.role c child s) :
    ∃ y, w.pairs.partners s m = [y] ∧ y ∈ w.role c child s.other := by
  obtain ⟨a, ha, _, he, hp, _⟩ := h.whole.rolesDone hc hid r hr child hchild s m hm
  refine ⟨a.element s.other, ?_, hp⟩
  have hof : w.pairs.ofElement s m = [a] := by
    refine List.perm_singleton.mp
      ((List.perm_ext_iff_of_nodup ?_ (List.nodup_singleton a)).mpr fun b => ?_)
    · exact (h.consistent.listed.sorted.imp fun hlt he => by simp [he] at hlt).filter _
    · simp only [Correspondences.ofElement, List.mem_filter, decide_eq_true_eq, List.mem_singleton]
      constructor
      · intro hb
        exact h.consistent.apart h.alive (ht s) b hb.1 a ha (hb.2.trans he.symm)
      · intro hb
        exact hb ▸ ⟨ha, he⟩
  rw [Correspondences.partners, hof]
  rfl

end Merged

/-- A binding of a pair whose rule was applied. -/
theorem Ended.bound (h : Ended k w₀ done w) (hc : c ∈ w.pairs.entries) (hid : c.id ∈ done)
    (hr : k.rules.rule? c.rule = some r) {bi : Binding × Nat} (hbi : bi ∈ r.numbered) :
    Settled w₀ w c bi :=
  h.since.settled c hc bi ⟨by simpa using hid, ⟨r, hr, hbi⟩, fun _ => by simp⟩

/-- Nothing was applied yet, and nothing was written. -/
theorem steady_start (hk : k.Consistent w.graphs w.pairs) (ha : w.store.Alive)
    (hb : w.store.Anchored) (hv : w.visited = []) (hc : w.report.conflicts = [])
    (hl : w₀.pairs.Listed) (hn : w₀.pairs.next ≤ w.pairs.next)
    (hold : ∀ c ∈ w.pairs.entries, c.id.index < w₀.pairs.next →
      ∃ c₀ ∈ w₀.pairs.entries, c.core = c₀.core)
    (hreading : ∀ s x name, (w.graphs.on s).reading x name = (w₀.graphs.on s).reading x name)
    (hshadow : ∀ c ∈ w.pairs.entries, ∀ index, c.shadow? index = w₀.shadow? c.id index) :
    Steady k w₀ [] [] [] w where
  consistent := hk
  alive := ha
  anchored := hb
  ids_nodup := .nil
  visited id := by simp [hv]
  recorded _ hid := by cases hid
  since := {
    listed := hl
    next_le := hn
    old := hold
    settled := fun _ _ _ hb => by cases hb.listed
    reading := fun s x name => .inl (hreading s x name)
    remembered := fun c hc index => .inl (hshadow c hc index)
    reported := fun x hx => by simp [hc] at hx }
  finished _ := .nil
  reached _ hid := by cases hid
  grounded _ _ hl := absurd (List.suffix_nil.mp hl) (by simp)
  conflicts_nodup := hc ▸ .nil

/-- The root rule is applied to the pair of the roots. -/
theorem ended_start (ht : ∀ s, k.rules.UniqueTypes s) (hu : ∀ s, k.rules.UniqueAttributes s)
    (h : Steady k w₀ [] [] [] w) (hc : c ∈ w.pairs.entries) (ha : c.isAnchor = true)
    (hr : k.rules.rule? k.rootRule = some r) :
    wp (start k.rules .twoWay r c.id (w.graphs.map Graph.root))
      (fun _ w' => ∃ done, Ended k w₀ done w') (fun _ _ => True) w := by
  obtain ⟨hrule, hroots⟩ := h.consistent.anchor c hc ha
  rw [start, wp_bind, wp_get, ← hroots]
  refine wp_imp
    (calls_applyRule ht hu w₀ (nestingLimit k.rules .twoWay w.graphs) [] [] w c r h hc (hrule ▸ hr)
    ⟨c, hc, ha, .refl⟩ ⟨c, hc, .inl ⟨ha, rfl⟩⟩) ?_
  rintro _ w' ⟨hwent, new, h', hdone⟩
  obtain ⟨c', hc', hcore⟩ := hwent.acts.kept h.consistent h'.anchored hc (h.alive c hc)
  refine ⟨new ++ [], h', c', hc', (Correspondence.isAnchor_eq_of_core hcore).trans ha, ?_⟩
  rw [Correspondence.id_eq_of_core hcore]
  exact hdone

/-- A pass that ends well has applied the rules of all that is reached from the roots. -/
theorem ended_syncRoots (ht : ∀ s, k.rules.UniqueTypes s) (hu : ∀ s, k.rules.UniqueAttributes s)
    (h : k.Consistent w.graphs w.pairs) (hv : w.visited = []) (hc : w.report.conflicts = []) :
    wp (syncRoots k.rules .twoWay k.rootRule) (fun _ w' => ∃ done, Ended k w done w')
      (fun _ _ => True) w := by
  refine Scheme.wp_syncRoots_paired h (fun _ _ => trivial) ?_
  intro r c w₁ hp
  rw [wp_bind]
  refine wp_mono (frees_releaseAllLost hp.consistent.sound hp.consistent.listed
    fun a ha hanchor => hp.consistent.anchor_alive ha hanchor) ?_ fun _ _ hf => hf.elim
  rintro _ w₂ ⟨hf, hleft⟩
  have hc₂ := hf.anchors c hp.entry hp.anchor
  have hroots : w₁.graphs.map Graph.root = w₂.graphs.map Graph.root := rfl
  rw [hroots]
  refine ended_start ht hu
    (steady_start (hp.consistent.freed hf) ?_ ⟨c, hc₂, hp.anchor⟩ ?_ ?_ h.listed ?_ ?_ ?_ ?_)
    hc₂ hp.anchor hp.rule
  · intro a ha s
    have hl := ((hleft a).mp ha).2 s
    rwa [← hf.contains] at hl
  · rw [hf.visited, hp.visited, hv]
  · rw [hf.conflicts, hp.conflicts, hc]
  · exact Nat.le_trans hp.next_le (Nat.le_of_eq hf.pairs_next.symm)
  · intro a ha hold
    exact ⟨a, (hp.fresh a (hf.entries.subset ha)).resolve_right (Nat.not_le_of_lt hold), rfl⟩
  · exact fun s x name => (hf.reading s x name).trans (by rw [hp.graphs])
  · exact fun a ha => hp.shadow? a (hf.entries.subset ha)

end GraphSync.Merge
