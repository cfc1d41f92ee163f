import GraphSync.Proofs.Walk.Behind

namespace GraphSync.Pass

open Walk

variable {p : Pass} {w w' : State} {inner done : List Frame} {f g : Frame} {child : Child}
  {c : Correspondence} {m y : ElementId}

/-- Another pass starts in `w'`, where one has ended or was broken off in `w`. No value that it
carries over is a NaN. -/
structure Resumes (p : Pass) (inner done : List Frame) (w w' : State) : Prop where
  steady : p.Steady inner done w
  alike : w.Alike w'
  consistent : p.scheme.Consistent w'.graphs w'.pairs
  alive : w'.store.Alive
  attributes : p.rules.UniqueAttributes p.target
  ordered : p.Ordered w.graphs w.pairs
  visited : w'.visited = []
  conflicts : w'.report.conflicts = []

/-- The pairs that are still recorded of those that are done. -/
def recorded (w : State) (done : List Frame) : List CorrespondenceId :=
  (done.map Frame.id).filter (· ∈ w.pairs.entries.map Correspondence.id)

theorem recorded_subset (w : State) (done : List Frame) :
    recorded w done ⊆ w.pairs.entries.map Correspondence.id :=
  fun id hi => by simpa using (List.mem_filter.mp hi).2

namespace Resumes

variable (h : p.Resumes inner done w w')

include h

theorem atRest : p.scheme.AtRest p.direction [] w' (recorded w' done) := by
  have hs := h.steady
  have hl := hs.coherent.listed
  have hrest := (hs.finished.atRest hs h.attributes h.ordered (List.Subset.refl done)).recorded hl
  rw [recorded, h.alike.pairs]
  exact hrest.alike hl h.alike

theorem nodup_recorded : (recorded w' done).Nodup := by
  have hn := h.steady.ids_nodup
  rw [List.map_append] at hn
  exact (List.nodup_append.mp hn).2.1.filter _

/-- The fuel of a pass exceeds the number of pairs. -/
theorem length_entries_le :
    w'.pairs.entries.length + 2 ≤ nestingLimit p.rules p.direction w'.graphs :=
  Nat.add_le_add_right (h.consistent.length_entries_le p.source fun a ha => h.alive a ha p.source) 2

theorem kinds {r : Rule}
    (hk : ∀ s, (w.graphs.on s).kind? (w.graphs.on s).root = some (r.types.on s)) (s : Side) :
    (w'.graphs.on s).kind? (w'.graphs.on s).root = some (r.types.on s) := by
  have hkind := hk s
  rwa [Graph.kind?, ← h.alike.element?] at hkind

end Resumes

/-- After a pass that succeeded, and left the roots paired, another one succeeds and changes
nothing. -/
theorem Passed.again (hp : p.Passed w done g) (h : p.Resumes [] done w w')
    (hanchor : ∃ c ∈ w.pairs.entries, c.isAnchor = true) :
    wp (syncRoots p.rules p.direction p.rootRule) (fun _ => Scheme.Same (recorded w' done) [] w')
      (fun _ _ => False) w' := by
  obtain ⟨c, hm, ha⟩ := hanchor
  have hc : c ∈ w'.pairs.entries := h.alike.pairs.symm ▸ hm
  have hid : c.id = g.id := by
    refine (h.steady.owned g (by simpa using hp.mem)).sole c hm ?_
    rw [Correspondence.element, (h.steady.coherent.anchor c hm ha).2, hp.pair]
  have hlength := (List.subperm_of_subset h.nodup_recorded (recorded_subset w' done)).length_le
  rw [List.length_map] at hlength
  refine Scheme.repeat_syncRoots (k := p.scheme) h.consistent h.alive h.atRest h.nodup_recorded
    (Nat.le_trans (Nat.le_add_right_of_le hlength) h.length_entries_le) hc ha
    (List.mem_filter.mpr ⟨?_, ?_⟩) hp.rule (h.kinds hp.kinds) (by simp [h.conflicts])
  · exact hid ▸ List.mem_map_of_mem hp.mem
  · exact decide_eq_true (List.mem_map_of_mem hc)

/-- Where the pair of the roots was dropped, another pair of the source root contradicts it. -/
theorem syncRoots_conflict (hco : p.Coherent w.graphs w.pairs) {r : Rule}
    (hrule : p.rules.rule? p.rootRule = some r)
    (hkinds : ∀ s, (w.graphs.on s).kind? (w.graphs.on s).root = some (r.types.on s))
    (hn : ∀ c ∈ w.pairs.entries, c.isAnchor = false)
    (hrooted : ∃ c ∈ w.pairs.entries, c.rule = p.rootRule ∧
      c.element p.source = (w.graphs.on p.source).root) :
    wp (syncRoots p.rules p.direction p.rootRule) (fun _ _ => False)
      (fun e w' => w' = w ∧ ∃ conflict, e = .pairConflict conflict) w := by
  apply OneWay.wp_syncRoots hco
  · intro hnone
    rw [hrule] at hnone
    cases hnone
  · intro r' hr hex
    obtain ⟨s, hs⟩ := hex
    rw [hrule] at hr
    cases hr
    exact absurd (hkinds s) hs
  · intro r' hr _
    rcases hco.anchor_cases p.direction with ⟨c, hc, ha, _⟩ | ⟨_, c, _, _, _, he⟩ | ⟨_, hfree, _⟩
    · exact Bool.noConfusion ((hn c hc).symm.trans ha)
    · rw [wp_bind, wp_onPairs, he]
      exact ⟨rfl, _, rfl⟩
    · obtain ⟨c, hc, hr', he⟩ := hrooted
      exact absurd he (hfree c hc hr')

end GraphSync.Pass
