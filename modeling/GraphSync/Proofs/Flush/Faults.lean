import GraphSync.Proofs.Session.Waiting

namespace GraphSync.Session

variable {s : Session}

/-- A flush fails in a graph only for the deleted counterpart of an element that was edited; a
removal never makes it fail. A flush that succeeds has worked off all that waited. -/
theorem flush_faults (hs : s.Reachable) :
    (∀ g, s.flush.1 = .error (.graph g) → ∃ side c x, s.Waits side c ∧
      s.options.accepts side = true ∧ s.store.Misses s.rules side c x ∧
      g = .unknownElement x) ∧
    ∀ report, s.flush.1 = .ok report → ∀ side c, ¬ s.flush.2.Waits side c := by
  have ht := hs.timely
  obtain ⟨hflushed, hempty, hfault⟩ := flush_spec ht.consistent ht.dated
  refine ⟨fun g hg => ?_, fun report hr side c hc => ?_⟩
  · obtain ⟨p, hp, ha, x, hm, hx⟩ := hfault g hg
    exact ⟨p.side, p.change, x, exists_mem_collect.mp ⟨p, hp, rfl, rfl⟩, ha, hm, hx⟩
  · rcases hc with ⟨p, hp, _⟩ | ⟨_, hj⟩
    · rw [hempty report hr] at hp
      cases hp
    · rw [hflushed.journal] at hj
      cases hj

/-- The copy of a node is gone, but the edit that waits only takes the node out of a role. -/
theorem flush_faults_pruned : Sample.pruned.Reachable ∧
    Sample.pruned.Waits .left ⟨⟨0⟩, .referenceRemoved "nodes" 0 ⟨1⟩⟩ ∧
    (∀ g, Sample.pruned.flush.1 ≠ .error (.graph g)) ∧
    ∀ side c, ¬ Sample.pruned.flush.2.Waits side c := by
  have hs : Sample.pruned.Reachable := Sample.reachable_carrying.performAll _
  have hitems :
      Sample.pruned.collect.queue.items =
        [⟨0, .left, ⟨⟨0⟩, .referenceRemoved "nodes" 0 ⟨1⟩⟩⟩] := by
    decide +kernel
  obtain ⟨report, hok⟩ :=
    exists_ok (show Sample.pruned.flush.1.toOption.isSome = true by decide +kernel)
  obtain ⟨hfaults, hdone⟩ := flush_faults hs
  refine ⟨hs, exists_mem_collect.mp ⟨_, hitems ▸ List.mem_singleton_self _, rfl, rfl⟩,
    fun g hg => ?_, hdone report hok⟩
  obtain ⟨side, c, x, hc, _, hm, _⟩ := hfaults g hg
  obtain ⟨p, hp, rfl, rfl⟩ := exists_mem_collect.mpr hc
  rw [hitems] at hp
  obtain rfl := List.mem_singleton.mp hp
  obtain ⟨_, _, _, _, r, _, hasks⟩ := hm.paired
  exact hasks

/-- The copy of a node is gone and the node is renamed: its name cannot be carried over, and the
edit behind it is left. -/
theorem flush_fails_bereft : Sample.bereft.Reachable ∧
    Sample.bereft.flush.1 = .error (.graph (.unknownElement ⟨1⟩)) ∧
    Sample.bereft.flush.2.Waits .left
      ⟨⟨0⟩, .attributeSet "name" (.text "net") (.text "web")⟩ := by
  have hitems : Sample.bereft.flush.2.queue.items =
      [⟨1, .left, ⟨⟨0⟩, .attributeSet "name" (.text "net") (.text "web")⟩⟩] := by
        decide +kernel
  exact ⟨Sample.reachable_carrying.performAll _, by decide +kernel,
    .inl ⟨_, hitems ▸ List.mem_singleton_self _, rfl, rfl⟩⟩

end GraphSync.Session
