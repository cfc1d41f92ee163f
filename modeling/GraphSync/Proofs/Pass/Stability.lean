import GraphSync.Proofs.Pass.Idempotence
import GraphSync.Proofs.Session.Merge

namespace GraphSync.Session

open Walk

variable {s : Session} {report : Report} {done done' : List CorrespondenceId}

/-- The walk of the next pass ends well, and changes nothing but the list of visited pairs and the
reported conflicts. -/
theorem pass_again {w₀ : State} (h : Merge.Merged s.scheme w₀ done s.pass.2)
    (hk : s.synchronize.2.Consistent) (hd : s.options.direction = .twoWay)
    (ht : ∀ side, s.rules.UniqueTypes side) (ho : s.scheme.Ordered s.pass.2.store) :
    s.synchronize.2.pass.1 = .ok () ∧
      Scheme.Same done s.pass.2.report.conflicts s.synchronize.2.walkState
        s.synchronize.2.pass.2 := by
  have hrun := h.again ht (alike_synchronize s) hk ho rfl
  apply pass_of_wp
  rw [collect_synchronize]
  rwa [← hd] at hrun

/-- After a pass that follows both sides and ended well, the next pass ends well too, changes
nothing, and reports the same conflicts, perhaps in another order. -/
theorem two_way_stable (hreach : s.Reachable) (hd : s.options.direction = .twoWay)
    (hrules : s.rules.Unambiguous) (hok : s.synchronize.1 = .ok report)
    (hordered : s.scheme.Ordered s.synchronize.2.store) :
    ∃ conflicts, conflicts.Perm report.conflicts ∧
      s.synchronize.2.synchronize = (.ok { conflicts }, s.synchronize.2) := by
  obtain ⟨hpass, rfl⟩ := pass_of_synchronize hok
  have hk : s.synchronize.2.Consistent := (hreach.consistent.perform .synchronize).1
  obtain ⟨done, h⟩ := merged_pass hreach.consistent hd hrules hpass
  have ho : s.scheme.Ordered s.pass.2.store := (alike_synchronize s).symm.ordered hordered
  obtain ⟨hpass', visited, conflicts, _, _, hw⟩ := pass_again h hk hd hrules.types ho
  obtain ⟨done', h'⟩ := merged_pass (s := s.synchronize.2) hk hd hrules hpass'
  rw [hw] at h'
  have ha := alike_synchronize s
  refine ⟨conflicts, ?_, ?_⟩
  · refine (List.perm_ext_iff_of_nodup h'.conflicts_nodup h.conflicts_nodup).mpr
      fun x => ⟨?_, ?_⟩
    · exact fun hx => h'.conflicts_subset hrules.types h ⟨ha.symm.elements, rfl⟩ ho hx
    · exact fun hx => h.conflicts_subset hrules.types h' ⟨ha.elements, rfl⟩ hordered hx
  · rw [s.synchronize_of_pass (Prod.ext hpass' hw) rfl rfl]
    rfl

/-- A renaming on both sides stays in conflict, and nothing else is left to do. -/
theorem two_way_stable_disputed : ∃ report, Sample.disputed.synchronize.1 = .ok report ∧
    (report.conflicts.map fun x => (x.elements, x.attributes)) =
      [(⟨⟨1⟩, ⟨1⟩⟩, ⟨"name", "name"⟩)] ∧
    ∃ conflicts, conflicts.Perm report.conflicts ∧
      Sample.disputed.synchronize.2.synchronize =
        (.ok { conflicts }, Sample.disputed.synchronize.2) := by
  obtain ⟨report, hok⟩ : ∃ report, Sample.disputed.synchronize.1 = .ok report := by
    rw [synchronize_ok_iff]
    decide +kernel
  have hstable :=
    two_way_stable Sample.reachable_disputed (by decide +kernel) (by decide +kernel) hok
    (by decide +kernel)
  obtain ⟨_, rfl⟩ := pass_of_synchronize hok
  exact ⟨_, hok, by decide +kernel, hstable⟩

end GraphSync.Session
