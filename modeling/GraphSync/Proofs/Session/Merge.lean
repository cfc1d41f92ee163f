import GraphSync.Proofs.Merge.Stable
import GraphSync.Proofs.Session.Anchor

namespace GraphSync.Session

open Walk

variable {s : Session}

/-- After a pass that ended well, rules were applied to all that is reached from the roots. -/
theorem ended_pass (h : s.Consistent) (hd : s.options.direction = .twoWay)
    (ht : ∀ side, s.rules.UniqueTypes side) (hu : ∀ side, s.rules.UniqueAttributes side)
    (hok : s.pass.1 = .ok ()) :
    ∃ done, Merge.Ended s.scheme s.collect.walkState done s.pass.2 := by
  have hcollect : s.scheme.Consistent s.collect.walkState.graphs s.collect.walkState.pairs :=
    (leaves_collect h s.options.direction).consistent
  have hspec := (wp_iff.mp (Merge.ended_syncRoots ht hu hcollect rfl rfl)).1 ()
  rw [← hd] at hspec
  exact hspec hok

theorem merged_pass (h : s.Consistent) (hd : s.options.direction = .twoWay)
    (hrules : s.rules.Unambiguous) (hok : s.pass.1 = .ok ()) :
    ∃ done, Merge.Merged s.scheme s.collect.walkState done s.pass.2 := by
  obtain ⟨done, hended⟩ := ended_pass h hd hrules.types hrules.attributes hok
  exact ⟨done, hended, hended.finished hrules.roles⟩

end GraphSync.Session
