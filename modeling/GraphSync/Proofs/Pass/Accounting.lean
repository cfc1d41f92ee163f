import GraphSync.Proofs.Session.Flush
import GraphSync.Proofs.Walk.Tally

namespace GraphSync.Session

open Walk

variable {s : Session}

/-- **The report accounts for every effect.** When a pass succeeds, in whatever direction, the
number of elements has grown by those it created, the number of pairs has changed by those it
recorded and released, and the number of members of all roles by those it linked and unlinked. If it
reports no effect, the elements of both graphs, with their attributes and ordered roles, and the
recorded pairs are as they were; only the memory of values may be newer. -/
theorem synchronize_accounts (hs : s.Reachable) {report : Report}
    (h : s.synchronize.1 = .ok report) :
    let t := s.synchronize.2
    t.graphs.left.size + t.graphs.right.size =
      s.graphs.left.size + s.graphs.right.size + report.elementsCreated ∧
    t.pairs.entries.length + report.pairsReleased = s.pairs.entries.length + report.pairsCreated ∧
    t.graphs.left.links + t.graphs.right.links + report.referencesUnlinked =
      s.graphs.left.links + s.graphs.right.links + report.referencesLinked ∧
    (report.isNoop = true →
      (∀ side, (t.graphs.on side).elements = (s.graphs.on side).elements ∧
        (t.graphs.on side).next = (s.graphs.on side).next) ∧
      t.pairs.entries.map Correspondence.core = s.pairs.entries.map Correspondence.core ∧
      t.pairs.next = s.pairs.next) := by
  intro t
  obtain ⟨hok, rfl⟩ := pass_of_synchronize h
  have hconsistent : s.collect.Consistent := (hs.performAll [.collect]).consistent
  have ht : Tallies s.collect.walkState s.pass.2 :=
    (wp_iff.mp
      (tallies_syncRoots (k := s.scheme) (w := s.collect.walkState)
        hconsistent s.options.direction)).1 () hok
  refine ⟨ht.elements, ?_, ?_, fun hnoop => ?_⟩
  · have hpairs := ht.pairs
    exact hpairs
  · have hlinks := ht.links
    exact hlinks
  · have heffects : s.pass.2.report.effects = 0 := by simpa [Report.isNoop] using hnoop
    obtain ⟨hg, hn, hc⟩ := ht.idle heffects
    refine ⟨fun side => ?_, hc, hn⟩
    have hgraph : t.graphs.on side = (s.pass.2.graphs.on side).takeChanges.2 :=
      adopt_graphs s.collect s.pass.2 side
    rw [hgraph, hg]
    cases side <;> exact ⟨rfl, rfl⟩

/-- Deleted nodes and their copies are dropped, one of them is copied anew, and the pass after that
has nothing to do. -/
theorem synchronize_accounts_torn :
    let s := Sample.torn
    (s.Reachable ∧ s.synchronize.1 = .ok {
        elementsCreated := 1, pairsCreated := 1, pairsReleased := 2, attributesUpdated :=
          2, referencesLinked := 2
        referencesUnlinked := 1 } ∧
      s.synchronize.2.synchronize.1 = .ok {}) ∧
    s.synchronize.2.graphs.left.size + s.synchronize.2.graphs.right.size = s.graphs.left.size +
      s.graphs.right.size + 1 ∧
    s.synchronize.2.pairs.entries.length + 2 = s.pairs.entries.length + 1 ∧
    s.synchronize.2.graphs.left.links + s.synchronize.2.graphs.right.links + 1 =
      s.graphs.left.links + s.graphs.right.links + 2 ∧
    ∀ side, (s.synchronize.2.synchronize.2.graphs.on side).elements =
      (s.synchronize.2.graphs.on side).elements := by
  intro s
  have hs : s.Reachable := Sample.reachable_carrying.performAll _
  obtain ⟨hok, hagain⟩ : s.synchronize.1 = .ok {
      elementsCreated := 1, pairsCreated := 1, pairsReleased := 2, attributesUpdated :=
        2, referencesLinked := 2
      referencesUnlinked := 1 } ∧ s.synchronize.2.synchronize.1 = .ok {} := by decide +kernel
  clear_value s
  obtain ⟨hsize, hpairs, hlinks, _⟩ := synchronize_accounts hs hok
  obtain ⟨_, _, _, hnoop⟩ := synchronize_accounts (hs.performAll [.synchronize]) hagain
  exact ⟨⟨hs, hok, hagain⟩, hsize, hpairs, hlinks, fun side => ((hnoop rfl).1 side).1⟩

end GraphSync.Session
