import GraphSync.Proofs.Session.Waiting
import GraphSync.Proofs.Walk.Bypass

namespace GraphSync

open Walk

namespace Session

variable {s : Session}

theorem bypasses_collect (s : Session) : s.store.Bypasses s.collect.store :=
  .of_elements (fun side => by cases side <;> rfl) (fun _ hc => .inl hc) fun _ hc _ => hc

theorem bypasses_adopt (s : Session) (w : State) : w.store.Bypasses (s.adopt w).store :=
  .of_elements (fun side => by cases side <;> rfl) (fun _ hc => .inl hc) fun _ hc _ => hc

theorem bypasses_synchronize (h : s.Consistent) : s.store.Bypasses s.synchronize.2.store := by
  have hc : s.collect.Consistent := (leaves_collect h s.options.direction).consistent
  have hpass : s.collect.store.Bypasses s.pass.2.store := by
    rw [pass]
    exact exec_of_wp (I := fun w => s.collect.store.Bypasses w.store)
      (Scheme.bypasses_syncRoots (k := s.scheme) hc)
  exact (bypasses_collect s).trans (hpass.trans (bypasses_adopt s.collect s.pass.2))

/-- While edits are worked off, what was noted as deleted stays so: its handle is not given to a new
element. -/
theorem bypasses_drained (h : s.Timely) : s.collect.store.Bypasses s.drained.2.walk.store ∧
    ∀ p ∈ s.drained.2.walk.deleted, (s.drained.2.walk.graphs.on p.1).contains p.2 = false := by
  have hcollect := preserves_collect h.consistent
  have hc : s.collect.Consistent := (leaves_collect h.consistent s.options.direction).consistent
  let Gone (w : State) (p : Side × ElementId) : Prop :=
    (w.graphs.on p.1).contains p.2 = false ∧ p.2.index < (w.graphs.on p.1).next
  let I (w : State) : Prop :=
    s.scheme.Consistent w.graphs w.pairs ∧ s.collect.store.Preserves w.store ∧
    s.collect.store.Bypasses w.store ∧ ∀ p ∈ w.deleted, Gone w p
  have hdrained : I s.drained.2.walk := by
    refine drain_keep (fun q hq ha w hw => ?_)
      ⟨hc, .refl hc.sound, .refl _, fun p hp => by cases hp⟩
    obtain ⟨hk, hpres, hby, hgone⟩ := hw
    have hside := mem_authorities_of_accepts ha
    have hstep {w' : State} (hcarried : s.scheme.Carried q.side q.change w w')
        (hby' : w.store.Bypasses w'.store) : I w' := by
      have later {p : Side × ElementId} (hp : Gone w p) : Gone w' p :=
        ⟨hcarried.preserves.gone hp.2 hp.1,
          Nat.lt_of_lt_of_le hp.2 (hcarried.preserves.follows p.1).next_le⟩
      refine ⟨hcarried.consistent, hpres.trans hcarried.preserves, hby.trans hby',
        fun p hp => later ?_⟩
      rcases (hcarried.deleted p).mp hp with hp | ⟨role, index, target, he, rfl, hd⟩
      · exact hgone p hp
      · have hle := Nat.le_trans (hcollect.follows q.side).next_le (hpres.follows q.side).next_le
        exact ⟨hd, Nat.lt_of_lt_of_le (h.dated q hq role index target (.inr he)) hle⟩
    refine exec_of_wp (wp_mono
      (wp_and (Scheme.carried_carry hk hside q.change) (Scheme.bypasses_carry hk hside q.change))
      ?_ ?_)
    · exact fun _ _ hw => hstep hw.1 hw.2
    · exact fun _ _ hw => hstep hw.1.1 hw.2
  exact ⟨hdrained.2.2.1, fun p hp => (hdrained.2.2.2 p hp).1⟩

theorem bypasses_flush (h : s.Timely) : s.store.Bypasses s.flush.2.store := by
  by_cases hempty : s.collect.queue.items = []
  · rw [flush_of_nil hempty]
    exact bypasses_collect s
  obtain ⟨hdrained, hgone⟩ := bypasses_drained h
  rw [flush_of_ne_nil hempty]
  have hreleased := Scheme.bypasses_releaseDeleted hgone
  exact (bypasses_collect s).trans (hdrained.trans (hreleased.trans (bypasses_adopt s.collect _)))

/-- Whatever the direction and the propagation are, and however a pass or a flush ends: elements
that were live are live with the same types, and those that take part in no correspondence, neither
before nor after, keep their attributes and ordered roles and stay members, in the same order, of
the roles that list them. -/
theorem foreign_untouched (hs : s.Reachable) (side : Side) :
    (s.graphs.on side).Spared (s.store.Foreign s.synchronize.2.store side)
      (s.synchronize.2.graphs.on side) ∧
      (s.graphs.on side).Spared (s.store.Foreign s.flush.2.store side) (s.flush.2.graphs.on side) :=
  ⟨(bypasses_synchronize hs.consistent).spared side, (bypasses_flush hs.timely).spared side⟩

/-- A copy leaves the role in which it stands before a node that has no counterpart, and its
neighbours are copies. -/
theorem foreign_untouched_hosting :
    let s := Sample.hosting
    s.Reachable ∧ s.store.Foreign s.synchronize.2.store .right ⟨4⟩ ∧
      s.store.Foreign s.flush.2.store .right ⟨4⟩ ∧
      (s.graphs.on .right).members ⟨0⟩ "nodes" = [⟨1⟩, ⟨4⟩, ⟨3⟩] ∧
      (∀ t ∈ [s.synchronize.2, s.flush.2],
        (t.graphs.on .right).members ⟨0⟩ "nodes" = [⟨4⟩, ⟨3⟩]) ∧
      (s.graphs.on .right).Spared (s.store.Foreign s.synchronize.2.store .right)
        (s.synchronize.2.graphs.on .right) ∧
      (s.graphs.on .right).Spared (s.store.Foreign s.flush.2.store .right)
        (s.flush.2.graphs.on .right) := by
  intro s
  have hs : s.Reachable := Sample.reachable_carrying.performAll _
  exact ⟨hs, ⟨by decide +kernel, by decide +kernel, by decide +kernel⟩,
    ⟨by decide +kernel, by decide +kernel, by decide +kernel⟩, by decide +kernel, by
      decide +kernel,
    foreign_untouched hs .right⟩

end Session

end GraphSync
