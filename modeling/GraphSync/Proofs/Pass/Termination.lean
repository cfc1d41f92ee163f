import GraphSync.Proofs.Session.Source
import GraphSync.Proofs.Walk.Depth

namespace GraphSync.Session

open Walk

variable {s : Session} {source : Side} {forced : Bool}

/-- **One-way walks terminate.** Of a session that does not carry edits both ways, neither a pass
nor the carrying over of a queued edit ends for want of room: there are never more applications of
rules in progress than rules at live elements of the source side, and one, and none is ever applied
to a pair for a second time. So it does not matter what would be done beyond that bound. -/
theorem one_way_terminates (hs : s.Reachable) (hd : s.options.direction = .oneWay source forced)
    (ho : s.options.propagation.isTwoWay = false) :
    let n := (s.graphs.on source).size * s.rules.size + 1
    Within s.rules s.options.direction n (syncRoots s.rules s.options.direction s.rootRule)
      (fun apply => syncRootsBy s.rules s.options.direction apply s.rootRule)
      s.collect.walkState ∧
    (∀ log w p rest, Works s.rules s.options s.collect.walkState log w →
      s.collect.queue.items = log.map Prod.fst ++ p :: rest → s.options.accepts p.side = true →
      Within s.rules s.options.flushDirection n
        (carry s.rules s.options.flushDirection p.side p.change)
        (fun apply => carryBy s.rules s.options.flushDirection apply p.side p.change) w) ∧
    s.synchronize.1 ≠ .error .tooDeep ∧ s.flush.1 ≠ .error .tooDeep := by
  intro n
  have h := hs.follows hd ho
  have hk : (s.oneWay source forced).scheme.Consistent s.collect.graphs s.collect.pairs :=
    consistent_walkState h.toDirected hs.consistent
  have hn : (s.collect.graphs.on source).size * s.rules.size < n := by
    rw [collect_graphs]
    exact Nat.lt_succ_self _
  have hpass :
      Within s.rules s.options.direction n (syncRoots s.rules s.options.direction s.rootRule)
      (fun apply => syncRootsBy s.rules s.options.direction apply s.rootRule)
      s.collect.walkState := by
    rw [hd]
    exact OneWay.within_syncRoots (k := s.oneWay source forced) hk rfl hn
  have hedit (log : List (Pending × ChangeOutcome)) (w : State) (p : Pending)
      (hworks : Works s.rules s.options s.collect.walkState log w)
      (ha : s.options.accepts p.side = true) :
      Within s.rules s.options.flushDirection n
        (carry s.rules s.options.flushDirection p.side p.change)
        (fun apply => carryBy s.rules s.options.flushDirection apply p.side p.change) w := by
    obtain ⟨hk', hsource⟩ := hworks.source_kept h hk
    have hside : w.graphs.on source = s.collect.graphs.on source := hsource
    rw [h.flushDirection, h.eq_source ha]
    rw [← hside] at hn
    exact OneWay.within_carry (k := s.oneWay source forced) hk' hn p.change
  refine ⟨hpass, fun log w p rest hworks _ ha => hedit log w p hworks ha,
    fun he => hpass.ends (error_of_synchronize he), fun he => ?_⟩
  obtain ⟨log, p, rest, w, hstops, _⟩ := stops_of_flush he
  obtain ⟨w₁, hworks, hrun⟩ := hstops.run
  exact (hedit log w₁ p hworks hstops.accepted).ends (congrArg Prod.fst hrun)

/-- A node that is reached from another one is made to refer back to it: the pass and the flush end
with an error, as the rule is about to be applied to a pair below itself. -/
theorem one_way_terminates_cycle :
    let s := Sample.carrying.performAll [.edit .left [.push ⟨3⟩ "next" ⟨1⟩]]
    (s.Reachable ∧ s.options.direction = .oneWay .left true ∧
      s.options.propagation.isTwoWay = false ∧
      s.synchronize.1 =
        .error (.rule (.invalid "NodeToNode" (.selfApplication ⟨⟨1⟩, ⟨1⟩⟩))) ∧
      s.flush.1 =
        .error (.rule (.invalid "NodeToNode" (.selfApplication ⟨⟨1⟩, ⟨1⟩⟩)))) ∧
    Within s.rules s.options.direction 17 (syncRoots s.rules s.options.direction s.rootRule)
      (fun apply => syncRootsBy s.rules s.options.direction apply s.rootRule)
      s.collect.walkState ∧
    ∃ p, s.collect.queue.items = [p] ∧ s.options.accepts p.side = true ∧
      Within s.rules s.options.flushDirection 17
        (carry s.rules s.options.flushDirection p.side p.change)
        (fun apply => carryBy s.rules s.options.flushDirection apply p.side p.change)
        s.collect.walkState := by
  intro s
  have hs : s.Reachable := Sample.reachable_carrying.performAll _
  obtain ⟨hd, ho, hpass, hflush, hsize, hqueue⟩ : s.options.direction = .oneWay .left true ∧
      s.options.propagation.isTwoWay = false ∧
      s.synchronize.1 =
        .error (.rule (.invalid "NodeToNode" (.selfApplication ⟨⟨1⟩, ⟨1⟩⟩))) ∧
      s.flush.1 =
        .error (.rule (.invalid "NodeToNode" (.selfApplication ⟨⟨1⟩, ⟨1⟩⟩))) ∧
      (s.graphs.on .left).size * s.rules.size + 1 = 17 ∧
      s.collect.queue.items = [⟨0, .left, ⟨⟨3⟩, .referenceAdded "next" 0 ⟨1⟩⟩⟩] ∧
      s.options.accepts .left = true := by
    decide +kernel
  clear_value s
  obtain ⟨hitems, ha⟩ := hqueue
  obtain ⟨hwithin, hedits, _⟩ := one_way_terminates hs hd ho
  rw [hsize] at hwithin hedits
  exact ⟨⟨hs, hd, ho, hpass, hflush⟩, hwithin, _, hitems, ha,
    hedits [] _ _ [] (.nil _) hitems ha⟩

end GraphSync.Session
