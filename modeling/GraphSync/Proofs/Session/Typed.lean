import GraphSync.Proofs.Session.Waiting
import GraphSync.Proofs.Walk.Memory

namespace GraphSync

open Walk

namespace Session

variable {s : Session}

/-- The record agrees with the rules and the graphs, and remembers values of bindings only. -/
def Orderly (s : Session) : Prop := s.Consistent ∧ s.scheme.Indexed s.pairs

theorem Orderly.synchronize (h : s.Orderly) : s.synchronize.2.Orderly := by
  have hconsistent := h.1.perform .synchronize
  have hcollect : s.collect.Consistent := (leaves_collect h.1 s.options.direction).consistent
  have hpass :=
    exec_of_wp
      (Scheme.indexed_syncRoots (d := s.options.direction) (w := s.collect.walkState) hcollect h.2)
  exact ⟨hconsistent.1, hpass⟩

theorem Orderly.flush (h : s.Orderly) : s.flush.2.Orderly := by
  refine ⟨(h.1.perform .flush).1, ?_⟩
  have hcollect : s.collect.Consistent := (leaves_collect h.1 s.options.direction).consistent
  by_cases hempty : s.collect.queue.items = []
  · rw [flush_of_nil hempty]
    exact h.2
  have hdrained : s.scheme.Consistent s.drained.2.walk.graphs s.drained.2.walk.pairs ∧
      s.scheme.Indexed s.drained.2.walk.pairs := by
    let I (w : State) : Prop := s.scheme.Consistent w.graphs w.pairs ∧ s.scheme.Indexed w.pairs
    refine drain_keep (I := I) ?_ ⟨hcollect, h.2⟩
    intro p _ ha w hw
    have hside := mem_authorities_of_accepts ha
    have hboth := wp_and (Scheme.carries_carry hw.1 hside p.change)
      (Scheme.indexed_carry hw.1 hw.2 hside p.change)
    refine exec_of_wp (I := I) (wp_mono hboth ?_ ?_)
    · exact fun _ _ hc => ⟨hc.1.1.consistent, hc.2⟩
    · exact fun _ _ hc => ⟨hc.1.1.consistent, hc.2⟩
  obtain ⟨_, _, hsub, _⟩ := releaseDeleted_spec s.drained.2.walk
  have hleft : s.scheme.Indexed (releaseDeleted s.drained.2.walk).pairs :=
    hdrained.2.subset hsub.subset
  have hscheme : s.flush.2.scheme = s.scheme := scheme_perform s .flush
  rw [hscheme, flush_of_ne_nil hempty]
  exact hleft

theorem Orderly.perform (h : s.Orderly) (a : Action) : (s.perform a).Orderly := by
  refine perform_keep a h ?_ ?_ ?_ ?_ ?_
  · exact fun t ht => ⟨(ht.1.perform .collect).1, ht.2⟩
  · exact fun t side es _ ht => ⟨(ht.1.perform (.mutate side es)).1, ht.2⟩
  · exact fun t side on ht => ⟨ht.1.observe side on, ht.2⟩
  · exact fun t ht => ht.synchronize
  · exact fun t ht => ht.flush

theorem Reachable.orderly (h : s.Reachable) : s.Orderly := by
  obtain ⟨rules, rootRule, graphs, options, history, hg, rfl⟩ := h
  refine performAll_induction ?_ (fun t a ht => ht.perform a) history
  exact ⟨.empty _ fun side => (hg side).sound, Scheme.indexed_empty _⟩

/-- In every session that clients can bring about, each recorded pair names a registered rule; its
elements were handed out by their graphs, and as far as they live they have the types of that rule;
and what the pair remembers are values of bindings of the rule. -/
theorem pairs_typed (h : s.Reachable) :
    ∀ c ∈ s.pairs.entries, ∃ r, s.rules.rule? c.rule = some r ∧
    (∀ side, (c.element side).index < (s.graphs.on side).next ∧
      ∀ kind, (s.graphs.on side).kind? (c.element side) = some kind →
        kind = r.types.on side) ∧
    ∀ index, c.shadow? index ≠ none → index < r.bindings.length := by
  intro c hc
  obtain ⟨hconsistent, hindexed⟩ := h.orderly
  obtain ⟨r, hr, htypes⟩ := hconsistent.typed c hc
  have hallocated (side : Side) := hconsistent.element_lt side c hc
  exact ⟨r, hr, fun side => ⟨hallocated side, htypes side⟩, hindexed c hc r hr⟩

/-- A pair that has lost its right element, and remembers the names of the two, is a pair of its
rule as well. -/
theorem pairs_typed_pruned :
    let s := Sample.pruned
    s.Reachable ∧ ∃ c ∈ s.pairs.entries,
      (s.graphs.on .right).contains (c.element .right) = false ∧
      c.shadow? 0 ≠ none ∧ ∃ r, s.rules.rule? c.rule = some r ∧
        (∀ side, (c.element side).index < (s.graphs.on side).next ∧
          ∀ kind, (s.graphs.on side).kind? (c.element side) = some kind →
            kind = r.types.on side) ∧
        ∀ index, c.shadow? index ≠ none → index < r.bindings.length := by
  intro s
  have hreachable : s.Reachable := Sample.reachable_carrying.performAll _
  have hlost : ∃ c ∈ s.pairs.entries,
      (s.graphs.on .right).contains (c.element .right) = false ∧
      c.shadow? 0 ≠ none := by decide +kernel
  obtain ⟨c, hc, hdead, hshadow⟩ := hlost
  exact ⟨hreachable, c, hc, hdead, hshadow, pairs_typed hreachable c hc⟩

end Session

end GraphSync
