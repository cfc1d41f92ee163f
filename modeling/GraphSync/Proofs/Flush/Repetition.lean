import GraphSync.Proofs.Session.Anchor
import GraphSync.Proofs.Walk.Recarry

namespace GraphSync.Session

open Walk

variable {s : Session} {source : Side} {forced : Bool} {change : Change} {outcome : ChangeOutcome}
  {w w' : State}

/-- An edit of the source side, whatever it is about, was carried over without an error, by a walk
over what a session holds. Carried over again, it succeeds and is skipped, and both graphs and the
record of pairs stay as they are. No value that is carried over is a NaN. -/
theorem carry_twice (hreach : s.Reachable) (hd : s.options.direction = .oneWay source forced)
    (ho : s.options.propagation.isTwoWay = false)
    (hattributes : s.rules.UniqueAttributes source.other)
    (hroles : s.rules.UniqueRoles source.other) (hgraphs : w.graphs = s.graphs)
    (hpairs : w.pairs = s.pairs)
    (hok : exec (carry s.rules s.options.flushDirection source change) w = (.ok outcome, w'))
    (hordered : (s.oneWay source forced).Ordered w'.graphs w'.pairs) :
    ∃ w'', exec (carry s.rules s.options.flushDirection source change) w' =
      (.ok .skipped, w'') ∧ w''.graphs = w'.graphs ∧ w''.pairs = w'.pairs := by
  let k : OneWay := s.oneWay source forced
  have hf : s.Follows k := hreach.follows hd ho
  have hk : k.scheme.Consistent w.graphs w.pairs := by
    rw [hgraphs, hpairs]
    exact hreach.consistent
  have hco : k.Coherent w.graphs w.pairs := by
    rw [hgraphs, hpairs]
    exact hf.coherent
  rw [hf.flushDirection] at hok ⊢
  have hagain := wp_ok (k.carry_again hattributes hroles hk hco change) hok hordered
  obtain ⟨o, w'', hexec, rfl, hstands⟩ := exec_ok_of_wp hagain
  exact ⟨w'', hexec, hstands.graphs, hstands.pairs⟩

/-- A node came below another one, together with a new one below it. Its copy gets its old name back
and leaves a role that lists it, when the edit is carried over for the first time. -/
theorem carry_twice_growing :
    let s := Sample.growing
    let again :=
      exec (carry s.rules s.options.flushDirection .left ⟨⟨2⟩, .referenceAdded "next" 1 ⟨1⟩⟩)
    (again s.walkState).1 = .ok .applied ∧ (again s.walkState).2.report.elementsCreated = 1 ∧
      (again s.walkState).2.report.attributesUpdated = 2 ∧
      (again s.walkState).2.report.referencesUnlinked = 1 ∧
      ∃ w, again (again s.walkState).2 = (.ok .skipped, w) ∧
        w.graphs = (again s.walkState).2.graphs ∧ w.pairs = (again s.walkState).2.pairs := by
  intro s again
  obtain ⟨hd, ho, hattributes, hroles⟩ : s.options.direction = .oneWay .left true ∧
      s.options.propagation.isTwoWay = false ∧ s.rules.UniqueAttributes .right ∧
      s.rules.UniqueRoles .right := by
    decide +kernel
  obtain ⟨hok, hcreated, hupdated, hunlinked, hordered⟩ :
      (again s.walkState).1 = .ok .applied ∧ (again s.walkState).2.report.elementsCreated = 1 ∧
      (again s.walkState).2.report.attributesUpdated = 2 ∧
      (again s.walkState).2.report.referencesUnlinked = 1 ∧
      (s.oneWay .left true).Ordered (again s.walkState).2.graphs (again s.walkState).2.pairs := by
        decide +kernel
  have hreach : s.Reachable := Sample.reachable_carrying.performAll _
  clear_value s
  exact ⟨hok, hcreated, hupdated, hunlinked,
    carry_twice hreach hd ho hattributes hroles rfl rfl (Prod.ext hok rfl) hordered⟩

end GraphSync.Session
