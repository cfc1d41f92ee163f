import GraphSync.Proofs.Pass.Idempotence
import GraphSync.Proofs.Walk.Retry

namespace GraphSync

open Walk

namespace Session

variable {s : Session} {source : Side} {forced : Bool} {e : Error}

/-- A pass that failed before it did anything fails in the same way again. -/
theorem synchronize_of_unchanged (he : s.pass.1 = .error e) (hw : s.pass.2 = s.collect.walkState) :
    s.synchronize.2.synchronize = (.error e, s.synchronize.2) := by
  have hquiet : s.collect.Quiet := fun side => by
    rw [collect_graphs]
    rfl
  have hpass : s.collect.pass = (.error e, s.collect.walkState) := by
    rw [pass, hquiet.collect]
    exact Prod.ext he hw
  have hsame : s.synchronize.2 = s.collect := by
    have hcollected := congrArg Prod.snd (hquiet.synchronize hpass rfl rfl)
    rw [synchronize_eq, hpass, hquiet.collect] at hcollected
    rw [synchronize_eq, hw]
    exact hcollected
  rw [hsame]
  exact hquiet.synchronize hpass rfl rfl

/-- A one-way pass that failed, run again without an edit in between, fails with the same error and
leaves everything as it is. No role of the source graph holds its root, and no value that is carried
over is a NaN. -/
theorem synchronize_retry (hreach : s.Reachable) (hd : s.options.direction = .oneWay source forced)
    (ho : s.options.propagation.isTwoWay = false)
    (hattributes : s.rules.UniqueAttributes source.other)
    (hroles : s.rules.UniqueRoles source.other)
    (hroot : ∀ x role, (s.graphs.on source).root ∉ (s.graphs.on source).members x role)
    (herror : s.synchronize.1 = .error e)
    (hordered : (s.oneWay source forced).Ordered s.synchronize.2.graphs s.synchronize.2.pairs) :
    s.synchronize.2.synchronize = (.error e, s.synchronize.2) := by
  let p : Pass := s.nextPass source forced False False id hroles
  have hdirected : s.Directed p.toOneWay := (hreach.follows hd ho).toDirected
  have hpass := error_of_synchronize herror
  rcases ((pass_spec (p := p) hdirected rfl trivial (fun _ h => h) (fun h => h.elim) fun h =>
      h.elim).2 e hpass).2 with
    hunchanged | ⟨inner, done, g, hb⟩
  · exact synchronize_of_unchanged hpass hunchanged
  · have hk : s.synchronize.2.Consistent := (hreach.consistent.perform .synchronize).1
    have hanchor := hb.steady.anchored ⟨trivial, .inr (OneWay.not_returns hroot)⟩
    have hrun :=
      hb.again (resumes_synchronize hdirected hk hb.steady hb.alive hattributes hordered) hanchor
    rcases hx :
      exec (syncRoots p.rules p.direction p.rootRule) s.synchronize.2.walkState with ⟨_ | _, w⟩
    · rw [wp, hx] at hrun
      obtain ⟨rfl, hgraphs, hpairs⟩ := hrun
      exact s.synchronize_of_pass ((pass_synchronize hdirected).trans hx) hgraphs hpairs
    · rw [wp, hx] at hrun
      exact hrun.elim

/-- A pass that stops half-way below a node, after it has copied one, and before it would unlink
another, stops there again. -/
theorem synchronize_retry_halting :
    Sample.halting.synchronize.1 = .error (.rule (.noRule ⟨"Switch", "Node"⟩)) ∧
    Sample.halting.synchronize.2.pairs ≠ Sample.halting.pairs ∧
    Sample.halting.synchronize.2.synchronize =
      (.error (.rule (.noRule ⟨"Switch", "Node"⟩)), Sample.halting.synchronize.2) := by
  obtain ⟨hd, ho, hattributes, hroles, hreferrers⟩ :
      Sample.halting.options.direction = .oneWay .left true ∧
      Sample.halting.options.propagation.isTwoWay = false ∧
      Sample.halting.rules.UniqueAttributes .right ∧ Sample.halting.rules.UniqueRoles .right ∧
      (Sample.halting.graphs.on .left).referrers (Sample.halting.graphs.on .left).root = [] := by
        decide +kernel
  obtain ⟨herror, hchanged, hordered⟩ :
      Sample.halting.synchronize.1 = .error (.rule (.noRule ⟨"Switch", "Node"⟩)) ∧
      Sample.halting.synchronize.2.pairs ≠ Sample.halting.pairs ∧
      (Sample.halting.oneWay .left true).Ordered Sample.halting.synchronize.2.graphs
        Sample.halting.synchronize.2.pairs := by decide +kernel
  exact ⟨herror, hchanged, synchronize_retry Sample.reachable_halting hd ho hattributes hroles
    (Graph.Sound.notMem_of_referrers hreferrers) herror hordered⟩

end Session

end GraphSync
