import GraphSync.Proofs.Session.Anchor
import GraphSync.Proofs.Walk.Repeat

namespace GraphSync

open Walk

namespace Session

variable {s : Session} {source : Side} {forced : Bool} {report : Report}

/-- There is nothing to collect after a pass. -/
theorem collect_synchronize (s : Session) : s.synchronize.2.collect = s.synchronize.2 :=
  s.quiet_synchronize.collect

/-- A walk that keeps the graphs and the pairs leaves no trace in a session that has just run a
pass. -/
theorem synchronize_of_pass (s : Session) {outcome : Except Error Unit} {w : State}
    (h : s.synchronize.2.pass = (outcome, w)) (hg : w.graphs = s.synchronize.2.graphs)
    (hp : w.pairs = s.synchronize.2.pairs) :
    s.synchronize.2.synchronize = (outcome.map fun _ => w.report, s.synchronize.2) :=
  s.quiet_synchronize.synchronize h hg hp

variable {k : OneWay} {p : Pass} {done : List Frame} {g : Frame}

theorem pass_synchronize (h : s.Directed k) : s.synchronize.2.pass =
    exec (syncRoots k.rules k.direction k.rootRule) s.synchronize.2.walkState := by
  have hd := h.synchronize
  rw [pass, collect_synchronize, hd.rules, hd.rootRule, hd.direction]

theorem kinds_synchronize (hp : p.Passed s.pass.2 done g) (side : Side) :
    (s.synchronize.2.graphs.on side).kind? (s.synchronize.2.graphs.on side).root =
      some (g.rule.types.on side) := by
  rw [kind?_synchronize]
  exact hp.kinds side

/-- What a pass has left is what the next one finds. -/
theorem resumes_synchronize {inner : List Frame} (h : s.Directed p.toOneWay)
    (hk : s.synchronize.2.Consistent) (hsteady : p.Steady inner done s.pass.2)
    (halive : s.pass.2.store.Alive) (hattributes : p.rules.UniqueAttributes p.target)
    (hordered : p.Ordered s.synchronize.2.graphs s.synchronize.2.pairs) :
    p.Resumes inner done s.pass.2 s.synchronize.2.walkState where
  steady := hsteady
  alike := alike_synchronize s
  consistent := by
    rw [← h.synchronize.scheme_eq]
    exact hk
  alive := (alike_synchronize s).alive halive
  attributes := hattributes
  ordered c hc r hr b hbi := by
    have hvalue := hordered c hc r hr b hbi
    rwa [reading_synchronize] at hvalue
  visited := rfl
  conflicts := rfl

/-- With the roots still paired, the next pass does nothing. -/
theorem synchronize_of_anchor (h : s.Directed p.toOneWay) (hk : s.synchronize.2.Consistent)
    (hp : p.Passed s.pass.2 done g) (hattributes : p.rules.UniqueAttributes p.target)
    (hordered : p.Ordered s.synchronize.2.graphs s.synchronize.2.pairs)
    (hanchor : ∃ c ∈ s.synchronize.2.pairs.entries, c.isAnchor = true) :
    s.synchronize.2.synchronize = (.ok {}, s.synchronize.2) := by
  have hrun := hp.again (resumes_synchronize h hk hp.steady hp.alive hattributes hordered) hanchor
  rcases hx :
    exec (syncRoots p.rules p.direction p.rootRule) s.synchronize.2.walkState with ⟨_ | _, w⟩
  · rw [wp, hx] at hrun
    exact hrun.elim
  · rw [wp, hx] at hrun
    obtain ⟨visited, conflicts, _, hnone, rfl⟩ := hrun
    obtain rfl := List.subset_nil.mp hnone
    exact s.synchronize_of_pass ((pass_synchronize h).trans hx) rfl rfl

/-- With their pair gone, it fails, and changes nothing either. -/
theorem synchronize_of_not_anchor (h : s.Directed p.toOneWay) (hp : p.Passed s.pass.2 done g)
    (hn : ∀ c ∈ s.synchronize.2.pairs.entries, c.isAnchor = false) :
    ∃ conflict,
      s.synchronize.2.synchronize = (.error (.pairConflict conflict), s.synchronize.2) := by
  obtain ⟨c, hc, hrule, hel⟩ := hp.steady.rooted hp.intact
  have hrun :=
    Pass.syncRoots_conflict (w := s.synchronize.2.walkState) h.synchronize.coherent hp.rule
    (kinds_synchronize hp) hn ⟨c, hc, hrule, hel⟩
  rcases hx :
    exec (syncRoots p.rules p.direction p.rootRule) s.synchronize.2.walkState with ⟨_ | _, w⟩
  · rw [wp, hx] at hrun
    obtain ⟨rfl, conflict, rfl⟩ := hrun
    exact ⟨conflict, s.synchronize_of_pass ((pass_synchronize h).trans hx) rfl rfl⟩
  · rw [wp, hx] at hrun
    exact hrun.elim

/-- After a one-way pass that succeeded, the next pass succeeds without any effect if and only if
the roots are still paired. Otherwise it reports a conflict. The roots stay paired unless a rule
leads back to the source root under the root rule. -/
theorem synchronize_twice (hreach : s.Reachable) (hd : s.options.direction = .oneWay source forced)
    (ho : s.options.propagation.isTwoWay = false)
    (hattributes : s.rules.UniqueAttributes source.other)
    (hroles : s.rules.UniqueRoles source.other) (hok : s.synchronize.1 = .ok report)
    (hordered : (s.oneWay source forced).Ordered s.synchronize.2.graphs s.synchronize.2.pairs) :
    (s.synchronize.2.synchronize = (.ok {}, s.synchronize.2) ↔
      ∃ c ∈ s.synchronize.2.pairs.entries, c.isAnchor = true) ∧
    ((∀ c ∈ s.synchronize.2.pairs.entries, c.isAnchor = false) →
      ∃ conflict,
        s.synchronize.2.synchronize = (.error (.pairConflict conflict), s.synchronize.2)) ∧
    (¬ (s.oneWay source forced).Returns (s.graphs.on source) →
      ∃ c ∈ s.synchronize.2.pairs.entries, c.isAnchor = true) := by
  let p : Pass := s.nextPass source forced False False id hroles
  have hdirected : s.Directed p.toOneWay := (hreach.follows hd ho).toDirected
  obtain ⟨hpass, rfl⟩ := pass_of_synchronize hok
  obtain ⟨done, g, hp⟩ :=
    (pass_spec (p := p) hdirected rfl trivial (fun _ h => h) (fun h => h.elim) fun h =>
      h.elim).1 hpass
  refine ⟨⟨?_, ?_⟩, ?_, ?_⟩
  · intro hsame
    by_contra hnone
    have hn : ∀ c ∈ s.synchronize.2.pairs.entries, c.isAnchor = false := by
      intro c hc
      exact Bool.eq_false_iff.mpr fun ha => hnone ⟨c, hc, ha⟩
    obtain ⟨conflict, he⟩ := synchronize_of_not_anchor hdirected hp hn
    rw [hsame] at he
    cases he
  · exact synchronize_of_anchor hdirected
      (hreach.consistent.perform .synchronize).1 hp hattributes hordered
  · exact synchronize_of_not_anchor hdirected hp
  · intro hreturns
    exact hp.steady.anchored ⟨trivial, .inr hreturns⟩

/-- A pass after edits on both sides need not be run again. -/
theorem synchronize_twice_edited : (Sample.edited (.oneWay .left false)).synchronize.2.synchronize =
    (.ok {}, (Sample.edited (.oneWay .left false)).synchronize.2) := by
  have hfacts : let s := Sample.edited (.oneWay .left false)
      s.options.direction = .oneWay .left false ∧ s.options.propagation.isTwoWay = false ∧
      s.rules.UniqueAttributes .right ∧ s.rules.UniqueRoles .right ∧
      s.synchronize.1 = .ok { referencesLinked := 2 } ∧
      (s.oneWay .left false).Ordered s.synchronize.2.graphs s.synchronize.2.pairs ∧
      ∃ c ∈ s.synchronize.2.pairs.entries, c.isAnchor = true := by decide +kernel
  obtain ⟨hd, ho, hattributes, hroles, hok, hordered, hanchor⟩ := hfacts
  have htwice := synchronize_twice (Sample.reachable_edited _) hd ho hattributes hroles hok hordered
  exact htwice.1.mpr hanchor

/-- Where the rules lead back to the root, a pass may succeed and the next one fail. -/
theorem synchronize_twice_returning : Sample.returning.Reachable ∧
    Sample.returning.options.direction = .oneWay .left false ∧
    Sample.returning.options.propagation.isTwoWay = false ∧
    Sample.returning.rules.UniqueAttributes .right ∧ Sample.returning.rules.UniqueRoles .right ∧
    Sample.returning.synchronize.1 = .ok
      { elementsCreated := 2, pairsCreated := 2, pairsReleased := 1, referencesLinked := 2 } ∧
    (Sample.returning.oneWay .left false).Ordered Sample.returning.synchronize.2.graphs
      Sample.returning.synchronize.2.pairs ∧
    Sample.returning.synchronize.2.synchronize.1 =
      .error (.pairConflict ⟨"top", ⟨⟨0⟩, ⟨0⟩⟩, ⟨⟨0⟩, ⟨2⟩⟩⟩) := by
  exact ⟨Sample.reachable_returning, by decide +kernel⟩

end Session

end GraphSync
