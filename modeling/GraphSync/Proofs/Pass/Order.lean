import GraphSync.Proofs.Pass.Convergence
import GraphSync.Proofs.Session.Anchor
import GraphSync.Proofs.Walk.AlignWhole

namespace GraphSync

open Walk

namespace Pass

variable {p : Pass} {w : State} {done : List Frame} {f g : Frame} {c : Correspondence}

/-- Where a rule was applied, every member has a counterpart in the role that mirrors its own. -/
theorem RoleDone.exists_partner {child : Child} (h : p.RoleDone w done f child) {m : ElementId}
    (hm : m ∈ p.followed f child) :
    ∃ y ∈ p.mirrored w f child, y ∈ w.pairs.partners p.source m := by
  obtain ⟨ys, hmet, _⟩ := h
  obtain ⟨y, _, c, hchosen, rfl, _⟩ := exists_of_mem_left hmet hm
  exact ⟨c.element p.target, hchosen.placed,
    Correspondences.mem_partners.mpr ⟨c, hchosen.mem, hchosen.of_member, rfl⟩⟩

/-- Where a rule was applied and the counterparts of the members are in order, there is one of
each. -/
theorem Passed.tracks (h : p.Passed w done g) (hc : c ∈ w.pairs.entries)
    (hv : c.id ∈ w.visited) :
    ∃ r, p.rules.rule? c.rule = some r ∧ ∀ child ∈ r.children, p.Sorts w.store c child →
      w.pairs.Tracks p.source (w.store.role c child p.source) (w.store.role c child p.target) := by
  obtain ⟨f, tail, hrule, _, hdone, hmembers⟩ := h.exists_done hc hv
  have hco := h.steady.coherent
  refine ⟨f.rule, hrule, fun child hchild hsorts => ?_⟩
  have hapart : w.store.Apart p.target := hco.target_inj
  refine Correspondences.InOrder.tracks hsorts ((hco.sound _).members_nodup _ _)
    (fun _ _ _ _ => hapart.partner_unique) fun m hm => ?_
  have hm : m ∈ p.followed f child := (hmembers child).1 ▸ hm
  have hpartner := (hdone.roles child hchild).exists_partner hm
  rwa [← (hmembers child).2] at hpartner

/-- No rule leads back to a root that is in no role. -/
theorem spare_of_referrers (hintact : p.intact) (hroot : p.base.referrers p.base.root = []) :
    p.spare := by
  refine ⟨hintact, .inr ?_⟩
  rintro ⟨n, n', _, ⟨child, _, hm, _⟩, he, _⟩
  exact Graph.Sound.notMem_of_referrers hroot _ _ (he ▸ hm)

end Pass

namespace Session

variable {s : Session} {source : Side} {forced : Bool} {report : Report}

/-- A pass that succeeds, in a state in which no role holds a root, leaves in each role that mirrors
another one for a pair whose rule was applied exactly one counterpart of each member, in the order
of the members, if the counterparts that stood there before were in that order. -/
theorem synchronize_in_order (hs : s.Reachable) (hd : s.options.direction = .oneWay source forced)
    (ho : s.options.propagation.isTwoWay = false) (hroles : s.rules.UniqueRoles source.other)
    (hroots : ∀ side, (s.graphs.on side).referrers (s.graphs.on side).root = [])
    (hok : s.synchronize.1 = .ok report) :
    ∀ c ∈ s.synchronize.2.pairs.entries, c.id ∈ s.pass.2.visited → ∃ r,
      s.rules.rule? c.rule = some r ∧ ∀ child ∈ r.children,
        s.pairs.InOrder source (s.store.role c child source) (s.store.role c child source.other) →
          s.synchronize.2.pairs.Tracks source (s.synchronize.2.store.role c child source)
            (s.synchronize.2.store.role c child source.other) := by
  let p : Pass := s.nextPass source forced False False id hroles
  have hdirected : s.Directed p.toOneWay := (hs.follows hd ho).toDirected
  have hpass := (pass_of_synchronize hok).1
  obtain ⟨done, g, hp⟩ :=
    (pass_spec (p := p) hdirected rfl trivial (fun _ h => h) (fun h => h.elim) fun h =>
      h.elim).1 hpass
  have hroot (x : ElementId) (role : RoleName) :
      (s.collect.graphs.on source.other).root ∉
        (s.collect.graphs.on source.other).members x role := by
    rw [members_collect]
    exact Graph.Sound.notMem_of_referrers (hroots source.other) x role
  have hsorts :=
    (wp_iff.mp (OneWay.sorts_syncRoots (k := p.toOneWay) (w := s.collect.walkState) hroles
    (consistent_walkState hdirected hs.consistent) hdirected.collect.coherent hroot)).1 ()
  have hrun : s.pass = exec (syncRoots p.rules p.direction p.rootRule) s.collect.walkState := by
    rw [pass, hdirected.rules, hdirected.direction, hdirected.rootRule]
  rw [← hrun] at hsorts
  have hkept :=
    hsorts hpass (hp.steady.anchored (Pass.spare_of_referrers hp.intact (hroots source)))
  intro c hc hv
  obtain ⟨r, hr, htracks⟩ := hp.tracks hc hv
  refine ⟨r, hr, fun child hchild hin => ?_⟩
  have hrole (side : Side) :
      s.collect.walkState.store.role c child side = s.store.role c child side :=
    congrArg (fun members : ElementId → RoleName → List ElementId => members _ _)
      (members_collect s side)
  have hrole' (side : Side) :
      s.synchronize.2.store.role c child side = s.pass.2.store.role c child side :=
    congrArg (fun members : ElementId → RoleName → List ElementId => members _ _)
      (members_synchronize s side)
  have hbefore : p.Sorts s.collect.walkState.store c child := by
    rw [OneWay.Sorts, hrole, hrole]
    exact hin
  rw [hrole', hrole']
  exact htracks child hchild (hkept c hc r hr child hchild hbefore)

/-- A node has left the net, one was put before the others and one that follows them comes in; on
the right a node that has no counterpart stands among the copies. The copy of the node that left
stays, as the pass is not forced. -/
theorem synchronize_in_order_nodes :
    let s := (Sample.copying (.oneWay .left false)).performAll [.synchronize,
      .mutate .left
        [.add "Node", .insert ⟨0⟩ "nodes" 0 ⟨4⟩, .unlink ⟨0⟩ "nodes" ⟨1⟩,
          .push ⟨0⟩ "nodes" ⟨3⟩],
      .mutate .right [.add "Node", .insert ⟨0⟩ "nodes" 1 ⟨4⟩]]
    let t := s.synchronize.2
    s.Reachable ∧ s.synchronize.1.toOption.isSome = true ∧
      (s.graphs.on .left).members ⟨0⟩ "nodes" = [⟨4⟩, ⟨2⟩, ⟨3⟩] ∧
      (s.graphs.on .right).members ⟨0⟩ "nodes" = [⟨1⟩, ⟨4⟩, ⟨3⟩] ∧
      s.pairs.InOrder .left ((s.graphs.on .left).members ⟨0⟩ "nodes")
        ((s.graphs.on .right).members ⟨0⟩ "nodes") ∧
      (t.graphs.on .right).members ⟨0⟩ "nodes" =
        [⟨1⟩, ⟨4⟩, ⟨5⟩, ⟨3⟩, ⟨2⟩] ∧
      t.pairs.Tracks .left ((t.graphs.on .left).members ⟨0⟩ "nodes")
        ((t.graphs.on .right).members ⟨0⟩ "nodes") := by
  intro s t
  have hs : s.Reachable := ⟨_, _, _, _, _, Sample.built_copying (.oneWay .left false), rfl⟩
  obtain ⟨hset, hroots, hchild⟩ :
        (s.options.direction = .oneWay .left false ∧ s.options.propagation.isTwoWay = false ∧
        s.rules.UniqueRoles .right) ∧
      ((s.graphs.on .left).referrers (s.graphs.on .left).root = [] ∧
        (s.graphs.on .right).referrers (s.graphs.on .right).root = []) ∧
      ∀ r ∈ s.rules.rule? "NetToNet",
        ⟨⟨"nodes", "nodes"⟩, ⟨"Node", "Node"⟩⟩ ∈ r.children := by decide +kernel
  obtain ⟨hok, hanchor, hleft, hright, hright', hin⟩ :
      s.synchronize.1.toOption.isSome = true ∧
      (∃ c ∈ t.pairs.entries, c.id ∈ s.pass.2.visited ∧ c.rule = "NetToNet" ∧
        c.elements = ⟨⟨0⟩, ⟨0⟩⟩) ∧
      (s.graphs.on .left).members ⟨0⟩ "nodes" = [⟨4⟩, ⟨2⟩, ⟨3⟩] ∧
      (s.graphs.on .right).members ⟨0⟩ "nodes" = [⟨1⟩, ⟨4⟩, ⟨3⟩] ∧
      (t.graphs.on .right).members ⟨0⟩ "nodes" =
        [⟨1⟩, ⟨4⟩, ⟨5⟩, ⟨3⟩, ⟨2⟩] ∧
      s.pairs.InOrder .left ((s.graphs.on .left).members ⟨0⟩ "nodes")
        ((s.graphs.on .right).members ⟨0⟩ "nodes") := by
    decide +kernel
  clear_value s
  obtain ⟨report, hreport⟩ := exists_ok hok
  obtain ⟨c, hc, hv, hrule, hel⟩ := hanchor
  obtain ⟨r, hr, htracks⟩ := synchronize_in_order hs hset.1 hset.2.1 hset.2.2
    (fun side => by cases side; exacts [hroots.1, hroots.2]) hreport c hc hv
  have hordered := htracks _ (hchild r (hrule ▸ hr))
  simp only [Store.role, Correspondence.element, hel] at hordered
  exact ⟨hs, hok, hleft, hright, hin, hright', hordered hin⟩

/-- The nodes of the net changed places after a pass. Their copies, out of order now, stay where
they are. -/
example : let moves : List Edit := [.unlink ⟨0⟩ "nodes" ⟨1⟩, .push ⟨0⟩ "nodes" ⟨1⟩]
    let s := (Sample.copying (.oneWay .left false)).performAll [.synchronize, .mutate .left moves]
    (s.graphs.on .left).members ⟨0⟩ "nodes" = [⟨2⟩, ⟨1⟩] ∧
      (s.synchronize.2.graphs.on .right).members ⟨0⟩ "nodes" = (s.graphs.on .right).members
        ⟨0⟩ "nodes" := by
  decide +kernel

end Session

end GraphSync
