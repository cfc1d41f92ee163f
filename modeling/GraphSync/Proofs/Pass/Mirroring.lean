import GraphSync.Proofs.Session.Anchor
import GraphSync.Proofs.Walk.Mirror

namespace GraphSync

/-- Where one side is followed only, the pairs do not share the elements of the other side. -/
theorem OneWay.Coherent.sole {k : OneWay} {graphs : Sided Graph} {t : Correspondences}
    (h : k.Coherent graphs t) {c : Correspondence} (hc : c ∈ t.entries) (role : RoleName) :
    k.scheme.Sole ⟨graphs, t⟩ k.target c.id (c.element k.target) role := by
  refine ⟨fun c' hc' he _ _ _ => congrArg _ (h.target_inj c' hc' c hc he),
    fun hroot => ⟨c, hc, ?_⟩⟩
  cases hi : c.isAnchor with
  | true => rfl
  | false => exact absurd hroot (h.member c hc hi)

/-- Only the members of roles play a part. -/
theorem Scheme.Settled.congr {k : Scheme} {s : Side} {graphs graphs' : Sided Graph}
    {t : Correspondences} {id : CorrespondenceId} (h : k.Settled s ⟨graphs, t⟩ id)
    (hm : ∀ s, (graphs'.on s).members = (graphs.on s).members) :
    k.Settled s ⟨graphs', t⟩ id := by
  intro c hc hi r hr front child back hchildren hback hsole m hmember
  obtain ⟨y, hy, hpaired⟩ :=
    h c hc hi r hr front child back hchildren hback ⟨hsole.entry, hsole.root⟩ m
    (by simpa only [hm] using hmember)
  exact ⟨y, by simpa only [hm] using hy, hpaired⟩

namespace Session

open Walk

variable {s : Session} {source : Side} {forced : Bool} {report : Report}

/-- After a pass that succeeds, in whatever state it started, the pairs whose rule was applied are
settled: each member of a role has its counterpart in the role that mirrors it, if no later child of
the rule and no other pair feeds that. -/
theorem synchronize_settles (hs : s.Reachable) (hd : s.options.direction = .oneWay source forced)
    (hok : s.synchronize.1 = .ok report) :
    ∀ id ∈ s.pass.2.visited, s.scheme.Settled source s.synchronize.2.store id := by
  have hc : s.collect.Consistent := (leaves_collect hs.consistent s.options.direction).consistent
  have hpass : s.pass.1 = .ok () → ∀ id ∈ s.pass.2.visited,
      s.scheme.Settled source s.pass.2.store id := by
    rw [pass, hd]
    exact (wp_iff.mp
      (OneWay.settled_syncRoots (k := s.oneWay source forced) (w := s.collect.walkState) hc rfl)).1
      ()
  intro id hid
  have hsettled := hpass (pass_of_synchronize hok).1 id hid
  exact Scheme.Settled.congr hsettled (members_synchronize s)

/-- The second of two roles that share a role of the net. -/
theorem synchronize_settles_sharing :
    let s := Sample.sharing
    s.Reachable ∧ s.synchronize.1.toOption.isSome = true ∧ ⟨0⟩ ∈ s.pass.2.visited ∧
      ∃ y, s.synchronize.2.store.Mirrors .left ⟨2⟩ ⟨0⟩ "z" y := by
  intro s
  have hs : s.Reachable := Sample.reachable_sharing
  obtain ⟨hok, hvisited, hanchor, hmember⟩ : s.synchronize.1.toOption.isSome = true ∧
      ⟨0⟩ ∈ s.pass.2.visited ∧
      (∃ c ∈ s.synchronize.2.pairs.entries, c.id = ⟨0⟩ ∧ c.rule = "top" ∧
        c.elements = ⟨⟨0⟩, ⟨0⟩⟩) ∧
      ⟨2⟩ ∈ (s.synchronize.2.graphs.on .left).members ⟨0⟩ "y" := by decide +kernel
  let top : Rule :=
    { name := "top"
      types := ⟨"Top", "Net"⟩
      children :=
        [⟨⟨"x", "z"⟩, ⟨"Item", "Box"⟩⟩, ⟨⟨"y", "z"⟩, ⟨"Item", "Box"⟩⟩] }
  have hrule : s.rules.rule? top.name = some top := RuleSet.rule?_of_mem (.head _)
  have hd : s.options.direction = .oneWay .left true := rfl
  have ho : s.options.propagation.isTwoWay = false := rfl
  clear_value s
  obtain ⟨c, hc, hi, hr, hel⟩ := hanchor
  obtain ⟨report, hreport⟩ := exists_ok hok
  have hsettled := synchronize_settles hs hd hreport ⟨0⟩ hvisited c hc hi top (hr ▸ hrule)
    [⟨⟨"x", "z"⟩, ⟨"Item", "Box"⟩⟩] ⟨⟨"y", "z"⟩, ⟨"Item", "Box"⟩⟩ [] rfl
    (fun _ hc => by cases hc) (hi ▸ (hs.follows hd ho).synchronize.coherent.sole hc "z")
  simp only [Correspondence.element, hel] at hsettled
  exact ⟨hs, hok, hvisited, hsettled ⟨2⟩ hmember⟩

/-- Two nodes lead to a third one, and their copies to the copy of it. -/
example : let t := (Sample.copying (.oneWay .left true)).synchronize.2
    ∀ n ∈ [⟨1⟩, ⟨2⟩], ∀ y ∈ t.pairs.partners .left n,
      (t.graphs.on .right).members y "next" = t.pairs.partners .left ⟨3⟩ := by
  decide +kernel

/-- The first one loses the counterpart of its member to the second one. -/
theorem synchronize_unsettles_sharing :
    let s := Sample.sharing
    s.Reachable ∧ s.synchronize.1.toOption.isSome = true ∧ ⟨0⟩ ∈ s.pass.2.visited ∧
      (∃ c ∈ s.synchronize.2.pairs.entries, c.id = ⟨0⟩ ∧ c.rule = "top" ∧
        c.elements = ⟨⟨0⟩, ⟨0⟩⟩) ∧
      ⟨1⟩ ∈ (s.synchronize.2.graphs.on .left).members ⟨0⟩ "x" ∧
      ∀ y, ¬ s.synchronize.2.store.Mirrors .left ⟨1⟩ ⟨0⟩ "z" y := by
  intro s
  obtain ⟨hok, hvisited, hanchor, hmember, hnone⟩ : s.synchronize.1.toOption.isSome = true ∧
      ⟨0⟩ ∈ s.pass.2.visited ∧
      (∃ c ∈ s.synchronize.2.pairs.entries, c.id = ⟨0⟩ ∧ c.rule = "top" ∧
        c.elements = ⟨⟨0⟩, ⟨0⟩⟩) ∧
      ⟨1⟩ ∈ (s.synchronize.2.graphs.on .left).members ⟨0⟩ "x" ∧
      ∀ y ∈ (s.synchronize.2.graphs.on .right).members ⟨0⟩ "z",
        ∀ c ∈ s.synchronize.2.pairs.entries, c.element .left = ⟨1⟩ →
          c.element .right ≠ y := by decide +kernel
  refine ⟨Sample.reachable_sharing, hok, hvisited, hanchor, hmember, ?_⟩
  clear_value s
  rintro y ⟨hy, c, hc, _, hm, hcy⟩
  exact hnone y hy c hc hm hcy

end Session

end GraphSync
