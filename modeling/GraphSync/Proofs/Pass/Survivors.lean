import GraphSync.Proofs.Pass.Safety
import GraphSync.Proofs.Walk.Shed
import GraphSync.Sample.Sessions

namespace GraphSync

open Walk

variable {rules : RuleSet} {d : Direction} {side : Side} {x m : ElementId} {role : RoleName}

/-- A survivor leaves a role, said of the graphs and the pairs that a pass starts from. -/
theorem Walk.State.leaves_lost_iff {k : Scheme} {w : State} (hk : k.Consistent w.graphs w.pairs)
    (hm : (w.graphs.on side).contains m = true) :
    Leaves rules d w.lost w.pairs side x role m ↔ d.deletesFrom side.other = true ∧
      ∃ c ∈ w.pairs.entries, c.element side = m ∧
        (w.graphs.on side.other).contains (c.element side.other) = false ∧
        ∃ a ∈ w.pairs.entries, a.element side = x ∧ rules.Walks a.rule side role ∧
          ((∀ s, (w.graphs.on s).contains (a.element s) = true) ∨
            c.id.index ≤ a.id.index) := by
  constructor
  · rintro ⟨⟨c, s⟩, hp, rfl, hdeletes, rfl, a, ha, hx, hwalks, hbefore⟩
    obtain ⟨hmem, hlost⟩ := State.mem_lost.mp hp
    have hdead := contains_of_lostOn? hlost
    rw [Side.other_other]
    refine ⟨hdeletes, c, (List.mem_filter.mp hmem).1, rfl, hdead, a, ha, hx, hwalks, ?_⟩
    cases hlost' : a.lostOn? w.graphs with
    | none => exact .inl (lostOn?_eq_none.mp hlost')
    | some t =>
      have hinner : a.isAnchor = false := hk.inner_of_dead ha (contains_of_lostOn? hlost')
      exact .inr
        (hbefore (a, t)
          (State.mem_lost.mpr ⟨List.mem_filter.mpr ⟨ha, by simp [hinner]⟩, hlost'⟩) rfl)
  · rintro ⟨hdeletes, c, hc, rfl, hdead, a, ha, hx, hwalks, hbefore⟩
    have hlost : c.lostOn? w.graphs = some side.other := by
      cases hlost : c.lostOn? w.graphs with
      | none => exact Bool.noConfusion (hdead.symm.trans (lostOn?_eq_none.mp hlost side.other))
      | some s =>
        have hdead' := contains_of_lostOn? hlost
        rcases side.eq_or_eq_other s with rfl | rfl
        · exact Bool.noConfusion (hdead'.symm.trans hm)
        · rfl
    have hinner : c.isAnchor = false := hk.inner_of_dead hc hdead
    refine ⟨(c, side.other), State.mem_lost.mpr ⟨List.mem_filter.mpr ⟨hc, by simp [hinner]⟩, hlost⟩,
      side.other_other, hdeletes, rfl, a, ha, hx, hwalks, fun q hq hid => ?_⟩
    obtain ⟨hmem, hlost'⟩ := State.mem_lost.mp hq
    obtain rfl := hk.listed.eq_of_id (List.mem_filter.mp hmem).1 ha hid
    refine hbefore.resolve_left fun halive => ?_
    rw [lostOn?_eq_none.mpr halive] at hlost'
    cases hlost'

namespace Session

variable {s : Session}

/-- Dropping what was lost always succeeds. A member leaves a role in it exactly if it has lost its
counterpart on a side whose deletions are carried over, and a child of a rule walks the role for a
pair of the owner that has both its elements, or else is not older than the pair of the member. In
particular a survivor stays in the roles of an owner that is a survivor as well, where all pairs of
the owner are older. -/
theorem survivors_unlinked (h : s.Reachable) (hstart : ∃ x, s.anchoring.1 = .ok x) :
    let w := s.anchoring.2
    ∃ w', exec (releaseAllLost s.rules s.options.direction) w = (.ok (), w') ∧
      ∀ side x role m, m ∈ (w'.graphs.on side).members x role ↔
        m ∈ (w.graphs.on side).members x role ∧
        ¬ (s.options.direction.deletesFrom side.other = true ∧
          ∃ c ∈ w.pairs.entries, c.element side = m ∧
            (w.graphs.on side.other).contains (c.element side.other) = false ∧
            ∃ a ∈ w.pairs.entries, a.element side = x ∧ s.rules.Walks a.rule side role ∧
              ((∀ t, (w.graphs.on t).contains (a.element t) = true) ∨
                c.id.index ≤ a.id.index)) := by
  obtain ⟨paired, hpaired⟩ := hstart
  have hcollect : s.collect.Consistent :=
    (leaves_collect h.consistent s.options.direction).consistent
  have hsafe := Scheme.safe_pairRoots (d := s.options.direction) (w := s.collect.walkState) hcollect
  obtain ⟨_, hstarted, _⟩ := (wp_iff.mp hsafe).1 paired hpaired
  have hk : s.scheme.Consistent s.anchoring.2.graphs s.anchoring.2.pairs := hstarted.consistent
  obtain ⟨_, w', hexec, hs⟩ :=
    exec_ok_of_wp (sheds_releaseAllLost hk.sound hk.listed s.rules s.options.direction)
  refine ⟨w', hexec, fun side x role m => ?_⟩
  rw [hs.mem_members]
  refine and_congr_right fun hm => not_congr ?_
  exact State.leaves_lost_iff hk ((hk.sound side).members_live x role m hm)

/-- Two nodes were deleted on the left, and a third one listed the younger of them: its copy is
taken out of the role. -/
theorem survivors_unlinked_felled :
    let s := Sample.felled (.oneWay .left true)
    s.Reachable ∧ (∃ x, s.anchoring.1 = .ok x) ∧
      ⟨2⟩ ∈ (s.anchoring.2.graphs.on .right).members ⟨3⟩ "next" ∧
      ∃ w', exec (releaseAllLost s.rules s.options.direction) s.anchoring.2 = (.ok (), w') ∧
        ⟨2⟩ ∉ (w'.graphs.on .right).members ⟨3⟩ "next" := by
  have hstart :=
    exists_ok (show (Sample.felled (.oneWay .left true)).anchoring.1.toOption.isSome =
      true by decide +kernel)
  obtain ⟨w', hexec, hmem⟩ :=
    survivors_unlinked (Sample.reachable_felled (.oneWay .left true)) hstart
  refine ⟨Sample.reachable_felled _, hstart, by decide +kernel, w', hexec, fun hm => ?_⟩
  refine ((hmem .right ⟨3⟩ "next" ⟨2⟩).mp hm).2 ⟨by decide +kernel, ?_⟩
  obtain ⟨c, hc, he, hdead, a, ha, hx, hwalks, halive⟩ :
      ∃ c ∈ (Sample.felled (.oneWay .left true)).anchoring.2.pairs.entries,
        c.element .right = ⟨2⟩ ∧
        ((Sample.felled (.oneWay .left true)).anchoring.2.graphs.on .left).contains
          (c.element .left) = false ∧
        ∃ a ∈ (Sample.felled (.oneWay .left true)).anchoring.2.pairs.entries,
          a.element .right = ⟨3⟩ ∧
          (Sample.felled (.oneWay .left true)).rules.Walks a.rule .right "next" ∧
          ∀ t ∈ Side.all,
            ((Sample.felled (.oneWay .left true)).anchoring.2.graphs.on t).contains
              (a.element t) = true := by
    decide +kernel
  exact ⟨c, hc, he, hdead, a, ha, hx, hwalks, .inl fun t => halive t t.mem_all⟩

/-- In both directions that carry deletions over from the left, the copy of a node stays in a role
of another copy: both lost their counterparts, and the pair of the other copy, for which a rule
walked the role, was dropped first. -/
theorem survivors_left_linked :
    let linked (d : Direction) : Prop :=
      let w := (Sample.felled d).anchoring.2
      let w' := (exec (releaseAllLost (Sample.felled d).rules d) w).2
      ∃ c ∈ w.pairs.entries, ∃ a ∈ w.pairs.entries,
        (w.graphs.on .left).contains (c.element .left) = false ∧
        (w'.pairs.get? c.id).isNone = true ∧
        (w'.graphs.on .right).contains (c.element .right) = true ∧
        (Sample.felled d).rules.Walks a.rule .right "next" ∧
        c.element .right ∈ (w'.graphs.on .right).members (a.element .right) "next"
    linked (.oneWay .left true) ∧ linked .twoWay := by
  decide +kernel

end Session

end GraphSync
