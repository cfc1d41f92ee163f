import GraphSync.Proofs.Session.Anchor
import GraphSync.Proofs.Walk.Safe

namespace GraphSync.Session

open Walk

variable {s : Session}

/-- The start of a pass, which pairs the roots: how it ends, and the state that it leaves. -/
def anchoring (s : Session) : Except Error (Rule × CorrespondenceId × Sided ElementId) × State :=
  exec (pairRoots s.rules s.options.direction s.rootRule) s.collect.walkState

/-- A pass that cannot pair the roots ends there; any other drops what was lost and applies the root
rule. -/
theorem pass_eq (s : Session) : s.pass = match s.anchoring with
    | (.ok (r, id, roots), w) =>
      exec (do
        releaseAllLost s.rules s.options.direction
        start s.rules s.options.direction r id roots) w
    | (.error e, w) => (.error e, w) := by
  rw [pass, syncRoots_eq, syncRootsBy, exec_bind, anchoring]
  rcases exec (pairRoots s.rules s.options.direction s.rootRule)
    s.collect.walkState with ⟨_ | _, _⟩ <;> rfl

/-- What is known of a pass, by how its start ends. -/
theorem Consistent.pass_cases (h : s.Consistent) :
    (∃ e, s.anchoring.1 = .error e ∧ s.pass = (.error e, s.collect.walkState) ∧
      (∀ g, e ≠ .graph g) ∧ ∀ name, e = .rule (.unknown name) → name = s.rootRule) ∨
    (∃ x, s.anchoring.1 = .ok x) ∧ s.pass.2.store.Alive ∧
      ∀ e, s.pass.1 = .error e → e.Expected ∧ ∀ g, e ≠ .graph g := by
  have hcollect : s.collect.Consistent := (leaves_collect h s.options.direction).consistent
  obtain ⟨hok, herror⟩ :=
    wp_iff.mp (Scheme.safe_pairRoots (d := s.options.direction) (w := s.collect.walkState) hcollect)
  have hpass := pass_eq s
  cases ha : s.anchoring.1 with
  | error e =>
    obtain ⟨hstate, hgraph, hunknown⟩ := herror e ha
    have hanchoring : s.anchoring = (.error e, s.collect.walkState) := Prod.ext ha hstate
    rw [hanchoring] at hpass
    exact .inl ⟨e, rfl, hpass, hgraph, hunknown⟩
  | ok x =>
    obtain ⟨c, hpaired, hx⟩ := hok x ha
    have hanchoring :
        s.anchoring = (.ok (x.1, c.id, s.anchoring.2.graphs.map Graph.root), s.anchoring.2) :=
      Prod.ext (ha.trans (congrArg Except.ok (Prod.ext rfl hx))) rfl
    rw [hanchoring] at hpass
    obtain ⟨hok', herror'⟩ := wp_iff.mp (Scheme.safe_run (d := s.options.direction) hpaired)
    refine .inr ⟨⟨x, rfl⟩, ?_, ?_⟩
    · rw [hpass]
      cases hr : (exec _ s.anchoring.2).1 with
      | ok u => exact hok' u hr
      | error e => exact (herror' e hr).1
    · intro e he
      rw [hpass] at he
      exact (herror' e he).2

/-- No pass of a session misses an element or computes a position out of bounds, and a rule is
missed only if it is the root rule. Once the roots are paired, what is recorded when the pass
returns, with a report or with an error, are pairs of two live elements. -/
theorem synchronize_safe (h : s.Reachable) :
    (∀ g, s.synchronize.1 ≠ .error (.graph g)) ∧
    (∀ name, s.synchronize.1 = .error (.rule (.unknown name)) → name = s.rootRule) ∧
    ((∃ x, s.anchoring.1 = .ok x) → ∀ c ∈ s.synchronize.2.pairs.entries, ∀ side,
      (s.synchronize.2.graphs.on side).contains (c.element side) = true) := by
  rcases h.consistent.pass_cases with ⟨e, hanchoring, hpass, hgraph, hunknown⟩ | ⟨_, halive, herror⟩
  · have houtcome : s.synchronize.1 = .error e := by
      rw [synchronize_eq, hpass]
      rfl
    rw [houtcome]
    refine ⟨?_, ?_, ?_⟩
    · intro g hg
      exact hgraph g (Except.error.inj hg)
    · intro name hname
      exact hunknown name (Except.error.inj hname)
    · intro ⟨x, hx⟩
      rw [hanchoring] at hx
      cases hx
  · refine ⟨?_, ?_, ?_⟩
    · intro g hg
      exact (herror _ (error_of_synchronize hg)).2 g rfl
    · intro name hname
      exact absurd rfl ((herror _ (error_of_synchronize hname)).1.no_unknown name)
    · intro _ c hc side
      have hlive : (s.pass.2.graphs.on side).contains (c.element side) = true := halive c hc side
      have hkind := kind?_synchronize s side
      obtain ⟨kind, hk⟩ := Graph.contains_iff_kind.mp hlive
      exact Graph.contains_iff_kind.mpr ⟨kind, by rw [hkind, hk]⟩

/-- A node was deleted on either side after a pass, so that two pairs have lost an element. -/
theorem synchronize_safe_nodes :
    let s :=
      Sample.carrying.performAll [.mutate .left [.remove ⟨1⟩], .mutate .right [.remove ⟨2⟩]]
    s.Reachable ∧
      (∀ side, ∃ c ∈ s.pairs.entries,
        (s.graphs.on side).contains (c.element side) = false) ∧
      (∃ x, s.anchoring.1 = .ok x) ∧ (∀ g, s.synchronize.1 ≠ .error (.graph g)) ∧
      (∀ name, s.synchronize.1 = .error (.rule (.unknown name)) → name = s.rootRule) ∧
      ∀ c ∈ s.synchronize.2.pairs.entries, ∀ side,
        (s.synchronize.2.graphs.on side).contains (c.element side) = true := by
  intro s
  have hreachable : s.Reachable := Sample.reachable_carrying.performAll _
  obtain ⟨hlost, hok⟩ : (∀ side ∈ Side.all, ∃ c ∈ s.pairs.entries,
        (s.graphs.on side).contains (c.element side) = false) ∧
        s.anchoring.1.toOption.isSome = true := by decide +kernel
  have hanchoring : ∃ x, s.anchoring.1 = .ok x := exists_ok hok
  obtain ⟨hgraph, hunknown, halive⟩ := synchronize_safe hreachable
  exact ⟨hreachable, fun side => hlost side side.mem_all, hanchoring, hgraph, hunknown,
    halive hanchoring⟩

end GraphSync.Session
