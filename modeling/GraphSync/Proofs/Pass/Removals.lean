import GraphSync.Proofs.Merge.Remain
import GraphSync.Proofs.Pass.Stability
import GraphSync.Proofs.Session.Idle

namespace GraphSync

open Walk

/-- The pair of the roots is never lost. -/
theorem Walk.State.length_lost {k : Scheme} {w : State} (hk : k.Consistent w.graphs w.pairs) :
    w.lost.length = (w.pairs.entries.filter fun c => (c.lostOn? w.graphs).isSome).length := by
  rw [State.lost, List.length_filterMap_eq_countP, Correspondences.members, List.countP_filter,
    ← List.countP_eq_length_filter]
  refine List.countP_congr fun c hc => ?_
  cases ha : c.isAnchor with
  | false => simp
  | true => simp [lostOn?_eq_none.mpr (hk.anchor_alive hc ha)]

namespace Session

variable {s u : Session} {report : Report} {history : List Action}

theorem lostOn?_collect (s : Session) (c : Correspondence) :
    c.lostOn? s.collect.graphs = c.lostOn? s.graphs := by
  simp only [Correspondence.lostOn?, collect_graphs]
  rfl

/-- After a pass that ended well elements may be deleted on either side, as long as no walk is
started in between. The next pass drops the pairs that lost one, and at most takes members out of
roles; the pass after it does nothing. -/
theorem removals_not_undone (hreach : s.Reachable) (hd : s.options.direction = .twoWay)
    (hrules : s.rules.Unambiguous) (hok : s.synchronize.1 = .ok report)
    (hordered : s.scheme.Ordered s.synchronize.2.store)
    (hidle : ∀ a ∈ history, s.started? a = none)
    (hremovals : ∀ a ∈ history, ∀ side, ∀ e ∈ a.edits side, ∃ x, e = .remove x)
    (hlater : u = s.synchronize.2.performAll history) :
    (∃ unlinked conflicts, u.synchronize.1 = .ok
      { pairsReleased :=
        (s.synchronize.2.pairs.entries.filter fun c => (c.lostOn? u.graphs).isSome).length
        referencesUnlinked := unlinked
        conflicts }) ∧
    u.synchronize.2.pairs.entries = s.synchronize.2.pairs.entries.filter
      (fun c => (c.lostOn? u.graphs).isNone) ∧
    (∀ side x, (u.synchronize.2.graphs.on side).kind? x = (u.graphs.on side).kind? x ∧
      (∀ name,
        (u.synchronize.2.graphs.on side).reading x name = (u.graphs.on side).reading x name) ∧
      ∀ role, ((u.synchronize.2.graphs.on side).members x role).Sublist
        ((u.graphs.on side).members x role)) ∧
    ∃ again, u.synchronize.2.synchronize = (.ok again, u.synchronize.2) ∧
      again.isNoop = true := by
  obtain ⟨hpass, rfl⟩ := pass_of_synchronize hok
  obtain ⟨done, h⟩ := merged_pass hreach.consistent hd hrules hpass
  obtain ⟨hk, hrules', hscheme, hoptions⟩ := hreach.later hlater
  have hcollect : u.scheme.Consistent u.collect.walkState.graphs u.collect.walkState.pairs :=
    (leaves_collect hk u.options.direction).consistent
  have hpairs : u.collect.walkState.pairs = s.pass.2.pairs := hlater ▸ pairs_idle hidle
  have hprunes (side : Side) :
      (s.pass.2.graphs.on side).Prunes (u.collect.walkState.graphs.on side) :=
    hlater ▸ prunes_idle hidle (h.consistent.sound side) fun a ha => hremovals a ha side
  have ho : s.scheme.Ordered s.pass.2.store := (alike_synchronize s).symm.ordered hordered
  have hrun := h.run_pruned hrules.types (hscheme ▸ hcollect) hpairs hprunes ho rfl
  rw [← hscheme] at hrun
  have hd' : u.options.direction = .twoWay := hoptions ▸ hd
  obtain ⟨hpass', w₂, hf, hs, hrem, visited, conflicts, _, _, hw⟩ :=
    pass_of_wp (s := u) (hd' ▸ hrun)
  obtain ⟨unlinked, hreport⟩ := hs.report
  have hlost : u.collect.walkState.lost.length =
      (s.synchronize.2.pairs.entries.filter fun c => (c.lostOn? u.graphs).isSome).length := by
    rw [State.length_lost hcollect, hpairs]
    simp only [walkState, lostOn?_collect, pairs_synchronize]
  refine ⟨⟨unlinked, conflicts, ?_⟩, ?_, ?_, ?_⟩
  · rw [synchronize_eq, hpass', hw, ← hlost]
    simp only [Except.map, hreport, walkState, Nat.zero_add]
  · rw [pairs_synchronize, pairs_synchronize, hw]
    simpa only [walkState, lostOn?_collect] using hrem.entries_eq h.consistent.listed hpairs hf
  · intro side x
    rw [kind?_synchronize, reading_synchronize, members_synchronize,
      hw, ← kind?_collect, ← reading_collect, ← members_collect]
    exact ⟨hf.kind? side x, hf.reading side x, hf.members side x⟩
  · have hk' : u.synchronize.2.Consistent := (hk.perform .synchronize).1
    obtain ⟨done', h'⟩ := merged_pass hk hd' (hrules' ▸ hrules) hpass'
    have ho' : u.scheme.Ordered u.pass.2.store := by
      rw [hw]
      exact hrem.ordered (hscheme ▸ ho)
    obtain ⟨hpass'', visited', conflicts', _, _, hw'⟩ :=
      pass_again h' hk' hd' (hrules' ▸ hrules.types) ho'
    refine ⟨{ conflicts := conflicts' }, ?_, rfl⟩
    rw [u.synchronize_of_pass (Prod.ext hpass'' hw') rfl rfl]
    rfl

end Session

/-- A transition leads from the first state to the second. -/
def Sample.moving : Session := mirroring.performAll
  [.mutate .left
    [.add "Transition", .push ⟨3⟩ "start" ⟨1⟩, .push ⟨3⟩ "end" ⟨2⟩,
      .push ⟨0⟩ "transitions" ⟨3⟩]]

/-- The first state is deleted, and the place of the second. -/
def Sample.removing : List Session.Action :=
  [.mutate .left [.remove ⟨1⟩], .edit .right [.remove ⟨2⟩]]

def Sample.removed : Session := moving.synchronize.2.performAll removing

/-- The place of the first state and the second state leave their two roles each, and no role is
filled again. -/
theorem Session.removals_not_undone_removed :
    (∃ report, Sample.moving.synchronize.1 = .ok report) ∧
    (∀ a ∈ Sample.removing, Sample.moving.started? a = none) ∧
    (∀ a ∈ Sample.removing, ∀ side, ∀ e ∈ a.edits side, ∃ x, e = .remove x) ∧
    Sample.removed.synchronize.1 = .ok { pairsReleased := 2, referencesUnlinked := 4 } ∧
    (Sample.removed.synchronize.2.pairs.entries.map Correspondence.elements) =
      [⟨⟨0⟩, ⟨0⟩⟩, ⟨⟨3⟩, ⟨3⟩⟩] ∧
    Sample.removed.synchronize.2.pairs.entries = Sample.moving.synchronize.2.pairs.entries.filter
      (fun c => (c.lostOn? Sample.removed.graphs).isNone) ∧
    ∃ again,
      Sample.removed.synchronize.2.synchronize = (.ok again, Sample.removed.synchronize.2) ∧
      again.isNoop = true := by
  obtain ⟨report, hok⟩ : ∃ report, Sample.moving.synchronize.1 = .ok report := by
    rw [synchronize_ok_iff]
    decide +kernel
  have hidle : ∀ a ∈ Sample.removing, Sample.moving.started? a = none := by decide +kernel
  have hremovals : ∀ a ∈ Sample.removing, ∀ side, ∀ e ∈ a.edits side, ∃ x,
      e = .remove x := by
    have hedits : ∀ a ∈ Sample.removing, ∀ side ∈ Side.all, ∀ e ∈ a.edits side,
        e = .remove ⟨1⟩ ∨ e = .remove ⟨2⟩ := by
      decide +kernel
    intro a ha side e he
    exact (hedits a ha side side.mem_all e he).elim (fun he => ⟨_, he⟩) fun he => ⟨_, he⟩
  have hreachable : Sample.moving.Reachable := Sample.reachable_mirroring.performAll _
  have hdirection : Sample.moving.options.direction = .twoWay := by decide +kernel
  obtain ⟨_, hentries, _, hagain⟩ :=
    removals_not_undone hreachable hdirection (by decide +kernel) hok (by decide +kernel)
    hidle hremovals (u := Sample.removed) rfl
  exact ⟨⟨report, hok⟩, hidle, hremovals, by decide +kernel, by decide +kernel,
    hentries, hagain⟩

end GraphSync
