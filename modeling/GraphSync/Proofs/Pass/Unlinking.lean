import GraphSync.Proofs.Merge.Restore
import GraphSync.Proofs.Session.Idle
import GraphSync.Proofs.Session.Merge

namespace GraphSync

open Walk

namespace Session

variable {s u : Session} {report report' : Report} {side : Side} {history : List Action}

/-- After a pass that ended well one side may be edited, as long as nothing is deleted and no walk
is started. The next pass takes no member out of a role of the other side, and puts the members that
have left a role of a pair that the first pass met back into it. -/
theorem one_sided_unlinks_undone (hreach : s.Reachable) (hd : s.options.direction = .twoWay)
    (hok : s.synchronize.1 = .ok report) (hidle : ∀ a ∈ history, s.started? a = none)
    (hkept : ∀ a ∈ history, ∀ e ∈ a.edits side, ∀ x, e ≠ .remove x)
    (hother : ∀ a ∈ history, a.edits side.other = [])
    (hlater : u = s.synchronize.2.performAll history) (hok' : u.synchronize.1 = .ok report') :
    (∀ x role, ∀ m ∈ (s.synchronize.2.graphs.on side.other).members x role,
      m ∈ (u.synchronize.2.graphs.on side.other).members x role) ∧
    (s.rules.Unambiguous → ∀ c ∈ s.synchronize.2.pairs.entries, c.id ∈ s.pass.2.visited →
      ∀ r, s.rules.rule? c.rule = some r → ∀ child ∈ r.children,
        ∀ m ∈ (s.synchronize.2.graphs.on side).members (c.element side) (child.roles.on side),
          m ∈ (u.synchronize.2.graphs.on side).members (c.element side)
            (child.roles.on side)) := by
  obtain ⟨hpass, rfl⟩ := pass_of_synchronize hok
  obtain ⟨hpass', rfl⟩ := pass_of_synchronize hok'
  obtain ⟨hk, hrules, hscheme, hoptions⟩ := hreach.later hlater
  have hcollect : u.scheme.Consistent u.collect.walkState.graphs u.collect.walkState.pairs :=
    (leaves_collect hk u.options.direction).consistent
  have hpairs : u.pairs = s.pass.2.pairs := hlater ▸ pairs_idle hidle
  have hmembers : ∀ x role, (u.collect.graphs.on side.other).members x role =
      (s.pass.2.graphs.on side.other).members x role := hlater ▸ members_idle hidle hother
  have hremoved : ∀ a ∈ history, ∀ t, ∀ e ∈ a.edits t, ∀ x, e ≠ .remove x := by
    intro a ha t e he
    rcases side.eq_or_eq_other t with rfl | rfl
    · exact hkept a ha e he
    · rw [hother a ha] at he
      cases he
  have halive : u.collect.walkState.store.Alive :=
    hlater ▸ alive_idle hidle hreach.consistent ⟨_, hok⟩ hremoved
  have hd' : u.options.direction = .twoWay := hoptions ▸ hd
  have hspec := (wp_iff.mp (Merge.retains_syncRoots hcollect halive)).1 ()
  rw [← hd'] at hspec
  obtain ⟨hretains, hanchored⟩ := hspec hpass'
  refine ⟨fun x role m hm => ?_, fun hunambiguous c hc hid r hr child hchild m hm => ?_⟩
  · rw [members_synchronize, ← hmembers] at hm
    rw [members_synchronize]
    exact hretains side.other x role m hm
  · obtain ⟨done, h⟩ := merged_pass hreach.consistent hd hunambiguous hpass
    obtain ⟨done', h'⟩ := merged_pass hk hd' (hrules ▸ hunambiguous) hpass'
    rw [hscheme] at h'
    rw [members_synchronize] at hm ⊢
    exact h.restores hunambiguous.types hpairs hmembers (hanchored h'.anchored) h' hc
      (by simpa using (h.visited c.id).mp hid) hr hchild hm

end Session

/-- A state is taken out of the automaton, but not deleted. -/
def Sample.unlinked : Session :=
  mirroring.synchronize.2.performAll [.mutate .left [.unlink ⟨0⟩ "states" ⟨1⟩]]

/-- The state comes back from the net, where its place has stayed. -/
theorem Session.unlink_undone_unlinked : Sample.mirroring.Reachable ∧
    Sample.mirroring.options.direction = .twoWay ∧
    (∃ report, Sample.mirroring.synchronize.1 = .ok report) ∧
    (∃ c ∈ Sample.unlinked.pairs.entries, c.rule = "StateToPlace" ∧
      c.elements = ⟨⟨1⟩, ⟨1⟩⟩) ∧
    (Sample.unlinked.graphs.on .left).members ⟨0⟩ "states" = [⟨2⟩] ∧
    Sample.unlinked.synchronize.1 = .ok { referencesLinked := 1 } ∧
    (Sample.unlinked.synchronize.2.graphs.on .left).members ⟨0⟩ "states" =
      [⟨1⟩, ⟨2⟩] ∧
    (Sample.unlinked.synchronize.2.graphs.on .right).members ⟨0⟩ "places" =
      [⟨1⟩, ⟨2⟩] := by
  refine ⟨Sample.reachable_mirroring, rfl, ?_, ?_, ?_, ?_, ?_, ?_⟩
  · rw [synchronize_ok_iff]
    decide +kernel
  all_goals decide +kernel

/-- A place is taken out of the net. -/
def Sample.unplacing : List Session.Action := [.edit .right [.unlink ⟨0⟩ "places" ⟨2⟩]]

def Sample.unplaced : Session := mirroring.synchronize.2.performAll unplacing

/-- The place comes back from the automaton, where its state has stayed. -/
theorem Session.one_sided_unlinks_undone_unplaced :
    (∃ report, Sample.mirroring.synchronize.1 = .ok report) ∧
    (∀ a ∈ Sample.unplacing, Sample.mirroring.started? a = none) ∧
    (∃ report, Sample.unplaced.synchronize.1 = .ok report) ∧
    (Sample.unplaced.graphs.on .right).members ⟨0⟩ "places" = [⟨1⟩] ∧
    (∀ m ∈ (Sample.mirroring.synchronize.2.graphs.on .left).members ⟨0⟩ "states",
      m ∈ (Sample.unplaced.synchronize.2.graphs.on .left).members ⟨0⟩ "states") ∧
    ∀ m ∈ (Sample.mirroring.synchronize.2.graphs.on .right).members ⟨0⟩ "places",
      m ∈ (Sample.unplaced.synchronize.2.graphs.on .right).members ⟨0⟩ "places" := by
  obtain ⟨report, hok⟩ : ∃ report, Sample.mirroring.synchronize.1 = .ok report := by
    rw [synchronize_ok_iff]
    decide +kernel
  obtain ⟨report', hok'⟩ : ∃ report, Sample.unplaced.synchronize.1 = .ok report := by
    rw [synchronize_ok_iff]
    decide +kernel
  have hidle : ∀ a ∈ Sample.unplacing, Sample.mirroring.started? a = none := by decide
  have hedits : ∀ a ∈ Sample.unplacing, ∀ e ∈ a.edits .right,
      e = .unlink ⟨0⟩ "places" ⟨2⟩ := by
    decide +kernel
  have hundone := one_sided_unlinks_undone Sample.reachable_mirroring rfl hok hidle
    (fun a ha e he x hx => by cases (hedits a ha e he).symm.trans hx) (by decide +kernel)
    (u := Sample.unplaced) rfl hok'
  refine ⟨⟨_, hok⟩, hidle, ⟨_, hok'⟩, by decide +kernel, hundone.1 ⟨0⟩ "states", ?_⟩
  obtain ⟨c, hc, hid, r, hr, child, hchild, helement, hrole⟩ :
      ∃ c ∈ Sample.mirroring.synchronize.2.pairs.entries,
      c.id ∈ Sample.mirroring.pass.2.visited ∧ ∃ r ∈ Sample.mirroring.rules.rule? c.rule,
        ∃ child ∈ r.children, c.element .right = ⟨0⟩ ∧
          child.roles.on .right = "places" := by
    decide +kernel
  have hback := hundone.2 (by decide +kernel) c hc hid r hr child hchild
  rwa [helement, hrole] at hback

end GraphSync
